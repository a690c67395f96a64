import Mathlib.Data.List.Forall2
import Mathlib.Data.List.Nodup
import SpiderMonkey.Jit.LIR

/-!
# Runs of an allocated graph

A run keeps what storage holds, beside what the virtual registers would hold. An instruction writes its
temporaries, then its outputs; a call overwrites the registers before that. What an instruction writes
to an output is what it writes to the virtual register that it defined before allocation, and a
phi gives its virtual register the value of its input for the edge that is taken.

The values that instructions write are arbitrary, so what is shown of all runs holds whatever they compute.
-/

namespace SpiderMonkey.Jit.LIR

/-- The virtual registers of instructions, by their numbers, and of the phis of blocks. -/
structure Names where
  instructions : ℕ → InstructionInfo
  phis : ℕ → List InstructionInfo

/-- The virtual registers of a graph before allocation. -/
def LIRGraph.names (g : LIRGraph) : Names where
  instructions id := ((g.nodes.find? (·.id = id)).map LNode.info).getD ⟨[], [], []⟩
  phis b := (g.block b).phis.map LPhi.info

/-- The place of the output that defines a virtual register. There is one at most in a graph in SSA
form. -/
def InstructionInfo.definer (info : InstructionInfo) (v : ℕ) : Option ℕ :=
  info.outputs.findIdx? fun d => d.writes && d.virtualRegister = v

/-- Whether a phi defines a virtual register. -/
def InstructionInfo.isPhiOf (phi : InstructionInfo) (v : ℕ) : Bool :=
  phi.outputs.head?.any (·.virtualRegister = v)

/-- The virtual register whose value another one has when a block is entered on an edge. -/
def Names.phiSource (names : Names) (b j v : ℕ) : Option ℕ :=
  match (names.phis b).find? (·.isPhiOf v) with
  | some phi => (phi.inputs[j]?).bind fun a => a.toUse.map LUse.virtualRegister
  | none => some v

/-- Where the storage of temporaries is written. -/
def LNode.tempTargets (n : LNode) : List (Option LAllocation) :=
  n.temps.map fun t => if t.isBogusTemp then none else some t.output

/-- Where outputs are written. -/
def LNode.defTargets (n : LNode) : List (Option LAllocation) :=
  n.defs.map fun d => if d.writes then some d.output else none

variable {V : Type*}

/-- What storage and the defined virtual registers hold. -/
structure State (V : Type*) where
  phys : LAllocation → V
  virt : ℕ → Option V

/-- The values that an instruction writes, and those that a call leaves in registers. -/
structure Effects (V : Type*) where
  temp : ℕ → V
  out : ℕ → V
  clobber : AnyRegister → V

/-- Write values to targets in order, from a place on. -/
def writeFrom (values : ℕ → V) : ℕ → List (Option LAllocation) → (LAllocation → V) → LAllocation → V
  | _, [], m => m
  | i, none :: rest, m => writeFrom values (i + 1) rest m
  | i, some a :: rest, m => writeFrom values (i + 1) rest (Function.update m a (values i))

/-- A call overwrites the registers. -/
def clobberRegisters (values : AnyRegister → V) (m : LAllocation → V) : LAllocation → V
  | .register reg => values reg
  | a => m a

/-- An instruction other than a group of moves. -/
def LNode.exec (n : LNode) (info : InstructionInfo) (e : Effects V) (s : State V) : State V where
  phys :=
    let m := if n.isCall then clobberRegisters e.clobber s.phys else s.phys
    writeFrom e.out 0 n.defTargets (writeFrom e.temp 0 n.tempTargets m)
  virt v :=
    match info.definer v with
    | some i => some (e.out i)
    | none => s.virt v

/-- An instruction. -/
def LInstruction.exec (names : Names) (e : Effects V) (s : State V) : LInstruction → State V
  | moveGroup group => ⟨fun a => s.phys (group.sourceOf a), s.virt⟩
  | node n => n.exec (names.instructions n.id) e s

/-- A block is entered on an edge. -/
def Names.enter (names : Names) (b j : ℕ) (s : State V) : State V :=
  ⟨s.phys, fun v => (names.phiSource b j v).bind s.virt⟩

/-- What happens in a run. -/
inductive Event where
  | run (ins : LInstruction)
  | enter (b j : ℕ)

/-- The state after a run, whose last event is first. -/
def stateAfter (names : Names) (effects : ℕ → Effects V) (init : LAllocation → V) :
    List Event → State V
  | [] => ⟨init, fun _ => none⟩
  | .run ins :: past =>
    ins.exec names (effects past.length) (stateAfter names effects init past)
  | .enter b j :: past => names.enter b j (stateAfter names effects init past)

/-- A place in a block: the instructions before it, the last first, and those after it. -/
structure Position where
  block : ℕ
  before : List LInstruction
  after : List LInstruction

/-- The runs of a graph that lead to a place. -/
inductive IsPath (g : LIRGraph) : List Event → Position → Prop
  | start : IsPath g [] ⟨0, [], (g.block 0).instructions⟩
  | run {past b before ins after} (h : IsPath g past ⟨b, before, ins :: after⟩) :
    IsPath g (.run ins :: past) ⟨b, ins :: before, after⟩
  | enter {past p before b j} (h : IsPath g past ⟨p, before, []⟩)
    (hpred : (g.block b).predecessors[j]? = some p) :
    IsPath g (.enter b j :: past) ⟨b, [], (g.block b).instructions⟩

/-- Allocation keeps an instruction but for storage. -/
structure LNode.SameShape (n₀ n : LNode) : Prop where
  id : n.id = n₀.id
  isCall : n.isCall = n₀.isCall
  operands : n.operands.length = n₀.operands.length
  snapshot : n.snapshot.length = n₀.snapshot.length
  temps : n.temps.length = n₀.temps.length
  defs : n.defs.map LDefinition.writes = n₀.defs.map LDefinition.writes

/-- Allocation keeps a block but for storage and groups of moves. -/
structure LBlock.SameShape (b₀ b : LBlock) : Prop where
  predecessors : b.predecessors = b₀.predecessors
  nodes : List.Forall₂ LNode.SameShape b₀.nodes b.nodes

/-- A graph is another one after allocation, whose instructions have numbers of their own. -/
structure Allocates (g₀ g : LIRGraph) : Prop where
  nodup_ids : (g₀.nodes.map LNode.id).Nodup
  id_lt : ∀ n ∈ g₀.nodes, n.id < g₀.numInstructions
  blocks : List.Forall₂ LBlock.SameShape g₀.blocks g.blocks

section

variable (names : Names) (effects : ℕ → Effects V) (init : LAllocation → V) (past : List Event)

/-- An instruction defines its outputs. -/
theorem virt_run_node (n : LNode) (v : ℕ) :
    (stateAfter names effects init (.run (.node n) :: past)).virt v =
      match (names.instructions n.id).definer v with
      | some i => some ((effects past.length).out i)
      | none => (stateAfter names effects init past).virt v := rfl

/-- What storage holds after an instruction. -/
theorem phys_run_node (n : LNode) :
    (stateAfter names effects init (.run (.node n) :: past)).phys =
      writeFrom (effects past.length).out 0 n.defTargets
        (writeFrom (effects past.length).temp 0 n.tempTargets
          (if n.isCall then
            clobberRegisters (effects past.length).clobber (stateAfter names effects init past).phys
          else (stateAfter names effects init past).phys)) := rfl

/-- Phis define virtual registers when a block is entered. -/
theorem virt_enter (b j v : ℕ) :
    (stateAfter names effects init (.enter b j :: past)).virt v =
      (names.phiSource b j v).bind (stateAfter names effects init past).virt := rfl

end

/-- Storage that is no target keeps its contents. -/
theorem writeFrom_of_not_mem (values : ℕ → V) {targets : List (Option LAllocation)} {a : LAllocation}
    (h : some a ∉ targets) (i : ℕ) (m : LAllocation → V) : writeFrom values i targets m a = m a := by
  induction targets generalizing i m with
  | nil => rfl
  | cons target rest ih =>
    have hrest : some a ∉ rest := fun hmem => h (List.mem_cons_of_mem _ hmem)
    cases target with
    | none => exact ih hrest (i + 1) m
    | some b =>
      have hne : a ≠ b := fun heq => h (heq ▸ List.mem_cons_self)
      exact (ih hrest (i + 1) _).trans (Function.update_of_ne hne _ _)

/-- Storage has what the last write to it wrote. -/
theorem writeFrom_of_last (values : ℕ → V) {targets : List (Option LAllocation)} {a : LAllocation}
    {k : ℕ} (hk : targets[k]? = some (some a)) (hlast : ∀ j, k < j → targets[j]? ≠ some (some a))
    (i : ℕ) (m : LAllocation → V) : writeFrom values i targets m a = values (i + k) := by
  induction targets generalizing i k m with
  | nil => cases hk
  | cons target rest ih =>
    cases k with
    | zero =>
      cases hk
      have hrest : some a ∉ rest := by
        intro hmem
        obtain ⟨j, hj⟩ := List.mem_iff_getElem?.mp hmem
        exact hlast (j + 1) (Nat.succ_pos j) hj
      exact (writeFrom_of_not_mem values hrest (i + 1) _).trans (Function.update_self a _ m)
    | succ k =>
      have hrest : ∀ j, k < j → rest[j]? ≠ some (some a) :=
        fun j hj => hlast (j + 1) (Nat.succ_lt_succ hj)
      have hnext : i + 1 + k = i + (k + 1) := by omega
      cases target with
      | none => exact (ih hk hrest (i + 1) m).trans (congrArg values hnext)
      | some b => exact (ih hk hrest (i + 1) _).trans (congrArg values hnext)

/-- A target has a last write. -/
theorem exists_last {targets : List (Option LAllocation)} {a : LAllocation} {k : ℕ}
    (hk : targets[k]? = some (some a)) :
    ∃ l, k ≤ l ∧ targets[l]? = some (some a) ∧ ∀ j, l < j → targets[j]? ≠ some (some a) := by
  induction hn : targets.length - k using Nat.strongRecOn generalizing k with
  | ind n ih =>
    by_cases hlater : ∃ j, k < j ∧ targets[j]? = some (some a)
    · obtain ⟨j, hkj, hj⟩ := hlater
      have hlt : j < targets.length := (List.getElem?_eq_some_iff.mp hj).1
      obtain ⟨l, hjl, hl⟩ := ih (targets.length - j) (by omega) hj rfl
      exact ⟨l, Nat.le_trans (Nat.le_of_lt hkj) hjl, hl⟩
    · exact ⟨k, Nat.le_refl k, hk, fun j hkj hj => hlater ⟨j, hkj, hj⟩⟩

/-- A call leaves its own values in registers, and other storage alone. -/
theorem clobbered_eq (isCall : Bool) (values : AnyRegister → V) (m : LAllocation → V) (a : LAllocation) :
    (isCall && a.isRegister) = true ∧
        (∃ reg, (if isCall then clobberRegisters values m else m) a = values reg) ∨
      (isCall && a.isRegister) = false ∧ (if isCall then clobberRegisters values m else m) a = m a := by
  cases isCall with
  | false => exact .inr ⟨rfl, rfl⟩
  | true =>
    cases a with
    | register reg => exact .inl ⟨rfl, reg, rfl⟩
    | _ => exact .inr ⟨rfl, rfl⟩

/-- The instructions around a place are those of its block. -/
theorem IsPath.instructions {g : LIRGraph} {past : List Event} {pos : Position} (h : IsPath g past pos) :
    pos.before.reverse ++ pos.after = (g.block pos.block).instructions := by
  induction h with
  | start => rfl
  | run h ih =>
    rw [List.reverse_cons, List.append_assoc]
    exact ih
  | enter h hpred ih => rfl

/-- An instruction of a block is an instruction of the graph. -/
theorem LIRGraph.mem_nodes {g : LIRGraph} {b : ℕ} {n : LNode}
    (h : .node n ∈ (g.block b).instructions) : n ∈ g.nodes := by
  have hnode : n ∈ (g.block b).nodes := List.mem_filterMap.mpr ⟨.node n, h, rfl⟩
  rw [LIRGraph.block, List.getD_eq_getElem?_getD] at hnode
  cases hb : g.blocks[b]? with
  | none =>
    rw [hb] at hnode
    exact absurd hnode List.not_mem_nil
  | some block =>
    rw [hb] at hnode
    exact List.mem_flatMap.mpr ⟨block, List.mem_of_getElem? hb, hnode⟩

/-- What is in the second of two related lists is related to something in the first. -/
theorem exists_of_forall₂ {α β : Type*} {R : α → β → Prop} {as : List α} {bs : List β} {b : β}
    (h : List.Forall₂ R as bs) (hb : b ∈ bs) : ∃ a ∈ as, R a b := by
  obtain ⟨i, hi, rfl⟩ := List.getElem_of_mem hb
  have hi' : i < as.length := h.length_eq ▸ hi
  exact ⟨as[i], List.getElem_mem hi', h.get hi' hi⟩

/-- An instruction after allocation was one before. -/
theorem Allocates.exists_node {g₀ g : LIRGraph} (h : Allocates g₀ g) {n : LNode} (hn : n ∈ g.nodes) :
    ∃ n₀ ∈ g₀.nodes, n₀.SameShape n := by
  obtain ⟨b, hb, hnb⟩ := List.mem_flatMap.mp hn
  obtain ⟨b₀, hb₀, hblock⟩ := exists_of_forall₂ h.blocks hb
  obtain ⟨n₀, hn₀, hnode⟩ := exists_of_forall₂ hblock.nodes hnb
  exact ⟨n₀, List.mem_flatMap.mpr ⟨b₀, hb₀, hn₀⟩, hnode⟩

/-- An instruction is found by its number. -/
theorem LIRGraph.names_instructions {g : LIRGraph} (hids : (g.nodes.map LNode.id).Nodup) {n : LNode}
    (hn : n ∈ g.nodes) : g.names.instructions n.id = n.info := by
  have hfind : g.nodes.find? (·.id = n.id) = some n := by
    cases hfound : g.nodes.find? (·.id = n.id) with
    | none => exact absurd (List.find?_eq_none.mp hfound n hn) (by simp)
    | some n' =>
      have hid : n'.id = n.id := by simpa using List.find?_some hfound
      rw [List.inj_on_of_nodup_map hids (List.mem_of_find?_eq_some hfound) hn hid]
  rw [LIRGraph.names]
  simp only [hfind, Option.map_some, Option.getD_some]

end SpiderMonkey.Jit.LIR
