import Mathlib.Data.List.Perm.Basic
import SpiderMonkey.Jit.IntegrityCheckSound
import SpiderMonkey.Jit.StupidAllocatorBlocks

/-!
# Soundness of the simple register allocator

Storage is found for every instruction of a graph in SSA form that has enough registers for each of them,
and on every run each input is read from storage that has the value of its virtual register.
-/

namespace SpiderMonkey.Jit.LIR.StupidAllocator

/-- The definitions of a block that instructions or phis give values. -/
def blockValues (b : LBlock) : List LDefinition :=
  (b.nodes.flatMap fun n => n.defs.filter LDefinition.writes) ++ b.phis.map LPhi.output

/-- The temporaries of a block. -/
def blockTemps (b : LBlock) : List LDefinition :=
  b.nodes.flatMap fun n => n.temps.filter fun t => !t.isBogusTemp

/-- A virtual register that instructions or phis give values. -/
def IsValue (g : LIRGraph) (v : ℕ) : Prop :=
  ∃ d ∈ g.blocks.flatMap blockValues, d.virtualRegister = v

/-- A block ends in an instruction that reads and writes nothing. -/
def EndsInGoto (b : LBlock) : Prop :=
  ∃ n, b.nodes.getLast? = some n ∧ n.inputs = [] ∧ n.temps = [] ∧ n.defs = [] ∧ n.isCall = false

/-- A graph in SSA form without critical edges, with enough registers for each of its instructions. -/
structure WellFormed (allRegisters : List AnyRegister) (g : LIRGraph) : Prop where
  nodup_registers : allRegisters.Nodup
  nodup_ids : (g.nodes.map LNode.id).Nodup
  id_lt : ∀ n ∈ g.nodes, n.id < g.numInstructions
  /-- A virtual register has one definition. -/
  nodup_definitions : (g.definitions.map LDefinition.virtualRegister).Nodup
  arguments : ∀ d ∈ g.definitions, ∀ d' ∈ g.definitions, d.output.isArgument = true →
    d'.output = d.output → d' = d
  /-- Definitions dominate uses: none is at or after a use in the same block. -/
  uses_defined : ∀ n ∈ g.nodes, ∀ u, .use u ∈ n.inputs →
    u.virtualRegister ∈ g.definitions.map LDefinition.virtualRegister
  uses_after : ∀ b ∈ g.blocks, ∀ before n after, b.nodes = before ++ n :: after →
    ∀ u, .use u ∈ n.inputs → ∀ n' ∈ n :: after, ¬ Defines n' u.virtualRegister
  allocatable : ∀ n ∈ g.nodes, Allocatable (init allRegisters g) n
  /-- Control instructions have no outputs. -/
  last : ∀ b ∈ g.blocks, ∀ n, b.nodes.getLast? = some n → defsFrom n 0 = []
  /-- Blocks with phis have several predecessors, and the edge to such a block is the only one of its
  predecessor. -/
  phi_edges : ∀ b j p : ℕ, (g.block b).phis ≠ [] → (g.block b).predecessors[j]? = some p →
    2 ≤ (g.block b).predecessors.length ∧ EndsInGoto (g.block p) ∧
      ∀ b' j' : ℕ, (g.block b').predecessors[j']? = some p → b' = b ∧ j' = j
  phi_operands : ∀ b j p : ℕ, (g.block b).predecessors[j]? = some p → ∀ phi ∈ (g.block b).phis,
    ∃ u, phi.operands[j]? = some (.use u) ∧
      u.virtualRegister ∈ g.definitions.map LDefinition.virtualRegister

/-- The virtual registers that the instructions of a block define from a place on. -/
def blockLater : List LNode → List ℕ
  | [] => []
  | n :: rest => tempsLater n (blockLater rest) 0

variable {allRegisters : List AnyRegister} {g : LIRGraph}

/-- What instructions define from a place on, in another order. -/
theorem blockLater_perm (nodes : List LNode) :
    (blockLater nodes).Perm ((nodes.flatMap fun n =>
      n.defs.filter LDefinition.writes ++ n.temps.filter fun t => !t.isBogusTemp).map
        LDefinition.virtualRegister) := by
  induction nodes with
  | nil => exact List.Perm.refl _
  | cons n rest ih =>
    rw [List.flatMap_cons, List.map_append, List.map_append]
    refine List.Perm.trans ?_ (ih.append_left _)
    rw [blockLater, tempsLater, ← List.append_assoc]
    exact List.perm_append_comm.append_right _

/-- What instructions of a block define from a place on is what its instructions do. -/
theorem mem_blockLater {nodes : List LNode} {v : ℕ} (h : v ∈ blockLater nodes) :
    ∃ n ∈ nodes, Defines n v := by
  obtain ⟨d, hd, hv⟩ := List.mem_map.mp ((blockLater_perm nodes).mem_iff.mp h)
  obtain ⟨n, hn, hdn⟩ := List.mem_flatMap.mp hd
  exact ⟨n, hn, d, List.mem_append.mpr (List.mem_append.mp hdn).symm, hv⟩

/-- The block of a number in range is one of the graph. -/
theorem block_mem {b : ℕ} (hb : b < g.blocks.length) : g.block b ∈ g.blocks := by
  rw [LIRGraph.block, List.getD_eq_getElem?_getD, List.getElem?_eq_getElem hb]
  exact List.getElem_mem hb

/-- Values and temporaries are all definitions. -/
theorem definitions_perm (g : LIRGraph) :
    g.definitions.Perm (g.blocks.flatMap blockValues ++ g.blocks.flatMap blockTemps) := by
  refine List.Perm.trans ?_ (List.flatMap_append_perm g.blocks _ _).symm
  apply List.Perm.flatMap_left
  intro b _
  unfold LBlock.definitions blockValues blockTemps
  refine ((List.flatMap_append_perm b.nodes _ _).symm.append_right _).trans ?_
  rw [List.append_assoc, List.append_assoc]
  exact List.perm_append_comm.append_left _

/-- A virtual register that is known has a definition. -/
theorem exists_definition {v : ℕ} (hv : (init allRegisters g).Known v) :
    ∃ d ∈ g.definitions, d.virtualRegister = v := by
  obtain ⟨d, hd⟩ := Option.isSome_iff_exists.mp hv
  obtain ⟨hmem, hsame⟩ := List.mem_filter.mp (List.mem_of_getLast? hd)
  exact ⟨d, hmem, of_decide_eq_true hsame⟩

namespace WellFormed

variable (h : WellFormed allRegisters g)
include h

/-- The definition of a virtual register is found. -/
theorem virtualRegisters {d : LDefinition} (hd : d ∈ g.definitions) :
    (init allRegisters g).virtualRegisters d.virtualRegister = some d := by
  have hmem : d ∈ g.definitions.filter (·.virtualRegister = d.virtualRegister) :=
    List.mem_filter.mpr ⟨hd, decide_eq_true rfl⟩
  have hlast : ∃ d', (g.definitions.filter (·.virtualRegister = d.virtualRegister)).getLast? = some d' :=
    Option.isSome_iff_exists.mp (List.getLast?_isSome.mpr (List.ne_nil_of_mem hmem))
  obtain ⟨d', hd'⟩ := hlast
  obtain ⟨hmem', hv⟩ := List.mem_filter.mp (List.mem_of_getLast? hd')
  rw [decide_eq_true_eq] at hv
  have hsame := List.inj_on_of_nodup_map h.nodup_definitions hmem' hd hv
  exact hd'.trans (congrArg some hsame)

/-- A virtual register that has a definition is known. -/
theorem known {v : ℕ} (hv : v ∈ g.definitions.map LDefinition.virtualRegister) :
    (init allRegisters g).Known v := by
  obtain ⟨d, hd, rfl⟩ := List.mem_map.mp hv
  rw [Known, h.virtualRegisters hd]
  rfl

/-- Values are known. -/
theorem known_of_isValue {v : ℕ} (hv : IsValue g v) : (init allRegisters g).Known v := by
  obtain ⟨d, hd, rfl⟩ := hv
  have hmem := (definitions_perm g).mem_iff.mpr (List.mem_append_left _ hd)
  exact h.known (List.mem_map_of_mem hmem)

/-- Each virtual register has memory of its own. -/
theorem separate : Separate (init allRegisters g) := by
  intro v v' hv hv' heq
  obtain ⟨d, hd, rfl⟩ := exists_definition hv
  obtain ⟨d', hd', rfl⟩ := exists_definition hv'
  simp only [stackLocation, h.virtualRegisters hd, h.virtualRegisters hd'] at heq
  split_ifs at heq with hargument hargument' hargument'
  · rw [h.arguments d hd d' hd' hargument.2 heq.symm]
  · rw [heq] at hargument
    cases hargument.2
  · rw [← heq] at hargument'
    cases hargument'.2
  · have hslot := LAllocation.stackSlot.inj heq
    unfold defaultStackSlot at hslot
    omega

/-- Temporaries are no values. -/
theorem temp_not_value {n : LNode} (hn : n ∈ g.nodes) {t : LDefinition} (ht : t ∈ tempsFrom n 0) :
    ¬ IsValue g t.virtualRegister := by
  rintro ⟨d, hd, hv⟩
  obtain ⟨b, hb, hnb⟩ := List.mem_flatMap.mp hn
  have htemp : t ∈ g.blocks.flatMap blockTemps :=
    List.mem_flatMap.mpr ⟨b, hb, List.mem_flatMap.mpr ⟨n, hnb, ht⟩⟩
  have hnodup := ((definitions_perm g).map LDefinition.virtualRegister).nodup_iff.mp h.nodup_definitions
  rw [List.map_append, List.nodup_append] at hnodup
  exact hnodup.2.2 _ (List.mem_map_of_mem hd) _ (List.mem_map_of_mem htemp) hv

/-- What an instruction defines is a definition of the graph. -/
theorem defined {n : LNode} (hn : n ∈ g.nodes) {d : LDefinition}
    (hd : d ∈ tempsFrom n 0 ++ defsFrom n 0) :
    (init allRegisters g).virtualRegisters d.virtualRegister = some d := by
  obtain ⟨b, hb, hnb⟩ := List.mem_flatMap.mp hn
  refine h.virtualRegisters (List.mem_flatMap.mpr ⟨b, hb, List.mem_append_left _ ?_⟩)
  exact List.mem_flatMap.mpr ⟨n, hnb, List.mem_append.mpr (List.mem_append.mp hd).symm⟩

/-- The instructions of a block define different virtual registers. -/
theorem nodup_blockLater {b : LBlock} (hb : b ∈ g.blocks) : (blockLater b.nodes).Nodup := by
  refine (blockLater_perm b.nodes).nodup_iff.mpr ?_
  have hdefinitions := h.nodup_definitions
  rw [LIRGraph.definitions, List.map_flatMap, List.nodup_flatMap] at hdefinitions
  have hblock := hdefinitions.1 b hb
  rw [LBlock.definitions, List.map_append] at hblock
  exact (List.nodup_append.mp hblock).1

/-- The phis of a block define different virtual registers. -/
theorem nodup_phis {b : LBlock} (hb : b ∈ g.blocks) :
    (b.phis.map (·.output.virtualRegister)).Nodup := by
  have hdefinitions := h.nodup_definitions
  rw [LIRGraph.definitions, List.map_flatMap, List.nodup_flatMap] at hdefinitions
  have hblock := hdefinitions.1 b hb
  rw [LBlock.definitions, List.map_append, List.map_map] at hblock
  exact (List.nodup_append.mp hblock).2.1

end WellFormed

section

variable {V : Type*} {s₀ : State V} {s : AllocState} {n₀ : LNode} {synced : Prop} {later : List ℕ}
  {alloc : StupidAllocator}

/-- All values are in memory. -/
def Stored (alloc : StupidAllocator) (g : LIRGraph) (s₀ : State V) : Prop :=
  ∀ v x, s₀.virt v = some x → IsValue g v ∧ s₀.phys (alloc.stackLocation v) = x

/-- An instruction reads each input from storage that has the value of its virtual register. -/
def ReadsInputs (names : Names) (n : LNode) (s₀ : State V) : Prop :=
  ∀ u a, (.use u, a) ∈ (names.instructions n.id).inputs.zip n.inputs →
    ∀ x, s₀.virt u.virtualRegister = some x → s₀.phys a = x

/-- What registers hold when the next instruction is reached. -/
theorem Remaining.leaves {i : ℕ} (h : Remaining alloc s₀ n₀ synced later i s) :
    Leaves s n₀.isCall (if n₀.isCall then alloc.evictClean s else s).registers := by
  cases hcall : n₀.isCall with
  | false => exact ⟨fun _ _ _ => rfl, fun _ _ _ _ => rfl, nofun⟩
  | true =>
    have hkept : ∀ reg v, ((alloc.evictClean s).registers reg).vreg = some v →
        ¬ (reg ∈ alloc.allRegisters ∧ (s.registers reg).dirty = false) := by
      intro reg v hv hevicted
      simp only [evictClean, if_pos hevicted, AllocatedRegister.missing] at hv
      cases hv
    refine ⟨fun reg v hv => if_neg (hkept reg v hv), fun reg v _ hdirty => if_neg fun hevicted => ?_,
      fun _ reg v hv => ?_⟩
    · rw [hdirty] at hevicted
      cases hevicted.2
    · have hsame : (alloc.evictClean s).registers reg = s.registers reg := if_neg (hkept reg v hv)
      have hold : (s.registers reg).vreg = some v :=
        (congrArg AllocatedRegister.vreg hsame).symm.trans hv
      have hmem := (h.carries.met reg v hold).2.2.1
      refine (congrArg AllocatedRegister.dirty hsame).trans ?_
      by_contra hclean
      exact hkept reg v hv ⟨hmem, Bool.eq_false_iff.mpr hclean⟩

/-- An instruction after allocation: it reads its inputs right, and leaves what registers are said to
carry. -/
structure Step (alloc : StupidAllocator) (g : LIRGraph) (s₀ : State V) (n₀ : LNode)
    (later : List ℕ) (s : AllocState) : Prop where
  shape : n₀.SameShape s.ins
  phiMoves : s.phiMoves = none
  reads : ReadsInputs g.names s.ins ⟨contents s₀ s, s₀.virt⟩
  carries : ∀ (e : Effects V) (next : LNode),
    Carries alloc (s.ins.exec (g.names.instructions s.ins.id) e ⟨contents s₀ s, s₀.virt⟩)
      (fun _ => False) (· ∉ later) ⟨s.registers, none, none, next⟩
  values : ∀ (e : Effects V) (v : ℕ) (x : V),
    (s.ins.exec (g.names.instructions s.ins.id) e ⟨contents s₀ s, s₀.virt⟩).virt v = some x → IsValue g v

/-- Storage is found for an instruction. At the end of a block, registers are synced, and values are in
memory after it. -/
theorem WellFormed.step (h : WellFormed allRegisters g) (hn : n₀ ∈ g.nodes)
    (huses : ∀ u, .use u ∈ n₀.inputs → u.virtualRegister ∉ tempsLater n₀ later 0)
    (hnodup : (tempsLater n₀ later 0).Nodup) (hvalues : ∀ v x, s₀.virt v = some x → IsValue g v)
    (hc : Carries (init allRegisters g) s₀ (fun _ => False) (· ∉ tempsLater n₀ later 0) s)
    (hins : s.ins = n₀) (hphi : s.phiMoves = none) (hdests : ∀ reg, .register reg ∉ dests s)
    (hsynced : synced → defsFrom n₀ 0 = [] ∧
      ∀ reg v, (s.registers reg).vreg = some v → (s.registers reg).dirty = false) :
    ∃ s', (init allRegisters g).allocateForInstruction s = some s' ∧
      Step (init allRegisters g) g s₀ n₀ later s' ∧ (synced → ∀ e, Stored (init allRegisters g) g
        (s'.ins.exec (g.names.instructions s'.ins.id) e ⟨contents s₀ s', s₀.virt⟩)) := by
  set alloc := init allRegisters g with halloc
  have hknown : ∀ v x, s₀.virt v = some x → alloc.Known v :=
    fun v x hx => h.known_of_isValue (hvalues v x hx)
  have hdefined : ∀ d ∈ tempsFrom n₀ 0 ++ defsFrom n₀ 0,
      alloc.virtualRegisters d.virtualRegister = some d := fun d hd => h.defined hn hd
  obtain ⟨s', hallocate, hremaining⟩ := exists_allocateForInstruction h.separate hknown
    h.nodup_registers (h.allocatable n₀ hn) hdefined
    (fun u hu => ⟨huses u hu, h.known (h.uses_defined n₀ hn u hu)⟩) hnodup hc hins hphi hdests
    fun hs => (hsynced hs).2
  have hinfo : g.names.instructions s'.ins.id = n₀.info := by
    rw [hremaining.shape.id]
    exact LIRGraph.names_instructions h.nodup_ids hn
  have htemps : ∀ t ∈ tempsFrom n₀ 0, s₀.virt t.virtualRegister = none := by
    intro t ht
    by_contra hsome
    obtain ⟨x, hx⟩ := Option.ne_none_iff_exists'.mp hsome
    exact h.temp_not_value hn ht (hvalues _ x hx)
  have hcarries : ∀ (e : Effects V) (next : LNode), Carries alloc
      (s'.ins.exec n₀.info e ⟨contents s₀ s', s₀.virt⟩) (fun _ => False) (· ∉ later)
      ⟨(if n₀.isCall then alloc.evictClean s' else s').registers, none, none, next⟩ :=
    fun e next => hremaining.exec_carries hdefined h.separate hknown (List.nodup_append.mp hnodup).2.1
      htemps (fun hcall => .inl hcall) hremaining.leaves e next
  have hvalued : ∀ (e : Effects V) (v : ℕ) (x : V),
      (s'.ins.exec n₀.info e ⟨contents s₀ s', s₀.virt⟩).virt v = some x → IsValue g v := by
    intro e v x hx
    rcases definer_cases n₀ v with ⟨hdefiner, -⟩ | ⟨k, d, -, hk, hwrites, hv⟩
    · simp only [LNode.exec, hdefiner] at hx
      exact hvalues v x hx
    · obtain ⟨b, hb, hnb⟩ := List.mem_flatMap.mp hn
      refine ⟨d, List.mem_flatMap.mpr ⟨b, hb, List.mem_append_left _ ?_⟩, hv⟩
      exact List.mem_flatMap.mpr
        ⟨n₀, hnb, List.mem_filter.mpr ⟨List.mem_of_getElem? hk, hwrites⟩⟩
  -- A call's evictions change no storage.
  have hsame : (if n₀.isCall then alloc.evictClean s' else s').ins = s'.ins ∧
      (if n₀.isCall then alloc.evictClean s' else s').phiMoves = s'.phiMoves ∧
      contents s₀ (if n₀.isCall then alloc.evictClean s' else s') = contents s₀ s' := by
    split_ifs <;> exact ⟨rfl, rfl, rfl⟩
  obtain ⟨hins', hphi', hcontents⟩ := hsame
  refine ⟨_, hallocate, ⟨hins'.symm ▸ hremaining.shape, hphi'.trans hremaining.phiMoves, ?_, ?_, ?_⟩, ?_⟩
  · rw [hins', hcontents]
    intro u a hmem x hx
    rw [hinfo] at hmem
    obtain ⟨k, hk⟩ := List.mem_iff_getElem?.mp hmem
    obtain ⟨hu, ha⟩ := List.getElem?_zip_eq_some.mp hk
    exact hremaining.reads k u a (List.getElem?_eq_some_iff.mp hu).1 hu ha x hx
  · rw [hins', hcontents, hinfo]
    exact hcarries
  · rw [hins', hcontents, hinfo]
    exact hvalued
  · rw [hins', hcontents, hinfo]
    intro hs e v x hx
    refine ⟨hvalued e v x hx, (hcarries e n₀).stored v x hx (fun hfalse => hfalse) fun reg hv => ?_⟩
    -- Only temporaries are dirty, and these have no value.
    by_contra hdirty
    rw [Bool.not_eq_false] at hdirty
    have hstill := hremaining.leaves.same reg v hv
    have hv' : (s'.registers reg).vreg = some v := (congrArg AllocatedRegister.vreg hstill).symm.trans hv
    have hdirty' : (s'.registers reg).dirty = true :=
      (congrArg AllocatedRegister.dirty hstill).symm.trans hdirty
    obtain ⟨d, hd, hdv⟩ := hremaining.clean (.inr hs) reg v hv' hdirty'
    rw [(hsynced hs).1, List.append_nil] at hd
    exact h.temp_not_value hn hd (hdv ▸ hvalued e v x hx)

/-- After a block, all values are in memory when the next one is entered. -/
def AtEnd (alloc : StupidAllocator) (g : LIRGraph) (b : ℕ) (s₀ : State V) : Prop :=
  ∀ b' j : ℕ, (g.block b').predecessors[j]? = some b → Stored alloc g (g.names.enter b' j s₀)

/-- Values that are in memory stay there if no successor has phis. -/
theorem Stored.atEnd {b : ℕ} (hs : Stored alloc g s₀)
    (hphis : ∀ b' j : ℕ, (g.block b').predecessors[j]? = some b → (g.block b').phis = []) :
    AtEnd alloc g b s₀ := by
  intro b' j hj
  rw [enter_of_no_phis (hphis b' j hj)]
  exact hs

/-- At the end of a block whose successor has phis, these get the values of their inputs. -/
theorem WellFormed.runs_goto (h : WellFormed allRegisters g) {b b' j : ℕ} {registers}
    (hn : n₀ ∈ g.nodes) (hlast : (g.block b).nodes.getLast? = some n₀)
    (hphis : (g.block b').phis ≠ []) (hj : (g.block b').predecessors[j]? = some b)
    (hvalues : ∀ v x, s₀.virt v = some x → IsValue g v)
    (hc : Carries (init allRegisters g) s₀ (fun _ => False) (· ∉ later) ⟨registers, none, none, n₀⟩) :
    ∃ s', (init allRegisters g).syncForBlockEnd g b ⟨registers, none, none, n₀⟩ = some s' ∧
      (init allRegisters g).allocateForInstruction s' = some s' ∧ s'.ins = n₀ ∧
      Runs g.names (ReadsInputs g.names) (AtEnd (init allRegisters g) g b) (s'.emit ++ []) s₀ := by
  set alloc := init allRegisters g with halloc
  have hknown : ∀ v x, s₀.virt v = some x → alloc.Known v :=
    fun v x hx => h.known_of_isValue (hvalues v x hx)
  obtain ⟨hfew, ⟨n, hn', hinputs, htemps, hdefs, hcall⟩, honly⟩ := h.phi_edges b' j b hphis hj
  rw [hlast] at hn'
  cases hn'
  have hb' : g.block b' ∈ g.blocks := by
    apply block_mem
    by_contra hge
    have hnone := List.getElem?_eq_none_iff.mpr (Nat.le_of_not_lt hge)
    rw [LIRGraph.block, List.getD_eq_getElem?_getD, hnone] at hj
    cases hj
  have hphi_known : ∀ phi ∈ (g.block b').phis, IsValue g phi.output.virtualRegister := by
    intro phi hphi
    refine ⟨phi.output, List.mem_flatMap.mpr ⟨g.block b', hb', ?_⟩, rfl⟩
    exact List.mem_append_right _ (List.mem_map_of_mem hphi)
  have hsuccessor : g.successorWithPhis b = some (b', j) := by
    obtain ⟨⟨b₁, j₁⟩, hsome⟩ := Option.ne_none_iff_exists'.mp (successorWithPhis_ne_none hfew hj)
    obtain ⟨rfl, rfl⟩ := honly b₁ j₁ (successorWithPhis_some hsome).2
    exact hsome
  obtain ⟨group, hgroup, hmoves, hrest⟩ := foldlM_phiMoves h.separate (g.block b').phis LMoveGroup.empty
    (h.nodup_phis hb') (fun phi hphi => by
      obtain ⟨u, hu, hdefined⟩ := h.phi_operands b' j b hj phi hphi
      exact ⟨h.known_of_isValue (hphi_known phi hphi), u, hu, h.known hdefined⟩) fun _ _ => List.not_mem_nil
  obtain ⟨hc', hframe, hclean⟩ := syncAll_carries h.separate hknown hc
  obtain ⟨s', hsync, hins, hmoved⟩ := syncForBlockEnd_of_phiMoves s₀ hsuccessor hgroup
    hframe.phiMoves
  have hins' : s'.ins = n₀ := hins.trans hframe.ins
  have hstored : ∀ v x, s₀.virt v = some x →
      contents s₀ (alloc.syncAll ⟨registers, none, none, n₀⟩) (alloc.stackLocation v) = x :=
    fun v x hx => hc'.stored v x hx (fun hfalse => hfalse) fun reg hv => hclean reg v hv
  refine ⟨s', hsync, ?_, hins', runs_emit ?_ fun e => ?_⟩
  · exact allocateForInstruction_goto (hins' ▸ hinputs) (hins' ▸ htemps) (hins' ▸ hdefs) (hins' ▸ hcall)
  · intro u a hmem
    rw [hins', hinputs, List.zip_nil_right] at hmem
    cases hmem
  · have hinfo : g.names.instructions n₀.id = n₀.info := LIRGraph.names_instructions h.nodup_ids hn
    rw [hins', hinfo, exec_goto htemps hdefs hcall]
    -- The only edge is to the block with phis.
    intro b₁ j₁ hj₁ v x hx
    obtain ⟨rfl, rfl⟩ := honly b₁ j₁ hj₁
    have hx' : (g.names.phiSource b₁ j₁ v).bind s₀.virt = some x := hx
    have hmemory : (g.names.enter b₁ j₁ ⟨moved s₀ s', s₀.virt⟩).phys (alloc.stackLocation v) =
        contents s₀ (alloc.syncAll ⟨registers, none, none, n₀⟩)
          (group.sourceOf (alloc.stackLocation v)) := hmoved _
    rw [hmemory]
    rcases phiSource_cases g b₁ j₁ v with ⟨phi, hphi, rfl, hsource⟩ | ⟨hother, hsource⟩
    · obtain ⟨u, hu, -⟩ := h.phi_operands b₁ j₁ b hj₁ phi hphi
      rw [hsource, hu] at hx'
      rw [hmoves phi hphi u hu]
      exact ⟨hphi_known phi hphi, hstored u.virtualRegister x hx'⟩
    · rw [hsource] at hx'
      have hvalue := hvalues v x hx'
      rw [hrest _ fun phi hphi heq => hother phi hphi (h.separate _ _
        (h.known_of_isValue (hphi_known phi hphi)) (h.known_of_isValue hvalue) heq.symm)]
      exact ⟨hvalue, hstored v x hx'⟩

end

end SpiderMonkey.Jit.LIR.StupidAllocator
