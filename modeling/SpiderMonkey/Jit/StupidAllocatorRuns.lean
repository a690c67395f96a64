import SpiderMonkey.Jit.StupidAllocatorSound

/-!
# Runs of a graph after the simple allocator

Each block starts and ends with all values in memory, so what holds of one block holds along every run.
-/

namespace SpiderMonkey.Jit.LIR.StupidAllocator

variable {allRegisters : List AnyRegister} {g : LIRGraph} {b : ℕ}

/-- What instructions define from a place on is the end of what those of the block do. -/
theorem blockLater_suffix (before nodes : List LNode) :
    (blockLater nodes).IsSuffix (blockLater (before ++ nodes)) := by
  induction before with
  | nil => exact List.suffix_refl _
  | cons n rest ih =>
    refine ih.trans ?_
    rw [List.cons_append, blockLater, tempsLater, ← List.append_assoc]
    exact List.suffix_append _ _

/-- Moves are no instructions. -/
theorem toNode_emit (s : AllocState) : s.emit.filterMap LInstruction.toNode = [s.ins] := by
  unfold AllocState.emit
  cases s.input <;> cases s.phiMoves <;> rfl

section

variable {V : Type*}

/-- Instructions of a block are allocated, and run right from where registers carry what they are said
to. -/
theorem WellFormed.allocateNodes (h : WellFormed allRegisters g) (hb : b < g.blocks.length)
    (nodes before : List LNode) (hnodes : (g.block b).nodes = before ++ nodes) (hne : nodes ≠ [])
    (registers : AnyRegister → AllocatedRegister) (s₀ : State V)
    (hvalues : ∀ v x, s₀.virt v = some x → IsValue g v)
    (hc : ∀ next, Carries (init allRegisters g) s₀ (fun _ => False) (· ∉ blockLater nodes)
      ⟨registers, none, none, next⟩) :
    ∃ instructions, (init allRegisters g).allocateNodes g b nodes registers = some instructions ∧
      List.Forall₂ LNode.SameShape nodes (instructions.filterMap LInstruction.toNode) ∧
      Runs g.names (ReadsInputs g.names) (AtEnd (init allRegisters g) g b) instructions s₀ := by
  induction nodes generalizing before registers s₀ with
  | nil => exact absurd rfl hne
  | cons n rest ih =>
    have hblock := block_mem hb
    have hmem : n ∈ (g.block b).nodes :=
      hnodes ▸ List.mem_append_right before List.mem_cons_self
    have hn : n ∈ g.nodes := List.mem_flatMap.mpr ⟨_, hblock, hmem⟩
    have huses : ∀ u, .use u ∈ n.inputs → u.virtualRegister ∉ tempsLater n (blockLater rest) 0 := by
      intro u hu hlater
      obtain ⟨n', hn', hdefines⟩ := @mem_blockLater (n :: rest) _ hlater
      exact h.uses_after _ hblock before n rest hnodes u hu n' hn' hdefines
    have hnodup : (tempsLater n (blockLater rest) 0).Nodup := by
      have hall := h.nodup_blockLater hblock
      rw [hnodes] at hall
      exact hall.sublist (blockLater_suffix before (n :: rest)).sublist
    cases rest with
    | nil =>
      have hlast : (g.block b).nodes.getLast? = some n := by
        rw [hnodes]
        exact List.getLast?_concat
      by_cases hphis : ∃ b' j : ℕ, (g.block b').predecessors[j]? = some b ∧ (g.block b').phis ≠ []
      · obtain ⟨b', j, hj, hphis⟩ := hphis
        obtain ⟨s', hsync, hallocate, hins, hruns⟩ := h.runs_goto hn hlast hphis hj hvalues (hc n)
        rw [List.append_nil] at hruns
        refine ⟨s'.emit, ?_, ?_, hruns⟩
        · simp only [StupidAllocator.allocateNodes, List.isEmpty_nil, if_true, hsync, hallocate,
            Option.bind_eq_bind, Option.bind_some, List.append_nil]
        · rw [toNode_emit, hins]
          exact .cons ⟨rfl, rfl, rfl, rfl, rfl, rfl⟩ .nil
      · have hnone : ∀ b' j : ℕ, (g.block b').predecessors[j]? = some b → (g.block b').phis = [] := by
          intro b' j hj
          by_contra hsome
          exact hphis ⟨b', j, hj, hsome⟩
        obtain ⟨hc', hframe, hclean⟩ := syncAll_carries h.separate
          (fun v x hx => h.known_of_isValue (hvalues v x hx)) (hc n)
        have hsync : (init allRegisters g).syncForBlockEnd g b ⟨registers, none, none, n⟩ =
            some ((init allRegisters g).syncAll ⟨registers, none, none, n⟩) := by
          unfold syncForBlockEnd
          cases hsuccessor : g.successorWithPhis b with
          | none => rfl
          | some edge =>
            obtain ⟨b', j⟩ := edge
            simp only [hnone b' j (successorWithPhis_some hsuccessor).2]
            rfl
        obtain ⟨s', hallocate, hstep, hstored⟩ := h.step hn huses hnodup hvalues hc'
          hframe.ins hframe.phiMoves (fun reg hdest => List.not_mem_nil (hframe.dests reg hdest))
          fun _ : True => ⟨h.last _ hblock n hlast, hclean⟩
        refine ⟨s'.emit, ?_, ?_, ?_⟩
        · simp only [StupidAllocator.allocateNodes, List.isEmpty_nil, if_true, hsync, hallocate,
            Option.bind_eq_bind, Option.bind_some, List.append_nil]
        · rw [toNode_emit]
          exact .cons hstep.shape .nil
        · rw [← List.append_nil s'.emit]
          apply runs_emit
          · exact (moved_eq_contents hstep.phiMoves).symm ▸ hstep.reads
          · intro e
            rw [moved_eq_contents hstep.phiMoves]
            exact (hstored trivial e).atEnd hnone
    | cons n' rest' =>
      obtain ⟨s', hallocate, hstep, -⟩ := h.step hn huses hnodup hvalues (hc n)
        rfl rfl (fun reg hdest => List.not_mem_nil hdest) fun hfalse : False => hfalse.elim
      have hnodes' : (g.block b).nodes = (before ++ [n]) ++ n' :: rest' := by
        rw [hnodes, List.append_assoc]
        rfl
      have hrest : ∀ e, ∃ instructions,
          (init allRegisters g).allocateNodes g b (n' :: rest') s'.registers = some instructions ∧
          List.Forall₂ LNode.SameShape (n' :: rest') (instructions.filterMap LInstruction.toNode) ∧
          Runs g.names (ReadsInputs g.names) (AtEnd (init allRegisters g) g b) instructions
            (s'.ins.exec (g.names.instructions s'.ins.id) e ⟨contents s₀ s', s₀.virt⟩) :=
        fun e => ih (before ++ [n]) hnodes' nofun s'.registers _ (hstep.values e) (hstep.carries e)
      -- What is allocated does not depend on what the instruction writes.
      obtain ⟨after, hafter, hshape, -⟩ := hrest
        ⟨fun _ => s₀.phys (.argument 0), fun _ => s₀.phys (.argument 0), fun _ => s₀.phys (.argument 0)⟩
      refine ⟨s'.emit ++ after, ?_, ?_, ?_⟩
      · rw [StupidAllocator.allocateNodes]
        simp only [List.isEmpty_cons, Bool.false_eq_true, if_false, hallocate, hafter,
          Option.bind_eq_bind, Option.bind_some]
      · rw [List.filterMap_append, toNode_emit]
        exact .cons hstep.shape hshape
      · apply runs_emit
        · exact (moved_eq_contents hstep.phiMoves).symm ▸ hstep.reads
        · intro e
          rw [moved_eq_contents hstep.phiMoves]
          obtain ⟨after', hafter', -, hruns⟩ := hrest e
          cases hafter.symm.trans hafter'
          exact hruns

/-- Registers that hold nothing carry what they are said to. -/
theorem Stored.carries {alloc : StupidAllocator} {s₀ : State V} (hs : Stored alloc g s₀)
    (M : ℕ → Prop) (next : LNode) :
    Carries alloc s₀ (fun _ => False) M ⟨fun _ => ⟨.general, none, 0, false⟩, none, none, next⟩ where
  met _ _ := nofun
  unique _ _ _ := nofun
  held _ _ := nofun
  stored v x hx _ _ := (hs v x hx).2
  unloaded _ _ := nofun

/-- A block without instructions runs right. -/
theorem WellFormed.runs_empty (h : WellFormed allRegisters g) {s₀ : State V}
    (hs : Stored (init allRegisters g) g s₀) (hempty : (g.block b).nodes = []) :
    Runs g.names (ReadsInputs g.names) (AtEnd (init allRegisters g) g b) [] s₀ := by
  apply hs.atEnd
  intro b' j hj
  by_contra hphis
  obtain ⟨-, ⟨n, hlast, -⟩, -⟩ := h.phi_edges b' j b hphis hj
  rw [hempty] at hlast
  cases hlast

end

/-- A block is allocated, and runs right from where all values are in memory. -/
theorem WellFormed.allocateBlock (h : WellFormed allRegisters g) (hb : b < g.blocks.length) :
    ∃ block, (init allRegisters g).allocateBlock g b = some block ∧ (g.block b).SameShape block ∧
      ∀ (V : Type) (s₀ : State V), Stored (init allRegisters g) g s₀ →
        Runs g.names (ReadsInputs g.names) (AtEnd (init allRegisters g) g b) block.instructions s₀ := by
  by_cases hempty : (g.block b).nodes = []
  · refine ⟨{ g.block b with instructions := [] }, ?_, ⟨rfl, ?_⟩, fun V s₀ hs => h.runs_empty hs hempty⟩
    · simp only [StupidAllocator.allocateBlock, hempty, StupidAllocator.allocateNodes, Option.map_some]
    · rw [hempty]
      exact .nil
  · have hruns : ∀ (V : Type) (s₀ : State V), Stored (init allRegisters g) g s₀ → ∃ instructions,
        (init allRegisters g).allocateNodes g b (g.block b).nodes (fun _ => ⟨.general, none, 0, false⟩) =
          some instructions ∧
        List.Forall₂ LNode.SameShape (g.block b).nodes
          (instructions.filterMap LInstruction.toNode) ∧
        Runs g.names (ReadsInputs g.names) (AtEnd (init allRegisters g) g b) instructions s₀ :=
      fun V s₀ hs => h.allocateNodes hb (g.block b).nodes [] rfl hempty _ s₀
        (fun v x hx => (hs v x hx).1) fun next => hs.carries _ next
    obtain ⟨instructions, hallocate, hshape, -⟩ := hruns Unit ⟨fun _ => (), fun _ => none⟩ nofun
    refine ⟨{ g.block b with instructions }, ?_, ⟨rfl, hshape⟩, fun V s₀ hs => ?_⟩
    · rw [StupidAllocator.allocateBlock, hallocate, Option.map_some]
    · obtain ⟨instructions', hallocate', -, hr⟩ := hruns V s₀ hs
      cases hallocate.symm.trans hallocate'
      exact hr

/-- The runs of a graph that lead to a place. They start at the first block, or at one without
predecessors, such as that for on-stack replacement. -/
inductive IsRun (g : LIRGraph) : List Event → Position → Prop
  | start (b : ℕ) (hentry : b = 0 ∨ (g.block b).predecessors = []) :
    IsRun g [] ⟨b, [], (g.block b).instructions⟩
  | run {past b before ins after} (h : IsRun g past ⟨b, before, ins :: after⟩) :
    IsRun g (.run ins :: past) ⟨b, ins :: before, after⟩
  | enter {past p before b} {j : ℕ} (h : IsRun g past ⟨p, before, []⟩)
    (hpred : (g.block b).predecessors[j]? = some p) :
    IsRun g (.enter b j :: past) ⟨b, [], (g.block b).instructions⟩

/-- Along every run of a graph whose blocks run right, what is left of the block runs right; and where a
block starts, all values are in memory. -/
theorem runs_of_isRun {alloc : StupidAllocator} {g₀ : LIRGraph} {V : Type}
    (hpred : ∀ b, (g.block b).predecessors = (g₀.block b).predecessors)
    (hblocks : ∀ b (s₀ : State V), Stored alloc g₀ s₀ →
      Runs g₀.names (ReadsInputs g₀.names) (AtEnd alloc g₀ b) (g.block b).instructions s₀)
    {past : List Event} {pos : Position} (hrun : IsRun g past pos) (effects : ℕ → Effects V)
    (start : LAllocation → V) :
    Runs g₀.names (ReadsInputs g₀.names) (AtEnd alloc g₀ pos.block) pos.after
        (stateAfter g₀.names effects start past) ∧
      (pos.before = [] → Stored alloc g₀ (stateAfter g₀.names effects start past)) := by
  induction hrun with
  | start b _ =>
    have hstored : Stored alloc g₀ (stateAfter g₀.names effects start []) := nofun
    exact ⟨hblocks b _ hstored, fun _ => hstored⟩
  | @run past b before ins after _ ih => exact ⟨ih.1.2 (effects past.length), nofun⟩
  | @enter past p before b j _ hj ih =>
    have hstored := ih.1 b j (hpred b ▸ hj)
    exact ⟨hblocks b _ hstored, fun _ => hstored⟩

/-- The allocator succeeds, and keeps each instruction but for its storage. On every run, each input is
in storage that has the value of its virtual register whenever an instruction reads it; and whenever a
block starts, the memory of each of its phis has the value of the phi. -/
theorem go_sound {g₀ : LIRGraph} (h : WellFormed allRegisters g₀) :
    ∃ g, go allRegisters g₀ = some g ∧ Allocates g₀ g ∧
      (∀ past b before n after, IsRun g past ⟨b, before, .node n :: after⟩ →
        ∀ u a, (.use u, a) ∈ (g₀.names.instructions n.id).inputs.zip n.inputs →
          Holds g₀.names past u.virtualRegister a) ∧
      ∀ past b after, IsRun g past ⟨b, [], after⟩ → ∀ phi ∈ (g₀.block b).phis,
        Holds g₀.names past phi.output.virtualRegister
          ((init allRegisters g₀).stackLocation phi.output.virtualRegister) := by
  obtain ⟨blocks, hblocks, hlength, hall⟩ := Lib.exists_mapM_range
    (n := g₀.blocks.length) fun b hb => h.allocateBlock hb
  set g : LIRGraph := { g₀ with blocks } with hg
  have hin : ∀ b, b < g₀.blocks.length → ∃ block, blocks[b]? = some block ∧ g.block b = block := by
    intro b hb
    have hlt : b < blocks.length := hlength.symm ▸ hb
    have hget : blocks[b]? = some blocks[b] := List.getElem?_eq_getElem hlt
    refine ⟨_, hget, ?_⟩
    rw [LIRGraph.block, List.getD_eq_getElem?_getD, hget, Option.getD_some]
  have hout : ∀ b, ¬ b < g₀.blocks.length → g₀.block b = ⟨[], [], []⟩ ∧ g.block b = ⟨[], [], []⟩ := by
    intro b hb
    have hnone₀ := List.getElem?_eq_none_iff.mpr (Nat.le_of_not_lt hb)
    have hnone : blocks[b]? = none := List.getElem?_eq_none_iff.mpr (hlength ▸ Nat.le_of_not_lt hb)
    rw [LIRGraph.block, LIRGraph.block, List.getD_eq_getElem?_getD, List.getD_eq_getElem?_getD, hnone₀,
      hnone]
    exact ⟨rfl, rfl⟩
  have hpred : ∀ b, (g.block b).predecessors = (g₀.block b).predecessors := by
    intro b
    by_cases hb : b < g₀.blocks.length
    · obtain ⟨block, hblock, heq⟩ := hin b hb
      rw [heq]
      exact (hall b block hblock).1.predecessors
    · rw [(hout b hb).1, (hout b hb).2]
  have hruns : ∀ {V : Type} b (s₀ : State V), Stored (init allRegisters g₀) g₀ s₀ →
      Runs g₀.names (ReadsInputs g₀.names) (AtEnd (init allRegisters g₀) g₀ b) (g.block b).instructions
        s₀ := by
    intro V b s₀ hs
    by_cases hb : b < g₀.blocks.length
    · obtain ⟨block, hblock, heq⟩ := hin b hb
      rw [heq]
      exact (hall b block hblock).2 V s₀ hs
    · rw [(hout b hb).2]
      exact h.runs_empty hs (by rw [(hout b hb).1]; rfl)
  refine ⟨g, ?_, ⟨h.nodup_ids, h.id_lt, ?_⟩, ?_, ?_⟩
  · rw [go, hblocks, Option.map_some]
  · rw [List.forall₂_iff_get]
    refine ⟨hlength.symm, fun b hb hb' => ?_⟩
    have hsame := (hall b _ (List.getElem?_eq_getElem hb')).1
    rw [LIRGraph.block, List.getD_eq_getElem?_getD, List.getElem?_eq_getElem hb,
      Option.getD_some] at hsame
    exact hsame
  · intro past b before n after hrun u a hmem V effects start x hx
    exact ((runs_of_isRun hpred hruns hrun effects start).1.1 n rfl) u a hmem x hx
  · intro past b after hrun phi _ V effects start x hx
    exact ((runs_of_isRun hpred hruns hrun effects start).2 rfl _ x hx).2

/-- A loop that counts: the sum takes the register of the phi. -/
def countingLoop : LIRGraph where
  blocks := [
    ⟨[], [.node ⟨0, false, [], [], [], [⟨0, .int32, .default, .constantValue 0⟩], none⟩,
      .node ⟨1, false, [], [], [], [], none⟩], []⟩,
    ⟨[⟨⟨1, .int32, .default, .constantValue 0⟩, [.use ⟨0, .any, 0, false⟩, .use ⟨2, .any, 0, false⟩]⟩],
      [.node ⟨2, false, [.use ⟨1, .register, 0, true⟩], [], [],
          [⟨2, .int32, .mustReuseInput, .constantIndex 0⟩], none⟩,
        .node ⟨3, false, [.use ⟨2, .any, 0, false⟩], [], [], [], none⟩], [0, 2]⟩,
    ⟨[], [.node ⟨4, false, [], [], [], [], none⟩], [1]⟩]
  numInstructions := 5
  numVirtualRegisters := 3

/-- A property of the uses among inputs. -/
theorem forall_use {P : LUse → Prop} {inputs : List LAllocation}
    (h : ∀ a ∈ inputs, ∀ u ∈ a.toUse, P u) (u : LUse) (hu : .use u ∈ inputs) : P u :=
  h (.use u) hu u rfl

/-- An instruction of one output at most. -/
theorem subsingleton_defs {n : LNode} (h : n.defs.length ≤ 1) {j k : ℕ} {d d' : LDefinition}
    (hj : n.defs[j]? = some d) (hk : n.defs[k]? = some d') : j = k := by
  have hjlt := (List.getElem?_eq_some_iff.mp hj).1
  have hklt := (List.getElem?_eq_some_iff.mp hk).1
  omega

/-- Its edges. -/
theorem countingLoop_edges {b j p : ℕ} (h : (countingLoop.block b).predecessors[j]? = some p) :
    (b, j, p) ∈ [(1, 0, 0), (1, 1, 2), (2, 0, 1)] := by
  match b, j with
  | 1, 0 | 1, 1 | 2, 0 =>
    cases h
    decide

instance (n : LNode) (v : ℕ) : Decidable (Defines n v) :=
  inferInstanceAs (Decidable (∃ d ∈ _, _))

/-- One register is enough for it. -/
theorem countingLoop_wellFormed : WellFormed [.gpr 0] countingLoop where
  nodup_registers := by decide
  nodup_ids := by decide
  id_lt := by decide
  nodup_definitions := by decide
  arguments := by decide
  uses_defined n hn := forall_use (by revert n; decide)
  uses_after := by
    have hafter : ∀ b ∈ countingLoop.blocks, (∀ n ∈ b.nodes, ∀ a ∈ n.inputs, ∀ u ∈ a.toUse,
        ¬ Defines n u.virtualRegister) ∧ b.nodes.Pairwise fun n n' => ∀ a ∈ n.inputs, ∀ u ∈ a.toUse,
          ¬ Defines n' u.virtualRegister := by
      decide
    intro b hb before n after hnodes u hu n' hn'
    obtain ⟨hself, hpair⟩ := hafter b hb
    rw [hnodes] at hself hpair
    cases List.mem_cons.mp hn' with
    | inl heq => exact heq ▸ hself n (List.mem_append_right before List.mem_cons_self) _ hu u rfl
    | inr hmem =>
      exact (List.pairwise_cons.mp (List.pairwise_append.mp hpair).2.1).1 n' hmem _ hu u rfl
  allocatable := by
    have hflat : ∀ n ∈ countingLoop.nodes, (∀ a ∈ n.inputs, ∀ u ∈ a.toUse, u.policy ≠ .fixed) ∧
        (∀ d ∈ tempsFrom n 0 ++ defsFrom n 0, d.policy ≠ .preset ∧
          (init [.gpr 0] countingLoop).reservedBy d.output = none) ∧ n.defs.length ≤ 1 ∧
        ∀ d ∈ tempsFrom n 0 ++ defsFrom n 0, d.policy = .mustReuseInput → d.reusedInput = some 0 ∧
          n.operands[0]? = some (.use ⟨1, .register, 0, true⟩) ∧ Required ⟨1, .register, 0, true⟩ ∧
          (init [.gpr 0] countingLoop).isFloat 1 =
            (init [.gpr 0] countingLoop).isFloat d.virtualRegister := by
      unfold Required
      decide
    have hfits : ∀ n ∈ countingLoop.nodes, ∀ isFloat : Bool,
        ((init [.gpr 0] countingLoop).flexible n).count isFloat +
          ((init [.gpr 0] countingLoop).reserved n).dedup.countP (·.isFloat = isFloat) ≤
            [AnyRegister.gpr 0].countP (·.isFloat = isFloat) := by
      decide
    intro n hn
    obtain ⟨hfixed, houtputs, hlength, hreuse⟩ := hflat n hn
    exact {
      fixed_mem := fun u hu hpolicy => absurd hpolicy (forall_use hfixed u hu)
      fixed_eq := fun u _ hu _ hpolicy => absurd hpolicy (forall_use hfixed u hu)
      named := fun d hd _ hpolicy => absurd hpolicy (houtputs d hd).1
      named_ne := fun j k _ _ _ hne hj hk => absurd (subsingleton_defs hlength hj hk) hne
      unnamed := fun d hd => .inr (houtputs d hd).2
      reuse := fun d hd hmust => ⟨0, ⟨1, .register, 0, true⟩, hreuse d hd hmust⟩
      alone := fun j k _ _ hne hj hk => absurd (subsingleton_defs hlength hj hk) hne
      fits := hfits n hn }
  last := by
    have hlast : ∀ b ∈ countingLoop.blocks, ∀ n ∈ b.nodes.getLast?, defsFrom n 0 = [] := by decide
    exact hlast
  phi_edges b j p hphis hj := by
    have honly : ∀ b' j' : ℕ, (countingLoop.block b').predecessors[j']? = some p → b = 1 →
        b' = b ∧ j' = j := by
      intro b' j' hj' hb
      have hedge := countingLoop_edges hj
      have hedge' := countingLoop_edges hj'
      simp only [List.mem_cons, Prod.mk.injEq, List.not_mem_nil, or_false] at hedge hedge'
      omega
    have hedge := countingLoop_edges hj
    simp only [List.mem_cons, Prod.mk.injEq, List.not_mem_nil, or_false] at hedge
    rcases hedge with ⟨rfl, rfl, rfl⟩ | ⟨rfl, rfl, rfl⟩ | ⟨rfl, rfl, rfl⟩
    · exact ⟨by decide, ⟨_, rfl, rfl, rfl, rfl, rfl⟩, fun b' j' hj' => honly b' j' hj' rfl⟩
    · exact ⟨by decide, ⟨_, rfl, rfl, rfl, rfl, rfl⟩, fun b' j' hj' => honly b' j' hj' rfl⟩
    · exact absurd rfl hphis
  phi_operands b j p hj := by
    have hedge := countingLoop_edges hj
    simp only [List.mem_cons, Prod.mk.injEq, List.not_mem_nil, or_false] at hedge
    intro phi hphi
    rcases hedge with ⟨rfl, rfl, rfl⟩ | ⟨rfl, rfl, rfl⟩ | ⟨rfl, rfl, rfl⟩
    · cases List.mem_singleton.mp hphi
      exact ⟨_, rfl, by decide⟩
    · cases List.mem_singleton.mp hphi
      exact ⟨_, rfl, by decide⟩
    · cases hphi

/-- In the loop, the sum reads the phi from the register, which gets it from memory. -/
theorem go_sound_countingLoop :
    ∃ g, go [.gpr 0] countingLoop = some g ∧
      (∀ past b before n after, IsRun g past ⟨b, before, .node n :: after⟩ →
        ∀ u a, (.use u, a) ∈ (countingLoop.names.instructions n.id).inputs.zip n.inputs →
          Holds countingLoop.names past u.virtualRegister a) ∧
      ((g.block 1).nodes.map LNode.inputs) = [[.register (.gpr 0)], [.register (.gpr 0)]] := by
  obtain ⟨g, hgo, -, hreads, -⟩ := go_sound countingLoop_wellFormed
  refine ⟨g, hgo, hreads, ?_⟩
  have hinputs : ((go [.gpr 0] countingLoop).map fun g => (g.block 1).nodes.map LNode.inputs) =
      some [[.register (.gpr 0)], [.register (.gpr 0)]] := by decide
  rw [hgo] at hinputs
  exact Option.some.inj hinputs

end SpiderMonkey.Jit.LIR.StupidAllocator
