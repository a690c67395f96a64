import SpiderMonkey.Jit.StupidAllocatorExec

/-!
# Blocks of the simple allocator

At the start and at the end of a block all values are in memory. At the end, those that are for phis of
the successor are moved to the memory of the phis, all at the same time.
-/

namespace SpiderMonkey.Jit.LIR.StupidAllocator

variable {alloc : StupidAllocator} {V : Type*} {s₀ : State V} {s : AllocState}

/-- What runs from a list of instructions on. A predicate holds of each instruction and the state that
it runs in, and another one of the state after them. -/
def Runs (names : Names) (R : LNode → State V → Prop) (E : State V → Prop) :
    List LInstruction → State V → Prop
  | [], s => E s
  | ins :: rest, s => (∀ n, ins = .node n → R n s) ∧ ∀ e, Runs names R E rest (ins.exec names e s)

/-- Moves that may be there change what storage holds. -/
theorem runs_moves {names : Names} {R : LNode → State V → Prop} {E : State V → Prop}
    {after : List LInstruction} {group : Option LMoveGroup}
    (h : Runs names R E after
      ⟨fun a => s₀.phys ((group.getD LMoveGroup.empty).sourceOf a), s₀.virt⟩) :
    Runs names R E (group.toList.map .moveGroup ++ after) s₀ := by
  cases group with
  | none => exact h
  | some group => exact ⟨nofun, fun _ => h⟩

/-- What storage holds when the instruction runs. -/
def moved (s₀ : State V) (s : AllocState) (a : LAllocation) : V :=
  contents s₀ s ((s.phiMoves.getD LMoveGroup.empty).sourceOf a)

/-- An instruction runs after the moves before it. -/
theorem runs_emit {names : Names} {R : LNode → State V → Prop} {E : State V → Prop}
    {after : List LInstruction} (hreads : R s.ins ⟨moved s₀ s, s₀.virt⟩)
    (hafter : ∀ e, Runs names R E after
      (s.ins.exec (names.instructions s.ins.id) e ⟨moved s₀ s, s₀.virt⟩)) :
    Runs names R E (s.emit ++ after) s₀ := by
  unfold AllocState.emit
  rw [List.append_assoc, List.append_assoc]
  apply runs_moves
  apply runs_moves
  refine ⟨fun n hn => ?_, hafter⟩
  cases hn
  exact hreads

/-- Without moves for phis, storage holds what it does after the moves before the instruction. -/
theorem moved_eq_contents (hphi : s.phiMoves = none) : moved s₀ s = contents s₀ s := by
  funext a
  rw [moved, hphi]
  rfl

/-- A move that is added takes place at the same time as the others. -/
theorem sourceOf_add {group group' : LMoveGroup} {m : LMove} (h : group.add m = some group') :
    (∀ a, group'.sourceOf a = if a = m.dest then m.source else group.sourceOf a) ∧
      group'.moves.map LMove.dest = group.moves.map LMove.dest ++ [m.dest] := by
  unfold LMoveGroup.add at h
  split_ifs at h with hadd
  cases h
  refine ⟨fun a => ?_, by rw [List.map_append, List.map_singleton]⟩
  rw [LMoveGroup.sourceOf, List.find?_append, List.find?_singleton]
  by_cases ha : a = m.dest
  · have hnone : group.moves.find? (·.dest = a) = none := by
      rw [List.find?_eq_none]
      intro other hother
      rw [decide_eq_true_eq]
      exact fun heq => hadd.2 (ha ▸ heq ▸ List.mem_map_of_mem hother)
    rw [if_pos ha, hnone, decide_eq_true ha.symm]
    rfl
  · rw [if_neg ha, decide_eq_false (Ne.symm ha), if_neg (by decide), Option.or_none, LMoveGroup.sourceOf]

/-- What phis move on an edge: the memory of each one gets that of its input, and other storage is left
alone. -/
theorem foldlM_phiMoves (hsep : Separate alloc) {j : ℕ} (phis : List LPhi) (group : LMoveGroup)
    (hnodup : (phis.map (·.output.virtualRegister)).Nodup)
    (hoperands : ∀ phi ∈ phis, alloc.Known phi.output.virtualRegister ∧
      ∃ u, phi.operands[j]? = some (.use u) ∧ alloc.Known u.virtualRegister)
    (hfresh : ∀ phi ∈ phis,
      alloc.stackLocation phi.output.virtualRegister ∉ group.moves.map LMove.dest) :
    ∃ group', phis.foldlM (fun group phi =>
        match (phi.operands[j]?).bind LAllocation.toUse with
        | none => none
        | some u =>
          if u.virtualRegister = phi.output.virtualRegister then some group
          else
            group.add ⟨alloc.stackLocation u.virtualRegister,
              alloc.stackLocation phi.output.virtualRegister, phi.output.type⟩) group = some group' ∧
      (∀ phi ∈ phis, ∀ u, phi.operands[j]? = some (.use u) →
        group'.sourceOf (alloc.stackLocation phi.output.virtualRegister) =
          alloc.stackLocation u.virtualRegister) ∧
      ∀ a, (∀ phi ∈ phis, a ≠ alloc.stackLocation phi.output.virtualRegister) →
        group'.sourceOf a = group.sourceOf a := by
  induction phis generalizing group with
  | nil => exact ⟨group, rfl, nofun, fun _ _ => rfl⟩
  | cons phi rest ih =>
    obtain ⟨hphi, u, hu, hknown⟩ := hoperands phi List.mem_cons_self
    rw [List.map_cons, List.nodup_cons] at hnodup
    have hne : ∀ phi' ∈ rest, alloc.stackLocation phi'.output.virtualRegister ≠
        alloc.stackLocation phi.output.virtualRegister := by
      intro phi' hphi' hloc
      have hsame := hsep _ _ (hoperands phi' (List.mem_cons_of_mem _ hphi')).1 hphi hloc
      exact hnodup.1 (List.mem_map.mpr ⟨phi', hphi', hsame⟩)
    -- The group after the first phi.
    have hstep : ∃ group₁, (if u.virtualRegister = phi.output.virtualRegister then some group
          else group.add ⟨alloc.stackLocation u.virtualRegister,
            alloc.stackLocation phi.output.virtualRegister, phi.output.type⟩) = some group₁ ∧
        group₁.sourceOf (alloc.stackLocation phi.output.virtualRegister) =
          alloc.stackLocation u.virtualRegister ∧
        (∀ a, a ≠ alloc.stackLocation phi.output.virtualRegister →
          group₁.sourceOf a = group.sourceOf a) ∧
        ∀ a ∈ group₁.moves.map LMove.dest, a ∈ group.moves.map LMove.dest ∨
          a = alloc.stackLocation phi.output.virtualRegister := by
      split_ifs with hself
      · refine ⟨group, rfl, ?_, fun _ _ => rfl, fun a ha => .inl ha⟩
        rw [hself]
        exact LMoveGroup.sourceOf_of_not_mem (hfresh phi List.mem_cons_self)
      · cases hadd : group.add ⟨alloc.stackLocation u.virtualRegister,
            alloc.stackLocation phi.output.virtualRegister, phi.output.type⟩ with
        | none =>
          unfold LMoveGroup.add at hadd
          split_ifs at hadd with hcan
          exact absurd ⟨fun hloc => hself (hsep _ _ hknown hphi hloc),
            hfresh phi List.mem_cons_self⟩ hcan
        | some group₁ =>
          obtain ⟨hsource, hdests⟩ := sourceOf_add hadd
          refine ⟨group₁, rfl, (hsource _).trans (if_pos rfl), fun a ha => (hsource a).trans (if_neg ha),
            fun a ha => ?_⟩
          rw [hdests, List.mem_append, List.mem_singleton] at ha
          exact ha
    obtain ⟨group₁, hgroup₁, hself, hother, hdests⟩ := hstep
    obtain ⟨group', hfold, hphis, hrest⟩ := ih group₁ hnodup.2
      (fun phi' hphi' => hoperands phi' (List.mem_cons_of_mem _ hphi')) fun phi' hphi' hmem =>
        (hdests _ hmem).elim (hfresh phi' (List.mem_cons_of_mem _ hphi')) (hne phi' hphi')
    refine ⟨group', ?_, fun phi' hphi' u' hu' => ?_, fun a ha => ?_⟩
    · rw [List.foldlM_cons]
      simp only [hu, Option.bind_some, LAllocation.toUse, hgroup₁, Option.bind_eq_bind, hfold]
    · cases List.mem_cons.mp hphi' with
      | inl hfirst =>
        rw [hfirst, hu] at hu'
        cases hu'
        rw [hfirst, hrest _ fun phi'' hphi'' => (hne phi'' hphi'').symm]
        exact hself
      | inr hmem => exact hphis phi' hmem u' hu'
    · rw [hrest a fun phi' hphi' => ha phi' (List.mem_cons_of_mem _ hphi')]
      exact hother a (ha phi List.mem_cons_self)

/-- The successor for whose phis a block moves values is one of more than one predecessor. -/
theorem successorWithPhis_some {g : LIRGraph} {p b j : ℕ} (h : g.successorWithPhis p = some (b, j)) :
    2 ≤ (g.block b).predecessors.length ∧ (g.block b).predecessors[j]? = some p := by
  have hmem := List.mem_of_getLast? h
  obtain ⟨b', -, hb⟩ := List.mem_flatMap.mp hmem
  split_ifs at hb with hfew
  · cases hb
  · obtain ⟨edge, hedge, heq⟩ := List.mem_map.mp hb
    obtain ⟨hzip, hp⟩ := List.mem_filter.mp hedge
    cases heq
    rw [decide_eq_true_eq] at hp
    exact ⟨Nat.le_of_not_lt hfew, hp ▸ List.mem_zipIdx_iff_getElem?.mp hzip⟩

/-- A block with an edge to one of more than one predecessor has a successor that it may move values
for. -/
theorem successorWithPhis_ne_none {g : LIRGraph} {p b j : ℕ} (hb : 2 ≤ (g.block b).predecessors.length)
    (hp : (g.block b).predecessors[j]? = some p) : g.successorWithPhis p ≠ none := by
  intro hnone
  rw [LIRGraph.successorWithPhis, List.getLast?_eq_none_iff] at hnone
  have hlt : b < g.blocks.length := by
    by_contra hge
    have hnone := List.getElem?_eq_none_iff.mpr (Nat.le_of_not_lt hge)
    rw [LIRGraph.block, List.getD_eq_getElem?_getD, hnone] at hp
    cases hp
  have hmem : (b, j) ∈ (List.range g.blocks.length).flatMap fun b =>
      if (g.block b).predecessors.length < 2 then []
      else ((g.block b).predecessors.zipIdx.filter (·.1 = p)).map fun edge => (b, edge.2) := by
    refine List.mem_flatMap.mpr ⟨b, List.mem_range.mpr hlt, ?_⟩
    rw [if_neg (Nat.not_lt.mpr hb)]
    refine List.mem_map.mpr ⟨(p, j), List.mem_filter.mpr ⟨?_, decide_eq_true rfl⟩, rfl⟩
    exact List.mem_zipIdx_iff_getElem?.mpr hp
  rw [hnone] at hmem
  cases hmem

/-- At the end of a block, registers are synced, and then values are moved to phis. -/
theorem syncForBlockEnd_of_phiMoves (s₀ : State V) {g : LIRGraph} {b successor position : ℕ} {group : LMoveGroup}
    (hsuccessor : g.successorWithPhis b = some (successor, position))
    (hgroup : alloc.phiMoves (g.block successor).phis position = some group)
    (hphi : (alloc.syncAll s).phiMoves = none) :
    ∃ s', alloc.syncForBlockEnd g b s = some s' ∧ s'.ins = (alloc.syncAll s).ins ∧
      ∀ a, moved s₀ s' a = contents s₀ (alloc.syncAll s) (group.sourceOf a) := by
  have hempty : ∀ {other : LMoveGroup}, other.moves.isEmpty = true → ∀ a, other.sourceOf a = a := by
    intro other hnone a
    rw [LMoveGroup.sourceOf, List.isEmpty_iff.mp hnone]
    rfl
  unfold syncForBlockEnd
  simp only [hsuccessor, hgroup, Option.map_some]
  refine ⟨_, rfl, ?_⟩
  split_ifs with hnone hinput
  · exact ⟨rfl, fun a => by rw [moved_eq_contents hphi, hempty hnone]⟩
  · have hphi' : ({ alloc.syncAll s with input := some group } : AllocState).phiMoves = none := hphi
    refine ⟨rfl, fun a => ?_⟩
    rw [moved_eq_contents hphi', contents, contents, hempty hinput]
    rfl
  · exact ⟨rfl, fun _ => rfl⟩

/-- Nothing is allocated for an instruction that reads and writes nothing. -/
theorem allocateForInstruction_goto (hinputs : s.ins.inputs = []) (htemps : s.ins.temps = [])
    (hdefs : s.ins.defs = []) (hcall : s.ins.isCall = false) :
    alloc.allocateForInstruction s = some s := by
  simp only [allocateForInstruction, hcall, hinputs, htemps, hdefs, List.length_nil, List.range_zero,
    List.foldlM_nil, List.foldl_nil, Option.pure_def, Option.bind_eq_bind, Option.bind_some,
    Bool.false_eq_true, if_false]

/-- Such an instruction does nothing. -/
theorem exec_goto {n : LNode} (htemps : n.temps = []) (hdefs : n.defs = []) (hcall : n.isCall = false)
    (e : Effects V) (s₀ : State V) : n.exec n.info e s₀ = s₀ := by
  unfold LNode.exec LNode.defTargets LNode.tempTargets InstructionInfo.definer LNode.info
  rw [htemps, hdefs, hcall]
  rfl

/-- The virtual register whose value another one has when a block is entered: the input of its phi, or
itself. -/
theorem phiSource_cases (g : LIRGraph) (b j v : ℕ) :
    (∃ phi ∈ (g.block b).phis, phi.output.virtualRegister = v ∧ g.names.phiSource b j v =
        (phi.operands[j]?).bind fun a => a.toUse.map LUse.virtualRegister) ∨
      (∀ phi ∈ (g.block b).phis, phi.output.virtualRegister ≠ v) ∧
        g.names.phiSource b j v = some v := by
  have hphis : ∀ phi : LPhi, phi.info.isPhiOf v = true ↔ phi.output.virtualRegister = v :=
    fun _ => decide_eq_true_iff
  unfold Names.phiSource LIRGraph.names
  dsimp only
  cases hfind : ((g.block b).phis.map LPhi.info).find? (·.isPhiOf v) with
  | none =>
    refine .inr ⟨fun phi hphi hv => ?_, rfl⟩
    exact List.find?_eq_none.mp hfind _ (List.mem_map_of_mem hphi) ((hphis phi).mpr hv)
  | some info =>
    obtain ⟨phi, hphi, rfl⟩ := List.mem_map.mp (List.mem_of_find?_eq_some hfind)
    have hfound := List.find?_some hfind
    exact .inl ⟨phi, hphi, (hphis phi).mp hfound, rfl⟩

/-- A block without phis is entered with the same state. -/
theorem enter_of_no_phis {g : LIRGraph} {b : ℕ} (hphis : (g.block b).phis = []) (j : ℕ)
    (s₀ : State V) : g.names.enter b j s₀ = s₀ := by
  have hvirt : (fun v => (g.names.phiSource b j v).bind s₀.virt) = s₀.virt := by
    funext v
    cases phiSource_cases g b j v with
    | inl hphi =>
      obtain ⟨phi, hmem, -⟩ := hphi
      rw [hphis] at hmem
      cases hmem
    | inr hsame =>
      rw [hsame.2]
      rfl
  rw [Names.enter, hvirt]

end SpiderMonkey.Jit.LIR.StupidAllocator
