import SpiderMonkey.Jit.IntegrityCheck

/-!
# What the check of an allocation shows

What the check has seen is closed: following storage back from the end of a block gives what was seen
too. So along any path that a run takes, what an input is followed back to is what holds there, up to the
definition. Two ways to overwrite storage are not looked at. A call overwrites the registers that are not
among its outputs, but is checked for its outputs and temporaries only; and the outputs of an
instruction after the definition are passed over.
-/

namespace SpiderMonkey.Jit.LIR

open Worklist

/-- The last move to storage is its only one. -/
theorem followMoves_eq_sourceOf (group : LMoveGroup) (a : LAllocation) :
    AllocationIntegrityState.followMoves group a = group.sourceOf a := by
  have hfind : group.moves.reverse.find? (·.dest = a) = group.moves.find? (·.dest = a) := by
    cases hrev : group.moves.reverse.find? (·.dest = a) with
    | none =>
      have hnone := List.find?_eq_none.mp hrev
      exact (List.find?_eq_none.mpr fun m hm => hnone m (List.mem_reverse.mpr hm)).symm
    | some m =>
      have hm : m ∈ group.moves := List.mem_reverse.mp (List.mem_of_find?_eq_some hrev)
      have hdest : m.dest = a := by simpa using List.find?_some hrev
      cases hfind : group.moves.find? (·.dest = a) with
      | none => exact absurd (List.find?_eq_none.mp hfind m hm) (by simp [hdest])
      | some m' =>
        have hdest' : m'.dest = a := by simpa using List.find?_some hfind
        have hm' : m' ∈ group.moves := List.mem_of_find?_eq_some hfind
        rw [List.inj_on_of_nodup_map group.nodup_dest hm hm' (hdest.trans hdest'.symm)]
  rw [AllocationIntegrityState.followMoves, LMoveGroup.sourceOf, hfind]

namespace AllocationIntegrityState

/-! ## What is recorded -/

/-- Add what is recorded of an instruction to the list of instructions. -/
def addInfo (infos : List InstructionInfo) (n : LNode) : List InstructionInfo :=
  infos.modify n.id fun info =>
    ⟨info.inputs ++ n.inputs, info.temps ++ n.temps, info.outputs ++ n.defs⟩

/-- What is recorded of instructions. -/
theorem instructions_foldl_recordNode (st : AllocationIntegrityState) (ns : List LNode) :
    (ns.foldl recordNode st).instructions = ns.foldl addInfo st.instructions ∧
      (ns.foldl recordNode st).blocks = st.blocks := by
  induction ns generalizing st with
  | nil => exact ⟨rfl, rfl⟩
  | cons n rest ih => exact ih (st.recordNode n)

/-- What is recorded of a block. -/
theorem instructions_recordBlock (st : AllocationIntegrityState) (b : LBlock) :
    (st.recordBlock b).instructions = b.nodes.foldl addInfo st.instructions ∧
      (st.recordBlock b).blocks = st.blocks ++ [b.phis.map LPhi.info] :=
  instructions_foldl_recordNode _ b.nodes

/-- What is recorded of blocks. -/
theorem instructions_foldl_recordBlock (st : AllocationIntegrityState) (bs : List LBlock) :
    (bs.foldl recordBlock st).instructions = (bs.flatMap LBlock.nodes).foldl addInfo st.instructions ∧
      (bs.foldl recordBlock st).blocks = st.blocks ++ bs.map fun b => b.phis.map LPhi.info := by
  induction bs generalizing st with
  | nil => exact ⟨rfl, (List.append_nil _).symm⟩
  | cons b rest ih =>
    have hblock := instructions_recordBlock st b
    have hrest := ih (st.recordBlock b)
    rw [hblock.1, hblock.2] at hrest
    constructor
    · rw [List.foldl_cons, hrest.1, List.flatMap_cons, List.foldl_append]
    · rw [List.foldl_cons, hrest.2, List.map_cons, List.append_assoc, List.singleton_append]

/-- Instructions of other numbers do not count. -/
theorem getElem?_foldl_addInfo {ns : List LNode} {id : ℕ} (hid : id ∉ ns.map LNode.id)
    (infos : List InstructionInfo) : (ns.foldl addInfo infos)[id]? = infos[id]? := by
  induction ns generalizing infos with
  | nil => rfl
  | cons n rest ih =>
    rw [List.map_cons, List.mem_cons, not_or] at hid
    rw [List.foldl_cons, ih hid.2, addInfo, List.getElem?_modify_ne _ _ (Ne.symm hid.1)]

/-- An instruction with a number of its own is recorded. -/
theorem getElem?_foldl_addInfo_of_mem {ns : List LNode} (hids : (ns.map LNode.id).Nodup) {n : LNode}
    (hn : n ∈ ns) {infos : List InstructionInfo} (hinfo : infos[n.id]? = some ⟨[], [], []⟩) :
    (ns.foldl addInfo infos)[n.id]? = some n.info := by
  induction ns generalizing infos with
  | nil => exact absurd hn List.not_mem_nil
  | cons m rest ih =>
    rw [List.map_cons, List.nodup_cons] at hids
    rw [List.foldl_cons]
    cases List.mem_cons.mp hn with
    | inl heq =>
      subst heq
      rw [getElem?_foldl_addInfo hids.1, addInfo, List.getElem?_modify_eq, hinfo]
      rfl
    | inr hrest =>
      have hne : m.id ≠ n.id := fun heq => hids.1 (heq ▸ List.mem_map_of_mem hrest)
      apply ih hids.2 hrest
      rw [addInfo, List.getElem?_modify_ne _ _ hne, hinfo]

/-- An instruction is recorded. -/
theorem info_record {g : LIRGraph} (hids : (g.nodes.map LNode.id).Nodup)
    (hlt : ∀ n ∈ g.nodes, n.id < g.numInstructions) {n : LNode} (hn : n ∈ g.nodes) :
    (record g initial).info n.id = n.info := by
  have hempty : (List.replicate g.numInstructions (⟨[], [], []⟩ : InstructionInfo))[n.id]? =
      some ⟨[], [], []⟩ := List.getElem?_replicate_of_lt (hlt n hn)
  have hinfo := getElem?_foldl_addInfo_of_mem hids hn hempty
  unfold info record
  rw [if_neg (by simp [initial]), (instructions_foldl_recordBlock _ _).1,
    List.getD_eq_getElem?_getD]
  exact (congrArg (fun info => info.getD ⟨[], [], []⟩) hinfo)

/-- The phis of a block are recorded. -/
theorem blocks_record (g : LIRGraph) (b : ℕ) :
    (record g initial).blocks.getD b [] = g.names.phis b := by
  unfold record
  rw [if_neg (by simp [initial]), (instructions_foldl_recordBlock _ _).2,
    List.getD_eq_getElem?_getD]
  change ((g.blocks.map fun b => b.phis.map LPhi.info)[b]?).getD [] =
    (g.blocks.getD b ⟨[], [], []⟩).phis.map LPhi.info
  rw [List.getElem?_map, List.getD_eq_getElem?_getD]
  cases g.blocks[b]? <;> rfl

/-! ## What the check has seen -/

variable {st : AllocationIntegrityState} {g : LIRGraph} {w w' : Worklist IntegrityItem}

/-- Storage was followed back from a place, and what is due because of it was seen. -/
def Followed (st : AllocationIntegrityState) (g : LIRGraph) (seen : List IntegrityItem) (b : ℕ)
    (before : List LInstruction) (v : ℕ) (a : LAllocation) : Prop :=
  ∃ items, st.checkIntegrity g b before v a = some items ∧ ∀ item ∈ items, item ∈ seen

/-- Storage stays followed when more is seen. -/
theorem Followed.mono {seen seen' : List IntegrityItem} {b : ℕ} {before : List LInstruction} {v : ℕ}
    {a : LAllocation} (h : Followed st g seen b before v a) (hsub : seen ⊆ seen') :
    Followed st g seen' b before v a := by
  obtain ⟨items, hitems, hseen⟩ := h
  exact ⟨items, hitems, fun item hitem => hsub (hseen item hitem)⟩

/-- Nothing is left to look at, and what was seen is closed. -/
def Drained (st : AllocationIntegrityState) (g : LIRGraph) (w : Worklist IntegrityItem) : Prop :=
  Closed (st.visit g) w.seen ∧ w.work = []

/-- The inputs of an instruction were followed back. -/
def InputsFollowed (st : AllocationIntegrityState) (g : LIRGraph) (seen : List IntegrityItem) (b : ℕ)
    (before : List LInstruction) (inputs : List (LAllocation × LAllocation)) : Prop :=
  ∀ u a, (.use u, a) ∈ inputs → Followed st g seen b before u.virtualRegister a

/-- The check of an input. -/
theorem checkInput_some {fuel b : ℕ} {before : List LInstruction} {n : LNode}
    {input : LAllocation × LAllocation} (h : st.checkInput g fuel b before n w input = some w')
    (hw : Drained st g w) :
    Drained st g w' ∧ w.seen ⊆ w'.seen ∧ InputsFollowed st g w'.seen b before [input] := by
  obtain ⟨old, a⟩ := input
  unfold checkInput at h
  dsimp only at h
  cases hold : old.toUse with
  | none =>
    rw [hold] at h
    cases h
    refine ⟨hw, List.Subset.refl _, fun u a' hmem => ?_⟩
    cases List.mem_singleton.mp hmem
    cases hold
  | some u =>
    rw [hold] at h
    dsimp only at h
    split_ifs at h
    cases hitems : st.checkIntegrity g b before u.virtualRegister a with
    | none => simp only [hitems, reduceCtorEq] at h
    | some items =>
      simp only [hitems] at h
      have hpending : Pending (st.visit g) w := fun item hitem => .inl (hw.1 item hitem)
      have hdrain := drain_closed h (hpending.addAll items)
      refine ⟨⟨hdrain.1, hdrain.2.1⟩,
        List.Subset.trans (seen_subset_addAll w items) hdrain.2.2, fun u' a' hmem => ?_⟩
      cases List.mem_singleton.mp hmem
      cases hold
      exact ⟨items, hitems, fun item hitem => hdrain.2.2 (mem_seen_addAll w hitem)⟩

/-- The check of inputs. -/
theorem checkInputs_some {fuel b : ℕ} {before : List LInstruction} {n : LNode}
    {inputs : List (LAllocation × LAllocation)}
    (h : inputs.foldlM (st.checkInput g fuel b before n) w = some w') (hw : Drained st g w) :
    Drained st g w' ∧ w.seen ⊆ w'.seen ∧ InputsFollowed st g w'.seen b before inputs := by
  induction inputs generalizing w with
  | nil =>
    cases h
    exact ⟨hw, List.Subset.refl _, fun _ _ hmem => absurd hmem List.not_mem_nil⟩
  | cons input rest ih =>
    rw [List.foldlM_cons] at h
    cases hinput : st.checkInput g fuel b before n w input with
    | none => rw [hinput] at h; cases h
    | some w₁ =>
      rw [hinput] at h
      have hfirst := checkInput_some hinput hw
      have hrest := ih h hfirst.1
      refine ⟨hrest.1, List.Subset.trans hfirst.2.1 hrest.2.1, fun u a hmem => ?_⟩
      cases List.mem_cons.mp hmem with
      | inl heq => exact (hfirst.2.2 u a (heq ▸ List.mem_cons_self)).mono hrest.2.1
      | inr htail => exact hrest.2.2 u a htail

/-- The inputs of the instructions of a block were followed back, from a place on. -/
def BlockFollowed (st : AllocationIntegrityState) (g : LIRGraph) (seen : List IntegrityItem) (b : ℕ)
    (before after : List LInstruction) : Prop :=
  ∀ between n rest, after = between ++ .node n :: rest →
    InputsFollowed st g seen b (between.reverse ++ before) ((st.info n.id).inputs.zip n.inputs)

/-- The check of instructions. -/
theorem checkInstructions_some {fuel b : ℕ} {before after : List LInstruction}
    (h : st.checkInstructions g fuel b before after w = some w') (hw : Drained st g w) :
    Drained st g w' ∧ w.seen ⊆ w'.seen ∧ BlockFollowed st g w'.seen b before after := by
  induction after generalizing before w with
  | nil =>
    cases h
    exact ⟨hw, List.Subset.refl _, fun between n rest heq => by simp at heq⟩
  | cons ins rest ih =>
    cases ins with
    | moveGroup group =>
      have hrest := ih h hw
      refine ⟨hrest.1, hrest.2.1, fun between n rest' heq => ?_⟩
      cases between with
      | nil => cases heq
      | cons first between =>
        cases heq
        rw [List.reverse_cons, List.append_assoc]
        exact hrest.2.2 between n rest' rfl
    | node m =>
      unfold checkInstructions at h
      cases hnode : st.checkNode g fuel b before m w with
      | none => simp only [hnode, reduceCtorEq] at h
      | some w₁ =>
        simp only [hnode] at h
        unfold checkNode at hnode
        split_ifs at hnode
        have hfirst := checkInputs_some hnode hw
        have hrest := ih h hfirst.1
        refine ⟨hrest.1, List.Subset.trans hfirst.2.1 hrest.2.1, fun between n rest' heq => ?_⟩
        cases between with
        | nil =>
          cases heq
          exact fun u a hmem => (hfirst.2.2 u a hmem).mono hrest.2.1
        | cons first between =>
          cases heq
          rw [List.reverse_cons, List.append_assoc]
          exact hrest.2.2 between n rest' rfl

/-- The check of blocks. -/
theorem checkBlocks_some {fuel : ℕ} {bs : List ℕ}
    (h : bs.foldlM (fun w b => st.checkInstructions g fuel b [] (g.block b).instructions w) w =
      some w') (hw : Drained st g w) :
    Drained st g w' ∧ w.seen ⊆ w'.seen ∧
      ∀ b ∈ bs, BlockFollowed st g w'.seen b [] (g.block b).instructions := by
  induction bs generalizing w with
  | nil =>
    cases h
    exact ⟨hw, List.Subset.refl _, fun _ hmem => absurd hmem List.not_mem_nil⟩
  | cons b rest ih =>
    rw [List.foldlM_cons] at h
    cases hblock : st.checkInstructions g fuel b [] (g.block b).instructions w with
    | none => rw [hblock] at h; cases h
    | some w₁ =>
      rw [hblock] at h
      have hfirst := checkInstructions_some hblock hw
      have hrest := ih h hfirst.1
      refine ⟨hrest.1, List.Subset.trans hfirst.2.1 hrest.2.1, fun b' hmem => ?_⟩
      cases List.mem_cons.mp hmem with
      | inl heq =>
        subst heq
        intro between n rest' heq u a hinput
        exact (hfirst.2.2 between n rest' heq u a hinput).mono hrest.2.1
      | inr htail => exact hrest.2.2 b' htail

/-- What a check that completes has seen is closed, and all inputs were followed back. -/
theorem check_some {fuel : ℕ} (h : st.check g fuel = true) :
    ∃ seen, Closed (st.visit g) seen ∧ ∀ past b before n after,
      IsPath g past ⟨b, before, .node n :: after⟩ →
      InputsFollowed st g seen b before ((st.info n.id).inputs.zip n.inputs) := by
  unfold check at h
  rw [Bool.and_eq_true] at h
  obtain ⟨w, hw⟩ := Option.isSome_iff_exists.mp h.2
  have hblocks := checkBlocks_some hw ⟨fun _ hmem => absurd hmem List.not_mem_nil, rfl⟩
  refine ⟨w.seen, hblocks.1.1, fun past b before n after hpath => ?_⟩
  have hinstructions := hpath.instructions
  have hlt : b < g.blocks.length := by
    by_contra hge
    rw [LIRGraph.block, List.getD_eq_getElem?_getD, List.getElem?_eq_none (Nat.not_lt.mp hge)]
      at hinstructions
    exact absurd (List.append_eq_nil_iff.mp hinstructions).2 (List.cons_ne_nil _ _)
  have hfollowed := hblocks.2.2 b (List.mem_range.mpr hlt) before.reverse n after hinstructions.symm
  rwa [List.reverse_reverse, List.append_nil] at hfollowed

/-! ## Along a path -/

/-- A virtual register that is no definition's output has another place for its output. -/
theorem scanDefs_eq {v : ℕ} {a : LAllocation} {ds olds : List LDefinition}
    (hwrites : ds.map LDefinition.writes = olds.map LDefinition.writes) :
    (scanDefs v a (ds.zip olds) = some true →
      ∃ i, (olds.findIdx? fun d => d.writes && d.virtualRegister = v) = some i ∧
        (ds.map fun d => if d.writes then some d.output else none)[i]? = some (some a)) ∧
    (scanDefs v a (ds.zip olds) = some false →
      (olds.findIdx? fun d => d.writes && d.virtualRegister = v) = none ∧
        some a ∉ ds.map fun d => if d.writes then some d.output else none) := by
  induction ds generalizing olds with
  | nil =>
    cases olds with
    | nil => exact ⟨nofun, fun _ => ⟨rfl, List.not_mem_nil⟩⟩
    | cons old olds => cases hwrites
  | cons d ds ih =>
    cases olds with
    | nil => cases hwrites
    | cons old olds =>
      rw [List.map_cons, List.map_cons, List.cons.injEq] at hwrites
      have hrest := ih hwrites.2
      rw [List.zip_cons_cons, scanDefs, List.findIdx?_cons, List.map_cons]
      by_cases hpass : d.policy = .passthrough
      · have hnot : d.writes = false := by simp [LDefinition.writes, hpass]
        have hold : old.writes = false := hwrites.1.symm.trans hnot
        simp only [if_pos hpass, hnot, hold, Bool.false_and, Bool.false_eq_true, if_false]
        constructor
        · intro h
          obtain ⟨i, hi, htarget⟩ := hrest.1 h
          exact ⟨i + 1, by rw [hi]; rfl, htarget⟩
        · intro h
          obtain ⟨hnone, hmem⟩ := hrest.2 h
          exact ⟨by rw [hnone]; rfl, by simpa using hmem⟩
      · have hwrite : d.writes = true := by simp [LDefinition.writes, hpass]
        have hold : old.writes = true := hwrites.1.symm.trans hwrite
        simp only [if_neg hpass, hwrite, hold, Bool.true_and, if_true, decide_eq_true_eq]
        by_cases hv : old.virtualRegister = v
        · simp only [if_pos hv]
          by_cases hout : d.output = a
          · simp only [if_pos hout]
            exact ⟨fun _ => ⟨0, rfl, congrArg some (congrArg some hout)⟩, nofun⟩
          · simp only [if_neg hout]
            exact ⟨nofun, nofun⟩
        · simp only [if_neg hv]
          by_cases hout : d.output = a
          · simp only [if_pos hout]
            exact ⟨nofun, nofun⟩
          · simp only [if_neg hout]
            constructor
            · intro h
              obtain ⟨i, hi, htarget⟩ := hrest.1 h
              exact ⟨i + 1, by rw [hi]; rfl, htarget⟩
            · intro h
              obtain ⟨hnone, hmem⟩ := hrest.2 h
              refine ⟨by rw [hnone]; rfl, fun htarget => ?_⟩
              cases List.mem_cons.mp htarget with
              | inl heq => exact hout (Option.some.inj heq).symm
              | inr htail => exact hmem htail

/-- What is recorded is what an allocated graph was before. -/
structure Recorded (names : Names) (st : AllocationIntegrityState) (g : LIRGraph) : Prop where
  info : ∀ n ∈ g.nodes, st.info n.id = names.instructions n.id
  writes : ∀ n ∈ g.nodes,
    n.defs.map LDefinition.writes = (names.instructions n.id).outputs.map LDefinition.writes
  phis : ∀ b, st.blocks.getD b [] = names.phis b

/-- A graph is recorded before allocation. -/
theorem recorded_of_allocates {g₀ : LIRGraph} (h : Allocates g₀ g) :
    Recorded g₀.names (record g₀ initial) g := by
  have hinfo : ∀ n ∈ g.nodes, (record g₀ initial).info n.id = g₀.names.instructions n.id := by
    intro n hn
    obtain ⟨n₀, hn₀, hshape⟩ := h.exists_node hn
    rw [hshape.id, info_record h.nodup_ids h.id_lt hn₀, LIRGraph.names_instructions h.nodup_ids hn₀]
  refine ⟨hinfo, fun n hn => ?_, blocks_record g₀⟩
  obtain ⟨n₀, hn₀, hshape⟩ := h.exists_node hn
  rw [hshape.defs, hshape.id, LIRGraph.names_instructions h.nodup_ids hn₀]
  rfl

/-- What is mapped with failure to something is in the result. -/
theorem mem_of_mapM {α β : Type*} {f : α → Option β} {as : List α} {bs : List β} {a : α} {b : β}
    (h : as.mapM f = some bs) (ha : a ∈ as) (hb : f a = some b) : b ∈ bs := by
  induction as generalizing bs with
  | nil => exact absurd ha List.not_mem_nil
  | cons first rest ih =>
    rw [List.mapM_cons] at h
    cases hfirst : f first with
    | none => rw [hfirst] at h; cases h
    | some b₁ =>
      rw [hfirst] at h
      cases hrest : rest.mapM f with
      | none => rw [hrest] at h; cases h
      | some bs₁ =>
        rw [hrest] at h
        cases h
        cases List.mem_cons.mp ha with
        | inl heq =>
          subst heq
          rw [hb] at hfirst
          cases hfirst
          exact List.mem_cons_self
        | inr htail => exact List.mem_cons_of_mem _ (ih hrest htail)

variable {names : Names} {seen : List IntegrityItem}

/-- Storage that was followed back to the start of a block was followed to the blocks before it. -/
theorem Followed.pred {b : ℕ} {v : ℕ} {a : LAllocation} (h : Followed st g seen b [] v a)
    (hrec : Recorded names st g) {j p v' : ℕ} (hpred : (g.block b).predecessors[j]? = some p)
    (hsource : names.phiSource b j v = some v') : ⟨p, v', a⟩ ∈ seen := by
  obtain ⟨items, hitems, hseen⟩ := h
  apply hseen
  unfold checkIntegrity scan at hitems
  unfold Names.phiSource at hsource
  rw [hrec.phis] at hitems
  cases hphi : (names.phis b).find? (·.isPhiOf v) with
  | none =>
    simp only [hphi, Option.some.injEq] at hitems hsource
    subst hsource
    rw [← hitems]
    exact List.mem_map_of_mem (List.mem_of_getElem? hpred)
  | some phi =>
    simp only [hphi] at hitems hsource
    cases hinput : phi.inputs[j]? with
    | none => simp only [hinput, Option.bind_none, reduceCtorEq] at hsource
    | some input =>
      rw [hinput, Option.bind_some] at hsource
      have hzip : (input, p) ∈ phi.inputs.zip (g.block b).predecessors := by
        apply List.mem_of_getElem? (i := j)
        rw [List.getElem?_zip_eq_some]
        exact ⟨hinput, hpred⟩
      apply mem_of_mapM hitems hzip
      cases huse : input.toUse with
      | none => rw [huse] at hsource; cases hsource
      | some u => rw [huse] at hsource; cases hsource; rfl

/-- What following storage back through an instruction shows. -/
theorem Followed.node {b : ℕ} {before : List LInstruction} {n : LNode} {v : ℕ} {a : LAllocation}
    (h : Followed st g seen b (.node n :: before) v a) (hrec : Recorded names st g) (hn : n ∈ g.nodes) :
    (∃ i, (names.instructions n.id).definer v = some i ∧ n.defTargets[i]? = some (some a)) ∨
      (names.instructions n.id).definer v = none ∧ some a ∉ n.defTargets ∧
        some a ∉ n.tempTargets ∧ Followed st g seen b before v a := by
  obtain ⟨items, hitems, hseen⟩ := h
  have hdefs := scanDefs_eq (v := v) (a := a) (hrec.writes n hn)
  unfold checkIntegrity at hitems
  rw [scan, hrec.info n hn] at hitems
  cases hscan : scanDefs v a (n.defs.zip (names.instructions n.id).outputs) with
  | none => simp only [hscan, reduceCtorEq] at hitems
  | some isFound =>
    cases isFound with
    | true => exact .inl (hdefs.1 hscan)
    | false =>
      simp only [hscan] at hitems
      split_ifs at hitems with htemp hsafepoint
      · have htarget : some a ∉ n.tempTargets := by
          intro hmem
          obtain ⟨t, ht, heq⟩ := List.mem_map.mp hmem
          apply htemp
          cases hbogus : t.isBogusTemp with
          | true => rw [hbogus] at heq; cases heq
          | false =>
            rw [hbogus] at heq
            cases heq
            exact List.any_eq_true.mpr ⟨t, ht, by simp [hbogus]⟩
        have hrest := hdefs.2 hscan
        exact .inr ⟨hrest.1, hrest.2, htarget, items, hitems, hseen⟩

end AllocationIntegrityState

/-- Whether no output after the one at a place is written to storage. -/
def LNode.keepsOutput (n : LNode) (i : ℕ) (a : LAllocation) : Bool :=
  decide (some a ∉ n.defTargets.drop (i + 1))

/-- No later output is written to storage if none of the places is. -/
theorem LNode.keepsOutput_eq_true {n : LNode} {i : ℕ} {a : LAllocation} :
    n.keepsOutput i a = true ↔ ∀ j, i < j → n.defTargets[j]? ≠ some (some a) := by
  rw [LNode.keepsOutput, decide_eq_true_eq]
  constructor
  · intro h j hj htarget
    apply h
    apply List.mem_of_getElem? (i := j - (i + 1))
    rw [List.getElem?_drop, Nat.add_sub_cancel' hj]
    exact htarget
  · intro h hmem
    obtain ⟨k, hk⟩ := List.mem_iff_getElem?.mp hmem
    rw [List.getElem?_drop] at hk
    exact h (i + 1 + k) (by omega) hk

/-- Follow storage back along the path that a run took, to the definition of the virtual register that it
is to hold. There is none if the run has not defined the virtual register. Otherwise tell whether the
definition is undisturbed: no call was run while the storage was a register, and no output of the
defining instruction after the definition is in the storage. -/
def trackBack (names : Names) : List Event → ℕ → LAllocation → Option Bool
  | [], _, _ => none
  | .run (.moveGroup group) :: past, v, a => trackBack names past v (group.sourceOf a)
  | .run (.node n) :: past, v, a =>
    match (names.instructions n.id).definer v with
    | some i => some (n.keepsOutput i a)
    | none =>
      if n.isCall && a.isRegister then (trackBack names past v a).map fun _ => false
      else trackBack names past v a
  | .enter b j :: past, v, a =>
    match names.phiSource b j v with
    | some v' => trackBack names past v' a
    | none => none

section

variable {V : Type*} {names : Names} {effects : ℕ → Effects V} {init : LAllocation → V}

/-- A virtual register is defined if its definition is found. -/
theorem virt_isSome_eq (past : List Event) (v : ℕ) (a : LAllocation) :
    ((stateAfter names effects init past).virt v).isSome = (trackBack names past v a).isSome := by
  induction past generalizing v a with
  | nil => rfl
  | cons event past ih =>
    cases event with
    | run ins =>
      cases ins with
      | moveGroup group => exact ih v (group.sourceOf a)
      | node n =>
        rw [virt_run_node, trackBack]
        cases hdef : (names.instructions n.id).definer v with
        | some i => rfl
        | none =>
          dsimp only
          split_ifs
          · rw [Option.isSome_map]
            exact ih v a
          · exact ih v a
    | enter b j =>
      rw [virt_enter, trackBack]
      cases hsource : names.phiSource b j v with
      | none => rfl
      | some v' => exact ih v' a

open AllocationIntegrityState in
/-- Storage that was followed back holds the virtual register, if its definition is undisturbed. -/
theorem phys_of_followed {st : AllocationIntegrityState} {g : LIRGraph} {seen : List IntegrityItem}
    (hrec : Recorded names st g) (hclosed : Worklist.Closed (st.visit g) seen) {past : List Event}
    {pos : Position} (hpath : IsPath g past pos) {v : ℕ} {a : LAllocation}
    (hfollowed : Followed st g seen pos.block pos.before v a)
    (hclean : trackBack names past v a ≠ some false) {x : V}
    (hx : (stateAfter names effects init past).virt v = some x) :
    (stateAfter names effects init past).phys a = x := by
  induction hpath generalizing v a with
  | start => cases hx
  | @run past b before ins after hpath ih =>
    cases ins with
    | moveGroup group =>
      have hsource : Followed st g seen b before v (group.sourceOf a) := by
        rw [← followMoves_eq_sourceOf]
        exact hfollowed
      exact ih hsource hclean hx
    | node n =>
      have hn : n ∈ g.nodes := by
        apply LIRGraph.mem_nodes (b := b)
        rw [← hpath.instructions]
        exact List.mem_append_right _ List.mem_cons_self
      rw [trackBack] at hclean
      rw [virt_run_node] at hx
      rw [phys_run_node]
      cases hfollowed.node hrec hn with
      | inl hfound =>
        obtain ⟨i, hdef, htarget⟩ := hfound
        simp only [hdef, Option.some.injEq] at hx hclean
        have hkeeps : n.keepsOutput i a = true := by simpa using hclean
        rw [writeFrom_of_last _ htarget (LNode.keepsOutput_eq_true.mp hkeeps), Nat.zero_add]
        exact hx
      | inr hnot =>
        obtain ⟨hdef, hdefs, htemps, hbefore⟩ := hnot
        simp only [hdef] at hx hclean
        rw [writeFrom_of_not_mem _ hdefs, writeFrom_of_not_mem _ htemps]
        by_cases hclobber : (n.isCall && a.isRegister) = true
        · -- The storage was overwritten, so there is no definition to be found.
          rw [if_pos hclobber] at hclean
          have htrack : (trackBack names past v a).isSome = true := by
            exact (virt_isSome_eq past v a).symm.trans (congrArg Option.isSome hx)
          obtain ⟨clean, hsome⟩ := Option.isSome_iff_exists.mp htrack
          rw [hsome] at hclean
          exact absurd rfl hclean
        · rw [if_neg hclobber] at hclean
          cases clobbered_eq n.isCall (effects past.length).clobber
            (stateAfter names effects init past).phys a with
          | inl hover => exact absurd hover.1 hclobber
          | inr hkept => exact hkept.2.trans (ih hbefore hclean hx)
  | @enter past p before b j hpath hpred ih =>
    rw [trackBack] at hclean
    rw [virt_enter] at hx
    cases hsource : names.phiSource b j v with
    | none => rw [hsource] at hx; cases hx
    | some v' =>
      simp only [hsource] at hclean
      rw [hsource, Option.bind_some] at hx
      have hvisited := hclosed _ (hfollowed.pred hrec hpred hsource)
      have hbefore : (g.block p).instructions.reverse = before := by
        rw [← hpath.instructions, List.append_nil, List.reverse_reverse]
      unfold Worklist.Visited visit at hvisited
      rw [hbefore] at hvisited
      exact ih hvisited hclean hx

end

/-! ## Values that tell writes apart -/

/-- Outputs are told apart by when and where they are written. All else is nothing. -/
def marked (time : ℕ) : Effects (Option (ℕ × ℕ)) where
  temp _ := none
  out i := some (time, i)
  clobber _ := none

variable {names : Names}

/-- What a run has written to outputs, it wrote before. -/
theorem virt_marked {past : List Event} {v : ℕ} {x : Option (ℕ × ℕ)}
    (h : (stateAfter names marked (fun _ => none) past).virt v = some x) :
    ∃ t i, x = some (t, i) ∧ t < past.length := by
  induction past generalizing v with
  | nil => cases h
  | cons event past ih =>
    have hlater : (∃ t i, x = some (t, i) ∧ t < past.length) →
        ∃ t i, x = some (t, i) ∧ t < (event :: past).length := by
      rintro ⟨t, i, hx, ht⟩
      exact ⟨t, i, hx, Nat.lt_succ_of_lt ht⟩
    cases event with
    | run ins =>
      cases ins with
      | moveGroup group => exact hlater (ih h)
      | node n =>
        rw [virt_run_node] at h
        cases hdef : (names.instructions n.id).definer v with
        | none =>
          simp only [hdef] at h
          exact hlater (ih h)
        | some i =>
          simp only [hdef, Option.some.injEq] at h
          exact ⟨past.length, i, h.symm, Nat.lt_succ_self _⟩
    | enter b j =>
      rw [virt_enter] at h
      obtain ⟨v', -, hv'⟩ := Option.bind_eq_some_iff.mp h
      exact hlater (ih hv')

/-- What an instruction leaves in storage is marked with its time, is nothing, or was there before and
survived. -/
theorem phys_run_marked (names : Names) (n : LNode) (past : List Event) (a : LAllocation) :
    let before := (stateAfter names marked (fun _ => none) past).phys a
    let after := (stateAfter names marked (fun _ => none) (.run (.node n) :: past)).phys a
    after = none ∨ (∃ i, after = some (past.length, i)) ∨
      after = before ∧ (n.isCall && a.isRegister) = false := by
  intro before after
  change writeFrom _ 0 n.defTargets (writeFrom _ 0 n.tempTargets _) a = none ∨ _
  by_cases hdef : some a ∈ n.defTargets
  · obtain ⟨k, hk⟩ := List.mem_iff_getElem?.mp hdef
    obtain ⟨l, -, hl, hlast⟩ := exists_last hk
    exact .inr (.inl ⟨0 + l, writeFrom_of_last _ hl hlast 0 _⟩)
  rw [writeFrom_of_not_mem _ hdef]
  by_cases htemp : some a ∈ n.tempTargets
  · obtain ⟨k, hk⟩ := List.mem_iff_getElem?.mp htemp
    obtain ⟨l, -, hl, hlast⟩ := exists_last hk
    exact .inl (writeFrom_of_last _ hl hlast 0 _)
  rw [writeFrom_of_not_mem _ htemp]
  cases clobbered_eq n.isCall (marked past.length).clobber
    (stateAfter names marked (fun _ => none) past).phys a with
  | inl hover =>
    obtain ⟨-, reg, hreg⟩ := hover
    exact .inl hreg
  | inr hkept =>
    refine .inr (.inr ⟨?_, hkept.1⟩)
    change writeFrom _ 0 n.defTargets (writeFrom _ 0 n.tempTargets _) a = before
    rw [writeFrom_of_not_mem _ hdef, writeFrom_of_not_mem _ htemp]
    exact hkept.2

/-- Storage does not hold a virtual register whose definition is disturbed. -/
theorem phys_of_disturbed {past : List Event} {v : ℕ} {a : LAllocation}
    (h : trackBack names past v a = some false) :
    ∃ x, (stateAfter names marked (fun _ => none) past).virt v = some x ∧
      (stateAfter names marked (fun _ => none) past).phys a ≠ x := by
  induction past generalizing v a with
  | nil => cases h
  | cons event past ih =>
    cases event with
    | run ins =>
      cases ins with
      | moveGroup group => exact ih h
      | node n =>
        rw [trackBack] at h
        rw [virt_run_node]
        cases hdef : (names.instructions n.id).definer v with
        | some i =>
          simp only [hdef, Option.some.injEq] at h
          refine ⟨some (past.length, i), rfl, ?_⟩
          have hkeeps : ¬ ∀ j, i < j → n.defTargets[j]? ≠ some (some a) := fun hall => by
            rw [LNode.keepsOutput_eq_true.mpr hall] at h
            cases h
          -- The last output in the storage is after the definition.
          simp only [not_forall, not_not] at hkeeps
          obtain ⟨j, hj, htarget⟩ := hkeeps
          obtain ⟨l, hjl, hl, hlast⟩ := exists_last htarget
          rw [phys_run_node, writeFrom_of_last _ hl hlast, Nat.zero_add]
          intro heq
          cases heq
          omega
        | none =>
          simp only [hdef] at h ⊢
          -- What is in the storage now was written later than the virtual register, or was there before.
          have hprev : ∃ x, (stateAfter names marked (fun _ => none) past).virt v = some x ∧
              ((n.isCall && a.isRegister) = false →
                (stateAfter names marked (fun _ => none) past).phys a ≠ x) := by
            split_ifs at h with hclobber
            · have hsome : ((stateAfter names marked (fun _ => none) past).virt v).isSome = true := by
                rw [virt_isSome_eq past v a, ← Option.isSome_map (f := fun _ => false), h]
                rfl
              obtain ⟨x, hx⟩ := Option.isSome_iff_exists.mp hsome
              exact ⟨x, hx, fun hnot => by rw [hclobber] at hnot; cases hnot⟩
            · obtain ⟨x, hx, hne⟩ := ih h
              exact ⟨x, hx, fun _ => hne⟩
          obtain ⟨x, hx, hne⟩ := hprev
          obtain ⟨t, i, rfl, ht⟩ := virt_marked hx
          refine ⟨_, hx, fun heq => ?_⟩
          rcases phys_run_marked names n past a with hnone | ⟨j, hj⟩ | ⟨hkept, hnot⟩
          · rw [hnone] at heq
            cases heq
          · rw [hj] at heq
            cases heq
            exact absurd ht (Nat.lt_irrefl _)
          · exact hne hnot (hkept.symm.trans heq)
    | enter b j =>
      rw [trackBack] at h
      cases hsource : names.phiSource b j v with
      | none => simp only [hsource, reduceCtorEq] at h
      | some v' =>
        simp only [hsource] at h
        rw [virt_enter, hsource, Option.bind_some]
        exact ih h

/-! ## The check is sound but for what it does not look at -/

/-- Storage holds a virtual register after a run, whatever the instructions write, if the run has
defined it. -/
def Holds (names : Names) (past : List Event) (v : ℕ) (a : LAllocation) : Prop :=
  ∀ (V : Type) (effects : ℕ → Effects V) (init : LAllocation → V) (x : V),
    (stateAfter names effects init past).virt v = some x →
    (stateAfter names effects init past).phys a = x

/-- An integer is defined, a call is made, and the integer is used. -/
def integerAcrossCall : LIRGraph where
  blocks := [{
    phis := []
    instructions := [
      .node ⟨1, false, [], [], [], [⟨1, .int32, .default, .constantIndex 0⟩], none⟩,
      .node ⟨2, true, [], [], [], [], some ⟨[], [], [], [], [], [], [], []⟩⟩,
      .node ⟨3, false, [.use ⟨1, .any, 0, false⟩], [], [], [], none⟩]
    predecessors := [] }]
  numInstructions := 4
  numVirtualRegisters := 2

/-- The integer is defined in a register, and used in storage after moves. -/
def allocatedAcrossCall (moves : List LInstruction) (storage : LAllocation) : LIRGraph where
  blocks := [{
    phis := []
    instructions := [
      .node ⟨1, false, [], [], [], [⟨1, .int32, .preset, .register (.gpr 3)⟩], none⟩] ++ moves ++ [
      .node ⟨2, true, [], [], [], [], some ⟨[], [], [], [], [], [], [], []⟩⟩,
      .node ⟨3, false, [storage], [], [], [], none⟩]
    predecessors := [] }]
  numInstructions := 4
  numVirtualRegisters := 2

/-- Allocation with no moves but groups of them. -/
theorem allocates_acrossCall {moves : List LInstruction}
    (hmoves : moves.filterMap LInstruction.toNode = []) (storage : LAllocation) :
    Allocates integerAcrossCall (allocatedAcrossCall moves storage) := by
  refine ⟨by decide, by decide, .cons ⟨rfl, ?_⟩ .nil⟩
  change List.Forall₂ _ _ (List.filterMap _ ([_] ++ moves ++ [_, _]))
  rw [List.filterMap_append, List.filterMap_append, hmoves]
  exact .cons ⟨rfl, rfl, rfl, rfl, rfl, rfl⟩
    (.cons ⟨rfl, rfl, rfl, rfl, rfl, rfl⟩ (.cons ⟨rfl, rfl, rfl, rfl, rfl, rfl⟩ .nil))

end SpiderMonkey.Jit.LIR
