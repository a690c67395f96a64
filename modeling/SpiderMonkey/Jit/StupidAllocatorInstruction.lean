import SpiderMonkey.Jit.StupidAllocatorOutputs

/-!
# One instruction of the simple allocator

An instruction's inputs have their values after the moves before it. What registers carry after it has run
is what they are said to carry.
-/

namespace SpiderMonkey.Jit.LIR.StupidAllocator

variable {alloc : StupidAllocator} {V : Type*} {s₀ : State V} {s s' : AllocState} {D M : ℕ → Prop}
  {later : List ℕ} {n₀ n₁ : LNode} {synced : Prop}

/-- What holds when storage is found for all but the inputs from a place on. -/
structure Remaining (alloc : StupidAllocator) (s₀ : State V) (n₀ : LNode) (synced : Prop)
    (later : List ℕ) (i : ℕ) (s : AllocState) : Prop where
  carries : Carries alloc s₀ (Defines n₀) (· ∉ later) s
  clean : synced → ∀ reg v, (s.registers reg).vreg = some v → (s.registers reg).dirty = true →
    Defines n₀ v
  phiMoves : s.phiMoves = none
  shape : n₀.SameShape s.ins
  temps : ∀ t ∈ s.ins.temps, t.isBogusTemp = true ∨ Written alloc (Defines n₀) s t.output
  defs : ∀ (k : ℕ) (d₀ d : LDefinition), n₀.defs[k]? = some d₀ → s.ins.defs[k]? = some d →
    d₀.writes = true → DefAt alloc n₀ s d₀ d.output
  ahead : ∀ (k : ℕ) (a₀ a : LAllocation), i ≤ k → n₀.inputs[k]? = some a₀ → s.ins.inputs[k]? = some a →
    InputAt alloc s₀ n₀ s a₀ a
  reads : ∀ (k : ℕ) (u : LUse) (a : LAllocation), k < i → n₀.inputs[k]? = some (.use u) →
    s.ins.inputs[k]? = some a → Reads s₀ s u.virtualRegister a

/-- Outputs are written as before. -/
theorem Outputs.writes {kt : ℕ} {pending : List Bool}
    (h : Outputs alloc s₀ n₀ n₁ synced pending later kt n₀.defs.length s) :
    s.ins.defs.map LDefinition.writes = n₀.defs.map LDefinition.writes := by
  apply List.ext_getElem?
  intro k
  rw [List.getElem?_map, List.getElem?_map]
  cases hk : n₀.defs[k]? with
  | none =>
    rw [h.defs_ahead k (List.getElem?_eq_none_iff.mp hk), hk]
  | some d₀ =>
    obtain ⟨d, hd, hwrites, -⟩ := h.defs_done k d₀ (List.getElem?_eq_some_iff.mp hk).1 hk
    rw [hd, Option.map_some, Option.map_some, hwrites]

/-- When storage is found for temporaries and outputs, inputs remain. -/
theorem Outputs.remaining
    (h : Outputs alloc s₀ n₀ n₁ synced [] later n₀.temps.length n₀.defs.length s) :
    Remaining alloc s₀ n₀ synced later 0 s where
  carries := h.carries
  clean := h.clean
  phiMoves := h.phiMoves
  shape := ⟨h.id, h.isCall, h.operands, h.snapshot, h.temps_length, h.writes⟩
  temps t ht := by
    obtain ⟨k, hk⟩ := List.mem_iff_getElem?.mp ht
    exact h.temps_done k t (h.temps_length ▸ (List.getElem?_eq_some_iff.mp hk).1) hk
  defs k d₀ d hd₀ hd hwrites := by
    obtain ⟨d', hd', -, hat⟩ := h.defs_done k d₀ (List.getElem?_eq_some_iff.mp hd₀).1 hd₀
    rw [hd] at hd'
    cases hd'
    exact hat hwrites
  ahead k a₀ a _ := h.inputs k a₀ a
  reads k u a hk := absurd hk (Nat.not_lt_zero k)

/-- Where outputs are depends on what registers are said to hold. -/
theorem DefAt.congr {d₀ : LDefinition} {a : LAllocation} (h : DefAt alloc n₀ s d₀ a)
    (hsame : ∀ reg, (s'.registers reg).vreg = (s.registers reg).vreg ∧
      (s'.registers reg).dirty = (s.registers reg).dirty) : DefAt alloc n₀ s' d₀ a := by
  refine h.imp ?_ fun hmemory => ⟨hmemory.1, fun reg => ?_⟩
  · rintro ⟨reg, rfl, hv, hdirty, horigin⟩
    exact ⟨reg, rfl, (hsame reg).1.trans hv, (hsame reg).2.trans hdirty, horigin⟩
  · rw [(hsame reg).1]
    exact hmemory.2 reg

/-- What is written depends on what registers are said to hold. -/
theorem Written.congr {a : LAllocation} (h : Written alloc D s a)
    (hsame : ∀ reg, (s'.registers reg).vreg = (s.registers reg).vreg ∧
      (s'.registers reg).dirty = (s.registers reg).dirty) : Written alloc D s' a := by
  refine h.imp_left ?_
  rintro ⟨reg, v, rfl, hv, hD⟩
  exact ⟨reg, v, rfl, (hsame reg).1.trans hv, hD⟩

/-- An input is replaced by storage that has its value. -/
theorem Remaining.place {i : ℕ} (h : Remaining alloc s₀ n₀ synced later i s) {a : LAllocation}
    (hsame : ∀ reg, (s'.registers reg).vreg = (s.registers reg).vreg ∧
      (s'.registers reg).dirty = (s.registers reg).dirty)
    (hinput : s'.input = s.input) (hphi : s'.phiMoves = s.phiMoves) (hins : s'.ins = s.ins)
    (hreads : ∀ u, n₀.inputs[i]? = some (.use u) → Reads s₀ s u.virtualRegister a) :
    Remaining alloc s₀ n₀ synced later (i + 1) (s'.replaceInput i a) := by
  have hmoves : (s'.replaceInput i a).inputMoves = s.inputMoves :=
    congrArg (·.getD LMoveGroup.empty) hinput
  have hcontents : contents s₀ (s'.replaceInput i a) = contents s₀ s := by
    funext b
    rw [contents, contents, hmoves]
  have hnode : (s'.replaceInput i a).ins = s.ins.replaceInput i a :=
    congrArg (LNode.replaceInput · i a) hins
  have hinputs : (s'.replaceInput i a).ins.inputs = s.ins.inputs.set i a := by
    rw [hnode, inputs_replaceInput]
  have hshape : n₀.SameShape (s.ins.replaceInput i a) ∧ (s.ins.replaceInput i a).temps = s.ins.temps ∧
      (s.ins.replaceInput i a).defs = s.ins.defs := by
    obtain ⟨hid, hcall, hoperands, hsnapshot, htemps, hdefs⟩ := h.shape
    unfold LNode.replaceInput
    split_ifs
    · exact ⟨⟨hid, hcall, List.length_set.trans hoperands, hsnapshot, htemps, hdefs⟩, rfl, rfl⟩
    · exact ⟨⟨hid, hcall, hoperands, List.length_set.trans hsnapshot, htemps, hdefs⟩, rfl, rfl⟩
  constructor
  · exact h.carries.congr hmoves (fun reg => (hsame reg).1) fun reg => (hsame reg).2
  · intro hsynced reg v hv hdirty
    exact h.clean hsynced reg v ((hsame reg).1.symm.trans hv) ((hsame reg).2.symm.trans hdirty)
  · exact hphi.trans h.phiMoves
  · exact hnode ▸ hshape.1
  · intro t ht
    rw [hnode, hshape.2.1] at ht
    exact (h.temps t ht).imp_right fun hw => hw.congr hsame
  · intro k d₀ d hd₀ hd hwrites
    rw [hnode, hshape.2.2] at hd
    exact (h.defs k d₀ d hd₀ hd hwrites).congr hsame
  · intro k a₀ b hk ha₀ hb
    rw [hinputs, List.getElem?_set_ne (Nat.ne_of_lt hk)] at hb
    refine (h.ahead k a₀ b (Nat.le_of_succ_le hk) ha₀ hb).mono fun u reg _ _ hold x hx => ?_
    rw [hcontents]
    exact hold x hx
  · intro k u b hk hu hb x hx
    rw [hcontents]
    by_cases heq : k = i
    · rw [heq] at hu hb
      have hb' : b = a := by
        have hmem := List.getElem?_eq_some_iff.mp hb
        obtain ⟨hlt, hget⟩ := hmem
        simp only [hinputs, List.getElem_set_self] at hget
        exact hget.symm
      rw [hb']
      exact hreads u hu x hx
    · rw [hinputs, List.getElem?_set_ne (Ne.symm heq)] at hb
      exact h.reads k u b (by omega) hu hb x hx

/-- One step of the loop over inputs that remain. -/
theorem allocateRemaining_remaining {i : ℕ}
    (hmet : ∀ u, .use u ∈ n₀.inputs → ¬ Defines n₀ u.virtualRegister)
    (h : Remaining alloc s₀ n₀ synced later i s) :
    Remaining alloc s₀ n₀ synced later (i + 1) (alloc.allocateRemaining s i) := by
  unfold allocateRemaining
  cases hi : s.ins.inputs[i]? with
  | none =>
    refine { h with
      ahead := fun k a₀ a hk => h.ahead k a₀ a (Nat.le_of_succ_le hk)
      reads := fun k u a hk hu ha => ?_ }
    have hne : k ≠ i := by
      rintro rfl
      rw [hi] at ha
      cases ha
    exact h.reads k u a (by omega) hu ha
  | some a =>
    -- An input that was replaced has its value in a register.
    have hreplaced : a.isUse = false → Remaining alloc s₀ n₀ synced later (i + 1) s := by
      intro huse
      refine { h with
        ahead := fun k a₀ a hk => h.ahead k a₀ a (Nat.le_of_succ_le hk)
        reads := fun k u b hk hu hb => ?_ }
      by_cases heq : k = i
      · rw [heq] at hu hb
        rw [hi] at hb
        cases hb
        cases h.ahead i _ _ (Nat.le_refl i) hu hi with
        | waiting => cases huse
        | picked _ _ _ _ hreads => exact hreads
        | named _ _ hreads => exact hreads
      · exact h.reads k u b (by omega) hu hb
    cases a with
    | use u =>
      have hsource : ∀ u', n₀.inputs[i]? = some (.use u') → u' = u := by
        intro u' hu'
        cases h.ahead i _ _ (Nat.le_refl i) hu' hi
        rfl
      dsimp only
      cases hfind : alloc.findExistingRegister u.virtualRegister s with
      | none =>
        refine h.place (fun _ => ⟨rfl, rfl⟩) rfl rfl rfl fun u' hu' x hx => ?_
        cases hsource u' hu'
        exact h.carries.stored _ x hx (hmet u (List.mem_of_getElem? hu')) fun reg hreg =>
          absurd hreg (missing_of_findExistingRegister h.carries hfind reg)
      | some reg =>
        refine h.place (fun reg' => ?_) rfl rfl rfl fun u' hu' x hx => ?_
        · by_cases heq : reg' = reg
          · rw [heq, AllocState.setRegister_self]
            exact ⟨rfl, rfl⟩
          · rw [AllocState.setRegister_of_ne _ _ heq]
            exact ⟨rfl, rfl⟩
        · cases hsource u' hu'
          exact h.carries.held reg _ (vreg_of_findExistingRegister hfind)
            (hmet u (List.mem_of_getElem? hu')) x hx
    | _ => exact hreplaced rfl

/-- The virtual registers that an instruction defines hold their old values. -/
theorem Carries.weaken {D' : ℕ → Prop} (h : Carries alloc s₀ D M s) (hD : ∀ v, D v → D' v) :
    Carries alloc s₀ D' M s where
  met := h.met
  unique := h.unique
  held reg v hv hD' := h.held reg v hv fun hDv => hD' (hD v hDv)
  stored v x hx hD' := h.stored v x hx fun hDv => hD' (hD v hDv)
  unloaded reg v hv hdirty hD' := h.unloaded reg v hv hdirty fun hDv => hD' (hD v hDv)

section

variable (hsep : Separate alloc) (hknown : ∀ v x, s₀.virt v = some x → alloc.Known v)
include hsep hknown

/-- Registers are synced one after another. -/
theorem foldl_syncRegister (regs : List AnyRegister) (h : Carries alloc s₀ D M s) :
    let s' := regs.foldl (fun s reg => alloc.syncRegister reg s) s
    Carries alloc s₀ D M s' ∧ Frame s₀ s s' ∧ ∀ reg ∈ regs, ∀ v, (s'.registers reg).vreg = some v →
      (s'.registers reg).dirty = false := by
  induction regs generalizing s with
  | nil => exact ⟨h, Frame.refl s₀ s, nofun⟩
  | cons first rest ih =>
    obtain ⟨hc, hframe, hsynced⟩ := syncRegister_carries hsep hknown h first
    obtain ⟨hc', hframe', hclean⟩ := ih hc
    refine ⟨hc', hframe.trans hframe', fun reg hreg v hv => ?_⟩
    cases List.mem_cons.mp hreg with
    | inr hrest => exact hclean reg hrest v hv
    | inl hfirst =>
      rw [hfirst] at hv ⊢
      by_contra hdirty
      rw [Bool.not_eq_false] at hdirty
      obtain ⟨hv', hdirty'⟩ := hframe'.dirty first v hv hdirty
      rw [hsynced.vreg] at hv'
      rw [hsynced.clean (by rw [hv']; exact Option.some_ne_none v)] at hdirty'
      cases hdirty'

/-- All registers are synced. -/
theorem syncAll_carries (h : Carries alloc s₀ D M s) :
    Carries alloc s₀ D M (alloc.syncAll s) ∧ Frame s₀ s (alloc.syncAll s) ∧
      ∀ reg v, ((alloc.syncAll s).registers reg).vreg = some v →
        ((alloc.syncAll s).registers reg).dirty = false := by
  obtain ⟨hc, hframe, hclean⟩ := foldl_syncRegister hsep hknown alloc.allRegisters h
  exact ⟨hc, hframe, fun reg v hv => hclean reg (hc.met reg v hv).2.2.1 v hv⟩

end

/-- What an instruction has picked for it, by kind. -/
def flexible (alloc : StupidAllocator) (n : LNode) : List Bool :=
  n.inputs.filterMap alloc.flexibleInput ++ ((tempsFrom n 0).flatMap alloc.flexibleOutput ++
    (defsFrom n 0).flatMap alloc.flexibleOutput)

/-- An instruction that storage can be found for: what it asks for by name are different registers that
may be used, and what is picked for it fits beside these. -/
structure Allocatable (alloc : StupidAllocator) (n : LNode) : Prop where
  /-- Uses ask for registers that may be used, and different virtual registers for different ones. -/
  fixed_mem : ∀ u, .use u ∈ n.inputs → u.policy = .fixed → alloc.fixedRegister u ∈ alloc.allRegisters
  fixed_eq : ∀ u u', .use u ∈ n.inputs → .use u' ∈ n.inputs → u.policy = .fixed →
    u'.policy = .fixed → alloc.fixedRegister u = alloc.fixedRegister u' →
    u.virtualRegister = u'.virtualRegister
  /-- So do temporaries and outputs, and a register is of the kind of what it holds. -/
  named : ∀ d ∈ tempsFrom n 0 ++ defsFrom n 0, ∀ reg, d.policy = .preset → d.output = .register reg →
    reg ∈ alloc.allRegisters ∧ reg.isFloat = alloc.isFloat d.virtualRegister
  named_ne : ∀ (j k : ℕ) (d d' : LDefinition) (reg : AnyRegister), j ≠ k → n.defs[j]? = some d →
    n.defs[k]? = some d' → d.writes = true → d'.writes = true → d.output = .register reg →
    d'.output ≠ .register reg
  /-- No other definition has a register before storage is found. -/
  unnamed : ∀ d ∈ tempsFrom n 0 ++ defsFrom n 0,
    d.policy = .preset ∧ (∃ reg, d.output = .register reg) ∨ alloc.reservedBy d.output = none
  /-- What is to reuse the storage of an input does so for an operand of its kind that is in a
  register. Such an output is alone. -/
  reuse : ∀ d ∈ tempsFrom n 0 ++ defsFrom n 0, d.policy = .mustReuseInput →
    ∃ (j : ℕ) (u : LUse), d.reusedInput = some j ∧ n.operands[j]? = some (.use u) ∧ Required u ∧
      alloc.isFloat u.virtualRegister = alloc.isFloat d.virtualRegister
  alone : ∀ (j k : ℕ) (d d' : LDefinition), j ≠ k → n.defs[j]? = some d → n.defs[k]? = some d' →
    d.writes = true → d'.writes = true → d.policy ≠ .mustReuseInput
  /-- There are enough registers of each kind. -/
  fits : ∀ isFloat, (alloc.flexible n).count isFloat +
    (alloc.reserved n).dedup.countP (·.isFloat = isFloat) ≤
      alloc.allRegisters.countP (·.isFloat = isFloat)

/-- What an instruction asks for once its inputs are in registers. -/
theorem Allocatable.asks (hn : Allocatable alloc n₀)
    (hdefined : ∀ d ∈ tempsFrom n₀ 0 ++ defsFrom n₀ 0, alloc.virtualRegisters d.virtualRegister = some d)
    {pending : List Bool} (h : Inputs alloc s₀ n₀ D M synced pending n₀.inputs.length s) :
    Asks alloc n₀ s.ins where
  definable d hd := ⟨hdefined d hd, hn.named d hd, hn.unnamed d hd⟩
  named_ne := hn.named_ne
  alone := hn.alone
  reuse d hd hmust := by
    obtain ⟨j, u, hj, hoperand, hrequired, hclass⟩ := hn.reuse d hd hmust
    have hlt : j < n₀.operands.length := (List.getElem?_eq_some_iff.mp hoperand).1
    have hinput : n₀.inputs[j]? = some (.use u) := by
      rw [LNode.inputs, List.getElem?_append_left hlt]
      exact hoperand
    obtain ⟨reg, hreg⟩ := h.done j u (List.getElem?_eq_some_iff.mp hinput).1 hinput hrequired
    have hplaced : s.ins.operands[j]? = some (.register reg) := by
      rw [LNode.inputs, List.getElem?_append_left (h.operands.symm ▸ hlt)] at hreg
      exact hreg
    cases h.inputs j _ _ hinput hreg with
    | picked _ hmem hkind _ _ => exact ⟨j, _, hj, hplaced, hmem, hkind.trans hclass⟩
    | named _ hmem _ =>
      exact ⟨j, _, hj, hplaced, hmem, (isFloat_fixedRegister alloc u).trans hclass⟩

/-- Storage is found for an instruction. -/
theorem exists_allocateForInstruction (hsep : Separate alloc)
    (hknown : ∀ v x, s₀.virt v = some x → alloc.Known v) (hregs : alloc.allRegisters.Nodup)
    (hn : Allocatable alloc n₀)
    (hdefined : ∀ d ∈ tempsFrom n₀ 0 ++ defsFrom n₀ 0, alloc.virtualRegisters d.virtualRegister = some d)
    (huses : ∀ u, .use u ∈ n₀.inputs →
      u.virtualRegister ∉ tempsLater n₀ later 0 ∧ alloc.Known u.virtualRegister)
    (hnodup : (tempsLater n₀ later 0).Nodup)
    (h : Carries alloc s₀ (fun _ => False) (· ∉ tempsLater n₀ later 0) s) (hins : s.ins = n₀)
    (hphi : s.phiMoves = none) (hdests : ∀ reg, .register reg ∉ dests s)
    (hclean : synced → ∀ reg v, (s.registers reg).vreg = some v → (s.registers reg).dirty = false) :
    ∃ s', alloc.allocateForInstruction s = some (if n₀.isCall then alloc.evictClean s' else s') ∧
      Remaining alloc s₀ n₀ (n₀.isCall = true ∨ synced) later n₀.inputs.length s' := by
  have hmet : ∀ u, .use u ∈ n₀.inputs → ¬ Defines n₀ u.virtualRegister := by
    rintro u hu ⟨d, hd, hv⟩
    refine (huses u hu).1 ?_
    rw [tempsLater, ← List.append_assoc, ← List.map_append, ← hv]
    exact List.mem_append_left _ (List.mem_map_of_mem hd)
  -- A call syncs registers first.
  have hstart : ∃ s₁, s₁ = (if n₀.isCall then alloc.syncAll s else s) ∧
      Carries alloc s₀ (fun _ => False) (· ∉ tempsLater n₀ later 0) s₁ ∧ Frame s₀ s s₁ ∧
      (n₀.isCall = true ∨ synced → ∀ reg v, (s₁.registers reg).vreg = some v →
        (s₁.registers reg).dirty = false) := by
    refine ⟨_, rfl, ?_⟩
    obtain ⟨hc, hframe, hsynced⟩ := syncAll_carries hsep hknown h
    split_ifs with hcall
    · exact ⟨hc, hframe, fun _ => hsynced⟩
    · exact ⟨h, Frame.refl s₀ s, fun hor => hclean (hor.resolve_left hcall)⟩
  obtain ⟨s₁, hs₁, hc, hframe, hsynced⟩ := hstart
  have hins₁ : s₁.ins = n₀ := hframe.ins.trans hins
  have hinputs : Inputs alloc s₀ n₀ (Defines n₀) (· ∉ tempsLater n₀ later 0)
      (n₀.isCall = true ∨ synced) (alloc.flexible n₀) 0 s₁ := by
    constructor
    · constructor
      · exact hc.weaken fun _ hfalse => hfalse.elim
      · intro hor reg v hv hdirty
        rw [hsynced hor reg v hv] at hdirty
        cases hdirty
      · exact ⟨[], fun reg hreg => .inl (hins₁ ▸ hreg), hn.fits⟩
      · exact fun reg hreg => hins₁.symm ▸ hreg
      · exact hframe.phiMoves.trans hphi
      · rw [hins₁]
      · rw [hins₁]
      · rw [hins₁]
      · rw [hins₁]
      · intro k a₀ a ha₀ ha
        rw [hins₁, ha₀] at ha
        cases ha
        exact .waiting a₀
    · exact fun k _ => by rw [hins₁]
    · exact fun k u hk => absurd hk (Nat.not_lt_zero k)
    · exact fun reg hdest => absurd (hframe.dests reg hdest) (hdests reg)
    · rw [hins₁]
    · rw [hins₁]
  obtain ⟨s₂, hs₂, hinputs₂⟩ := foldlM_allocateRequired hsep hknown
    ⟨fun u hu => ⟨(huses u hu).1, (huses u hu).2, hmet u hu⟩, hn.fixed_mem, hn.fixed_eq⟩ hregs hinputs
  have hasks := hn.asks hdefined hinputs₂
  have houtputs : Outputs alloc s₀ n₀ s₂.ins (n₀.isCall = true ∨ synced)
      ((tempsFrom n₀ 0).flatMap alloc.flexibleOutput ++ (defsFrom n₀ 0).flatMap alloc.flexibleOutput)
      (tempsLater n₀ later 0) 0 0 s₂ := by
    refine ⟨hinputs₂.toAllocating, ⟨rfl, rfl, rfl, rfl⟩, fun k _ => by rw [hinputs₂.temps],
      fun k t hk => absurd hk (Nat.not_lt_zero k), by rw [hinputs₂.temps],
      fun k _ => by rw [hinputs₂.defs], fun k d₀ hk => absurd hk (Nat.not_lt_zero k)⟩
  obtain ⟨s₃, hs₃, houtputs₃⟩ := foldlM_allocateTemp hsep hknown hregs hasks hnodup houtputs
  obtain ⟨s₄, hs₄, houtputs₄⟩ := foldlM_allocateDef hsep hknown hregs hasks
    (List.nodup_append.mp hnodup).2.1 houtputs₃
  have hremaining := houtputs₄.remaining
  have hlength : s₄.ins.inputs.length = n₀.inputs.length := by
    rw [LNode.inputs, LNode.inputs, List.length_append, List.length_append, hremaining.shape.operands,
      hremaining.shape.snapshot]
  have hend := Lib.foldl_range (n := n₀.inputs.length)
    (P := fun i s => Remaining alloc s₀ n₀ (n₀.isCall = true ∨ synced) later i s) hremaining
    fun i _ s hs => allocateRemaining_remaining hmet hs
  refine ⟨_, ?_, hend⟩
  simp only [allocateForInstruction, hins, ← hs₁, Option.bind_eq_bind, hs₂, hs₃, hs₄, Option.bind_some,
    hlength]

end SpiderMonkey.Jit.LIR.StupidAllocator
