import SpiderMonkey.Jit.StupidAllocator

/-!
# What the simple register allocator keeps

What storage holds after the moves that were added so far is followed through each operation. A virtual
register is in the registers that are said to hold it, and in memory unless one of them is dirty. This
is about the virtual registers that the instruction does not define itself: those hold old values until
it has run.
-/

namespace SpiderMonkey.Jit.LIR.StupidAllocator

variable {alloc : StupidAllocator} {V : Type*} {s₀ : State V} {s s' : AllocState}

/-- A virtual register that the allocator knows. -/
def Known (alloc : StupidAllocator) (v : ℕ) : Prop :=
  (alloc.virtualRegisters v).isSome

/-- Whether a virtual register is held in a floating-point register. -/
def isFloat (alloc : StupidAllocator) (v : ℕ) : Bool :=
  (alloc.virtualRegisters v).any LDefinition.isFloatReg

/-- Virtual registers have memory of their own. -/
def Separate (alloc : StupidAllocator) : Prop :=
  ∀ v v', alloc.Known v → alloc.Known v' → alloc.stackLocation v = alloc.stackLocation v' → v = v'

/-- What storage holds after the moves before the instruction. -/
def contents (s₀ : State V) (s : AllocState) (a : LAllocation) : V :=
  s₀.phys (s.inputMoves.sourceOf a)

/-- The storage that the moves before the instruction are to. -/
def dests (s : AllocState) : List LAllocation :=
  s.inputMoves.moves.map LMove.dest

/-- Memory is no register. -/
theorem stackLocation_ne_register (alloc : StupidAllocator) (v : ℕ) (reg : AnyRegister) :
    alloc.stackLocation v ≠ .register reg := by
  unfold stackLocation
  split
  · nofun
  · split_ifs with h
    · intro heq
      rw [heq] at h
      exact absurd h.2 Bool.false_ne_true
    · nofun

/-- What registers carry while storage is found for an instruction. The virtual registers in `D` are
defined by it, and those in `M` were met so far. -/
structure Carries (alloc : StupidAllocator) (s₀ : State V) (D M : ℕ → Prop) (s : AllocState) :
    Prop where
  met : ∀ reg v, (s.registers reg).vreg = some v →
    M v ∧ alloc.Known v ∧ reg ∈ alloc.allRegisters ∧ reg.isFloat = alloc.isFloat v
  unique : ∀ reg reg' v, (s.registers reg).vreg = some v → (s.registers reg').vreg = some v → reg = reg'
  held : ∀ reg v, (s.registers reg).vreg = some v → ¬ D v → ∀ x, s₀.virt v = some x →
    contents s₀ s (.register reg) = x
  stored : ∀ v x, s₀.virt v = some x → ¬ D v →
    (∀ reg, (s.registers reg).vreg = some v → (s.registers reg).dirty = false) →
    contents s₀ s (alloc.stackLocation v) = x
  unloaded : ∀ reg v, (s.registers reg).vreg = some v → (s.registers reg).dirty = true → ¬ D v →
    .register reg ∉ dests s

/-- An operation that moves to memory only. -/
structure Frame (s₀ : State V) (s s' : AllocState) : Prop where
  ins : s'.ins = s.ins
  phiMoves : s'.phiMoves = s.phiMoves
  contents : ∀ reg, contents s₀ s' (.register reg) = contents s₀ s (.register reg)
  dests : ∀ reg, .register reg ∈ dests s' → .register reg ∈ dests s
  dirty : ∀ reg v, (s'.registers reg).vreg = some v → (s'.registers reg).dirty = true →
    (s.registers reg).vreg = some v ∧ (s.registers reg).dirty = true

/-- Nothing is done. -/
theorem Frame.refl (s₀ : State V) (s : AllocState) : Frame s₀ s s :=
  ⟨rfl, rfl, fun _ => rfl, fun _ h => h, fun _ _ hv hd => ⟨hv, hd⟩⟩

/-- One operation after another. -/
theorem Frame.trans {s'' : AllocState} (h : Frame s₀ s s') (h' : Frame s₀ s' s'') :
    Frame s₀ s s'' :=
  ⟨h'.ins.trans h.ins, h'.phiMoves.trans h.phiMoves,
    fun reg => (h'.contents reg).trans (h.contents reg),
    fun reg hreg => h.dests reg (h'.dests reg hreg),
    fun reg v hv hd => h.dirty reg v (h'.dirty reg v hv hd).1 (h'.dirty reg v hv hd).2⟩

/-- What storage holds after one more move. -/
theorem contents_addInputMove (s₀ : State V) (s : AllocState) (m : LMove) :
    (∀ a, contents s₀ (s.addInputMove m) a =
      if a = m.dest then contents s₀ s m.source else contents s₀ s a) ∨
    (∀ a, contents s₀ (s.addInputMove m) a = contents s₀ s a) ∧
      s.inputMoves.sourceOf m.source = m.dest ∧ m.dest ∈ dests s := by
  have hmoves : (s.addInputMove m).inputMoves = s.inputMoves.addAfter m := rfl
  unfold contents
  rw [hmoves]
  cases LMoveGroup.sourceOf_addAfter s.inputMoves m with
  | inl h =>
    refine .inl fun a => ?_
    rw [h a]
    split_ifs <;> rfl
  | inr h =>
    rw [h.1]
    exact .inr ⟨fun _ => rfl, h.2⟩

/-- What is moved to after one more move. -/
theorem dests_addInputMove {m : LMove} {a : LAllocation} (h : a ∈ dests (s.addInputMove m)) :
    a ∈ dests s ∨ a = m.dest :=
  LMoveGroup.dest_addAfter h

variable {D M : ℕ → Prop}

/-- What a register is said to hold matters, and whether it is dirty. -/
theorem Carries.congr (h : Carries alloc s₀ D M s) (hmoves : s'.inputMoves = s.inputMoves)
    (hvreg : ∀ reg, (s'.registers reg).vreg = (s.registers reg).vreg)
    (hdirty : ∀ reg, (s'.registers reg).dirty = (s.registers reg).dirty) :
    Carries alloc s₀ D M s' := by
  have hcontents : contents s₀ s' = contents s₀ s := by
    funext a
    rw [contents, contents, hmoves]
  have hdests : dests s' = dests s := by rw [dests, dests, hmoves]
  constructor
  · intro reg v hreg
    exact h.met reg v ((hvreg reg).symm.trans hreg)
  · intro reg reg' v hreg hreg'
    exact h.unique reg reg' v ((hvreg reg).symm.trans hreg) ((hvreg reg').symm.trans hreg')
  · intro reg v hreg hD x hx
    rw [hcontents]
    exact h.held reg v ((hvreg reg).symm.trans hreg) hD x hx
  · intro v x hx hD hclean
    rw [hcontents]
    refine h.stored v x hx hD fun reg hreg => ?_
    rw [← hdirty]
    exact hclean reg ((hvreg reg).trans hreg)
  · intro reg v hreg hd hD
    rw [hdests]
    exact h.unloaded reg v ((hvreg reg).symm.trans hreg) ((hdirty reg).symm.trans hd) hD

/-- A register was synced: all registers hold the same, and it is clean if it holds something. -/
structure Synced (reg : AnyRegister) (s s' : AllocState) : Prop where
  vreg : ∀ reg', (s'.registers reg').vreg = (s.registers reg').vreg
  other : ∀ reg', reg' ≠ reg → s'.registers reg' = s.registers reg'
  clean : (s.registers reg).vreg ≠ none → (s'.registers reg).dirty = false

/-- A register that is dirty is moved to memory. -/
theorem syncDirty_carries (hsep : Separate alloc) (hknown : ∀ v x, s₀.virt v = some x → alloc.Known v)
    (h : Carries alloc s₀ D M s) {reg : AnyRegister} {v : ℕ} (hv : (s.registers reg).vreg = some v)
    (hdirty : (s.registers reg).dirty = true) (t : LType) :
    let s' := (s.addInputMove ⟨.register reg, alloc.stackLocation v, t⟩).setRegister reg
      { s.registers reg with dirty := false }
    Carries alloc s₀ D M s' ∧ Frame s₀ s s' ∧ Synced reg s s' := by
  intro s'
  have hcases := contents_addInputMove s₀ s ⟨.register reg, alloc.stackLocation v, t⟩
  have hsynced : Synced reg s s' := by
    refine ⟨fun reg' => ?_, fun reg' hne => AllocState.setRegister_of_ne _ _ hne, fun _ => ?_⟩
    · by_cases heq : reg' = reg
      · rw [heq]
        exact (congrArg AllocatedRegister.vreg (AllocState.setRegister_self _ _ _)).trans rfl
      · exact congrArg AllocatedRegister.vreg (AllocState.setRegister_of_ne _ _ heq)
    · exact congrArg AllocatedRegister.dirty (AllocState.setRegister_self _ _ _)
  have hother : ∀ a, a ≠ alloc.stackLocation v → contents s₀ s' a = contents s₀ s a := by
    intro a ha
    cases hcases with
    | inl hmove => exact (hmove a).trans (if_neg ha)
    | inr hsame => exact hsame.1 a
  have hmemory : ¬ D v → contents s₀ s' (alloc.stackLocation v) = contents s₀ s (.register reg) := by
    intro hD
    cases hcases with
    | inl hmove => exact (hmove _).trans (if_pos rfl)
    | inr hsame =>
      -- The register was not loaded, so the move is from it.
      have hsource := LMoveGroup.sourceOf_of_not_mem (h.unloaded reg v hv hdirty hD)
      exact absurd (hsame.2.1.symm.trans hsource) (stackLocation_ne_register alloc v reg)
  have hreg : ∀ reg', contents s₀ s' (.register reg') = contents s₀ s (.register reg') :=
    fun reg' => hother _ (Ne.symm (stackLocation_ne_register alloc v reg'))
  have hdests : ∀ reg', .register reg' ∈ dests s' → .register reg' ∈ dests s := by
    intro reg' hmem
    exact (dests_addInputMove hmem).resolve_right (Ne.symm (stackLocation_ne_register alloc v reg'))
  have hdirtied : ∀ reg' w, (s'.registers reg').vreg = some w → (s'.registers reg').dirty = true →
      (s.registers reg').vreg = some w ∧ (s.registers reg').dirty = true := by
    intro reg' w hw hd
    refine ⟨(hsynced.vreg reg').symm.trans hw, ?_⟩
    by_cases heq : reg' = reg
    · rw [heq]
      exact hdirty
    · rw [← hsynced.other reg' heq]
      exact hd
  refine ⟨?_, ⟨rfl, rfl, hreg, hdests, hdirtied⟩, hsynced⟩
  constructor
  · intro reg' v' hv'
    exact h.met reg' v' ((hsynced.vreg reg').symm.trans hv')
  · intro reg' reg'' v' hv' hv''
    exact h.unique reg' reg'' v' ((hsynced.vreg reg').symm.trans hv')
      ((hsynced.vreg reg'').symm.trans hv'')
  · intro reg' v' hv' hD x hx
    rw [hreg]
    exact h.held reg' v' ((hsynced.vreg reg').symm.trans hv') hD x hx
  · intro v' x hx hD hclean
    by_cases heq : v' = v
    · rw [heq] at hx hD ⊢
      rw [hmemory hD]
      exact h.held reg v hv hD x hx
    · have hne : alloc.stackLocation v' ≠ alloc.stackLocation v :=
        fun hloc => heq (hsep v' v (hknown v' x hx) (h.met reg v hv).2.1 hloc)
      rw [hother _ hne]
      refine h.stored v' x hx hD fun reg' hv' => ?_
      have hregne : reg' ≠ reg := by
        intro hsame
        rw [hsame, hv] at hv'
        exact heq (Option.some.inj hv').symm
      rw [← hsynced.other reg' hregne]
      exact hclean reg' ((hsynced.vreg reg').trans hv')
  · intro reg' v' hv' hd hD hmem
    have hregne : reg' ≠ reg := by
      intro hsame
      rw [hsame, hsynced.clean (by rw [hv]; exact Option.some_ne_none v)] at hd
      cases hd
    refine h.unloaded reg' v' ((hsynced.vreg reg').symm.trans hv') ?_ hD (hdests reg' hmem)
    rw [← hsynced.other reg' hregne]
    exact hd

/-- A sync keeps what registers carry. -/
theorem syncRegister_carries (hsep : Separate alloc) (hknown : ∀ v x, s₀.virt v = some x → alloc.Known v)
    (h : Carries alloc s₀ D M s) (reg : AnyRegister) :
    Carries alloc s₀ D M (alloc.syncRegister reg s) ∧ Frame s₀ s (alloc.syncRegister reg s) ∧
      Synced reg s (alloc.syncRegister reg s) := by
  cases hdirty : (s.registers reg).dirty with
  | false =>
    have hsame : alloc.syncRegister reg s = s := by simp only [syncRegister, hdirty]
    rw [hsame]
    exact ⟨h, Frame.refl s₀ s, fun _ => rfl, fun _ _ => rfl, fun _ => hdirty⟩
  | true =>
    cases hv : (s.registers reg).vreg with
    | none =>
      have hsame : alloc.syncRegister reg s = s := by simp only [syncRegister, hdirty, hv]
      rw [hsame]
      exact ⟨h, Frame.refl s₀ s, fun _ => rfl, fun _ _ => rfl, fun hne => absurd hv hne⟩
    | some v =>
      have hmove : alloc.syncRegister reg s =
          (s.addInputMove ⟨.register reg, alloc.stackLocation v, (s.registers reg).type⟩).setRegister
            reg { s.registers reg with dirty := false } := by
        simp only [syncRegister, hdirty, hv]
      rw [hmove]
      exact syncDirty_carries hsep hknown h hv hdirty _

/-- A register was evicted: it holds nothing, and the others hold the same. -/
structure Evicted (reg : AnyRegister) (s s' : AllocState) : Prop where
  missing : (s'.registers reg).vreg = none
  other : ∀ reg', reg' ≠ reg → s'.registers reg' = s.registers reg'

/-- Eviction keeps what registers carry. -/
theorem evictRegister_carries (hsep : Separate alloc)
    (hknown : ∀ v x, s₀.virt v = some x → alloc.Known v) (h : Carries alloc s₀ D M s)
    (reg : AnyRegister) :
    Carries alloc s₀ D M (alloc.evictRegister reg s) ∧ Frame s₀ s (alloc.evictRegister reg s) ∧
      Evicted reg s (alloc.evictRegister reg s) := by
  obtain ⟨hc, hframe, hsynced⟩ := syncRegister_carries hsep hknown h reg
  unfold evictRegister
  generalize alloc.syncRegister reg s = s₁ at hc hframe hsynced ⊢
  have hself : ((s₁.setRegister reg (s₁.registers reg).missing).registers reg).vreg = none :=
    congrArg AllocatedRegister.vreg (AllocState.setRegister_self _ _ _)
  have hother : ∀ reg', reg' ≠ reg →
      (s₁.setRegister reg (s₁.registers reg).missing).registers reg' = s₁.registers reg' :=
    fun reg' hne => AllocState.setRegister_of_ne _ _ hne
  have hstill : ∀ reg' v, ((s₁.setRegister reg (s₁.registers reg).missing).registers reg').vreg =
      some v → reg' ≠ reg := by
    rintro reg' v hv rfl
    rw [hself] at hv
    cases hv
  have hdirtied : ∀ reg' w, ((s₁.setRegister reg (s₁.registers reg).missing).registers reg').vreg =
      some w → ((s₁.setRegister reg (s₁.registers reg).missing).registers reg').dirty = true →
      (s.registers reg').vreg = some w ∧ (s.registers reg').dirty = true := by
    intro reg' w hw hd
    have hne := hstill reg' w hw
    rw [hother reg' hne] at hw hd
    exact hframe.dirty reg' w hw hd
  refine ⟨?_, ⟨hframe.ins, hframe.phiMoves, hframe.contents, hframe.dests, hdirtied⟩, hself,
    fun reg' hne => ?_⟩
  · constructor
    · intro reg' v hv
      rw [hother reg' (hstill reg' v hv)] at hv
      exact hc.met reg' v hv
    · intro reg' reg'' v hv hv'
      rw [hother reg' (hstill reg' v hv)] at hv
      rw [hother reg'' (hstill reg'' v hv')] at hv'
      exact hc.unique reg' reg'' v hv hv'
    · intro reg' v hv hD x hx
      rw [hother reg' (hstill reg' v hv)] at hv
      exact hc.held reg' v hv hD x hx
    · intro v x hx hD hclean
      refine hc.stored v x hx hD fun reg' hv => ?_
      by_cases heq : reg' = reg
      · rw [heq] at hv ⊢
        apply hsynced.clean
        rw [← hsynced.vreg reg, hv]
        exact Option.some_ne_none v
      · rw [← hother reg' heq] at hv ⊢
        exact hclean reg' hv
    · intro reg' v hv hd hD
      have hne := hstill reg' v hv
      rw [hother reg' hne] at hv hd
      exact hc.unloaded reg' v hv hd hD
  · rw [hother reg' hne, hsynced.other reg' hne]

/-- An operation after which a register has the value of a virtual register. It moves to memory and to
that register only. -/
structure Loads (s₀ : State V) (v : ℕ) (reg : AnyRegister) (s s' : AllocState) : Prop where
  ins : s'.ins = s.ins
  phiMoves : s'.phiMoves = s.phiMoves
  holds : ∀ x, s₀.virt v = some x → contents s₀ s' (.register reg) = x
  contents : ∀ reg', reg' ≠ reg → contents s₀ s' (.register reg') = contents s₀ s (.register reg')
  dests : ∀ reg', .register reg' ∈ dests s' → .register reg' ∈ dests s ∨ reg' = reg
  dirty : ∀ reg' w, (s'.registers reg').vreg = some w → (s'.registers reg').dirty = true →
    (s.registers reg').vreg = some w ∧ (s.registers reg').dirty = true

/-- A load after an operation that moves to memory. -/
theorem Frame.trans_loads {s'' : AllocState} {v : ℕ} {reg : AnyRegister} (h : Frame s₀ s s')
    (h' : Loads s₀ v reg s' s'') : Loads s₀ v reg s s'' :=
  ⟨h'.ins.trans h.ins, h'.phiMoves.trans h.phiMoves, h'.holds,
    fun reg' hne => (h'.contents reg' hne).trans (h.contents reg'),
    fun reg' hreg' => (h'.dests reg' hreg').imp_left (h.dests reg'),
    fun reg' w hw hd => h.dirty reg' w (h'.dirty reg' w hw hd).1 (h'.dirty reg' w hw hd).2⟩

/-- A register that holds a virtual register need not be loaded. -/
theorem Frame.loads {v : ℕ} {reg : AnyRegister} (h : Frame s₀ s s')
    (hholds : ∀ x, s₀.virt v = some x → StupidAllocator.contents s₀ s (.register reg) = x) :
    Loads s₀ v reg s s' :=
  ⟨h.ins, h.phiMoves, fun x hx => (h.contents reg).trans (hholds x hx), fun reg' _ => h.contents reg',
    fun reg' hreg' => .inl (h.dests reg' hreg'), h.dirty⟩

/-- A load to a register that holds nothing. A move to it that was added before has brought the same
value. -/
theorem loadRegister_carries (h : Carries alloc s₀ D M s) {v : ℕ} {reg : AnyRegister}
    (hreg : reg ∈ alloc.allRegisters) (hv : alloc.Known v) (hM : M v) (hD : ¬ D v)
    (hclass : reg.isFloat = alloc.isFloat v)
    (hfree : (s.registers reg).vreg = none) (hmissing : ∀ reg', (s.registers reg').vreg ≠ some v)
    (hmoved : .register reg ∈ dests s →
      ∀ x, s₀.virt v = some x → contents s₀ s (.register reg) = x) :
    Carries alloc s₀ D M (alloc.loadRegister v reg s) ∧ Loads s₀ v reg s (alloc.loadRegister v reg s) := by
  have hcases := contents_addInputMove s₀ s ⟨alloc.stackLocation v, .register reg, alloc.typeOf v⟩
  set s' := alloc.loadRegister v reg s with hs'
  have hself : s'.registers reg = ⟨alloc.typeOf v, some v, s.ins.id, false⟩ :=
    AllocState.setRegister_self _ _ _
  have hother : ∀ reg', reg' ≠ reg → s'.registers reg' = s.registers reg' :=
    fun reg' hne => AllocState.setRegister_of_ne _ _ hne
  have hrest : ∀ a, a ≠ .register reg → contents s₀ s' a = contents s₀ s a := by
    intro a ha
    cases hcases with
    | inl hmove => exact (hmove a).trans (if_neg ha)
    | inr hsame => exact hsame.1 a
  have hholds : ∀ x, s₀.virt v = some x → contents s₀ s' (.register reg) = x := by
    intro x hx
    cases hcases with
    | inl hmove =>
      have hstored := h.stored v x hx hD fun reg' hreg' => absurd hreg' (hmissing reg')
      exact ((hmove (.register reg)).trans (if_pos rfl)).trans hstored
    | inr hsame => exact (hsame.1 _).trans (hmoved hsame.2.2 x hx)
  have hdests : ∀ reg', .register reg' ∈ dests s' → .register reg' ∈ dests s ∨ reg' = reg := by
    intro reg' hmem
    exact (dests_addInputMove hmem).imp_right LAllocation.register.inj
  have hdirty : ∀ reg' w, (s'.registers reg').vreg = some w → (s'.registers reg').dirty = true →
      reg' ≠ reg ∧ (s.registers reg').vreg = some w ∧ (s.registers reg').dirty = true := by
    intro reg' w hw hd
    have hne : reg' ≠ reg := by
      rintro rfl
      rw [hself] at hd
      cases hd
    rw [hother reg' hne] at hw hd
    exact ⟨hne, hw, hd⟩
  refine ⟨?_, rfl, rfl, hholds, fun reg' hne => ?_, hdests, fun reg' w hw hd => (hdirty reg' w hw hd).2⟩
  · constructor
    · intro reg' w hw
      by_cases heq : reg' = reg
      · rw [heq, hself] at hw
        cases hw
        exact ⟨hM, hv, heq ▸ hreg, heq ▸ hclass⟩
      · rw [hother reg' heq] at hw
        exact h.met reg' w hw
    · intro reg' reg'' w hw hw'
      by_cases heq : reg' = reg <;> by_cases heq' : reg'' = reg
      · rw [heq, heq']
      · rw [heq, hself] at hw
        rw [hother reg'' heq'] at hw'
        cases hw
        exact absurd hw' (hmissing reg'')
      · rw [heq', hself] at hw'
        rw [hother reg' heq] at hw
        cases hw'
        exact absurd hw (hmissing reg')
      · rw [hother reg' heq] at hw
        rw [hother reg'' heq'] at hw'
        exact h.unique reg' reg'' w hw hw'
    · intro reg' w hw hDw x hx
      by_cases heq : reg' = reg
      · rw [heq, hself] at hw
        cases hw
        rw [heq]
        exact hholds x hx
      · rw [hother reg' heq] at hw
        rw [hrest _ (fun hsame => heq (LAllocation.register.inj hsame))]
        exact h.held reg' w hw hDw x hx
    · intro w x hx hDw hclean
      rw [hrest _ (stackLocation_ne_register alloc w reg)]
      refine h.stored w x hx hDw fun reg' hw => ?_
      have hne : reg' ≠ reg := by
        rintro rfl
        rw [hfree] at hw
        cases hw
      have hstill := hclean reg'
      rw [hother reg' hne] at hstill
      exact hstill hw
    · intro reg' w hw hd hDw hmem
      obtain ⟨hne, hw', hd'⟩ := hdirty reg' w hw hd
      exact h.unloaded reg' w hw' hd' hDw ((hdests reg' hmem).resolve_right hne)
  · exact hrest _ (fun hsame => hne (LAllocation.register.inj hsame))

end SpiderMonkey.Jit.LIR.StupidAllocator
