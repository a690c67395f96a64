import SpiderMonkey.Jit.StupidAllocatorInputs

/-!
# Temporaries and outputs

A register that is found for a temporary or an output is evicted, and holds the new virtual register from
then on. The old value is still there when the instruction reads its inputs.
-/

namespace SpiderMonkey.Jit.LIR.StupidAllocator

variable {alloc : StupidAllocator} {V : Type*} {s₀ : State V} {s s' : AllocState} {D M : ℕ → Prop}
  {later : List ℕ} {n₀ : LNode} {d : LDefinition} {a : LAllocation}

/-- Memory reserves no register. -/
theorem reservedBy_stackLocation (alloc : StupidAllocator) (v : ℕ) :
    alloc.reservedBy (alloc.stackLocation v) = none ∧ (alloc.stackLocation v).isUse = false ∧
      (alloc.stackLocation v).isConstantIndex = false := by
  unfold stackLocation
  split
  · exact ⟨rfl, rfl, rfl⟩
  · split_ifs with hargument
    · obtain ⟨-, hargument⟩ := hargument
      generalize LDefinition.output _ = a at hargument
      cases a with
      | argument => exact ⟨rfl, rfl, rfl⟩
      | _ => cases hargument
    · exact ⟨rfl, rfl, rfl⟩

/-- Which registers are said to hold what is weakened. -/
theorem Carries.mono {M' : ℕ → Prop} (h : Carries alloc s₀ D M s) (hM : ∀ v, M v → M' v) :
    Carries alloc s₀ D M' s :=
  ⟨fun reg v hv => ⟨hM v (h.met reg v hv).1, (h.met reg v hv).2⟩, h.unique, h.held, h.stored, h.unloaded⟩

/-- What an instruction does to the place of a temporary or an output. -/
structure Places (alloc : StupidAllocator) (s₀ : State V) (D : ℕ → Prop) (later : List ℕ)
    (d : LDefinition) (s : AllocState) (a : LAllocation) (s' : AllocState) : Prop where
  carries : Carries alloc s₀ D (· ∉ later) s'
  ins : s'.ins = s.ins
  phiMoves : s'.phiMoves = s.phiMoves
  contents : ∀ reg, contents s₀ s' (.register reg) = contents s₀ s (.register reg)
  clean : ∀ reg v, (s'.registers reg).vreg = some v → (s'.registers reg).dirty = true →
    D v ∨ (s.registers reg).vreg = some v ∧ (s.registers reg).dirty = true
  place : (∃ reg, a = .register reg ∧ (s'.registers reg).vreg = some d.virtualRegister ∧
      (s'.registers reg).dirty = true ∧
      (∀ reg', reg' ≠ reg → s'.registers reg' = s.registers reg') ∧
      (d.policy = .preset ∧ d.output = .register reg ∨
        d.policy = .mustReuseInput ∧ reg ∈ alloc.reserved s.ins ∨
        d.policy ≠ .preset ∧ d.policy ≠ .mustReuseInput ∧
          alloc.Candidate (alloc.isFloat d.virtualRegister) s.ins reg)) ∨
    a = alloc.stackLocation d.virtualRegister ∧ s'.registers = s.registers ∧ d.policy = .preset ∧
      ∀ reg, d.output ≠ .register reg

/-- A register is evicted, and holds what the instruction defines. -/
theorem evict_define_carries (hsep : Separate alloc)
    (hknown : ∀ v x, s₀.virt v = some x → alloc.Known v) {v : ℕ}
    (h : Carries alloc s₀ D (· ∉ v :: later) s) (hnew : v ∉ later) (hD : D v) (hv : alloc.Known v)
    {reg : AnyRegister} (hreg : reg ∈ alloc.allRegisters) (hclass : reg.isFloat = alloc.isFloat v)
    (age : ℕ) :
    let s' := (alloc.evictRegister reg s).setRegister reg ⟨alloc.typeOf v, some v, age, true⟩
    Carries alloc s₀ D (· ∉ later) s' ∧ Frame s₀ s (alloc.evictRegister reg s) ∧
      ∀ reg', reg' ≠ reg → s'.registers reg' = s.registers reg' := by
  intro s'
  obtain ⟨hc, hframe, hevicted⟩ := evictRegister_carries hsep hknown h reg
  have hself : s'.registers reg = ⟨alloc.typeOf v, some v, age, true⟩ := AllocState.setRegister_self _ _ _
  have hother : ∀ reg', reg' ≠ reg → s'.registers reg' = (alloc.evictRegister reg s).registers reg' :=
    fun reg' hne => AllocState.setRegister_of_ne _ _ hne
  have hunmet : ∀ reg', ((alloc.evictRegister reg s).registers reg').vreg ≠ some v :=
    fun reg' hreg' => (hc.met reg' v hreg').1 List.mem_cons_self
  -- What is not defined by the instruction is in another register.
  have hold : ∀ reg' w, (s'.registers reg').vreg = some w → ¬ D w → reg' ≠ reg := by
    rintro reg' w hw hDw rfl
    rw [hself] at hw
    cases hw
    exact hDw hD
  refine ⟨?_, hframe, fun reg' hne => (hother reg' hne).trans (hevicted.other reg' hne)⟩
  constructor
  · intro reg' w hw
    by_cases heq : reg' = reg
    · rw [heq, hself] at hw
      cases hw
      exact ⟨hnew, hv, heq ▸ hreg, heq ▸ hclass⟩
    · rw [hother reg' heq] at hw
      obtain ⟨hmet, hrest⟩ := hc.met reg' w hw
      exact ⟨fun hmem => hmet (List.mem_cons_of_mem v hmem), hrest⟩
  · intro reg' reg'' w hw hw'
    by_cases heq : reg' = reg <;> by_cases heq' : reg'' = reg
    · rw [heq, heq']
    · rw [heq, hself] at hw
      rw [hother reg'' heq'] at hw'
      cases hw
      exact absurd hw' (hunmet reg'')
    · rw [heq', hself] at hw'
      rw [hother reg' heq] at hw
      cases hw'
      exact absurd hw (hunmet reg')
    · rw [hother reg' heq] at hw
      rw [hother reg'' heq'] at hw'
      exact hc.unique reg' reg'' w hw hw'
  · intro reg' w hw hDw x hx
    rw [hother reg' (hold reg' w hw hDw)] at hw
    exact hc.held reg' w hw hDw x hx
  · intro w x hx hDw hclean
    refine hc.stored w x hx hDw fun reg' hw => ?_
    have hne : reg' ≠ reg := by
      rintro rfl
      rw [hevicted.missing] at hw
      cases hw
    have hstill := hclean reg'
    rw [hother reg' hne] at hstill
    exact hstill hw
  · intro reg' w hw hd hDw
    have hne := hold reg' w hw hDw
    rw [hother reg' hne] at hw hd
    exact hc.unloaded reg' w hw hd hDw

/-- What a temporary or an output asks for. -/
structure Definable (alloc : StupidAllocator) (d : LDefinition) : Prop where
  known : alloc.virtualRegisters d.virtualRegister = some d
  named : ∀ reg, d.policy = .preset → d.output = .register reg →
    reg ∈ alloc.allRegisters ∧ reg.isFloat = alloc.isFloat d.virtualRegister
  unnamed : d.policy = .preset ∧ (∃ reg, d.output = .register reg) ∨ alloc.reservedBy d.output = none

/-- The kind of register that is picked for a temporary or an output. -/
def flexibleOutput (alloc : StupidAllocator) (d : LDefinition) : List Bool :=
  if d.policy = .preset ∨ d.policy = .mustReuseInput then [] else [alloc.isFloat d.virtualRegister]

variable {synced : Prop} {pending : List Bool}

/-- A temporary or an output gets storage. -/
theorem allocateForDefinition_places (hsep : Separate alloc)
    (hknown : ∀ v x, s₀.virt v = some x → alloc.Known v) (hnodup : alloc.allRegisters.Nodup)
    (hd : Definable alloc d) (hD : D d.virtualRegister) (hnew : d.virtualRegister ∉ later)
    (h : Carries alloc s₀ D (· ∉ d.virtualRegister :: later) s)
    (hroom : Room alloc n₀ (alloc.flexibleOutput d ++ pending) s.ins)
    (hreuse : d.policy = .mustReuseInput → ∃ j reg, d.reusedInput = some j ∧
      s.ins.operands[j]? = some (.register reg) ∧ reg ∈ alloc.allRegisters ∧
      reg.isFloat = alloc.isFloat d.virtualRegister) :
    ∃ a s', alloc.allocateForDefinition d s = some (a, s') ∧ Places alloc s₀ D later d s a s' := by
  have hv : alloc.Known d.virtualRegister := by
    unfold Known
    rw [hd.known]
    rfl
  -- Whatever the register is, it is evicted and defined.
  have hplaces : ∀ reg ∈ alloc.allRegisters, reg.isFloat = alloc.isFloat d.virtualRegister → ∀ age,
      (d.policy = .preset ∧ d.output = .register reg ∨
        d.policy = .mustReuseInput ∧ reg ∈ alloc.reserved s.ins ∨
        d.policy ≠ .preset ∧ d.policy ≠ .mustReuseInput ∧
          alloc.Candidate (alloc.isFloat d.virtualRegister) s.ins reg) →
      Places alloc s₀ D later d s (.register reg) ((alloc.evictRegister reg s).setRegister reg
        ⟨alloc.typeOf d.virtualRegister, some d.virtualRegister, age, true⟩) := by
    intro reg hreg hclass age horigin
    obtain ⟨hc, hframe, hother⟩ := evict_define_carries hsep hknown h hnew hD hv hreg hclass age
    have hself := AllocState.setRegister_self (alloc.evictRegister reg s) reg
      ⟨alloc.typeOf d.virtualRegister, some d.virtualRegister, age, true⟩
    refine ⟨hc, hframe.ins, hframe.phiMoves, hframe.contents, fun reg' v hreg' hdirty => ?_,
      .inl ⟨reg, rfl, congrArg AllocatedRegister.vreg hself, congrArg AllocatedRegister.dirty hself,
        hother, horigin⟩⟩
    by_cases heq : reg' = reg
    · rw [heq, hself] at hreg'
      cases hreg'
      exact .inl hD
    · rw [hother reg' heq] at hreg' hdirty
      exact .inr ⟨hreg', hdirty⟩
  have hpicked : d.policy ≠ .preset → d.policy ≠ .mustReuseInput →
      ∃ a s', (alloc.allocateRegister d.virtualRegister s).map (fun p =>
        (LAllocation.register p.1, p.2.setRegister p.1
          ⟨alloc.typeOf d.virtualRegister, some d.virtualRegister, p.2.ins.id, true⟩)) = some (a, s') ∧
        Places alloc s₀ D later d s a s' := by
    intro hpreset hmust
    have hflexible : alloc.flexibleOutput d = [alloc.isFloat d.virtualRegister] :=
      if_neg (fun hor => hor.elim hpreset hmust)
    rw [hflexible] at hroom
    obtain ⟨best, hmem, hcandidate, hallocate⟩ := allocateRegister_of_room hnodup hv hroom
    refine ⟨_, _, by rw [hallocate]; rfl, ?_⟩
    exact hplaces best hmem hcandidate.1 _ (.inr (.inr ⟨hpreset, hmust, hcandidate⟩))
  unfold allocateForDefinition
  cases hpolicy : d.policy with
  | preset =>
    cases houtput : d.output with
    | register reg =>
      obtain ⟨hmem, hclass⟩ := hd.named reg hpolicy houtput
      simp only [if_pos hmem]
      exact ⟨_, _, rfl, hplaces reg hmem hclass _ (.inl ⟨hpolicy, houtput⟩)⟩
    | _ =>
      refine ⟨_, _, rfl, h.mono fun v hv hmem => hv (List.mem_cons_of_mem _ hmem), rfl, rfl,
        fun _ => rfl, fun _ _ hreg hdirty => .inr ⟨hreg, hdirty⟩, .inr ⟨rfl, rfl, hpolicy, ?_⟩⟩
      rw [houtput]
      rintro reg ⟨⟩
  | mustReuseInput =>
    obtain ⟨j, reg, hj, hoperand, hmem, hclass⟩ := hreuse hpolicy
    have hreserved : reg ∈ alloc.reserved s.ins :=
      List.mem_append_left _ (List.mem_append_left _ (List.mem_filterMap.mpr
        ⟨.register reg, List.mem_append_left _ (List.mem_of_getElem? hoperand), rfl⟩))
    simp only [hj, hoperand, Option.bind_some, LAllocation.toRegister, if_pos hmem]
    exact ⟨_, _, rfl, hplaces reg hmem hclass _ (.inr (.inl ⟨hpolicy, hreserved⟩))⟩
  | default => exact hpicked (by rw [hpolicy]; rintro ⟨⟩) (by rw [hpolicy]; rintro ⟨⟩)
  | passthrough => exact hpicked (by rw [hpolicy]; rintro ⟨⟩) (by rw [hpolicy]; rintro ⟨⟩)

/-- Storage keeps the register reserved that was asked for by name. -/
theorem Places.keeps (hp : Places alloc s₀ D later d s a s') (hd : Definable alloc d) :
    alloc.reservedBy d.output = none ∨ alloc.reservedBy d.output = alloc.reservedBy a := by
  cases hd.unnamed with
  | inr hnone => exact .inl hnone
  | inl hpreset =>
    obtain ⟨hpreset, reg, houtput⟩ := hpreset
    refine .inr ?_
    rcases hp.place with ⟨reg', rfl, -, -, -, horigin⟩ | ⟨-, -, -, hnone⟩
    · rcases horigin with ⟨-, hsame⟩ | ⟨hmust, -⟩ | ⟨hne, -⟩
      · rw [hsame]
      · rw [hpreset] at hmust
        cases hmust
      · exact absurd hpreset hne
    · exact absurd houtput (hnone reg)

/-- There is room for the rest when storage was found. -/
theorem Places.room (hp : Places alloc s₀ D later d s a s')
    (hroom : Room alloc n₀ (alloc.flexibleOutput d ++ pending) s.ins)
    (hnamed : ∀ reg, d.output = .register reg → reg ∈ alloc.reserved n₀) {n' : LNode}
    (hreserved : ∀ reg ∈ alloc.reserved n', reg ∈ alloc.reserved s.ins ∨ alloc.reservedBy a = some reg) :
    Room alloc n₀ pending n' := by
  have hnone : d.policy = .preset ∨ d.policy = .mustReuseInput → Room alloc n₀ pending s.ins := by
    intro hpolicy
    rw [flexibleOutput, if_pos hpolicy] at hroom
    exact hroom
  rcases hp.place with ⟨reg, rfl, -, -, -, horigin⟩ | ⟨rfl, -, hpreset, -⟩
  · have hreserved' : ∀ reg' ∈ alloc.reserved n', reg' ∈ alloc.reserved s.ins ∨ reg' = reg :=
      fun reg' hreg' => (hreserved reg' hreg').imp_right fun h => (Option.some.inj h).symm
    rcases horigin with ⟨hpreset, houtput⟩ | ⟨hmust, hold⟩ | ⟨hpreset, hmust, hcandidate⟩
    · exact (hnone (.inl hpreset)).named (.inl (hnamed reg houtput)) hreserved'
    · exact (hnone (.inr hmust)).named (.inr hold) hreserved'
    · rw [flexibleOutput, if_neg (fun hor => hor.elim hpreset hmust)] at hroom
      exact hroom.take hcandidate.1 hreserved'
  · obtain ⟨taken, htaken, hfits⟩ := hnone (.inl hpreset)
    refine ⟨taken, fun reg hreg => htaken reg ((hreserved reg hreg).resolve_right fun h => ?_), hfits⟩
    rw [(reservedBy_stackLocation alloc _).1] at h
    cases h

/-- An instruction whose inputs are those of another one. -/
structure SameInputs (n n' : LNode) : Prop where
  id : n'.id = n.id
  isCall : n'.isCall = n.isCall
  operands : n'.operands = n.operands
  snapshot : n'.snapshot = n.snapshot

/-- Storage is found for a temporary or an output. -/
theorem Allocating.place (hp : Places alloc s₀ D later d s a s')
    (h : Allocating alloc s₀ n₀ D (· ∉ d.virtualRegister :: later) synced
      (alloc.flexibleOutput d ++ pending) s)
    (hnamed : ∀ reg, d.output = .register reg → reg ∈ alloc.reserved n₀) {n' : LNode}
    (hsame : SameInputs s.ins n')
    (hreserved : ∀ reg ∈ alloc.reserved n', reg ∈ alloc.reserved s.ins ∨ alloc.reservedBy a = some reg)
    (hkeep : ∀ reg ∈ alloc.reserved s.ins, reg ∈ alloc.reserved n') :
    Allocating alloc s₀ n₀ D (· ∉ later) synced pending { s' with ins := n' } := by
  constructor
  · exact hp.carries.congr rfl (fun _ => rfl) fun _ => rfl
  · intro hsynced reg v hv hdirty
    exact (hp.clean reg v hv hdirty).elim (fun hDv => hDv) fun hold => h.clean hsynced reg v hold.1 hold.2
  · exact hp.room h.room hnamed hreserved
  · exact fun reg hreg => hkeep reg (h.named reg hreg)
  · exact hp.phiMoves.trans h.phiMoves
  · exact hsame.id.trans h.id
  · exact hsame.isCall.trans h.isCall
  · exact (congrArg List.length hsame.operands).trans h.operands
  · exact (congrArg List.length hsame.snapshot).trans h.snapshot
  · intro k a₀ b ha₀ hb
    have hinputs : n'.inputs = s.ins.inputs := by
      rw [LNode.inputs, LNode.inputs, hsame.operands, hsame.snapshot]
    rw [hinputs] at hb
    exact (h.inputs k a₀ b ha₀ hb).mono fun u reg _ _ hreads x hx =>
      (hp.contents reg).trans (hreads x hx)

/-- Storage that an instruction writes: a register that is said to hold what it defines, or the memory
of that. -/
def Written (alloc : StupidAllocator) (D : ℕ → Prop) (s : AllocState) (a : LAllocation) : Prop :=
  (∃ reg v, a = .register reg ∧ (s.registers reg).vreg = some v ∧ D v) ∨
    ∃ v, D v ∧ alloc.Known v ∧ a = alloc.stackLocation v

/-- Where an output is: in a register that is dirty, or in memory. -/
def DefAt (alloc : StupidAllocator) (n₀ : LNode) (s : AllocState) (d₀ : LDefinition)
    (a : LAllocation) : Prop :=
  (∃ reg, a = .register reg ∧ (s.registers reg).vreg = some d₀.virtualRegister ∧
    (s.registers reg).dirty = true ∧
    (d₀.output = .register reg ∨ reg ∉ alloc.reserved n₀ ∨ d₀.policy = .mustReuseInput)) ∨
  a = alloc.stackLocation d₀.virtualRegister ∧
    ∀ reg, (s.registers reg).vreg ≠ some d₀.virtualRegister

/-- What was written stays so. -/
theorem Places.written (hp : Places alloc s₀ D later d s a s') (hD : D d.virtualRegister)
    {b : LAllocation} (h : Written alloc D s b) : Written alloc D s' b := by
  refine h.imp_left ?_
  rintro ⟨reg, v, rfl, hv, hDv⟩
  rcases hp.place with ⟨reg', -, hself, -, hother, -⟩ | ⟨-, hsame, -⟩
  · by_cases heq : reg = reg'
    · exact ⟨reg, _, rfl, heq ▸ hself, hD⟩
    · exact ⟨reg, v, rfl, hother reg heq ▸ hv, hDv⟩
  · exact ⟨reg, v, rfl, hsame ▸ hv, hDv⟩

/-- The new storage is written. -/
theorem Places.written_self (hp : Places alloc s₀ D later d s a s') (hD : D d.virtualRegister)
    (hd : Definable alloc d) : Written alloc D s' a := by
  rcases hp.place with ⟨reg, rfl, hself, -⟩ | ⟨rfl, -⟩
  · exact .inl ⟨reg, _, rfl, hself, hD⟩
  · refine .inr ⟨_, hD, ?_, rfl⟩
    unfold Known
    rw [hd.known]
    rfl

/-- An output stays where it is, if its register is not the new one. -/
theorem Places.defAt (hp : Places alloc s₀ D later d s a s') {d₀ : LDefinition} {b : LAllocation}
    (h : DefAt alloc n₀ s d₀ b) (hne : d₀.virtualRegister ≠ d.virtualRegister)
    (hother : ∀ reg, b = .register reg → a ≠ .register reg) : DefAt alloc n₀ s' d₀ b := by
  rcases h with ⟨reg, rfl, hv, hdirty, horigin⟩ | ⟨rfl, hmissing⟩
  · have hsame : s'.registers reg = s.registers reg := by
      rcases hp.place with ⟨reg', rfl, -, -, hrest, -⟩ | ⟨-, hsame, -⟩
      · exact hrest reg fun heq => hother reg rfl (congrArg LAllocation.register heq.symm)
      · exact congrFun hsame reg
    exact .inl ⟨reg, rfl, hsame ▸ hv, hsame ▸ hdirty, horigin⟩
  · refine .inr ⟨rfl, fun reg => ?_⟩
    rcases hp.place with ⟨reg', -, hself, -, hrest, -⟩ | ⟨-, hsame, -⟩
    · by_cases heq : reg = reg'
      · rw [heq, hself]
        exact fun h => hne (Option.some.inj h).symm
      · rw [hrest reg heq]
        exact hmissing reg
    · rw [hsame]
      exact hmissing reg

/-- The new output is where it was put. -/
theorem Places.defAt_self (hp : Places alloc s₀ D (later) d s a s')
    (hnamed : ∀ reg ∈ alloc.reserved n₀, reg ∈ alloc.reserved s.ins)
    (hunmet : ∀ reg, (s.registers reg).vreg ≠ some d.virtualRegister) : DefAt alloc n₀ s' d a := by
  rcases hp.place with ⟨reg, rfl, hself, hdirty, -, horigin⟩ | ⟨rfl, hsame, -⟩
  · refine .inl ⟨reg, rfl, hself, hdirty, ?_⟩
    rcases horigin with ⟨-, houtput⟩ | ⟨hmust, -⟩ | ⟨-, -, hcandidate⟩
    · exact .inl houtput
    · exact .inr (.inr hmust)
    · exact .inr (.inl fun hmem => hcandidate.2 (hnamed reg hmem))
  · refine .inr ⟨rfl, fun reg => ?_⟩
    rw [hsame]
    exact hunmet reg

/-- The temporaries of an instruction that get storage. -/
def tempsFrom (n : LNode) (k : ℕ) : List LDefinition :=
  (n.temps.drop k).filter fun t => !t.isBogusTemp

/-- The outputs of an instruction that get storage. -/
def defsFrom (n : LNode) (k : ℕ) : List LDefinition :=
  (n.defs.drop k).filter LDefinition.writes

/-- What an instruction defines. -/
def Defines (n : LNode) (v : ℕ) : Prop :=
  ∃ d ∈ tempsFrom n 0 ++ defsFrom n 0, d.virtualRegister = v

/-- What holds while storage is found for temporaries and outputs, up to a place in each. -/
structure Outputs (alloc : StupidAllocator) (s₀ : State V) (n₀ n₁ : LNode) (synced : Prop)
    (pending : List Bool) (later : List ℕ) (kt kd : ℕ) (s : AllocState) : Prop extends
    Allocating alloc s₀ n₀ (Defines n₀) (· ∉ later) synced pending s where
  sameInputs : SameInputs n₁ s.ins
  temps_ahead : ∀ k : ℕ, kt ≤ k → s.ins.temps[k]? = n₀.temps[k]?
  temps_done : ∀ (k : ℕ) (t : LDefinition), k < kt → s.ins.temps[k]? = some t →
    t.isBogusTemp = true ∨ Written alloc (Defines n₀) s t.output
  temps_length : s.ins.temps.length = n₀.temps.length
  defs_ahead : ∀ k : ℕ, kd ≤ k → s.ins.defs[k]? = n₀.defs[k]?
  defs_done : ∀ (k : ℕ) (d₀ : LDefinition), k < kd → n₀.defs[k]? = some d₀ →
    ∃ d, s.ins.defs[k]? = some d ∧ d.writes = d₀.writes ∧
      (d₀.writes = true → DefAt alloc n₀ s d₀ d.output)

/-- What the temporaries and outputs of an instruction ask for. No two outputs ask for the same register,
and one that is to reuse the storage of an input is alone. -/
structure Asks (alloc : StupidAllocator) (n₀ n₁ : LNode) : Prop where
  definable : ∀ d ∈ tempsFrom n₀ 0 ++ defsFrom n₀ 0, Definable alloc d
  reuse : ∀ d ∈ tempsFrom n₀ 0 ++ defsFrom n₀ 0, d.policy = .mustReuseInput →
    ∃ j reg, d.reusedInput = some j ∧ n₁.operands[j]? = some (.register reg) ∧
      reg ∈ alloc.allRegisters ∧ reg.isFloat = alloc.isFloat d.virtualRegister
  named_ne : ∀ (j k : ℕ) (d d' : LDefinition) (reg : AnyRegister), j ≠ k → n₀.defs[j]? = some d →
    n₀.defs[k]? = some d' → d.writes = true → d'.writes = true → d.output = .register reg →
    d'.output ≠ .register reg
  alone : ∀ (j k : ℕ) (d d' : LDefinition), j ≠ k → n₀.defs[j]? = some d → n₀.defs[k]? = some d' →
    d.writes = true → d'.writes = true → d.policy ≠ .mustReuseInput

variable {n₁ : LNode} {kt kd : ℕ}

/-- Storage that was found for a temporary or an output is no temporary that is missing. -/
theorem Places.not_isUse (hp : Places alloc s₀ D later d s a s') :
    a.isUse = false ∧ a.isConstantIndex = false := by
  rcases hp.place with ⟨reg, rfl, -⟩ | ⟨rfl, -⟩
  · exact ⟨rfl, rfl⟩
  · exact (reservedBy_stackLocation alloc _).2

/-- A temporary is given storage. -/
theorem Outputs.place_temp {k : ℕ} {t : LDefinition}
    (h : Outputs alloc s₀ n₀ n₁ synced (alloc.flexibleOutput t ++ pending) (t.virtualRegister :: later)
      k 0 s) (ht : n₀.temps[k]? = some t) (hd : Definable alloc t) (hD : Defines n₀ t.virtualRegister)
    (hp : Places alloc s₀ (Defines n₀) later t s a s') :
    Outputs alloc s₀ n₀ n₁ synced pending later (k + 1) 0
      { s' with ins := { s'.ins with temps := s'.ins.temps.set k (t.setOutput a) } } := by
  have hlt : k < s.ins.temps.length := h.temps_length ▸ (List.getElem?_eq_some_iff.mp ht).1
  have hnow : s.ins.temps[k]? = some t := (h.temps_ahead k (Nat.le_refl k)).trans ht
  rw [hp.ins]
  constructor
  · refine h.toAllocating.place hp (fun reg hreg => ?_) ⟨rfl, rfl, rfl, rfl⟩ (fun reg hreg => ?_)
      fun reg hreg => ?_
    · have hmem : reg ∈ alloc.reserved n₀ := List.mem_append_left _ (List.mem_append_right _
        (List.mem_filterMap.mpr ⟨t, List.mem_of_getElem? ht, by rw [hreg]; rfl⟩))
      exact hmem
    · rw [reserved, List.mem_append, List.mem_append] at hreg
      rcases hreg with (hinput | htemp) | hdef
      · exact .inl (List.mem_append_left _ (List.mem_append_left _ hinput))
      · exact (mem_filterMap_set htemp).imp_left fun hold =>
          List.mem_append_left _ (List.mem_append_right _ hold)
      · exact .inl (List.mem_append_right _ hdef)
    · rw [reserved, List.mem_append, List.mem_append] at hreg
      rcases hreg with (hinput | htemp) | hdef
      · exact List.mem_append_left _ (List.mem_append_left _ hinput)
      · refine List.mem_append_left _ (List.mem_append_right _
          (mem_filterMap_set_of_mem (fun x hx => ?_) htemp))
        rw [hnow] at hx
        cases hx
        exact hp.keeps hd
      · exact List.mem_append_right _ hdef
  · exact ⟨h.sameInputs.id, h.sameInputs.isCall, h.sameInputs.operands, h.sameInputs.snapshot⟩
  · intro j hj
    exact (List.getElem?_set_ne (Nat.ne_of_lt hj)).trans (h.temps_ahead j (Nat.le_of_succ_le hj))
  · intro j t' hj ht'
    by_cases heq : j = k
    · rw [heq] at ht'
      cases (List.getElem?_set_self hlt).symm.trans ht'
      exact .inr (hp.written_self hD hd)
    · have hold := (List.getElem?_set_ne (Ne.symm heq)).symm.trans ht'
      exact (h.temps_done j t' (by omega) hold).imp_right (hp.written hD)
  · exact List.length_set.trans h.temps_length
  · exact h.defs_ahead
  · exact fun j d₀ hj => absurd hj (Nat.not_lt_zero j)

/-- An output is given storage. -/
theorem Outputs.place_def {k : ℕ} {d : LDefinition} (hasks : Asks alloc n₀ n₁)
    (h : Outputs alloc s₀ n₀ n₁ synced (alloc.flexibleOutput d ++ pending) (d.virtualRegister :: later)
      kt k s) (hk : n₀.defs[k]? = some d) (hwrites : d.writes = true) (hd : Definable alloc d)
    (hD : Defines n₀ d.virtualRegister)
    (hne : ∀ (j : ℕ) (d₀ : LDefinition), j < k → n₀.defs[j]? = some d₀ → d₀.writes = true →
      d₀.virtualRegister ≠ d.virtualRegister)
    (hp : Places alloc s₀ (Defines n₀) later d s a s') :
    Outputs alloc s₀ n₀ n₁ synced pending later kt (k + 1)
      { s' with ins := { s'.ins with defs := s'.ins.defs.set k (d.setOutput a) } } := by
  have hnow : s.ins.defs[k]? = some d := (h.defs_ahead k (Nat.le_refl k)).trans hk
  have hlt : k < s.ins.defs.length := (List.getElem?_eq_some_iff.mp hnow).1
  rw [hp.ins]
  constructor
  · refine h.toAllocating.place hp (fun reg hreg => ?_) ⟨rfl, rfl, rfl, rfl⟩ (fun reg hreg => ?_)
      fun reg hreg => ?_
    · have hmem : reg ∈ alloc.reserved n₀ := List.mem_append_right _
        (List.mem_filterMap.mpr ⟨d, List.mem_of_getElem? hk, by rw [hreg]; rfl⟩)
      exact hmem
    · rw [reserved, List.mem_append] at hreg
      cases hreg with
      | inl hrest => exact .inl (List.mem_append_left _ hrest)
      | inr hdef => exact (mem_filterMap_set hdef).imp_left fun hold => List.mem_append_right _ hold
    · rw [reserved, List.mem_append] at hreg
      cases hreg with
      | inl hrest => exact List.mem_append_left _ hrest
      | inr hdef =>
        refine List.mem_append_right _ (mem_filterMap_set_of_mem (fun x hx => ?_) hdef)
        rw [hnow] at hx
        cases hx
        exact hp.keeps hd
  · exact ⟨h.sameInputs.id, h.sameInputs.isCall, h.sameInputs.operands, h.sameInputs.snapshot⟩
  · exact h.temps_ahead
  · exact fun j t hj ht => (h.temps_done j t hj ht).imp_right (hp.written hD)
  · exact h.temps_length
  · intro j hj
    exact (List.getElem?_set_ne (Nat.ne_of_lt hj)).trans (h.defs_ahead j (Nat.le_of_succ_le hj))
  · intro j d₀ hj hd₀
    by_cases heq : j = k
    · rw [heq, hk] at hd₀
      cases hd₀
      rw [heq]
      refine ⟨d.setOutput a, List.getElem?_set_self hlt, ?_, fun _ => ?_⟩
      · rw [hwrites, LDefinition.writes, LDefinition.setOutput, hp.not_isUse.1]
        rfl
      · apply hp.defAt_self h.named
        exact fun reg hreg => (h.carries.met reg _ hreg).1 List.mem_cons_self
    · obtain ⟨d', hd', hsame, hat⟩ := h.defs_done j d₀ (by omega) hd₀
      refine ⟨d', (List.getElem?_set_ne (Ne.symm heq)).trans hd', hsame, fun hw => ?_⟩
      apply hp.defAt (hat hw) (hne j d₀ (by omega) hd₀ hw)
      -- The register of an output before is reserved, and no other output asks for it.
      intro reg hout hreg
      rcases hat hw with ⟨reg', hout', -, -, horigin'⟩ | ⟨hout', -⟩
      · cases hout.symm.trans hout'
        rcases hp.place with ⟨reg'', ha, -, -, -, horigin⟩ | ⟨ha, -⟩
        · cases hreg.symm.trans ha
          rcases horigin with ⟨hpreset, houtput⟩ | ⟨hmust, -⟩ | ⟨-, -, hcandidate⟩
          · rcases horigin' with hnamed | hnew | hmust
            · exact hasks.named_ne j k d₀ d reg heq hd₀ hk hw hwrites hnamed houtput
            · refine hnew (List.mem_append_right _
                (List.mem_filterMap.mpr ⟨d, List.mem_of_getElem? hk, ?_⟩))
              rw [houtput]
              rfl
            · exact hasks.alone j k d₀ d heq hd₀ hk hw hwrites hmust
          · exact hasks.alone k j d d₀ (Ne.symm heq) hk hd₀ hwrites hw hmust
          · refine hcandidate.2 (List.mem_append_right _
              (List.mem_filterMap.mpr ⟨d', List.mem_of_getElem? hd', ?_⟩))
            rw [hout]
            rfl
        · exact stackLocation_ne_register alloc _ _ (ha.symm.trans hreg)
      · exact stackLocation_ne_register alloc _ _ (hout'.symm.trans hout)

/-- A temporary that is missing is passed over. -/
theorem Outputs.skip_temp {k : ℕ} {t : LDefinition}
    (h : Outputs alloc s₀ n₀ n₁ synced pending later k 0 s) (ht : n₀.temps[k]? = some t)
    (hbogus : t.isBogusTemp = true) : Outputs alloc s₀ n₀ n₁ synced pending later (k + 1) 0 s := by
  refine { h with
    temps_ahead := fun j hj => h.temps_ahead j (Nat.le_of_succ_le hj)
    temps_done := fun j t' hj ht' => ?_ }
  by_cases heq : j = k
  · rw [heq, h.temps_ahead k (Nat.le_refl k), ht] at ht'
    cases ht'
    exact .inl hbogus
  · exact h.temps_done j t' (by omega) ht'

/-- An output that is not written is passed over. -/
theorem Outputs.skip_def {k : ℕ} {d : LDefinition}
    (h : Outputs alloc s₀ n₀ n₁ synced pending later kt k s) (hk : n₀.defs[k]? = some d)
    (hwrites : ¬ d.writes = true) : Outputs alloc s₀ n₀ n₁ synced pending later kt (k + 1) s := by
  refine { h with
    defs_ahead := fun j hj => h.defs_ahead j (Nat.le_of_succ_le hj)
    defs_done := fun j d₀ hj hd₀ => ?_ }
  by_cases heq : j = k
  · rw [heq, hk] at hd₀
    cases hd₀
    rw [heq]
    exact ⟨d, (h.defs_ahead k (Nat.le_refl k)).trans hk, rfl, fun hw => absurd hw hwrites⟩
  · exact h.defs_done j d₀ (by omega) hd₀

/-- The virtual registers that are defined from a place among the temporaries on. -/
def tempsLater (n : LNode) (later : List ℕ) (k : ℕ) : List ℕ :=
  (tempsFrom n k).map LDefinition.virtualRegister ++
    ((defsFrom n 0).map LDefinition.virtualRegister ++ later)

/-- The virtual registers that are defined from a place among the outputs on. -/
def defsLater (n : LNode) (later : List ℕ) (k : ℕ) : List ℕ :=
  (defsFrom n k).map LDefinition.virtualRegister ++ later

/-- Outputs that are written define different virtual registers. -/
theorem defs_ne (hnodup : (defsLater n₀ later 0).Nodup) {j k : ℕ} {d₀ d : LDefinition} (hjk : j < k)
    (hj : n₀.defs[j]? = some d₀) (hk : n₀.defs[k]? = some d) (hw₀ : d₀.writes = true)
    (hw : d.writes = true) : d₀.virtualRegister ≠ d.virtualRegister := by
  have hdefs : ((n₀.defs.filter LDefinition.writes).map LDefinition.virtualRegister).Nodup :=
    (List.nodup_append.mp hnodup).1
  rw [List.Nodup, List.pairwise_map, List.pairwise_filter, List.pairwise_iff_getElem] at hdefs
  obtain ⟨hjlt, rfl⟩ := List.getElem?_eq_some_iff.mp hj
  obtain ⟨hklt, rfl⟩ := List.getElem?_eq_some_iff.mp hk
  exact hdefs j k hjlt hklt hjk hw₀ hw

section

variable (hsep : Separate alloc) (hknown : ∀ v x, s₀.virt v = some x → alloc.Known v)
  (hregs : alloc.allRegisters.Nodup) (hasks : Asks alloc n₀ n₁)
include hsep hknown hregs hasks

/-- One step of the loop over temporaries. -/
theorem allocateTemp_outputs {k : ℕ} (hnodup : (tempsLater n₀ later 0).Nodup)
    (h : Outputs alloc s₀ n₀ n₁ synced ((tempsFrom n₀ k).flatMap alloc.flexibleOutput ++ pending)
      (tempsLater n₀ later k) k 0 s) (hk : k < n₀.temps.length) :
    ∃ s', alloc.allocateTemp s k = some s' ∧
      Outputs alloc s₀ n₀ n₁ synced ((tempsFrom n₀ (k + 1)).flatMap alloc.flexibleOutput ++ pending)
        (tempsLater n₀ later (k + 1)) (k + 1) 0 s' := by
  have hget : n₀.temps[k]? = some n₀.temps[k] := List.getElem?_eq_getElem hk
  have hnow : s.ins.temps[k]? = some n₀.temps[k] := (h.temps_ahead k (Nat.le_refl k)).trans hget
  have hnodup' : (tempsLater n₀ later k).Nodup := by
    refine hnodup.sublist (List.Sublist.append_right (List.Sublist.map _ ?_) _)
    exact (List.drop_sublist k n₀.temps).filter _
  unfold tempsLater tempsFrom at h hnodup'
  rw [List.drop_eq_getElem_cons hk] at h hnodup'
  have hmem : n₀.temps[k] ∈ n₀.temps := List.getElem_mem hk
  generalize n₀.temps[k] = t at h hget hnow hnodup' hmem
  cases hbogus : t.isBogusTemp with
  | true =>
    rw [List.filter_cons_of_neg (by simp [hbogus])] at h
    refine ⟨s, ?_, h.skip_temp hget hbogus⟩
    simp only [allocateTemp, hnow, if_pos hbogus]
  | false =>
    rw [List.filter_cons_of_pos (by simp [hbogus])] at h hnodup'
    rw [List.flatMap_cons, List.map_cons, List.append_assoc, List.cons_append] at h
    rw [List.map_cons, List.cons_append, List.nodup_cons] at hnodup'
    have hdefined : t ∈ tempsFrom n₀ 0 ++ defsFrom n₀ 0 :=
      List.mem_append_left _ (List.mem_filter.mpr ⟨hmem, by rw [hbogus]; rfl⟩)
    have hD : Defines n₀ t.virtualRegister := ⟨t, hdefined, rfl⟩
    obtain ⟨a, s', hallocate, hp⟩ := allocateForDefinition_places hsep hknown hregs
      (hasks.definable t hdefined) hD hnodup'.1 h.carries h.room
      fun hmust => h.sameInputs.operands.symm ▸ hasks.reuse t hdefined hmust
    refine ⟨_, ?_, h.place_temp hget (hasks.definable t hdefined) hD hp⟩
    simp only [allocateTemp, hnow, hbogus, Bool.false_eq_true, if_false, hallocate, Option.map_some]

/-- One step of the loop over outputs. -/
theorem allocateDef_outputs {k : ℕ} (hnodup : (defsLater n₀ later 0).Nodup)
    (h : Outputs alloc s₀ n₀ n₁ synced ((defsFrom n₀ k).flatMap alloc.flexibleOutput)
      (defsLater n₀ later k) kt k s) (hk : k < n₀.defs.length) :
    ∃ s', alloc.allocateDef s k = some s' ∧
      Outputs alloc s₀ n₀ n₁ synced ((defsFrom n₀ (k + 1)).flatMap alloc.flexibleOutput)
        (defsLater n₀ later (k + 1)) kt (k + 1) s' := by
  have hget : n₀.defs[k]? = some n₀.defs[k] := List.getElem?_eq_getElem hk
  have hnow : s.ins.defs[k]? = some n₀.defs[k] := (h.defs_ahead k (Nat.le_refl k)).trans hget
  have hnodup' : (defsLater n₀ later k).Nodup := by
    refine hnodup.sublist (List.Sublist.append_right (List.Sublist.map _ ?_) _)
    exact (List.drop_sublist k n₀.defs).filter _
  unfold defsLater defsFrom at h hnodup'
  rw [List.drop_eq_getElem_cons hk] at h hnodup'
  have hmem : n₀.defs[k] ∈ n₀.defs := List.getElem_mem hk
  generalize n₀.defs[k] = d at h hget hnow hnodup' hmem
  cases hwrites : d.writes with
  | false =>
    rw [List.filter_cons_of_neg (by simp [hwrites])] at h
    refine ⟨s, ?_, h.skip_def hget (by simp [hwrites])⟩
    simp only [allocateDef, hnow, hwrites, Bool.false_eq_true, if_false]
  | true =>
    rw [List.filter_cons_of_pos hwrites] at h hnodup'
    rw [List.flatMap_cons, List.map_cons, List.cons_append] at h
    rw [List.map_cons, List.cons_append, List.nodup_cons] at hnodup'
    have hdefined : d ∈ tempsFrom n₀ 0 ++ defsFrom n₀ 0 :=
      List.mem_append_right _ (List.mem_filter.mpr ⟨hmem, hwrites⟩)
    have hD : Defines n₀ d.virtualRegister := ⟨d, hdefined, rfl⟩
    obtain ⟨a, s', hallocate, hp⟩ := allocateForDefinition_places hsep hknown hregs
      (hasks.definable d hdefined) hD hnodup'.1 h.carries h.room
      fun hmust => h.sameInputs.operands.symm ▸ hasks.reuse d hdefined hmust
    refine ⟨_, ?_, h.place_def hasks hget hwrites (hasks.definable d hdefined) hD
      (fun j d₀ hj hd₀ hw₀ => defs_ne hnodup hj hd₀ hget hw₀ hwrites) hp⟩
    simp only [allocateDef, hnow, hwrites, if_true, hallocate, Option.map_some]

/-- Storage is found for all temporaries. -/
theorem foldlM_allocateTemp (hnodup : (tempsLater n₀ later 0).Nodup)
    (h : Outputs alloc s₀ n₀ n₁ synced ((tempsFrom n₀ 0).flatMap alloc.flexibleOutput ++ pending)
      (tempsLater n₀ later 0) 0 0 s) :
    ∃ s', (List.range s.ins.temps.length).foldlM alloc.allocateTemp s = some s' ∧
      Outputs alloc s₀ n₀ n₁ synced pending (defsLater n₀ later 0) n₀.temps.length 0 s' := by
  obtain ⟨s', htemps, h'⟩ := Lib.exists_foldlM_range (n := n₀.temps.length)
    (P := fun k s => Outputs alloc s₀ n₀ n₁ synced
      ((tempsFrom n₀ k).flatMap alloc.flexibleOutput ++ pending) (tempsLater n₀ later k) k 0 s) h
    fun k hk s hs => allocateTemp_outputs hsep hknown hregs hasks hnodup hs hk
  have hend : tempsFrom n₀ n₀.temps.length = [] := by
    rw [tempsFrom, List.drop_length]
    rfl
  rw [tempsLater, hend] at h'
  exact ⟨s', h.temps_length ▸ htemps, h'⟩

/-- Storage is found for all outputs. -/
theorem foldlM_allocateDef (hnodup : (defsLater n₀ later 0).Nodup)
    (h : Outputs alloc s₀ n₀ n₁ synced ((defsFrom n₀ 0).flatMap alloc.flexibleOutput)
      (defsLater n₀ later 0) kt 0 s) :
    ∃ s', (List.range s.ins.defs.length).foldlM alloc.allocateDef s = some s' ∧
      Outputs alloc s₀ n₀ n₁ synced [] later kt n₀.defs.length s' := by
  have hsame : s.ins.defs = n₀.defs := List.ext_getElem? fun k => h.defs_ahead k (Nat.zero_le k)
  obtain ⟨s', hdefs, h'⟩ := Lib.exists_foldlM_range (n := n₀.defs.length)
    (P := fun k s => Outputs alloc s₀ n₀ n₁ synced ((defsFrom n₀ k).flatMap alloc.flexibleOutput)
      (defsLater n₀ later k) kt k s) h
    fun k hk s hs => allocateDef_outputs hsep hknown hregs hasks hnodup hs hk
  have hend : defsFrom n₀ n₀.defs.length = [] := by
    rw [defsFrom, List.drop_length]
    rfl
  rw [defsLater, hend] at h'
  exact ⟨s', hsame ▸ hdefs, h'⟩

end

end SpiderMonkey.Jit.LIR.StupidAllocator
