import SpiderMonkey.Jit.StupidAllocatorInstruction

/-!
# What registers carry after an instruction

The instruction overwrites the storage of its temporaries and outputs, and a call overwrites all
registers. Registers are not said to hold anything that is overwritten, other than what is written there.
-/

namespace SpiderMonkey.Jit.LIR.StupidAllocator

variable {alloc : StupidAllocator} {V : Type*} {s₀ : State V} {s : AllocState} {later : List ℕ}
  {n₀ : LNode} {synced : Prop} {i : ℕ}

/-- An instruction defines a virtual register by one output, or not at all. -/
theorem definer_cases (n : LNode) (v : ℕ) :
    (n.info.definer v = none ∧ ∀ d ∈ defsFrom n 0, d.virtualRegister ≠ v) ∨
      ∃ k d, n.info.definer v = some k ∧ n.defs[k]? = some d ∧ d.writes = true ∧
        d.virtualRegister = v := by
  unfold InstructionInfo.definer LNode.info
  cases hfind : n.defs.findIdx? fun d => d.writes && d.virtualRegister = v with
  | none =>
    refine .inl ⟨rfl, fun d hd hv => ?_⟩
    obtain ⟨hmem, hwrites⟩ := List.mem_filter.mp hd
    have hnone := List.findIdx?_eq_none_iff.mp hfind d hmem
    rw [hwrites, Bool.true_and] at hnone
    exact of_decide_eq_false hnone hv
  | some k =>
    obtain ⟨hlt, hfound, -⟩ := List.findIdx?_eq_some_iff_getElem.mp hfind
    obtain ⟨hwrites, hv⟩ := Bool.and_eq_true_iff.mp hfound
    exact .inr ⟨k, n.defs[k], rfl, List.getElem?_eq_getElem hlt, hwrites, of_decide_eq_true hv⟩

/-- An output that is written is one of those that an instruction defines. -/
theorem mem_defsFrom {d : LDefinition} {k : ℕ} (hk : n₀.defs[k]? = some d) (hwrites : d.writes = true) :
    d ∈ tempsFrom n₀ 0 ++ defsFrom n₀ 0 :=
  List.mem_append_right _ (List.mem_filter.mpr ⟨List.mem_of_getElem? hk, hwrites⟩)

section

variable (h : Remaining alloc s₀ n₀ synced later i s)
include h

/-- Where an output is written. -/
theorem Remaining.defTarget {j : ℕ} {a : LAllocation} (ha : s.ins.defTargets[j]? = some (some a)) :
    ∃ d₀, n₀.defs[j]? = some d₀ ∧ d₀.writes = true ∧ DefAt alloc n₀ s d₀ a := by
  rw [LNode.defTargets, List.getElem?_map, Option.map_eq_some_iff] at ha
  obtain ⟨d, hd, htarget⟩ := ha
  split_ifs at htarget with hwrites
  cases htarget
  have hsame := congrArg (·[j]?) h.shape.defs
  simp only [List.getElem?_map, hd, Option.map_some] at hsame
  obtain ⟨d₀, hd₀, hw⟩ := Option.map_eq_some_iff.mp hsame.symm
  exact ⟨d₀, hd₀, hw.trans hwrites, h.defs j d₀ d hd₀ hd (hw.trans hwrites)⟩

/-- Where an output is to be written. -/
theorem Remaining.exists_defTarget {j : ℕ} {d₀ : LDefinition} (hd₀ : n₀.defs[j]? = some d₀)
    (hwrites : d₀.writes = true) :
    ∃ a, s.ins.defTargets[j]? = some (some a) ∧ DefAt alloc n₀ s d₀ a := by
  have hsame := congrArg (·[j]?) h.shape.defs
  simp only [List.getElem?_map, hd₀, Option.map_some] at hsame
  obtain ⟨d, hd, hw⟩ := Option.map_eq_some_iff.mp hsame
  refine ⟨d.output, ?_, h.defs j d₀ d hd₀ hd hwrites⟩
  rw [LNode.defTargets, List.getElem?_map, hd, Option.map_some, if_pos (hw.trans hwrites)]

/-- Where a temporary is written. -/
theorem Remaining.tempTarget {a : LAllocation} (ha : some a ∈ s.ins.tempTargets) :
    Written alloc (Defines n₀) s a := by
  obtain ⟨t, ht, htarget⟩ := List.mem_map.mp ha
  split_ifs at htarget with hbogus
  cases htarget
  exact (h.temps t ht).resolve_left hbogus

variable (hdefined : ∀ d ∈ tempsFrom n₀ 0 ++ defsFrom n₀ 0,
  alloc.virtualRegisters d.virtualRegister = some d)
include hdefined

/-- An output is written to storage of what the instruction defines. -/
theorem Remaining.written {a : LAllocation}
    (ha : some a ∈ s.ins.tempTargets ∨ some a ∈ s.ins.defTargets) : Written alloc (Defines n₀) s a := by
  cases ha with
  | inl htemp => exact h.tempTarget htemp
  | inr hdef =>
    obtain ⟨j, hj⟩ := List.mem_iff_getElem?.mp hdef
    obtain ⟨d₀, hd₀, hwrites, hat⟩ := h.defTarget hj
    have hmem := mem_defsFrom hd₀ hwrites
    cases hat with
    | inl hreg =>
      obtain ⟨reg, ha, hv, -⟩ := hreg
      exact .inl ⟨reg, _, ha, hv, d₀, hmem, rfl⟩
    | inr hmemory =>
      refine .inr ⟨_, ⟨d₀, hmem, rfl⟩, ?_, hmemory.1⟩
      unfold Known
      rw [hdefined d₀ hmem]
      rfl

/-- Other storage keeps what it has, but for the registers at a call. -/
theorem Remaining.exec_phys (e : Effects V) {a : LAllocation} (ha : ¬ Written alloc (Defines n₀) s a) :
    (s.ins.exec n₀.info e ⟨contents s₀ s, s₀.virt⟩).phys a =
      if s.ins.isCall then clobberRegisters e.clobber (contents s₀ s) a else contents s₀ s a := by
  have htemp : some a ∉ s.ins.tempTargets := fun hmem => ha (h.written hdefined (.inl hmem))
  have hdef : some a ∉ s.ins.defTargets := fun hmem => ha (h.written hdefined (.inr hmem))
  refine (writeFrom_of_not_mem e.out hdef 0 _).trans
    ((writeFrom_of_not_mem e.temp htemp 0 _).trans ?_)
  split_ifs <;> rfl

variable (hsep : Separate alloc) (hnodup : (defsLater n₀ later 0).Nodup)
include hsep hnodup

/-- An output is where it was put. -/
theorem Remaining.exec_def (e : Effects V) {k : ℕ} {d₀ : LDefinition} (hd₀ : n₀.defs[k]? = some d₀)
    (hwrites : d₀.writes = true) {a : LAllocation} (hat : DefAt alloc n₀ s d₀ a) :
    (s.ins.exec n₀.info e ⟨contents s₀ s, s₀.virt⟩).phys a = e.out k := by
  -- Its register holds no other virtual register, and its memory is that of no other one.
  have hunique : ∀ (j : ℕ) (d₁ : LDefinition), n₀.defs[j]? = some d₁ → d₁.writes = true →
      DefAt alloc n₀ s d₁ a → d₁.virtualRegister = d₀.virtualRegister := by
    intro j d₁ hd₁ hwrites₁ hat₁
    have hmem := hdefined d₀ (mem_defsFrom hd₀ hwrites)
    have hmem₁ := hdefined d₁ (mem_defsFrom hd₁ hwrites₁)
    rcases hat with ⟨reg, rfl, hv, -⟩ | ⟨rfl, -⟩ <;> rcases hat₁ with ⟨reg', ha', hv', -⟩ | ⟨ha', -⟩
    · cases ha'
      exact Option.some.inj (hv'.symm.trans hv)
    · exact absurd ha'.symm (stackLocation_ne_register alloc _ reg)
    · exact absurd ha' (stackLocation_ne_register alloc _ reg')
    · refine hsep _ _ ?_ ?_ ha'.symm
      · rw [Known, hmem₁]
        rfl
      · rw [Known, hmem]
        rfl
  obtain ⟨b, hb, hat'⟩ := h.exists_defTarget hd₀ hwrites
  have hab : a = b := by
    rcases hat with ⟨reg, rfl, hv, -⟩ | ⟨rfl, hmissing⟩ <;>
      rcases hat' with ⟨reg', rfl, hv', -⟩ | ⟨rfl, hmissing'⟩
    · rw [h.carries.unique reg reg' _ hv hv']
    · exact absurd hv (hmissing' reg)
    · exact absurd hv' (hmissing reg')
    · rfl
  rw [← hab] at hb
  refine (writeFrom_of_last e.out hb (fun j hj htarget => ?_) 0 _).trans (congrArg e.out (Nat.zero_add k))
  obtain ⟨d₁, hd₁, hwrites₁, hat₁⟩ := h.defTarget htarget
  exact defs_ne hnodup hj hd₀ hd₁ hwrites hwrites₁ (hunique j d₁ hd₁ hwrites₁ hat₁).symm

end

/-- What registers hold when the next instruction is reached. A call leaves only outputs in them. -/
structure Leaves (s : AllocState) (isCall : Bool) (registers : AnyRegister → AllocatedRegister) :
    Prop where
  same : ∀ reg v, (registers reg).vreg = some v → registers reg = s.registers reg
  dirty : ∀ reg v, (s.registers reg).vreg = some v → (s.registers reg).dirty = true →
    registers reg = s.registers reg
  call : isCall = true → ∀ reg v, (registers reg).vreg = some v → (registers reg).dirty = true

/-- A register that was dirty still is. -/
theorem Leaves.not_clean {isCall : Bool} {registers : AnyRegister → AllocatedRegister}
    (h : Leaves s isCall registers) {reg : AnyRegister} {v : ℕ} (hv : (s.registers reg).vreg = some v)
    (hdirty : (s.registers reg).dirty = true)
    (hclean : ∀ reg, (registers reg).vreg = some v → (registers reg).dirty = false) : False := by
  have hsame := h.dirty reg v hv hdirty
  have hfalse := hclean reg ((congrArg AllocatedRegister.vreg hsame).trans hv)
  rw [hsame, hdirty] at hfalse
  cases hfalse

/-- After an instruction, registers carry what they are said to. -/
theorem Remaining.exec_carries (h : Remaining alloc s₀ n₀ synced later i s)
    (hdefined : ∀ d ∈ tempsFrom n₀ 0 ++ defsFrom n₀ 0,
      alloc.virtualRegisters d.virtualRegister = some d)
    (hsep : Separate alloc) (hknown : ∀ v x, s₀.virt v = some x → alloc.Known v)
    (hnodup : (defsLater n₀ later 0).Nodup)
    (htemps : ∀ t ∈ tempsFrom n₀ 0, s₀.virt t.virtualRegister = none)
    (hsynced : n₀.isCall = true → synced) {registers : AnyRegister → AllocatedRegister}
    (hleaves : Leaves s n₀.isCall registers) (e : Effects V) (next : LNode) :
    Carries alloc (s.ins.exec n₀.info e ⟨contents s₀ s, s₀.virt⟩) (fun _ => False) (· ∉ later)
      ⟨registers, none, none, next⟩ := by
  set s₁ := s.ins.exec n₀.info e ⟨contents s₀ s, s₀.virt⟩ with hs₁
  have hcontents : ∀ a, contents s₁ ⟨registers, none, none, next⟩ a = s₁.phys a := fun _ => rfl
  have hnone : ∀ v, (∀ d ∈ defsFrom n₀ 0, d.virtualRegister ≠ v) → n₀.info.definer v = none →
      s₁.virt v = s₀.virt v := by
    intro v _ hdefiner
    simp only [hs₁, LNode.exec, hdefiner]
  have hvirt : ∀ v x, s₁.virt v = some x → (¬ Defines n₀ v ∧ s₀.virt v = some x) ∨
      ∃ k d, n₀.defs[k]? = some d ∧ d.writes = true ∧ d.virtualRegister = v ∧ x = e.out k := by
    intro v x hx
    rcases definer_cases n₀ v with ⟨hdefiner, hother⟩ | ⟨k, d, hdefiner, hk, hwrites, hv⟩
    · rw [hnone v hother hdefiner] at hx
      refine .inl ⟨?_, hx⟩
      rintro ⟨d, hd, hv⟩
      cases List.mem_append.mp hd with
      | inl htemp =>
        rw [← hv, htemps d htemp] at hx
        cases hx
      | inr hdef => exact hother d hdef hv
    · simp only [hs₁, LNode.exec, hdefiner, Option.some.injEq] at hx
      exact .inr ⟨k, d, hk, hwrites, hv, hx.symm⟩
  have hstill : ∀ reg v, (registers reg).vreg = some v → (s.registers reg).vreg = some v :=
    fun reg v hv => hleaves.same reg v hv ▸ hv
  constructor
  · exact fun reg v hv => h.carries.met reg v (hstill reg v hv)
  · exact fun reg reg' v hv hv' => h.carries.unique reg reg' v (hstill reg v hv) (hstill reg' v hv')
  · intro reg v hv _ x hx
    rw [hcontents]
    have hold := hstill reg v hv
    rcases hvirt v x hx with ⟨hD, hx₀⟩ | ⟨k, d, hk, hwrites, rfl, rfl⟩
    · have hcall : s.ins.isCall = false := by
        rw [h.shape.isCall]
        by_contra hcall
        rw [Bool.not_eq_false] at hcall
        have hdirty := hleaves.call hcall reg v hv
        rw [hleaves.same reg v hv] at hdirty
        exact hD (h.clean (hsynced hcall) reg v hold hdirty)
      have hunwritten : ¬ Written alloc (Defines n₀) s (.register reg) := by
        rintro (⟨reg', v', hreg', hv', hD'⟩ | ⟨v', -, -, hmemory⟩)
        · cases hreg'
          rw [hold] at hv'
          cases hv'
          exact hD hD'
        · exact stackLocation_ne_register alloc v' reg hmemory.symm
      rw [hs₁, h.exec_phys hdefined e hunwritten, if_neg (by rw [hcall]; nofun)]
      exact h.carries.held reg v hold hD x hx₀
    · obtain ⟨a, -, hat⟩ := h.exists_defTarget hk hwrites
      have hplace : a = .register reg := by
        rcases hat with ⟨reg', rfl, hv', -⟩ | ⟨-, hmissing⟩
        · rw [h.carries.unique reg reg' _ hold hv']
        · exact absurd hold (hmissing reg)
      exact h.exec_def hdefined hsep hnodup e hk hwrites (hplace ▸ hat)
  · intro v x hx _ hclean
    rw [hcontents]
    rcases hvirt v x hx with ⟨hD, hx₀⟩ | ⟨k, d, hk, hwrites, rfl, rfl⟩
    · have hunwritten : ¬ Written alloc (Defines n₀) s (alloc.stackLocation v) := by
        rintro (⟨reg', v', hreg', -⟩ | ⟨v', hD', hv', hmemory⟩)
        · exact stackLocation_ne_register alloc v reg' hreg'
        · exact hD (hsep v v' (hknown v x hx₀) hv' hmemory ▸ hD')
      have hkept : (if s.ins.isCall then
          clobberRegisters e.clobber (contents s₀ s) (alloc.stackLocation v)
          else contents s₀ s (alloc.stackLocation v)) = contents s₀ s (alloc.stackLocation v) := by
        split_ifs
        · have hne := stackLocation_ne_register alloc v
          generalize alloc.stackLocation v = a at hne
          cases a with
          | register reg => exact absurd rfl (hne reg)
          | _ => rfl
        · rfl
      rw [hs₁, h.exec_phys hdefined e hunwritten, hkept]
      refine h.carries.stored v x hx₀ hD fun reg hreg => ?_
      by_contra hdirty
      rw [Bool.not_eq_false] at hdirty
      exact hleaves.not_clean hreg hdirty hclean
    · obtain ⟨a, -, hat⟩ := h.exists_defTarget hk hwrites
      have hplace : a = alloc.stackLocation d.virtualRegister := by
        rcases hat with ⟨reg, -, hv, hdirty, -⟩ | ⟨ha, -⟩
        · exact (hleaves.not_clean hv hdirty hclean).elim
        · exact ha
      exact h.exec_def hdefined hsep hnodup e hk hwrites (hplace ▸ hat)
  · intro reg v _ _ _ hdest
    cases hdest

end SpiderMonkey.Jit.LIR.StupidAllocator
