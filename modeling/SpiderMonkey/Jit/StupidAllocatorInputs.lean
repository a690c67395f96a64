import SpiderMonkey.Jit.StupidAllocatorChoice
import SpiderMonkey.Lib.Loops

/-!
# Inputs that have to be in registers

Each of them is loaded, if no register that it may use holds it. A load is to a register that is not
reserved, or that is asked for by name, and each load is for an input that is replaced by the register:
the register is reserved from then on, and keeps the value until the instruction runs.
-/

namespace SpiderMonkey.Jit.LIR.StupidAllocator

variable {alloc : StupidAllocator} {V : Type*} {s₀ : State V} {s s' : AllocState} {D M : ℕ → Prop}

/-- A register that is found holds the virtual register. -/
theorem vreg_of_findExistingRegister {v : ℕ} {reg : AnyRegister}
    (h : alloc.findExistingRegister v s = some reg) : (s.registers reg).vreg = some v := by
  have hfound := List.find?_some h
  exact of_decide_eq_true hfound

/-- No register holds a virtual register that is not found. -/
theorem missing_of_findExistingRegister (hc : Carries alloc s₀ D M s) {v : ℕ}
    (h : alloc.findExistingRegister v s = none) (reg : AnyRegister) : (s.registers reg).vreg ≠ some v := by
  intro hv
  have hmem := (hc.met reg v hv).2.2.1
  exact List.find?_eq_none.mp h reg hmem (decide_eq_true hv)

/-- What registers hold after an eviction they held before. -/
theorem Evicted.vreg {reg reg' : AnyRegister} {v : ℕ} (h : Evicted reg s s')
    (hv : (s'.registers reg').vreg = some v) : reg' ≠ reg ∧ (s.registers reg').vreg = some v := by
  have hne : reg' ≠ reg := by
    rintro rfl
    rw [h.missing] at hv
    cases hv
  rw [h.other reg' hne] at hv
  exact ⟨hne, hv⟩

/-- A change of a register's age changes nothing that matters. -/
theorem touch_carries (h : Carries alloc s₀ D M s) (reg : AnyRegister) (age : ℕ) :
    Carries alloc s₀ D M (s.setRegister reg { s.registers reg with age }) ∧
      Frame s₀ s (s.setRegister reg { s.registers reg with age }) := by
  have hsame : ∀ reg', ((s.setRegister reg { s.registers reg with age }).registers reg').vreg =
      (s.registers reg').vreg ∧ ((s.setRegister reg { s.registers reg with age }).registers reg').dirty =
      (s.registers reg').dirty := by
    intro reg'
    by_cases heq : reg' = reg
    · rw [heq, AllocState.setRegister_self]
      exact ⟨rfl, rfl⟩
    · rw [AllocState.setRegister_of_ne _ _ heq]
      exact ⟨rfl, rfl⟩
  exact ⟨h.congr rfl (fun reg' => (hsame reg').1) fun reg' => (hsame reg').2, rfl, rfl, fun _ => rfl,
    fun _ hdest => hdest,
    fun reg' w hw hd => ⟨(hsame reg').1.symm.trans hw, (hsame reg').2.symm.trans hd⟩⟩

section

variable (hsep : Separate alloc) (hknown : ∀ v x, s₀.virt v = some x → alloc.Known v)
include hsep hknown

/-- After an eviction no register holds the virtual register. -/
theorem evictExisting_carries (h : Carries alloc s₀ D M s) (v : ℕ) :
    Carries alloc s₀ D M (alloc.evictExisting v s) ∧ Frame s₀ s (alloc.evictExisting v s) ∧
      (∀ reg, ((alloc.evictExisting v s).registers reg).vreg ≠ some v) ∧
      ∀ reg, (s.registers reg).vreg = none → ((alloc.evictExisting v s).registers reg).vreg = none := by
  unfold evictExisting
  cases hfind : alloc.findExistingRegister v s with
  | none => exact ⟨h, Frame.refl s₀ s, missing_of_findExistingRegister h hfind, fun _ hnone => hnone⟩
  | some existing =>
    have hv := vreg_of_findExistingRegister hfind
    obtain ⟨hc, hframe, hevicted⟩ := evictRegister_carries hsep hknown h existing
    refine ⟨hc, hframe, fun reg hreg => ?_, fun reg hnone => ?_⟩
    · obtain ⟨hne, hold⟩ := hevicted.vreg hreg
      exact hne (h.unique reg existing v hold hv)
    · by_cases heq : reg = existing
      · rw [heq]
        exact hevicted.missing
      · exact (congrArg AllocatedRegister.vreg (hevicted.other reg heq)).trans hnone

/-- A virtual register is loaded to the register that is asked for. -/
theorem loadFixed_carries (h : Carries alloc s₀ D M s) {v : ℕ} {reg : AnyRegister}
    (hreg : reg ∈ alloc.allRegisters) (hv : alloc.Known v) (hM : M v) (hD : ¬ D v)
    (hclass : reg.isFloat = alloc.isFloat v)
    (hmoved : .register reg ∈ dests s →
      ∀ x, s₀.virt v = some x → contents s₀ s (.register reg) = x) :
    Carries alloc s₀ D M (alloc.loadFixed v reg s) ∧ Loads s₀ v reg s (alloc.loadFixed v reg s) := by
  unfold loadFixed
  split_ifs with hheld
  · exact ⟨h, (Frame.refl s₀ s).loads (h.held reg v hheld hD)⟩
  · obtain ⟨hc₁, hframe₁, hevicted⟩ := evictRegister_carries hsep hknown h reg
    obtain ⟨hc₂, hframe₂, hmissing, hnone⟩ := evictExisting_carries hsep hknown hc₁ v
    have hframe := hframe₁.trans hframe₂
    obtain ⟨hc₃, hloads⟩ := loadRegister_carries hc₂ hreg hv hM hD hclass
      (hnone reg hevicted.missing) hmissing
      fun hmem x hx => (hframe.contents reg).trans (hmoved (hframe.dests reg hmem) x hx)
    exact ⟨hc₃, hframe.trans_loads hloads⟩

variable (hnodup : alloc.allRegisters.Nodup) {n₀ : LNode} {pending : List Bool}
include hnodup

/-- A virtual register that no register holds is loaded to a register that is not reserved. -/
theorem allocateAndLoad_carries (h : Carries alloc s₀ D M s) {v : ℕ} (hv : alloc.Known v) (hM : M v)
    (hD : ¬ D v) (hroom : Room alloc n₀ (alloc.isFloat v :: pending) s.ins)
    (hmissing : ∀ reg, (s.registers reg).vreg ≠ some v)
    (hmoved : ∀ reg, .register reg ∈ dests s → reg ∈ alloc.reserved s.ins) :
    ∃ reg s', alloc.allocateAndLoad v s = some (reg, s') ∧ Carries alloc s₀ D M s' ∧
      Loads s₀ v reg s s' ∧ reg ∈ alloc.allRegisters ∧ alloc.Candidate (alloc.isFloat v) s.ins reg := by
  obtain ⟨best, hmem, hcandidate, hpicked⟩ := allocateRegister_of_room hnodup hv hroom
  obtain ⟨hc, hframe, hevicted⟩ := evictRegister_carries hsep hknown h best
  obtain ⟨hc', hloads⟩ := loadRegister_carries hc hmem hv hM hD hcandidate.1 hevicted.missing
    (fun reg hreg => hmissing reg (hevicted.vreg hreg).2)
    fun hdest => absurd (hmoved best (hframe.dests best hdest)) hcandidate.2
  refine ⟨best, _, ?_, hc', hframe.trans_loads hloads, hmem, hcandidate⟩
  simp only [allocateAndLoad, hpicked]

/-- A virtual register gets a register that is not reserved. -/
theorem ensureHasRegister_carries (h : Carries alloc s₀ D M s) {v : ℕ} (hv : alloc.Known v) (hM : M v)
    (hD : ¬ D v) (hroom : Room alloc n₀ (alloc.isFloat v :: pending) s.ins)
    (hmoved : ∀ reg, .register reg ∈ dests s → reg ∈ alloc.reserved s.ins) :
    ∃ reg s', alloc.ensureHasRegister v s = some (reg, s') ∧ Carries alloc s₀ D M s' ∧
      Loads s₀ v reg s s' ∧ reg ∈ alloc.allRegisters ∧ alloc.Candidate (alloc.isFloat v) s.ins reg := by
  unfold ensureHasRegister
  cases hfind : alloc.findExistingRegister v s with
  | none =>
    exact allocateAndLoad_carries hsep hknown hnodup h hv hM hD hroom
      (missing_of_findExistingRegister h hfind) hmoved
  | some existing =>
    have hexisting := vreg_of_findExistingRegister hfind
    dsimp only
    split_ifs with hreserved
    · obtain ⟨hc, hframe, hevicted⟩ := evictRegister_carries hsep hknown h existing
      rw [← hframe.ins] at hroom
      obtain ⟨reg, s', hload, hc', hloads, hmem, hcandidate⟩ :=
        allocateAndLoad_carries hsep hknown hnodup hc hv hM hD hroom
          (fun reg hreg => (hevicted.vreg hreg).1
            (h.unique reg existing v (hevicted.vreg hreg).2 hexisting))
          fun reg hdest => hframe.ins ▸ hmoved reg (hframe.dests reg hdest)
      exact ⟨reg, s', hload, hc', hframe.trans_loads hloads, hmem, hframe.ins ▸ hcandidate⟩
    · obtain ⟨hc, hframe⟩ := touch_carries h existing s.ins.id
      have hmet := h.met existing v hexisting
      exact ⟨existing, _, rfl, hc, hframe.loads (h.held existing v hexisting hD),
        hmet.2.2.1, hmet.2.2.2, fun hres => hreserved (registerIsReserved_iff.mpr hres)⟩

end

/-- Storage has a virtual register's value when the instruction runs. -/
def Reads (s₀ : State V) (s : AllocState) (v : ℕ) (a : LAllocation) : Prop :=
  ∀ x, s₀.virt v = some x → contents s₀ s a = x

/-- What becomes of an input: it is as it was, or it is in a register that was picked for it or that it
asked for by name. -/
inductive InputAt (alloc : StupidAllocator) (s₀ : State V) (n₀ : LNode) (s : AllocState) :
    LAllocation → LAllocation → Prop
  | waiting (a : LAllocation) : InputAt alloc s₀ n₀ s a a
  | picked {u : LUse} {reg : AnyRegister} (hpolicy : u.policy = .register)
    (hmem : reg ∈ alloc.allRegisters) (hclass : reg.isFloat = alloc.isFloat u.virtualRegister)
    (hnew : reg ∉ alloc.reserved n₀)
    (hreads : Reads s₀ s u.virtualRegister (.register reg)) : InputAt alloc s₀ n₀ s (.use u) (.register reg)
  | named {u : LUse} (hpolicy : u.policy = .fixed) (hmem : alloc.fixedRegister u ∈ alloc.allRegisters)
    (hreads : Reads s₀ s u.virtualRegister (.register (alloc.fixedRegister u))) :
    InputAt alloc s₀ n₀ s (.use u) (.register (alloc.fixedRegister u))

variable {n₀ : LNode}

/-- An input in a register stays right if the register keeps the value. -/
theorem InputAt.mono {a₀ a : LAllocation} (h : InputAt alloc s₀ n₀ s a₀ a)
    (hkeep : ∀ u reg, a₀ = .use u → a = .register reg → Reads s₀ s u.virtualRegister (.register reg) →
      Reads s₀ s' u.virtualRegister (.register reg)) : InputAt alloc s₀ n₀ s' a₀ a := by
  cases h with
  | waiting => exact .waiting a₀
  | picked hpolicy hmem hclass hnew hreads =>
    exact .picked hpolicy hmem hclass hnew (hkeep _ _ rfl rfl hreads)
  | named hpolicy hmem hreads => exact .named hpolicy hmem (hkeep _ _ rfl rfl hreads)

/-- What holds throughout the allocation for an instruction. The flag says that registers were synced
before. -/
structure Allocating (alloc : StupidAllocator) (s₀ : State V) (n₀ : LNode) (D M : ℕ → Prop)
    (synced : Prop) (pending : List Bool) (s : AllocState) : Prop where
  carries : Carries alloc s₀ D M s
  clean : synced → ∀ reg v, (s.registers reg).vreg = some v → (s.registers reg).dirty = true → D v
  room : Room alloc n₀ pending s.ins
  named : ∀ reg ∈ alloc.reserved n₀, reg ∈ alloc.reserved s.ins
  phiMoves : s.phiMoves = none
  id : s.ins.id = n₀.id
  isCall : s.ins.isCall = n₀.isCall
  operands : s.ins.operands.length = n₀.operands.length
  snapshot : s.ins.snapshot.length = n₀.snapshot.length
  inputs : ∀ (k : ℕ) (a₀ a : LAllocation), n₀.inputs[k]? = some a₀ → s.ins.inputs[k]? = some a →
    InputAt alloc s₀ n₀ s a₀ a

/-- A use that has to be in a register. -/
def Required (u : LUse) : Prop :=
  u.policy = .register ∨ u.policy = .fixed

/-- What holds while registers are found for the inputs that have to be in some, up to a place. -/
structure Inputs (alloc : StupidAllocator) (s₀ : State V) (n₀ : LNode) (D M : ℕ → Prop)
    (synced : Prop) (pending : List Bool) (i : ℕ) (s : AllocState) : Prop extends
    Allocating alloc s₀ n₀ D M synced pending s where
  ahead : ∀ k : ℕ, i ≤ k → s.ins.inputs[k]? = n₀.inputs[k]?
  done : ∀ (k : ℕ) (u : LUse), k < i → n₀.inputs[k]? = some (.use u) → Required u →
    ∃ reg : AnyRegister, s.ins.inputs[k]? = some (.register reg)
  loaded : ∀ reg, .register reg ∈ dests s →
    ∃ (k : ℕ) (u : LUse), n₀.inputs[k]? = some (.use u) ∧ s.ins.inputs[k]? = some (.register reg)
  temps : s.ins.temps = n₀.temps
  defs : s.ins.defs = n₀.defs

/-- What the uses of an instruction are: of virtual registers that were met and that it does not define.
Those that ask for the same register are of the same virtual register. -/
structure Uses (alloc : StupidAllocator) (n₀ : LNode) (D M : ℕ → Prop) : Prop where
  met : ∀ u, .use u ∈ n₀.inputs →
    M u.virtualRegister ∧ alloc.Known u.virtualRegister ∧ ¬ D u.virtualRegister
  fixed_mem : ∀ u, .use u ∈ n₀.inputs → u.policy = .fixed → alloc.fixedRegister u ∈ alloc.allRegisters
  fixed_eq : ∀ u u', .use u ∈ n₀.inputs → .use u' ∈ n₀.inputs → u.policy = .fixed →
    u'.policy = .fixed → alloc.fixedRegister u = alloc.fixedRegister u' →
    u.virtualRegister = u'.virtualRegister

/-- Whether an input has a register picked for it, and of which kind. -/
def flexibleInput (alloc : StupidAllocator) : LAllocation → Option Bool
  | .use u => if u.policy = .register then some (alloc.isFloat u.virtualRegister) else none
  | _ => none

variable {synced : Prop} {pending : List Bool} {i : ℕ}

/-- An input in a register reserves it. -/
theorem mem_reserved_of_input {n : LNode} {k : ℕ} {a : LAllocation} {reg : AnyRegister}
    (h : n.inputs[k]? = some a) (ha : alloc.reservedBy a = some reg) : reg ∈ alloc.reserved n :=
  List.mem_append_left _ (List.mem_append_left _
    (List.mem_filterMap.mpr ⟨a, List.mem_of_getElem? h, ha⟩))

/-- The register that a use asks for is of the kind of the virtual register. -/
theorem isFloat_fixedRegister (alloc : StupidAllocator) (u : LUse) :
    (alloc.fixedRegister u).isFloat = alloc.isFloat u.virtualRegister := by
  unfold fixedRegister StupidAllocator.isFloat
  split_ifs with hfloat
  · rw [hfloat]
    rfl
  · exact (Bool.eq_false_iff.mpr hfloat).symm

/-- The register that a use asks for is reserved. -/
theorem reservedBy_fixed {u : LUse} (h : u.policy = .fixed) :
    alloc.reservedBy (.use u) = some (alloc.fixedRegister u) := if_pos h

/-- An input is replaced by a register that has its value. -/
theorem Inputs.place (h : Inputs alloc s₀ n₀ D M synced pending i s) {u : LUse} {reg : AnyRegister}
    (hi : n₀.inputs[i]? = some (.use u)) (hc : Carries alloc s₀ D M s')
    (hloads : Loads s₀ u.virtualRegister reg s s') {pending' : List Bool}
    (hroom : Room alloc n₀ pending' (s.ins.replaceInput i (.register reg)))
    (hkeep : alloc.reservedBy (.use u) = none ∨ alloc.reservedBy (.use u) = some reg)
    (hat : InputAt alloc s₀ n₀ s' (.use u) (.register reg))
    (hsame : ∀ (k : ℕ) (u' : LUse), n₀.inputs[k]? = some (.use u') → s.ins.inputs[k]? = some (.register reg) →
      u'.virtualRegister = u.virtualRegister) :
    Inputs alloc s₀ n₀ D M synced pending' (i + 1) (s'.replaceInput i (.register reg)) := by
  have hnow : s.ins.inputs[i]? = some (.use u) := (h.ahead i (Nat.le_refl i)).trans hi
  have hlt : i < s.ins.inputs.length := (List.getElem?_eq_some_iff.mp hnow).1
  have hins : (s'.replaceInput i (.register reg)).ins = s.ins.replaceInput i (.register reg) :=
    congrArg (LNode.replaceInput · i (.register reg)) hloads.ins
  have hself : (s'.replaceInput i (.register reg)).ins.inputs[i]? = some (.register reg) := by
    rw [hins, inputs_replaceInput, List.getElem?_set_self hlt]
  have hother : ∀ k, k ≠ i →
      (s'.replaceInput i (.register reg)).ins.inputs[k]? = s.ins.inputs[k]? := by
    intro k hk
    rw [hins, inputs_replaceInput, List.getElem?_set_ne (Ne.symm hk)]
  have hshape : (s.ins.replaceInput i (.register reg)).id = s.ins.id ∧
      (s.ins.replaceInput i (.register reg)).isCall = s.ins.isCall ∧
      (s.ins.replaceInput i (.register reg)).operands.length = s.ins.operands.length ∧
      (s.ins.replaceInput i (.register reg)).snapshot.length = s.ins.snapshot.length ∧
      (s.ins.replaceInput i (.register reg)).temps = s.ins.temps ∧
      (s.ins.replaceInput i (.register reg)).defs = s.ins.defs := by
    unfold LNode.replaceInput
    split_ifs
    · exact ⟨rfl, rfl, List.length_set, rfl, rfl, rfl⟩
    · exact ⟨rfl, rfl, rfl, List.length_set, rfl, rfl⟩
  obtain ⟨hid, hcall, hoperands, hsnapshot, htemps, hdefs⟩ := hshape
  constructor
  · constructor
    · exact hc.congr rfl (fun _ => rfl) fun _ => rfl
    · intro hsynced reg' v hv hd
      obtain ⟨hv', hd'⟩ := hloads.dirty reg' v hv hd
      exact h.clean hsynced reg' v hv' hd'
    · exact hins ▸ hroom
    · intro reg' hreg'
      rw [hins]
      refine mem_reserved_replaceInput (fun x hx => ?_) (h.named reg' hreg')
      rw [hnow] at hx
      cases hx
      exact hkeep
    · exact hloads.phiMoves.trans h.phiMoves
    · rw [hins, hid]
      exact h.id
    · rw [hins, hcall]
      exact h.isCall
    · rw [hins, hoperands]
      exact h.operands
    · rw [hins, hsnapshot]
      exact h.snapshot
    · intro k a₀ a ha₀ ha
      by_cases hk : k = i
      · rw [hk, hi] at ha₀
        rw [hk, hself] at ha
        cases ha₀
        cases ha
        exact hat.mono fun _ _ _ _ hreads => hreads
      · rw [hother k hk] at ha
        refine (h.inputs k a₀ a ha₀ ha).mono fun u' reg' hu' hreg' hreads x hx => ?_
        rw [hu'] at ha₀
        rw [hreg'] at ha
        by_cases heq : reg' = reg
        · rw [heq] at ha ⊢
          rw [hsame k u' ha₀ ha] at hx
          exact hloads.holds x hx
        · exact (hloads.contents reg' heq).trans (hreads x hx)
  · intro k hk
    rw [hother k (Nat.ne_of_gt hk)]
    exact h.ahead k (Nat.le_of_succ_le hk)
  · intro k u' hk hu' hrequired
    by_cases heq : k = i
    · rw [heq]
      exact ⟨reg, hself⟩
    · rw [hother k heq]
      exact h.done k u' (by omega) hu' hrequired
  · intro reg' hdest
    cases hloads.dests reg' hdest with
    | inl hold =>
      obtain ⟨k, u', hu', hk⟩ := h.loaded reg' hold
      have hne : k ≠ i := by
        rintro rfl
        rw [hnow] at hk
        cases hk
      exact ⟨k, u', hu', (hother k hne).trans hk⟩
    | inr hnew => exact ⟨i, u, hi, hnew ▸ hself⟩
  · rw [hins, htemps]
    exact h.temps
  · rw [hins, hdefs]
    exact h.defs

/-- An input that need not be in a register is passed over. -/
theorem Inputs.skip (h : Inputs alloc s₀ n₀ D M synced pending i s) {a₀ : LAllocation}
    (hi : n₀.inputs[i]? = some a₀) (hskip : ∀ u, a₀ = .use u → ¬ Required u) :
    Inputs alloc s₀ n₀ D M synced pending (i + 1) s := by
  refine ⟨h.toAllocating, fun k hk => h.ahead k (Nat.le_of_succ_le hk), fun k u hk hu hrequired => ?_,
    h.loaded, h.temps, h.defs⟩
  by_cases heq : k = i
  · rw [heq, hi] at hu
    exact absurd hrequired (hskip u (Option.some.inj hu))
  · exact h.done k u (by omega) hu hrequired

section

variable (hsep : Separate alloc) (hknown : ∀ v x, s₀.virt v = some x → alloc.Known v)
  (huses : Uses alloc n₀ D M)
include hsep hknown huses

/-- An input that may be in any register gets one. -/
theorem Inputs.pick (hnodup : alloc.allRegisters.Nodup) {u : LUse}
    (h : Inputs alloc s₀ n₀ D M synced (alloc.isFloat u.virtualRegister :: pending) i s)
    (hi : n₀.inputs[i]? = some (.use u)) (hpolicy : u.policy = .register) :
    ∃ s', alloc.allocateRequired s i = some s' ∧
      Inputs alloc s₀ n₀ D M synced pending (i + 1) s' := by
  have hnow : s.ins.inputs[i]? = some (.use u) := (h.ahead i (Nat.le_refl i)).trans hi
  obtain ⟨hM, hv, hD⟩ := huses.met u (List.mem_of_getElem? hi)
  have hmoved : ∀ reg, .register reg ∈ dests s → reg ∈ alloc.reserved s.ins := by
    intro reg hdest
    obtain ⟨k, u', -, hk⟩ := h.loaded reg hdest
    exact mem_reserved_of_input hk rfl
  obtain ⟨reg, s', hensure, hc, hloads, hmem, hcandidate⟩ :=
    ensureHasRegister_carries hsep hknown hnodup h.carries hv hM hD h.room hmoved
  refine ⟨s'.replaceInput i (.register reg), ?_, ?_⟩
  · simp only [allocateRequired, hnow, hpolicy, hensure, Option.map_some]
  · apply h.place hi hc hloads
    · exact h.room.take hcandidate.1 fun reg' hreg' =>
        (reserved_replaceInput hreg').imp_right fun heq => (Option.some.inj heq).symm
    · exact .inl (if_neg (by rw [hpolicy]; nofun))
    · exact .picked hpolicy hmem hcandidate.1 (fun hold => hcandidate.2 (h.named reg hold)) hloads.holds
    · intro k u' _ hk
      exact absurd (mem_reserved_of_input hk rfl) hcandidate.2

/-- An input that asks for a register gets it. -/
theorem Inputs.load {u : LUse} (h : Inputs alloc s₀ n₀ D M synced pending i s)
    (hi : n₀.inputs[i]? = some (.use u)) (hpolicy : u.policy = .fixed) :
    ∃ s', alloc.allocateRequired s i = some s' ∧
      Inputs alloc s₀ n₀ D M synced pending (i + 1) s' := by
  have hnow : s.ins.inputs[i]? = some (.use u) := (h.ahead i (Nat.le_refl i)).trans hi
  have huse : LAllocation.use u ∈ n₀.inputs := List.mem_of_getElem? hi
  obtain ⟨hM, hv, hD⟩ := huses.met u huse
  have hmem := huses.fixed_mem u huse hpolicy
  have hnamed : alloc.fixedRegister u ∈ alloc.reserved n₀ :=
    mem_reserved_of_input hi (reservedBy_fixed hpolicy)
  have hclass := isFloat_fixedRegister alloc u
  -- Another input that is in the register asked for it too, and is the same virtual register.
  have hsame : ∀ (k : ℕ) (u' : LUse), n₀.inputs[k]? = some (.use u') →
      s.ins.inputs[k]? = some (.register (alloc.fixedRegister u)) →
        u'.virtualRegister = u.virtualRegister ∧
          Reads s₀ s u'.virtualRegister (.register (alloc.fixedRegister u)) := by
    intro k u' hu' hk
    generalize hreg : alloc.fixedRegister u = reg at hk
    cases h.inputs k _ _ hu' hk with
    | picked _ _ _ hnew _ => exact absurd (hreg ▸ hnamed) hnew
    | named hpolicy' _ hreads =>
      exact ⟨huses.fixed_eq u' u (List.mem_of_getElem? hu') huse hpolicy' hpolicy hreg.symm, hreads⟩
  have hmoved : .register (alloc.fixedRegister u) ∈ dests s → ∀ x, s₀.virt u.virtualRegister = some x →
      contents s₀ s (.register (alloc.fixedRegister u)) = x := by
    intro hdest
    obtain ⟨k, u', hu', hk⟩ := h.loaded _ hdest
    obtain ⟨heq, hreads⟩ := hsame k u' hu' hk
    exact heq ▸ hreads
  obtain ⟨hc, hloads⟩ := loadFixed_carries hsep hknown h.carries hmem hv hM hD hclass hmoved
  refine ⟨(alloc.loadFixed u.virtualRegister (alloc.fixedRegister u) s).replaceInput i
    (.register (alloc.fixedRegister u)), ?_, ?_⟩
  · simp only [allocateRequired, hnow, hpolicy, if_pos hmem]
  · apply h.place hi hc hloads
    · exact h.room.named (.inl hnamed) fun reg' hreg' =>
        (reserved_replaceInput hreg').imp_right fun heq => (Option.some.inj heq).symm
    · exact .inr (reservedBy_fixed hpolicy)
    · exact .named hpolicy hmem hloads.holds
    · exact fun k u' hu' hk => (hsame k u' hu' hk).1

/-- One step of the loop over inputs. -/
theorem allocateRequired_inputs (hnodup : alloc.allRegisters.Nodup)
    (h : Inputs alloc s₀ n₀ D M synced
      ((n₀.inputs.drop i).filterMap alloc.flexibleInput ++ pending) i s)
    (hi : i < n₀.inputs.length) :
    ∃ s', alloc.allocateRequired s i = some s' ∧ Inputs alloc s₀ n₀ D M synced
      ((n₀.inputs.drop (i + 1)).filterMap alloc.flexibleInput ++ pending) (i + 1) s' := by
  have hget : n₀.inputs[i]? = some n₀.inputs[i] := List.getElem?_eq_getElem hi
  have hnow : s.ins.inputs[i]? = some n₀.inputs[i] := (h.ahead i (Nat.le_refl i)).trans hget
  rw [List.drop_eq_getElem_cons hi] at h
  generalize n₀.inputs[i] = a₀ at h hget hnow
  cases a₀ with
  | use u =>
    cases hpolicy : u.policy with
    | register =>
      have hflexible : alloc.flexibleInput (.use u) = some (alloc.isFloat u.virtualRegister) :=
        if_pos hpolicy
      rw [List.filterMap_cons_some hflexible, List.cons_append] at h
      exact h.pick hsep hknown huses hnodup hget hpolicy
    | fixed =>
      have hflexible : alloc.flexibleInput (.use u) = none := if_neg (by rw [hpolicy]; nofun)
      rw [List.filterMap_cons_none hflexible] at h
      exact h.load hsep hknown huses hget hpolicy
    | _ =>
      have hflexible : alloc.flexibleInput (.use u) = none := if_neg (by rw [hpolicy]; nofun)
      rw [List.filterMap_cons_none hflexible] at h
      refine ⟨s, by simp only [allocateRequired, hnow, hpolicy], h.skip hget fun u' hu' => ?_⟩
      cases hu'
      unfold Required
      rw [hpolicy]
      nofun
  | _ =>
    rw [List.filterMap_cons_none rfl] at h
    exact ⟨s, by simp only [allocateRequired, hnow], h.skip hget nofun⟩

/-- Registers are found for all inputs that have to be in some. -/
theorem foldlM_allocateRequired (hnodup : alloc.allRegisters.Nodup)
    (h : Inputs alloc s₀ n₀ D M synced (n₀.inputs.filterMap alloc.flexibleInput ++ pending) 0 s) :
    ∃ s', (List.range s.ins.inputs.length).foldlM alloc.allocateRequired s = some s' ∧
      Inputs alloc s₀ n₀ D M synced pending n₀.inputs.length s' := by
  have hlength : s.ins.inputs.length = n₀.inputs.length := by
    rw [LNode.inputs, LNode.inputs, List.length_append, List.length_append, h.operands, h.snapshot]
  obtain ⟨s', hfold, hinputs⟩ := Lib.exists_foldlM_range (n := n₀.inputs.length)
    (P := fun i s => Inputs alloc s₀ n₀ D M synced
      ((n₀.inputs.drop i).filterMap alloc.flexibleInput ++ pending) i s) h
    fun i hi s hs => allocateRequired_inputs hsep hknown huses hnodup hs hi
  rw [List.drop_length] at hinputs
  exact ⟨s', hlength ▸ hfold, hinputs⟩

end

end SpiderMonkey.Jit.LIR.StupidAllocator
