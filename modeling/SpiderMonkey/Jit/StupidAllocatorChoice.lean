import Mathlib.Data.List.Dedup
import Mathlib.Data.List.Perm.Subperm
import SpiderMonkey.Jit.StupidAllocatorSteps

/-!
# Which register the simple allocator picks

A register is reserved for an instruction if the instruction asks for it by name, or if it was picked for
the instruction before. As long as what still has to be picked fits beside these, there is a register
that is not reserved.
-/

namespace SpiderMonkey.Jit.LIR.StupidAllocator

variable {alloc : StupidAllocator}

/-- The register that storage reserves. -/
def reservedBy (alloc : StupidAllocator) : LAllocation → Option AnyRegister
  | .register reg => some reg
  | .use u => if u.policy = .fixed then some (alloc.fixedRegister u) else none
  | _ => none

/-- The registers that are reserved for an instruction. Before allocation, these are the registers that
it asks for by name. -/
def reserved (alloc : StupidAllocator) (n : LNode) : List AnyRegister :=
  n.inputs.filterMap alloc.reservedBy ++ n.temps.filterMap (fun t => alloc.reservedBy t.output) ++
    n.defs.filterMap fun d => alloc.reservedBy d.output

/-- Storage that reserves a register. -/
theorem allocationRequiresRegister_iff {reg : AnyRegister} {a : LAllocation} :
    alloc.allocationRequiresRegister reg a = true ↔ alloc.reservedBy a = some reg := by
  cases a with
  | register reg' => simp only [allocationRequiresRegister, reservedBy, decide_eq_true_eq, Option.some_inj]
  | use u =>
    simp only [allocationRequiresRegister, reservedBy, Bool.and_eq_true, decide_eq_true_eq]
    split_ifs with hfixed
    · rw [Option.some_inj, and_iff_right hfixed]
    · exact ⟨fun h => absurd h.1 hfixed, by rintro ⟨⟩⟩
  | _ => exact ⟨by rintro ⟨⟩, by rintro ⟨⟩⟩

/-- A register that is reserved is one of the reserved registers. -/
theorem registerIsReserved_iff {n : LNode} {reg : AnyRegister} :
    alloc.registerIsReserved n reg = true ↔ reg ∈ alloc.reserved n := by
  simp only [registerIsReserved, reserved, Bool.or_eq_true, List.any_eq_true,
    allocationRequiresRegister_iff, List.mem_append, List.mem_filterMap]

/-- What a change to one place of a list adds. -/
theorem mem_filterMap_set {α β : Type*} {f : α → Option β} {l : List α} {i : ℕ} {a : α} {b : β}
    (h : b ∈ (l.set i a).filterMap f) : b ∈ l.filterMap f ∨ f a = some b := by
  obtain ⟨x, hx, hb⟩ := List.mem_filterMap.mp h
  cases List.mem_or_eq_of_mem_set hx with
  | inl hold => exact .inl (List.mem_filterMap.mpr ⟨x, hold, hb⟩)
  | inr hnew => exact .inr (hnew ▸ hb)

/-- A change to one place of a list loses nothing if it keeps what the place had. -/
theorem mem_filterMap_set_of_mem {α β : Type*} {f : α → Option β} {l : List α} {i : ℕ} {a : α} {b : β}
    (hkeep : ∀ x, l[i]? = some x → f x = none ∨ f x = f a) (h : b ∈ l.filterMap f) :
    b ∈ (l.set i a).filterMap f := by
  obtain ⟨x, hx, hb⟩ := List.mem_filterMap.mp h
  obtain ⟨j, hj⟩ := List.mem_iff_getElem?.mp hx
  by_cases heq : i = j
  · have hlt : i < l.length := by
      rw [heq]
      exact (List.getElem?_eq_some_iff.mp hj).1
    have hsame : f x = f a := by
      refine (hkeep x (heq ▸ hj)).resolve_left fun hnone => ?_
      rw [hnone] at hb
      cases hb
    exact List.mem_filterMap.mpr ⟨a, List.mem_set hlt a, hsame ▸ hb⟩
  · refine List.mem_filterMap.mpr ⟨x, List.mem_of_getElem? (i := j) ?_, hb⟩
    rw [List.getElem?_set_ne heq]
    exact hj

/-- A replaced input is one place of the inputs. -/
theorem inputs_replaceInput (n : LNode) (i : ℕ) (a : LAllocation) :
    (n.replaceInput i a).inputs = n.inputs.set i a := by
  unfold LNode.replaceInput LNode.inputs
  split_ifs with hlt
  · exact (List.set_append_left i a hlt).symm
  · exact (List.set_append_right i a (Nat.le_of_not_lt hlt)).symm

/-- What is reserved when an input is replaced. -/
theorem reserved_replaceInput {n : LNode} {i : ℕ} {a : LAllocation} {reg : AnyRegister}
    (h : reg ∈ alloc.reserved (n.replaceInput i a)) :
    reg ∈ alloc.reserved n ∨ alloc.reservedBy a = some reg := by
  have houtputs : (n.replaceInput i a).temps = n.temps ∧ (n.replaceInput i a).defs = n.defs := by
    unfold LNode.replaceInput
    split_ifs <;> exact ⟨rfl, rfl⟩
  simp only [reserved, inputs_replaceInput, houtputs, List.mem_append] at h ⊢
  rcases h with (hinput | htemp) | hdef
  · exact (mem_filterMap_set hinput).imp_left fun h => .inl (.inl h)
  · exact .inl (.inl (.inr htemp))
  · exact .inl (.inr hdef)

/-- What stays reserved when an input is replaced. -/
theorem mem_reserved_replaceInput {n : LNode} {i : ℕ} {a : LAllocation} {reg : AnyRegister}
    (hkeep : ∀ x, n.inputs[i]? = some x → alloc.reservedBy x = none ∨ alloc.reservedBy x = alloc.reservedBy a)
    (h : reg ∈ alloc.reserved n) : reg ∈ alloc.reserved (n.replaceInput i a) := by
  have houtputs : (n.replaceInput i a).temps = n.temps ∧ (n.replaceInput i a).defs = n.defs := by
    unfold LNode.replaceInput
    split_ifs <;> exact ⟨rfl, rfl⟩
  simp only [reserved, inputs_replaceInput, houtputs, List.mem_append] at h ⊢
  exact h.imp_left fun h => h.imp_left fun hinput => mem_filterMap_set_of_mem hkeep hinput

/-- Whether a register may be picked. -/
def Candidate (alloc : StupidAllocator) (isFloat : Bool) (n : LNode) (reg : AnyRegister) : Prop :=
  reg.isFloat = isFloat ∧ reg ∉ alloc.reserved n

/-- The better one is the best so far, or a candidate; and it is some register if there was one or the
other one is a candidate. -/
theorem betterRegister_cases (alloc : StupidAllocator) (isFloat : Bool) (s : AllocState) (best : Option AnyRegister)
    (reg : AnyRegister) :
    (alloc.betterRegister isFloat s best reg = best ∧ (best = none → ¬ alloc.Candidate isFloat s.ins reg)) ∨
      (alloc.betterRegister isFloat s best reg = some reg ∧ alloc.Candidate isFloat s.ins reg) := by
  unfold betterRegister
  split_ifs with hclass hreserved hbetter
  · exact .inl ⟨rfl, fun _ h => hclass h.1⟩
  · exact .inl ⟨rfl, fun _ h => h.2 (registerIsReserved_iff.mp hreserved)⟩
  · exact .inr ⟨rfl, not_not.mp hclass, fun h => hreserved (registerIsReserved_iff.mpr h)⟩
  · refine .inl ⟨rfl, fun hnone => absurd ?_ hbetter⟩
    rw [hnone]
    exact Bool.or_true _

/-- A register is picked among candidates, if there is one. -/
theorem foldl_betterRegister (alloc : StupidAllocator) (isFloat : Bool) {s : AllocState}
    (regs : List AnyRegister) (best : Option AnyRegister) (hsome : best ≠ none ∨ ∃ reg ∈ regs, alloc.Candidate isFloat s.ins reg) :
    ∃ reg, regs.foldl (alloc.betterRegister isFloat s) best = some reg ∧
      (best = some reg ∨ reg ∈ regs ∧ alloc.Candidate isFloat s.ins reg) := by
  induction regs generalizing best with
  | nil =>
    cases best with
    | none => exact absurd hsome (by simp)
    | some reg => exact ⟨reg, rfl, .inl rfl⟩
  | cons first rest ih =>
    rw [List.foldl_cons]
    cases betterRegister_cases alloc isFloat s best first with
    | inl hkept =>
      rw [hkept.1]
      have hrest : best ≠ none ∨ ∃ reg ∈ rest, alloc.Candidate isFloat s.ins reg := by
        by_cases hbest : best = none
        · obtain ⟨reg, hreg, hcandidate⟩ := hsome.resolve_left (not_not.mpr hbest)
          cases List.mem_cons.mp hreg with
          | inl hfirst => exact absurd (hfirst ▸ hcandidate) (hkept.2 hbest)
          | inr hmem => exact .inr ⟨reg, hmem, hcandidate⟩
        · exact .inl hbest
      obtain ⟨reg, hfold, hreg⟩ := ih best hrest
      exact ⟨reg, hfold, hreg.imp_right fun h => ⟨List.mem_cons_of_mem first h.1, h.2⟩⟩
    | inr hpicked =>
      rw [hpicked.1]
      obtain ⟨reg, hfold, hreg⟩ := ih (some first) (.inl (Option.some_ne_none first))
      refine ⟨reg, hfold, .inr ?_⟩
      cases hreg with
      | inl hsame => exact Option.some.inj hsame ▸ ⟨List.mem_cons_self, hpicked.2⟩
      | inr hmem => exact ⟨List.mem_cons_of_mem first hmem.1, hmem.2⟩

/-- What still has to be picked for an instruction, given by whether it is held in a floating-point
register, fits beside what is reserved: the registers that the instruction asked for by name, and those
that were taken. -/
def Room (alloc : StupidAllocator) (n₀ : LNode) (pending : List Bool) (n : LNode) : Prop :=
  ∃ taken : List AnyRegister, (∀ reg ∈ alloc.reserved n, reg ∈ alloc.reserved n₀ ∨ reg ∈ taken) ∧
    ∀ isFloat, pending.count isFloat + taken.countP (·.isFloat = isFloat) +
      (alloc.reserved n₀).dedup.countP (·.isFloat = isFloat) ≤
        alloc.allRegisters.countP (·.isFloat = isFloat)

variable {n₀ n n' : LNode} {pending : List Bool} {isFloat : Bool}

/-- There is a register that is not reserved. -/
theorem Room.exists_candidate (hnodup : alloc.allRegisters.Nodup)
    (h : Room alloc n₀ (isFloat :: pending) n) :
    ∃ reg ∈ alloc.allRegisters, alloc.Candidate isFloat n reg := by
  obtain ⟨taken, hreserved, hfits⟩ := h
  by_contra hnone
  push Not at hnone
  have hsub : alloc.allRegisters.filter (·.isFloat = isFloat) ⊆
      (taken ++ (alloc.reserved n₀).dedup).filter (·.isFloat = isFloat) := by
    intro reg hreg
    obtain ⟨hmem, hclass⟩ := List.mem_filter.mp hreg
    have hres : reg ∈ alloc.reserved n := by
      by_contra hfree
      exact hnone reg hmem ⟨of_decide_eq_true hclass, hfree⟩
    refine List.mem_filter.mpr ⟨?_, hclass⟩
    rw [List.mem_append, List.mem_dedup]
    exact (hreserved reg hres).symm
  have hlength := ((hnodup.filter _).subperm hsub).length_le
  rw [← List.countP_eq_length_filter, ← List.countP_eq_length_filter, List.countP_append] at hlength
  have hcount := hfits isFloat
  rw [List.count_cons_self] at hcount
  omega

/-- The register that was picked is taken. -/
theorem Room.take {reg : AnyRegister} (h : Room alloc n₀ (isFloat :: pending) n)
    (hreg : reg.isFloat = isFloat)
    (hreserved : ∀ reg' ∈ alloc.reserved n', reg' ∈ alloc.reserved n ∨ reg' = reg) :
    Room alloc n₀ pending n' := by
  obtain ⟨taken, htaken, hfits⟩ := h
  refine ⟨reg :: taken, fun reg' hreg' => ?_, fun c => ?_⟩
  · cases hreserved reg' hreg' with
    | inl hold => exact (htaken reg' hold).imp_right (List.mem_cons_of_mem reg)
    | inr hnew => exact .inr (hnew ▸ List.mem_cons_self)
  · have hcount := hfits c
    rw [List.count_cons] at hcount
    rw [List.countP_cons]
    by_cases hc : isFloat = c
    · rw [if_pos (beq_iff_eq.mpr hc)] at hcount
      split_ifs <;> omega
    · have hne : ¬ reg.isFloat = c := fun hsame => hc (hreg.symm.trans hsame)
      rw [if_neg (by simpa using hne)]
      omega

/-- A register that was asked for by name, or was reserved already, needs no room. -/
theorem Room.named {reg : AnyRegister} (h : Room alloc n₀ pending n)
    (hreg : reg ∈ alloc.reserved n₀ ∨ reg ∈ alloc.reserved n)
    (hreserved : ∀ reg' ∈ alloc.reserved n', reg' ∈ alloc.reserved n ∨ reg' = reg) :
    Room alloc n₀ pending n' := by
  obtain ⟨taken, htaken, hfits⟩ := h
  refine ⟨taken, fun reg' hreg' => ?_, hfits⟩
  cases hreserved reg' hreg' with
  | inl hold => exact htaken reg' hold
  | inr hnew =>
    rw [hnew]
    exact hreg.elim .inl (htaken reg)

/-- Picking a register evicts what it holds. -/
theorem allocateRegister_of_room (hnodup : alloc.allRegisters.Nodup) {v : ℕ} {s : AllocState}
    (hv : alloc.Known v) (h : Room alloc n₀ (alloc.isFloat v :: pending) s.ins) :
    ∃ best ∈ alloc.allRegisters, alloc.Candidate (alloc.isFloat v) s.ins best ∧
      alloc.allocateRegister v s = some (best, alloc.evictRegister best s) := by
  obtain ⟨d, hd⟩ := Option.isSome_iff_exists.mp hv
  have hclass : alloc.isFloat v = d.isFloatReg := by rw [StupidAllocator.isFloat, hd, Option.any_some]
  obtain ⟨best, hfold, hbest⟩ := foldl_betterRegister alloc (alloc.isFloat v)
    alloc.allRegisters none (.inr (h.exists_candidate hnodup))
  obtain ⟨hmem, hcandidate⟩ := hbest.resolve_left nofun
  refine ⟨best, hmem, hcandidate, ?_⟩
  rw [hclass] at hfold
  simp only [allocateRegister, hd, hfold]

end SpiderMonkey.Jit.LIR.StupidAllocator
