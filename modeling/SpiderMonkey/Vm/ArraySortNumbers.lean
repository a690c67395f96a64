import SpiderMonkey.Ds.SortOrder
import SpiderMonkey.Vm.ArraySortByKey

/-!
# Sorting by a difference

A function that subtracts its arguments is recognised, and numbers are compared without calling it. The
answers are the same unless one of two numbers is not a number: a difference that is not a number counts
as in order, and a comparison with what is not a number as out of order. So it is only without such
values, or with no others, that the order of an array never matters.
-/

namespace SpiderMonkey.Vm.ArraySort

open Lib
open Ds.Sort

variable {conv : Conversions} {code : List UInt8} {comp : ComparatorMatchResult} {v w : Value}
  {vec : List Value}

/-! ## What is recognised -/

/-- Where something is recognised, no test has gone the other way. -/
theorem of_ite_none {p : Prop} [Decidable p] {r : Option ComparatorMatchResult}
    (h : (if p then some .none else r) = some comp) (hcomp : comp ≠ .none) : ¬p ∧ r = some comp := by
  by_cases hp : p
  · rw [if_pos hp] at h
    exact absurd (Option.some_inj.mp h).symm hcomp
  · rw [if_neg hp] at h
    exact ⟨hp, h⟩

/-- The instructions of a function that is recognised, and the arguments that they get. -/
theorem matchNumericComparator_cases (hmatch : matchNumericComparator code = some comp)
    (hcomp : comp ≠ .none) :
    ∃ i j, code[0]? = some JSOP_GETARG ∧ getArgno code 0 = some i ∧
      code[3]? = some JSOP_GETARG ∧ getArgno code 3 = some j ∧
      code[6]? = some JSOP_SUB ∧ code[7]? = some JSOP_RETURN ∧
      ((comp = .leftMinusRight ∧ i = 0 ∧ j = 1) ∨ (comp = .rightMinusLeft ∧ i = 1 ∧ j = 0)) := by
  obtain ⟨op0, hop0, h⟩ := Option.bind_eq_some_iff.mp hmatch
  obtain ⟨hgetarg0, h⟩ := of_ite_none h hcomp
  obtain ⟨i, hi, h⟩ := Option.bind_eq_some_iff.mp h
  obtain ⟨op3, hop3, h⟩ := Option.bind_eq_some_iff.mp h
  obtain ⟨hgetarg3, h⟩ := of_ite_none h hcomp
  obtain ⟨j, hj, h⟩ := Option.bind_eq_some_iff.mp h
  obtain ⟨op6, hop6, h⟩ := Option.bind_eq_some_iff.mp h
  obtain ⟨hsub, h⟩ := of_ite_none h hcomp
  obtain ⟨op7, hop7, h⟩ := Option.bind_eq_some_iff.mp h
  obtain ⟨hreturn, h⟩ := of_ite_none h hcomp
  rw [not_not] at hgetarg0 hgetarg3 hsub hreturn
  subst hgetarg0 hgetarg3 hsub hreturn
  refine ⟨i, j, hop0, hi, hop3, hj, hop6, hop7, ?_⟩
  by_cases hleft : i = 0 ∧ j = 1
  · rw [if_pos hleft] at h
    exact Or.inl ⟨(Option.some_inj.mp h).symm, hleft⟩
  · rw [if_neg hleft] at h
    by_cases hright : i = 1 ∧ j = 0
    · rw [if_pos hright] at h
      exact Or.inr ⟨(Option.some_inj.mp h).symm, hright⟩
    · rw [if_neg hright] at h
      exact absurd (Option.some_inj.mp h).symm hcomp

/-- A function that is recognised returns a difference of its arguments. -/
theorem interpret_of_match (conv : Conversions) {i j : ℕ} (args : List Value) (hop0 : code[0]? = some JSOP_GETARG)
    (hi : getArgno code 0 = some i) (hop3 : code[3]? = some JSOP_GETARG)
    (hj : getArgno code 3 = some j) (hop6 : code[6]? = some JSOP_SUB)
    (hop7 : code[7]? = some JSOP_RETURN) :
    interpret conv code args (code.length + 1) 0 [] =
      some (.double (ExtRat.sub (toNumber conv (args.getD i .undefined))
        (toNumber conv (args.getD j .undefined)))) := by
  have hlength : 7 < code.length := (List.getElem?_eq_some_iff.mp hop7).1
  obtain ⟨n, hn⟩ := Nat.exists_eq_add_of_le (show 4 ≤ code.length + 1 by omega)
  have hsub : JSOP_SUB ≠ JSOP_GETARG := by decide
  have hreturn : JSOP_RETURN ≠ JSOP_GETARG := by decide
  have hreturn' : JSOP_RETURN ≠ JSOP_SUB := by decide
  rw [hn, Nat.add_comm]
  simp only [interpret, hop0, hi, hop3, hj, hop6, hop7, Nat.zero_add, Option.bind_eq_bind,
    Option.bind_some, Nat.reduceAdd, if_true, if_neg hsub, if_neg hreturn, if_neg hreturn',
    List.head?_cons]

/-! ## Answers -/

/-- Whether a difference counts as in order. -/
def differenceLE (x y : ExtRat) : Bool :=
  ExtRat.sub x y = .nan || lessOrEqual (ExtRat.sub x y) (.finite 0)

/-- A difference counts as in order if one of the two is not a number, or else as their comparison. -/
theorem differenceLE_eq (x y : ExtRat) :
    differenceLE x y = (decide (x = .nan) || decide (y = .nan) || lessOrEqual x y) := by
  cases x <;> cases y <;>
    simp [differenceLE, ExtRat.sub, ExtRat.add, ExtRat.neg, lessOrEqual, ← sub_eq_add_neg]

/-- Nothing that is not a number is compared as in order. -/
theorem lessOrEqual_nan (x : ExtRat) : lessOrEqual x .nan = false ∧ lessOrEqual .nan x = false := by
  cases x <;> exact ⟨rfl, rfl⟩

/-- Any two numbers are in order. -/
theorem lessOrEqual_total {x y : ExtRat} (hx : x ≠ .nan) (hy : y ≠ .nan) :
    lessOrEqual x y = true ∨ lessOrEqual y x = true := by
  cases x <;> cases y <;> simp_all [lessOrEqual, le_total]

/-- The order of numbers is transitive. -/
theorem lessOrEqual_trans {x y z : ExtRat} (hxy : lessOrEqual x y = true)
    (hyz : lessOrEqual y z = true) : lessOrEqual x z = true := by
  cases x <;> cases y <;> cases z <;> simp_all [lessOrEqual]
  exact le_trans hxy hyz

/-- Numbers in the order that a function asks for. -/
def numericLE (conv : Conversions) : ComparatorMatchResult → Value → Value → Bool
  | .leftMinusRight => fun v w => lessOrEqual (toNumber conv v) (toNumber conv w)
  | .rightMinusLeft => fun v w => lessOrEqual (toNumber conv w) (toNumber conv v)
  | .none => fun _ _ => false

/-- Whether the number of a value is not one. -/
def isNaN (conv : Conversions) (v : Value) : Bool := toNumber conv v = .nan

/-- Among numbers one value is not a number. -/
theorem isNaN_iff (conv : Conversions) (hv : v.isNumber = true) :
    isNaN conv v = true ↔ v = .double .nan := by
  rw [isNaN, decide_eq_true_eq]
  cases v with
  | int32 i => simp only [toNumber, reduceCtorEq]
  | double d => simp only [toNumber, Value.double.injEq]
  | negativeZero => simp only [toNumber, reduceCtorEq]
  | _ => cases hv

/-- Nothing that is not a number is in order with anything. -/
theorem numericLE_of_isNaN (h : isNaN conv v = true ∨ isNaN conv w = true) :
    numericLE conv comp v w = false := by
  rw [isNaN, isNaN, decide_eq_true_eq, decide_eq_true_eq] at h
  cases comp <;> rcases h with h | h <;> simp [numericLE, h, lessOrEqual_nan]

section Recognised

variable (hmatch : matchNumericComparator code = some comp) (hcomp : comp ≠ .none)
include hmatch hcomp

/-- Calling a function that is recognised. -/
theorem sortComparatorFunction_eq (hv : v ≠ .undefined) (hw : w ≠ .undefined) :
    sortComparatorFunction conv code v w =
      some (isNaN conv v || isNaN conv w || numericLE conv comp v w) := by
  obtain ⟨i, j, hop0, hi, hop3, hj, hop6, hop7, hargs⟩ := matchNumericComparator_cases hmatch hcomp
  have hrun := interpret_of_match conv [v, w] hop0 hi hop3 hj hop6 hop7
  simp only [sortComparatorFunction, guard, if_pos (And.intro hv hw), hrun, Option.pure_def,
    Option.bind_eq_bind, Option.bind_some, toNumber, Option.some_inj]
  change differenceLE _ _ = _
  rw [differenceLE_eq]
  rcases hargs with ⟨rfl, rfl, rfl⟩ | ⟨rfl, rfl, rfl⟩
  · rfl
  · rw [Bool.or_comm (isNaN conv v)]
    rfl

omit hmatch in
/-- Comparing integers. -/
theorem sortComparatorInt32s_eq (hv : v.isInt32 = true) (hw : w.isInt32 = true) :
    sortComparatorInt32s comp v w = some (numericLE conv comp v w) := by
  cases v <;> simp only [Value.isInt32, Bool.false_eq_true] at hv
  cases w <;> simp only [Value.isInt32, Bool.false_eq_true] at hw
  cases comp with
  | none => exact absurd rfl hcomp
  | leftMinusRight => simp [sortComparatorInt32s, numericLE, toNumber, lessOrEqual]
  | rightMinusLeft => simp [sortComparatorInt32s, numericLE, toNumber, lessOrEqual]

omit hmatch in
/-- Sorting by the numbers of the values. -/
theorem sortNumerically_eq (vec : List Value) :
    sortNumerically conv vec comp = mergeSort (fun v w => some (numericLE conv comp v w)) vec := by
  have hkey (p : Value × Keyed ExtRat)
      (hp : p ∈ vec.zip (vec.zipIdx.map fun q => (⟨toNumber conv q.1, q.2⟩ : Keyed ExtRat))) :
      p.2.key = toNumber conv p.1 := by
    obtain ⟨i, hi⟩ := List.mem_iff_getElem?.mp hp
    obtain ⟨hv, hk⟩ := List.getElem?_zip_eq_some.mp hi
    rw [List.getElem?_map, List.getElem?_zipIdx, hv] at hk
    exact (congrArg Keyed.key (Option.some_inj.mp hk)).symm
  apply mergeSortByKey_zip
  · rw [List.map_map, List.range_eq_range']
    exact List.zipIdx_map_snd 0 vec
  · intro p hp q hq
    cases comp with
    | none => exact absurd rfl hcomp
    | leftMinusRight => simp only [sortComparatorNumerics, hkey p hp, hkey q hq, numericLE]
    | rightMinusLeft => simp only [sortComparatorNumerics, hkey p hp, hkey q hq, numericLE]

/-- Without calling the function numbers are sorted in the order that it asks for. -/
theorem sortByFunction_eq (vec : List Value) :
    sortByFunction conv code vec = mergeSort (fun v w => some (numericLE conv comp v w)) vec := by
  simp only [sortByFunction, hmatch, Option.bind_eq_bind, Option.bind_some, if_pos hcomp]
  split_ifs with hints
  · apply mergeSort_congr
    intro v hv w hw
    exact sortComparatorInt32s_eq hcomp (List.all_eq_true.mp hints v hv)
      (List.all_eq_true.mp hints w hw)
  · exact sortNumerically_eq hcomp vec

/-- What calling the function answers is what the comparison does, unless one of the two is not a
number. -/
theorem sortComparatorNumerics_agree_iff (i j : ℕ) (hv : v.isNumber = true) (hw : w.isNumber = true) :
    sortComparatorNumerics comp ⟨toNumber conv v, i⟩ ⟨toNumber conv w, j⟩ =
        sortComparatorFunction conv code v w ↔
      v ≠ .double .nan ∧ w ≠ .double .nan := by
  have hv' : v ≠ .undefined := by
    rintro rfl
    cases hv
  have hw' : w ≠ .undefined := by
    rintro rfl
    cases hw
  have hfast : sortComparatorNumerics comp ⟨toNumber conv v, i⟩ ⟨toNumber conv w, j⟩ =
      some (numericLE conv comp v w) := by
    cases comp with
    | none => exact absurd rfl hcomp
    | leftMinusRight => rfl
    | rightMinusLeft => rfl
  rw [hfast, sortComparatorFunction_eq hmatch hcomp hv' hw', Option.some_inj, ne_eq, ne_eq,
    ← isNaN_iff conv hv, ← isNaN_iff conv hw]
  by_cases hnan : isNaN conv v = true ∨ isNaN conv w = true
  · rw [numericLE_of_isNaN hnan]
    rcases hnan with hnan | hnan <;> simp [hnan]
  · obtain ⟨hvnan, hwnan⟩ := not_or.mp hnan
    rw [Bool.not_eq_true] at hvnan hwnan
    simp [hvnan, hwnan]

end Recognised

/-! ## Arrays -/

/-- Numbers in the order that a function asks for, and what is not a number behind them. -/
def rankLE (conv : Conversions) (comp : ComparatorMatchResult) (v w : Value) : Bool :=
  isNaN conv w || (!isNaN conv v && numericLE conv comp v w)

/-- The order with what is not a number at the end is total and transitive. -/
theorem rankLE_isTotalPreorder (conv : Conversions) (hcomp : comp ≠ .none) :
    IsTotalPreorder (rankLE conv comp) := by
  constructor
  · intro v w
    by_cases hv : toNumber conv v = .nan
    · exact Or.inr (by simp [rankLE, isNaN, hv])
    by_cases hw : toNumber conv w = .nan
    · exact Or.inl (by simp [rankLE, isNaN, hw])
    simp only [rankLE, isNaN, hv, hw, decide_false, Bool.not_false, Bool.true_and, Bool.false_or]
    cases comp with
    | none => exact absurd rfl hcomp
    | leftMinusRight => exact lessOrEqual_total hv hw
    | rightMinusLeft => exact lessOrEqual_total hw hv
  · intro u v w huv hvw
    simp only [rankLE, Bool.or_eq_true, Bool.and_eq_true, Bool.not_eq_true'] at huv hvw ⊢
    rcases hvw with hw | ⟨hv, hvw⟩
    · exact Or.inl hw
    · rcases huv with hv' | ⟨hu, huv⟩
      · rw [hv'] at hv
        cases hv
      · refine Or.inr ⟨hu, ?_⟩
        cases comp with
        | none => exact absurd rfl hcomp
        | leftMinusRight => exact lessOrEqual_trans huv hvw
        | rightMinusLeft => exact lessOrEqual_trans hvw huv

section Recognised

variable (hmatch : matchNumericComparator code = some comp) (hcomp : comp ≠ .none)
  (hnumbers : ∀ v ∈ vec, v.isNumber = true)
include hmatch hcomp hnumbers

/-- Numbers are not undefined. -/
theorem sortComparatorFunction_numbers {v w : Value} (hv : v ∈ vec) (hw : w ∈ vec) :
    sortComparatorFunction conv code v w =
      some (isNaN conv v || isNaN conv w || numericLE conv comp v w) := by
  have hundefined (u : Value) (hu : u ∈ vec) : u ≠ .undefined := by
    rintro rfl
    cases hnumbers _ hu
  exact sortComparatorFunction_eq hmatch hcomp (hundefined v hv) (hundefined w hw)

/-- Without what is not a number calling the function makes no difference. -/
theorem sortByFunction_of_forall_ne (h : ∀ v ∈ vec, v ≠ .double .nan) :
    sortByFunction conv code vec = mergeSort (sortComparatorFunction conv code) vec := by
  rw [sortByFunction_eq hmatch hcomp]
  apply mergeSort_congr
  intro v hv w hw
  have hnan (u : Value) (hu : u ∈ vec) : isNaN conv u = false := by
    rw [← Bool.not_eq_true, isNaN_iff conv (hnumbers u hu)]
    exact h u hu
  rw [sortComparatorFunction_numbers hmatch hcomp hnumbers hv hw, hnan v hv, hnan w hw]
  rfl

/-- With nothing but what is not a number calling the function makes no difference. -/
theorem sortByFunction_of_forall_eq (h : ∀ v ∈ vec, v = .double .nan) :
    sortByFunction conv code vec = mergeSort (sortComparatorFunction conv code) vec := by
  have hcall : mergeSort (sortComparatorFunction conv code) vec = some vec := by
    apply mergeSort_inOrder
    apply List.pairwise_of_forall_mem_list
    intro v hv w hw
    rw [sortComparatorFunction_numbers hmatch hcomp hnumbers hv hw,
      (isNaN_iff conv (hnumbers v hv)).mpr (h v hv)]
    rfl
  obtain ⟨r, hr⟩ := mergeSort_isSome (c := fun v w => some (numericLE conv comp v w))
    (fun _ _ => ⟨_, rfl⟩) vec
  have hperm := mergeSort_perm hr
  have hsame : r = vec := by
    have hvec := List.eq_replicate_of_mem h
    rw [hvec, List.perm_replicate] at hperm
    rw [hperm, ← hvec]
  rw [hcall, sortByFunction_eq hmatch hcomp, hr, hsame]

/-- With something that is not a number, and a number, calling the function makes a difference for some
order of the elements. -/
theorem exists_perm_sortByFunction_ne {u : Value} (hnan : .double .nan ∈ vec) (hu : u ∈ vec)
    (hne : u ≠ .double .nan) :
    ∃ vec', vec'.Perm vec ∧
      sortByFunction conv code vec' ≠ mergeSort (sortComparatorFunction conv code) vec' := by
  obtain ⟨sorted, _, hsorted⟩ := mergeSort_sorts (rankLE_isTotalPreorder conv hcomp)
    (c := fun v w => some (rankLE conv comp v w)) (fun _ _ => rfl) vec
  have hperm := hsorted.stable.perm
  refine ⟨sorted, hperm, ?_⟩
  have hisNaN {v : Value} (hv : v ∈ sorted) : isNaN conv v = true ↔ v = .double .nan :=
    isNaN_iff conv (hnumbers v (hperm.mem_iff.mp hv))
  -- called, the function leaves the elements in this order
  have hcall : mergeSort (sortComparatorFunction conv code) sorted = some sorted := by
    apply mergeSort_inOrder
    apply hsorted.sorted.imp_of_mem
    intro v w hv hw hle
    rw [sortComparatorFunction_numbers hmatch hcomp hnumbers (hperm.mem_iff.mp hv)
      (hperm.mem_iff.mp hw)]
    simp only [rankLE, Bool.or_eq_true, Bool.and_eq_true] at hle
    rcases hle with hw' | ⟨_, hvw⟩
    · simp [hw']
    · simp [hvw]
  -- nothing but what is not a number is behind what is not a number
  have hbehind {v : Value} (hv : v ∈ sorted) (hle : rankLE conv comp (.double .nan) v = true) :
      v = .double .nan := by
    rw [← hisNaN hv]
    simpa [rankLE, isNaN, toNumber] using hle
  obtain ⟨front, hfront⟩ : ∃ front, sorted = front ++ [.double .nan] := by
    rcases List.eq_nil_or_concat' sorted with hnil | ⟨front, z, hconcat⟩
    · rw [hnil] at hperm
      rw [hperm.symm.eq_nil] at hnan
      cases hnan
    · refine ⟨front, ?_⟩
      have hmem := hperm.mem_iff.mpr hnan
      have hz : z ∈ sorted := hconcat ▸ List.mem_concat_self
      have hpairs := hsorted.sorted
      rw [hconcat] at hmem hpairs
      rcases List.mem_append.mp hmem with hmem | hmem
      · have hle := (List.pairwise_append.mp hpairs).2.2 _ hmem z (List.mem_singleton_self z)
        rw [hconcat, hbehind hz hle]
      · rw [hconcat, List.mem_singleton.mp hmem]
  rw [hcall, sortByFunction_eq hmatch hcomp]
  intro heq
  have hlast := heq
  rw [hfront] at hlast
  have hfalse (v : Value) : some (numericLE conv comp v (.double .nan)) = some false := by
    rw [numericLE_of_isNaN (Or.inr (decide_eq_true rfl))]
  obtain ⟨back, hback⟩ := mergeSort_last hfalse hlast
  rw [← hfront] at hback
  -- not called, it would have brought what is not a number to the front
  have hmem := hperm.mem_iff.mpr hu
  have hpairs := hsorted.sorted
  rw [hback] at hmem hpairs
  rcases List.mem_cons.mp hmem with hhead | hmem'
  · exact hne hhead
  · exact hne (hbehind (hperm.mem_iff.mpr hu) ((List.pairwise_cons.mp hpairs).1 u hmem'))

end Recognised

/-- Functions that are recognised: the answers for two numbers are those of calling the function unless
one of them is not a number, and an array of numbers is sorted in any order of its elements as by
calling it if and only if none of them, or each, is not a number. -/
theorem sortByFunction_transparent_iff (conv : Conversions) (code : List UInt8)
    (comp : ComparatorMatchResult) (hmatch : matchNumericComparator code = some comp)
    (hcomp : comp ≠ .none) :
    (∀ v w i j, v.isNumber = true → w.isNumber = true →
      (sortComparatorNumerics comp ⟨toNumber conv v, i⟩ ⟨toNumber conv w, j⟩ =
          sortComparatorFunction conv code v w ↔
        v ≠ .double .nan ∧ w ≠ .double .nan)) ∧
    ∀ vec, (∀ v ∈ vec, v.isNumber = true) →
      ((∀ vec', vec'.Perm vec →
          sortByFunction conv code vec' = mergeSort (sortComparatorFunction conv code) vec') ↔
        (∀ v ∈ vec, v ≠ .double .nan) ∨ ∀ v ∈ vec, v = .double .nan) := by
  constructor
  · intro v w i j hv hw
    exact sortComparatorNumerics_agree_iff hmatch hcomp i j hv hw
  · intro vec hnumbers
    constructor
    · intro hagree
      by_contra hmixed
      obtain ⟨hnan, hnumber⟩ := not_or.mp hmixed
      simp only [not_forall, not_not] at hnan hnumber
      obtain ⟨_, hmem, rfl⟩ := hnan
      obtain ⟨u, hu, hne⟩ := hnumber
      obtain ⟨vec', hperm, hdiffer⟩ :=
        exists_perm_sortByFunction_ne hmatch hcomp hnumbers hmem hu hne
      exact hdiffer (hagree vec' hperm)
    · intro h vec' hperm
      have hnumbers' : ∀ v ∈ vec', v.isNumber = true := fun v hv =>
        hnumbers v (hperm.mem_iff.mp hv)
      rcases h with h | h
      · exact sortByFunction_of_forall_ne hmatch hcomp hnumbers' fun v hv =>
          h v (hperm.mem_iff.mp hv)
      · exact sortByFunction_of_forall_eq hmatch hcomp hnumbers' fun v hv =>
          h v (hperm.mem_iff.mp hv)

/-- For a function that subtracts the second argument from the first, and an array of two numbers. -/
theorem sortByFunction_transparent_iff_two :
    sortByFunction ⟨fun _ => [], fun _ => .nan⟩ [84, 0, 0, 84, 0, 1, 28, 5]
        [.int32 2, .double .posInf] =
      mergeSort (sortComparatorFunction ⟨fun _ => [], fun _ => .nan⟩ [84, 0, 0, 84, 0, 1, 28, 5])
        [.int32 2, .double .posInf] := by
  have hiff := (sortByFunction_transparent_iff ⟨fun _ => [], fun _ => .nan⟩
    [84, 0, 0, 84, 0, 1, 28, 5] .leftMinusRight (by decide) (by decide)).2
    [.int32 2, .double .posInf] (by decide)
  exact hiff.mpr (Or.inl (by decide)) _ (List.Perm.refl _)

/-- What is not a number comes to the front if the function is not called, and stays behind if it is. -/
theorem sortByFunction_not_transparent :
    matchNumericComparator [84, 0, 0, 84, 0, 1, 28, 5] = some .leftMinusRight ∧
    array_sort ⟨fun _ => [], fun _ => .nan⟩ (some [84, 0, 0, 84, 0, 1, 28, 5])
        [some (.int32 1), some (.double .nan)] =
      some [some (.double .nan), some (.int32 1)] ∧
    sortByFunction ⟨fun _ => [], fun _ => .nan⟩ [84, 0, 0, 84, 0, 1, 28, 5]
        [.int32 1, .double .nan] = some [.double .nan, .int32 1] ∧
    mergeSort (sortComparatorFunction ⟨fun _ => [], fun _ => .nan⟩ [84, 0, 0, 84, 0, 1, 28, 5])
        [.int32 1, .double .nan] = some [.int32 1, .double .nan] := by
  decide +kernel

end SpiderMonkey.Vm.ArraySort
