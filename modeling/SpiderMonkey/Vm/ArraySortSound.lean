import SpiderMonkey.Vm.ArraySortByKey
import SpiderMonkey.Vm.ArraySortDigits

/-!
# Sorting without a function

The comparators for strings, for integers and for slices of all strings give the same answers as
comparing the strings of the values, so that the three ways sort the same. What was counted comes last.
-/

namespace SpiderMonkey.Vm.ArraySort

open Lib
open Ds.Sort (Comparator mergeSort mergeSort_sorts mergeSort_perm mergeSort_congr)

variable {K V : Type} (conv : Conversions)

/-! ## The three ways -/

/-- Values in the order of their strings. -/
def stringLE (v w : Value) : Bool := unitLE (valueToString conv v) (valueToString conv w)

/-- Comparing the strings of values. -/
def compareStrings : Comparator Value := fun v w => some (stringLE conv v w)

/-- The strings of values, one behind the other, end with those that were put there first, and each
value's own one is a slice. -/
theorem stringifyElements_spec (vec : List Value) (i : ℕ) (sb : List UInt16) :
    ((stringifyElements conv vec i sb).1.map Keyed.elementIndex = List.range' i vec.length) ∧
      (∃ rest, (stringifyElements conv vec i sb).2 = sb ++ rest) ∧
      ∀ p ∈ vec.zip (stringifyElements conv vec i sb).1,
        p.2.key.2 ≤ (stringifyElements conv vec i sb).2.length ∧
        ((stringifyElements conv vec i sb).2.drop p.2.key.1).take (p.2.key.2 - p.2.key.1) =
          valueToString conv p.1 := by
  induction vec generalizing i sb with
  | nil => exact ⟨rfl, ⟨[], (List.append_nil sb).symm⟩, nofun⟩
  | cons v vec ih =>
    obtain ⟨hindex, ⟨rest, hrest⟩, hslice⟩ := ih (i + 1) (sb ++ valueToString conv v)
    simp only [stringifyElements]
    refine ⟨?_, ⟨valueToString conv v ++ rest, by rw [hrest, List.append_assoc]⟩, ?_⟩
    · rw [List.map_cons, hindex]
      rfl
    · intro p hp
      rw [List.zip_cons_cons] at hp
      rcases List.mem_cons.mp hp with rfl | hp
      · dsimp only
        rw [hrest]
        constructor
        · have hlength := @List.length_append _ (sb ++ valueToString conv v) rest
          omega
        · rw [List.length_append, Nat.add_sub_cancel_left, List.append_assoc, List.drop_left,
            List.take_left]
      · exact hslice p hp

/-- Sorting by slices of all strings is sorting by the strings of the values. -/
theorem sortLexicographically_eq (vec : List Value) :
    sortLexicographically conv vec = mergeSort (compareStrings conv) vec := by
  obtain ⟨hindex, _, hslice⟩ := stringifyElements_spec conv vec 0 []
  apply mergeSortByKey_zip
  · rw [hindex, List.range_eq_range']
  · intro p hp q hq
    obtain ⟨hpbound, hpslice⟩ := hslice p hp
    obtain ⟨hqbound, hqslice⟩ := hslice q hq
    simp only [sortComparatorStringifiedElements, guard, if_pos (And.intro hpbound hqbound), hpslice,
      hqslice, compareChars_le]
    rfl

/-- All ways are sorting by the strings of the values. -/
theorem sortByDefault_eq (vec : List Value) :
    sortByDefault conv vec = mergeSort (compareStrings conv) vec := by
  rw [sortByDefault]
  split_ifs with hstrings hints
  · apply mergeSort_congr
    intro v hv w hw
    have hv' := List.all_eq_true.mp hstrings v hv
    have hw' := List.all_eq_true.mp hstrings w hw
    cases v with
    | string a =>
      cases w with
      | string b => exact congrArg some (compareChars_le a b)
      | _ => cases hw'
    | _ => cases hv'
  · apply mergeSort_congr
    intro v hv w hw
    have hv' := List.all_eq_true.mp hints v hv
    have hw' := List.all_eq_true.mp hints w hw
    cases v with
    | int32 a =>
      cases w with
      | int32 b => exact compareLexicographicInt32_eq a b
      | _ => cases hw'
    | _ => cases hv'
  · exact sortLexicographically_eq conv vec

/-! ## Undefined values and holes -/

/-- What an array is sorted to: the values in order, the undefined ones and the holes. -/
def sortedElements (obj : Elements) (sorted : List Value) : Elements :=
  sorted.map some ++ List.replicate (countUndefs obj) (some .undefined) ++
    List.replicate (obj.count none) none

/-- Undefined values take the place of what is there. -/
theorem setUndefs_append (xs ys zs : Elements) :
    setUndefs (xs ++ (ys ++ zs)) xs.length ys.length =
      xs ++ (List.replicate ys.length (some .undefined) ++ zs) := by
  induction ys using List.reverseRecOn generalizing zs with
  | nil => rfl
  | append_singleton ys y ih =>
    have hlength : (ys ++ [y]).length = ys.length + 1 := List.length_append
    have hstep : setUndefs (xs ++ (ys ++ [y] ++ zs)) xs.length (ys.length + 1) =
        (setUndefs (xs ++ (ys ++ ([y] ++ zs))) xs.length ys.length).set (xs.length + ys.length)
          (some .undefined) := by
      rw [setUndefs, List.range_succ, List.foldl_append, List.append_assoc ys]
      rfl
    rw [hlength, hstep, ih, List.replicate_succ', List.append_assoc, List.set_append_right _ _ (by omega),
      Nat.add_sub_cancel_left, List.set_append_right _ _ (by rw [List.length_replicate]),
      List.length_replicate, Nat.sub_self]
    rfl

/-- Holes take the place of what is there. -/
theorem deleteElements_append (xs ys zs : Elements) :
    deleteElements (xs.length + ys.length) xs.length (xs ++ (ys ++ zs)) =
      xs ++ (List.replicate ys.length none ++ zs) := by
  induction ys using List.reverseRecOn generalizing zs with
  | nil =>
    cases hlength : xs.length with
    | zero => rfl
    | succ n =>
      rw [List.length_nil, Nat.add_zero, deleteElements, if_neg (Nat.lt_irrefl _)]
      rfl
  | append_singleton ys y ih =>
    rw [List.length_append, List.length_singleton, ← Nat.add_assoc, deleteElements,
      if_pos (by omega), List.set_append_right _ _ (by omega), Nat.add_sub_cancel_left,
      List.append_assoc, List.set_append_right _ _ (Nat.le_refl _), Nat.sub_self]
    rw [List.singleton_append, List.set_cons_zero, ih, List.replicate_succ', List.append_assoc]
    rfl

/-- The values, the undefined ones and the holes. -/
theorem length_definedValues (obj : Elements) :
    (definedValues obj).length + countUndefs obj + obj.count none = obj.length := by
  induction obj with
  | nil => rfl
  | cons v obj ih =>
    rw [definedValues, countUndefs] at ih ⊢
    rw [List.count_cons, List.count_cons, List.length_cons]
    cases v with
    | none => simp; omega
    | some v => cases v <;> simp <;> omega

/-- Undefined values and holes come to the end. -/
theorem deleteElements_setUndefs (obj : Elements) {vec : List Value}
    (hlength : vec.length + countUndefs obj + obj.count none = obj.length) :
    deleteElements obj.length (vec.length + countUndefs obj)
        (setUndefs (vec.map some ++ obj.drop vec.length) vec.length (countUndefs obj)) =
      sortedElements obj vec := by
  obtain ⟨ys, zs, hsplit, hys⟩ : ∃ ys zs, obj.drop vec.length = ys ++ zs ∧
      ys.length = countUndefs obj :=
    ⟨_, _, (List.take_append_drop (countUndefs obj) _).symm, by
      rw [List.length_take, List.length_drop]
      omega⟩
  have hzs : zs.length = obj.count none := by
    have hdrop := congrArg List.length hsplit
    rw [List.length_drop, List.length_append] at hdrop
    omega
  have hset := setUndefs_append (vec.map some) ys zs
  have hdelete := deleteElements_append
    (vec.map some ++ List.replicate (countUndefs obj) (some .undefined)) zs []
  rw [List.length_map, hys] at hset
  rw [List.length_append, List.length_map, List.length_replicate, hzs, hlength, List.append_nil,
    List.append_nil, List.append_assoc] at hdelete
  rw [hsplit, hset, hdelete, sortedElements, List.append_assoc]

/-- An array of at most one element is sorted. -/
theorem sortedElements_of_short {obj : Elements} (hshort : obj.length < 2) :
    sortedElements obj (definedValues obj) = obj := by
  match obj, hshort with
  | [], _ => rfl
  | [none], _ => rfl
  | [some v], _ => cases v <;> rfl

/-- An array of holes is sorted. -/
theorem sortedElements_of_holes {obj : Elements} (hholes : obj.count none = obj.length)
    (hundefs : countUndefs obj = 0) : sortedElements obj [] = obj := by
  rw [sortedElements, hundefs, hholes]
  exact (List.eq_replicate_of_mem fun v hv => (List.count_eq_length.mp hholes v hv).symm).symm

/-- An array is sorted to the values in the order of their strings, the undefined ones and the
holes. -/
theorem array_sort_none (obj : Elements) :
    ∃ sorted, IsStableSort (fun v w => stringLE conv v w) (definedValues obj) sorted ∧
      array_sort conv none obj = some (sortedElements obj sorted) := by
  obtain ⟨sorted, hsort, hstable⟩ := mergeSort_sorts (unitLE_isTotalPreorder (valueToString conv))
    (c := compareStrings conv) (fun _ _ => rfl) (definedValues obj)
  have hlength := length_definedValues obj
  have hsame : sorted.length = (definedValues obj).length := hstable.stable.perm.length_eq
  refine ⟨sorted, hstable, ?_⟩
  simp only [array_sort]
  split_ifs with hshort hholes
  · have hle : (definedValues obj).length ≤ 1 := by omega
    have heq : definedValues obj = sorted := by
      rw [mergeSort, if_pos hle] at hsort
      exact Option.some_inj.mp hsort
    rw [← heq, sortedElements_of_short hshort]
  · have hnil : sorted = [] := List.length_eq_zero_iff.mp (hsame.trans hholes.1)
    rw [hnil, sortedElements_of_holes (by omega) hholes.2]
  · rw [sortByDefault_eq, hsort]
    simp only [Option.bind_eq_bind, Option.bind_some, ← hsame]
    rw [deleteElements_setUndefs obj (by omega)]

/-- Without a function an array is sorted to the values in a stable order of their strings, the
undefined ones and the holes; integers are compared as their strings; and sorting by keys puts the
elements in the order that the keys are sorted to. -/
theorem array_sort_default_sorts (conv : Conversions) :
    (∀ obj, ∃ sorted,
      IsStableSort (fun v w => unitLE (valueToString conv v) (valueToString conv w))
        (definedValues obj) sorted ∧
      array_sort conv none obj = some (sorted.map some ++
        List.replicate (countUndefs obj) (some .undefined) ++
        List.replicate (obj.count none) none)) ∧
    (∀ a b : Int32,
      compareLexicographicInt32 a b = some (unitLE (int32ToString a) (int32ToString b))) ∧
    ∀ (K V : Type) (c : Comparator (Keyed K)) (keys : List (Keyed K)) (vec : List V),
      (keys.map Keyed.elementIndex).Perm (List.range vec.length) →
        mergeSortByKey c keys vec =
          (mergeSort c keys).bind fun sorted => sorted.mapM fun key => vec[key.elementIndex]? :=
  ⟨array_sort_none conv, compareLexicographicInt32_eq, fun _ _ c _ _ => mergeSortByKey_eq c⟩

/-- Three elements are sorted by their keys. -/
theorem array_sort_default_sorts_keys :
    mergeSortByKey (fun a b : Keyed ℕ => some (a.key ≤ b.key)) [⟨30, 0⟩, ⟨10, 1⟩, ⟨20, 2⟩]
      [.null, .boolean true, .boolean false] = some [Value.boolean true, .boolean false, .null] := by
  have hsort := (array_sort_default_sorts ⟨fun _ => [], fun _ => .nan⟩).2.2 ℕ Value
    (fun a b => some (a.key ≤ b.key)) [⟨30, 0⟩, ⟨10, 1⟩, ⟨20, 2⟩]
    [.null, .boolean true, .boolean false] (by decide)
  rw [hsort]
  decide

/-- Integers come in the order of their strings. -/
example : array_sort ⟨fun _ => [], fun _ => .nan⟩ none
    [some (.int32 9), none, some (.int32 10), some .undefined, some (.int32 (-2))] =
      some [some (.int32 (-2)), some (.int32 10), some (.int32 9), some .undefined, none] := by
  decide +kernel

end SpiderMonkey.Vm.ArraySort
