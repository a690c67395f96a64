import Mathlib.Algebra.BigOperators.Group.List.Basic
import SpiderMonkey.Lib.Loops
import SpiderMonkey.Vm.ArrayConcat

/-!
# Where concatenated elements are

Behind what was concatenated so far, the new array has nothing, and the running length is the sum of the
lengths as long as that fits. It fits to the end if and only if all is where it should be: otherwise the
length of the array is another one.
-/

namespace SpiderMonkey.Vm.ArrayConcat

open Lib

variable {V : Type} {arr arr' r : ArrayObject V} {room : Room} {rooms : ℕ → Room} {index : UInt32}
  {v : V} {item : Item V} {items pre : List (Item V)} {s s' : State V} {k : ℕ}

/-! ## What should be where -/

/-- How many elements, with holes, something adds. -/
def Item.count : Item V → ℕ
  | array obj => obj.length.toNat
  | value _ => 1

/-- The elements that something adds. -/
def Item.element : Item V → ℕ → Option V
  | array obj => obj.get
  | value v => fun _ => some v

/-- The sum of the lengths. -/
def total (items : List (Item V)) : ℕ := (items.map Item.count).sum

/-- An array has the elements of some things, each behind those before, and no others. -/
structure IsConcat (items : List (Item V)) (r : ArrayObject V) : Prop where
  length : r.length.toNat = total items
  element : ∀ pre item post, items = pre ++ item :: post →
    ∀ k < item.count, r.get (total pre + k) = item.element k
  nothing_else : ∀ k, total items ≤ k → r.get k = none

/-- What is at an index when things are put one behind the other. -/
def placed : List (Item V) → ℕ → Option V
  | [], _ => none
  | item :: rest, k => if k < item.count then item.element k else placed rest (k - item.count)

/-- The sum of the lengths of two lists. -/
theorem total_append (pre items : List (Item V)) : total (pre ++ items) = total pre + total items := by
  rw [total, List.map_append, List.sum_append]
  rfl

/-- The sum of the lengths with a last one. -/
theorem total_concat (pre : List (Item V)) (item : Item V) :
    total (pre ++ [item]) = total pre + item.count := by
  rw [total_append]
  rfl

/-- What is in the first part, and what is behind it. -/
theorem placed_append (pre items : List (Item V)) (k : ℕ) :
    placed (pre ++ items) k = if k < total pre then placed pre k else placed items (k - total pre) := by
  induction pre generalizing k with
  | nil => rfl
  | cons item pre ih =>
    have htotal : total (item :: pre) = item.count + total pre := List.sum_cons
    rw [List.cons_append, placed, placed, ih, htotal, ← Nat.sub_sub]
    split_ifs
    all_goals first | rfl | omega

/-- Nothing is behind the end. -/
theorem placed_of_le (h : total items ≤ k) : placed items k = none := by
  induction items generalizing k with
  | nil => rfl
  | cons item items ih =>
    have htotal : total (item :: items) = item.count + total items := List.sum_cons
    rw [placed, if_neg (by omega), ih (by omega)]

/-- What the last one adds is behind the others. -/
theorem placed_concat (pre : List (Item V)) (item : Item V) (hk : k < item.count) :
    placed (pre ++ [item]) (total pre + k) = item.element k := by
  rw [placed_append, if_neg (by omega), Nat.add_sub_cancel_left, placed, if_pos hk]

/-- An array of the right length with everything in its place. -/
theorem isConcat_of_get (hlength : r.length.toNat = total items) (hget : ∀ k, r.get k = placed items k) :
    IsConcat items r := by
  refine ⟨hlength, ?_, ?_⟩
  · intro pre item post hitems k hk
    rw [hget, hitems, placed_append, if_neg (by omega), Nat.add_sub_cancel_left, placed, if_pos hk]
  · intro k hk
    rw [hget, placed_of_le hk]

/-! ## Setting an element -/

/-- Setting an element puts it there, whether it is dense or not. -/
theorem setArrayElement_cases (h : setArrayElement room arr index v = some arr') :
    ∃ indexed, arr' = arr.put index v indexed := by
  have hgeneric (h : setGeneric room arr index v = some arr') :
      ∃ indexed, arr' = arr.put index v indexed := by
    rw [setGeneric] at h
    split_ifs at h
    obtain ⟨indexed, _, h⟩ := Option.bind_eq_some_iff.mp h
    exact ⟨indexed, (Option.some_inj.mp h).symm⟩
  rw [setArrayElement] at h
  split_ifs at h
  · cases hensure : ensureDenseElements room index with
    | ED_OK =>
      rw [hensure] at h
      exact ⟨false, (Option.some_inj.mp h).symm⟩
    | ED_FAILED =>
      rw [hensure] at h
      cases h
    | ED_SPARSE =>
      rw [hensure] at h
      exact hgeneric h
  · exact hgeneric h

/-- The loops so far: the running length is the sum of the lengths, and everything is in its place. -/
structure Holds (pre : List (Item V)) (st : State V × UInt32) : Prop where
  length : st.2.toNat = total pre
  get : ∀ k, st.1.narr.get k = placed pre k
  length_le : st.1.narr.length.toNat ≤ total pre

/-- The loop over an array: its elements before a slot are in their places. -/
structure HoldsSlots (items : List (Item V)) (n : ℕ) (s : State V) : Prop where
  get : ∀ k, s.narr.get k = if k < n then placed items k else none
  length_le : s.narr.length.toNat ≤ n

/-- Setting what should be at the next index. -/
theorem HoldsSlots.setArrayElement {n : ℕ} (hs : HoldsSlots items n s) (hn : index.toNat = n)
    (hmax : n ≤ MAX_ARRAY_INDEX) (hplaced : placed items n = some v)
    (h : s.setArrayElement rooms index v = some s') : HoldsSlots items (n + 1) s' := by
  obtain ⟨narr, hset, hs'⟩ := Option.bind_eq_some_iff.mp h
  obtain ⟨indexed, rfl⟩ := setArrayElement_cases hset
  rw [← Option.some_inj.mp hs']
  constructor
  · intro k
    change Function.update s.narr.get index.toNat (some v) k = _
    by_cases hk : k = n
    · rw [hk, hn, Function.update_self, if_pos (Nat.lt_succ_self n), hplaced]
    · rw [Function.update_of_ne (by omega), hs.get]
      by_cases hlt : k < n
      · rw [if_pos hlt, if_pos (by omega)]
      · rw [if_neg hlt, if_neg (by omega)]
  · change (lengthWith s.narr.length index).toNat ≤ n + 1
    have hle := hs.length_le
    rw [toNat_lengthWith (hn ▸ hmax), hn]
    omega

/-- A hole at the next index. -/
theorem HoldsSlots.skip {n : ℕ} (hs : HoldsSlots items n s) (hplaced : placed items n = none) :
    HoldsSlots items (n + 1) s := by
  refine ⟨?_, Nat.le_succ_of_le hs.length_le⟩
  intro k
  rw [hs.get]
  rcases Nat.lt_trichotomy k n with hlt | rfl | hgt
  · rw [if_pos hlt, if_pos (by omega)]
  · rw [if_neg (Nat.lt_irrefl k), if_pos (Nat.lt_succ_self k), hplaced]
  · rw [if_neg (by omega), if_neg (by omega)]

/-! ## The loops -/

/-- Before the first slot. -/
theorem Holds.slots {length : UInt32} (h : Holds pre (s, length)) (item : Item V) :
    HoldsSlots (pre ++ [item]) (total pre) s := by
  refine ⟨?_, h.length_le⟩
  intro k
  rw [h.get, placed_append]
  split_ifs with hk
  · rfl
  · exact placed_of_le (Nat.le_of_not_lt hk)

/-- After the last slot. -/
theorem HoldsSlots.holds {length : UInt32} (hs : HoldsSlots items (total items) s)
    (hlength : length.toNat = total items) : Holds items (s, length) := by
  refine ⟨hlength, ?_, hs.length_le⟩
  intro k
  rw [hs.get]
  split_ifs with hk
  · rfl
  · exact (placed_of_le (Nat.le_of_not_lt hk)).symm

/-- One element of an array comes to its place, if the sum of the lengths fits. -/
theorem concatSlot_holds {obj : ArrayObject V} {length : UInt32} {i : ℕ}
    (hlength : length.toNat = total pre) (hi : i < obj.length.toNat)
    (hfits : total pre + obj.length.toNat < 2 ^ 32)
    (hs : HoldsSlots (pre ++ [.array obj]) (total pre + i) s)
    (h : concatSlot rooms obj length s i = some s') :
    HoldsSlots (pre ++ [.array obj]) (total pre + i + 1) s' := by
  have hmax : MAX_ARRAY_INDEX = 4294967294 := rfl
  have hplaced : placed (pre ++ [.array obj]) (total pre + i) = obj.get i :=
    placed_concat pre (.array obj) hi
  rw [concatSlot] at h
  cases hget : obj.get i with
  | none =>
    rw [hget] at h
    rw [← Option.some_inj.mp h]
    exact hs.skip (hplaced.trans hget)
  | some tmp =>
    rw [hget] at h
    have hindex : (length + UInt32.ofNat i).toNat = total pre + i := by
      rw [UInt32.toNat_add, UInt32.toNat_ofNat', hlength, Nat.add_mod_mod, Nat.mod_eq_of_lt]
      omega
    exact hs.setArrayElement hindex (by omega) (hplaced.trans hget) h

/-- What one thing adds comes to its place, if the sum of the lengths fits. -/
theorem concatItem_holds {st st' : State V × UInt32} (hst : Holds pre st)
    (hfits : total pre + item.count < 2 ^ 32) (h : concatItem rooms st item = some st') :
    Holds (pre ++ [item]) st' := by
  obtain ⟨s, length⟩ := st
  have hlength : length.toNat = total pre := hst.length
  have hslots := hst.slots item
  cases item with
  | array obj =>
    obtain ⟨s', hloop, h⟩ := Option.bind_eq_some_iff.mp h
    rw [← Option.some_inj.mp h]
    have hend := foldlM_range
      (P := fun i s => HoldsSlots (pre ++ [.array obj]) (total pre + i) s) hslots
      (fun i hi s s' hs hstep => concatSlot_holds hlength hi hfits hs hstep) hloop
    apply HoldsSlots.holds
    · rw [total_concat]
      exact hend
    · rw [UInt32.toNat_add, hlength, total_concat]
      exact Nat.mod_eq_of_lt hfits
  | value v =>
    obtain ⟨s', hset, h⟩ := Option.bind_eq_some_iff.mp h
    rw [← Option.some_inj.mp h]
    have hmax : MAX_ARRAY_INDEX = 4294967294 := rfl
    have hcount : (Item.value v).count = 1 := rfl
    have hplaced : placed (pre ++ [.value v]) (total pre) = some v :=
      placed_concat pre (.value v) Nat.one_pos
    apply HoldsSlots.holds
    · rw [total_concat]
      exact hslots.setArrayElement hlength (by omega) hplaced hset
    · rw [UInt32.toNat_add, hlength, total_concat]
      exact Nat.mod_eq_of_lt hfits

/-- All that is gone through comes to its place, if the sum of the lengths fits. -/
theorem foldlM_concatItem_holds {st st' : State V × UInt32} (hst : Holds pre st)
    (hfits : total (pre ++ items) < 2 ^ 32) (h : items.foldlM (concatItem rooms) st = some st') :
    Holds (pre ++ items) st' := by
  refine foldlM_list (Q := fun pre st => Holds pre st) items pre hst ?_ h
  intro pre' item post hsplit st st' hst hstep
  apply concatItem_holds hst _ hstep
  rw [hsplit, total_append] at hfits
  have htotal : total (item :: post) = item.count + total post := List.sum_cons
  omega

/-- Nothing is deleted when the length is set. -/
theorem arraySetLength_isConcat {st : State V × UInt32} (hst : Holds items st)
    (h : arraySetLength st.1.narr st.2 = some r) : IsConcat items r := by
  have hle := hst.length_le
  rw [← hst.length] at hle
  rw [arraySetLength] at h
  split_ifs at h with _ hsame
  · rw [← Option.some_inj.mp h]
    exact isConcat_of_get (hsame ▸ hst.length) hst.get
  · rw [← Option.some_inj.mp h]
    apply isConcat_of_get hst.length
    intro k
    dsimp only
    rw [if_neg (by omega), hst.get]

/-- A copy of an array has its elements. -/
theorem newDenseCopiedArray_get (aobj : ArrayObject V) (k : ℕ) :
    (newDenseCopiedArray aobj).get k = placed [.array aobj] k := by
  change (if k ≤ MAX_ARRAY_INDEX then aobj.get k else none) =
    if k < aobj.length.toNat then aobj.get k else none
  have hmax : MAX_ARRAY_INDEX = 4294967294 := rfl
  have hlt := aobj.length.toNat_lt
  by_cases hk : k ≤ MAX_ARRAY_INDEX
  · rw [if_pos hk]
    split_ifs with hlength
    · rfl
    · by_contra hsome
      exact hlength (aobj.lt_length k hk (Option.isSome_iff_ne_none.mpr hsome))
  · rw [if_neg hk, if_neg (by omega)]

/-- Where the sum of the lengths fits, everything comes to its place. -/
theorem array_concat_isConcat {aobj : ArrayObject V} {args : List (Item V)}
    (hfits : total (.array aobj :: args) < 2 ^ 32) (h : array_concat rooms aobj args = some r) :
    IsConcat (.array aobj :: args) r := by
  have hself : total [Item.array aobj] = aobj.length.toNat := rfl
  simp only [array_concat] at h
  split_ifs at h with hindexed hnil
  · rw [hnil, ← Option.some_inj.mp h]
    exact isConcat_of_get hself.symm (newDenseCopiedArray_get aobj)
  · obtain ⟨st, hloop, h⟩ := Option.bind_eq_some_iff.mp h
    have hstart : Holds [.array aobj] (⟨newDenseCopiedArray aobj, 0⟩, aobj.length) :=
      ⟨hself.symm, newDenseCopiedArray_get aobj, Nat.le_of_eq hself.symm⟩
    exact arraySetLength_isConcat (foldlM_concatItem_holds hstart hfits hloop) h
  · obtain ⟨st, hloop, h⟩ := Option.bind_eq_some_iff.mp h
    have hstart : Holds ([] : List (Item V)) (⟨.empty, 0⟩, 0) := ⟨rfl, fun _ => rfl, Nat.le_refl 0⟩
    exact arraySetLength_isConcat (foldlM_concatItem_holds hstart hfits hloop) h

/-! ## Returning -/

/-- There is room for properties. -/
def roomy : Room := ⟨.ED_SPARSE, some false⟩

/-- With room elements are set. -/
theorem setArrayElement_returns (s : State V) (index : UInt32) (v : V)
    (hs : s.narr.lengthIsWritable = true) :
    ∃ s', s.setArrayElement (fun _ => roomy) index v = some s' ∧ s'.narr.lengthIsWritable = true := by
  have hgeneric : setGeneric roomy s.narr index v = some (s.narr.put index v false) := by
    rw [setGeneric, hs, if_neg (fun h => Bool.false_ne_true h.2.2)]
    rfl
  have hset : setArrayElement roomy s.narr index v = some (s.narr.put index v false) := by
    have hensure : ensureDenseElements roomy index = .ED_SPARSE := by
      rw [ensureDenseElements]
      exact ite_self _
    rw [setArrayElement, hgeneric, hensure, hs]
    split_ifs with _ hlength
    · exact absurd hlength.2 Bool.false_ne_true
    · rfl
    · rfl
  refine ⟨⟨s.narr.put index v false, s.steps + 1⟩, ?_, hs⟩
  rw [State.setArrayElement, hset]
  rfl

/-- With room what one thing adds is set. -/
theorem concatItem_returns (item : Item V) (st : State V × UInt32)
    (hst : st.1.narr.lengthIsWritable = true) :
    ∃ st', concatItem (fun _ => roomy) st item = some st' ∧
      st'.1.narr.lengthIsWritable = true := by
  obtain ⟨s, length⟩ := st
  cases item with
  | array obj =>
    obtain ⟨s', hs', hwritable⟩ := exists_foldlM_range
      (P := fun _ (s : State V) => s.narr.lengthIsWritable = true)
      (f := concatSlot (fun _ => roomy) obj length) (n := obj.length.toNat) hst
      (fun i _ s hs => by
        rw [concatSlot]
        cases obj.get i with
        | none => exact ⟨s, rfl, hs⟩
        | some tmp => exact setArrayElement_returns s _ tmp hs)
    refine ⟨(s', length + obj.length), ?_, hwritable⟩
    rw [concatItem, hs']
    rfl
  | value v =>
    obtain ⟨s', hs', hwritable⟩ := setArrayElement_returns s length v hst
    refine ⟨(s', length + 1), ?_, hwritable⟩
    rw [concatItem, hs']
    rfl

/-- With room an array is returned. -/
theorem array_concat_returns (aobj : ArrayObject V) (args : List (Item V)) :
    ∃ r, array_concat (fun _ => roomy) aobj args = some r := by
  have hloop (st : State V × UInt32) (items : List (Item V))
      (hst : st.1.narr.lengthIsWritable = true) :
      ∃ r, (items.foldlM (concatItem fun _ => roomy) st >>= fun p => arraySetLength p.1.narr p.2) = some r := by
    obtain ⟨st', hst', hwritable⟩ := exists_foldlM_list
      (Q := fun st : State V × UInt32 => st.1.narr.lengthIsWritable = true) items hst
      fun item _ st hst => concatItem_returns item st hst
    rw [hst']
    simp only [Option.bind_eq_bind, Option.bind_some, arraySetLength, hwritable, Bool.not_true,
      Bool.false_eq_true, if_false]
    exact ⟨_, rfl⟩
  simp only [array_concat]
  split_ifs
  · exact ⟨_, rfl⟩
  · exact hloop _ _ rfl
  · exact hloop _ _ rfl

/-- An array is returned for some decisions from outside, and whenever one is, everything is in its
place if and only if the sum of the lengths fits. -/
theorem array_concat_isConcat_iff (aobj : ArrayObject V) (args : List (Item V)) :
    (∃ rooms r, array_concat rooms aobj args = some r) ∧
    ∀ rooms r, array_concat rooms aobj args = some r →
      (IsConcat (.array aobj :: args) r ↔ total (.array aobj :: args) < 2 ^ 32) := by
  refine ⟨⟨_, array_concat_returns aobj args⟩, ?_⟩
  intro rooms r h
  constructor
  · intro hr
    rw [← hr.length]
    exact r.length.toNat_lt
  · intro hfits
    exact array_concat_isConcat hfits h

/-- Two values behind nothing. -/
theorem array_concat_isConcat_iff_values :
    ∃ r : ArrayObject ℕ, array_concat (fun _ => roomy) .empty [.value 5, .value 6] = some r ∧
      r.get 1 = some 6 ∧ IsConcat [.array .empty, .value 5, .value 6] r := by
  obtain ⟨r, hr⟩ := array_concat_returns (.empty : ArrayObject ℕ) [.value 5, .value 6]
  have hconcat := ((array_concat_isConcat_iff .empty [.value 5, .value 6]).2 _ r hr).mpr (by decide)
  exact ⟨r, hr, hconcat.element [.array .empty, .value 5] (.value 6) [] rfl 0 (by decide), hconcat⟩

/-- An array of the largest length, all holes. -/
def longest : ArrayObject ℕ where
  length := 4294967295
  lengthIsWritable := true
  isIndexed := false
  get _ := none
  lt_length := nofun

/-- Behind the longest array there is no index left: a value becomes a property, and the length is
zero. -/
theorem array_concat_wraps :
    ∃ r, array_concat (fun _ => roomy) longest [.value 7] = some r ∧ r.length = 0 ∧
      r.get 4294967295 = some 7 ∧ ¬IsConcat [.array longest, .value 7] r := by
  refine ⟨_, rfl, rfl, rfl, ?_⟩
  intro h
  exact absurd h.length (by decide)

end SpiderMonkey.Vm.ArrayConcat
