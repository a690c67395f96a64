import SpiderMonkey.Builtin.OrderedHashTable
import Mathlib.Data.Nat.Basic
import Mathlib.Order.MinMax

/-!
# The live entries of the data vector and the ranges over it

A range stands at a nonempty entry or at the end, and counts the nonempty entries it has passed. In
the list of live entries its position is that count, whatever the vector looks like.
-/

namespace SpiderMonkey.Builtin

variable {K V : Type} {data : List (Data K V)} {i : ℕ} {e : K × V} {r : Range}

/-- The entries of the vector that are not empty, in order. -/
def live (data : List (Data K V)) : List (K × V) := data.filterMap Data.element

/-- The live entries of a vector in two parts. -/
@[simp] theorem live_append (data data' : List (Data K V)) :
    live (data ++ data') = live data ++ live data' := List.filterMap_append

/-- The live entries of an empty vector. -/
@[simp] theorem live_nil : live ([] : List (Data K V)) = [] := rfl

/-- The live entries after the first place. -/
@[simp] theorem live_cons (d : Data K V) (data : List (Data K V)) :
    live (d :: data) = d.element.toList ++ live data := by
  cases hd : d.element <;> simp [live, hd]

/-- There are no more live entries than places. -/
theorem length_live_le (data : List (Data K V)) : (live data).length ≤ data.length :=
  List.length_filterMap_le _ _

/-- There are no more live entries before a place than in all. -/
theorem length_live_take_le (data : List (Data K V)) (i : ℕ) :
    (live (data.take i)).length ≤ (live data).length :=
  ((List.take_sublist i data).filterMap _).length_le

/-- A nonempty element is in the vector. -/
theorem elementAt_lt (h : elementAt data i = some e) : i < data.length := by
  by_contra hge
  rw [elementAt, List.getElem?_eq_none (by omega)] at h
  simp at h

/-- The vector around a nonempty element. -/
theorem exists_split (h : elementAt data i = some e) :
    ∃ d, d.element = some e ∧ data = data.take i ++ d :: data.drop (i + 1) := by
  have hlt := elementAt_lt h
  refine ⟨data[i], ?_, ?_⟩
  · simpa [elementAt, List.getElem?_eq_getElem hlt] using h
  · rw [← List.drop_eq_getElem_cons hlt, List.take_append_drop]

/-- The live entries around a nonempty element. -/
theorem live_eq (h : elementAt data i = some e) :
    live data = live (data.take i) ++ e :: live (data.drop (i + 1)) := by
  obtain ⟨d, hd, hsplit⟩ := exists_split h
  conv_lhs => rw [hsplit]
  simp [hd]

/-- The live entries after changing a nonempty element. -/
theorem live_modify (h : elementAt data i = some e) (f : Data K V → Data K V) :
    ∃ d, d.element = some e ∧ live (data.modify i f) =
      live (data.take i) ++ ((f d).element.toList ++ live (data.drop (i + 1))) := by
  have hlt := elementAt_lt h
  refine ⟨data[i], by simpa [elementAt, List.getElem?_eq_getElem hlt] using h, ?_⟩
  rw [List.modify_eq_take_cons_drop hlt]
  simp

/-- Emptying an entry removes it from the live ones. -/
theorem live_modify_none (h : elementAt data i = some e) :
    live (data.modify i fun d => { d with element := none }) =
      (live data).eraseIdx (live (data.take i)).length := by
  obtain ⟨d, -, hlive⟩ := live_modify h fun d => { d with element := none }
  rw [hlive, live_eq h]
  simp [List.eraseIdx_append_of_length_le]

/-- Replacing an entry replaces it among the live ones. -/
theorem live_modify_some (h : elementAt data i = some e) (e' : K × V) :
    live (data.modify i fun d => { d with element := some e' }) =
      (live data).set (live (data.take i)).length e' := by
  obtain ⟨d, -, hlive⟩ := live_modify h fun d => { d with element := some e' }
  rw [hlive, live_eq h]
  simp

/-- The element at a place after storing another. -/
theorem elementAt_modify (data : List (Data K V)) (i j : ℕ) (element : Option (K × V)) :
    elementAt (data.modify i fun d => { d with element := element }) j =
      if i = j ∧ j < data.length then element else elementAt data j := by
  rw [elementAt, elementAt, List.getElem?_modify]
  by_cases hij : i = j
  · subst hij
    by_cases hlt : i < data.length
    · simp [hlt]
    · simp [hlt]
  · simp [hij]

/-- A live entry's position is the number of live entries before it. -/
theorem live_getElem? (h : elementAt data i = some e) :
    (live data)[(live (data.take i)).length]? = some e := by
  rw [live_eq h]
  simp

/-- Every live entry is at some place. -/
theorem mem_live : e ∈ live data ↔ ∃ i, elementAt data i = some e := by
  rw [live, List.mem_filterMap]
  constructor
  · rintro ⟨d, hd, he⟩
    obtain ⟨i, hi, rfl⟩ := List.getElem_of_mem hd
    exact ⟨i, by simp [elementAt, List.getElem?_eq_getElem hi, he]⟩
  · rintro ⟨i, hi⟩
    have hlt := elementAt_lt hi
    refine ⟨data[i], List.getElem_mem hlt, ?_⟩
    simpa [elementAt, List.getElem?_eq_getElem hlt] using hi

/-- The live entries of a vector without empty places. -/
theorem live_of_dense {l : List (K × V)} (h : data.map Data.element = l.map some) :
    live data = l := by
  have hmap := congrArg (List.filterMap id) h
  simpa [live, List.filterMap_map, Function.comp_def] using hmap

/-- The elements of a vector without empty places. -/
theorem elementAt_of_dense {l : List (K × V)} (h : data.map Data.element = l.map some) :
    elementAt data i = l[i]? := by
  have hget := congrArg (fun m => m[i]?.join) h
  simp only [List.getElem?_map] at hget
  rw [elementAt]
  cases hd : data[i]? <;> cases hl : l[i]? <;> simp_all

/-- Seeking skips empty places only. -/
theorem seekFrom_spec (l : List (Data K V)) (i : ℕ) :
    ∃ k, seekFrom l i = i + k ∧ k ≤ l.length ∧ live (l.take k) = [] ∧
      (k = l.length ∨ (elementAt l k).isSome) := by
  induction l generalizing i with
  | nil => exact ⟨0, rfl, le_rfl, rfl, Or.inl rfl⟩
  | cons d l ih =>
    cases hd : d.element with
    | none =>
      obtain ⟨k, hk, hle, hlive, hend⟩ := ih (i + 1)
      refine ⟨k + 1, ?_, by simpa using hle, by simp [hd, hlive], ?_⟩
      · simp only [seekFrom, hd, Option.isNone_none, if_true, hk]
        omega
      · simpa [elementAt] using hend
    | some e => exact ⟨0, by simp [seekFrom, hd], by omega, by simp, Or.inr (by simp [elementAt, hd])⟩

/-- A range stands at a nonempty entry or at the end, and has counted those before. -/
structure RangeAt (data : List (Data K V)) (r : Range) : Prop where
  le : r.i ≤ data.length
  count_eq : r.count = (live (data.take r.i)).length
  at_live : r.i = data.length ∨ (elementAt data r.i).isSome

/-- Seeking from any place leads to a range's position. -/
theorem rangeAt_seek (hi : i ≤ data.length) {count : ℕ}
    (hcount : count = (live (data.take i)).length) : RangeAt data ⟨seek data i, count⟩ := by
  obtain ⟨k, hk, hle, hlive, hend⟩ := seekFrom_spec (data.drop i) i
  rw [List.length_drop] at hle hend
  have hseek : seek data i = i + k := hk
  refine ⟨by dsimp only; omega, ?_, ?_⟩
  · dsimp only
    rw [hseek, List.take_add, live_append, hlive, List.append_nil, hcount]
  · dsimp only
    rw [hseek]
    refine hend.imp (fun hend => by omega) fun hend => ?_
    simpa [elementAt] using hend

namespace RangeAt

/-- A new range. -/
theorem init : RangeAt data (Range.init data) := rangeAt_seek (Nat.zero_le _) rfl

/-- The front of a range is the live entry at its position. -/
theorem front_eq (h : RangeAt data r) : elementAt data r.i = (live data)[r.count]? := by
  rcases h.at_live with hend | hlive
  · have hcount : r.count = (live data).length := by rw [h.count_eq, hend, List.take_length]
    rw [elementAt, List.getElem?_eq_none (Nat.le_of_eq hend.symm), List.getElem?_eq_none (Nat.le_of_eq hcount.symm)]
    rfl
  · obtain ⟨e, he⟩ := Option.isSome_iff_exists.mp hlive
    rw [he, h.count_eq, live_getElem? he]

/-- A range is empty when it has passed all live entries. -/
theorem empty_iff (h : RangeAt data r) : data.length ≤ r.i ↔ (live data).length ≤ r.count := by
  rcases h.at_live with hend | hlive
  · have hcount : r.count = (live data).length := by rw [h.count_eq, hend, List.take_length]
    omega
  · obtain ⟨e, he⟩ := Option.isSome_iff_exists.mp hlive
    have hlt := elementAt_lt he
    have hfront := h.front_eq
    rw [he, eq_comm, List.getElem?_eq_some_iff] at hfront
    obtain ⟨hlt', -⟩ := hfront
    omega

/-- Advancing a range. -/
theorem popFront (h : RangeAt data r) (he : elementAt data r.i = some e) :
    RangeAt data (r.popFront data) := by
  refine rangeAt_seek (elementAt_lt he) ?_
  rw [List.take_add_one, live_append, h.count_eq, List.length_append]
  rw [elementAt] at he
  obtain ⟨d, hd, he⟩ := Option.bind_eq_some_iff.mp he
  simp [hd, he]

/-- Replacing an entry by another changes no range. -/
theorem modify_some (h : RangeAt data r) (he : elementAt data i = some e) (e' : K × V) :
    RangeAt (data.modify i fun d => { d with element := some e' }) r := by
  have hlength : (live ((data.modify i fun d => { d with element := some e' }).take r.i)).length =
      (live (data.take r.i)).length := by
    rcases Nat.lt_or_ge i r.i with hlt | hge
    · have he' : elementAt (data.take r.i) i = some e := by
        rw [elementAt, List.getElem?_take_of_lt hlt]
        exact he
      rw [List.take_modify, live_modify_some he']
      simp
    · rw [List.take_modify, List.modify_eq_self (by simp; omega)]
  refine ⟨by simpa using h.le, by rw [hlength]; exact h.count_eq, ?_⟩
  rw [elementAt_modify, List.length_modify]
  refine h.at_live.imp id fun hlive => ?_
  split
  · rfl
  · exact hlive

/-- The ranges after the entry at a place is removed. -/
theorem onRemove {pos : ℕ} (h : RangeAt data r) (he : elementAt data pos = some e) :
    RangeAt (data.modify pos fun d => { d with element := none })
      (r.onRemove (data.modify pos fun d => { d with element := none }) pos) ∧
    (r.onRemove (data.modify pos fun d => { d with element := none }) pos).count =
      if (live (data.take pos)).length < r.count then r.count - 1 else r.count := by
  have hpos := elementAt_lt he
  have hle := h.le
  rcases Nat.lt_trichotomy pos r.i with hlt | rfl | hgt
  · have he' : elementAt (data.take r.i) pos = some e := by
      rw [elementAt, List.getElem?_take_of_lt hlt]
      exact he
    have hbefore : (live (data.take pos)).length < r.count := by
      have hsome := live_getElem? he'
      rw [List.take_take, min_eq_left hlt.le, List.getElem?_eq_some_iff] at hsome
      obtain ⟨hsome, -⟩ := hsome
      rw [h.count_eq]
      exact hsome
    have htake : (live (data.take pos)).length =
        (live ((data.take r.i).take pos)).length := by
      rw [List.take_take, min_eq_left (Nat.le_of_lt hlt)]
    simp only [Range.onRemove, hlt, if_true, Nat.ne_of_lt hlt, if_false, hbefore, and_true]
    refine ⟨by simpa using hle, ?_, ?_⟩
    · dsimp only
      rw [List.take_modify, live_modify_none he', List.length_eraseIdx_of_lt, h.count_eq]
      rw [← htake, ← h.count_eq]
      exact hbefore
    · rw [elementAt_modify, List.length_modify, if_neg (by dsimp only; omega)]
      exact h.at_live
  · have hsame : ¬ (live (data.take r.i)).length < r.count := by
      rw [h.count_eq]
      omega
    simp only [Range.onRemove, lt_irrefl, if_false, if_true, hsame, and_true]
    refine rangeAt_seek (by simpa using hle) ?_
    rw [List.take_modify, List.modify_eq_self (by simp)]
    exact h.count_eq
  · have hbefore : ¬ (live (data.take pos)).length < r.count := by
      rw [h.count_eq, Nat.not_lt]
      have htake : data.take pos = data.take r.i ++ (data.take pos).drop r.i := by
        conv_lhs => rw [← List.take_append_drop r.i (data.take pos), List.take_take,
          min_eq_left (Nat.le_of_lt hgt)]
      rw [htake, live_append, List.length_append]
      omega
    simp only [Range.onRemove, show ¬ pos < r.i by omega, if_false, Nat.ne_of_gt hgt, hbefore, and_true]
    refine ⟨by simpa using hle, ?_, ?_⟩
    · rw [List.take_modify, List.modify_eq_self (by simp; omega)]
      exact h.count_eq
    · rw [elementAt_modify, List.length_modify, if_neg (by omega)]
      exact h.at_live

/-- A range sees an entry added at the end. -/
theorem append (h : RangeAt data r) (chain : Option ℕ) :
    RangeAt (data ++ [⟨some e, chain⟩]) r := by
  have hle := h.le
  refine ⟨by simp; omega, ?_, Or.inr ?_⟩
  · rw [List.take_append_of_le_length hle]
    exact h.count_eq
  · rcases h.at_live with hend | hlive
    · simp [elementAt, hend]
    · obtain ⟨e', he'⟩ := Option.isSome_iff_exists.mp hlive
      rw [elementAt, List.getElem?_append_left (elementAt_lt he')]
      exact hlive

/-- A range after compaction. -/
theorem onCompact (h : RangeAt data r) {data' : List (Data K V)}
    (hdata : data'.map Data.element = (live data).map some) : RangeAt data' r.onCompact := by
  have hlength : data'.length = (live data).length := by
    simpa using congrArg List.length hdata
  have hcount : r.count ≤ data'.length := by
    rw [h.count_eq, hlength]
    exact length_live_take_le data r.i
  refine ⟨hcount, ?_, ?_⟩
  · rw [Range.onCompact, live_of_dense (l := (live data).take r.count) (by simp [hdata])]
    simp [← hlength, hcount]
  · rcases Nat.lt_or_ge r.count data'.length with hlt | hge
    · right
      rw [hlength] at hlt
      simp [Range.onCompact, elementAt_of_dense hdata, hlt]
    · exact Or.inl (le_antisymm hcount hge)

end RangeAt

end SpiderMonkey.Builtin
