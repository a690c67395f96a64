import Mathlib.Tactic.Common

/-!
# Segments of lists

A list as a piece of memory: a segment is read, or written over, if it lies within the list.
-/

namespace SpiderMonkey.Segments

variable {A : Type}

/-- The items from a position on. There are none if they are not all in the list. -/
def segment (l : List A) (i n : ℕ) : Option (List A) :=
  if i + n ≤ l.length then some ((l.drop i).take n) else none

/-- Write items over those from a position on. This fails if they do not fit. -/
def overwrite (l : List A) (i : ℕ) (src : List A) : Option (List A) :=
  if i + src.length ≤ l.length then some (l.take i ++ (src ++ l.drop (i + src.length))) else none

variable {l l' src : List A} {i j n : ℕ}

/-- A segment has the length that is asked for. -/
theorem length_of_segment {s : List A} (h : segment l i n = some s) : s.length = n := by
  rw [segment] at h
  split at h
  · cases h
    rw [List.length_take, List.length_drop]
    omega
  · cases h

/-- A segment lies within the list. -/
theorem le_length_of_segment {s : List A} (h : segment l i n = some s) : i + n ≤ l.length := by
  rw [segment] at h
  split at h
  · assumption
  · cases h

/-- Items that fit are written. -/
theorem exists_overwrite (h : i + src.length ≤ l.length) : ∃ l', overwrite l i src = some l' :=
  ⟨_, if_pos h⟩

/-- What is written over, split at the position. -/
theorem overwrite_eq_some (h : overwrite l i src = some l') :
    i + src.length ≤ l.length ∧ l' = l.take i ++ (src ++ l.drop (i + src.length)) := by
  rw [overwrite] at h
  split at h
  · cases h
    exact ⟨by assumption, rfl⟩
  · cases h

/-- Writing keeps the length. -/
theorem length_overwrite (h : overwrite l i src = some l') : l'.length = l.length := by
  obtain ⟨hle, rfl⟩ := overwrite_eq_some h
  rw [List.length_append, List.length_append, List.length_take, List.length_drop]
  omega

/-- Writing over a part that is as long. -/
theorem overwrite_middle (pre post : List A) {old new : List A} (h : old.length = new.length) :
    overwrite (pre ++ (old ++ post)) pre.length new = some (pre ++ (new ++ post)) := by
  have hdrop : (pre ++ (old ++ post)).drop (pre.length + new.length) = post := by
    rw [← h, ← List.drop_drop, List.drop_left, List.drop_left]
  rw [overwrite, if_pos (by simp; omega), List.take_left, hdrop]

/-- Inserting between two parts. -/
theorem insertIdx_length_append (pre post : List A) (a : A) :
    (pre ++ post).insertIdx pre.length a = pre ++ a :: post := by
  induction pre with
  | nil => exact List.insertIdx_zero
  | cons b pre ih =>
    rw [List.cons_append, List.length_cons, List.insertIdx_succ_cons, ih]
    rfl

/-- What is written is read. -/
theorem segment_overwrite_self (h : overwrite l i src = some l') :
    segment l' i src.length = some src := by
  have hlength := length_overwrite h
  obtain ⟨hle, heq⟩ := overwrite_eq_some h
  have htake : (l.take i).length = i := by
    rw [List.length_take]
    omega
  have hempty : (l.take i).drop i = [] := List.drop_eq_nil_of_le (Nat.le_of_eq htake)
  rw [segment, if_pos (by omega), heq, List.drop_append_of_le_length (by omega), hempty,
    List.nil_append, List.take_left]

/-- A segment before the position is not written over. -/
theorem segment_overwrite_of_le (h : overwrite l i src = some l') (hle : j + n ≤ i) :
    segment l' j n = segment l j n := by
  have hlength := length_overwrite h
  obtain ⟨hfit, heq⟩ := overwrite_eq_some h
  have htake : (l.take i).length = i := by
    rw [List.length_take]
    omega
  have hdrop : ((l.take i).drop j).length = i - j := by
    rw [List.length_drop, htake]
  have hsame : (l'.drop j).take n = (l.drop j).take n := by
    rw [heq, List.drop_append_of_le_length (by omega), List.take_append_of_le_length (by omega),
      List.drop_take, List.take_take, Nat.min_eq_left (by omega)]
  rw [segment, segment, hlength, hsame]

/-- Two segments, one after the other. -/
theorem segment_append {s t : List A} (hs : segment l i n = some s) (ht : segment l (i + n) j = some t) :
    segment l i (n + j) = some (s ++ t) := by
  have hle := le_length_of_segment ht
  have hle' := le_length_of_segment hs
  rw [segment, if_pos hle'] at hs
  rw [segment, if_pos hle] at ht
  cases hs
  cases ht
  rw [segment, if_pos (by omega), List.take_add, List.drop_drop]

/-- Nothing is written. -/
theorem overwrite_nil (h : i ≤ l.length) : overwrite l i [] = some l := by
  rw [overwrite, if_pos (by simpa using h), List.nil_append, List.length_nil, Nat.add_zero,
    List.take_append_drop]

/-- What is written one after the other can be written at once. -/
theorem overwrite_append {src' l'' : List A} (h : overwrite l i src = some l')
    (h' : overwrite l' (i + src.length) src' = some l'') : overwrite l i (src ++ src') = some l'' := by
  have hlength := length_overwrite h
  obtain ⟨hle, heq⟩ := overwrite_eq_some h
  obtain ⟨hle', rfl⟩ := overwrite_eq_some h'
  have htake : (l.take i).length = i := by
    rw [List.length_take]
    omega
  have hbefore : l'.take (i + src.length) = l.take i ++ src := by
    have hlen : (l.take i ++ src).length = i + src.length := by
      rw [List.length_append, htake]
    rw [heq, ← List.append_assoc, ← hlen, List.take_left]
  have hafter : l'.drop (i + src.length + src'.length) = l.drop (i + (src.length + src'.length)) := by
    have hlen : (l.take i ++ src).length = i + src.length := by
      rw [List.length_append, htake]
    rw [heq, ← List.append_assoc, ← List.drop_drop, ← hlen, List.drop_left, hlen, List.drop_drop,
      Nat.add_assoc]
  rw [overwrite, List.length_append, if_pos (by omega), hbefore, hafter, List.append_assoc,
    List.append_assoc]

/-- The items of a segment. -/
theorem getElem?_segment {s : List A} (h : segment l i n = some s) (hj : j < n) :
    s[j]? = l[i + j]? := by
  rw [segment, if_pos (le_length_of_segment h)] at h
  cases h
  rw [List.getElem?_take_of_lt hj, List.getElem?_drop]

end SpiderMonkey.Segments
