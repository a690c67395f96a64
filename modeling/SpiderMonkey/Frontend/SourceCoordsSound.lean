import SpiderMonkey.Frontend.SourceCoords
import Mathlib.Data.List.GetD

/-!
# What a lookup finds

While no append fails, a table has the starts of the lines that were come to, and a lookup finds the
last of them that is not behind the offset. When the new sentinel does not fit, the table has none.
-/

namespace SpiderMonkey.Frontend

variable {table starts text : List ℕ} {c c' other : SourceCoords} {offset furthest i k lo hi : ℕ}

/-- An offset is on a line: its start is not behind the offset, and the next entry is. -/
def OnLine (table : List ℕ) (offset i : ℕ) : Prop :=
  ∃ start next, table[i]? = some start ∧ table[i + 1]? = some next ∧ start ≤ offset ∧ offset < next

/-- The search narrows the indices down to the line. -/
theorem searchLoop_spec (fuel : ℕ) (hlo : ∃ start, table[lo]? = some start ∧ start ≤ offset)
    (hhi : ∃ next, table[hi + 1]? = some next ∧ offset < next) (hle : lo ≤ hi) (hfuel : hi - lo < fuel) :
    ∃ i, SourceCoords.searchLoop table offset fuel lo hi = some i ∧ OnLine table offset i := by
  induction fuel generalizing lo hi with
  | zero => omega
  | succ fuel ih =>
    rw [SourceCoords.searchLoop]
    split_ifs with hlt
    · have hlength : hi + 1 < table.length := by
        obtain ⟨last, hlast, _⟩ := hhi
        exact (List.getElem?_eq_some_iff.mp hlast).1
      have hmid : lo + (hi - lo) / 2 + 1 < table.length := by omega
      have hget : table[lo + (hi - lo) / 2 + 1]? = some table[lo + (hi - lo) / 2 + 1] :=
        List.getElem?_eq_getElem hmid
      simp only [hget, Option.bind_eq_bind, Option.bind_some]
      split_ifs with hnext
      · exact ih ⟨_, hget, hnext⟩ hhi (by omega) (by omega)
      · exact ih hlo ⟨_, hget, Nat.lt_of_not_le hnext⟩ (by omega) (by omega)
    · obtain rfl : hi = lo := by omega
      obtain ⟨start, hstart, hle'⟩ := hlo
      obtain ⟨next, hnext, hlt'⟩ := hhi
      refine ⟨hi, ?_, start, next, hstart, hnext, hle', hlt'⟩
      simp only [guard_true, Option.bind_eq_bind, Option.pure_def, Option.bind_some]

/-- The entry before the last one is followed by the sentinel. -/
theorem getElem?_of_getLast? {x : ℕ} (h : table.getLast? = some x) (hlength : 2 ≤ table.length) :
    table[table.length - 2 + 1]? = some x := by
  rw [List.getLast?_eq_getElem?] at h
  rw [show table.length - 2 + 1 = table.length - 1 by omega]
  exact h

/-- The binary search finds the line, and keeps its index. -/
theorem searchFrom_spec (hlast : c.lineStartOffsets_.getLast? = some MAX_PTR)
    (hlo : ∃ start, c.lineStartOffsets_[lo]? = some start ∧ start ≤ offset)
    (hlength : lo + 1 < c.lineStartOffsets_.length) (hoffset : offset < MAX_PTR) :
    ∃ i, c.searchFrom offset lo = some (i, { c with lastLineIndex_ := i }) ∧
      OnLine c.lineStartOffsets_ offset i := by
  have hhi := getElem?_of_getLast? hlast (by omega)
  obtain ⟨i, hi, start, next, hstart, hnext, hle, hlt⟩ :=
    searchLoop_spec c.lineStartOffsets_.length hlo ⟨_, hhi, hoffset⟩ (by omega) (by omega)
  refine ⟨i, ?_, start, next, hstart, hnext, hle, hlt⟩
  simp only [SourceCoords.searchFrom, hi, hstart, hnext, hle, hlt, and_self, guard_true,
    Option.bind_eq_bind, Option.pure_def, Option.bind_some]

/-- A lookup finds the line, whatever the last one found. -/
theorem lineIndexOf_spec (hzero : c.lineStartOffsets_[0]? = some 0)
    (hlast : c.lineStartOffsets_.getLast? = some MAX_PTR)
    (hindex : c.lastLineIndex_ + 1 < c.lineStartOffsets_.length) (hoffset : offset < MAX_PTR) :
    ∃ i, c.lineIndexOf offset = some (i, { c with lastLineIndex_ := i }) ∧
      OnLine c.lineStartOffsets_ offset i := by
  -- an entry that is not behind the offset is not the sentinel
  have hmore {j x : ℕ} (hj : c.lineStartOffsets_[j]? = some x) (hx : ¬ offset < x) :
      ∃ y, c.lineStartOffsets_[j + 1]? = some y := by
    have hlt := (List.getElem?_eq_some_iff.mp hj).1
    have hne : j ≠ c.lineStartOffsets_.length - 1 := by
      intro heq
      rw [List.getLast?_eq_getElem?, ← heq, hj, Option.some_inj] at hlast
      omega
    exact ⟨_, List.getElem?_eq_getElem (show j + 1 < _ by omega)⟩
  generalize htable : c.lineStartOffsets_ = table at *
  have hstart := List.getElem?_eq_getElem (show c.lastLineIndex_ < table.length by omega)
  have hnext := List.getElem?_eq_getElem hindex
  generalize table[c.lastLineIndex_] = start at hstart
  generalize table[c.lastLineIndex_ + 1] = next at hnext
  simp only [SourceCoords.lineIndexOf, htable, hstart, hnext, Option.bind_eq_bind, Option.bind_some]
  split_ifs with hle hlt
  · subst htable
    exact ⟨_, rfl, start, next, hstart, hnext, hle, hlt⟩
  · obtain ⟨next₁, hnext₁⟩ := hmore hnext hlt
    simp only [hnext₁, Option.bind_some]
    split_ifs with hlt₁
    · exact ⟨_, rfl, next, next₁, hnext, hnext₁, Nat.le_of_not_lt hlt, hlt₁⟩
    · obtain ⟨next₂, hnext₂⟩ := hmore hnext₁ hlt₁
      simp only [hnext₂, Option.bind_some]
      split_ifs with hlt₂
      · exact ⟨_, rfl, next₁, next₂, hnext₁, hnext₂, Nat.le_of_not_lt hlt₁, hlt₂⟩
      · obtain ⟨next₃, hnext₃⟩ := hmore hnext₂ hlt₂
        have hlength := (List.getElem?_eq_some_iff.mp hnext₃).1
        have hguard : c.lastLineIndex_ + 3 < table.length - 1 := by omega
        simp only [hguard, guard_true, Option.pure_def, Option.bind_some]
        subst htable
        exact searchFrom_spec (c := { c with lastLineIndex_ := c.lastLineIndex_ + 2 }) hlast
          ⟨next₂, hnext₂, Nat.le_of_not_lt hlt₂⟩ (by omega) hoffset
  · subst htable
    exact searchFrom_spec hlast ⟨0, hzero, Nat.zero_le _⟩ (by omega) hoffset

/-- A table has the starts of the lines that were come to. -/
structure SourceCoords.Holds (c : SourceCoords) (starts : List ℕ) (ln : UInt32) (furthest : ℕ) :
    Prop where
  table_eq : c.lineStartOffsets_ = starts.take (furthest + 1) ++ [MAX_PTR]
  furthest_lt : furthest < starts.length
  last_le : c.lastLineIndex_ ≤ furthest
  initial_eq : c.initialLineNum_ = ln.toNat

/-- The starts of lines, as those of a text are. -/
structure AreStarts (starts : List ℕ) : Prop where
  head : starts[0]? = some 0
  sorted : starts.Pairwise (· < ·)
  lt : ∀ start ∈ starts, start < MAX_PTR
  length_le : starts.length ≤ MAX_PTR

/-- Offsets that come one after the other within a stretch of a text. -/
structure StartsWithin (offset length : ℕ) (starts : List ℕ) : Prop where
  sorted : starts.Pairwise (· < ·)
  bounds : ∀ start ∈ starts, offset < start ∧ start ≤ offset + length
  length_le : starts.length ≤ length

/-- Nothing starts in a stretch. -/
theorem startsWithin_nil (offset length : ℕ) : StartsWithin offset length [] :=
  ⟨.nil, nofun, Nat.zero_le _⟩

/-- A line starts behind some units, and the others within the rest. -/
theorem StartsWithin.cons {offset n length : ℕ} (h : StartsWithin (offset + n) length starts)
    (hn : 0 < n) : StartsWithin offset (n + length) ((offset + n) :: starts) := by
  constructor
  · exact List.pairwise_cons.mpr ⟨fun y hy => (h.bounds y hy).1, h.sorted⟩
  · intro start hstart
    rcases List.mem_cons.mp hstart with rfl | hrest
    · omega
    · have hbounds := h.bounds start hrest
      omega
  · have hle := h.length_le
    rw [List.length_cons]
    omega

/-- No line starts behind a unit. -/
theorem StartsWithin.skip {offset length : ℕ} (h : StartsWithin (offset + 1) length starts) :
    StartsWithin offset (1 + length) starts := by
  have hle := h.length_le
  refine ⟨h.sorted, ?_, by omega⟩
  intro start hstart
  have hbounds := h.bounds start hstart
  omega

/-- The starts of lines after the first one come one after the other, and within the text. -/
theorem lineStartsFrom_startsWithin (offset : ℕ) (text : List UInt16) :
    StartsWithin offset text.length (lineStartsFrom offset text) := by
  have hlength (c : UInt16) (cs : List UInt16) : (c :: cs).length = 1 + cs.length := by
    rw [List.length_cons, Nat.add_comm]
  fun_induction lineStartsFrom offset text with
  | case1 offset => exact startsWithin_nil _ _
  | case2 offset c hend => exact (startsWithin_nil (offset + 1) 0).cons Nat.one_pos
  | case3 offset c hend => exact startsWithin_nil _ _
  | case4 offset c d rest hend ih =>
    rw [hlength, hlength, ← Nat.add_assoc]
    exact ih.cons Nat.two_pos
  | case5 offset c d rest _ hend ih =>
    rw [hlength]
    exact ih.cons Nat.one_pos
  | case6 offset c d rest _ hend ih =>
    rw [hlength]
    exact ih.skip

/-- The starts of the lines of a text. -/
theorem areStarts_lineStarts {text : List UInt16} (hlength : text.length < MAX_PTR) :
    AreStarts (lineStarts text) := by
  obtain ⟨hsorted, hbounds, hle⟩ := lineStartsFrom_startsWithin 0 text
  constructor
  · rfl
  · exact List.pairwise_cons.mpr ⟨fun y hy => (hbounds y hy).1, hsorted⟩
  · intro start hstart
    rcases List.mem_cons.mp hstart with rfl | hrest
    · exact Nat.zero_lt_of_lt hlength
    · have hbound := hbounds start hrest
      omega
  · rw [lineStarts, List.length_cons]
    omega

namespace SourceCoords.Holds

variable {ln : UInt32}

/-- The length of a table. -/
theorem length_eq (hc : c.Holds starts ln furthest) :
    c.lineStartOffsets_.length = furthest + 2 := by
  have hlt := hc.furthest_lt
  rw [hc.table_eq, List.length_append, List.length_take, List.length_singleton]
  omega

/-- The entries before the sentinel. -/
theorem getElem?_eq (hc : c.Holds starts ln furthest) (hi : i ≤ furthest) :
    c.lineStartOffsets_[i]? = starts[i]? := by
  have hlt := hc.furthest_lt
  have hlength : i < (starts.take (furthest + 1)).length := by
    rw [List.length_take]
    omega
  rw [hc.table_eq, List.getElem?_append_left hlength, List.getElem?_take_of_lt (by omega)]

/-- The sentinel is at the end. -/
theorem getLast?_eq (hc : c.Holds starts ln furthest) :
    c.lineStartOffsets_.getLast? = some MAX_PTR := by
  rw [hc.table_eq, List.getLast?_concat]

/-- The index of the sentinel. -/
theorem getElem?_sentinel (hc : c.Holds starts ln furthest) :
    c.lineStartOffsets_[furthest + 1]? = some MAX_PTR := by
  have hlast := hc.getLast?_eq
  rw [List.getLast?_eq_getElem?, hc.length_eq] at hlast
  exact hlast

/-- The first line starts at zero. -/
theorem getElem?_zero (hc : c.Holds starts ln furthest) (hs : AreStarts starts) :
    c.lineStartOffsets_[0]? = some 0 := by
  rw [hc.getElem?_eq (Nat.zero_le _), hs.head]

/-- A table is strictly increasing. -/
theorem sorted (hc : c.Holds starts ln furthest) (hs : AreStarts starts) :
    c.lineStartOffsets_.Pairwise (· < ·) := by
  rw [hc.table_eq, List.pairwise_append]
  refine ⟨hs.sorted.sublist (List.take_sublist _ _), List.pairwise_singleton _ _, ?_⟩
  intro x hx y hy
  rw [List.mem_singleton.mp hy]
  exact hs.lt x (List.mem_of_mem_take hx)

/-- Numbers of lines stand for their indices, though they may wrap. -/
theorem lineNumToIndex_eq (hc : c.Holds starts ln furthest) (hs : AreStarts starts)
    (hi : i ≤ starts.length) : c.lineNumToIndex (c.lineIndexToNum i) = i := by
  have hlt : ln.toNat < 2 ^ 32 := ln.toNat_lt
  have hlength := hs.length_le
  rw [SourceCoords.lineNumToIndex, SourceCoords.lineIndexToNum, hc.initial_eq]
  rw [MAX_PTR] at hlength
  omega

/-- The result of a lookup is an index within the table. -/
theorem le_of_onLine (hc : c.Holds starts ln furthest) (hi : OnLine c.lineStartOffsets_ offset i) :
    i ≤ furthest := by
  obtain ⟨_, next, _, hnext, _, _⟩ := hi
  have hlt := (List.getElem?_eq_some_iff.mp hnext).1
  rw [hc.length_eq] at hlt
  omega

/-- A lookup changes only what it found. -/
theorem setLast (hc : c.Holds starts ln furthest) (hi : i ≤ furthest) :
    { c with lastLineIndex_ := i }.Holds starts ln furthest :=
  ⟨hc.table_eq, hc.furthest_lt, hi, hc.initial_eq⟩

/-- A lookup finds a line. -/
theorem exists_lineIndexOf (hc : c.Holds starts ln furthest) (hs : AreStarts starts)
    (hoffset : offset < MAX_PTR) :
    ∃ i, c.lineIndexOf offset = some (i, { c with lastLineIndex_ := i }) ∧
      OnLine c.lineStartOffsets_ offset i := by
  apply lineIndexOf_spec (hc.getElem?_zero hs) hc.getLast?_eq _ hoffset
  have hle := hc.last_le
  rw [hc.length_eq]
  omega

/-- What follows the sentinel that was overwritten. -/
theorem set_sentinel (hc : c.Holds starts ln furthest) {start : ℕ}
    (hstart : starts[furthest + 1]? = some start) :
    c.lineStartOffsets_.set (furthest + 1) start = starts.take (furthest + 2) := by
  obtain ⟨hlt, hget⟩ := List.getElem?_eq_some_iff.mp hstart
  have hlength : (starts.take (furthest + 1)).length = furthest + 1 := by
    rw [List.length_take]
    omega
  rw [hc.table_eq, List.set_append_right _ _ (Nat.le_of_eq hlength), hlength, Nat.sub_self,
    List.take_succ_eq_append_getElem hlt, hget]
  rfl

end SourceCoords.Holds

namespace SourceCoords

variable {ln : UInt32} {x : ℕ} {grows : Bool}

/-- An append that does not fail. -/
theorem append_eq (grows : Bool) (h : c.capacity ≤ c.lineStartOffsets_.length → grows = true) :
    (c.append x grows).lineStartOffsets_ = c.lineStartOffsets_ ++ [x] ∧
      c.capacity ≤ (c.append x grows).capacity ∧
      (c.append x grows).initialLineNum_ = c.initialLineNum_ ∧
      (c.append x grows).lastLineIndex_ = c.lastLineIndex_ := by
  rw [append]
  split_ifs with hlt hgrows
  · exact ⟨rfl, Nat.le_refl _, rfl, rfl⟩
  · exact ⟨rfl, by dsimp only; omega, rfl, rfl⟩
  · exact absurd (h (Nat.le_of_not_lt hlt)) hgrows

/-- Appends that do not fail. -/
theorem appendFrom_eq (grows : ℕ → Bool) (xs : List ℕ) (hi : c.lineStartOffsets_.length = i)
    (h : ∀ k < i + xs.length, c.capacity ≤ k → grows k = true) :
    (appendFrom grows c i xs).lineStartOffsets_ = c.lineStartOffsets_ ++ xs ∧
      (appendFrom grows c i xs).initialLineNum_ = c.initialLineNum_ ∧
      (appendFrom grows c i xs).lastLineIndex_ = c.lastLineIndex_ := by
  induction xs generalizing c i with
  | nil => exact ⟨(List.append_nil _).symm, rfl, rfl⟩
  | cons x xs ih =>
    rw [List.length_cons] at h
    obtain ⟨htable, hcapacity, hinitial, hlast⟩ :=
      append_eq (c := c) (x := x) (grows i) (by rw [hi]; exact h i (by omega))
    obtain ⟨htable', hinitial', hlast'⟩ := ih (c := c.append x (grows i)) (i := i + 1)
      (by rw [htable, List.length_append, hi]; rfl)
      fun k hk hle => h k (by omega) (Nat.le_trans hcapacity hle)
    refine ⟨?_, hinitial'.trans hinitial, hlast'.trans hlast⟩
    rw [appendFrom, htable', htable, List.append_assoc, List.singleton_append]

/-- The table of a text of which nothing was read. -/
theorem holds_new (hs : AreStarts starts) : (new_ ln.toNat).Holds starts ln 0 := by
  obtain ⟨hlt, hget⟩ := List.getElem?_eq_some_iff.mp hs.head
  refine ⟨?_, hlt, Nat.le_refl 0, rfl⟩
  rw [List.take_succ_eq_append_getElem hlt, hget]
  rfl

/-- A line is added, or was there already. -/
theorem Holds.add (hc : c.Holds starts ln furthest) (hs : AreStarts starts) {start : ℕ}
    (hpos : 0 < k) (hk : k ≤ furthest + 1) (hstart : starts[k]? = some start)
    (hgrows : k = c.lineStartOffsets_.length - 1 → c.capacity ≤ c.lineStartOffsets_.length →
      grows = true) :
    ∃ c', c.add (c.lineIndexToNum k) start grows = some c' ∧
      c'.Holds starts ln (max furthest k) := by
  have hlt := (List.getElem?_eq_some_iff.mp hstart).1
  have hsentinel : c.lineStartOffsets_.length - 1 = furthest + 1 := by
    rw [hc.length_eq]
    rfl
  rw [hsentinel] at hgrows
  simp only [SourceCoords.add, hc.lineNumToIndex_eq hs hlt.le, hsentinel, hc.getElem?_zero hs,
    hc.getElem?_sentinel, and_self, guard_true, Option.bind_eq_bind, Option.pure_def,
    Option.bind_some]
  split_ifs with hnew
  · subst hnew
    have hset := hc.set_sentinel hstart
    generalize hc' : { c with lineStartOffsets_ := c.lineStartOffsets_.set (furthest + 1) start } = c'
    have htable' : c'.lineStartOffsets_ = starts.take (furthest + 2) := by
      rw [← hc']
      exact hset
    have happend : (c'.append MAX_PTR grows).lineStartOffsets_ = c'.lineStartOffsets_ ++ [MAX_PTR] ∧
        c'.capacity ≤ (c'.append MAX_PTR grows).capacity ∧
        (c'.append MAX_PTR grows).initialLineNum_ = c'.initialLineNum_ ∧
        (c'.append MAX_PTR grows).lastLineIndex_ = c'.lastLineIndex_ := by
      apply append_eq
      intro hle
      apply hgrows rfl
      rw [← hc', List.length_set] at hle
      exact hle
    obtain ⟨htable, _, hinitial, hlast⟩ := happend
    refine ⟨_, rfl, ?_, ?_, ?_, ?_⟩
    · rw [htable, htable', Nat.max_eq_right (Nat.le_succ _)]
    · rw [Nat.max_eq_right (Nat.le_succ _)]
      exact hlt
    · have hle := hc.last_le
      rw [hlast, ← hc']
      dsimp only
      omega
    · rw [hinitial, ← hc']
      exact hc.initial_eq
  · have hle : k ≤ furthest := by omega
    simp only [hc.getElem?_eq hle, hstart, guard_true, Option.pure_def, Option.bind_some]
    rw [Nat.max_eq_left hle]
    exact ⟨c, rfl, hc⟩

/-- The entries of another table are taken. -/
theorem Holds.fill {further : ℕ} (hc : c.Holds starts ln furthest)
    (hother : other.Holds starts ln further) {grows : ℕ → Bool}
    (hgrows : ∀ k < other.lineStartOffsets_.length, c.capacity ≤ k → grows k = true) :
    ∃ c', c.fill other grows = some c' ∧ c'.Holds starts ln (max furthest further) := by
  simp only [SourceCoords.fill, hc.getLast?_eq, hother.getLast?_eq, guard_true, Option.bind_eq_bind,
    Option.pure_def, Option.bind_some]
  split_ifs with hle
  · rw [hc.length_eq, hother.length_eq] at hle
    rw [Nat.max_eq_left (by omega)]
    exact ⟨c, rfl, hc⟩
  · rw [hc.length_eq, hother.length_eq] at hle
    have hfurther := hother.furthest_lt
    have hsentinel : c.lineStartOffsets_.length - 1 = furthest + 1 := by
      rw [hc.length_eq]
      rfl
    have hget : starts[furthest + 1]? = some starts[furthest + 1] :=
      List.getElem?_eq_getElem (by omega)
    have hset := hc.set_sentinel hget
    rw [hsentinel, hother.getElem?_eq (by omega), hget]
    simp only [Option.bind_some]
    generalize hc' : { c with
      lineStartOffsets_ := c.lineStartOffsets_.set (furthest + 1) starts[furthest + 1] } = c'
    have htable' : c'.lineStartOffsets_ = starts.take (furthest + 2) := by
      rw [← hc']
      exact hset
    have hlength' : c'.lineStartOffsets_.length = furthest + 2 := by
      rw [htable', List.length_take]
      omega
    have hcapacity' : c'.capacity = c.capacity := by
      rw [← hc']
    obtain ⟨htable, hinitial, hlast⟩ :=
      appendFrom_eq (c := c') (i := furthest + 1 + 1) grows
        (other.lineStartOffsets_.drop (furthest + 1 + 1)) hlength' (by
          intro k hk hle'
          rw [List.length_drop, hother.length_eq] at hk
          rw [hcapacity'] at hle'
          exact hgrows k (by rw [hother.length_eq]; omega) hle')
    refine ⟨_, rfl, ?_, ?_, ?_, ?_⟩
    · have htake : starts.take (furthest + 2) = (starts.take (further + 1)).take (furthest + 2) := by
        rw [List.take_take, Nat.min_eq_left (by omega)]
      have hdrop : (starts.take (further + 1) ++ [MAX_PTR]).drop (furthest + 1 + 1) =
          (starts.take (further + 1)).drop (furthest + 2) ++ [MAX_PTR] := by
        apply List.drop_append_of_le_length
        rw [List.length_take]
        omega
      rw [htable, htable', hother.table_eq, hdrop, htake, ← List.append_assoc,
        List.take_append_drop, Nat.max_eq_right (by omega)]
    · rw [Nat.max_eq_right (by omega)]
      exact hfurther
    · have hlast' := hc.last_le
      rw [hlast, ← hc']
      dsimp only
      omega
    · rw [hinitial, ← hc']
      exact hc.initial_eq

end SourceCoords

end SpiderMonkey.Frontend
