import SpiderMonkey.Frontend.SourceCoordsSound

/-!
# Runs of readers

In a run whose appends all succeed every table keeps its order and its sentinel, no lookup leaves the
table, and lines and columns are those of the text as far as it was read. One append that fails takes
the sentinel away.
-/

namespace SpiderMonkey.Frontend

open SourceCoords Readers

variable {starts : List ℕ} {text : List UInt16} {ln : UInt32} {c : SourceCoords} {s s' : Readers}
  {offset furthest i : ℕ}

/-- The last line, of those up to an index, that does not start behind an offset. -/
structure IsLineOf (starts : List ℕ) (furthest offset i : ℕ) : Prop where
  le : i ≤ furthest
  start_le : ∃ start, starts[i]? = some start ∧ start ≤ offset
  lt : ∀ j start, i < j → j ≤ furthest → starts[j]? = some start → offset < start

/-- A table is in order, and what is looked up in it are the line and the column in the text, as far
as it was read. -/
structure CoordsCorrect (text : List UInt16) (ln : UInt32) (c : SourceCoords) (furthest : ℕ) :
    Prop where
  sorted : c.lineStartOffsets_.Pairwise (· < ·)
  head : c.lineStartOffsets_[0]? = some 0
  sentinel : c.lineStartOffsets_.getLast? = some MAX_PTR
  lookup : ∀ offset ≤ text.length, ∃ i start c', IsLineOf (lineStarts text) furthest offset i ∧
    (lineStarts text)[i]? = some start ∧ c.lineNum offset = some ((i + ln.toNat) % 2 ^ 32, c') ∧
    c.columnIndex offset = some (offset - start, c')
  onLine : ∀ offset ≤ text.length, ∀ i ≤ furthest, ∃ b,
    c.isOnThisLine offset (c.lineIndexToNum i) = some b ∧
      (b = true ↔ IsLineOf (lineStarts text) furthest offset i)

/-- The line in the table is the line in the text. -/
theorem SourceCoords.Holds.onLine_iff (hc : c.Holds starts ln furthest) (hs : AreStarts starts)
    (hi : i ≤ furthest) (hoffset : offset < MAX_PTR) :
    OnLine c.lineStartOffsets_ offset i ↔ IsLineOf starts furthest offset i := by
  have hlt := hc.furthest_lt
  have hsorted := List.pairwise_iff_getElem.mp hs.sorted
  apply Iff.intro
  · rintro ⟨start, next, hstart, hnext, hle, hltnext⟩
    rw [hc.getElem?_eq hi] at hstart
    refine ⟨hi, ⟨start, hstart, hle⟩, ?_⟩
    intro j start' hij hj hstart'
    rw [hc.getElem?_eq (show i + 1 ≤ furthest by omega)] at hnext
    obtain ⟨hnextlt, hnext⟩ := List.getElem?_eq_some_iff.mp hnext
    obtain ⟨hjlt, hstart'⟩ := List.getElem?_eq_some_iff.mp hstart'
    rcases Nat.lt_or_eq_of_le (Nat.succ_le_of_lt hij) with hgt | heq
    · have hbefore := hsorted (i + 1) j hnextlt hjlt hgt
      omega
    · subst heq
      rw [← hstart', hnext]
      exact hltnext
  · intro hline
    obtain ⟨start, hstart, hle⟩ := hline.start_le
    rcases Nat.lt_or_eq_of_le hi with hbefore | rfl
    · have hnext := List.getElem?_eq_getElem (show i + 1 < starts.length by omega)
      refine ⟨start, _, ?_, ?_, hle, hline.lt (i + 1) _ (Nat.lt_succ_self i) hbefore hnext⟩
      · rw [hc.getElem?_eq hi, hstart]
      · rw [hc.getElem?_eq hbefore, hnext]
    · refine ⟨start, MAX_PTR, ?_, hc.getElem?_sentinel, hle, hoffset⟩
      rw [hc.getElem?_eq hi, hstart]

/-- A table with the starts of the lines of a text is correct. -/
theorem SourceCoords.Holds.correct (hc : c.Holds (lineStarts text) ln furthest)
    (hlength : text.length < MAX_PTR) : CoordsCorrect text ln c furthest := by
  have hs := areStarts_lineStarts hlength
  constructor
  · exact hc.sorted hs
  · exact hc.getElem?_zero hs
  · exact hc.getLast?_eq
  · intro offset hoffset
    have hlt : offset < MAX_PTR := Nat.lt_of_le_of_lt hoffset hlength
    obtain ⟨i, hindex, hon⟩ := hc.exists_lineIndexOf hs hlt
    have hi := hc.le_of_onLine hon
    have hline := (hc.onLine_iff hs hi hlt).mp hon
    obtain ⟨start, hstart, hle⟩ := hline.start_le
    have hget : c.lineStartOffsets_[i]? = some start := by
      rw [hc.getElem?_eq hi, hstart]
    refine ⟨i, start, { c with lastLineIndex_ := i }, hline, hstart, ?_, ?_⟩
    · simp only [SourceCoords.lineNum, hindex, SourceCoords.lineIndexToNum, hc.initial_eq,
        Option.bind_eq_bind, Option.bind_some]
    · simp only [SourceCoords.columnIndex, hindex, hget, hle, guard_true, Option.bind_eq_bind,
        Option.pure_def, Option.bind_some]
  · intro offset hoffset i hi
    have hlt : offset < MAX_PTR := Nat.lt_of_le_of_lt hoffset hlength
    have hwithin : i + 1 < c.lineStartOffsets_.length := by
      rw [hc.length_eq]
      omega
    have hstart := List.getElem?_eq_getElem (show i < c.lineStartOffsets_.length by omega)
    have hnext := List.getElem?_eq_getElem hwithin
    have hindex := hc.lineNumToIndex_eq hs (i := i) (Nat.le_of_lt (Nat.lt_of_le_of_lt hi hc.furthest_lt))
    refine ⟨decide (c.lineStartOffsets_[i] ≤ offset ∧ offset < c.lineStartOffsets_[i + 1]), ?_, ?_⟩
    · simp only [SourceCoords.isOnThisLine, hindex, hwithin, hstart, hnext, guard_true,
        Option.bind_eq_bind, Option.pure_def, Option.bind_some]
    · rw [decide_eq_true_iff, ← hc.onLine_iff hs hi hlt, OnLine]
      simp only [hstart, hnext, Option.some_inj, exists_and_left, exists_eq_left']

/-- Every table has the starts of the lines that its reader came to. -/
def Readers.Inv (text : List UInt16) (ln : UInt32) (s : Readers) : Prop :=
  ∀ i, (s.coords i).Holds (lineStarts text) ln (s.furthest i)

/-- The table of one reader changes. -/
theorem Readers.Inv.setCoords (hs : s.Inv text ln) (hc : c.Holds (lineStarts text) ln (s.furthest i)) :
    (s.setCoords i c).Inv text ln := by
  intro j
  simp only [Readers.setCoords]
  by_cases hj : j = i
  · subst hj
    rw [Function.update_self]
    exact hc
  · rw [Function.update_of_ne hj]
    exact hs j

/-- The table of one reader changes, who comes to a line. -/
theorem Readers.Inv.setCoords_reach (hs : s.Inv text ln) {k : ℕ}
    (hc : c.Holds (lineStarts text) ln (max (s.furthest i) k)) :
    ((s.setCoords i c).reach i k).Inv text ln := by
  intro j
  simp only [Readers.reach, Readers.setCoords]
  by_cases hj : j = i
  · subst hj
    rw [Function.update_self, Function.update_self]
    exact hc
  · rw [Function.update_of_ne hj, Function.update_of_ne hj]
    exact hs j

/-- A step whose appends succeed has a result, and keeps the tables. -/
theorem Readers.Inv.step {op : Op} (hs : s.Inv text ln) (hlength : text.length < MAX_PTR)
    (hissued : s.Issued text op) (happends : s.AppendsSucceed op) :
    ∃ s', s.step text op = some s' ∧ s'.Inv text ln := by
  have hstarts := areStarts_lineStarts hlength
  cases op with
  | add i k grows =>
    obtain ⟨hpos, hk, hlt⟩ := hissued
    have hget := List.getElem?_eq_getElem hlt
    obtain ⟨c', hadd, hc'⟩ := (hs i).add hstarts hpos hk hget happends
    refine ⟨_, ?_, hs.setCoords_reach hc'⟩
    simp only [Readers.step, hget, hadd, Option.bind_eq_bind, Option.bind_some]
  | fill i j grows =>
    obtain ⟨c', hfill, hc'⟩ := (hs i).fill (hs j) happends
    refine ⟨_, ?_, hs.setCoords_reach hc'⟩
    simp only [Readers.step, hfill, Option.bind_eq_bind, Option.bind_some]
  | lineNum i offset =>
    obtain ⟨k, hindex, hon⟩ := (hs i).exists_lineIndexOf hstarts (Nat.lt_of_le_of_lt hissued hlength)
    refine ⟨_, ?_, hs.setCoords ((hs i).setLast ((hs i).le_of_onLine hon))⟩
    simp only [Readers.step, SourceCoords.lineNum, hindex, Option.bind_eq_bind, Option.bind_some]
  | columnIndex i offset =>
    obtain ⟨k, hindex, hon⟩ := (hs i).exists_lineIndexOf hstarts (Nat.lt_of_le_of_lt hissued hlength)
    have hcolumn := ((hs i).correct hlength).lookup offset hissued
    obtain ⟨_, start, c', _, _, _, hcolumn⟩ := hcolumn
    have hc' : c' = { s.coords i with lastLineIndex_ := k } := by
      simp only [SourceCoords.columnIndex, hindex, Option.bind_eq_bind, Option.bind_some,
        Option.bind_eq_some_iff, Option.some_inj, Prod.mk.injEq] at hcolumn
      obtain ⟨_, _, _, _, _, heq⟩ := hcolumn
      exact heq.symm
    refine ⟨_, ?_, hs.setCoords ((hs i).setLast ((hs i).le_of_onLine hon))⟩
    simp only [Readers.step, hcolumn, hc', Option.bind_eq_bind, Option.bind_some]
  | isOnThisLine i offset k =>
    obtain ⟨b, hb, _⟩ := ((hs i).correct hlength).onLine offset hissued.1 k hissued.2
    refine ⟨s, ?_, hs⟩
    simp only [Readers.step, hb, Option.bind_eq_bind, Option.bind_some]

/-- Every run whose appends succeed keeps the tables. -/
theorem Readers.Reachable.inv (h : Reachable AppendsSucceed text ln s)
    (hlength : text.length < MAX_PTR) : s.Inv text ln := by
  induction h with
  | init =>
    intro i
    exact holds_new (areStarts_lineStarts hlength)
  | step _ hissued happends hstep ih =>
    obtain ⟨s', hs', hinv⟩ := ih.step hlength hissued happends
    rw [hs', Option.some_inj] at hstep
    rw [← hstep]
    exact hinv

/-- In every run whose appends succeed, all tables are in order, what is looked up in them is correct,
and no operation leaves a table. -/
theorem Readers.reachable_coordsCorrect (hlength : text.length < MAX_PTR)
    (h : Reachable AppendsSucceed text ln s) :
    (∀ i, CoordsCorrect text ln (s.coords i) (s.furthest i)) ∧
      ∀ op, s.Issued text op → s.AppendsSucceed op → (s.step text op).isSome := by
  have hinv := h.inv hlength
  apply And.intro
  · intro i
    exact (hinv i).correct hlength
  · intro op hissued happends
    obtain ⟨s', hs', _⟩ := hinv.step hlength hissued happends
    rw [hs']
    rfl

/-- The second line of a text is come to. -/
theorem Readers.reachable_coordsCorrect_sample :
    ∃ s, (Readers.init 1).step [0x61, 0x0A, 0x62] (.add 0 1 false) = some s ∧
      (∀ i, CoordsCorrect [0x61, 0x0A, 0x62] 1 (s.coords i) (s.furthest i)) ∧
      ∀ op, s.Issued [0x61, 0x0A, 0x62] op → s.AppendsSucceed op →
        (s.step [0x61, 0x0A, 0x62] op).isSome := by
  have hissued : (Readers.init 1).Issued [0x61, 0x0A, 0x62] (.add 0 1 false) := by decide
  have happends : (Readers.init 1).AppendsSucceed (.add 0 1 false) := by
    intro _ hfull
    exact absurd hfull (by decide)
  have hlength : [(0x61 : UInt16), 0x0A, 0x62].length < MAX_PTR := by decide
  exact ⟨_, rfl, Readers.reachable_coordsCorrect hlength (.step .init hissued happends rfl)⟩

/-- Operations one after the other, each of which there is. -/
def Readers.run (text : List UInt16) : Readers → List Op → Option Readers
  | s, [] => some s
  | s, op :: ops => if s.Issued text op then (s.step text op).bind fun s => run text s ops else none

/-- What operations lead to is reachable. -/
theorem Readers.Reachable.run {ops : List Op} (h : Reachable (fun _ _ => True) text ln s)
    (hrun : s.run text ops = some s') : Reachable (fun _ _ => True) text ln s' := by
  induction ops generalizing s with
  | nil =>
    rw [Readers.run, Option.some_inj] at hrun
    rw [← hrun]
    exact h
  | cons op ops ih =>
    rw [Readers.run] at hrun
    split_ifs at hrun with hissued
    obtain ⟨next, hnext, hrest⟩ := Option.bind_eq_some_iff.mp hrun
    exact ih (h.step hissued trivial hnext) hrest

/-- The operations that come to 127 new lines, where the last append fails. -/
def fillInline : List Op := (List.range 127).map fun k => .add 0 (k + 1) (k < 126)

/-- When the vector cannot grow out of its inline storage, the sentinel is gone, and the next lookup
behind the last line leaves the table. -/
theorem Readers.reachable_coordsCorrect_appendFails :
    ¬ ∀ (text : List UInt16) (ln : UInt32) (s : Readers), text.length < MAX_PTR →
      Reachable (fun _ _ => True) text ln s →
        (s.coords 0).lineStartOffsets_.getLast? = some MAX_PTR ∧
          ∀ offset ≤ text.length, (s.coords 0).lineNum offset ≠ none := by
  intro h
  have hrun : ((Readers.init 1).run (List.replicate 127 0x0A) fillInline).map
      (fun s => ((s.coords 0).lineStartOffsets_.getLast?, (s.coords 0).lineNum 127)) =
        some (some 127, none) := by
    decide +kernel
  obtain ⟨s, hs, hvalues⟩ := Option.map_eq_some_iff.mp hrun
  have hlength : (List.replicate 127 (0x0A : UInt16)).length = 127 := List.length_replicate
  have hbad := h (List.replicate 127 0x0A) 1 s (by rw [hlength]; decide) (Reachable.init.run hs)
  rw [Prod.mk.injEq] at hvalues
  exact hbad.2 127 (Nat.le_of_eq hlength.symm) hvalues.2

end SpiderMonkey.Frontend
