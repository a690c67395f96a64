import SpiderMonkey.Vm.RegExpReplaceSound

/-!
# Removing the matches

Where the replacement is empty, the ranges between the matches are collected, and the string is made
of them. It is the text with the matches replaced by nothing. What is kept for the statics is the
index behind the last match but one.
-/

namespace SpiderMonkey.Vm.RegExpReplace

open StringReplace (JSString concatStrings newDependentString)
open Rope (maxLength)
open RegExpShared

variable {grows : ℕ → Bool} {text repstr : List UInt16} {m : Match} {ms : List Match}
  {re : RegExpShared} {s : RemoveState} {overflows : Prop}

/-! ## The loop over the matches -/

/-- The state after one match more. -/
def RemoveState.next (s : RemoveState) (m : Match) : RemoveState where
  startIndex := if m.isEmpty then m.limit + 1 else m.limit
  lastIndex := m.limit
  lazyIndex := s.lastIndex
  ranges :=
    if s.lastIndex < m.start then s.ranges ++ [⟨s.lastIndex, m.start - s.lastIndex⟩] else s.ranges

/-- The loop for a global expression goes through the matches. -/
theorem removeLoop_global (hglobal : re.global = true) (fuel : ℕ) :
    removeLoop text re fuel s = (re.matchesFrom text fuel s.startIndex).foldl RemoveState.next s := by
  induction fuel generalizing s with
  | zero => rfl
  | succ fuel ih =>
    rw [removeLoop, matchesFrom]
    by_cases hlt : text.length < s.startIndex
    · rw [if_pos hlt, execute_of_lt hlt]
      rfl
    · rw [if_neg hlt]
      cases re.execute text s.startIndex with
      | none => rfl
      | some m =>
        dsimp only
        rw [if_pos hglobal]
        exact ih

/-- The loop goes through the matches that a replacement is about. -/
theorem removeLoop_eq :
    removeLoop text re (text.length + 1) ⟨0, 0, 0, []⟩ =
      (re.matchesOf text).foldl RemoveState.next ⟨0, 0, 0, []⟩ := by
  rw [matchesOf]
  split_ifs with hglobal
  · exact removeLoop_global hglobal (text.length + 1)
  · rw [removeLoop, if_neg (Nat.not_lt_zero _)]
    dsimp only
    cases re.execute text 0 with
    | none => rfl
    | some m =>
      dsimp only
      rw [if_neg hglobal]
      rfl

/-- The text of some ranges. -/
def rangesText (text : List UInt16) (ranges : List StringRange) : List UInt16 :=
  ranges.flatMap (StringRange.chars text)

/-- The text of some ranges and one more. -/
theorem rangesText_append (ranges : List StringRange) (range : StringRange) :
    rangesText text (ranges ++ [range]) = rangesText text ranges ++ range.chars text := by
  rw [rangesText, List.flatMap_append, List.flatMap_singleton]
  rfl

/-- The ranges after one match more, if it is in order. -/
theorem rangesText_next (text : List UInt16) (hstart : s.lastIndex ≤ m.start) :
    rangesText text (s.next m).ranges =
      rangesText text s.ranges ++ (text.drop s.lastIndex).take (m.start - s.lastIndex) := by
  show rangesText text (if s.lastIndex < m.start then _ else _) = _
  split_ifs with hlt
  · exact rangesText_append s.ranges ⟨s.lastIndex, m.start - s.lastIndex⟩
  · rw [show m.start - s.lastIndex = 0 by omega, List.take_zero, List.append_nil]

/-- The ranges are the text without the matches, up to the last index, and are not longer than that. -/
theorem foldl_next (hms : Ordered text s.lastIndex ms)
    (hs : (rangesText text s.ranges).length ≤ s.lastIndex) :
    rangesText text (ms.foldl RemoveState.next s).ranges ++
        text.drop (ms.foldl RemoveState.next s).lastIndex =
      rangesText text s.ranges ++ replaceMatches text (fun _ => []) s.lastIndex ms ∧
      (rangesText text (ms.foldl RemoveState.next s).ranges).length ≤
        (ms.foldl RemoveState.next s).lastIndex := by
  induction ms generalizing s with
  | nil => exact ⟨rfl, hs⟩
  | cons m ms ih =>
    obtain ⟨hstart, hlimit, _, hms⟩ := hms
    have hnext := rangesText_next text hstart
    have hlength : (rangesText text (s.next m).ranges).length ≤ m.limit := by
      rw [hnext, List.length_append, List.length_take]
      omega
    obtain ⟨htext, hle⟩ := ih (s := s.next m) hms hlength
    rw [List.foldl_cons]
    refine ⟨htext.trans ?_, hle⟩
    rw [hnext, replaceMatches, List.append_assoc, List.nil_append]
    rfl

/-- The last index is behind the last match. -/
theorem lastIndex_foldl : (ms.foldl RemoveState.next s).lastIndex = limitAfter s.lastIndex ms := by
  induction ms generalizing s with
  | nil => rfl
  | cons m ms ih =>
    rw [List.foldl_cons, ih]
    exact limitAfter_cons s.lastIndex

/-! ## The string of the ranges -/

/-- Joining two strings. -/
theorem concatStrings_spec (left right : JSString) :
    match concatStrings left right with
    | some str => str.chars = left.chars ++ right.chars
    | none => maxLength < (left.chars ++ right.chars).length := by
  rw [concatStrings, List.length_append]
  by_cases hl : left.length = 0
  · rw [if_pos hl]
    show right.chars = left.chars ++ right.chars
    rw [List.length_eq_zero_iff.mp hl, List.nil_append]
  by_cases hr : right.length = 0
  · rw [if_neg hl, if_pos hr]
    show left.chars = left.chars ++ right.chars
    rw [List.length_eq_zero_iff.mp hr, List.append_nil]
  rw [if_neg hl, if_neg hr]
  by_cases hlong : maxLength < left.length + right.length
  · rw [if_pos hlong]
    exact hlong
  rw [if_neg hlong]
  split_ifs
  · rfl
  · rfl

/-- What a string with some chars is made from, or that they are too many. -/
def IsStringOf (chars : List UInt16) : Option JSString → Prop
  | some str => str.chars = chars
  | none => maxLength < chars.length

/-- Joining a string, and more after it. -/
theorem isStringOf_bind {left : JSString} {rest : List UInt16} (right : JSString)
    {f : JSString → Option JSString}
    (hf : ∀ str, str.chars = left.chars ++ right.chars → IsStringOf (str.chars ++ rest) (f str)) :
    IsStringOf (left.chars ++ right.chars ++ rest) ((concatStrings left right).bind f) := by
  have hconcat := concatStrings_spec left right
  cases h : concatStrings left right with
  | none =>
    rw [h] at hconcat
    show maxLength < _
    rw [List.length_append]
    exact Nat.lt_of_lt_of_le hconcat (Nat.le_add_right _ _)
  | some str =>
    rw [h] at hconcat
    rw [Option.bind_some, ← show str.chars = left.chars ++ right.chars from hconcat]
    exact hf str hconcat

/-- The loop appends the text of the ranges. -/
theorem appendLoop_spec {ranges : List StringRange} (rope : JSString) (fuel : ℕ)
    (hfuel : ranges.length ≤ fuel) :
    IsStringOf (rope.chars ++ rangesText text ranges) (appendLoop text fuel ranges rope) := by
  induction fuel generalizing ranges rope with
  | zero =>
    rw [List.length_eq_zero_iff.mp (Nat.le_zero.mp hfuel)]
    exact (List.append_nil rope.chars).symm
  | succ fuel ih =>
    cases ranges with
    | nil => exact (List.append_nil rope.chars).symm
    | cons range rest =>
      rw [List.length_cons] at hfuel
      rw [appendLoop]
      cases rangesThatFit 0 (range :: rest) with
      | zero =>
        show IsStringOf (rope.chars ++ (range.chars text ++ rangesText text rest)) _
        rw [← List.append_assoc]
        apply isStringOf_bind (newDependentString (.linear text) range.start range.length)
        intro str _
        exact ih _ (by omega)
      | succ n =>
        have hsplit : rangesText text (range :: rest) =
            rangesText text ((range :: rest).take (n + 1)) ++ rangesText text (rest.drop n) := by
          rw [rangesText, rangesText, rangesText, ← List.flatMap_append]
          exact congrArg _ (List.take_append_drop (n + 1) (range :: rest)).symm
        rw [hsplit, ← List.append_assoc]
        apply isStringOf_bind (flattenSubstrings text ((range :: rest).take (n + 1)))
        intro str _
        apply ih
        rw [List.length_drop]
        omega

/-- The string of some ranges. -/
theorem appendSubstrings_spec (text : List UInt16) (ranges : List StringRange) :
    IsStringOf (rangesText text ranges) (appendSubstrings text ranges) := by
  rw [appendSubstrings.eq_def]
  split
  · rename_i range
    show range.chars text = rangesText text [range]
    exact (List.flatMap_singleton _ range).symm
  · exact appendLoop_spec (.linear []) ranges.length (Nat.le_refl _)

/-! ## The path -/

/-- The statics after some matches were removed: the last one is found again from the index behind
the last but one. -/
def lazyStaticsAfter (re : RegExpShared) (text : List UInt16) (ms : List Match)
    (res : RegExpStatics) : RegExpStatics :=
  if ms = [] then res else res.updateLazily text re (limitAfter 0 ms.dropLast)

/-- The index before the last match. -/
theorem lazyIndex_foldl (h : ms ≠ []) :
    (ms.foldl RemoveState.next s).lazyIndex = limitAfter s.lastIndex ms.dropLast := by
  conv_lhs => rw [← List.dropLast_append_getLast h, List.foldl_append]
  exact lastIndex_foldl

/-- The loop has gone on if there is a match, from the start. -/
theorem startIndex_foldl (h : ms ≠ []) (hms : Ordered text 0 ms) :
    0 < (ms.foldl RemoveState.next ⟨0, 0, 0, []⟩).startIndex := by
  conv_rhs => rw [← List.dropLast_append_getLast h, List.foldl_append]
  show 0 < if (ms.getLast h).isEmpty then _ else (ms.getLast h).limit
  split_ifs with hempty
  · exact Nat.succ_pos _
  · -- a match with something in it does not end at the start
    have hlimit (ms : List Match) (i : ℕ) (hms : Ordered text i ms) (h : ms ≠ []) :
        (ms.getLast h).start ≤ (ms.getLast h).limit := by
      induction ms generalizing i with
      | nil => exact absurd rfl h
      | cons m ms ih =>
        cases ms with
        | nil => exact hms.2.1
        | cons m' ms => exact ih m.limit hms.2.2.2 (List.cons_ne_nil m' ms)
    have hne := mt RegExpShared.isEmpty_iff.mpr hempty
    have hle := hlimit ms 0 hms h
    omega

/-- The removal makes the text with the matches replaced by nothing. -/
theorem strReplaceRegexpRemove_ends (grows : ℕ → Bool) (overflows : Prop) (str : JSString)
    (re : RegExpShared) (res : RegExpStatics) :
    Ends grows overflows (replaceMatches str.chars (fun _ => []) 0 (re.matchesOf str.chars))
      (lazyStaticsAfter re str.chars (re.matchesOf str.chars) res)
      (strReplaceRegexpRemove str re res) := by
  have hordered := re.ordered_matchesOf str.chars
  obtain ⟨htext, hlength⟩ := foldl_next (s := ⟨0, 0, 0, []⟩) hordered (Nat.le_refl 0)
  rw [strReplaceRegexpRemove, lazyStaticsAfter]
  dsimp only at htext ⊢
  rw [removeLoop_eq]
  have hstatics : re.matchesOf str.chars ≠ [] →
      res.updateLazily str.chars re
          ((re.matchesOf str.chars).foldl RemoveState.next ⟨0, 0, 0, []⟩).lazyIndex =
        res.updateLazily str.chars re (limitAfter 0 (re.matchesOf str.chars).dropLast) := by
    intro h
    rw [lazyIndex_foldl h]
  by_cases hmatches : re.matchesOf str.chars = []
  · rw [hmatches, if_pos rfl]
    exact ⟨(List.drop_zero).symm, rfl⟩
  have hstart := startIndex_foldl hmatches hordered
  rw [if_neg hmatches, hstatics hmatches, if_pos hstart]
  generalize (re.matchesOf str.chars).foldl RemoveState.next ⟨0, 0, 0, []⟩ = s at htext hlength ⊢
  rw [show rangesText str.chars [] = [] from rfl, List.nil_append] at htext
  rw [← htext]
  by_cases hlast : s.lastIndex = 0
  · rw [if_pos hlast]
    rw [hlast, Nat.le_zero, List.length_eq_zero_iff] at hlength
    refine ⟨?_, rfl⟩
    rw [hlast, hlength]
    rfl
  · rw [if_neg hlast]
    generalize hranges : (if s.lastIndex < str.chars.length then
      s.ranges ++ [⟨s.lastIndex, str.chars.length - s.lastIndex⟩] else s.ranges) = ranges
    have hall : rangesText str.chars s.ranges ++ str.chars.drop s.lastIndex =
        rangesText str.chars ranges := by
      rw [← hranges]
      split_ifs with hlt
      · rw [rangesText_append, StringRange.chars, ← List.length_drop, List.take_length]
      · rw [List.drop_eq_nil_of_le (Nat.le_of_not_lt hlt), List.append_nil]
    rw [hall]
    by_cases hnil : ranges = []
    · rw [if_pos hnil, hnil]
      exact ⟨rfl, rfl⟩
    · rw [if_neg hnil]
      have hstring := appendSubstrings_spec str.chars ranges
      cases happend : appendSubstrings str.chars ranges with
      | none =>
        rw [happend] at hstring
        exact hstring
      | some result =>
        rw [happend] at hstring
        exact ⟨hstring, rfl⟩

/-! ## Both paths -/

/-- The first scan of a replacement computes the length of what it stands for, unless there are too
many units at some point of it; the second appends that, if there is space for as many units as the
first computed. The replacement of the matches of an expression ends with the text in which each match
is replaced by what the replacement stands for, or fails where memory does not grow, where the length
at some point of a replacement or of the whole does not fit in 32 bits, or where the string would be
too long. It does not append where there is no space. -/
theorem strReplaceRegExp_replaces (grows : ℕ → Bool) (str : JSString) (re : RegExpShared)
    (repstr : List UInt16) (res : RegExpStatics) :
    (∀ text m, LengthOf text m 0 repstr
        (findReplaceLength (res.updateFromMatchPairs text m) repstr) ∧
      ∀ size (sb : StringBuffer),
        findReplaceLength (res.updateFromMatchPairs text m) repstr = some size →
        sb.chars.length + size ≤ sb.capacity →
        doReplace (res.updateFromMatchPairs text m) repstr sb =
            .ok { sb with chars := sb.chars ++ substitute text m repstr }) ∧
      ∃ res', Ends grows (SomeOverflows str.chars repstr (re.matchesOf str.chars))
        (replaceMatches str.chars (substitute str.chars · repstr) 0 (re.matchesOf str.chars)) res'
        (strReplaceRegExp grows str re repstr res) := by
  apply And.intro
  · intro text m
    have hof := RegExpStatics.isOf_updateFromMatchPairs res text m
    have hlength := findReplaceLength_spec repstr hof
    refine ⟨hlength, ?_⟩
    intro size sb hsize hcapacity
    rw [hsize, LengthOf, Nat.zero_add] at hlength
    rw [hlength] at hcapacity
    exact doReplace_spec hof hcapacity
  · rw [strReplaceRegExp]
    by_cases hempty : repstr.length = 0
    · rw [if_pos hempty, List.length_eq_zero_iff.mp hempty]
      exact ⟨_, strReplaceRegexpRemove_ends grows _ str re res⟩
    · rw [if_neg hempty]
      exact ⟨_, strReplaceGeneral_ends grows str re repstr res⟩

end SpiderMonkey.Vm.RegExpReplace
