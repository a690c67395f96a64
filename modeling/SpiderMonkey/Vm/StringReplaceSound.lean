import SpiderMonkey.Vm.StringReplaceLeaves

/-!
# What a replacement makes

The text with the first match replaced, and when the code makes it. In a rope, the leaf that has the
start of the match gets the replacement. An empty match is in no leaf, so that the replacement is
lost.
-/

namespace SpiderMonkey.Vm.StringReplace

open Lib StringMatch
open Rope (maxLength)

/-- The replacement with its dollars interpreted, given the text before the match, the match, and the
text after it. -/
inductive Expands (before matched after : List UInt16) : List UInt16 → List UInt16 → Prop
  | nil : Expands before matched after [] []
  | dollar {rest e : List UInt16} (h : Expands before matched after rest e) :
    Expands before matched after (dollar :: dollar :: rest) (dollar :: e)
  | matched {rest e : List UInt16} (h : Expands before matched after rest e) :
    Expands before matched after (dollar :: ampersand :: rest) (matched ++ e)
  | before {rest e : List UInt16} (h : Expands before matched after rest e) :
    Expands before matched after (dollar :: backquote :: rest) (before ++ e)
  | after {rest e : List UInt16} (h : Expands before matched after rest e) :
    Expands before matched after (dollar :: apostrophe :: rest) (after ++ e)
  | other {c : UInt16} {rest e : List UInt16}
    (hc : c = dollar →
      ∀ d ∈ rest.head?, d ∉ [dollar, ampersand, backquote, apostrophe])
    (h : Expands before matched after rest e) : Expands before matched after (c :: rest) (c :: e)

/-- A text that is not too long for a string. -/
def fits (text : List UInt16) : Option (List UInt16) :=
  if text.length ≤ maxLength then some text else none

/-- What a replacement has to make: the text itself if the pattern does not occur, and else the text
with the expansion in place of the first occurrence, unless that is too long. -/
def Replaces (text pat repstr : List UInt16) (result : Option (List UInt16)) : Prop :=
  ∀ first, IsFirst pat text first →
    match first with
    | none => result = some text
    | some m => ∃ e, Expands (text.take m) pat (text.drop (m + pat.length)) repstr e ∧
        result = fits (text.take m ++ e ++ text.drop (m + pat.length))

variable {text pat repstr a U leaf : List UInt16} {r : Option JSString} {x rep : JSString}
  {start limit pos m : ℕ} {leaves : List (List UInt16)}

/-- Joining one string more to what is built. -/
theorem concatStrings_fits (h : r.map JSString.chars = fits a) (hx : x.chars.length ≤ maxLength) :
    (r.bind fun res => concatStrings res x).map JSString.chars = fits (a ++ x.chars) := by
  rw [fits] at h
  rw [fits, List.length_append]
  cases r with
  | none =>
    have hlong : ¬ a.length ≤ maxLength := by
      intro hle
      rw [if_pos hle] at h
      cases h
    rw [if_neg (by omega)]
    rfl
  | some left =>
    have hle : a.length ≤ maxLength := by
      by_contra hlong
      rw [if_neg hlong] at h
      cases h
    rw [if_pos hle] at h
    have hchars : left.chars = a := Option.some_inj.mp h
    rw [Option.bind_some, concatStrings, JSString.length, JSString.length, hchars]
    by_cases hl : a.length = 0
    · rw [if_pos hl, if_pos (by omega), List.length_eq_zero_iff.mp hl]
      rfl
    rw [if_neg hl]
    by_cases hr : x.chars.length = 0
    · rw [if_pos hr, if_pos (by omega), List.length_eq_zero_iff.mp hr, List.append_nil,
        Option.map_some, hchars]
    rw [if_neg hr]
    by_cases hlong : maxLength < a.length + x.chars.length
    · rw [if_pos hlong, if_neg (Nat.not_le_of_lt hlong)]
      rfl
    rw [if_neg hlong, if_pos (Nat.le_of_not_lt hlong)]
    split_ifs
    · rfl
    · rw [Option.map_some, JSString.chars, hchars]

/-- What a leaf adds to the result. -/
def piece (rep : List UInt16) (start limit pos : ℕ) (leaf : List UInt16) : List UInt16 :=
  if pos < limit ∧ start < pos + leaf.length then
    (if pos ≤ start then leaf.take (start - pos) ++ rep else []) ++ leaf.drop (limit - pos)
  else leaf

/-- What some leaves add to the result. -/
def pieces (rep : List UInt16) (start limit : ℕ) : ℕ → List (List UInt16) → List UInt16
  | _, [] => []
  | pos, leaf :: rest =>
    piece rep start limit pos leaf ++ pieces rep start limit (pos + leaf.length) rest

/-- A part of a string is not longer. -/
theorem length_newDependentString (base : JSString) (i n : ℕ) :
    (newDependentString base i n).chars.length ≤ base.chars.length := by
  rw [newDependentString, JSString.chars, List.length_take, List.length_drop]
  omega

/-- A leaf adds its piece. -/
theorem replaceInLeaf_eq (start limit pos : ℕ) (h : r.map JSString.chars = fits a)
    (hleaf : leaf.length ≤ maxLength) (hrep : rep.chars.length ≤ maxLength) :
    ∃ r' : Option JSString, (r.bind fun res => replaceInLeaf rep start limit (pos, res) leaf) =
        r'.map (fun res => (pos + leaf.length, res)) ∧
      r'.map JSString.chars = fits (a ++ piece rep.chars start limit pos leaf) := by
  have hlength : (JSString.linear leaf).length = leaf.length := rfl
  have hpart (i n : ℕ) : (newDependentString (.linear leaf) i n).chars.length ≤ maxLength :=
    Nat.le_trans (length_newDependentString _ i n) hleaf
  by_cases hoverlap : pos < limit ∧ start < pos + leaf.length
  · have hright : (newDependentString (.linear leaf) (limit - pos) (pos + leaf.length - limit)).chars =
        leaf.drop (limit - pos) := by
      apply List.take_of_length_le
      rw [JSString.chars, List.length_drop]
      omega
    -- the replacement, in the leaf that has the start of the match
    have hstart : ∃ r₁ : Option JSString,
        (r.bind fun res =>
          if pos ≤ start then
            (concatStrings res (newDependentString (.linear leaf) 0 (start - pos))).bind
              fun res => concatStrings res rep
          else some res) = r₁ ∧
        r₁.map JSString.chars =
          fits (a ++ if pos ≤ start then leaf.take (start - pos) ++ rep.chars else []) := by
      refine ⟨_, rfl, ?_⟩
      by_cases hpos : pos ≤ start
      · simp only [if_pos hpos]
        rw [← Option.bind_assoc, ← List.append_assoc]
        exact concatStrings_fits (concatStrings_fits h (hpart 0 (start - pos))) hrep
      · simp only [if_neg hpos, List.append_nil]
        rw [Option.bind_fun_some]
        exact h
    obtain ⟨r₁, hr₁, hfits⟩ := hstart
    -- the rest of the leaf, after the match
    have hend : ∃ r₂ : Option JSString,
        (r₁.bind fun res =>
          if limit < pos + leaf.length then
            concatStrings res
              (newDependentString (.linear leaf) (limit - pos) (pos + leaf.length - limit))
          else some res) = r₂ ∧
        r₂.map JSString.chars = fits (a ++ piece rep.chars start limit pos leaf) := by
      refine ⟨_, rfl, ?_⟩
      rw [piece, if_pos hoverlap, ← List.append_assoc]
      by_cases hlimit : limit < pos + leaf.length
      · simp only [if_pos hlimit]
        rw [← hright]
        exact concatStrings_fits hfits (hpart _ _)
      · simp only [if_neg hlimit]
        rw [Option.bind_fun_some, List.drop_eq_nil_of_le (by omega), List.append_nil]
        exact hfits
    obtain ⟨r₂, hr₂, hpiece⟩ := hend
    refine ⟨r₂, ?_, hpiece⟩
    rw [← hr₂, ← hr₁]
    simp only [replaceInLeaf, hlength, if_pos hoverlap, Option.bind_eq_bind, Option.map_eq_bind,
      Option.bind_assoc, Function.comp_def]
    by_cases hpos : pos ≤ start <;> by_cases hlimit : limit < pos + leaf.length <;>
      simp only [hpos, hlimit, if_true, if_false, Option.bind_some, Option.bind_assoc]
  · refine ⟨r.bind fun res => concatStrings res (.linear leaf), ?_, ?_⟩
    · cases r with
      | none => rfl
      | some res =>
        simp only [replaceInLeaf, hlength, if_neg hoverlap, Option.bind_eq_bind, Option.bind_some,
          Option.map_eq_bind, Function.comp_def]
    · rw [piece, if_neg hoverlap]
      exact concatStrings_fits h hleaf

/-- The leaves add their pieces. -/
theorem foldlM_replaceInLeaf (h : r.map JSString.chars = fits a)
    (hleaves : ∀ leaf ∈ leaves, leaf.length ≤ maxLength) (hrep : rep.chars.length ≤ maxLength) :
    (r.bind fun res => leaves.foldlM (replaceInLeaf rep start limit) (pos, res)).map (·.2.chars) =
      fits (a ++ pieces rep.chars start limit pos leaves) := by
  induction leaves generalizing r a pos with
  | nil =>
    rw [pieces, List.append_nil, ← h]
    cases r <;> rfl
  | cons leaf rest ih =>
    obtain ⟨r', hr', hpiece⟩ :=
      replaceInLeaf_eq start limit pos h (hleaves leaf List.mem_cons_self) hrep
    have hrest : (r'.bind fun res =>
        rest.foldlM (replaceInLeaf rep start limit) (pos + leaf.length, res)).map (·.2.chars) = _ :=
      ih hpiece fun leaf' hleaf' => hleaves leaf' (List.mem_cons_of_mem _ hleaf')
    rw [pieces, ← List.append_assoc, ← hrest]
    simp only [List.foldlM_cons, Option.bind_eq_bind]
    rw [← Option.bind_assoc, hr']
    cases r' <;> rfl

/-- What comes of a text from a position on. -/
def remaining (rep : List UInt16) (start limit pos : ℕ) (U : List UInt16) : List UInt16 :=
  (if pos ≤ start then U.take (start - pos) ++ rep else []) ++ U.drop (limit - pos)

/-- A leaf's piece, and what comes of the text after it. -/
theorem piece_append_remaining (rep : List UInt16) (hstart : start < limit) :
    piece rep start limit pos leaf ++ remaining rep start limit (pos + leaf.length) U =
      remaining rep start limit pos (leaf ++ U) := by
  rw [piece, remaining, remaining, List.take_append, List.drop_append]
  by_cases hoverlap : pos < limit ∧ start < pos + leaf.length
  · rw [if_pos hoverlap, if_neg (show ¬ pos + leaf.length ≤ start by omega), List.nil_append,
      show start - pos - leaf.length = 0 by omega, List.take_zero, List.append_nil,
      Nat.sub_sub, List.append_assoc]
  · rw [if_neg hoverlap, Nat.sub_sub, Nat.sub_sub]
    by_cases hpos : pos + leaf.length ≤ start
    · rw [if_pos hpos, if_pos (show pos ≤ start by omega),
        List.take_of_length_le (show leaf.length ≤ start - pos by omega),
        List.drop_eq_nil_of_le (show leaf.length ≤ limit - pos by omega), List.nil_append,
        List.append_assoc, List.append_assoc, List.append_assoc]
    · rw [if_neg hpos, if_neg (show ¬ pos ≤ start by omega), List.nil_append, List.nil_append,
        show limit - pos = 0 by omega, List.drop_zero]

/-- The pieces of the leaves are what comes of their text. -/
theorem pieces_eq_remaining (rep : List UInt16) (hstart : start < limit)
    (hlimit : limit ≤ pos + leaves.flatten.length) :
    pieces rep start limit pos leaves = remaining rep start limit pos leaves.flatten := by
  induction leaves generalizing pos with
  | nil =>
    rw [List.flatten_nil, List.length_nil] at hlimit
    rw [pieces, remaining, if_neg (show ¬ pos ≤ start by omega)]
    exact List.drop_nil.symm
  | cons leaf rest ih =>
    rw [List.flatten_cons, List.length_append] at hlimit
    rw [pieces, ih (by omega), piece_append_remaining rep hstart, List.flatten_cons]

/-- No leaf has an empty match in it. -/
theorem pieces_of_empty (rep : List UInt16) : pieces rep 0 0 pos leaves = leaves.flatten := by
  induction leaves generalizing pos with
  | nil => rfl
  | cons leaf rest ih =>
    rw [pieces, piece, if_neg (by omega), ih, List.flatten_cons]

/-- A unit that starts nothing special is kept. -/
theorem interpretDollars_other {c : UInt16} {rest : List UInt16}
    (hc : c = dollar → ∀ d ∈ rest.head?, d ∉ [dollar, ampersand, backquote, apostrophe]) :
    interpretDollars text start limit (c :: rest) = c :: interpretDollars text start limit rest := by
  cases rest with
  | nil => rfl
  | cons d rest =>
    rw [interpretDollars]
    by_cases hdollar : c = dollar
    · have hd := hc hdollar d rfl
      simp only [List.mem_cons, List.not_mem_nil, or_false, not_or] at hd
      rw [if_neg (not_not.mpr hdollar), if_neg hd.1, if_neg hd.2.1, if_neg hd.2.2.1, if_neg hd.2.2.2]
    · rw [if_pos hdollar]

/-- The dollars are interpreted as they have to be. -/
theorem expands_interpretDollars (text : List UInt16) (start limit : ℕ) (repstr : List UInt16) :
    Expands (text.take start) ((text.drop start).take (limit - start)) (text.drop limit) repstr
      (interpretDollars text start limit repstr) := by
  fun_induction interpretDollars text start limit repstr with
  | case1 => exact .nil
  | case2 c => exact .other (fun _ _ hd => nomatch hd) .nil
  | case3 c d rest hc ih => exact .other (fun h => absurd h hc) ih
  | case4 c rest hc ih =>
    rw [not_not.mp hc]
    exact .dollar ih
  | case5 c rest hc hd ih =>
    rw [not_not.mp hc]
    exact .matched ih
  | case6 c rest hc hd hd' ih =>
    rw [not_not.mp hc]
    exact .before ih
  | case7 c rest hc hd hd' hd'' ih =>
    rw [not_not.mp hc]
    exact .after ih
  | case8 c d rest hc h₁ h₂ h₃ h₄ ih =>
    apply Expands.other _ ih
    intro _ d' hd'
    cases hd'
    simp [h₁, h₂, h₃, h₄]

/-- What is before the first dollar is kept. -/
theorem interpretDollars_append {u v : List UInt16} (hu : ∀ c ∈ u, c ≠ dollar) :
    interpretDollars text start limit (u ++ v) = u ++ interpretDollars text start limit v := by
  induction u with
  | nil => rfl
  | cons c u ih =>
    have hc : c ≠ dollar := hu c List.mem_cons_self
    rw [List.cons_append, interpretDollars_other (fun h => absurd h hc),
      ih fun c' hc' => hu c' (List.mem_cons_of_mem _ hc'), List.cons_append]

/-- A replacement without dollars is kept. -/
theorem expands_self {before matched after : List UInt16} (h : dollar ∉ repstr) :
    Expands before matched after repstr repstr := by
  induction repstr with
  | nil => exact .nil
  | cons c rest ih =>
    rw [List.mem_cons, not_or] at h
    exact .other (fun hc => absurd hc.symm h.1) (ih h.2)

/-- A replacement without dollars has no other expansion. -/
theorem Expands.eq_self {before matched after e : List UInt16}
    (h : Expands before matched after repstr e) (hdollar : StringReplace.dollar ∉ repstr) : e = repstr := by
  induction h with
  | nil => rfl
  | dollar => exact absurd List.mem_cons_self hdollar
  | matched => exact absurd List.mem_cons_self hdollar
  | before => exact absurd List.mem_cons_self hdollar
  | after => exact absurd List.mem_cons_self hdollar
  | other _ _ ih =>
    rw [List.mem_cons, not_or] at hdollar
    rw [ih hdollar.2]

/-- Three strings joined. -/
theorem concatThree_fits {x y z : JSString} (hx : x.chars.length ≤ maxLength)
    (hy : y.chars.length ≤ maxLength) (hz : z.chars.length ≤ maxLength) :
    ((concatStrings (.linear []) x).bind fun res => (concatStrings res y).bind fun res =>
      concatStrings res z).map JSString.chars = fits (x.chars ++ y.chars ++ z.chars) := by
  have hempty : (some (JSString.linear [])).map JSString.chars = fits [] := rfl
  have hjoin := concatStrings_fits (concatStrings_fits (concatStrings_fits hempty hx) hy) hz
  rw [List.nil_append, Option.bind_assoc, Option.bind_some] at hjoin
  exact hjoin

/-- The text around a match. -/
theorem newDependentString_sides (textstr : JSString) (start limit : ℕ) :
    (newDependentString textstr 0 start).chars = textstr.chars.take start ∧
      (newDependentString textstr limit (textstr.length - limit)).chars =
        textstr.chars.drop limit := by
  apply And.intro
  · rfl
  · apply List.take_of_length_le
    rw [List.length_drop]
    exact Nat.le_refl _

/-- A replacement with dollars is put in place of the match. -/
theorem buildDollarReplacement_fits {firstDollar patlen : ℕ} (textstr : JSString)
    (htext : textstr.chars.length ≤ maxLength)
    (hfirst : ∀ c ∈ repstr.take firstDollar, c ≠ dollar) :
    (buildDollarReplacement textstr repstr firstDollar start patlen).map JSString.chars =
      fits (textstr.chars.take start ++
        interpretDollars textstr.chars start (start + patlen) repstr ++
          textstr.chars.drop (start + patlen)) := by
  have hnew : repstr.take firstDollar ++
      interpretDollars textstr.chars start (start + patlen) (repstr.drop firstDollar) =
        interpretDollars textstr.chars start (start + patlen) repstr := by
    rw [← interpretDollars_append hfirst, List.take_append_drop]
  simp only [buildDollarReplacement, hnew, Option.bind_eq_bind]
  generalize interpretDollars textstr.chars start (start + patlen) repstr = e
  have hsides := newDependentString_sides (.linear textstr.chars) start (start + patlen)
  have hpart (i n : ℕ) :
      (newDependentString (.linear textstr.chars) i n).chars.length ≤ maxLength :=
    Nat.le_trans (length_newDependentString _ i n) htext
  by_cases he : e.length ≤ maxLength
  · rw [if_pos he, Option.bind_some]
    have hjoin := concatThree_fits (hpart 0 start)
      (show (JSString.linear e).chars.length ≤ maxLength from he)
      (hpart (start + patlen) (textstr.chars.length - (start + patlen)))
    rw [hsides.1] at hjoin
    rw [show (JSString.linear textstr.chars).length = textstr.chars.length from rfl] at hsides
    rw [hsides.2] at hjoin
    exact hjoin
  · rw [if_neg he, fits, if_neg (by rw [List.length_append, List.length_append]; omega)]
    rfl

/-- Leaves are no longer than the text. -/
theorem length_le_of_mem_leaves {str : JSString} (h : leaf ∈ str.leaves) :
    leaf.length ≤ str.chars.length := by
  rw [← JSString.flatten_leaves]
  exact (List.sublist_flatten_of_mem h).length_le

/-- A replacement without dollars over a rope is what the leaves make. -/
theorem buildFlatReplacement_rope {patlen : ℕ} {textstr : JSString} (hrope : textstr.isRope = true)
    (htext : textstr.chars.length ≤ maxLength) (hrep : rep.chars.length ≤ maxLength) :
    (buildFlatReplacement textstr rep start patlen).map JSString.chars =
      fits (pieces rep.chars start (start + patlen) 0 textstr.leaves) := by
  have hempty : (some (JSString.linear [])).map JSString.chars = fits [] := rfl
  have hfold : ((some (JSString.linear [])).bind fun res =>
      textstr.leaves.foldlM (replaceInLeaf rep start (start + patlen)) (0, res)).map (·.2.chars) = _ :=
    foldlM_replaceInLeaf hempty
      (fun leaf hleaf => Nat.le_trans (length_le_of_mem_leaves hleaf) htext) hrep
  rw [Option.bind_some, List.nil_append] at hfold
  rw [← hfold, buildFlatReplacement, if_pos hrope, StringSegmentRange.leaves_init]
  cases textstr.leaves.foldlM (replaceInLeaf rep start (start + patlen)) (0, .linear []) <;> rfl

/-- A replacement without dollars is put in place of the match, but for an empty match in a rope. -/
theorem buildFlatReplacement_fits {patlen : ℕ} {textstr : JSString}
    (htext : textstr.chars.length ≤ maxLength) (hrep : rep.chars.length ≤ maxLength)
    (hmatch : start + patlen ≤ textstr.chars.length)
    (hne : textstr.isRope = true → 0 < patlen) :
    (buildFlatReplacement textstr rep start patlen).map JSString.chars =
      fits (textstr.chars.take start ++ rep.chars ++ textstr.chars.drop (start + patlen)) := by
  by_cases hrope : textstr.isRope = true
  · have hpos := hne hrope
    rw [buildFlatReplacement_rope hrope htext hrep,
      pieces_eq_remaining rep.chars (by omega) (by rw [JSString.flatten_leaves]; omega),
      JSString.flatten_leaves, remaining, if_pos (Nat.zero_le start), Nat.sub_zero, Nat.sub_zero]
  · have hsides := newDependentString_sides textstr start (start + patlen)
    have hpart (i n : ℕ) : (newDependentString textstr i n).chars.length ≤ maxLength :=
      Nat.le_trans (length_newDependentString _ i n) htext
    have hjoin := concatThree_fits (hpart 0 start) hrep
      (hpart (start + patlen) (textstr.length - (start + patlen)))
    rw [hsides.1, hsides.2] at hjoin
    rw [← hjoin, buildFlatReplacement, if_neg hrope, Nat.sub_sub]
    rfl

/-- The pattern is where it occurs. -/
theorem take_drop_of_occursAt (h : OccursAt pat text m) :
    (text.drop m).take (m + pat.length - m) = pat := by
  rw [Nat.add_sub_cancel_left]
  exact (List.prefix_iff_eq_take.mp h).symm

/-- What is before the first dollar has none. -/
theorem ne_dollar_of_mem_take {firstDollar : ℕ}
    (h : repstr.findIdx? (· = dollar) = some firstDollar) :
    ∀ c ∈ repstr.take firstDollar, c ≠ dollar := by
  intro c hc hdollar
  obtain ⟨j, hj, hget⟩ := List.mem_take_iff_getElem.mp hc
  rw [List.findIdx?_eq_some_iff_getElem] at h
  obtain ⟨hlt, _, hbefore⟩ := h
  have hnot := hbefore j (by omega)
  rw [hget, hdollar] at hnot
  exact hnot (decide_eq_true rfl)

/-- The replacement of a match, in a text that is the given one or has been flattened. -/
theorem replace_match {textstr textstr' : JSString} (htext : textstr.chars.length ≤ maxLength)
    (hrep : repstr.length ≤ maxLength)
    (hslip : ¬ (pat = [] ∧ textstr.isRope = true ∧ dollar ∉ repstr ∧ repstr ≠ []))
    (hsame : textstr' = textstr ∨ pat ≠ [] ∧ textstr' = .linear textstr.chars)
    (hfirst : IsFirst pat textstr.chars (some m)) :
    ∃ e, Expands (textstr.chars.take m) pat (textstr.chars.drop (m + pat.length)) repstr e ∧
      (match repstr.findIdx? (· = dollar) with
        | some firstDollar => buildDollarReplacement textstr' repstr firstDollar m pat.length
        | none => buildFlatReplacement textstr' (.linear repstr) m pat.length).map JSString.chars =
        fits (textstr.chars.take m ++ e ++ textstr.chars.drop (m + pat.length)) := by
  have hchars : textstr'.chars = textstr.chars := by
    rcases hsame with rfl | ⟨_, rfl⟩
    · rfl
    · rfl
  rw [← hchars] at htext hfirst ⊢
  rcases hfind : repstr.findIdx? (· = dollar) with _ | firstDollar
  · have hdollar : dollar ∉ repstr := by
      intro hmem
      have hnone := List.findIdx?_eq_none_iff.mp hfind dollar hmem
      rw [decide_eq_false_iff_not] at hnone
      exact hnone rfl
    refine ⟨repstr, expands_self hdollar, ?_⟩
    by_cases hflat : textstr'.isRope = true → 0 < pat.length
    · have hmatch : m + pat.length ≤ textstr'.chars.length := by
        by_cases hpat : pat = []
        · have hzero : m = 0 := by
            by_contra hne
            rw [hpat] at hfirst
            exact hfirst.2 0 (by omega) occursAt_nil
          rw [hzero, hpat]
          exact Nat.zero_le _
        · exact hfirst.1.le_length hpat
      exact buildFlatReplacement_fits htext (show (JSString.linear repstr).chars.length ≤ _ from hrep)
        hmatch hflat
    · rw [Classical.not_imp, Nat.not_lt, Nat.le_zero, List.length_eq_zero_iff] at hflat
      obtain ⟨hrope, hpat⟩ := hflat
      have htextstr : textstr' = textstr := by
        rcases hsame with heq | ⟨hne, _⟩
        · exact heq
        · exact absurd hpat hne
      have hrepstr : repstr = [] := by
        by_contra hne
        exact hslip ⟨hpat, htextstr ▸ hrope, hdollar, hne⟩
      have hzero : m = 0 := by
        by_contra hne
        rw [hpat] at hfirst
        exact hfirst.2 0 (by omega) occursAt_nil
      have hbuild : (buildFlatReplacement textstr' (.linear repstr) m pat.length).map JSString.chars =
          _ := buildFlatReplacement_rope hrope htext
        (show (JSString.linear repstr).chars.length ≤ _ from hrep)
      rw [hzero, hpat, List.length_nil, Nat.add_zero, pieces_of_empty,
        JSString.flatten_leaves] at hbuild
      rw [hzero, hpat, hrepstr] at *
      exact hbuild
  · have hexpands := expands_interpretDollars textstr'.chars m (m + pat.length) repstr
    rw [take_drop_of_occursAt hfirst.1] at hexpands
    exact ⟨_, hexpands, buildDollarReplacement_fits textstr' htext (ne_dollar_of_mem_take hfind)⟩

/-- An empty pattern in a rope: a replacement without dollars is lost. -/
theorem str_replace_rope_nil {appendFails : ℕ → Bool} {textstr : JSString}
    (hrope : textstr.isRope = true) (htext : textstr.chars.length ≤ maxLength)
    (hrep : repstr.length ≤ maxLength) (hdollar : dollar ∉ repstr) :
    (str_replace appendFails textstr [] repstr).map JSString.chars = some textstr.chars := by
  have hfind : repstr.findIdx? (· = dollar) = none := by
    rw [List.findIdx?_eq_none_iff]
    intro c hc
    rw [decide_eq_false_iff_not]
    intro heq
    exact hdollar (heq ▸ hc)
  have hmatch : tryFlatMatch appendFails textstr [] = (some 0, textstr) := by
    rw [tryFlatMatch, if_pos hrope]
    rfl
  rw [str_replace, hmatch]
  dsimp only
  rw [hfind]
  have hbuild : (buildFlatReplacement textstr (.linear repstr) 0 0).map JSString.chars = _ :=
    buildFlatReplacement_rope hrope htext (show (JSString.linear repstr).chars.length ≤ _ from hrep)
  rw [Nat.add_zero, pieces_of_empty, JSString.flatten_leaves, fits, if_pos htext] at hbuild
  exact hbuild

/-- Such a replacement is not what it has to be, unless it is empty. -/
theorem not_replaces_rope_nil {appendFails : ℕ → Bool} {textstr : JSString}
    (hrope : textstr.isRope = true) (htext : textstr.chars.length ≤ maxLength)
    (hrep : repstr.length ≤ maxLength) (hdollar : dollar ∉ repstr) (hne : repstr ≠ []) :
    ¬ Replaces textstr.chars [] repstr
      ((str_replace appendFails textstr [] repstr).map JSString.chars) := by
  intro h
  obtain ⟨e, he, hresult⟩ := h (some 0) ⟨occursAt_nil, nofun⟩
  rw [he.eq_self hdollar, str_replace_rope_nil hrope htext hrep hdollar, fits] at hresult
  split_ifs at hresult
  have hlength := congrArg List.length (Option.some_inj.mp hresult)
  rw [List.take_zero, List.nil_append, List.length_append, List.length_nil, Nat.add_zero,
    List.drop_zero] at hlength
  have hpos := List.length_pos_iff.mpr hne
  omega

/-- The code replaces the first match just if the pattern is not empty, or the text is no rope, or the
replacement has a dollar or is empty. -/
theorem str_replace_replaces_iff (appendFails : ℕ → Bool) {textstr : JSString}
    {pat repstr : List UInt16} (htext : textstr.chars.length ≤ maxLength)
    (hrep : repstr.length ≤ maxLength) :
    Replaces textstr.chars pat repstr
        ((str_replace appendFails textstr pat repstr).map JSString.chars) ↔
      pat ≠ [] ∨ textstr.isRope = false ∨ dollar ∈ repstr ∨ repstr = [] := by
  apply Iff.intro
  · intro h
    by_contra hslip
    simp only [not_or, not_not, ne_eq, Bool.not_eq_false] at hslip
    obtain ⟨rfl, hrope, hdollar, hne⟩ := hslip
    exact not_replaces_rope_nil hrope htext hrep hdollar hne h
  · intro h first hfirst
    have hslip : ¬ (pat = [] ∧ textstr.isRope = true ∧ dollar ∉ repstr ∧ repstr ≠ []) := by
      rintro ⟨hpat, hrope, hdollar, hne⟩
      rcases h with h | h | h | h
      · exact h hpat
      · rw [hrope] at h
        cases h
      · exact hdollar h
      · exact hne h
    obtain ⟨hmatch, hsame⟩ := tryFlatMatch_isFirst appendFails textstr pat
    obtain rfl := hfirst.unique hmatch
    rw [str_replace]
    rcases htry : tryFlatMatch appendFails textstr pat with ⟨_ | m, textstr'⟩
    · rw [htry] at hsame
      have hchars : textstr'.chars = textstr.chars := by
        rcases hsame with heq | ⟨_, heq⟩
        · exact congrArg JSString.chars heq
        · have hflat := congrArg JSString.chars heq
          exact hflat
      exact congrArg some hchars
    · rw [htry] at hsame hfirst
      exact replace_match htext hrep hslip hsame hfirst

/-- Twelve of one unit and twelve of another, which are too many for one cell. -/
def sampleRope : JSString := .rope (.linear (List.replicate 12 0x61)) (.linear (List.replicate 12 0x62))

/-- The match of two units spans the leaves of the sample. -/
theorem str_replace_replaces_sample :
    Replaces sampleRope.chars [0x61, 0x62] [0x78]
      ((str_replace (fun _ => false) sampleRope [0x61, 0x62] [0x78]).map JSString.chars) :=
  (str_replace_replaces_iff (fun _ => false) (by decide) (by decide)).mpr
    (Or.inl (List.cons_ne_nil _ _))

/-- The empty pattern in the sample: the replacement is lost. -/
theorem str_replace_sampleRope_nil :
    ¬ Replaces sampleRope.chars [] [0x78]
      ((str_replace (fun _ => false) sampleRope [] [0x78]).map JSString.chars) :=
  not_replaces_rope_nil rfl (by decide) (by decide) (by decide) (List.cons_ne_nil _ _)

end SpiderMonkey.Vm.StringReplace
