import SpiderMonkey.Vm.StringSearch

/-!
# All searches find the first occurrence

Each search reads only units of the text and the pattern and entries of the table, and finds what its
counterpart without checked reads finds.
-/

namespace SpiderMonkey.Vm.StringSearch

open Lib
open StringMatch (sBMHCharSetSize sBMHPatLenMax innerMatch scanPositions)

variable {text pat patNext : List UInt16} {p₀ : UInt16} {i j k n t textend : ℕ} {skip : List UInt8}
  {table : ℕ → UInt8} {cmp : ℕ → Option Bool}

/-- The integer for a result. -/
def ofIndex : Option ℕ → ℤ
  | some i => i
  | none => -1

/-- A read within the units. -/
theorem getElem?_eq_getD {units : List UInt16} (hi : i < units.length) :
    units[i]? = some (units.getD i 0) := by
  rw [List.getD_eq_getElem?_getD, List.getElem?_eq_getElem hi]
  rfl

/-! ## The table of skips -/

/-- A table in memory has the entries of a function. -/
def IsTable (skip : List UInt8) (table : ℕ → UInt8) : Prop :=
  skip.length = sBMHCharSetSize ∧ ∀ c < sBMHCharSetSize, skip[c]? = some (table c)

/-- An entry is set. -/
theorem IsTable.set (h : IsTable skip table) {c : ℕ} (hc : c < sBMHCharSetSize) (s : UInt8) :
    IsTable (skip.set c s) (Function.update table c s) := by
  apply And.intro
  · rw [List.length_set, h.1]
  · intro d hd
    rw [List.getElem?_set, Function.update_apply]
    by_cases hcd : c = d
    · subst hcd
      rw [if_pos rfl, if_pos rfl, if_pos (by rw [h.1]; exact hc)]
    · rw [if_neg hcd, if_neg (Ne.symm hcd)]
      exact h.2 d hd

/-- The skips are set as in the table of the counterpart. -/
theorem fillSkip_eq (pat : List UInt16) (h : IsTable skip table) (hn : i + n ≤ pat.length) :
    match (List.range' i n).foldlM
      (fun skip i =>
        let c := (pat.getD i 0).toNat
        if sBMHCharSetSize ≤ c then none
        else some (Function.update skip c (UInt8.ofNat (pat.length - 1 - i)))) table with
    | none => fillSkip pat n i skip = some none
    | some table' => ∃ skip', fillSkip pat n i skip = some (some skip') ∧ IsTable skip' table' := by
  induction n generalizing i skip table with
  | zero => exact ⟨skip, rfl, h⟩
  | succ n ih =>
    rw [List.range'_succ, List.foldlM_cons, fillSkip]
    simp only [getElem?_eq_getD (show i < pat.length by omega), Option.bind_eq_bind,
      Option.bind_some]
    by_cases hc : sBMHCharSetSize ≤ (pat.getD i 0).toNat
    · simp only [if_pos hc, Option.bind_none]
    · have hlt := Nat.lt_of_not_le hc
      simp only [if_neg hc, h.2 _ hlt, Option.bind_some]
      exact ih (h.set hlt _) (by omega)

/-! ## The search with skips -/

/-- The comparison from the last unit back. -/
theorem matchBackwards_eq (pat : List UInt16) (hi : i < text.length) (hj : j < pat.length) (hji : j ≤ i) :
    matchBackwards text pat i j = some (StringMatch.matchBackwards text pat i j) := by
  induction j generalizing i with
  | zero =>
    rw [matchBackwards, StringMatch.matchBackwards]
    simp only [getElem?_eq_getD hi, getElem?_eq_getD hj, Option.bind_eq_bind, Option.bind_some]
    split_ifs <;> rfl
  | succ j ih =>
    rw [matchBackwards, StringMatch.matchBackwards]
    simp only [getElem?_eq_getD hi, getElem?_eq_getD hj, Option.bind_eq_bind, Option.bind_some]
    split_ifs
    · rfl
    · exact ih (by omega) (by omega) (by omega)

/-- The loop with skips. -/
theorem horspoolLoop_eq (text : List UInt16) (fuel : ℕ) (hpos : 0 < pat.length)
    (h : IsTable skip table) (htable : ∀ c, 0 < (table c).toNat) (hk : pat.length - 1 ≤ k)
    (hfuel : text.length ≤ k + fuel) :
    horspoolLoop text pat skip fuel k =
      some (ofIndex (StringMatch.horspoolLoop text pat table fuel k)) := by
  induction fuel generalizing k with
  | zero =>
    rw [horspoolLoop, if_neg (by omega)]
    rfl
  | succ fuel ih =>
    rw [horspoolLoop, StringMatch.horspoolLoop]
    split_ifs with hlt
    · have hback := matchBackwards_eq pat (j := pat.length - 1) hlt (by omega) hk
      simp only [hback, getElem?_eq_getD hlt, Option.bind_eq_bind, Option.bind_some]
      cases StringMatch.matchBackwards text pat k (pat.length - 1) with
      | some i => rfl
      | none =>
        dsimp only
        split_ifs with hc
        · exact ih (by omega) (by omega)
        · simp only [h.2 _ (Nat.lt_of_not_le hc), Option.bind_some]
          have hskip := htable (text.getD k 0).toNat
          exact ih (by omega) (by omega)
    · rfl

/-- The search with skips. -/
theorem js_BoyerMooreHorspool_eq (hpos : 0 < pat.length) (hlength : pat.length ≤ sBMHPatLenMax) :
    js_BoyerMooreHorspool text pat =
      some (match StringMatch.js_BoyerMooreHorspool text pat with
        | none => sBMHBadPattern
        | some r => ofIndex r) := by
  have hinit : IsTable (List.replicate sBMHCharSetSize (UInt8.ofNat pat.length))
      (fun _ => UInt8.ofNat pat.length) := by
    refine ⟨List.length_replicate, ?_⟩
    intro c hc
    rw [List.getElem?_replicate, if_pos hc]
  have hfill := fillSkip_eq pat (i := 0) (n := pat.length - 1) hinit (by omega)
  rw [← List.range_eq_range'] at hfill
  rw [js_BoyerMooreHorspool, StringMatch.js_BoyerMooreHorspool]
  cases hold : StringMatch.fillSkip pat (pat.length - 1) with
  | none =>
    rw [StringMatch.fillSkip] at hold
    rw [hold] at hfill
    simp only [hfill, Option.bind_eq_bind, Option.bind_some, Option.bind_none]
  | some table =>
    have hspec := StringMatch.fillSkip_spec hlength (Nat.le_refl _) hpos hold
    rw [StringMatch.fillSkip] at hold
    rw [hold] at hfill
    obtain ⟨skip, hskip, htable⟩ := hfill
    have hloop := horspoolLoop_eq text text.length hpos htable
      (fun c => (hspec.1 c).1) (Nat.le_refl _) (by omega)
    simp only [hskip, hloop, Option.bind_eq_bind, Option.bind_some]

/-! ## The search unit by unit -/

/-- Units within a list. -/
theorem readUnits_eq (units : List UInt16) (h : i + n ≤ units.length) :
    readUnits units n i = some ((units.drop i).take n) := by
  induction n generalizing i with
  | zero => rfl
  | succ n ih =>
    have hi : i < units.length := by omega
    rw [readUnits, List.drop_eq_getElem_cons hi, List.take_succ_cons]
    simp only [List.getElem?_eq_getElem hi, ih (show i + 1 + n ≤ units.length by omega),
      Option.bind_eq_bind, Option.bind_some]

/-- An inner comparison says whether the rest of the pattern is at a position. -/
def Compares (cmp : ℕ → Option Bool) (text patNext : List UInt16) : Prop :=
  ∀ t, t + patNext.length ≤ text.length → cmp t = some (innerMatch patNext (text.drop t))

/-- The comparison by `memcmp`. -/
theorem compares_memCmp : Compares (memCmp text (p₀ :: patNext)) text patNext := by
  intro t ht
  have hpat : readUnits (p₀ :: patNext) patNext.length 1 = some patNext := by
    rw [readUnits_eq _ (by rw [List.length_cons]; omega)]
    exact congrArg some (List.take_length)
  have htext := readUnits_eq text (i := t) (n := patNext.length) ht
  simp only [memCmp, List.length_cons, Nat.add_sub_cancel, hpat, htext, Option.bind_eq_bind,
    Option.bind_some, Option.some_inj]
  rw [Bool.eq_iff_iff, beq_iff_eq, StringMatch.innerMatch_iff, List.prefix_iff_eq_take]

/-- The loop that compares. -/
theorem manualCmp_eq {p : ℕ} (hp : p + n = pat.length) (ht : t + n ≤ text.length) :
    manualCmp text pat n p t = some (innerMatch (pat.drop p) (text.drop t)) := by
  induction n generalizing p t with
  | zero =>
    rw [List.drop_of_length_le (by omega)]
    rfl
  | succ n ih =>
    have hplt : p < pat.length := by omega
    have htlt : t < text.length := by omega
    rw [manualCmp, List.drop_eq_getElem_cons hplt, List.drop_eq_getElem_cons htlt, innerMatch]
    simp only [List.getElem?_eq_getElem hplt, List.getElem?_eq_getElem htlt, Option.bind_eq_bind,
      Option.bind_some, ih (show p + 1 + n = pat.length by omega) (show t + 1 + n ≤ _ by omega)]
    by_cases heq : pat[p] = text[t]
    · rw [if_neg (not_not.mpr heq), beq_iff_eq.mpr heq, Bool.true_and]
    · rw [if_pos heq, beq_eq_false_iff_ne.mpr heq, Bool.false_and]

/-- The comparison by a loop. -/
theorem compares_manualCmp :
    Compares (manualCmp text (p₀ :: patNext) ((p₀ :: patNext).length - 1) 1) text patNext := by
  intro t ht
  have hlength : (p₀ :: patNext).length - 1 = patNext.length := rfl
  rw [hlength, manualCmp_eq (by rw [List.length_cons, Nat.add_comm]) ht]
  rfl

/-- Where the positions of a part end. -/
def progress (r : Option ℕ) (t : ℕ) : Progress :=
  match r with
  | some index => .found index
  | none => .at t

/-- One position of a part. -/
theorem position_eq (hcmp : Compares cmp text patNext) (ht : t + 1 + patNext.length ≤ text.length)
    {rest rest' : Option Progress} {r : Option ℕ} {stop : ℕ} (hrest : rest = some (progress r stop))
    (hrest' : rest' = some (progress r stop)) :
    (do
      let c ← text[t]?
      if c = p₀ then do
        if ← cmp (t + 1) then some (.found t) else rest
      else rest') =
      some (progress
        (if text.getD t 0 = p₀ ∧ innerMatch patNext (text.drop (t + 1)) = true then some t else r)
        stop) := by
  simp only [getElem?_eq_getD (show t < text.length by omega), hcmp (t + 1) ht, hrest, hrest',
    Option.bind_eq_bind, Option.bind_some]
  by_cases hc : text.getD t 0 = p₀
  · rw [if_pos hc]
    by_cases hm : innerMatch patNext (text.drop (t + 1)) = true
    · rw [if_pos hm, if_pos ⟨hc, hm⟩]
      rfl
    · rw [if_neg hm, if_neg fun h => hm h.2]
  · rw [if_neg hc, if_neg fun h => hc h.1]

/-- The loop behind the label looks at the positions that are left. -/
theorem fixupLoop_eq (p₀ : UInt16) (hcmp : Compares cmp text patNext)
    (ht : t + n + patNext.length ≤ text.length) :
    fixupLoop text p₀ cmp n t = some (progress (scanPositions text p₀ patNext n t) (t + n)) := by
  induction n generalizing t with
  | zero => rfl
  | succ n ih =>
    have hrest := ih (t := t + 1) (by omega)
    rw [show t + 1 + n = t + (n + 1) by omega] at hrest
    rw [fixupLoop, scanPositions]
    exact position_eq hcmp (by omega) hrest hrest

/-- The cases of the switch look at as many positions. -/
theorem scanCases_eq (p₀ : UInt16) (hcmp : Compares cmp text patNext)
    (ht : t + n + patNext.length ≤ text.length) :
    scanCases text p₀ cmp n t = some (progress (scanPositions text p₀ patNext n t) (t + n)) := by
  induction n generalizing t with
  | zero => rfl
  | succ n ih =>
    have hrest := ih (t := t + 1) (by omega)
    have hfixup := fixupLoop_eq p₀ (n := n) (t := t + 1) hcmp (by omega)
    rw [show t + 1 + n = t + (n + 1) by omega] at hrest hfixup
    rw [scanCases, scanPositions]
    exact position_eq hcmp (by omega) hfixup hrest

/-- The rounds look at eight positions each. -/
theorem scanRounds_eq {rounds fuel : ℕ} (hcmp : Compares cmp text patNext)
    (htextend : textend = t + 8 * rounds) (hend : textend + patNext.length ≤ text.length)
    (hfuel : rounds ≤ fuel) :
    scanRounds text p₀ cmp textend fuel t =
      some (ofIndex (StringMatch.scanRounds text p₀ patNext rounds t)) := by
  induction rounds generalizing t fuel with
  | zero =>
    have ht : t = textend := by omega
    cases fuel with
    | zero =>
      rw [scanRounds, if_pos ht]
      rfl
    | succ fuel =>
      rw [scanRounds, if_pos ht]
      rfl
  | succ rounds ih =>
    obtain ⟨fuel, rfl⟩ : ∃ f, fuel = f + 1 := ⟨fuel - 1, by omega⟩
    have hround := scanCases_eq p₀ (n := 8) (t := t) hcmp (by omega)
    rw [scanRounds, if_neg (by omega), StringMatch.scanRounds]
    simp only [hround, Option.bind_eq_bind, Option.bind_some]
    cases scanPositions text p₀ patNext 8 t with
    | some index => rfl
    | none => exact ih (by omega) (by omega)

/-- The unrolled search. -/
theorem unrolledMatch_eq (hcmp : Compares cmp text patNext) (hlength : patNext.length < text.length) :
    unrolledMatch text (p₀ :: patNext) cmp =
      some (ofIndex (StringMatch.unrolledMatch text p₀ patNext)) := by
  have htextend : text.length - ((p₀ :: patNext).length - 1) = text.length - patNext.length := rfl
  rw [unrolledMatch, StringMatch.unrolledMatch, htextend]
  simp only [List.getElem?_cons_zero, Option.bind_eq_bind, Option.bind_some]
  generalize hend : text.length - patNext.length = textend
  generalize hcase : (if textend % 8 = 0 then 8 else textend % 8) = case
  have hbounds : case ≤ textend ∧ 8 ∣ textend - case := by
    split_ifs at hcase <;> omega
  obtain ⟨rounds, hrounds⟩ := hbounds.2
  have hscan := scanCases_eq p₀ (n := case) (t := 0) hcmp (by omega)
  rw [Nat.zero_add] at hscan
  simp only [hscan, Option.bind_some]
  cases scanPositions text p₀ patNext case 0 with
  | some index => rfl
  | none =>
    rw [hrounds, Nat.mul_div_cancel_left rounds (by omega)]
    exact scanRounds_eq hcmp (by omega) (by omega) (by omega)

/-- The search for one unit. -/
theorem singleLoop_eq (hn : i + n ≤ text.length) :
    singleLoop text p₀ n i = some (ofIndex (scanPositions text p₀ [] n i)) := by
  induction n generalizing i with
  | zero => rfl
  | succ n ih =>
    rw [singleLoop, scanPositions]
    simp only [getElem?_eq_getD (show i < text.length by omega), Option.bind_eq_bind,
      Option.bind_some, ih (show i + 1 + n ≤ text.length by omega)]
    by_cases hc : text.getD i 0 = p₀
    · rw [if_pos hc, if_pos ⟨hc, rfl⟩]
      rfl
    · rw [if_neg hc, if_neg fun h => hc h.1]

/-- A unit that is searched for by itself. -/
theorem scanPositions_isFirst (text : List UInt16) (p₀ : UInt16) :
    IsFirst [p₀] text (scanPositions text p₀ [] text.length 0) := by
  have hfirst := StringMatch.scanPositions_firstIn text p₀ [] (k := 0) (n := text.length) (by omega)
  rw [Nat.zero_add] at hfirst
  apply hfirst.isFirst
  intro k hk
  have hle := hk.le_length (List.cons_ne_nil _ _)
  rw [List.length_singleton] at hle
  omega

/-- The search unit by unit, with either comparison. -/
theorem unrolledFor_eq (platform : Platform) (hlength : patNext.length < text.length) :
    unrolledFor platform text (p₀ :: patNext) =
      some (ofIndex (StringMatch.unrolledMatch text p₀ patNext)) := by
  rw [unrolledFor]
  split_ifs
  · exact unrolledMatch_eq compares_memCmp hlength
  · exact unrolledMatch_eq compares_manualCmp hlength

/-- No index is the result for a bad pattern. -/
theorem ofIndex_ne (r : Option ℕ) : ofIndex r ≠ sBMHBadPattern := by
  cases r with
  | none => decide
  | some i =>
    rw [ofIndex, sBMHBadPattern]
    omega

/-- Every search that reads only what there is finds the same. -/
theorem stringMatch_eq (platform : Platform) (text pat : List UInt16) :
    stringMatch platform text pat = some (ofIndex (StringMatch.stringMatch text pat)) := by
  cases pat with
  | nil => rfl
  | cons p₀ patNext =>
    have hpos : 0 < (p₀ :: patNext).length := Nat.succ_pos _
    rw [stringMatch, if_neg (Nat.ne_of_gt hpos)]
    by_cases hshort : text.length < (p₀ :: patNext).length
    · rw [if_pos hshort, StringMatch.stringMatch, if_pos hshort]
      rfl
    · have hlength : patNext.length < text.length := by
        rw [List.length_cons] at hshort
        omega
      rw [if_neg hshort]
      split_ifs with hsingle hlong
      · have hnil : patNext = [] := List.length_eq_zero_iff.mp (Nat.succ.inj hsingle.2)
        subst hnil
        simp only [List.getElem?_cons_zero, Option.bind_eq_bind, Option.bind_some]
        rw [singleLoop_eq (by omega),
          (scanPositions_isFirst text p₀).unique (StringMatch.stringMatch_isFirst text [p₀])]
      · rw [js_BoyerMooreHorspool_eq hpos hlong.2.2, StringMatch.stringMatch, if_neg hshort]
        simp only [hlong, and_self, if_true, Option.bind_eq_bind, Option.bind_some]
        cases StringMatch.js_BoyerMooreHorspool text (p₀ :: patNext) with
        | some r => rw [if_pos (ofIndex_ne r)]
        | none =>
          rw [if_neg (not_not.mpr rfl)]
          exact unrolledFor_eq platform hlength
      · rw [StringMatch.stringMatch, if_neg hshort, if_neg hlong]
        exact unrolledFor_eq platform hlength

/-- What a search returns: the least index at which the pattern occurs, or -1. -/
def IsLeast (pat text : List UInt16) (r : ℤ) : Prop :=
  (∃ i : ℕ, r = i ∧ OccursAt pat text i ∧ ∀ k < i, ¬ OccursAt pat text k) ∨
    r = -1 ∧ ∀ k, ¬ OccursAt pat text k

/-- The first occurrence as an integer. -/
theorem isLeast_ofIndex {r : Option ℕ} (h : IsFirst pat text r) : IsLeast pat text (ofIndex r) := by
  cases r with
  | some i => exact Or.inl ⟨i, rfl, h⟩
  | none => exact Or.inr ⟨rfl, h⟩

/-- `StringMatch` returns the least index at which the pattern occurs and reads nothing outside, and
`RopeMatch` returns the same for every rope, whether its leaves are searched or it is flattened. -/
theorem stringMatch_isLeast (platform : Platform) (pat : List UInt16) :
    (∀ text, ∃ r, stringMatch platform text pat = some r ∧ IsLeast pat text r) ∧
      ∀ (appendFails : ℕ → Bool) (textstr : StringReplace.JSString),
        stringMatch platform textstr.chars pat =
          some (ofIndex (StringReplace.ropeMatch appendFails textstr pat).1) := by
  apply And.intro
  · intro text
    exact ⟨_, stringMatch_eq platform text pat,
      isLeast_ofIndex (StringMatch.stringMatch_isFirst text pat)⟩
  · intro appendFails textstr
    have hrope := (StringReplace.ropeMatch_isFirst appendFails textstr pat).1
    rw [stringMatch_eq, hrope.unique (StringMatch.stringMatch_isFirst textstr.chars pat)]

end SpiderMonkey.Vm.StringSearch
