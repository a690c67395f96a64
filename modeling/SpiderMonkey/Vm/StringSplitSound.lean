import SpiderMonkey.Lib.Splitting
import SpiderMonkey.Vm.StringMatchSound
import SpiderMonkey.Vm.StringSplit

/-!
# What a split makes

The loop over the next matches gives the pieces that trying each position gives, cut at the limit. It
ends, and no assertion fails.
-/

namespace SpiderMonkey.Vm.StringSplit

open Lib
open RegExpReplace (RegExpStatics)
open RegExpShared
open Rope (maxLength)
open StringMatch (stringMatch stringMatch_isFirst)

/-- What comes of the groups of a match: their texts, or undefined. -/
def groupValues (str : List UInt16) (m : Match) : List Value :=
  m.parens.map fun pair => pair.map fun ab => (str.drop ab.1).take (ab.2 - ab.1)

/-- What an expression matches at a position. -/
def regExpMatchAt (re : RegExpShared) (str : List UInt16) (q : ℕ) : Option (ℕ × List Value) :=
  (re.matchAt str q).map fun m => (m.limit, groupValues str m)

/-- Whether a string is at a position. -/
def stringMatchAt (sep str : List UInt16) (q : ℕ) : Option (ℕ × List Value) :=
  if OccursAt sep str q ∧ q + sep.length ≤ str.length then some (q + sep.length, []) else none

/-- The array that a split has to make if there is no limit. -/
def Splits (str : List UInt16) (pieces : List Value) : Separator → Prop
  | .undefined => pieces = [some str]
  | .regExp re => IsSplit (regExpMatchAt re str) str pieces
  | .string sep => IsSplit (stringMatchAt sep str) str pieces

variable {str sep : List UInt16} {res : RegExpStatics} {limit i : ℕ} {splits : List Value}
  {re : RegExpShared} {m : Match} {f : ℕ → Option (ℕ × List Value)}

/-- An expression matches within the text. -/
theorem matchesWithin_regExp : MatchesWithin (regExpMatchAt re str) str.length := by
  intro q e caps h
  obtain ⟨m, hm, heq⟩ := Option.map_eq_some_iff.mp h
  obtain ⟨rfl, _⟩ := Prod.mk.inj heq
  exact ⟨re.le_limit hm, re.limit_le hm⟩

/-- A string is within the text. -/
theorem matchesWithin_string : MatchesWithin (stringMatchAt sep str) str.length := by
  intro q e caps h
  obtain ⟨⟨_, hle⟩, heq⟩ := Option.ite_none_right_eq_some.mp h
  obtain ⟨rfl, _⟩ := Prod.mk.inj (Option.some_inj.mp heq)
  exact ⟨Nat.le_add_right q _, hle⟩

/-! ## The groups -/

/-- The values of groups from an index on. -/
def captureValues (res : RegExpStatics) : List (Option (ℕ × ℕ)) → ℕ → List Value
  | [], _ => []
  | pair :: rest, i =>
    (if pair.isSome then some (res.getParen (i + 1)) else none) :: captureValues res rest (i + 1)

/-- The groups are appended up to the limit. -/
theorem appendCaptures_eq (pairs : List (Option (ℕ × ℕ))) (hlimit : splits.length < limit) :
    appendCaptures res limit pairs i splits =
      if limit ≤ (splits ++ captureValues res pairs i).length then
        ((splits ++ captureValues res pairs i).take limit, true)
      else (splits ++ captureValues res pairs i, false) := by
  induction pairs generalizing i splits with
  | nil =>
    rw [captureValues, List.append_nil, if_neg (Nat.not_le_of_lt hlimit)]
    rfl
  | cons pair rest ih =>
    rw [appendCaptures, captureValues]
    generalize (if pair.isSome then some (res.getParen (i + 1)) else none) = value
    have hsplit : splits ++ value :: captureValues res rest (i + 1) =
        splits ++ [value] ++ captureValues res rest (i + 1) := by
      rw [List.append_assoc]
      rfl
    have hlength : (splits ++ [value]).length = splits.length + 1 := by
      rw [List.length_append]
      rfl
    rw [hsplit]
    by_cases hfull : (splits ++ [value]).length = limit
    · rw [if_pos hfull, if_pos (by rw [List.length_append]; omega), ← hfull, List.take_left]
    · rw [if_neg hfull]
      exact ih (by omega)

/-- The values of the groups of a match. -/
theorem captureValues_eq (pairs : List (Option (ℕ × ℕ))) (h : m.parens.drop i = pairs) :
    captureValues (res.updateFromMatchPairs str m) pairs i =
      pairs.map fun pair => pair.map fun ab => (str.drop ab.1).take (ab.2 - ab.1) := by
  induction pairs generalizing i with
  | nil => rfl
  | cons pair rest ih =>
    have hget : m.parens[i]? = some pair := by
      rw [← List.head?_drop, h]
      rfl
    have hrest : m.parens.drop (i + 1) = rest := by
      rw [← List.tail_drop, h]
      rfl
    rw [captureValues, List.map_cons, ih hrest]
    congr 1
    cases pair with
    | none => rfl
    | some ab =>
      obtain ⟨a, b⟩ := ab
      rw [RegExpStatics.getParen]
      simp only [RegExpStatics.updateFromMatchPairs, Nat.add_sub_cancel,
        List.getD_eq_getElem?_getD, hget, Option.getD_some]
      rfl

/-! ## The next match -/

/-- What a matcher finds, given what is matched at each position: nothing from an index on, or the
first match there, with its groups if these are returned. -/
def FindsNext (matcher : Matcher) (str : List UInt16) (f : ℕ → Option (ℕ × List Value)) (index : ℕ)
    (res : RegExpStatics) : Option SplitMatchResult → Prop
  | none => ∀ j, index ≤ j → j ≤ str.length → f j = none
  | some result => ∃ k caps, index ≤ k ∧ f k = some (result.endIndex, caps) ∧
      result.length = result.endIndex - k ∧ (∀ j, index ≤ j → j < k → f j = none) ∧
      caps = if matcher.returnsCaptures then captureValues res (groupPairs res) 0 else []

/-- A matcher finds the next match, from an index in the text or from the start. -/
def Finds (matcher : Matcher) (str : List UInt16) (f : ℕ → Option (ℕ × List Value)) : Prop :=
  ∀ res index, index = 0 ∨ index < str.length →
    ∃ r res', matcher.splitMatch res str index = some (r, res') ∧ FindsNext matcher str f index res' r

/-- An expression is executed to find the next match. -/
theorem finds_splitRegExpMatcher (re : RegExpShared) (str : List UInt16) :
    Finds (splitRegExpMatcher re) str (regExpMatchAt re str) := by
  intro res index _
  rw [splitRegExpMatcher]
  dsimp only
  cases hexecute : re.execute str index with
  | none =>
    refine ⟨none, res, rfl, ?_⟩
    intro j hj hle
    rw [regExpMatchAt, execute_eq_none.mp hexecute j hj hle]
    rfl
  | some m =>
    obtain ⟨hindex, hat, hbefore⟩ := execute_eq_some hexecute
    have hle := re.limit_le hat
    refine ⟨_, _, rfl, m.start, groupValues str m, hindex, ?_, ?_, ?_, ?_⟩
    · rw [regExpMatchAt, hat]
      rfl
    · show ((str.drop m.start).take (m.limit - m.start)).length = m.limit - m.start
      rw [List.length_take, List.length_drop]
      omega
    · intro j hj hlt
      rw [regExpMatchAt, hbefore j hj hlt]
      rfl
    · exact (captureValues_eq m.parens List.drop_zero).symm

/-- A string is searched for to find the next match. -/
theorem finds_splitStringMatcher (str : List UInt16) (hsep : sep ≠ []) :
    Finds (splitStringMatcher sep) str (stringMatchAt sep str) := by
  intro res index hindex
  have hfirst := stringMatch_isFirst (str.drop index) sep
  have hoccurs {j : ℕ} (hj : index ≤ j) (h : OccursAt sep str j) :
      OccursAt sep (str.drop index) (j - index) := by
    rw [OccursAt, List.drop_drop, Nat.add_sub_cancel' hj]
    exact h
  rw [splitStringMatcher]
  simp only [hindex, guard_true, Option.pure_def, Option.bind_eq_bind, Option.bind_some]
  cases hmatch : stringMatch (str.drop index) sep with
  | none =>
    rw [hmatch] at hfirst
    refine ⟨none, res, rfl, ?_⟩
    intro j hj _
    apply if_neg
    intro h
    exact hfirst _ (hoccurs hj h.1)
  | some k =>
    rw [hmatch] at hfirst
    obtain ⟨hat, hbefore⟩ := hfirst
    rw [OccursAt, List.drop_drop] at hat
    have hle := OccursAt.le_length hat hsep
    refine ⟨_, res, rfl, index + k, [], Nat.le_add_right index k, if_pos ⟨hat, hle⟩, ?_, ?_, rfl⟩
    · show sep.length = index + k + sep.length - (index + k)
      omega
    · intro j hj hlt
      apply if_neg
      intro h
      exact hbefore (j - index) (by omega) (hoccurs hj h.1)

/-! ## The loop -/

/-- The pieces after some others, cut at the limit. -/
def LoopMakes (f : ℕ → Option (ℕ × List Value)) (str : List UInt16) (limit p q : ℕ)
    (splits : List Value) (r : Option (List Value × RegExpStatics)) : Prop :=
  ∃ ps res', Pieces f str p q ps ∧ r = some ((splits ++ ps).take limit, res')

/-- The last piece is within the limit. -/
theorem take_append_singleton (value : Value) (hlimit : splits.length < limit) :
    (splits ++ [value]).take limit = splits ++ [value] := by
  apply List.take_of_length_le
  rw [List.length_append, List.length_singleton]
  omega

/-- The loop makes the pieces. -/
theorem splitLoop_makes {matcher : Matcher} {p q : ℕ} (res : RegExpStatics) (splits : List Value)
    (fuel : ℕ) (hfinds : Finds matcher str f)
    (hf : MatchesWithin f str.length) (hpq : p ≤ q) (hq : q ≤ str.length)
    (hlimit : splits.length < limit) (hfuel : (str.length - p) + (str.length - q) < fuel) :
    LoopMakes f str limit p q splits (splitLoop matcher str limit fuel res p q splits) := by
  induction fuel generalizing res p q splits with
  | zero => omega
  | succ fuel ih =>
    have hrest : (str.drop p).take (str.length - p) = str.drop p := by
      rw [← List.length_drop, List.take_length]
    have hlast := take_append_singleton (some (str.drop p)) hlimit
    rw [splitLoop, hrest]
    by_cases hlt : q < str.length
    · rw [if_pos hlt]
      obtain ⟨r, res', hr, hnext⟩ := hfinds res q (Or.inr hlt)
      simp only [hr, Option.bind_eq_bind, Option.bind_some]
      cases r with
      | none =>
        refine ⟨_, res', Pieces.skip hq (Nat.le_refl _) ?_ .stop, ?_⟩
        · intro j hj hjlt
          exact hnext j hj (Nat.le_of_lt hjlt)
        · rw [hlast]
      | some result =>
        obtain ⟨k, caps, hqk, hk, hlength, hnone, hcaps⟩ := hnext
        obtain ⟨hke, he⟩ := hf hk
        dsimp only
        by_cases hend : result.length = 0 ∧ result.endIndex = str.length
        · -- an empty match at the end of the text is not one
          rw [if_pos hend]
          refine ⟨_, res', Pieces.skip hq (Nat.le_refl _) ?_ .stop, ?_⟩
          · intro j hj hjlt
            exact hnone j hj (by omega)
          · rw [hlast]
        rw [if_neg hend]
        by_cases hsame : result.endIndex = p
        · rw [if_pos hsame]
          obtain rfl : q = k := by omega
          obtain ⟨ps, res'', hps, hloop⟩ :=
            ih res' splits (Nat.le_succ_of_le hpq) hlt hlimit (by omega)
          exact ⟨ps, res'', .sameEnd hlt (hsame ▸ hk) hps, hloop⟩
        rw [if_neg hsame]
        have hassert : p < result.endIndex ∧ result.length ≤ str.length ∧
            p + result.length ≤ result.endIndex := by omega
        have hsub : result.endIndex - result.length - p = k - p := by omega
        have hk' : k < str.length := by omega
        simp only [hassert, and_self, guard_true, Option.pure_def, Option.bind_some, hsub]
        generalize hpiece : some ((str.drop p).take (k - p)) = piece
        -- what comes behind the piece, however it goes on
        have hmakes {ps : List Value} (hps : Pieces f str result.endIndex result.endIndex ps) :
            Pieces f str p q (piece :: (caps ++ ps)) := by
          rw [← hpiece]
          apply Pieces.skip hqk (Nat.le_of_lt hk') hnone
          exact .found hk' hk hsame hps
        have hall (ps : List Value) :
            splits ++ piece :: (caps ++ ps) = splits ++ [piece] ++ caps ++ ps := by
          rw [List.append_assoc, List.append_assoc]
          rfl
        obtain ⟨others, hothers⟩ := exists_pieces hf (Nat.le_refl result.endIndex) he
        have hone : (splits ++ [piece]).length = splits.length + 1 := by
          rw [List.length_append]
          rfl
        by_cases hfull : (splits ++ [piece]).length = limit
        · rw [if_pos hfull]
          refine ⟨_, res', hmakes hothers, ?_⟩
          rw [hall, List.append_assoc, ← hfull, List.take_left]
        rw [if_neg hfull]
        have hlimit' : (splits ++ [piece]).length < limit := by omega
        by_cases hreturns : matcher.returnsCaptures = true
        · rw [if_pos hreturns] at hcaps ⊢
          rw [appendCaptures_eq _ hlimit', ← hcaps]
          by_cases hcut : limit ≤ (splits ++ [piece] ++ caps).length
          · rw [if_pos hcut]
            refine ⟨_, res', hmakes hothers, ?_⟩
            rw [hall, List.take_append_of_le_length hcut]
          · rw [if_neg hcut]
            obtain ⟨ps, res'', hps, hloop⟩ := ih res' (splits ++ [piece] ++ caps)
              (Nat.le_refl result.endIndex) he (Nat.lt_of_not_le hcut) (by omega)
            refine ⟨_, res'', hmakes hps, ?_⟩
            rw [hall]
            exact hloop
        · rw [if_neg hreturns] at hcaps ⊢
          obtain ⟨ps, res'', hps, hloop⟩ := ih res' (splits ++ [piece])
            (Nat.le_refl result.endIndex) he hlimit' (by omega)
          refine ⟨_, res'', hmakes hps, ?_⟩
          rw [hall, hcaps, List.append_nil]
          exact hloop
    · obtain rfl : q = str.length := by omega
      rw [if_neg hlt]
      exact ⟨_, res, .stop, by rw [hlast]⟩

/-- The text is split as it has to be. -/
theorem splitHelper_isSplit {matcher : Matcher} (res : RegExpStatics)
    (hfinds : Finds matcher str f) (hf : MatchesWithin f str.length) (hlimit : 0 < limit) :
    ∃ ps res', IsSplit f str ps ∧ splitHelper matcher res str limit = some (ps.take limit, res') := by
  rw [splitHelper]
  by_cases hempty : str = []
  · subst hempty
    obtain ⟨r, res', hr, hnext⟩ := hfinds res 0 (Or.inl rfl)
    simp only [IsSplit, if_true, List.length_nil, hr, Option.bind_eq_bind, Option.bind_some]
    cases r with
    | none =>
      refine ⟨[some []], res', ?_, ?_⟩
      · rw [hnext 0 (Nat.le_refl 0) (Nat.le_refl 0)]
        rfl
      · rw [List.take_of_length_le hlimit]
    | some result =>
      obtain ⟨k, caps, _, hk, _⟩ := hnext
      obtain ⟨hke, he⟩ := hf hk
      obtain rfl : k = 0 := by
        rw [List.length_nil] at he
        omega
      refine ⟨[], res', ?_, ?_⟩
      · rw [hk]
        rfl
      · rw [List.take_nil]
  · have hpos := List.length_pos_iff.mpr hempty
    rw [if_neg (Nat.ne_of_gt hpos)]
    simp only [IsSplit, if_neg hempty]
    obtain ⟨ps, res', hps, hloop⟩ := splitLoop_makes res [] (2 * str.length + 1) hfinds hf (Nat.le_refl 0) (Nat.zero_le str.length)
      hlimit (by omega)
    exact ⟨ps, res', hps, hloop⟩

/-! ## The units -/

/-- The empty string is everywhere. -/
theorem stringMatchAt_nil (hi : i ≤ str.length) : stringMatchAt [] str i = some (i, []) :=
  if_pos ⟨occursAt_nil, hi⟩

/-- The pieces between empty separators are the units. -/
theorem pieces_units (hi : i < str.length) :
    Pieces (stringMatchAt [] str) str i i ((str.drop i).map fun c => some [c]) := by
  induction hn : str.length - i generalizing i with
  | zero => omega
  | succ n ih =>
    apply Pieces.sameEnd hi (stringMatchAt_nil (Nat.le_of_lt hi))
    rw [List.drop_eq_getElem_cons hi]
    by_cases hnext : i + 1 < str.length
    · have hfound := Pieces.found (p := i) hnext (stringMatchAt_nil (Nat.le_of_lt hnext))
        (Nat.succ_ne_self i) (ih hnext (by omega))
      rw [List.drop_eq_getElem_cons hi, Nat.add_sub_cancel_left] at hfound
      exact hfound
    · have hlast : i + 1 = str.length := by omega
      have hstop := Pieces.stop (f := stringMatchAt [] str) (t := str) (p := i)
      rw [List.drop_eq_getElem_cons hi, hlast, List.drop_length] at hstop
      rw [hlast, List.drop_length]
      exact hstop

/-- The text is split into its units. -/
theorem isSplit_units : IsSplit (stringMatchAt [] str) str (str.map fun c => some [c]) := by
  rw [IsSplit]
  split_ifs with hempty hsome
  · rw [hempty]
    rfl
  · rw [stringMatchAt_nil (Nat.zero_le _)] at hsome
    exact absurd rfl hsome
  · exact pieces_units (List.length_pos_iff.mpr hempty)

/-- The units up to the limit. -/
theorem charSplitHelper_eq (str : List UInt16) (limit : ℕ) :
    charSplitHelper str limit = (str.map fun c => some [c]).take limit := by
  have hlen : (if limit < str.length then limit else str.length) = min limit str.length := by
    split_ifs <;> omega
  rw [charSplitHelper, hlen]
  apply List.ext_getElem
  · rw [List.length_map, List.length_range, List.length_take, List.length_map]
  · intro i hi _
    rw [List.length_map, List.length_range] at hi
    rw [List.getElem_map, List.getElem_range, List.getElem_take, List.getElem_map,
      List.getD_eq_getElem?_getD, List.getElem?_eq_getElem (by omega)]
    rfl

/-! ## The array -/

/-- The limit that applies: as given, or the largest. -/
def limitOf (limit : Option UInt32) : ℕ := (limit.getD (UInt32.ofNat (2 ^ 32 - 1))).toNat

/-- There is one array to be made. -/
theorem exists_unique_splits (str : List UInt16) (separator : Separator) :
    ∃ ps, Splits str ps separator ∧ ∀ ps', Splits str ps' separator → ps' = ps := by
  cases separator with
  | undefined => exact ⟨_, rfl, fun ps' h => h⟩
  | regExp re => exact exists_unique_isSplit matchesWithin_regExp
  | string sep => exact exists_unique_isSplit matchesWithin_string

/-- The array is as it has to be, up to the limit. -/
theorem str_split_splits (res : RegExpStatics) (str : List UInt16) (separator : Separator)
    (limit : Option UInt32) :
    ∃ ps res', Splits str ps separator ∧
      str_split res str separator limit = some (ps.take (limitOf limit), res') := by
  rw [str_split.eq_def]
  show ∃ ps res', _ ∧ (if limitOf limit = 0 then _ else _) = _
  by_cases hzero : limitOf limit = 0
  · obtain ⟨ps, hps, _⟩ := exists_unique_splits str separator
    rw [if_pos hzero]
    refine ⟨ps, res, hps, ?_⟩
    rw [hzero, List.take_zero]
  have hlimit := Nat.pos_of_ne_zero hzero
  rw [if_neg hzero]
  cases separator with
  | undefined => exact ⟨_, res, rfl, by rw [List.take_of_length_le hlimit]⟩
  | regExp re =>
    exact splitHelper_isSplit res (finds_splitRegExpMatcher re str) matchesWithin_regExp hlimit
  | string sep =>
    dsimp only
    by_cases hsep : sep = []
    · subst hsep
      rw [if_pos List.length_nil]
      exact ⟨_, res, isSplit_units, congrArg (fun ps => some (ps, res)) (charSplitHelper_eq str _)⟩
    · rw [if_neg (Nat.ne_of_gt (List.length_pos_iff.mpr hsep))]
      exact splitHelper_isSplit res (finds_splitStringMatcher str hsep) matchesWithin_string hlimit

/-- What a string matches is the string, and nothing comes with it. -/
theorem drop_of_stringMatchAt {q e : ℕ} {caps : List Value}
    (h : stringMatchAt sep str q = some (e, caps)) :
    caps = [] ∧ str.drop q = sep ++ str.drop e := by
  obtain ⟨⟨hat, _⟩, heq⟩ := Option.ite_none_right_eq_some.mp h
  obtain ⟨rfl, rfl⟩ := Prod.mk.inj (Option.some_inj.mp heq)
  obtain ⟨rest, hrest⟩ := hat
  refine ⟨rfl, ?_⟩
  rw [← List.drop_drop, ← hrest, List.drop_left]

/-- The pieces between the occurrences of a string are strings, not too many, and make the text when
they are joined by the string. -/
theorem join_of_splits {ps : List Value} (h : Splits str ps (.string sep)) :
    ps.length ≤ str.length + 1 ∧ ∃ parts, ps = parts.map some ∧ sep.intercalate parts = str := by
  have h' : IsSplit (stringMatchAt sep str) str ps := h
  rw [IsSplit] at h'
  by_cases hempty : str = []
  · rw [if_pos hempty] at h'
    subst hempty
    split_ifs at h'
    · exact ⟨by rw [h']; exact Nat.zero_le 1, [], h', List.intercalate_nil⟩
    · exact ⟨by rw [h']; exact Nat.le_refl 1, [[]], h', List.intercalate_singleton⟩
  · rw [if_neg hempty] at h'
    have hwithin : MatchesWithin (stringMatchAt sep str) str.length := matchesWithin_string
    obtain ⟨parts, hps, _, hparts⟩ := h'.intercalate (Nat.le_refl 0) drop_of_stringMatchAt
    have hle := h'.length_le (Nat.le_refl 0) (fun hm => (drop_of_stringMatchAt hm).1) hwithin
    exact ⟨hle, parts, hps, hparts⟩

/-- The array that is made is the one that trying each position makes, cut at the limit, and there is
just one such. If the separator is a string and there is no limit, joining the elements by the
separator gives the text. -/
theorem str_split_isSplit (res : RegExpStatics) (str : List UInt16) (separator : Separator)
    (limit : Option UInt32) (hstr : str.length ≤ maxLength) :
    ∃ ps res', Splits str ps separator ∧ (∀ ps', Splits str ps' separator → ps' = ps) ∧
      str_split res str separator limit = some (ps.take (limitOf limit), res') ∧
      ∀ sep, separator = .string sep → limit = none →
        ∃ parts, ps.take (limitOf limit) = parts.map some ∧ sep.intercalate parts = str := by
  obtain ⟨ps, res', hps, hsplit⟩ := str_split_splits res str separator limit
  obtain ⟨ps₀, _, hunique⟩ := exists_unique_splits str separator
  refine ⟨ps, res', hps, ?_, hsplit, ?_⟩
  · intro ps' hps'
    rw [hunique ps' hps', hunique ps hps]
  · intro sep hsep hnone
    subst hsep hnone
    obtain ⟨hle, parts, hparts, hjoin⟩ := join_of_splits hps
    have hmax : maxLength + 1 ≤ limitOf none := by decide
    refine ⟨parts, ?_, hjoin⟩
    rw [List.take_of_length_le (by omega), hparts]

/-- A text with an empty string between two separators. -/
theorem str_split_isSplit_sample :
    ∃ ps res', Splits [0x61, 0x2C, 0x2C, 0x62] ps (.string [0x2C]) ∧
      (∀ ps', Splits [0x61, 0x2C, 0x2C, 0x62] ps' (.string [0x2C]) → ps' = ps) ∧
      str_split ⟨none, [], [], none⟩ [0x61, 0x2C, 0x2C, 0x62] (.string [0x2C]) none =
        some (ps.take (limitOf none), res') ∧
      ∀ sep, Separator.string [0x2C] = .string sep → (none : Option UInt32) = none →
        ∃ parts, ps.take (limitOf none) = parts.map some ∧
          sep.intercalate parts = [0x61, 0x2C, 0x2C, 0x62] :=
  str_split_isSplit ⟨none, [], [], none⟩ [0x61, 0x2C, 0x2C, 0x62] (.string [0x2C]) none (by decide)

end SpiderMonkey.Vm.StringSplit
