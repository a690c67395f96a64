import SpiderMonkey.Vm.RegExpReplaceScans

/-!
# What the general path makes

The loop over the matches appends the text between them and what the replacement stands for. The text
behind the last match comes at the end. An append without checks always fits; what can fail is the
growth of the buffer, and strings that are too long.
-/

namespace SpiderMonkey.Vm.RegExpReplace

open StringReplace (JSString)
open Rope (maxLength)
open RegExpShared

/-- A text from an index on, with something in the place of each match. -/
def replaceMatches (text : List UInt16) (f : Match → List UInt16) : ℕ → List Match → List UInt16
  | i, [] => text.drop i
  | i, m :: ms => (text.drop i).take (m.start - i) ++ (f m ++ replaceMatches text f m.limit ms)

/-- What justifies a failure to make a string of a length: memory that does not grow, too many units
for 32 bits, or too many for a string. An append that does not fit is never justified. -/
def Justified (grows : ℕ → Bool) (overflows : Prop) (length : ℕ) : Failure → Prop
  | .overrun => False
  | .outOfMemory => ∃ len, grows len = false
  | .allocationOverflow => overflows ∨ 2 ^ 32 ≤ length
  | .validateLength => maxLength < length

/-- A replacement overflows for one of the matches. -/
def SomeOverflows (text repstr : List UInt16) (ms : List Match) : Prop :=
  ∃ m ∈ ms, Overflows text m 0 repstr

/-- The statics after some matches. -/
def staticsAfter (text : List UInt16) (ms : List Match) (res : RegExpStatics) : RegExpStatics :=
  match ms.getLast? with
  | none => res
  | some m => res.updateFromMatchPairs text m

/-- The index behind some matches. -/
def limitAfter (i : ℕ) (ms : List Match) : ℕ := (ms.getLast?.map Match.limit).getD i

variable {grows : ℕ → Bool} {text repstr : List UInt16} {m : Match} {ms : List Match}
  {res : RegExpStatics} {rdata : ReplaceData} {re : RegExpShared} {overflows : Prop}

/-- A failure stays justified for a longer string. -/
theorem Justified.mono {overflows' : Prop} {length length' : ℕ} {e : Failure}
    (h : Justified grows overflows length e) (hoverflows : overflows → overflows')
    (hle : length ≤ length') : Justified grows overflows' length' e := by
  cases e with
  | overrun => exact h
  | outOfMemory => exact h
  | allocationOverflow => exact h.imp hoverflows fun hlarge => Nat.le_trans hlarge hle
  | validateLength => exact Nat.lt_of_lt_of_le h hle

/-- The statics after one match and some others. -/
theorem staticsAfter_cons :
    staticsAfter text ms (res.updateFromMatchPairs text m) = staticsAfter text (m :: ms) res := by
  cases ms with
  | nil => rfl
  | cons m' ms =>
    rw [staticsAfter, staticsAfter, List.getLast?_cons_cons]
    cases h : (m' :: ms).getLast? with
    | none => rw [List.getLast?_eq_none_iff] at h; cases h
    | some last => rfl

/-- The index behind one match and some others. -/
theorem limitAfter_cons (i : ℕ) : limitAfter m.limit ms = limitAfter i (m :: ms) := by
  cases ms with
  | nil => rfl
  | cons m' ms =>
    rw [limitAfter, limitAfter, List.getLast?_cons_cons]
    cases h : (m' :: ms).getLast? with
    | none => rw [List.getLast?_eq_none_iff] at h; cases h
    | some last => rfl

/-! ## One match -/

/-- More space. -/
theorem reserve_cases (sb : StringBuffer) (grows : ℕ → Bool) (len : ℕ) :
    (∃ sb', sb.reserve grows len = .ok sb' ∧ sb'.chars = sb.chars ∧ len ≤ sb'.capacity) ∨
      (sb.reserve grows len = .error .outOfMemory ∧ grows len = false) := by
  rw [StringBuffer.reserve]
  split_ifs with hle hgrows
  · exact Or.inl ⟨sb, rfl, rfl, hle⟩
  · exact Or.inl ⟨_, rfl, rfl, Nat.le_refl len⟩
  · exact Or.inr ⟨rfl, Bool.not_eq_true _ ▸ hgrows⟩

/-- The sum of three checked lengths. -/
theorem addChecked_addChecked {a b c : ℕ} :
    addChecked (addChecked (checkedInt a) b) c = checkedInt (a + b + c) := by
  simp only [addChecked, checkedInt]
  by_cases hsum : a + b + c < 2 ^ 32
  · rw [if_pos (show a < 2 ^ 32 by omega), if_pos (show b < 2 ^ 32 by omega),
      if_pos (show c < 2 ^ 32 by omega)]
    simp only [Option.bind_eq_bind, Option.bind_some]
    rw [if_pos (show a + b < 2 ^ 32 by omega)]
    rfl
  · rw [if_neg hsum]
    by_cases hab : a + b < 2 ^ 32
    · rw [if_pos (show a < 2 ^ 32 by omega), if_pos (show b < 2 ^ 32 by omega)]
      simp only [Option.bind_eq_bind, Option.bind_some, if_pos hab]
      split_ifs
      · simp only [Option.bind_some, if_neg hsum]
      · rfl
    · simp only [Option.bind_eq_bind]
      split_ifs <;> simp only [Option.bind_some, Option.bind_none, if_neg hab]

/-- What is built with a match: the text up to it, and what the replacement stands for. -/
def built (text repstr : List UInt16) (m : Match) (rdata : ReplaceData) : List UInt16 :=
  rdata.sb.chars ++ ((text.drop rdata.leftIndex).take (m.start - rdata.leftIndex) ++
    substitute text m repstr)

/-- The replacement of one match. -/
theorem replaceRegExp_spec (grows : ℕ → Bool) (repstr : List UInt16) (h : res.IsOf text m)
    (hleft : rdata.leftIndex ≤ m.start) (hstart : m.start ≤ text.length) :
    match replaceRegExp grows text repstr res m rdata with
    | .ok rdata' => rdata'.leftIndex = m.limit ∧ rdata'.calledBack = true ∧
        rdata'.sb.chars = built text repstr m rdata
    | .error e =>
      Justified grows (Overflows text m 0 repstr) (built text repstr m rdata).length e := by
  have hbuilt : (built text repstr m rdata).length = rdata.sb.chars.length +
      (m.start - rdata.leftIndex) + (substitute text m repstr).length := by
    rw [built, List.length_append, List.length_append, List.length_take, List.length_drop]
    omega
  have hlength := findReplaceLength_spec repstr h
  rw [replaceRegExp]
  cases hreplen : findReplaceLength res repstr with
  | none =>
    rw [hreplen] at hlength
    exact Or.inl hlength
  | some replen =>
    rw [hreplen, LengthOf, Nat.zero_add] at hlength
    dsimp only
    rw [addChecked_addChecked, hlength, ← hbuilt, checkedInt]
    by_cases hfits : (built text repstr m rdata).length < 2 ^ 32
    · rw [if_pos hfits]
      dsimp only
      rcases reserve_cases rdata.sb grows (built text repstr m rdata).length with
        ⟨sb, hsb, hchars, hcapacity⟩ | ⟨hsb, hgrows⟩
      · have hleftlen :
            ((text.drop rdata.leftIndex).take (m.start - rdata.leftIndex)).length =
              m.start - rdata.leftIndex := by
          rw [List.length_take, List.length_drop]
          omega
        rw [hsb]
        simp only [bind, Except.bind]
        rw [infallibleAppend_of_le (by rw [hleftlen, hchars]; omega)]
        dsimp only
        rw [doReplace_spec h (by
          dsimp only
          rw [List.length_append, hleftlen, hchars]
          omega)]
        refine ⟨rfl, rfl, ?_⟩
        dsimp only
        rw [built, hchars, List.append_assoc]
      · rw [hsb]
        exact ⟨_, hgrows⟩
    · rw [if_neg hfits]
      exact Or.inr (Nat.le_of_not_lt hfits)

/-! ## All matches -/

/-- One match of the loops over the matches. -/
def replaceStep (grows : ℕ → Bool) (text repstr : List UInt16) (s : RegExpStatics × ReplaceData)
    (m : Match) : Except Failure (RegExpStatics × ReplaceData) := do
  let res := s.1.updateFromMatchPairs text m
  let rdata ← replaceRegExp grows text repstr res m s.2
  .ok (res, rdata)

/-- The loop for a global expression goes through the matches. -/
theorem doMatchForReplaceGlobal_eq (fuel i : ℕ) :
    doMatchForReplaceGlobal grows text repstr re fuel i res rdata =
      (re.matchesFrom text fuel i).foldlM (replaceStep grows text repstr) (res, rdata) := by
  induction fuel generalizing i res rdata with
  | zero => rfl
  | succ fuel ih =>
    rw [doMatchForReplaceGlobal, matchesFrom]
    by_cases hlt : text.length < i
    · rw [if_pos hlt, execute_of_lt hlt]
      rfl
    · rw [if_neg hlt]
      cases re.execute text i with
      | none => rfl
      | some m =>
        rw [List.foldlM_cons, replaceStep]
        dsimp only
        cases replaceRegExp grows text repstr (res.updateFromMatchPairs text m) m rdata with
        | error e => rfl
        | ok rdata' => exact ih _

/-- The replacement of the first match goes through that. -/
theorem doMatchForReplaceLocal_eq :
    doMatchForReplaceLocal grows text repstr re res rdata =
      (re.execute text 0).toList.foldlM (replaceStep grows text repstr) (res, rdata) := by
  rw [doMatchForReplaceLocal]
  cases re.execute text 0 with
  | none => rfl
  | some m =>
    rw [Option.toList_some, List.foldlM_cons, replaceStep]
    dsimp only
    cases replaceRegExp grows text repstr (res.updateFromMatchPairs text m) m rdata with
    | error e => rfl
    | ok rdata' => rfl

/-- What comes after the loop over the matches. -/
def finishReplace (grows : ℕ → Bool) (str : JSString) (s : RegExpStatics × ReplaceData) :
    Except Failure (JSString × RegExpStatics) :=
  if s.2.calledBack = false then .ok (str, s.1)
  else do
    let sb ← s.2.sb.append grows s.1.getRightContext
    let retstr ← sb.finishString
    .ok (retstr, s.1)

/-- The general path is a loop over the matches. -/
theorem strReplaceGeneral_eq (grows : ℕ → Bool) (str : JSString) (re : RegExpShared)
    (repstr : List UInt16) (res : RegExpStatics) :
    strReplaceGeneral grows str re repstr res =
      ((re.matchesOf str.chars).foldlM (replaceStep grows str.chars repstr)
        (res, ⟨0, false, StringBuffer.empty⟩)).bind (finishReplace grows str) := by
  rw [strReplaceGeneral, matchesOf]
  split_ifs
  · rw [← doMatchForReplaceGlobal_eq]
    rfl
  · rw [← doMatchForReplaceLocal_eq]
    rfl

/-- Where a loop over matches ends: the statics are those of the last one, and the buffer with the rest
of the text is the text with the matches replaced. -/
def LoopEnds (grows : ℕ → Bool) (text repstr : List UInt16) (ms : List Match) (res : RegExpStatics)
    (rdata : ReplaceData) : Except Failure (RegExpStatics × ReplaceData) → Prop
  | .ok (res', rdata') => res' = staticsAfter text ms res ∧
      rdata'.leftIndex = limitAfter rdata.leftIndex ms ∧
      (rdata'.calledBack = true ↔ rdata.calledBack = true ∨ ms ≠ []) ∧
      rdata'.sb.chars ++ text.drop rdata'.leftIndex =
        rdata.sb.chars ++ replaceMatches text (substitute text · repstr) rdata.leftIndex ms
  | .error e => Justified grows (SomeOverflows text repstr ms)
      (rdata.sb.chars ++
        replaceMatches text (substitute text · repstr) rdata.leftIndex ms).length e

/-- The loop over some matches in order. -/
theorem foldlM_replaceStep (grows : ℕ → Bool) (repstr : List UInt16) (res : RegExpStatics)
    (rdata : ReplaceData) (hms : Ordered text rdata.leftIndex ms) :
    LoopEnds grows text repstr ms res rdata
      (ms.foldlM (replaceStep grows text repstr) (res, rdata)) := by
  induction ms generalizing res rdata with
  | nil => exact ⟨rfl, rfl, by rw [ne_self_iff_false, or_false], rfl⟩
  | cons m ms ih =>
    obtain ⟨hleft, hlimit, htext, hms⟩ := hms
    have hof := RegExpStatics.isOf_updateFromMatchPairs res text m
    have hstep := replaceRegExp_spec grows repstr hof hleft (Nat.le_trans hlimit htext)
    have hall : rdata.sb.chars ++
          replaceMatches text (substitute text · repstr) rdata.leftIndex (m :: ms) =
        built text repstr m rdata ++ replaceMatches text (substitute text · repstr) m.limit ms := by
      rw [replaceMatches, built]
      simp only [List.append_assoc]
    rw [List.foldlM_cons, replaceStep]
    dsimp only
    cases hrun : replaceRegExp grows text repstr (res.updateFromMatchPairs text m) m rdata with
    | error e =>
      rw [hrun] at hstep
      apply Justified.mono hstep
      · intro hover
        exact ⟨m, List.mem_cons_self, hover⟩
      · rw [hall, List.length_append]
        exact Nat.le_add_right _ _
    | ok rdata' =>
      rw [hrun] at hstep
      obtain ⟨hindex, hcalled, hchars⟩ := hstep
      have hrest := ih (res.updateFromMatchPairs text m) rdata' (hindex ▸ hms)
      simp only [bind, Except.bind]
      cases hloop : ms.foldlM (replaceStep grows text repstr)
          (res.updateFromMatchPairs text m, rdata') with
      | error e =>
        rw [hloop, LoopEnds, hindex, hchars, ← hall] at hrest
        apply Justified.mono hrest _ (Nat.le_refl _)
        intro hover
        obtain ⟨m', hm', hover⟩ := hover
        exact ⟨m', List.mem_cons_of_mem m hm', hover⟩
      | ok s =>
        rw [hloop] at hrest
        obtain ⟨hstatics, hlast, hcalled', hbuilt⟩ := hrest
        rw [hindex, hchars, ← hall] at hbuilt
        refine ⟨hstatics.trans staticsAfter_cons, ?_, ?_, hbuilt⟩
        · rw [hlast, hindex]
          exact limitAfter_cons rdata.leftIndex
        · rw [hcalled', hcalled]
          exact iff_of_true (Or.inl rfl) (Or.inr (List.cons_ne_nil m ms))

/-! ## The string -/

/-- How a replacement may end: with the text in which matches are replaced and the statics of the last
one, or with a failure that is justified. -/
def Ends (grows : ℕ → Bool) (overflows : Prop) (out : List UInt16) (res : RegExpStatics) :
    Except Failure (JSString × RegExpStatics) → Prop
  | .ok (result, res') => result.chars = out ∧ res' = res
  | .error e => Justified grows overflows out.length e

/-- Appending a text at the end, and making the string. -/
theorem finish_ends {sb : StringBuffer} {rest : List UInt16} :
    Ends grows overflows (sb.chars ++ rest) res (do
      let sb ← sb.append grows rest
      let retstr ← sb.finishString
      .ok (retstr, res)) := by
  rw [StringBuffer.append]
  rcases reserve_cases sb grows (sb.chars.length + rest.length) with
    ⟨sb', hsb, hchars, hcapacity⟩ | ⟨hsb, hgrows⟩
  · rw [hsb]
    simp only [bind, Except.bind]
    rw [infallibleAppend_of_le (by rw [hchars]; exact hcapacity)]
    dsimp only
    rw [StringBuffer.finishString, hchars]
    by_cases hfits : (sb.chars ++ rest).length ≤ maxLength
    · rw [if_pos hfits]
      exact ⟨rfl, rfl⟩
    · rw [if_neg hfits]
      exact Nat.lt_of_not_le hfits
  · rw [hsb]
    exact ⟨_, hgrows⟩

/-- The general path makes the text with the matches replaced. -/
theorem strReplaceGeneral_ends (grows : ℕ → Bool) (str : JSString) (re : RegExpShared)
    (repstr : List UInt16) (res : RegExpStatics) :
    Ends grows (SomeOverflows str.chars repstr (re.matchesOf str.chars))
      (replaceMatches str.chars (substitute str.chars · repstr) 0 (re.matchesOf str.chars))
      (staticsAfter str.chars (re.matchesOf str.chars) res)
      (strReplaceGeneral grows str re repstr res) := by
  have hloop := foldlM_replaceStep grows repstr res ⟨0, false, StringBuffer.empty⟩
    (re.ordered_matchesOf str.chars)
  rw [strReplaceGeneral_eq]
  cases hrun : (re.matchesOf str.chars).foldlM (replaceStep grows str.chars repstr)
      (res, ⟨0, false, StringBuffer.empty⟩) with
  | error e =>
    rw [hrun] at hloop
    exact hloop
  | ok s =>
    obtain ⟨res', rdata'⟩ := s
    rw [hrun] at hloop
    obtain ⟨hstatics, hlast, hcalled, hchars⟩ := hloop
    rw [Except.bind, finishReplace]
    generalize re.matchesOf str.chars = ms at *
    cases hlastMatch : ms.getLast? with
    | none =>
      obtain rfl := List.getLast?_eq_none_iff.mp hlastMatch
      have hfalse : rdata'.calledBack = false := by
        rw [← Bool.not_eq_true, hcalled]
        simp
      rw [if_pos hfalse]
      exact ⟨rfl, hstatics⟩
    | some m =>
      have hne : ms ≠ [] := by
        rintro rfl
        cases hlastMatch
      have htrue := hcalled.mpr (Or.inr hne)
      rw [htrue, if_neg (by decide)]
      have hcontext : res'.getRightContext = str.chars.drop rdata'.leftIndex := by
        rw [hstatics, hlast, staticsAfter, limitAfter, hlastMatch]
        rfl
      rw [hcontext, ← hstatics]
      rw [show (StringBuffer.empty.chars ++ replaceMatches str.chars (substitute str.chars · repstr) 0
        ms) = replaceMatches str.chars (substitute str.chars · repstr) 0 ms from rfl] at hchars
      rw [← hchars]
      exact finish_ends

end SpiderMonkey.Vm.RegExpReplace
