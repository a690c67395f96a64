import SpiderMonkey.Vm.RegExpReplaceRemove

/-!
# Removal and the general path

Removal makes the string that the general path makes for an empty replacement. The statics of the
general path are those of the last match. Removal keeps the index behind the match before it, and the
last match is computed from there when it is asked for. If the match before it is empty, that one is
found instead.
-/

namespace SpiderMonkey.Vm.RegExpReplace

open StringReplace (JSString)
open Rope (maxLength)
open RegExpShared

/-- What can be seen of the last match: its text, and what is before and behind it. -/
def contexts (res : RegExpStatics) : Option (List UInt16 × List UInt16 × List UInt16) :=
  res.executeLazy.map fun res => (res.getLastMatch, res.getLeftContext, res.getRightContext)

/-- The removal agrees with the general path: the strings are the same, what can be seen of the last
match is the same, and without a match the statics are untouched. -/
def Agree (str : JSString) (re : RegExpShared) (res : RegExpStatics)
    (fast general : Except Failure (JSString × RegExpStatics)) : Prop :=
  ∃ result fastRes result' generalRes, fast = .ok (result, fastRes) ∧
    general = .ok (result', generalRes) ∧ result.chars = result'.chars ∧
    contexts fastRes = contexts generalRes ∧
    (re.matchesOf str.chars = [] → fastRes = res ∧ generalRes = res)

/-- The last match but one is empty. -/
def LastButOneEmpty (ms : List Match) : Prop :=
  ∃ ms' m m', ms = ms' ++ [m, m'] ∧ m.isEmpty = true

variable {text : List UInt16} {m m' : Match} {ms : List Match} {re : RegExpShared}
  {res : RegExpStatics}

/-! ## The strings -/

/-- Nothing overflows in an empty replacement. -/
theorem not_someOverflows_nil : ¬SomeOverflows text [] ms := by
  rintro ⟨m, _, k, hk⟩
  cases k with
  | zero => exact absurd (show 2 ^ 32 ≤ 0 from hk) (by decide)
  | succ k => exact absurd (show 2 ^ 32 ≤ 0 from hk) (by decide)

/-- A text without matches is not longer. -/
theorem length_replaceMatches_nil_le {i : ℕ} (hms : Ordered text i ms) :
    (replaceMatches text (fun _ => []) i ms).length ≤ text.length - i := by
  induction ms generalizing i with
  | nil => exact Nat.le_of_eq List.length_drop
  | cons m ms ih =>
    obtain ⟨hstart, hlimit, htext, hms⟩ := hms
    have hle := ih hms
    rw [replaceMatches, List.nil_append, List.length_append, List.length_take]
    omega

/-- Nothing justifies a failure where memory grows and the string is not too long. -/
theorem Ends.exists_ok {overflows : Prop} {out : List UInt16}
    {r : Except Failure (JSString × RegExpStatics)}
    (h : Ends (fun _ => true) overflows out res r) (hoverflows : ¬overflows)
    (hlength : out.length ≤ maxLength) : ∃ result, r = .ok (result, res) ∧ result.chars = out := by
  cases r with
  | ok p =>
    obtain ⟨result, res'⟩ := p
    obtain ⟨hchars, rfl⟩ := h
    exact ⟨result, rfl, hchars⟩
  | error e =>
    cases e with
    | overrun => exact h.elim
    | outOfMemory =>
      obtain ⟨_, hfalse⟩ := h
      cases hfalse
    | allocationOverflow =>
      rcases h with hover | hlarge
      · exact absurd hover hoverflows
      · have hsmall : maxLength < 2 ^ 32 := by decide
        omega
    | validateLength => exact absurd hlength (Nat.not_le_of_lt h)

/-- Both paths end, with the same string. -/
theorem paths_ok (str : JSString) (re : RegExpShared) (res : RegExpStatics)
    (hlength : str.chars.length ≤ maxLength) :
    ∃ result result', strReplaceRegexpRemove str re res =
        .ok (result, lazyStaticsAfter re str.chars (re.matchesOf str.chars) res) ∧
      strReplaceGeneral (fun _ => true) str re [] res =
        .ok (result', staticsAfter str.chars (re.matchesOf str.chars) res) ∧
      result.chars = result'.chars := by
  have hout := length_replaceMatches_nil_le (re.ordered_matchesOf str.chars)
  rw [Nat.sub_zero] at hout
  have hle := Nat.le_trans hout hlength
  obtain ⟨result, hfast, hchars⟩ :=
    (strReplaceRegexpRemove_ends (fun _ => true) False str re res).exists_ok not_false hle
  obtain ⟨result', hgeneral, hchars'⟩ :=
    (strReplaceGeneral_ends (fun _ => true) str re [] res).exists_ok not_someOverflows_nil hle
  exact ⟨result, result', hfast, hgeneral, hchars.trans hchars'.symm⟩

/-! ## The last match -/

/-- The index from which the match after some others is looked for. -/
def indexAfter (i : ℕ) (ms : List Match) : ℕ :=
  match ms.getLast? with
  | none => i
  | some m => if m.isEmpty then m.limit + 1 else m.limit

/-- The last match is the one that is found from the index after the others. -/
theorem execute_indexAfter {fuel i : ℕ} (h : re.matchesFrom text fuel i = ms ++ [m]) :
    re.execute text (indexAfter i ms) = some m := by
  induction fuel generalizing i ms with
  | zero => exact absurd h.symm (List.append_ne_nil_of_right_ne_nil ms (List.cons_ne_nil m []))
  | succ fuel ih =>
    rw [matchesFrom] at h
    cases hfirst : re.execute text i with
    | none =>
      rw [hfirst] at h
      exact absurd h.symm (List.append_ne_nil_of_right_ne_nil ms (List.cons_ne_nil m []))
    | some m₀ =>
      rw [hfirst] at h
      cases ms with
      | nil =>
        obtain ⟨rfl, _⟩ := List.cons_eq_cons.mp h
        exact hfirst
      | cons m₁ ms =>
        obtain ⟨rfl, hrest⟩ := List.cons_eq_cons.mp h
        have hlast := ih hrest
        cases ms with
        | nil => exact hlast
        | cons m₂ ms =>
          rw [indexAfter] at hlast ⊢
          rw [List.getLast?_cons_cons]
          cases hget : (m₂ :: ms).getLast? with
          | none => rw [List.getLast?_eq_none_iff] at hget; cases hget
          | some last =>
            rw [hget] at hlast
            exact hlast

/-- The last match that a replacement is about is the one that is found from the index after the
others. -/
theorem execute_of_matchesOf (h : re.matchesOf text = ms ++ [m]) :
    re.execute text (indexAfter 0 ms) = some m := by
  rw [matchesOf] at h
  split_ifs at h
  · exact execute_indexAfter h
  · cases hfirst : re.execute text 0 with
    | none =>
      rw [hfirst] at h
      exact absurd h.symm (List.append_ne_nil_of_right_ne_nil ms (List.cons_ne_nil m []))
    | some m₀ =>
      rw [hfirst] at h
      cases ms with
      | nil =>
        obtain ⟨rfl, _⟩ := List.cons_eq_cons.mp h
        exact hfirst
      | cons m₁ ms =>
        have hnil := (List.cons_eq_cons.mp h).2
        exact absurd hnil.symm (List.append_ne_nil_of_right_ne_nil ms (List.cons_ne_nil m []))

/-- A match that is found is what the expression matches at its start. -/
theorem matchAt_of_mem {fuel i : ℕ} (h : m ∈ re.matchesFrom text fuel i) :
    re.matchAt text m.start = some m := by
  induction fuel generalizing i with
  | zero => cases h
  | succ fuel ih =>
    rw [matchesFrom] at h
    cases hfirst : re.execute text i with
    | none =>
      rw [hfirst] at h
      cases h
    | some m₀ =>
      rw [hfirst] at h
      rcases List.mem_cons.mp h with rfl | hrest
      · exact (execute_eq_some hfirst).2.1
      · exact ih hrest

/-- Two matches that a replacement is about are of a global expression. -/
theorem matchesOf_eq_of_two (h : re.matchesOf text = ms ++ [m, m']) :
    re.matchesOf text = re.matchesFrom text (text.length + 1) 0 := by
  rw [matchesOf]
  split_ifs with hglobal
  · rfl
  · rw [matchesOf, if_neg hglobal] at h
    have hlength := congrArg List.length h
    have hle := Option.length_toList_le (o := re.execute text 0)
    rw [List.length_append, List.length_cons, List.length_singleton] at hlength
    omega

/-! ## The statics -/

/-- What can be seen of a match that was kept. -/
theorem contexts_updateFromMatchPairs : contexts (res.updateFromMatchPairs text m) =
    some ((text.drop m.start).take (m.limit - m.start), text.take m.start, text.drop m.limit) := rfl

/-- What can be seen of a match that is found from an index. -/
theorem contexts_updateLazily {i : ℕ} (h : re.execute text i = some m) :
    contexts (res.updateLazily text re i) = contexts (res.updateFromMatchPairs text m) := by
  rw [contexts, RegExpStatics.executeLazy]
  simp only [RegExpStatics.updateLazily, h, Option.bind_eq_bind, Option.bind_some]
  rfl

/-- If the match before the last one is empty, what is found from behind it is that match, and what is
before it is less than what is before the last one. -/
theorem contexts_ne_of_isEmpty (h : re.matchesOf text = ms ++ [m, m']) (hempty : m.isEmpty = true) :
    contexts (res.updateLazily text re m.limit) ≠ contexts (res.updateFromMatchPairs text m') := by
  have hlast : re.execute text (indexAfter 0 (ms ++ [m])) = some m' := by
    apply execute_of_matchesOf
    rw [h, List.append_assoc]
    rfl
  rw [indexAfter, List.getLast?_concat] at hlast
  dsimp only at hlast
  rw [if_pos hempty] at hlast
  obtain ⟨hlt, hlimit, htext⟩ := execute_bounds hlast
  have hat : re.matchAt text m.start = some m := by
    have hmem : m ∈ re.matchesOf text := by
      rw [h]
      exact List.mem_append_right ms List.mem_cons_self
    rw [matchesOf_eq_of_two h] at hmem
    exact matchAt_of_mem hmem
  have hstart := RegExpShared.isEmpty_iff.mp hempty
  have hfound : re.execute text m.limit = some m := by
    rw [execute_of_le (by omega), hstart, hat]
    rfl
  rw [contexts_updateLazily hfound, contexts_updateFromMatchPairs, contexts_updateFromMatchPairs]
  intro heq
  have hleft := congrArg (fun c => c.2.1.length) (Option.some_inj.mp heq)
  simp only [List.length_take] at hleft
  omega

/-- The statics of both paths show the same, unless the last match but one is empty. -/
theorem contexts_eq_iff (re : RegExpShared) (text : List UInt16) (res : RegExpStatics) :
    contexts (lazyStaticsAfter re text (re.matchesOf text) res) =
      contexts (staticsAfter text (re.matchesOf text) res) ↔
      ¬LastButOneEmpty (re.matchesOf text) := by
  rcases List.eq_nil_or_concat' (re.matchesOf text) with hnil | ⟨ms, m', hms⟩
  · rw [hnil]
    apply iff_of_true rfl
    rintro ⟨ms', m, m', heq, _⟩
    exact absurd heq.symm (List.append_ne_nil_of_right_ne_nil ms' (List.cons_ne_nil m [m']))
  have hlazy : lazyStaticsAfter re text (re.matchesOf text) res =
      res.updateLazily text re (limitAfter 0 ms) := by
    rw [lazyStaticsAfter, hms, if_neg (List.append_ne_nil_of_right_ne_nil ms (List.cons_ne_nil m' [])),
      List.dropLast_concat]
  have hstatics : staticsAfter text (re.matchesOf text) res = res.updateFromMatchPairs text m' := by
    rw [staticsAfter, hms, List.getLast?_concat]
  have hlast := execute_of_matchesOf hms
  rw [hlazy, hstatics]
  rcases List.eq_nil_or_concat' ms with rfl | ⟨ms, m, rfl⟩
  · -- one match: it is looked for from the start again
    apply iff_of_true (contexts_updateLazily hlast)
    rintro ⟨ms', m, m'', heq, _⟩
    have hlength := congrArg List.length (hms.symm.trans heq)
    simp only [List.length_append, List.length_cons, List.length_nil] at hlength
    omega
  · rw [indexAfter, List.getLast?_concat] at hlast
    dsimp only at hlast
    rw [limitAfter, List.getLast?_concat, Option.map_some, Option.getD_some]
    rw [List.append_assoc] at hms
    by_cases hempty : m.isEmpty = true
    · apply iff_of_false (contexts_ne_of_isEmpty hms hempty)
      intro hnot
      exact hnot ⟨ms, m, m', hms, hempty⟩
    · rw [if_neg hempty] at hlast
      apply iff_of_true (contexts_updateLazily hlast)
      rintro ⟨ms', m₁, m₂, heq, hempty'⟩
      have hpair := (List.append_inj' (hms.symm.trans heq) rfl).2
      obtain ⟨rfl, _⟩ := List.cons_eq_cons.mp hpair
      exact hempty hempty'

/-- Removal agrees with the general path if and only if the last match but one is not empty. -/
theorem strReplaceRegexpRemove_agree_iff (str : JSString) (re : RegExpShared) (res : RegExpStatics)
    (hlength : str.chars.length ≤ maxLength) :
    Agree str re res (strReplaceRegexpRemove str re res)
      (strReplaceGeneral (fun _ => true) str re [] res) ↔
      ¬LastButOneEmpty (re.matchesOf str.chars) := by
  obtain ⟨result, result', hfast, hgeneral, hchars⟩ := paths_ok str re res hlength
  rw [hfast, hgeneral, ← contexts_eq_iff re str.chars res]
  apply Iff.intro
  · rintro ⟨_, _, _, _, hfast', hgeneral', _, hcontexts, _⟩
    obtain ⟨_, rfl⟩ := Prod.mk.inj (Except.ok.inj hfast')
    obtain ⟨_, rfl⟩ := Prod.mk.inj (Except.ok.inj hgeneral')
    exact hcontexts
  · intro hcontexts
    refine ⟨result, _, result', _, rfl, rfl, hchars, hcontexts, ?_⟩
    intro hnil
    rw [hnil]
    exact ⟨rfl, rfl⟩

/-- An expression that matches nothing everywhere. -/
def matchesNothing : RegExpShared where
  parenCount := 0
  global := true
  matchAt text i := if i ≤ text.length then some ⟨i, i, []⟩ else none
  start_eq h := by
    obtain ⟨_, hm⟩ := Option.ite_none_right_eq_some.mp h
    rw [← Option.some_inj.mp hm]
  le_limit h := by
    obtain ⟨_, hm⟩ := Option.ite_none_right_eq_some.mp h
    rw [← Option.some_inj.mp hm]
  limit_le h := by
    obtain ⟨hle, hm⟩ := Option.ite_none_right_eq_some.mp h
    rw [← Option.some_inj.mp hm]
    exact hle
  length_parens h := by
    obtain ⟨_, hm⟩ := Option.ite_none_right_eq_some.mp h
    rw [← Option.some_inj.mp hm]
    rfl
  parens_le h := by
    obtain ⟨_, hm⟩ := Option.ite_none_right_eq_some.mp h
    rw [← Option.some_inj.mp hm]
    nofun

/-- Statics before any match. -/
def noStatics : RegExpStatics := ⟨none, [], [], none⟩

/-- The two paths on a text of one unit, with an expression that is not global. -/
theorem strReplaceRegexpRemove_agree_iff_local :
    Agree (.linear [0x61]) { matchesNothing with global := false } noStatics
      (strReplaceRegexpRemove (.linear [0x61]) { matchesNothing with global := false } noStatics)
      (strReplaceGeneral (fun _ => true) (.linear [0x61]) { matchesNothing with global := false } []
        noStatics) ↔
      ¬LastButOneEmpty (RegExpShared.matchesOf { matchesNothing with global := false } [0x61]) :=
  strReplaceRegexpRemove_agree_iff (.linear [0x61]) { matchesNothing with global := false } noStatics
    (by decide)

/-- On a text of one unit, a global expression that matches nothing everywhere matches at the end last.
After the removal, what is before the last match is nothing. -/
theorem strReplaceRegexpRemove_disagrees :
    ¬Agree (.linear [0x61]) matchesNothing noStatics
      (strReplaceRegexpRemove (.linear [0x61]) matchesNothing noStatics)
      (strReplaceGeneral (fun _ => true) (.linear [0x61]) matchesNothing [] noStatics) := by
  rintro ⟨_, _, _, _, hfast, hgeneral, _, hcontexts, _⟩
  have hfast' := (Prod.mk.inj (Except.ok.inj hfast)).2
  have hgeneral' := (Prod.mk.inj (Except.ok.inj hgeneral)).2
  rw [← hfast', ← hgeneral'] at hcontexts
  exact absurd hcontexts (by decide)

end SpiderMonkey.Vm.RegExpReplace
