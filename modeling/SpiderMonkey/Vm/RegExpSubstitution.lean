import SpiderMonkey.Vm.RegExpReplace

/-!
# What a replacement stands for

A replacement is read from left to right: a dollar with the units that belong to it stands for a part
of the text, and every other unit for itself. The scan for the length and the one that appends both
follow this reading.
-/

namespace SpiderMonkey.Vm.RegExpReplace

open StringReplace (dollar ampersand apostrophe backquote)

/-- The text of a group, which is numbered from one on. A group that took no part has none. -/
def groupText (text : List UInt16) (m : Match) (n : ℕ) : List UInt16 :=
  match m.parens.getD (n - 1) none with
  | none => []
  | some (start, limit) => (text.drop start).take (limit - start)

/-- The text of a group, if there is a group with the number. -/
def capture (text : List UInt16) (m : Match) (n : ℕ) : Option (List UInt16) :=
  if 1 ≤ n ∧ n ≤ m.parens.length then some (groupText text m n) else none

/-- A group by two digits, if there is that group, and else by the first of them. -/
def numbered (text : List UInt16) (m : Match) (c : UInt16) :
    List UInt16 → Option (List UInt16 × List UInt16)
  | [] => (capture text m (unDec c)).map fun sub => (sub, [])
  | d :: rest =>
    match (if isDec d then capture text m (10 * unDec c + unDec d) else none) with
    | some sub => some (sub, rest)
    | none => (capture text m (unDec c)).map fun sub => (sub, d :: rest)

/-- What a dollar with some units behind it stands for, and those that do not belong to it. -/
def symbol (text : List UInt16) (m : Match) : List UInt16 → Option (List UInt16 × List UInt16)
  | [] => none
  | c :: rest =>
    if isDec c then numbered text m c rest
    else if c = dollar then some ([dollar], rest)
    else if c = ampersand then some ((text.drop m.start).take (m.limit - m.start), rest)
    else if c = plus then some (groupText text m m.parens.length, rest)
    else if c = backquote then some (text.take m.start, rest)
    else if c = apostrophe then some (text.drop m.limit, rest)
    else none

/-- What a replacement begins with, and what comes after that. -/
def item (text : List UInt16) (m : Match) (c : UInt16) (rest : List UInt16) :
    List UInt16 × List UInt16 :=
  if c = dollar then (symbol text m rest).getD ([dollar], rest) else ([c], rest)

/-- What some items of a replacement stand for, and what is left of it. -/
def substituteUpTo (text : List UInt16) (m : Match) : ℕ → List UInt16 → List UInt16 × List UInt16
  | 0, units => ([], units)
  | _ + 1, [] => ([], [])
  | k + 1, c :: rest =>
    let first := item text m c rest
    let others := substituteUpTo text m k first.2
    (first.1 ++ others.1, others.2)

/-- What a replacement stands for. -/
def substitute (text : List UInt16) (m : Match) (units : List UInt16) : List UInt16 :=
  (substituteUpTo text m units.length units).1

/-- There are too many units at some point while a replacement is read, with some before it. -/
def Overflows (text : List UInt16) (m : Match) (n : ℕ) (units : List UInt16) : Prop :=
  ∃ k, 2 ^ 32 ≤ n + ((substituteUpTo text m k units).1.length +
    (substituteUpTo text m k units).2.length)

variable {text repstr : List UInt16} {m : Match} {res : RegExpStatics}

/-! ## The reading -/

/-- A number takes no more units than there are. -/
theorem length_numbered_le {c : UInt16} {rest : List UInt16} {p : List UInt16 × List UInt16}
    (h : numbered text m c rest = some p) : p.2.length ≤ rest.length := by
  cases rest with
  | nil =>
    obtain ⟨sub, _, hp⟩ := Option.map_eq_some_iff.mp h
    rw [← hp]
  | cons d rest =>
    rw [numbered] at h
    split at h
    · rw [← Option.some_inj.mp h]
      exact Nat.le_succ rest.length
    · obtain ⟨sub, _, hp⟩ := Option.map_eq_some_iff.mp h
      rw [← hp]

/-- A symbol takes no more units than there are. -/
theorem length_symbol_le {rest : List UInt16} {p : List UInt16 × List UInt16}
    (h : symbol text m rest = some p) : p.2.length ≤ rest.length := by
  cases rest with
  | nil => cases h
  | cons c rest =>
    rw [symbol] at h
    have hother {sub : List UInt16} (hp : some (sub, rest) = some p) :
        p.2.length ≤ (c :: rest).length := by
      rw [← Option.some_inj.mp hp]
      exact Nat.le_succ rest.length
    split_ifs at h
    · exact Nat.le_succ_of_le (length_numbered_le h)
    all_goals exact hother h

/-- An item takes no more units than there are. -/
theorem length_item_le (text : List UInt16) (m : Match) (c : UInt16) (rest : List UInt16) :
    (item text m c rest).2.length ≤ rest.length := by
  rw [item]
  split_ifs
  · cases hs : symbol text m rest with
    | none => exact Nat.le_refl _
    | some p => exact length_symbol_le hs
  · exact Nat.le_refl _

/-- Nothing is left after as many items as there are units, and more change nothing. -/
theorem substituteUpTo_of_le {k n : ℕ} {units : List UInt16} (hk : units.length ≤ k)
    (hn : units.length ≤ n) :
    substituteUpTo text m k units = ((substituteUpTo text m n units).1, []) := by
  induction k generalizing n units with
  | zero =>
    obtain rfl := List.length_eq_zero_iff.mp (Nat.le_zero.mp hk)
    cases n <;> rfl
  | succ k ih =>
    cases units with
    | nil => cases n <;> rfl
    | cons c rest =>
      rw [List.length_cons] at hk hn
      obtain ⟨n, rfl⟩ : ∃ n', n = n' + 1 := ⟨n - 1, by omega⟩
      have hle := length_item_le text m c rest
      have heq := ih (Nat.le_trans hle (Nat.le_of_succ_le_succ hk))
        (Nat.le_trans hle (Nat.le_of_succ_le_succ hn))
      rw [substituteUpTo, substituteUpTo, heq]

/-- A replacement stands for what its first item does, and then the others. -/
theorem substitute_cons (c : UInt16) (rest : List UInt16) :
    substitute text m (c :: rest) =
      (item text m c rest).1 ++ substitute text m (item text m c rest).2 := by
  rw [substitute, List.length_cons, substituteUpTo,
    substituteUpTo_of_le (length_item_le text m c rest) (Nat.le_refl _)]
  rfl

/-- Too many units after an item are too many from it on. -/
theorem Overflows.cons {n : ℕ} {c : UInt16} {rest : List UInt16}
    (h : Overflows text m (n + (item text m c rest).1.length) (item text m c rest).2) :
    Overflows text m n (c :: rest) := by
  obtain ⟨k, hk⟩ := h
  refine ⟨k + 1, ?_⟩
  simp only [substituteUpTo, List.length_append]
  omega

/-- A unit that is no dollar stands for itself. -/
theorem item_of_ne {c : UInt16} {rest : List UInt16} (h : c ≠ dollar) :
    item text m c rest = ([c], rest) := if_neg h

/-- Units without dollars stand for themselves. -/
theorem substitute_append {plain : List UInt16} (text : List UInt16) (m : Match)
    (rest : List UInt16) (h : ∀ c ∈ plain, c ≠ dollar) :
    substitute text m (plain ++ rest) = plain ++ substitute text m rest := by
  induction plain with
  | nil => rfl
  | cons c plain ih =>
    have hrest := ih fun d hd => h d (List.mem_cons_of_mem c hd)
    rw [List.cons_append, substitute_cons, item_of_ne (h c List.mem_cons_self), hrest]
    rfl

/-- Too many units after some without dollars. -/
theorem Overflows.append {n : ℕ} {plain rest : List UInt16} (h : ∀ c ∈ plain, c ≠ dollar)
    (hover : Overflows text m (n + plain.length) rest) : Overflows text m n (plain ++ rest) := by
  induction plain generalizing n with
  | nil => exact hover
  | cons c plain ih =>
    apply Overflows.cons
    rw [item_of_ne (show c ≠ dollar from h c List.mem_cons_self)]
    apply ih fun d hd => h d (List.mem_cons_of_mem c hd)
    rw [List.length_cons] at hover
    rw [show n + [c].length + plain.length = n + (plain.length + 1) by
      rw [List.length_singleton]
      omega]
    exact hover

/-! ## One dollar -/

/-- The statics of a match in a text. -/
structure RegExpStatics.IsOf (res : RegExpStatics) (text : List UInt16) (m : Match) : Prop where
  pairs_eq : res.pairs = some m
  input_eq : res.matchesInput = text

/-- The statics after a match. -/
theorem RegExpStatics.isOf_updateFromMatchPairs (res : RegExpStatics) (text : List UInt16)
    (m : Match) : (res.updateFromMatchPairs text m).IsOf text m := ⟨rfl, rfl⟩

namespace RegExpStatics.IsOf

/-- The number of groups. -/
theorem parenCount_eq (h : res.IsOf text m) : res.parenCount = m.parens.length := by
  rw [RegExpStatics.parenCount, h.pairs_eq]
  rfl

/-- The text of a group. -/
theorem getParen_eq (h : res.IsOf text m) (n : ℕ) : res.getParen n = groupText text m n := by
  rw [RegExpStatics.getParen, h.pairs_eq, groupText]
  cases hparen : m.parens.getD (n - 1) none with
  | none => simp only [hparen]
  | some ab => simp only [hparen, RegExpStatics.substring, h.input_eq]

/-- The text of the last group. -/
theorem getLastParen_eq (h : res.IsOf text m) :
    res.getLastParen = groupText text m m.parens.length := by
  rw [RegExpStatics.getLastParen, h.parenCount_eq, h.getParen_eq]
  split_ifs with hzero
  · rw [List.length_eq_zero_iff] at hzero
    rw [groupText, hzero]
    rfl
  · rfl

/-- The text of the match. -/
theorem getLastMatch_eq (h : res.IsOf text m) :
    res.getLastMatch = (text.drop m.start).take (m.limit - m.start) := by
  rw [RegExpStatics.getLastMatch, h.pairs_eq, ← h.input_eq]
  rfl

/-- The text before the match. -/
theorem getLeftContext_eq (h : res.IsOf text m) : res.getLeftContext = text.take m.start := by
  rw [RegExpStatics.getLeftContext, h.pairs_eq, ← h.input_eq]

/-- The text behind the match. -/
theorem getRightContext_eq (h : res.IsOf text m) : res.getRightContext = text.drop m.limit := by
  rw [RegExpStatics.getRightContext, h.pairs_eq, ← h.input_eq]

end RegExpStatics.IsOf

/-- What is left of the units from an index on, when there is one. -/
theorem drop_eq_getD_cons {units : List UInt16} {i : ℕ} (hi : i < units.length) :
    units.drop i = units.getD i 0 :: units.drop (i + 1) := by
  rw [List.drop_eq_getElem_cons hi, List.getD_eq_getElem?_getD, List.getElem?_eq_getElem hi]
  rfl

/-- A capture by its number. -/
theorem capture_of_le {n : ℕ} (hpos : n ≠ 0) (hn : n ≤ m.parens.length) :
    capture text m n = some (groupText text m n) := if_pos ⟨Nat.pos_of_ne_zero hpos, hn⟩

/-- There is no capture with a number that is zero or too large. -/
theorem capture_eq_none {n : ℕ} (h : n = 0 ∨ m.parens.length < n) : capture text m n = none := by
  apply if_neg
  omega

/-- How the interpretation of a dollar is to be read: what is behind the dollar, with the index of
the dollar. -/
def Interprets (text : List UInt16) (m : Match) (repstr : List UInt16) (dp : ℕ) :
    Option (List UInt16 × ℕ) → Prop
  | none => symbol text m (repstr.drop (dp + 1)) = none
  | some (sub, skip) => 2 ≤ skip ∧ dp + skip ≤ repstr.length ∧
    symbol text m (repstr.drop (dp + 1)) = some (sub, repstr.drop (dp + skip))

/-- The interpretation of a dollar with a digit behind it. -/
theorem interprets_number {dp : ℕ} {c : UInt16} (hdp : dp + 1 < repstr.length)
    (hdrop : repstr.drop (dp + 1) = c :: repstr.drop (dp + 2)) (hc : isDec c = true) :
    Interprets text m repstr dp
      (if m.parens.length < unDec c then none
      else
        let cp := dp + 2
        let d := repstr.getD cp 0
        let tmp := 10 * unDec c + unDec d
        let (num, cp) :=
          if cp < repstr.length ∧ isDec d = true ∧ tmp ≤ m.parens.length then (tmp, cp + 1)
          else (unDec c, cp)
        if num = 0 then none else some (groupText text m num, cp - dp)) := by
  have hsymbol : symbol text m (repstr.drop (dp + 1)) =
      numbered text m c (repstr.drop (dp + 2)) := by
    rw [hdrop, symbol, if_pos hc]
  by_cases hcount : m.parens.length < unDec c
  · rw [if_pos hcount, Interprets, hsymbol]
    have hone : capture text m (unDec c) = none := capture_eq_none (Or.inr hcount)
    cases repstr.drop (dp + 2) with
    | nil => rw [numbered, hone, Option.map_none]
    | cons d rest =>
      have htwo : capture text m (10 * unDec c + unDec d) = none :=
        capture_eq_none (Or.inr (by omega))
      rw [numbered, htwo, ite_self]
      simp only [hone, Option.map_none]
  · rw [if_neg hcount]
    dsimp only
    by_cases htwo : dp + 2 < repstr.length ∧ isDec (repstr.getD (dp + 2) 0) = true ∧
        10 * unDec c + unDec (repstr.getD (dp + 2) 0) ≤ m.parens.length
    · simp only [if_pos htwo]
      rw [drop_eq_getD_cons htwo.1, numbered, if_pos htwo.2.1] at hsymbol
      by_cases hzero : 10 * unDec c + unDec (repstr.getD (dp + 2) 0) = 0
      · rw [if_pos hzero, Interprets, hsymbol, capture_eq_none (Or.inl hzero)]
        simp only [capture_eq_none (Or.inl (show unDec c = 0 by omega)), Option.map_none]
      · rw [if_neg hzero]
        refine ⟨by omega, by omega, ?_⟩
        rw [hsymbol, capture_of_le hzero htwo.2.2, show dp + (dp + 2 + 1 - dp) = dp + 2 + 1 by omega]
    · simp only [if_neg htwo]
      -- the two digits, if there are two, are not the number of a group
      have hone : numbered text m c (repstr.drop (dp + 2)) =
          (capture text m (unDec c)).map fun sub => (sub, repstr.drop (dp + 2)) := by
        by_cases hlt : dp + 2 < repstr.length
        · rw [drop_eq_getD_cons hlt, numbered]
          split_ifs with hd
          · have hlarge : m.parens.length < 10 * unDec c + unDec (repstr.getD (dp + 2) 0) := by
              apply Nat.lt_of_not_le
              intro hle
              exact htwo ⟨hlt, hd, hle⟩
            simp only [capture_eq_none (Or.inr hlarge)]
          · rfl
        · rw [List.drop_eq_nil_of_le (Nat.le_of_not_lt hlt), numbered]
      rw [hone] at hsymbol
      by_cases hzero : unDec c = 0
      · rw [if_pos hzero, Interprets, hsymbol, capture_eq_none (Or.inl hzero), Option.map_none]
      · rw [if_neg hzero]
        refine ⟨by omega, by omega, ?_⟩
        rw [hsymbol, capture_of_le hzero (Nat.le_of_not_lt hcount), Option.map_some,
          show dp + (dp + 2 - dp) = dp + 2 by omega]

/-- A dollar is interpreted as it is to be read. -/
theorem interpretDollar_interprets (h : res.IsOf text m) (repstr : List UInt16) (dp : ℕ) :
    Interprets text m repstr dp (interpretDollar res repstr dp) := by
  rw [interpretDollar]
  by_cases hend : repstr.length ≤ dp + 1
  · rw [if_pos hend, Interprets, List.drop_eq_nil_of_le hend, symbol]
  · have hdp := Nat.lt_of_not_le hend
    have hdrop := drop_eq_getD_cons hdp
    rw [if_neg hend]
    generalize repstr.getD (dp + 1) 0 = c at hdrop ⊢
    dsimp only
    by_cases hc : isDec c = true
    · rw [if_pos hc]
      simp only [h.parenCount_eq, h.getParen_eq]
      exact interprets_number hdp hdrop hc
    · have hsymbol := congrArg (symbol text m) hdrop
      rw [symbol, if_neg hc] at hsymbol
      rw [if_neg hc, h.getLastMatch_eq, h.getLastParen_eq, h.getLeftContext_eq,
        h.getRightContext_eq]
      split_ifs at hsymbol ⊢
      · exact ⟨Nat.le_refl 2, hdp, hsymbol⟩
      · exact ⟨Nat.le_refl 2, hdp, hsymbol⟩
      · exact ⟨Nat.le_refl 2, hdp, hsymbol⟩
      · exact ⟨Nat.le_refl 2, hdp, hsymbol⟩
      · exact ⟨Nat.le_refl 2, hdp, hsymbol⟩
      · exact hsymbol

end SpiderMonkey.Vm.RegExpReplace
