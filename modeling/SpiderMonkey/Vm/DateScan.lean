import SpiderMonkey.Vm.DateFormats

/-!
# Scanning the formats

Each part of the scanner either finds the text of a part of a format, and then it is known which fields are set, or
fails with a syntax error. No character past the end is read.
-/

namespace SpiderMonkey.Vm.Date

variable {s rest : Chars} {f : Fields} {i n : ℕ} {ch : Char}

/-! ## Characters -/

/-- The test of `digits` and `fractional`. -/
def IsDigit (c : UInt16) : Prop := unit '0' ≤ c ∧ c ≤ unit '9'

instance (c : UInt16) : Decidable (IsDigit c) := inferInstanceAs (Decidable (_ ∧ _))

theorem isDigit_digitUnit (d : Fin 10) : IsDigit (digitUnit d) := by
  revert d
  decide

/-- A digit gives its number. -/
theorem toNat_digitUnit_sub (d : Fin 10) : (digitUnit d - unit '0').toNat = d.val := by
  revert d
  decide

theorem exists_of_isDigit {c : UInt16} (h : IsDigit c) : ∃ d, c = digitUnit d := by
  obtain ⟨hlow, hhigh⟩ := h
  have hlow' : 48 ≤ c.toNat := hlow
  have hhigh' : c.toNat ≤ 57 := hhigh
  refine ⟨⟨c.toNat - 48, by omega⟩, ?_⟩
  rw [digitUnit, Nat.add_sub_cancel' hlow', UInt16.ofNat_toNat]

@[simp] theorem length_digitsText (ds : List (Fin 10)) : (digitsText ds).length = ds.length := List.length_map _

@[simp] theorem Digits.length_text (ds : Digits n) : ds.text.length = n := by
  rw [Digits.text, length_digitsText, ds.length_eq]

/-- Digits at the start, up to a number of them. -/
theorem exists_digitsText (k : ℕ) (cs : Chars) : ∃ ds rest, cs = digitsText ds ++ rest ∧ ds.length ≤ k ∧
    (ds.length = k ∨ ∀ c ∈ rest.head?, ¬ IsDigit c) := by
  induction k generalizing cs with
  | zero => exact ⟨[], cs, rfl, le_rfl, .inl rfl⟩
  | succ k ih =>
    match cs with
    | [] => exact ⟨[], [], rfl, Nat.zero_le _, .inr fun c hc => absurd hc (Option.not_mem_none c)⟩
    | c :: cs =>
      by_cases hc : IsDigit c
      · obtain ⟨d, rfl⟩ := exists_of_isDigit hc
        obtain ⟨ds, rest, rfl, hle, hstop⟩ := ih cs
        refine ⟨d :: ds, rest, rfl, Nat.succ_le_succ hle, hstop.imp_left (congrArg (· + 1))⟩
      · refine ⟨[], c :: cs, rfl, Nat.zero_le _, .inr fun c' hc' => ?_⟩
        cases hc'
        exact hc

/-- The character at an index that has one. -/
theorem charAt_of_drop {c : UInt16} (h : s.drop i = c :: rest) :
    i < s.length ∧ charAt s i = .ok c ∧ s.drop (i + 1) = rest := by
  have hlt : i < s.length := by
    by_contra hge
    rw [List.drop_eq_nil_of_le (not_lt.mp hge)] at h
    cases h
  have hget : s[i]? = some c := by rw [← List.head?_drop, h, List.head?_cons]
  refine ⟨hlt, by rw [charAt, hget], ?_⟩
  rw [← List.drop_drop, h, List.drop_one, List.tail_cons]

/-- What is behind a text. -/
theorem drop_add_length {l : Chars} (h : s.drop i = l ++ rest) : s.drop (i + l.length) = rest := by
  rw [← List.drop_drop, h, List.drop_left]

theorem peek_eq_true (h : s.drop i = unit ch :: rest) : peek s i ch = .ok true := by
  obtain ⟨hlt, hchar, -⟩ := charAt_of_drop h
  rw [peek, if_pos hlt, hchar]
  exact congrArg Except.ok (beq_self_eq_true (unit ch))

theorem peek_eq_false (h : s.drop i = rest) (hne : rest.head? ≠ some (unit ch)) : peek s i ch = .ok false := by
  rw [peek]
  split
  next hlt =>
    match rest with
    | [] => exact absurd (List.drop_eq_nil_iff.mp h) (not_le.mpr hlt)
    | c :: rest =>
      obtain ⟨-, hchar, -⟩ := charAt_of_drop h
      rw [hchar]
      exact congrArg Except.ok (beq_eq_false_iff_ne.mpr fun heq => hne (congrArg some heq))
  next => rfl

/-- The next character is the one that is asked for, or not. -/
theorem peek_cases (s : Chars) (i : ℕ) (ch : Char) :
    (∃ rest, s.drop i = unit ch :: rest) ∧ peek s i ch = .ok true ∨
      (s.drop i).head? ≠ some (unit ch) ∧ peek s i ch = .ok false := by
  by_cases hhead : (s.drop i).head? = some (unit ch)
  · obtain ⟨rest, hrest⟩ := List.head?_eq_some_iff.mp hhead
    exact .inl ⟨⟨rest, hrest⟩, peek_eq_true hrest⟩
  · exact .inr ⟨hhead, peek_eq_false rfl hhead⟩

/-! ## Digits -/

/-- The loop stops where no digit is. -/
theorem digitsLoop_stop {limit v : ℕ} (hlimit : limit ≤ s.length)
    (hstop : limit ≤ i ∨ ∀ c ∈ (s.drop i).head?, ¬ IsDigit c) :
    digitsLoop s limit v i = .ok (v, i) := by
  rw [digitsLoop]
  split
  next hlt =>
    have hdrop := List.drop_eq_getElem_cons (hlt.trans_le hlimit)
    have hdigit := hstop.resolve_left (not_le.mpr hlt)
    rw [hdrop, List.head?_cons] at hdigit
    obtain ⟨-, hchar, -⟩ := charAt_of_drop hdrop
    have hnot : ¬ (unit '0' ≤ s[i] ∧ s[i] ≤ unit '9') := hdigit _ rfl
    rw [hchar]
    exact if_neg hnot
  next => rfl

/-- The loop reads digits up to where it stops. -/
theorem digitsLoop_text {limit v : ℕ} (ds : List (Fin 10)) (hlimit : limit ≤ s.length)
    (hdrop : s.drop i = digitsText ds ++ rest) (hle : i + ds.length ≤ limit)
    (hstop : i + ds.length = limit ∨ ∀ c ∈ rest.head?, ¬ IsDigit c) :
    digitsLoop s limit v i = .ok (ds.foldl (fun v d => 10 * v + d.val) v, i + ds.length) := by
  induction ds generalizing i v with
  | nil => exact digitsLoop_stop hlimit (hstop.imp (fun h => h.ge) fun h => hdrop ▸ h)
  | cons d ds ih =>
    rw [List.length_cons] at hle hstop ⊢
    obtain ⟨-, hchar, hrest⟩ := charAt_of_drop hdrop
    have hvalue : v * 10 + d.val = 10 * v + d.val := by omega
    have hdigit : unit '0' ≤ digitUnit d ∧ digitUnit d ≤ unit '9' := isDigit_digitUnit d
    rw [digitsLoop, if_pos (by omega), hchar]
    refine (if_pos hdigit).trans ?_
    rw [toNat_digitUnit_sub, hvalue, ih hrest (by omega) (hstop.imp_left (by omega)), List.foldl_cons,
      Nat.add_right_comm, Nat.add_assoc]

/-- A field of digits. -/
theorem needNdigits_text (ds : Digits n) (hn : 0 < n) (h : s.drop i = ds.text ++ rest) :
    needNdigits n s i = .ok (ds.value, i + n) := by
  have hlength : i + n ≤ s.length := by
    have hdrop := congrArg List.length h
    rw [List.length_drop, List.length_append, ds.length_text] at hdrop
    omega
  have hloop := digitsLoop_text (v := 0) ds.digits (min_le_left s.length (i + n)) h
    (by rw [ds.length_eq, min_eq_right hlength]) (.inl (by rw [ds.length_eq, min_eq_right hlength]))
  rw [ds.length_eq] at hloop
  rw [needNdigits, ndigits, digits, hloop]
  simp [hn.ne', bind, Except.bind, pure, Except.pure, Digits.value, digitsValue]

/-- A field of digits, or none. -/
theorem needNdigits_spec (n : ℕ) (s : Chars) (i : ℕ) :
    (∃ (ds : Digits n) (rest : Chars), s.drop i = ds.text ++ rest) ∨
      needNdigits n s i = .error .syntaxError := by
  obtain ⟨ds, rest, hdrop, hle, hstop⟩ := exists_digitsText n (s.drop i)
  rcases hle.eq_or_lt with heq | hlt
  · exact .inl ⟨⟨ds, heq⟩, rest, hdrop⟩
  · have hnot := hstop.resolve_left hlt.ne
    refine .inr ?_
    have hloop : digitsLoop s (min s.length (i + n)) 0 i =
        .ok (ds.foldl (fun v d => 10 * v + d.val) 0, i + ds.length) := by
      cases ds with
      | nil => exact digitsLoop_stop (min_le_left _ _) (.inr (hdrop ▸ hnot))
      | cons d ds =>
        have hlength := congrArg List.length hdrop
        rw [List.length_drop, List.length_append, length_digitsText] at hlength
        refine digitsLoop_text _ (min_le_left _ _) hdrop (le_min ?_ ?_) (.inr hnot)
        · rw [List.length_cons] at hlength ⊢
          omega
        · omega
    have hshort : ds.length ≠ n := hlt.ne
    rw [needNdigits, ndigits, digits, hloop]
    by_cases hempty : ds.length = 0
    · simp [hempty, bind, Except.bind, pure, Except.pure, throw, throwThe, MonadExceptOf.throw]
    · simp [hempty, hshort, bind, Except.bind, pure, Except.pure, throw, throwThe, MonadExceptOf.throw]

/-- The loop of `fractional` reads digits up to where it stops. -/
theorem fractionalLoop_text {result factor : Binary64} (ds : List (Fin 10))
    (hdrop : s.drop i = digitsText ds ++ rest) (hstop : ∀ c ∈ rest.head?, ¬ IsDigit c) :
    fractionalLoop s s.length result factor i = .ok (accumulate result factor ds, i + ds.length) := by
  induction ds generalizing i result factor with
  | nil =>
    rw [fractionalLoop]
    split
    next hlt =>
      rw [List.drop_eq_getElem_cons hlt] at hdrop
      obtain ⟨-, hchar, -⟩ := charAt_of_drop (List.drop_eq_getElem_cons hlt)
      have hnot : ¬ (unit '0' ≤ s[i] ∧ s[i] ≤ unit '9') := hstop _ (congrArg List.head? hdrop.symm)
      rw [hchar]
      exact if_neg hnot
    next => rfl
  | cons d ds ih =>
    obtain ⟨hlt, hchar, hrest⟩ := charAt_of_drop hdrop
    have hdigit : unit '0' ≤ digitUnit d ∧ digitUnit d ≤ unit '9' := isDigit_digitUnit d
    rw [fractionalLoop, if_pos hlt, hchar]
    refine (if_pos hdigit).trans ?_
    rw [toNat_digitUnit_sub, ih hrest, accumulate, List.length_cons, Nat.add_right_comm, Nat.add_assoc]

/-- `fractional` reads digits, and succeeds if there are any. -/
theorem fractional_text (ds : List (Fin 10)) (hdrop : s.drop i = digitsText ds ++ rest)
    (hstop : ∀ c ∈ rest.head?, ¬ IsDigit c) :
    fractional s i s.length =
      .ok (decide (ds ≠ []), accumulate (.ofNat 0) oneTenth ds, i + ds.length) := by
  rw [fractional, fractionalLoop_text ds hdrop hstop]
  have hmoved : decide (i + ds.length ≠ i) = decide (ds ≠ []) := by
    rw [decide_eq_decide, ← List.length_pos_iff]
    omega
  exact congrArg (fun converted => Except.ok (converted, _)) hmoved

/-- A digit is none of the other characters. -/
theorem peek_digits {ds : Digits n} (hn : 0 < n) (h : s.drop i = ds.text ++ rest) (hch : ¬ IsDigit (unit ch)) :
    peek s i ch = .ok false := by
  refine peek_eq_false h fun hhead => ?_
  rw [Digits.text] at hhead
  have hlength := ds.length_eq
  generalize ds.digits = digits at hhead hlength
  cases digits with
  | nil => exact absurd hlength hn.ne
  | cons d digits => exact hch (Option.some.inj hhead ▸ isDigit_digitUnit d)

/-- A sign is one of two characters. -/
theorem peek_sign {negative : Bool} (h : s.drop i = signUnit negative :: rest) :
    peek s i '+' = .ok !negative ∧ peek s i '-' = .ok negative := by
  cases negative with
  | false => exact ⟨peek_eq_true h, peek_eq_false h (by rw [List.head?_cons]; decide)⟩
  | true => exact ⟨peek_eq_false h (by rw [List.head?_cons]; decide), peek_eq_true h⟩

theorem ok_bind {α β : Type} (a : α) (g : α → Except ScanFailure β) : (Except.ok a >>= g) = g a := rfl

theorem error_bind {α β : Type} (e : ScanFailure) (g : α → Except ScanFailure β) :
    (Except.error e >>= g) = Except.error e := rfl

/-! ## Years -/

/-- The fields that a year sets. -/
def YearFormat.apply (f : Fields) : YearFormat → Fields
  | basic year => { f with year := year.value }
  | expanded negative year => { f with dateMul := if negative then -1 else f.dateMul, year := year.value }

theorem scanYear_text (y : YearFormat) (h : s.drop i = y.text ++ rest) :
    scanYear s f i = .ok (y.apply f, i + y.text.length) := by
  cases y with
  | basic year =>
    simp only [scanYear, peek_digits (by decide) h (show ¬ IsDigit (unit '+') by decide),
      peek_digits (by decide) h (show ¬ IsDigit (unit '-') by decide),
      peek_digits (by decide) h (show ¬ IsDigit (unit 'T') by decide), ok_bind,
      needNdigits_text year (by decide) h]
    simp [YearFormat.apply, YearFormat.text, pure, Except.pure]
  | expanded negative year =>
    obtain ⟨hplus, hminus⟩ := peek_sign h
    have hdigits := needNdigits_text year (by decide) (drop_add_length (l := [signUnit negative]) h)
    simp only [List.length_singleton] at hdigits
    simp only [scanYear, hplus, hminus, ok_bind, hdigits]
    simp [YearFormat.apply, YearFormat.text, pure, Except.pure]

/-- The year is missing in front of a time. -/
theorem scanYear_missing (h : s.drop i = unit 'T' :: rest) : scanYear s f i = .ok (f, i) := by
  have hplus : peek s i '+' = .ok false := peek_eq_false h (by rw [List.head?_cons]; decide)
  have hminus : peek s i '-' = .ok false := peek_eq_false h (by rw [List.head?_cons]; decide)
  simp only [scanYear, hplus, hminus, peek_eq_true h, ok_bind]
  rfl

/-- A year, none in front of a time, or a syntax error. -/
theorem scanYear_spec (s : Chars) (f : Fields) (i : ℕ) :
    (∃ (y : YearFormat) (rest : Chars), s.drop i = y.text ++ rest) ∨ (∃ rest, s.drop i = unit 'T' :: rest) ∨
      scanYear s f i = .error .syntaxError := by
  have hexpanded (negative : Bool) (rest : Chars) (h : s.drop i = signUnit negative :: rest) :
      (∃ (y : YearFormat) (rest : Chars), s.drop i = y.text ++ rest) ∨
        scanYear s f i = .error .syntaxError := by
    have hdrop := drop_add_length (l := [signUnit negative]) h
    rcases needNdigits_spec 6 s (i + 1) with ⟨year, rest', hyear⟩ | herror
    · refine .inl ⟨.expanded negative year, rest', ?_⟩
      rw [h, ← hdrop, List.length_singleton, hyear]
      rfl
    · obtain ⟨hplus, hminus⟩ := peek_sign h
      refine .inr ?_
      simp only [scanYear, hplus, hminus, ok_bind, herror, error_bind]
      simp
  rcases peek_cases s i '+' with ⟨⟨rest, hrest⟩, hplus⟩ | ⟨-, hplus⟩
  · exact (hexpanded false rest hrest).imp_right .inr
  rcases peek_cases s i '-' with ⟨⟨rest, hrest⟩, hminus⟩ | ⟨-, hminus⟩
  · exact (hexpanded true rest hrest).imp_right .inr
  rcases peek_cases s i 'T' with ⟨htime, -⟩ | ⟨-, htime⟩
  · exact .inr (.inl htime)
  rcases needNdigits_spec 4 s i with ⟨year, rest, hyear⟩ | herror
  · exact .inl ⟨.basic year, rest, hyear⟩
  · refine .inr (.inr ?_)
    simp only [scanYear, hplus, hminus, htime, ok_bind, herror, error_bind]
    rfl

/-! ## Months -/

/-- The fields that a month and a day set. -/
def MonthFormat.apply (f : Fields) : MonthFormat → Fields
  | missing => f
  | monthOnly month => { f with month := month.value }
  | complete month day => { f with month := month.value, day := day.value }

/-- What cannot come next, since it would have been read. -/
def MonthFormat.Stop (rest : Chars) : MonthFormat → Prop
  | complete _ _ => True
  | _ => rest.head? ≠ some (unit '-')

theorem scanMonth_text (m : MonthFormat) (h : s.drop i = m.text ++ rest) (hstop : m.Stop rest) :
    scanMonth s f i = .ok (m.apply f, i + m.text.length) := by
  cases m with
  | missing =>
    simp only [scanMonth, peek_eq_false h hstop, ok_bind]
    rfl
  | monthOnly month =>
    have hmonth := drop_add_length (l := [unit '-']) h
    have hrest := drop_add_length hmonth
    simp only [List.length_singleton, month.length_text] at hmonth hrest
    simp only [scanMonth, peek_eq_true h, ok_bind, if_true, needNdigits_text month (by decide) hmonth,
      peek_eq_false hrest hstop]
    simp [MonthFormat.apply, MonthFormat.text, pure, Except.pure]
  | complete month day =>
    have h' : s.drop i = [unit '-'] ++ (month.text ++ unit '-' :: (day.text ++ rest)) := by
      rw [h, MonthFormat.text]
      simp
    have hmonth := drop_add_length h'
    have hdash := drop_add_length hmonth
    have hday := drop_add_length (l := [unit '-']) hdash
    simp only [List.length_singleton, month.length_text] at hmonth hdash hday
    simp only [scanMonth, peek_eq_true h, ok_bind, if_true, needNdigits_text month (by decide) hmonth,
      peek_eq_true hdash, needNdigits_text day (by decide) hday]
    simp [MonthFormat.apply, MonthFormat.text, pure, Except.pure]

/-- Perhaps a month and a day, or a syntax error. -/
theorem scanMonth_spec (s : Chars) (f : Fields) (i : ℕ) :
    (∃ (m : MonthFormat) (rest : Chars), s.drop i = m.text ++ rest ∧ m.Stop rest) ∨
      scanMonth s f i = .error .syntaxError := by
  rcases peek_cases s i '-' with ⟨⟨rest, hrest⟩, hdash⟩ | ⟨hhead, -⟩
  · have hdrop := drop_add_length (l := [unit '-']) hrest
    rw [List.length_singleton] at hdrop
    rcases needNdigits_spec 2 s (i + 1) with ⟨month, rest', hmonth⟩ | herror
    · have hafter := drop_add_length hmonth
      rw [month.length_text] at hafter
      rw [← hdrop, hmonth] at hrest
      rcases peek_cases s (i + 1 + 2) '-' with ⟨⟨rest'', hrest'⟩, hdash'⟩ | ⟨hhead, -⟩
      · have hdrop' := drop_add_length (l := [unit '-']) hrest'
        rw [List.length_singleton] at hdrop'
        rcases needNdigits_spec 2 s (i + 1 + 2 + 1) with ⟨day, last, hday⟩ | herror
        · refine .inl ⟨.complete month day, last, ?_, trivial⟩
          rw [hrest, ← hafter, hrest', ← hdrop', hday]
          simp [MonthFormat.text]
        · refine .inr ?_
          simp only [scanMonth, hdash, ok_bind, if_true, needNdigits_text month (by decide) hmonth, hdash', herror,
            error_bind]
      · refine .inl ⟨.monthOnly month, rest', hrest, ?_⟩
        rw [hafter] at hhead
        exact hhead
    · refine .inr ?_
      simp only [scanMonth, hdash, ok_bind, if_true, herror, error_bind]
  · exact .inl ⟨.missing, s.drop i, rfl, hhead⟩

/-! ## Seconds -/

/-- The fields that the seconds set. -/
def SecondsFormat.apply (f : Fields) : SecondsFormat → Fields
  | missing => f
  | whole sec => { f with sec := sec.value }
  | fraction sec frac _ => { f with sec := sec.value, frac := accumulate (.ofNat 0) oneTenth frac }

/-- What cannot come next. -/
def SecondsFormat.Stop (rest : Chars) : SecondsFormat → Prop
  | missing => rest.head? ≠ some (unit ':')
  | whole _ => rest.head? ≠ some (unit '.')
  | fraction _ _ _ => ∀ c ∈ rest.head?, ¬ IsDigit c

theorem scanSeconds_text (t : SecondsFormat) (h : s.drop i = t.text ++ rest) (hstop : t.Stop rest) :
    scanSeconds s f i = .ok (t.apply f, i + t.text.length) := by
  cases t with
  | missing =>
    simp only [scanSeconds, peek_eq_false h hstop, ok_bind]
    rfl
  | whole sec =>
    have hsec := drop_add_length (l := [unit ':']) h
    have hrest := drop_add_length hsec
    simp only [List.length_singleton, sec.length_text] at hsec hrest
    simp only [scanSeconds, peek_eq_true h, ok_bind, if_true, needNdigits_text sec (by decide) hsec,
      peek_eq_false hrest hstop]
    simp [SecondsFormat.apply, SecondsFormat.text, pure, Except.pure]
  | fraction sec frac hne =>
    have h' : s.drop i = [unit ':'] ++ (sec.text ++ unit '.' :: (digitsText frac ++ rest)) := by
      rw [h, SecondsFormat.text]
      simp
    have hsec := drop_add_length h'
    have hpoint := drop_add_length hsec
    have hfrac := drop_add_length (l := [unit '.']) hpoint
    simp only [List.length_singleton, sec.length_text] at hsec hpoint hfrac
    simp only [scanSeconds, peek_eq_true h, ok_bind, if_true, needNdigits_text sec (by decide) hsec,
      peek_eq_true hpoint, fractional_text frac hfrac hstop, decide_eq_true hne]
    simp [SecondsFormat.apply, SecondsFormat.text, pure, Except.pure]
    omega

/-- Perhaps seconds with a fraction, or a syntax error. -/
theorem scanSeconds_spec (s : Chars) (f : Fields) (i : ℕ) :
    (∃ (t : SecondsFormat) (rest : Chars), s.drop i = t.text ++ rest ∧ t.Stop rest) ∨
      scanSeconds s f i = .error .syntaxError := by
  rcases peek_cases s i ':' with ⟨⟨rest, hrest⟩, hcolon⟩ | ⟨hhead, -⟩
  · have hdrop := drop_add_length (l := [unit ':']) hrest
    rw [List.length_singleton] at hdrop
    rcases needNdigits_spec 2 s (i + 1) with ⟨sec, rest', hsec⟩ | herror
    · have hafter := drop_add_length hsec
      rw [sec.length_text] at hafter
      rw [← hdrop, hsec] at hrest
      rcases peek_cases s (i + 1 + 2) '.' with ⟨⟨rest'', hrest'⟩, hpoint⟩ | ⟨hhead, -⟩
      · have hdrop' := drop_add_length (l := [unit '.']) hrest'
        rw [List.length_singleton] at hdrop'
        obtain ⟨frac, last, hfrac, -, hstop⟩ := exists_digitsText rest''.length rest''
        have hstop' : ∀ c ∈ last.head?, ¬ IsDigit c := by
          rcases hstop with hall | hstop
          · rw [hfrac, List.length_append, length_digitsText] at hall
            rw [List.length_eq_zero_iff.mp (show last.length = 0 by omega)]
            exact fun c hc => absurd hc (Option.not_mem_none c)
          · exact hstop
        by_cases hne : frac = []
        · refine .inr ?_
          have hfails := fractional_text frac (hdrop'.trans hfrac) hstop'
          simp only [scanSeconds, hcolon, ok_bind, if_true, needNdigits_text sec (by decide) hsec, hpoint, hfails,
            decide_eq_false (not_not.mpr hne)]
          rfl
        · refine .inl ⟨.fraction sec frac hne, last, ?_, hstop'⟩
          rw [hrest, ← hafter, hrest', hfrac]
          simp [SecondsFormat.text]
      · refine .inl ⟨.whole sec, rest', hrest, ?_⟩
        rw [hafter] at hhead
        exact hhead
    · refine .inr ?_
      simp only [scanSeconds, hcolon, ok_bind, if_true, herror, error_bind]
  · exact .inl ⟨.missing, s.drop i, rfl, hhead⟩

/-! ## Zones -/

/-- The fields that a zone sets. -/
def ZoneFormat.apply (f : Fields) : ZoneFormat → Fields
  | utc => f
  | shift negative hour _ min =>
    { f with tzMul := if negative then -1 else f.tzMul, tzHour := hour.value, tzMin := min.value }
  | missing => { f with isLocalTime := true }

/-- What cannot come next. -/
def ZoneFormat.Stop (rest : Chars) : ZoneFormat → Prop
  | missing => rest.head? ≠ some (unit 'Z') ∧ rest.head? ≠ some (unit '+') ∧ rest.head? ≠ some (unit '-')
  | _ => True

theorem scanZone_text (z : ZoneFormat) (h : s.drop i = z.text ++ rest) (hstop : z.Stop rest) :
    scanZone s f i = .ok (z.apply f, i + z.text.length) := by
  cases z with
  | utc =>
    simp only [scanZone, peek_eq_true h, ok_bind]
    rfl
  | shift negative hour colon min =>
    have h' : s.drop i = [signUnit negative] ++
        (hour.text ++ ((if colon then [unit ':'] else []) ++ (min.text ++ rest))) := by
      rw [h, ZoneFormat.text]
      simp
    have hutc : peek s i 'Z' = .ok false := by
      refine peek_eq_false h' ?_
      rw [List.singleton_append, List.head?_cons]
      cases negative <;> decide
    obtain ⟨hplus, hminus⟩ := peek_sign h'
    have hhour := drop_add_length h'
    have hcolon := drop_add_length hhour
    simp only [List.length_singleton, hour.length_text] at hhour hcolon
    have hmin := drop_add_length hcolon
    have hskip : peek s (i + 1 + 2) ':' = .ok colon := by
      cases colon with
      | false => exact peek_digits (by decide) hmin (by decide)
      | true => exact peek_eq_true hcolon
    have hindex : (if colon then i + 1 + 2 + 1 else i + 1 + 2) =
        i + 1 + 2 + (if colon then [unit ':'] else []).length := by cases colon <;> rfl
    simp only [scanZone, hutc, hplus, hminus, ok_bind, needNdigits_text hour (by decide) hhour, hskip, hindex,
      needNdigits_text min (by decide) hmin]
    simp [ZoneFormat.apply, ZoneFormat.text, pure, Except.pure]
    omega
  | missing =>
    obtain ⟨hutc, hplus, hminus⟩ := hstop
    simp only [scanZone, peek_eq_false h hutc, peek_eq_false h hplus, peek_eq_false h hminus, ok_bind]
    rfl

/-- Perhaps a zone, or a syntax error. -/
theorem scanZone_spec (s : Chars) (f : Fields) (i : ℕ) :
    (∃ (z : ZoneFormat) (rest : Chars), s.drop i = z.text ++ rest ∧ z.Stop rest) ∨
      scanZone s f i = .error .syntaxError := by
  rcases peek_cases s i 'Z' with ⟨⟨rest, hrest⟩, -⟩ | ⟨hnoUtc, hutc⟩
  · exact .inl ⟨.utc, rest, hrest, trivial⟩
  have hsigned (negative : Bool) (rest : Chars) (h : s.drop i = signUnit negative :: rest) :
      (∃ (z : ZoneFormat) (rest : Chars), s.drop i = z.text ++ rest ∧ z.Stop rest) ∨
        scanZone s f i = .error .syntaxError := by
    obtain ⟨hplus, hminus⟩ := peek_sign h
    have hdrop := drop_add_length (l := [signUnit negative]) h
    rw [List.length_singleton] at hdrop
    rcases needNdigits_spec 2 s (i + 1) with ⟨hour, rest', hhour⟩ | herror
    · have hafter := drop_add_length hhour
      rw [hour.length_text] at hafter
      rw [← hdrop, hhour] at h
      obtain ⟨colon, hcolon⟩ : ∃ colon, peek s (i + 1 + 2) ':' = .ok colon ∧ ∃ rest'',
          rest' = (if colon then [unit ':'] else []) ++ rest'' ∧
          s.drop (if colon then i + 1 + 2 + 1 else i + 1 + 2) = rest'' := by
        rcases peek_cases s (i + 1 + 2) ':' with ⟨⟨rest'', hrest'⟩, hcolon⟩ | ⟨-, hcolon⟩
        · exact ⟨true, hcolon, rest'', hafter.symm.trans hrest', drop_add_length (l := [unit ':']) hrest'⟩
        · exact ⟨false, hcolon, rest', rfl, hafter⟩
      obtain ⟨hcolon, rest'', rfl, hskip⟩ := hcolon
      rcases needNdigits_spec 2 s (if colon then i + 1 + 2 + 1 else i + 1 + 2) with ⟨min, last, hmin⟩ | herror
      · refine .inl ⟨.shift negative hour colon min, last, ?_, trivial⟩
        rw [h, ← hskip, hmin, ZoneFormat.text]
        simp
      · refine .inr ?_
        simp only [scanZone, hutc, hplus, hminus, ok_bind, needNdigits_text hour (by decide) hhour, hcolon, herror,
          error_bind]
        simp
    · refine .inr ?_
      simp only [scanZone, hutc, hplus, hminus, ok_bind, herror, error_bind]
      simp
  rcases peek_cases s i '+' with ⟨⟨rest, hrest⟩, -⟩ | ⟨hnoPlus, hplus⟩
  · exact hsigned false rest hrest
  rcases peek_cases s i '-' with ⟨⟨rest, hrest⟩, -⟩ | ⟨hnoMinus, hminus⟩
  · exact hsigned true rest hrest
  · exact .inl ⟨.missing, s.drop i, rfl, hnoUtc, hnoPlus, hnoMinus⟩

/-! ## Times -/

/-- The fields that a time sets. -/
def TimeFormat.apply (f : Fields) (t : TimeFormat) : Fields :=
  t.zone.apply (t.seconds.apply { f with hour := t.hour.value, min := t.min.value })

/-- What cannot come next. -/
def TimeFormat.Stop (rest : Chars) (t : TimeFormat) : Prop :=
  t.seconds.Stop (t.zone.text ++ rest) ∧ t.zone.Stop rest

theorem scanTime_text (t : TimeFormat) (h : s.drop i = t.text ++ rest) (hstop : t.Stop rest) :
    scanTime s f i = .ok (t.apply f, i + t.text.length) := by
  have h' : s.drop i = [unit 'T'] ++ (t.hour.text ++ ([unit ':'] ++ (t.min.text ++ (t.seconds.text ++
      (t.zone.text ++ rest))))) := by
    rw [h, TimeFormat.text]
    simp
  have hhour := drop_add_length h'
  have hcolon := drop_add_length hhour
  have hmin := drop_add_length hcolon
  have hseconds := drop_add_length hmin
  simp only [List.length_singleton, Digits.length_text] at hhour hcolon hmin hseconds
  have hzone := drop_add_length hseconds
  simp only [scanTime, peek_eq_true h', ok_bind, if_true, needNdigits_text t.hour (by decide) hhour, need,
    peek_eq_true hcolon, pure, Except.pure, needNdigits_text t.min (by decide) hmin,
    scanSeconds_text t.seconds hseconds hstop.1, scanZone_text t.zone hzone hstop.2]
  simp [TimeFormat.apply, TimeFormat.text]
  omega

/-- There is no time. -/
theorem scanTime_missing (h : (s.drop i).head? ≠ some (unit 'T')) : scanTime s f i = .ok (f, i) := by
  simp only [scanTime, peek_eq_false rfl h, ok_bind]
  rfl

/-- A time, none, or a syntax error. -/
theorem scanTime_spec (s : Chars) (f : Fields) (i : ℕ) :
    (∃ (t : TimeFormat) (rest : Chars), s.drop i = t.text ++ rest ∧ t.Stop rest) ∨
      (s.drop i).head? ≠ some (unit 'T') ∨ scanTime s f i = .error .syntaxError := by
  rcases peek_cases s i 'T' with ⟨⟨rest, h⟩, htime⟩ | ⟨hhead, -⟩
  case inr => exact .inr (.inl hhead)
  have hdrop := drop_add_length (l := [unit 'T']) h
  rw [List.length_singleton] at hdrop
  rcases needNdigits_spec 2 s (i + 1) with ⟨hour, rest1, hhour⟩ | herror
  case inr =>
    refine .inr (.inr ?_)
    simp only [scanTime, htime, ok_bind, if_true, herror, error_bind]
  have hafterHour := drop_add_length hhour
  rw [hour.length_text] at hafterHour
  rcases peek_cases s (i + 1 + 2) ':' with ⟨⟨rest2, hrest2⟩, hcolon⟩ | ⟨-, hcolon⟩
  case inr =>
    refine .inr (.inr ?_)
    simp only [scanTime, htime, ok_bind, if_true, needNdigits_text hour (by decide) hhour, need, hcolon]
    rfl
  have hafterColon := drop_add_length (l := [unit ':']) hrest2
  rw [List.length_singleton] at hafterColon
  rcases needNdigits_spec 2 s (i + 1 + 2 + 1) with ⟨min, rest3, hmin⟩ | herror
  case inr =>
    refine .inr (.inr ?_)
    simp only [scanTime, htime, ok_bind, if_true, needNdigits_text hour (by decide) hhour, need, hcolon, pure,
      Except.pure, herror, error_bind]
  have hafterMin := drop_add_length hmin
  rw [min.length_text] at hafterMin
  rcases scanSeconds_spec s { f with hour := hour.value, min := min.value } (i + 1 + 2 + 1 + 2) with
    ⟨seconds, rest4, hseconds, hstop⟩ | herror
  case inr =>
    refine .inr (.inr ?_)
    simp only [scanTime, htime, ok_bind, if_true, needNdigits_text hour (by decide) hhour, need, hcolon, pure,
      Except.pure, needNdigits_text min (by decide) hmin, herror, error_bind]
  have hafterSeconds := drop_add_length hseconds
  rcases scanZone_spec s (seconds.apply { f with hour := hour.value, min := min.value })
    (i + 1 + 2 + 1 + 2 + seconds.text.length) with ⟨zone, last, hzone, hstop'⟩ | herror
  case inr =>
    refine .inr (.inr ?_)
    simp only [scanTime, htime, ok_bind, if_true, needNdigits_text hour (by decide) hhour, need, hcolon, pure,
      Except.pure, needNdigits_text min (by decide) hmin, scanSeconds_text seconds hseconds hstop, herror]
  have hall : s.drop i =
      unit 'T' :: (hour.text ++ unit ':' :: (min.text ++ (seconds.text ++ (zone.text ++ last)))) := by
    rw [h, ← hdrop, hhour, ← hafterHour, hrest2, ← hafterColon, hmin, ← hafterMin, hseconds, ← hafterSeconds,
      hzone]
  refine .inl ⟨⟨hour, min, seconds, zone⟩, last, ?_, ?_, hstop'⟩
  · rw [hall, TimeFormat.text]
    simp
  · rw [← hzone, hafterSeconds]
    exact hstop

end SpiderMonkey.Vm.Date
