import SpiderMonkey.Vm.DateFormatsSound

/-!
# Printing and parsing dates

What `print_iso_string` writes is a format if the year has four digits, or six behind a minus sign. It is read back
as the same time. With other years there are digits too many or too few, and the parser stops at them.
-/

namespace SpiderMonkey.Vm.Date

variable {s rest : Chars} {offset : ℤ → ℤ} {dtInfo : DateTimeInfo} {t : ℤ}

/-! ## Printing integers -/

/-- One more digit. -/
theorem digitsValue_concat (ds : List (Fin 10)) (d : Fin 10) :
    digitsValue (ds ++ [d]) = 10 * digitsValue ds + d.val := by
  rw [digitsValue, List.foldl_append]
  rfl

/-- Leading zeros do not count. -/
theorem digitsValue_replicate_append (k : ℕ) (ds : List (Fin 10)) :
    digitsValue (List.replicate k 0 ++ ds) = digitsValue ds := by
  induction k with
  | zero => rfl
  | succ k ih =>
    rw [List.replicate_succ, List.cons_append]
    exact ih

/-- The digits of a number in front of others. -/
theorem cvtDigits_eq (num : ℕ) (cvt : Chars) : ∃ ds, cvtDigits num cvt = digitsText ds ++ cvt ∧
    digitsValue ds = num ∧ num < 10 ^ ds.length ∧ (0 < num → 10 ^ ds.length ≤ 10 * num) ∧ (num = 0 → ds = []) := by
  induction num using Nat.strong_induction_on generalizing cvt with
  | _ num ih =>
    rw [cvtDigits]
    split
    next hzero => exact ⟨[], rfl, hzero.symm, hzero ▸ Nat.zero_lt_one, fun h => absurd hzero h.ne', fun _ => rfl⟩
    next hne =>
      have hdigit : num % 10 < 10 := Nat.mod_lt num (by decide)
      obtain ⟨ds, htext, hvalue, hlt, hle, hnil⟩ :=
        ih (num / 10) (by omega) (UInt16.ofNat (0x30 + num % 10) :: cvt)
      refine ⟨ds ++ [⟨num % 10, hdigit⟩], ?_, ?_, ?_, fun _ => ?_, fun h => absurd h hne⟩
      · rw [htext, digitsText, digitsText, List.map_append, List.append_assoc]
        rfl
      · rw [digitsValue_concat, hvalue]
        exact Nat.div_add_mod num 10
      · rw [List.length_append, List.length_singleton, pow_succ]
        omega
      · rw [List.length_append, List.length_singleton, pow_succ]
        rcases Nat.eq_zero_or_pos (num / 10) with hsmall | hpos
        · rw [hnil hsmall, List.length_nil]
          omega
        · have hten := hle hpos
          omega

/-- A number is padded up to a precision. -/
theorem formatInt_eq (prec : ℕ) (n : ℤ) : ∃ ds,
    formatInt prec n = (if n < 0 then [unit '-'] else []) ++ digitsText ds ∧ digitsValue ds = n.natAbs ∧ prec ≤ ds.length ∧ n.natAbs < 10 ^ ds.length ∧
    (ds.length = prec ∨ 10 ^ ds.length ≤ 10 * Nat.max n.natAbs 1) := by
  obtain ⟨cvt, htext, hvalue, hlt, hle, hnil⟩ := cvtDigits_eq n.natAbs []
  rw [List.append_nil] at htext
  obtain ⟨ds, hds, hdsValue, hdsLt, hdsLe⟩ : ∃ ds,
      (if (digitsText cvt).length = 0 then [unit '0'] else digitsText cvt) = digitsText ds ∧ digitsValue ds = n.natAbs ∧ n.natAbs < 10 ^ ds.length ∧
      10 ^ ds.length ≤ 10 * Nat.max n.natAbs 1 := by
    rcases Nat.eq_zero_or_pos n.natAbs with hzero | hpos
    · rw [hnil hzero, hzero]
      exact ⟨[0], rfl, rfl, by decide, by decide⟩
    · have hne : (digitsText cvt).length ≠ 0 := by
        rw [length_digitsText]
        intro h
        rw [h] at hlt
        omega
      refine ⟨cvt, if_neg hne, hvalue, hlt, (hle hpos).trans ?_⟩
      exact Nat.mul_le_mul_left 10 (Nat.le_max_left _ _)
  have hpad : List.replicate (prec - ds.length) (unit '0') = digitsText (List.replicate (prec - ds.length) 0) := by
    rw [digitsText, List.map_replicate]
    rfl
  refine ⟨List.replicate (prec - ds.length) 0 ++ ds, ?_, ?_, ?_, ?_, ?_⟩
  · rw [formatInt, htext, hds, length_digitsText, hpad, List.append_assoc, digitsText, digitsText, digitsText,
      List.map_append]
  · rw [digitsValue_replicate_append, hdsValue]
  · rw [List.length_append, List.length_replicate]
    omega
  · refine hdsLt.trans_le (Nat.pow_le_pow_right (by decide) ?_)
    rw [List.length_append]
    exact Nat.le_add_left _ _
  · rw [List.length_append, List.length_replicate]
    rcases Nat.le_total ds.length prec with hshort | hlong
    · exact .inl (by omega)
    · rw [Nat.sub_eq_zero_of_le hlong, Nat.zero_add]
      exact .inr hdsLe

/-- A number of as many digits as the precision, or fewer. -/
theorem formatInt_of_lt (prec : ℕ) (n : ℤ) (hprec : 0 < prec) (hn : 0 ≤ n) (hlt : n < 10 ^ prec) :
    ∃ ds : Digits prec, formatInt prec n = ds.text ∧ ds.value = n.natAbs := by
  obtain ⟨ds, htext, hvalue, hle, -, hlength⟩ := formatInt_eq prec n
  have heq : ds.length = prec := by
    rcases hlength with heq | hten
    · exact heq
    · by_contra hne
      have hlt' : n.natAbs < 10 ^ prec := by
        zify
        rwa [abs_of_nonneg hn]
      have hmax : Nat.max n.natAbs 1 ≤ 10 ^ prec - 1 := by
        have hone : 10 ≤ 10 ^ prec := Nat.le_self_pow hprec.ne' 10
        exact Nat.max_le.mpr ⟨by omega, by omega⟩
      have hpow : 10 ^ (prec + 1) ≤ 10 ^ ds.length := Nat.pow_le_pow_right (by decide) (by omega)
      rw [pow_succ] at hpow
      omega
  refine ⟨⟨ds, heq⟩, ?_, hvalue⟩
  rw [htext, if_neg (not_lt.mpr hn)]
  rfl

/-! ## Years -/

/-- The years that a time is not before. -/
theorem le_yearFromTime_iff {y : ℤ} : y ≤ yearFromTime t ↔ timeFromYear y ≤ t := by
  obtain ⟨hle, hlt⟩ := yearFromTime_spec t
  have hpos : 0 < msPerDay := by decide
  have hmono {a b : ℤ} (h : a ≤ b) : timeFromYear a ≤ timeFromYear b := by
    rcases h.eq_or_lt with rfl | hlt
    · exact le_rfl
    · exact mul_le_mul_of_nonneg_right (dayFromYear_lt hlt).le hpos.le
  refine ⟨fun h => (hmono h).trans hle, fun h => ?_⟩
  by_contra hnot
  have hnext := hmono (show yearFromTime t + 1 ≤ y by omega)
  omega

/-- The years of dates. -/
theorem yearFromTime_bounds (h : |t| ≤ 8640000000000000) : -271821 ≤ yearFromTime t ∧ yearFromTime t ≤ 275760 := by
  obtain ⟨hlow, hhigh⟩ := abs_le.mp h
  have hstart : timeFromYear (-271821) = -8640009417600000 := by decide
  have hend : timeFromYear 275761 = 8640009504000000 := by decide
  have hafter := (le_yearFromTime_iff (t := t) (y := 275761)).not.mpr (by omega)
  exact ⟨le_yearFromTime_iff.mpr (by omega), by omega⟩

/-! ## The round trip -/

/-- The parts of a time within the day. -/
theorem timeFields_bounds (t : ℤ) : (0 ≤ hourFromTime t ∧ hourFromTime t ≤ 23) ∧
    (0 ≤ minFromTime t ∧ minFromTime t ≤ 59) ∧ (0 ≤ secFromTime t ∧ secFromTime t ≤ 59) ∧
    0 ≤ msFromTime t ∧ msFromTime t ≤ 999 := by
  unfold hourFromTime minFromTime secFromTime msFromTime
  rw [positiveModulo_eq (by decide), positiveModulo_eq (by decide), positiveModulo_eq (by decide),
    positiveModulo_eq (by decide)]
  unfold hoursPerDay minutesPerHour secondsPerMinute msPerSecond
  omega

/-- No month is longer than 31 days. -/
theorem monthLength_le {year : ℤ} {month : ℕ} (h : 1 ≤ month ∧ month ≤ 12) :
    Format.monthLength year month ≤ 31 := by
  obtain ⟨hlow, hhigh⟩ := h
  rw [Format.monthLength, monthLengths, daysInFebruary]
  generalize isLeapYear year = leap
  interval_cases month <;> cases leap <;> decide

/-- A date whose year is printed as one of the formats is read back. -/
theorem parseISOString_printIsoString {y : YearFormat} (h : |t| ≤ 8640000000000000)
    (hprint : formatInt 4 (yearFromTime t) = y.text)
    (hyear : ∀ m, (Format.date ⟨y, m⟩).year = yearFromTime t) :
    parseISOString offset (printIsoString t) dtInfo = .ok t := by
  obtain ⟨⟨hmonthLow, hmonthHigh⟩, hdateLow, hdateHigh, -⟩ := monthFromTime_spec t
  obtain ⟨⟨hhourLow, hhourHigh⟩, ⟨hminLow, hminHigh⟩, ⟨hsecLow, hsecHigh⟩, hmsLow, hmsHigh⟩ := timeFields_bounds t
  have hyears := yearFromTime_bounds h
  have hlength : dateFromTime t ≤ Format.monthLength (yearFromTime t) (monthFromTime t + 1).natAbs := by
    rw [← daysInMonth_eq (by omega), daysInMonth, isLeapYear_natAbs, Int.natCast_natAbs, abs_of_nonneg (by omega),
      add_sub_cancel_right]
    omega
  have hdate := hlength.trans (monthLength_le (by omega))
  obtain ⟨month, hmonth, hmonthValue⟩ := formatInt_of_lt 2 (monthFromTime t + 1) (by decide) (by omega) (by omega)
  obtain ⟨date, hday, hdayValue⟩ := formatInt_of_lt 2 (dateFromTime t) (by decide) (by omega) (by omega)
  obtain ⟨hour, hhour, hhourValue⟩ := formatInt_of_lt 2 (hourFromTime t) (by decide) hhourLow (by omega)
  obtain ⟨min, hmin, hminValue⟩ := formatInt_of_lt 2 (minFromTime t) (by decide) hminLow (by omega)
  obtain ⟨sec, hsec, hsecValue⟩ := formatInt_of_lt 2 (secFromTime t) (by decide) hsecLow (by omega)
  obtain ⟨ms, hms, hmsValue⟩ := formatInt_of_lt 3 (msFromTime t) (by decide) hmsLow (by omega)
  have hne : ms.digits ≠ [] := by
    intro hnil
    have hthree := ms.length_eq
    rw [hnil] at hthree
    exact absurd hthree (by decide)
  generalize hf : Format.dateTime ⟨y, .complete month date⟩ ⟨hour, min, .fraction sec ms.digits hne, .utc⟩ = f
  have htext : printIsoString t = f.text := by
    rw [printIsoString, hprint, hmonth, hday, hhour, hmin, hsec, hms, ← hf]
    simp [Format.text, DateFormat.text, MonthFormat.text, TimeFormat.text, SecondsFormat.text, ZoneFormat.text,
      Digits.text]
  have hfyear : f.year = yearFromTime t := hf ▸ hyear (.complete month date)
  have hfmonth : f.month = (monthFromTime t + 1).natAbs := hf ▸ hmonthValue
  have hfday : f.day = (dateFromTime t).natAbs := hf ▸ hdayValue
  have hfhour : f.hour = (hourFromTime t).natAbs := hf ▸ hhourValue
  have hfmin : f.min = (minFromTime t).natAbs := hf ▸ hminValue
  have hfsec : f.sec = (secFromTime t).natAbs := hf ▸ hsecValue
  have hfraction : f.fraction = ms.digits := hf ▸ rfl
  have hutc (toUTC : ℤ → ℤ) (m : ℤ) : f.utcTime toUTC m = f.zonedTime m := hf ▸ rfl
  have hzone : f.zoneHour = 0 ∧ f.zoneMin = 0 := hf ▸ ⟨rfl, rfl⟩
  have hexact : (accumulate (.ofNat 0) oneTenth f.fraction * .ofNat 1000).truncated = msFromTime t := by
    obtain ⟨hthree, -⟩ := milliseconds_accumulate f.fraction
    have hdigits := digitsValue_eq ms.digits
    have hvalue : digitsValue ms.digits = (msFromTime t).natAbs := hmsValue
    rw [hfraction, ms.length_eq] at hthree
    rw [ms.length_eq, hvalue, Nat.cast_natAbs, abs_of_nonneg hmsLow] at hdigits
    rw [hfraction]
    have hcast := hthree le_rfl
    rw [mul_comm, show (1000 : ℚ) = 10 ^ 3 by norm_num, ← hdigits] at hcast
    exact_mod_cast hcast
  have hrange : 1 ≤ f.month ∧ f.month ≤ 12 := by omega
  have htime : f.zonedTime (msFromTime t) = t := by
    rw [← Format.zonedTime_eq hrange, hfyear, hfmonth, hfday, hfhour, hfmin, hfsec]
    simp only [Int.natCast_natAbs]
    rw [abs_of_nonneg (by omega), abs_of_nonneg (by omega), abs_of_nonneg hhourLow, abs_of_nonneg hminLow,
      abs_of_nonneg hsecLow, add_sub_cancel_right, makeDay_fromTime, makeTime_fromTime, makeDate_day]
  have hnot : ¬ f.PastMidnight := fun hpast => by
    have hlast := hpast.1
    omega
  have hin : f.InRange := by
    refine ⟨hrange, ⟨by omega, ?_⟩, .inl (by omega), by omega, by omega, by omega, by omega⟩
    rw [hfyear, hfmonth, hfday, Int.natCast_natAbs, abs_of_nonneg (by omega)]
    exact hlength
  have hyearLe : |f.year| ≤ 275943 := by
    rw [hfyear, abs_le]
    omega
  rw [htext, parseISOString_text, finish_fields hnot, hexact, hutc, htime, if_pos ⟨hin, hyearLe, h⟩]

/-! ## Other years -/

/-- What is behind digits, if fewer of them than there are elsewhere, is a digit. -/
theorem isDigit_of_digitsText {ds es : List (Fin 10)} {c : UInt16} {cs : Chars} (hlength : ds.length < es.length)
    (h : digitsText ds ++ c :: cs = digitsText es ++ rest) : IsDigit c := by
  induction ds generalizing es with
  | nil =>
    cases es with
    | nil => exact absurd hlength (lt_irrefl 0)
    | cons e es =>
      have hhead : c = digitUnit e := (List.cons.inj h).1
      exact hhead ▸ isDigit_digitUnit e
  | cons d ds ih =>
    cases es with
    | nil => exact absurd hlength (Nat.not_lt_zero _)
    | cons e es => exact ih (Nat.lt_of_succ_lt_succ hlength) (List.cons.inj h).2

/-- Too many digits of a year, without a sign. -/
theorem parseISOString_of_many {ds : List (Fin 10)} (h : s = digitsText ds ++ rest) (hlength : 4 < ds.length) :
    parseISOString offset s dtInfo = .error .syntaxError := by
  obtain ⟨front, d, ds', rfl, hfront⟩ : ∃ front d ds', ds = front ++ d :: ds' ∧ front.length = 4 := by
    obtain ⟨d, ds', hrest⟩ := List.exists_cons_of_length_pos (show 0 < (ds.drop 4).length by
      rw [List.length_drop]
      omega)
    refine ⟨ds.take 4, d, ds', ?_, ?_⟩
    · rw [← hrest, List.take_append_drop]
    · rw [List.length_take]
      omega
  have hdigit := isDigit_digitUnit d
  have hyear : s.drop 0 =
      (YearFormat.basic ⟨front, hfront⟩).text ++ (digitUnit d :: (digitsText ds' ++ rest)) := by
    rw [List.drop_zero, h]
    simp [YearFormat.text, Digits.text, digitsText]
  have hafter := drop_add_length hyear
  have hstop (ch : Char) (hch : ¬ IsDigit (unit ch)) :
      (digitUnit d :: (digitsText ds' ++ rest)).head? ≠ some (unit ch) := by
    rw [List.head?_cons]
    exact fun heq => hch (Option.some.inj heq ▸ hdigit)
  rw [parseISOString_of_scans (scanYear_text _ hyear)
    (scanMonth_text .missing hafter (hstop '-' (by decide))) (scanTime_missing ?_)]
  · exact finish_of_ne hafter (List.cons_ne_nil _ _)
  · change (s.drop (0 + _)).head? ≠ _
    rw [hafter]
    exact hstop 'T' (by decide)

/-- Too few digits of a year, behind a sign. -/
theorem parseISOString_of_few {ds : List (Fin 10)} {cs : Chars} {c : UInt16}
    (h : s = unit '-' :: (digitsText ds ++ c :: cs)) (hlength : ds.length < 6) (hc : ¬ IsDigit c) :
    parseISOString offset s dtInfo = .error .syntaxError := by
  have hdrop : s.drop 0 = signUnit true :: (digitsText ds ++ c :: cs) := h
  obtain ⟨hplus, hminus⟩ := peek_sign hdrop
  have hafter : s.drop 1 = digitsText ds ++ c :: cs := drop_add_length (l := [signUnit true]) hdrop
  have hdigits : needNdigits 6 s 1 = .error .syntaxError := by
    rcases needNdigits_spec 6 s 1 with ⟨es, rest, hes⟩ | herror
    · exact absurd (isDigit_of_digitsText (hlength.trans_eq es.length_eq.symm) (hafter.symm.trans hes)) hc
    · exact herror
  have hyear : scanYear s {} 0 = .error .syntaxError := by
    simp only [scanYear, hplus, hminus, ok_bind, Nat.zero_add, hdigits, error_bind]
    simp
  simp only [parseISOString, hyear, error_bind]

/-- Dates that have no year of four digits, and no negative one of six, are not read back. All others are. -/
theorem parseISOString_printIsoString_iff (offset : ℤ → ℤ) (dtInfo : DateTimeInfo) (t : ℤ)
    (h : |t| ≤ 8640000000000000) : parseISOString offset (printIsoString t) dtInfo = .ok t ↔
      -62167219200000 ≤ t ∧ t < 253402300800000 ∨ t < -3217830796800000 := by
  have hyears := yearFromTime_bounds h
  have hfirst : timeFromYear 0 = -62167219200000 := by decide
  have hlast : timeFromYear 10000 = 253402300800000 := by decide
  have hsix : timeFromYear (-99999) = -3217830796800000 := by decide
  rw [← hfirst, ← hlast, ← hsix, ← le_yearFromTime_iff, ← not_le, ← not_le, ← le_yearFromTime_iff,
    ← le_yearFromTime_iff]
  obtain ⟨ds, htext, hvalue, hfour, hlt, hlength⟩ := formatInt_eq 4 (yearFromTime t)
  obtain ⟨cs, hcs⟩ : ∃ cs, printIsoString t = formatInt 4 (yearFromTime t) ++ unit '-' :: cs := by
    simp only [printIsoString, List.append_assoc, List.cons_append]
    exact ⟨_, rfl⟩
  rw [htext] at hcs
  have hle {k : ℕ} (hk : 4 ≤ k) (hsmall : (yearFromTime t).natAbs < 10 ^ k) : ds.length ≤ k := by
    by_contra hlong
    have hten := hlength.resolve_left (by omega)
    have hone : 1 < 10 ^ k := Nat.one_lt_pow (by omega) (by decide)
    have hmax : Nat.max (yearFromTime t).natAbs 1 < 10 ^ k := Nat.max_lt.mpr ⟨hsmall, hone⟩
    have hpow : 10 ^ (k + 1) ≤ 10 ^ ds.length := Nat.pow_le_pow_right (by decide) (by omega)
    rw [pow_succ] at hpow
    omega
  have hge {k : ℕ} (hlarge : 10 ^ k ≤ (yearFromTime t).natAbs) : k < ds.length :=
    (Nat.pow_lt_pow_iff_right (by decide)).mp (hlarge.trans_lt hlt)
  rcases lt_or_ge (yearFromTime t) 0 with hneg | hpos
  · rw [if_pos hneg] at htext hcs
    by_cases hlarge : yearFromTime t < -99999
    · have hsixDigits : ds.length = 6 := le_antisymm (hle (by decide) (by omega)) (hge (k := 5) (by omega))
      have hok : parseISOString offset (printIsoString t) dtInfo = .ok t := by
        refine parseISOString_printIsoString (y := .expanded true ⟨ds, hsixDigits⟩) h htext fun m => ?_
        change -((digitsValue ds : ℕ) : ℤ) = _
        rw [hvalue]
        omega
      exact iff_of_true hok (.inr (by omega))
    · have hfew : ds.length < 6 := Nat.lt_succ_of_le (hle (by decide) (by omega))
      have herror : parseISOString offset (printIsoString t) dtInfo = .error .syntaxError :=
        parseISOString_of_few hcs hfew (by decide)
      rw [herror]
      exact iff_of_false nofun (by omega)
  · rw [if_neg (not_lt.mpr hpos)] at htext hcs
    by_cases hsmall : yearFromTime t ≤ 9999
    · have hfourDigits : ds.length = 4 := le_antisymm (hle le_rfl (by omega)) hfour
      have hok : parseISOString offset (printIsoString t) dtInfo = .ok t := by
        refine parseISOString_printIsoString (y := .basic ⟨ds, hfourDigits⟩) h htext fun m => ?_
        change ((digitsValue ds : ℕ) : ℤ) = _
        rw [hvalue]
        omega
      exact iff_of_true hok (.inl (by omega))
    · have hmany := hge (k := 4) (by omega)
      have herror : parseISOString offset (printIsoString t) dtInfo = .error .syntaxError :=
        parseISOString_of_many hcs hmany
      rw [herror]
      exact iff_of_false nofun (by omega)

/-- A date of four digits is read back. -/
theorem parseISOString_printIsoString_epoch :
    parseISOString (fun _ => 0) (printIsoString 0) ⟨some 0, 0, 0, 0, 0, 0, 0⟩ = .ok 0 ↔
      -62167219200000 ≤ (0 : ℤ) ∧ (0 : ℤ) < 253402300800000 ∨ (0 : ℤ) < -3217830796800000 :=
  parseISOString_printIsoString_iff _ _ 0 (by decide)

/-- The first time of the year 10000 is not read back. -/
theorem parseISOString_printIsoString_tenThousand :
    |(253402300800000 : ℤ)| ≤ 8640000000000000 ∧
      printIsoString 253402300800000 = "10000-01-01T00:00:00.000Z".toList.map unit ∧
      parseISOString (fun _ => 0) (printIsoString 253402300800000) ⟨some 0, 0, 0, 0, 0, 0, 0⟩ =
        .error .syntaxError := by
  decide +kernel

end SpiderMonkey.Vm.Date
