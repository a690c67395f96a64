import SpiderMonkey.Vm.DateScan

/-!
# The formats that are accepted

A string is accepted if it is the text of a format with its fields in range and a time that a date can have. The
result is the time of the format.
-/

namespace SpiderMonkey.Vm.Date

variable {s rest : Chars} {f : Format} {offset : ℤ → ℤ} {dtInfo : DateTimeInfo}

/-! ## Strings and formats -/

/-- The fields of a format. -/
def Format.fields : Format → Fields
  | date d => d.month.apply (d.year.apply {})
  | time t => t.apply {}
  | dateTime d t => t.apply (d.month.apply (d.year.apply {}))

/-- A zone starts with a character of its own. -/
theorem ZoneFormat.head_text {z : ZoneFormat} {c : UInt16} (h : (z.text ++ []).head? = some c) :
    c = unit 'Z' ∨ c = unit '+' ∨ c = unit '-' := by
  rcases z with _ | ⟨_ | _, _, _, _⟩ | _ <;> cases h
  · exact .inl rfl
  · exact .inr (.inl rfl)
  · exact .inr (.inr rfl)

/-- Nothing is behind a format. -/
theorem TimeFormat.stop_nil (t : TimeFormat) : t.Stop [] := by
  obtain ⟨hour, min, seconds, zone⟩ := t
  constructor
  · cases seconds with
    | missing => exact fun h => absurd (ZoneFormat.head_text h) (by decide)
    | whole sec => exact fun h => absurd (ZoneFormat.head_text h) (by decide)
    | fraction sec frac ne =>
      intro c hc
      rcases ZoneFormat.head_text hc with rfl | rfl | rfl <;> decide
  · cases zone with
    | utc => trivial
    | shift negative hour colon min => trivial
    | missing => exact ⟨nofun, nofun, nofun⟩

theorem MonthFormat.stop_nil (m : MonthFormat) : m.Stop [] := by
  cases m with
  | complete month day => trivial
  | missing => exact nofun
  | monthOnly month => exact nofun

/-- A time is behind a date. -/
theorem MonthFormat.stop_time (m : MonthFormat) (rest : Chars) : m.Stop (unit 'T' :: rest) := by
  have hhead : (unit 'T' :: rest).head? ≠ some (unit '-') := by
    rw [List.head?_cons]
    decide
  cases m with
  | complete month day => trivial
  | missing => exact hhead
  | monthOnly month => exact hhead

section Phases

variable {f₁ f₂ f₃ : Fields} {i₁ i₂ i₃ : ℕ}

/-- The three parts of the scanner. -/
theorem parseISOString_of_scans (hyear : scanYear s {} 0 = .ok (f₁, i₁))
    (hmonth : scanMonth s f₁ i₁ = .ok (f₂, i₂)) (htime : scanTime s f₂ i₂ = .ok (f₃, i₃)) :
    parseISOString offset s dtInfo = finish offset dtInfo s f₃ i₃ := by
  simp only [parseISOString, hyear, hmonth, htime, ok_bind]

theorem parseISOString_of_month_error (hyear : scanYear s {} 0 = .ok (f₁, i₁))
    (hmonth : scanMonth s f₁ i₁ = .error .syntaxError) :
    parseISOString offset s dtInfo = .error .syntaxError := by
  simp only [parseISOString, hyear, hmonth, ok_bind, error_bind]

theorem parseISOString_of_time_error (hyear : scanYear s {} 0 = .ok (f₁, i₁))
    (hmonth : scanMonth s f₁ i₁ = .ok (f₂, i₂)) (htime : scanTime s f₂ i₂ = .error .syntaxError) :
    parseISOString offset s dtInfo = .error .syntaxError := by
  simp only [parseISOString, hyear, hmonth, htime, ok_bind, error_bind]

/-- What is left over is a syntax error. -/
theorem finish_of_ne (hdrop : s.drop i₁ = rest) (hne : rest ≠ []) :
    finish offset dtInfo s f₁ i₁ = .error .syntaxError := by
  have hi : i₁ ≠ s.length := by
    rintro rfl
    rw [List.drop_length] at hdrop
    exact hne hdrop.symm
  rw [finish]
  split
  next => rfl
  next => rfl

end Phases

/-- The text of a format is scanned up to its end. -/
theorem parseISOString_text (f : Format) : parseISOString offset f.text dtInfo =
    finish offset dtInfo f.text f.fields f.text.length := by
  cases f with
  | date d =>
    have hyear : (Format.date d).text.drop 0 = d.year.text ++ d.month.text := rfl
    have hmonth := (drop_add_length hyear).trans (List.append_nil _).symm
    have hend := drop_add_length hmonth
    have hnone : ((Format.date d).text.drop (0 + d.year.text.length + d.month.text.length)).head? ≠
        some (unit 'T') := by
      rw [hend]
      exact nofun
    rw [parseISOString_of_scans (scanYear_text d.year hyear) (scanMonth_text d.month hmonth d.month.stop_nil)
      (scanTime_missing hnone)]
    simp [Format.text, DateFormat.text, Format.fields]
  | time t =>
    have htime : (Format.time t).text.drop 0 = t.text ++ [] := (List.append_nil _).symm
    have hmonth : (Format.time t).text.drop 0 = MonthFormat.missing.text ++ t.text := rfl
    rw [parseISOString_of_scans (scanYear_missing (s := (Format.time t).text) rfl)
      (scanMonth_text .missing hmonth (MonthFormat.stop_time _ _)) (scanTime_text t htime t.stop_nil)]
    simp [Format.text, Format.fields, MonthFormat.apply, MonthFormat.text]
  | dateTime d t =>
    have hyear : (Format.dateTime d t).text.drop 0 = d.year.text ++ (d.month.text ++ t.text) :=
      List.append_assoc _ _ _
    have hmonth := drop_add_length hyear
    have htime := (drop_add_length hmonth).trans (List.append_nil _).symm
    rw [parseISOString_of_scans (scanYear_text d.year hyear)
      (scanMonth_text d.month hmonth (MonthFormat.stop_time _ _)) (scanTime_text t htime t.stop_nil)]
    simp [Format.text, DateFormat.text, Format.fields, Nat.add_assoc]

/-- A string is the text of a format, or there is a syntax error. -/
theorem parseISOString_spec (offset : ℤ → ℤ) (s : Chars) (dtInfo : DateTimeInfo) :
    (∃ f : Format, f.text = s) ∨ parseISOString offset s dtInfo = .error .syntaxError := by
  rcases scanYear_spec s {} 0 with ⟨y, rest, hyear⟩ | ⟨rest, hrest⟩ | herror
  · have hyear' := scanYear_text (f := {}) y hyear
    have hyearEnd := drop_add_length hyear
    rcases scanMonth_spec s (y.apply {}) (0 + y.text.length) with ⟨m, rest', hmonth, hstop⟩ | herror
    case inr => exact .inr (parseISOString_of_month_error hyear' herror)
    have hmonth' := scanMonth_text (f := y.apply {}) m hmonth hstop
    have hmonthEnd := drop_add_length hmonth
    rcases scanTime_spec s (m.apply (y.apply {})) (0 + y.text.length + m.text.length) with
      ⟨t, last, htime, hstop'⟩ | hnone | herror
    · by_cases hlast : last = []
      · refine .inl ⟨.dateTime ⟨y, m⟩ t, ?_⟩
        rw [← List.drop_zero (l := s), hyear, ← hyearEnd, hmonth, ← hmonthEnd, htime, hlast]
        simp [Format.text, DateFormat.text]
      · refine .inr ?_
        rw [parseISOString_of_scans hyear' hmonth' (scanTime_text t htime hstop')]
        exact finish_of_ne (drop_add_length htime) hlast
    · by_cases hlast : rest' = []
      · refine .inl ⟨.date ⟨y, m⟩, ?_⟩
        rw [← List.drop_zero (l := s), hyear, ← hyearEnd, hmonth, hlast, List.append_nil]
        rfl
      · refine .inr ?_
        rw [parseISOString_of_scans hyear' hmonth' (scanTime_missing hnone)]
        exact finish_of_ne hmonthEnd hlast
    · exact .inr (parseISOString_of_time_error hyear' hmonth' herror)
  · have hyear' := scanYear_missing (f := {}) hrest
    have hmonth' := scanMonth_text (f := {}) .missing hrest (MonthFormat.stop_time _ rest)
    rcases scanTime_spec s {} 0 with ⟨t, last, htime, hstop⟩ | hnone | herror
    · by_cases hlast : last = []
      · refine .inl ⟨.time t, ?_⟩
        rw [← List.drop_zero (l := s), htime, hlast, List.append_nil]
        rfl
      · refine .inr ?_
        rw [parseISOString_of_scans hyear' hmonth' (scanTime_text t htime hstop)]
        exact finish_of_ne (drop_add_length htime) hlast
    · rw [hrest, List.head?_cons] at hnone
      exact absurd rfl hnone
    · exact .inr (parseISOString_of_time_error hyear' hmonth' herror)
  · exact .inr (by simp only [parseISOString, herror, error_bind])

/-! ## Fields and meaning -/

/-- The fields that are scanned are those of the format. -/
theorem Format.fields_eq (f : Format) :
    (f.fields.dateMul * f.fields.year = f.year ∧ f.fields.year = f.year.natAbs) ∧
      (f.fields.month = f.month ∧ f.fields.day = f.day) ∧
      (f.fields.hour = f.hour ∧ f.fields.min = f.min ∧ f.fields.sec = f.sec ∧
        f.fields.frac = accumulate (.ofNat 0) oneTenth f.fraction) ∧
      f.fields.tzHour = f.zoneHour ∧ f.fields.tzMin = f.zoneMin := by
  have hyear (y : YearFormat) : ∃ dateMul year, y.apply {} = { dateMul, year } ∧
      ∀ m, dateMul * year = (Format.date ⟨y, m⟩).year ∧ year = (Format.date ⟨y, m⟩).year.natAbs := by
    rcases y with year | ⟨_ | _, year⟩
    · exact ⟨1, year.value, rfl, fun m => ⟨one_mul _, rfl⟩⟩
    · exact ⟨1, year.value, rfl, fun m => ⟨one_mul _, rfl⟩⟩
    · exact ⟨-1, year.value, rfl, fun m => ⟨neg_one_mul _, (Int.natAbs_neg year.value).symm⟩⟩
  rcases f with ⟨y, m⟩ | ⟨hour, min, seconds, zone⟩ | ⟨⟨y, m⟩, ⟨hour, min, seconds, zone⟩⟩
  · obtain ⟨dateMul, year, heq, hsigned⟩ := hyear y
    have hfields : (Format.date ⟨y, m⟩).fields = m.apply { dateMul, year } := congrArg m.apply heq
    rw [hfields]
    cases m <;> exact ⟨hsigned _, ⟨rfl, rfl⟩, ⟨rfl, rfl, rfl, rfl⟩, rfl, rfl⟩
  · cases seconds <;> cases zone <;>
      exact ⟨⟨one_mul _, rfl⟩, ⟨rfl, rfl⟩, ⟨rfl, rfl, rfl, rfl⟩, rfl, rfl⟩
  · obtain ⟨dateMul, year, heq, hsigned⟩ := hyear y
    have hfields : (Format.dateTime ⟨y, m⟩ ⟨hour, min, seconds, zone⟩).fields =
        TimeFormat.apply (m.apply { dateMul, year }) ⟨hour, min, seconds, zone⟩ := by
      rw [Format.fields, heq]
    rw [hfields]
    cases m <;> cases seconds <;> cases zone <;>
      exact ⟨hsigned _, ⟨rfl, rfl⟩, ⟨rfl, rfl, rfl, rfl⟩, rfl, rfl⟩

/-- A year is as long as the one before the common era. -/
theorem isLeapYear_natAbs (year : ℤ) : isLeapYear year.natAbs = isLeapYear year := by
  rw [Bool.eq_iff_iff, isLeapYear_iff, isLeapYear_iff, Int.dvd_natAbs, Int.dvd_natAbs, Int.dvd_natAbs]

/-- `DaysInMonth` is the length of a month. -/
theorem daysInMonth_eq {year : ℤ} {month : ℕ} (h : 1 ≤ month ∧ month ≤ 12) :
    daysInMonth year.natAbs month = Format.monthLength year month := by
  obtain ⟨hlow, hhigh⟩ := h
  rw [daysInMonth, isLeapYear_natAbs, Format.monthLength, monthLengths, daysInFebruary]
  generalize isLeapYear year = leap
  interval_cases month <;> cases leap <;> rfl

/-- The checks of the fields are the ranges of the format, but for the fraction behind hour 24. -/
theorem Format.invalid_iff (hnot : ¬ f.PastMidnight) :
    f.fields.Invalid ↔ ¬ (f.InRange ∧ |f.year| ≤ 275943) := by
  obtain ⟨⟨-, hyear⟩, ⟨hmonth, hday⟩, ⟨hhour, hmin, hsec, -⟩, hzoneHour, hzoneMin⟩ := f.fields_eq
  have habs : |f.year| = f.year.natAbs := Int.abs_eq_natAbs _
  have hfraction : f.hour = 24 → ∀ d ∈ f.fraction, d = 0 := fun h d hd => by
    by_contra hne
    exact hnot ⟨h, d, hd, hne⟩
  rw [Fields.Invalid, InRange, hyear, hmonth, hday, hhour, hmin, hsec, hzoneHour, hzoneMin, habs]
  by_cases hrange : 1 ≤ f.month ∧ f.month ≤ 12
  · rw [daysInMonth_eq hrange]
    by_cases hlast : f.hour = 24
    · rw [eq_true (hfraction hlast), and_true, hlast]
      omega
    · omega
  · omega

/-- The time that is computed is that of the format. -/
theorem Format.zonedTime_eq (h : 1 ≤ f.month ∧ f.month ≤ 12) (ms : ℤ) :
    makeDate (makeDay f.year (f.month - 1) f.day) (makeTime f.hour f.min f.sec ms) = f.zonedTime ms := by
  have hdiv : ((f.month : ℤ) - 1) / 12 = 0 := by omega
  have hmod : ((f.month : ℤ) - 1) % 12 = (f.month - 1 : ℕ) := by omega
  have hsum := sum_monthLengths (show f.month - 1 ≤ 11 by omega) f.year
  rw [makeDay_eq, hdiv, hmod, add_zero, ← hsum, makeDate, makeTime, zonedTime, dayNumber]
  have hday : msPerDay = 86400000 := rfl
  have hhour : msPerHour = 3600000 := rfl
  have hmin : msPerMinute = 60000 := rfl
  have hsec : msPerSecond = 1000 := rfl
  rw [hday, hhour, hmin, hsec]
  ring

/-- The zone shifts the time, and a time without one is converted. -/
theorem Format.utcTime_eq (f : Format) (toUTC : ℤ → ℤ) (ms : ℤ) :
    (if f.fields.isLocalTime then toUTC (f.zonedTime ms)
      else f.zonedTime ms - f.fields.tzMul * (f.fields.tzHour * msPerHour + f.fields.tzMin * msPerMinute)) =
      f.utcTime toUTC ms := by
  have hhour : msPerHour = 3600000 := rfl
  have hmin : msPerMinute = 60000 := rfl
  have hdate (d : DateFormat) : (d.month.apply (d.year.apply {})).isLocalTime = false ∧
      (d.month.apply (d.year.apply {})).tzMul = 1 ∧ (d.month.apply (d.year.apply {})).tzHour = 0 ∧
      (d.month.apply (d.year.apply {})).tzMin = 0 := by
    obtain ⟨y, m⟩ := d
    cases y <;> cases m <;> exact ⟨rfl, rfl, rfl, rfl⟩
  have htime (f : Format) (t : TimeFormat) (hzone : f.zone = t.zone) (fields : Fields)
      (hfields : fields.isLocalTime = false ∧ fields.tzMul = 1 ∧ fields.tzHour = 0 ∧ fields.tzMin = 0) :
      (if (t.apply fields).isLocalTime then toUTC (f.zonedTime ms)
        else f.zonedTime ms - (t.apply fields).tzMul *
          ((t.apply fields).tzHour * msPerHour + (t.apply fields).tzMin * msPerMinute)) = f.utcTime toUTC ms := by
    obtain ⟨hlocal, hmul, hzero, hzero'⟩ := hfields
    obtain ⟨hour, min, seconds, zone⟩ := t
    rw [Format.utcTime, hzone, hhour, hmin]
    cases seconds <;> rcases zone with _ | ⟨_ | _, _, _, _⟩ | _ <;>
      simp [TimeFormat.apply, ZoneFormat.apply, SecondsFormat.apply, hlocal, hmul, hzero, hzero'] <;> ring
  rcases f with d | t | ⟨d, t⟩
  · obtain ⟨hlocal, hmul, hzero, hzero'⟩ := hdate d
    simp [Format.fields, hlocal, hmul, hzero, hzero', Format.utcTime, Format.zone, Format.timeFormat]
  · exact htime (.time t) t rfl {} ⟨rfl, rfl, rfl, rfl⟩
  · exact htime (.dateTime d t) t rfl _ (hdate d)

/-- The time of a format, if it is one that a date can have. -/
theorem finish_fields (hnot : ¬ f.PastMidnight) :
    let ms := (accumulate (.ofNat 0) oneTenth f.fraction * .ofNat 1000).truncated
    let time := f.utcTime (fun t => utc offset t dtInfo) ms
    finish offset dtInfo s f.fields s.length =
      if f.InRange ∧ |f.year| ≤ 275943 ∧ |time| ≤ 8640000000000000 then .ok time else .error .syntaxError := by
  intro ms time
  obtain ⟨⟨hsigned, -⟩, ⟨hmonth, hday⟩, ⟨hhour, hmin, hsec, hfrac⟩, -, -⟩ := f.fields_eq
  rw [finish]
  by_cases hvalid : f.InRange ∧ |f.year| ≤ 275943
  · have htime := f.utcTime_eq (fun t => utc offset t dtInfo) ms
    rw [if_neg (fun h => (Format.invalid_iff hnot).mp h hvalid), if_neg (not_not.mpr rfl), hsigned, hmonth, hday,
      hhour, hmin, hsec, hfrac, msecFromDate, Format.zonedTime_eq hvalid.1.1]
    dsimp only
    rw [htime]
    have hclip : (time < -8640000000000000 ∨ time > 8640000000000000) ↔ ¬ |time| ≤ 8640000000000000 := by
      rw [abs_le]
      omega
    by_cases hle : |time| ≤ 8640000000000000
    · rw [if_neg (fun h => hclip.mp h hle), if_pos ⟨hvalid.1, hvalid.2, hle⟩]
      rfl
    · rw [if_pos (hclip.mpr hle), if_neg (fun h => hle h.2.2)]
      rfl
  · rw [if_pos ((Format.invalid_iff hnot).mpr hvalid), if_neg (fun h => hvalid ⟨h.1, h.2.1⟩)]
    rfl

/-- Nothing is read behind the fields. -/
theorem finish_ne_pastEnd {fields : Fields} {i : ℕ} : finish offset dtInfo s fields i ≠ .error .pastEnd := by
  have hthrow : (throw ScanFailure.syntaxError : Except ScanFailure ℤ) ≠ .error .pastEnd :=
    fun h => ScanFailure.noConfusion (Except.error.inj h)
  rw [finish]
  split
  next => exact hthrow
  next =>
    split
    next => exact hthrow
    next =>
      dsimp only
      generalize (if fields.isLocalTime = true then _ else _ : ℤ) = time
      split
      next => exact hthrow
      next => exact nofun

/-- The parser accepts the formats and nothing else, and reads no character past the end. A format, unless it has a
fraction behind hour 24, is accepted if its fields are in range, with a year that a date can have and a time that one
can have. The result is its time, with a fraction of up to three digits exactly and a longer one as near as a double
comes to it. -/
theorem parseISOString_formats (offset : ℤ → ℤ) (dtInfo : DateTimeInfo) :
    (∀ s, parseISOString offset s dtInfo ≠ .error .pastEnd) ∧
      (∀ s t, parseISOString offset s dtInfo = .ok t → ∃ f : Format, f.text = s) ∧
      ∀ f : Format, ¬ f.PastMidnight → ∃ ms, Milliseconds f.fraction ms ∧
        let time := f.utcTime (fun t => utc offset t dtInfo) ms
        parseISOString offset f.text dtInfo =
          if f.InRange ∧ |f.year| ≤ 275943 ∧ |time| ≤ 8640000000000000 then .ok time
          else .error .syntaxError := by
  refine ⟨fun s => ?_, fun s t h => ?_, fun f hnot => ?_⟩
  · rcases parseISOString_spec offset s dtInfo with ⟨f, rfl⟩ | herror
    · rw [parseISOString_text]
      exact finish_ne_pastEnd
    · rw [herror]
      nofun
  · rcases parseISOString_spec offset s dtInfo with hformat | herror
    · exact hformat
    · rw [herror] at h
      cases h
  · refine ⟨_, milliseconds_accumulate f.fraction, ?_⟩
    rw [parseISOString_text]
    exact finish_fields hnot

/-- A format of the note with its fields in range is rejected for its year, and a time is accepted whose zone has no
colon, as no format of the note has it. -/
theorem parseISOString_extensions :
    let parse := fun s : String => parseISOString (fun _ => 0) (s.toList.map unit) ⟨some 0, 0, 0, 0, 0, 0, 0⟩
    let f : Format := .date ⟨.expanded false ⟨[9, 9, 9, 9, 9, 9], rfl⟩, .missing⟩
    (f.text = "+999999".toList.map unit ∧ f.Documented ∧ f.InRange ∧ parse "+999999" = .error .syntaxError) ∧
      parse "T19:20+0100" = .ok 66000000 ∧
      ∀ f : Format, f.text = "T19:20+0100".toList.map unit → ¬ f.Documented := by
  refine ⟨⟨by decide +kernel, trivial, by decide +kernel, by decide +kernel⟩, by decide +kernel, fun f htext => ?_⟩
  have hdate (y : YearFormat) (rest : Chars) : y.text ++ rest ≠ "T19:20+0100".toList.map unit := by
    intro h
    have hyear := scanYear_text (f := {}) (i := 0) y (rfl : (y.text ++ rest).drop 0 = y.text ++ rest)
    rw [h, scanYear_missing rfl] at hyear
    have hlength : 0 = 0 + y.text.length := congrArg Prod.snd (Except.ok.inj hyear)
    cases y <;> simp [YearFormat.text] at hlength
  rcases f with d | ⟨hour, min, seconds, zone⟩ | ⟨d, t⟩
  · exact absurd htext (hdate _ _)
  · have hfront : (unit 'T' :: (hour.text ++ unit ':' :: min.text)) ++ (seconds.text ++ zone.text) =
        "T19:20".toList.map unit ++ "+0100".toList.map unit := by
      rw [← List.map_append]
      refine Eq.trans ?_ htext
      simp [Format.text, TimeFormat.text]
    obtain ⟨-, hrest⟩ := List.append_inj hfront (by simp)
    cases seconds with
    | missing =>
      have hlength := congrArg List.length hrest
      cases zone with
      | utc => simp [SecondsFormat.text, ZoneFormat.text] at hlength
      | missing => simp [SecondsFormat.text, ZoneFormat.text] at hlength
      | shift negative hour colon min =>
        rintro rfl
        simp [SecondsFormat.text, ZoneFormat.text] at hlength
    | whole sec =>
      have hcolon := congrArg List.head? hrest
      exact absurd (Option.some.inj hcolon) (by decide)
    | fraction sec frac ne =>
      have hcolon := congrArg List.head? hrest
      exact absurd (Option.some.inj hcolon) (by decide)
  · refine absurd htext ?_
    rw [Format.text, DateFormat.text, List.append_assoc]
    exact hdate _ _

end SpiderMonkey.Vm.Date
