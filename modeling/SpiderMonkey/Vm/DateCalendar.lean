import SpiderMonkey.Vm.DateTime
import Mathlib.Tactic.IntervalCases

/-!
# The calendar of dates

Time values are milliseconds since 1970 in the proleptic Gregorian calendar. The year of a time is estimated with the
average length of a year and moved by one if the time is outside of it. The doubles here are integers, and `fmod` has
the sign of the dividend.
-/

namespace SpiderMonkey.Vm.Date

/-- `HoursPerDay`. -/
def hoursPerDay : ℤ := 24

/-- `MinutesPerHour`. -/
def minutesPerHour : ℤ := 60

/-- `msPerMinute`. -/
def msPerMinute : ℤ := msPerSecond * secondsPerMinute

/-- `msPerHour`. -/
def msPerHour : ℤ := msPerMinute * minutesPerHour

/-- `msPerDay`. -/
def msPerDay : ℤ := msPerHour * hoursPerDay

/-- `fmod`, and the divisor is added to a negative remainder. -/
def positiveModulo (dividend divisor : ℤ) : ℤ :=
  let result := dividend.tmod divisor
  if result < 0 then result + divisor else result

/-- `Day`. -/
def day (t : ℤ) : ℤ := t / msPerDay

/-- `TimeWithinDay`. -/
def timeWithinDay (t : ℤ) : ℤ := positiveModulo t msPerDay

/-- `IsLeapYear`. -/
def isLeapYear (year : ℤ) : Bool := year.tmod 4 = 0 ∧ (year.tmod 100 ≠ 0 ∨ year.tmod 400 = 0)

/-- `DaysInYear`. -/
def daysInYear (year : ℤ) : ℤ := if isLeapYear year then 366 else 365

/-- `DayFromYear`. -/
def dayFromYear (y : ℤ) : ℤ := 365 * (y - 1970) + (y - 1969) / 4 - (y - 1901) / 100 + (y - 1601) / 400

/-- `TimeFromYear`. -/
def timeFromYear (y : ℤ) : ℤ := dayFromYear y * msPerDay

/-- The year of a time by the average length of a year, 365.2425 days. -/
def estimatedYear (t : ℤ) : ℤ := t * 10000 / (msPerDay * 3652425) + 1970

/-- `YearFromTime`. -/
def yearFromTime (t : ℤ) : ℤ :=
  let y := estimatedYear t
  let t2 := timeFromYear y
  if t2 > t then y - 1
  else if t2 + msPerDay * daysInYear y ≤ t then y + 1
  else y

/-- `DaysInFebruary`. -/
def daysInFebruary (year : ℤ) : ℤ := if isLeapYear year then 29 else 28

/-- `DayWithinYear`. -/
def dayWithinYear (t year : ℤ) : ℤ := day t - dayFromYear year

/-- `MonthFromTime`. -/
def monthFromTime (t : ℤ) : ℤ :=
  let year := yearFromTime t
  let d := dayWithinYear t year
  let february := 31 + daysInFebruary year
  if d < 31 then 0
  else if d < february then 1
  else if d < february + 31 then 2
  else if d < february + 31 + 30 then 3
  else if d < february + 31 + 30 + 31 then 4
  else if d < february + 31 + 30 + 31 + 30 then 5
  else if d < february + 31 + 30 + 31 + 30 + 31 then 6
  else if d < february + 31 + 30 + 31 + 30 + 31 + 31 then 7
  else if d < february + 31 + 30 + 31 + 30 + 31 + 31 + 30 then 8
  else if d < february + 31 + 30 + 31 + 30 + 31 + 31 + 30 + 31 then 9
  else if d < february + 31 + 30 + 31 + 30 + 31 + 31 + 30 + 31 + 30 then 10
  else 11

/-- `DateFromTime`. -/
def dateFromTime (t : ℤ) : ℤ :=
  let year := yearFromTime t
  let d := dayWithinYear t year
  let february := 30 + daysInFebruary year
  if d ≤ 30 then d + 1
  else if d ≤ february then d - 30
  else if d ≤ february + 31 then d - february
  else if d ≤ february + 31 + 30 then d - (february + 31)
  else if d ≤ february + 31 + 30 + 31 then d - (february + 31 + 30)
  else if d ≤ february + 31 + 30 + 31 + 30 then d - (february + 31 + 30 + 31)
  else if d ≤ february + 31 + 30 + 31 + 30 + 31 then d - (february + 31 + 30 + 31 + 30)
  else if d ≤ february + 31 + 30 + 31 + 30 + 31 + 31 then d - (february + 31 + 30 + 31 + 30 + 31)
  else if d ≤ february + 31 + 30 + 31 + 30 + 31 + 31 + 30 then d - (february + 31 + 30 + 31 + 30 + 31 + 31)
  else if d ≤ february + 31 + 30 + 31 + 30 + 31 + 31 + 30 + 31 then
    d - (february + 31 + 30 + 31 + 30 + 31 + 31 + 30)
  else if d ≤ february + 31 + 30 + 31 + 30 + 31 + 31 + 30 + 31 + 30 then
    d - (february + 31 + 30 + 31 + 30 + 31 + 31 + 30 + 31)
  else d - (february + 31 + 30 + 31 + 30 + 31 + 31 + 30 + 31 + 30)

/-- The day of the year of the first day of each month. -/
def firstDayOfMonth (isLeapYear : Bool) : List ℤ :=
  if isLeapYear then [0, 31, 60, 91, 121, 152, 182, 213, 244, 274, 305, 335, 366]
  else [0, 31, 59, 90, 120, 151, 181, 212, 243, 273, 304, 334, 365]

/-- `DayFromMonth`, for a month from 0 to 12. -/
def dayFromMonth (month : ℤ) (isLeapYear : Bool) : ℤ := (firstDayOfMonth isLeapYear).getD month.toNat 0

/-- `MakeDay`. -/
def makeDay (year month date : ℤ) : ℤ :=
  let ym := year + month / 12
  let mn := positiveModulo month 12
  let leap := isLeapYear ym
  let yearday := timeFromYear ym / msPerDay
  let monthday := dayFromMonth mn leap
  yearday + monthday + date - 1

/-- `MakeDate`. -/
def makeDate (day time : ℤ) : ℤ := day * msPerDay + time

/-- `HourFromTime`. -/
def hourFromTime (t : ℤ) : ℤ := positiveModulo (t / msPerHour) hoursPerDay

/-- `MinFromTime`. -/
def minFromTime (t : ℤ) : ℤ := positiveModulo (t / msPerMinute) minutesPerHour

/-- `SecFromTime`. -/
def secFromTime (t : ℤ) : ℤ := positiveModulo (t / msPerSecond) secondsPerMinute

/-- `msFromTime`. -/
def msFromTime (t : ℤ) : ℤ := positiveModulo t msPerSecond

/-- `MakeTime`. -/
def makeTime (hour min sec ms : ℤ) : ℤ := hour * msPerHour + min * msPerMinute + sec * msPerSecond + ms

/-! ## Years -/

/-- The remainder that is not negative. -/
theorem positiveModulo_eq {dividend divisor : ℤ} (h : 0 < divisor) :
    positiveModulo dividend divisor = dividend % divisor := by
  have hnonneg := Int.emod_nonneg dividend h.ne'
  have hlt := Int.emod_lt_of_pos dividend h
  simp only [positiveModulo]
  rw [Int.tmod_eq_emod]
  split <;> split <;> omega

/-- A year is a leap year. -/
theorem isLeapYear_iff {year : ℤ} : isLeapYear year ↔ 4 ∣ year ∧ (¬ 100 ∣ year ∨ 400 ∣ year) := by
  rw [isLeapYear, decide_eq_true_eq, Int.dvd_iff_tmod_eq_zero, Int.dvd_iff_tmod_eq_zero,
    Int.dvd_iff_tmod_eq_zero]

/-- The length of a year. -/
theorem daysInYear_cases (year : ℤ) :
    daysInYear year = 366 ∧ isLeapYear year ∨ daysInYear year = 365 ∧ ¬ isLeapYear year := by
  unfold daysInYear
  split
  next h => exact .inl ⟨rfl, h⟩
  next h => exact .inr ⟨rfl, h⟩

/-- A year ends where the next one starts. -/
theorem dayFromYear_succ (y : ℤ) : dayFromYear (y + 1) = dayFromYear y + daysInYear y := by
  have h := daysInYear_cases y
  rw [isLeapYear_iff] at h
  unfold dayFromYear
  omega

/-- Years start in order. -/
theorem dayFromYear_lt {y z : ℤ} (h : y < z) : dayFromYear y < dayFromYear z := by
  unfold dayFromYear
  omega

/-- A day of a year, by the average length of years. -/
theorem dayFromYear_bounds (y : ℤ) : 146097 * (y - 1970) - 588 ≤ 400 * dayFromYear y ∧
    400 * dayFromYear y ≤ 146097 * (y - 1970) + 591 := by
  unfold dayFromYear
  omega

/-- The estimated year is off by at most one. -/
theorem estimatedYear_bounds (t : ℤ) :
    timeFromYear (estimatedYear t - 1) ≤ t ∧ t < timeFromYear (estimatedYear t + 2) := by
  have hbefore := dayFromYear_bounds (estimatedYear t - 1)
  have hafter := dayFromYear_bounds (estimatedYear t + 2)
  have hday : msPerDay = 86400000 := rfl
  have hestimate : estimatedYear t = t * 10000 / (86400000 * 3652425) + 1970 := rfl
  unfold timeFromYear
  rw [hday]
  omega

/-- The year of a time contains it. -/
theorem yearFromTime_spec (t : ℤ) :
    timeFromYear (yearFromTime t) ≤ t ∧ t < timeFromYear (yearFromTime t + 1) := by
  obtain ⟨hbefore, hafter⟩ := estimatedYear_bounds t
  have hsucc := dayFromYear_succ (estimatedYear t)
  have hnext : timeFromYear (estimatedYear t + 1) =
      timeFromYear (estimatedYear t) + msPerDay * daysInYear (estimatedYear t) := by
    rw [timeFromYear, hsucc, add_mul, mul_comm msPerDay]
    rfl
  simp only [yearFromTime]
  split
  next h =>
    rw [sub_add_cancel]
    exact ⟨hbefore, h⟩
  next h =>
    split
    next hlast =>
      rw [add_assoc]
      exact ⟨hnext.trans_le hlast, hafter⟩
    next hlast => exact ⟨not_lt.mp h, (not_le.mp hlast).trans_eq hnext.symm⟩

/-- A time is in one year only. -/
theorem eq_yearFromTime {t y : ℤ} (hle : timeFromYear y ≤ t) (hlt : t < timeFromYear (y + 1)) :
    y = yearFromTime t := by
  obtain ⟨hle', hlt'⟩ := yearFromTime_spec t
  have hpos : 0 < msPerDay := by decide
  have hone : dayFromYear y < dayFromYear (yearFromTime t + 1) :=
    lt_of_mul_lt_mul_right (hle.trans_lt hlt') hpos.le
  have htwo : dayFromYear (yearFromTime t) < dayFromYear (y + 1) :=
    lt_of_mul_lt_mul_right (hle'.trans_lt hlt) hpos.le
  have hmono {a b : ℤ} (h : dayFromYear a < dayFromYear b) : a < b := by
    by_contra hnot
    rcases (not_lt.mp hnot).lt_or_eq with hlt | heq
    · exact h.not_gt (dayFromYear_lt hlt)
    · exact h.ne (congrArg dayFromYear heq.symm)
  have hthree := hmono hone
  have hfour := hmono htwo
  omega

/-! ## Months -/

/-- A day of a year is before its end. -/
theorem dayWithinYear_bounds (t : ℤ) : 0 ≤ dayWithinYear t (yearFromTime t) ∧
    dayWithinYear t (yearFromTime t) < daysInYear (yearFromTime t) := by
  obtain ⟨hle, hlt⟩ := yearFromTime_spec t
  have hpos : 0 < msPerDay := by decide
  have hstart : dayFromYear (yearFromTime t) ≤ day t := (Int.le_ediv_iff_mul_le hpos).mpr hle
  have hend : day t < dayFromYear (yearFromTime t + 1) := (Int.ediv_lt_iff_lt_mul hpos).mpr hlt
  rw [dayFromYear_succ] at hend
  unfold dayWithinYear
  omega

/-- The lengths of the months before December. -/
def monthLengths (year : ℤ) : List ℤ := [31, daysInFebruary year, 31, 30, 31, 30, 31, 31, 30, 31, 30]

/-- The months in turn, until the one that day `d` is before the end of. -/
def walkMonth (d : ℤ) : ℤ → ℤ → List ℤ → ℤ
  | _, month, [] => month
  | step, month, n :: lengths => if d < step + n then month else walkMonth d (step + n) (month + 1) lengths

/-- The months in turn, and the days since the end of the last one. -/
def walkDate (d : ℤ) : ℤ → List ℤ → ℤ
  | step, [] => d - step
  | step, n :: lengths => if d ≤ step + n then d - step else walkDate d (step + n) lengths

theorem monthFromTime_eq (t : ℤ) : monthFromTime t =
    walkMonth (dayWithinYear t (yearFromTime t)) 0 0 (monthLengths (yearFromTime t)) := rfl

theorem dateFromTime_eq (t : ℤ) : dateFromTime t =
    walkDate (dayWithinYear t (yearFromTime t)) (-1) (monthLengths (yearFromTime t)) := by
  have hfirst : dayWithinYear t (yearFromTime t) - -1 = dayWithinYear t (yearFromTime t) + 1 := by omega
  simp only [monthLengths, walkDate]
  rw [hfirst]
  rfl

/-- Both walks stop in the month that contains day `d`. -/
theorem walk_spec {d step : ℤ} (h : step ≤ d) (month : ℤ) (lengths : List ℤ) :
    ∃ k ≤ lengths.length, walkMonth d step month lengths = month + k ∧
      walkDate d (step - 1) lengths = d - (step + (lengths.take k).sum) + 1 ∧
      step + (lengths.take k).sum ≤ d ∧
      (k < lengths.length → d < step + (lengths.take (k + 1)).sum) := by
  induction lengths generalizing step month with
  | nil =>
    refine ⟨0, le_rfl, ?_, ?_, ?_, fun hlt => absurd hlt (lt_irrefl 0)⟩
    · simp [walkMonth]
    · simp only [walkDate, List.take_nil, List.sum_nil]
      omega
    · simpa using h
  | cons n lengths ih =>
    by_cases hlt : d < step + n
    · refine ⟨0, Nat.zero_le _, ?_, ?_, ?_, fun _ => ?_⟩
      · simp [walkMonth, hlt]
      · rw [walkDate, if_pos (by omega)]
        simp only [List.take_zero, List.sum_nil]
        omega
      · simpa using h
      · simpa using hlt
    · obtain ⟨k, hk, hmonth, hdate, hle, hend⟩ := ih (not_lt.mp hlt) (month + 1)
      refine ⟨k + 1, Nat.succ_le_succ hk, ?_, ?_, ?_, fun hlength => ?_⟩
      · rw [walkMonth, if_neg hlt, hmonth]
        push_cast
        omega
      · have hstep : step - 1 + n = step + n - 1 := by omega
        rw [walkDate, if_neg (by omega), hstep, hdate, List.take_succ_cons, List.sum_cons]
        omega
      · rw [List.take_succ_cons, List.sum_cons]
        omega
      · have hlast := hend (Nat.lt_of_succ_lt_succ hlength)
        rw [List.take_succ_cons, List.sum_cons]
        omega

/-- The first day of a month comes after the months before it. -/
theorem sum_monthLengths {k : ℕ} (hk : k ≤ 11) (year : ℤ) :
    ((monthLengths year).take k).sum = dayFromMonth k (isLeapYear year) := by
  unfold monthLengths daysInFebruary
  cases isLeapYear year <;> interval_cases k <;> rfl

/-- The last day of the year ends December. -/
theorem dayFromMonth_twelve (year : ℤ) : dayFromMonth 12 (isLeapYear year) = daysInYear year := by
  unfold daysInYear
  cases isLeapYear year <;> rfl

/-- The month and the date of a time are its day of the year. -/
theorem monthFromTime_spec (t : ℤ) :
    (0 ≤ monthFromTime t ∧ monthFromTime t ≤ 11) ∧ 1 ≤ dateFromTime t ∧
      dayFromMonth (monthFromTime t) (isLeapYear (yearFromTime t)) + dateFromTime t ≤
        dayFromMonth (monthFromTime t + 1) (isLeapYear (yearFromTime t)) ∧
      dayFromMonth (monthFromTime t) (isLeapYear (yearFromTime t)) + dateFromTime t - 1 =
        dayWithinYear t (yearFromTime t) := by
  obtain ⟨hfirst, hlast⟩ := dayWithinYear_bounds t
  obtain ⟨k, hk, hmonth, hdate, hle, hend⟩ := walk_spec hfirst 0 (monthLengths (yearFromTime t))
  rw [← monthFromTime_eq, zero_add] at hmonth
  rw [zero_sub, ← dateFromTime_eq] at hdate
  have hlength : (monthLengths (yearFromTime t)).length = 11 := rfl
  rw [hlength] at hk hend
  rw [sum_monthLengths hk] at hdate hle
  have hafter : dayWithinYear t (yearFromTime t) <
      dayFromMonth ((k : ℤ) + 1) (isLeapYear (yearFromTime t)) := by
    rcases hk.lt_or_eq with hlt | heq
    · have hbefore := hend hlt
      rw [sum_monthLengths hlt, zero_add] at hbefore
      exact_mod_cast hbefore
    · subst heq
      rw [← dayFromMonth_twelve] at hlast
      exact hlast
  rw [hmonth]
  omega

/-! ## Days and times -/

/-- The day of a year, a month and a date. -/
theorem makeDay_eq (year month date : ℤ) : makeDay year month date =
    dayFromYear (year + month / 12) + dayFromMonth (month % 12) (isLeapYear (year + month / 12)) + date - 1 := by
  have hday : timeFromYear (year + month / 12) / msPerDay = dayFromYear (year + month / 12) :=
    Int.mul_ediv_cancel _ (by decide)
  rw [← hday, ← positiveModulo_eq (show 0 < (12 : ℤ) by decide)]
  rfl

/-- The day of a time is that of its year, month and date. -/
theorem makeDay_fromTime (t : ℤ) :
    makeDay (yearFromTime t) (monthFromTime t) (dateFromTime t) = day t := by
  obtain ⟨hmonth, -, -, hday⟩ := monthFromTime_spec t
  have hdiv : monthFromTime t / 12 = 0 := by omega
  have hmod : monthFromTime t % 12 = monthFromTime t := by omega
  rw [makeDay_eq, hdiv, hmod, add_zero]
  unfold dayWithinYear at hday
  omega

/-- A time is its day and the time within it. -/
theorem makeDate_day (t : ℤ) : makeDate (day t) (timeWithinDay t) = t := by
  rw [makeDate, day, timeWithinDay, positiveModulo_eq (by decide)]
  exact Int.ediv_mul_add_emod t msPerDay

/-- The time within a day is that of its hour, minute, second and millisecond. -/
theorem makeTime_fromTime (t : ℤ) :
    makeTime (hourFromTime t) (minFromTime t) (secFromTime t) (msFromTime t) = timeWithinDay t := by
  have hhours : msPerHour = 3600000 := rfl
  have hminutes : msPerMinute = 60000 := rfl
  have hdays : msPerDay = 86400000 := rfl
  unfold makeTime hourFromTime minFromTime secFromTime msFromTime timeWithinDay
  rw [positiveModulo_eq (by decide), positiveModulo_eq (by decide), positiveModulo_eq (by decide),
    positiveModulo_eq (by decide), positiveModulo_eq (by decide), hhours, hminutes, hdays]
  unfold msPerSecond hoursPerDay minutesPerHour secondsPerMinute
  omega

/-- The arithmetic of dates is exact: the year of a time is the only one that contains it, and at most one year from
the estimate. The month and the date are in range and give the day back, and so do the components of the time. Days
count on from the first day of a month, also for months beyond the year. -/
theorem calendar_exact :
    (∀ t, (timeFromYear (yearFromTime t) ≤ t ∧ t < timeFromYear (yearFromTime t + 1)) ∧
      (∀ y, timeFromYear y ≤ t → t < timeFromYear (y + 1) → y = yearFromTime t) ∧
      |yearFromTime t - estimatedYear t| ≤ 1 ∧
      (0 ≤ monthFromTime t ∧ monthFromTime t ≤ 11) ∧
      (1 ≤ dateFromTime t ∧ dateFromTime t ≤
        dayFromMonth (monthFromTime t + 1) (isLeapYear (yearFromTime t)) -
          dayFromMonth (monthFromTime t) (isLeapYear (yearFromTime t))) ∧
      makeDay (yearFromTime t) (monthFromTime t) (dateFromTime t) * msPerDay + timeWithinDay t = t ∧
      makeTime (hourFromTime t) (minFromTime t) (secFromTime t) (msFromTime t) = timeWithinDay t) ∧
    ∀ y m d, makeDay y m d = makeDay (y + m / 12) (m % 12) 1 + d - 1 := by
  constructor
  · intro t
    obtain ⟨hmonth, hdate, hlast, -⟩ := monthFromTime_spec t
    refine ⟨yearFromTime_spec t, fun y => eq_yearFromTime, ?_, hmonth, ⟨hdate, by omega⟩, ?_,
      makeTime_fromTime t⟩
    · rw [abs_le]
      simp only [yearFromTime]
      split
      · omega
      · split <;> omega
    · rw [makeDay_fromTime]
      exact makeDate_day t
  · intro y m d
    have hdiv : m % 12 / 12 = 0 := by omega
    have hmod : m % 12 % 12 = m % 12 := by omega
    rw [makeDay_eq, makeDay_eq, hdiv, hmod, add_zero]
    omega

end SpiderMonkey.Vm.Date
