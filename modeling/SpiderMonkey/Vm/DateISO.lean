import SpiderMonkey.Lib.Binary64Bits
import SpiderMonkey.Vm.DateCalendar

/-!
# Dates in ISO format

`date_parseISOString` scans a string for the fields of a date, and `print_iso_string` writes one. Times are
integers here as in the calendar: no sum of the source leaves the integers of 53 bits, and only the fraction of a
second is computed with other doubles. Whether the conversion from local time leaves a new range in the cache of
offsets is not part of the result.
-/

namespace SpiderMonkey.Vm.Date

/-- The characters of a string. -/
abbrev Chars := List UInt16

/-- A character of the source. -/
def unit (c : Char) : UInt16 := UInt16.ofNat c.toNat

/-! ## Local time -/

/-- Years and leap years by the weekday of their first day. -/
def yearStartingWith : List (List ℤ) :=
  [[1978, 1973, 1974, 1975, 1981, 1971, 1977], [1984, 1996, 1980, 1992, 1976, 1988, 1972]]

/-- `EquivalentYearForDST`. -/
def equivalentYearForDST (year : ℤ) : ℤ :=
  let day := (dayFromYear year + 4).tmod 7
  let day := if day < 0 then day + 7 else day
  (yearStartingWith.getD (isLeapYear year).toNat []).getD day.toNat 0

/-- `DaylightSavingTA`. -/
def daylightSavingTA (offset : ℤ → ℤ) (t : ℤ) (dtInfo : DateTimeInfo) : ℤ :=
  let t :=
    if t < 0 ∨ t > 2145916800000 then
      let year := equivalentYearForDST (yearFromTime t)
      let day := makeDay year (monthFromTime t) (dateFromTime t)
      makeDate day (timeWithinDay t)
    else t
  (dtInfo.getDSTOffsetMilliseconds offset t).1

/-- `localTZA`, which is a number as soon as there is a `DateTimeInfo`: its constructor updates it. -/
def localTZA (dtInfo : DateTimeInfo) : ℤ := dtInfo.localTZA.getD 0

/-- `AdjustTime`. -/
def adjustTime (offset : ℤ → ℤ) (date : ℤ) (dtInfo : DateTimeInfo) : ℤ :=
  let t := daylightSavingTA offset date dtInfo + localTZA dtInfo
  if localTZA dtInfo ≥ 0 then t.tmod msPerDay else -(msPerDay - t).tmod msPerDay

/-- `UTC`. -/
def utc (offset : ℤ → ℤ) (t : ℤ) (dtInfo : DateTimeInfo) : ℤ :=
  t - adjustTime offset (t - localTZA dtInfo) dtInfo

/-! ## Scanning -/

/-- Why there is no date: a syntax error, or a character past the end that was read. -/
inductive ScanFailure where
  | syntaxError
  | pastEnd
  deriving DecidableEq

/-- The character at an index. -/
def charAt (s : Chars) (i : ℕ) : Except ScanFailure UInt16 :=
  match s[i]? with
  | some c => .ok c
  | none => .error .pastEnd

/-- The loop of `digits`. -/
def digitsLoop (s : Chars) (limit result i : ℕ) : Except ScanFailure (ℕ × ℕ) :=
  if i < limit then do
    let c ← charAt s i
    if unit '0' ≤ c ∧ c ≤ unit '9' then digitsLoop s limit (result * 10 + (c - unit '0').toNat) (i + 1)
    else pure (result, i)
  else pure (result, i)
termination_by limit - i

/-- `digits`: whether any are converted, the result, and the index behind them. -/
def digits (s : Chars) (i limit : ℕ) : Except ScanFailure (Bool × ℕ × ℕ) := do
  let (result, j) ← digitsLoop s limit 0 i
  pure (j ≠ i, result, j)

/-- The literal `0.1`. -/
def oneTenth : Binary64 := .ofRat (1 / 10)

/-- The loop of `fractional`. -/
def fractionalLoop (s : Chars) (limit : ℕ) (result factor : Binary64) (i : ℕ) :
    Except ScanFailure (Binary64 × ℕ) :=
  if i < limit then do
    let c ← charAt s i
    if unit '0' ≤ c ∧ c ≤ unit '9' then
      fractionalLoop s limit (result + .ofNat (c - unit '0').toNat * factor) (factor * oneTenth) (i + 1)
    else pure (result, i)
  else pure (result, i)
termination_by limit - i

/-- `fractional`. -/
def fractional (s : Chars) (i limit : ℕ) : Except ScanFailure (Bool × Binary64 × ℕ) := do
  let (result, j) ← fractionalLoop s limit (.ofNat 0) oneTenth i
  pure (j ≠ i, result, j)

/-- `ndigits`. -/
def ndigits (n : ℕ) (s : Chars) (i limit : ℕ) : Except ScanFailure (Bool × ℕ × ℕ) := do
  let (converted, result, j) ← digits s i (min limit (i + n))
  if converted then pure (j - i = n, result, j) else pure (false, result, i)

/-- `PEEK`. -/
def peek (s : Chars) (i : ℕ) (ch : Char) : Except ScanFailure Bool :=
  if i < s.length then do
    let c ← charAt s i
    pure (c == unit ch)
  else pure false

/-- `NEED`. -/
def need (s : Chars) (i : ℕ) (ch : Char) : Except ScanFailure ℕ := do
  if ← peek s i ch then pure (i + 1) else throw .syntaxError

/-- `NEED_NDIGITS`. -/
def needNdigits (n : ℕ) (s : Chars) (i : ℕ) : Except ScanFailure (ℕ × ℕ) := do
  let (converted, field, i) ← ndigits n s i s.length
  if converted then pure (field, i) else throw .syntaxError

/-- The fields of a date with their defaults. -/
structure Fields where
  tzMul : ℤ := 1
  dateMul : ℤ := 1
  year : ℕ := 1970
  month : ℕ := 1
  day : ℕ := 1
  hour : ℕ := 0
  min : ℕ := 0
  sec : ℕ := 0
  frac : Binary64 := .ofNat 0
  isLocalTime : Bool := false
  tzHour : ℕ := 0
  tzMin : ℕ := 0

/-- The year, which is missing if the date is. -/
def scanYear (s : Chars) (f : Fields) (i : ℕ) : Except ScanFailure (Fields × ℕ) := do
  if (← peek s i '+') || (← peek s i '-') then
    let dateMul := if ← peek s i '-' then -1 else f.dateMul
    let (year, i) ← needNdigits 6 s (i + 1)
    pure ({ f with dateMul, year }, i)
  else if !(← peek s i 'T') then
    let (year, i) ← needNdigits 4 s i
    pure ({ f with year }, i)
  else pure (f, i)

/-- The month and the day, up to `done_date`. -/
def scanMonth (s : Chars) (f : Fields) (i : ℕ) : Except ScanFailure (Fields × ℕ) := do
  if ← peek s i '-' then
    let (month, i) ← needNdigits 2 s (i + 1)
    if ← peek s i '-' then
      let (day, i) ← needNdigits 2 s (i + 1)
      pure ({ f with month, day }, i)
    else pure ({ f with month }, i)
  else pure (f, i)

/-- The seconds and their fraction. -/
def scanSeconds (s : Chars) (f : Fields) (i : ℕ) : Except ScanFailure (Fields × ℕ) := do
  if ← peek s i ':' then
    let (sec, i) ← needNdigits 2 s (i + 1)
    if ← peek s i '.' then
      let (converted, frac, i) ← fractional s (i + 1) s.length
      if converted then pure ({ f with sec, frac }, i) else throw .syntaxError
    else pure ({ f with sec }, i)
  else pure (f, i)

/-- The time zone. -/
def scanZone (s : Chars) (f : Fields) (i : ℕ) : Except ScanFailure (Fields × ℕ) := do
  if ← peek s i 'Z' then pure (f, i + 1)
  else if (← peek s i '+') || (← peek s i '-') then
    let tzMul := if ← peek s i '-' then -1 else f.tzMul
    let (tzHour, i) ← needNdigits 2 s (i + 1)
    -- "-0700" is allowed as well as "-07:00".
    let i := if ← peek s i ':' then i + 1 else i
    let (tzMin, i) ← needNdigits 2 s i
    pure ({ f with tzMul, tzHour, tzMin }, i)
  else pure ({ f with isLocalTime := true }, i)

/-- The time, from `done_date` to `done`. -/
def scanTime (s : Chars) (f : Fields) (i : ℕ) : Except ScanFailure (Fields × ℕ) := do
  if ← peek s i 'T' then
    let (hour, i) ← needNdigits 2 s (i + 1)
    let i ← need s i ':'
    let (min, i) ← needNdigits 2 s i
    let (f, i) ← scanSeconds s { f with hour, min } i
    scanZone s f i
  else pure (f, i)

/-- `DaysInMonth`. -/
def daysInMonth (year month : ℤ) : ℤ :=
  let leap := isLeapYear year
  dayFromMonth month leap - dayFromMonth (month - 1) leap

/-- `date_msecFromDate`. The milliseconds are truncated. -/
def msecFromDate (year mon mday hour min sec : ℤ) (msec : Binary64) : ℤ :=
  makeDate (makeDay year mon mday) (makeTime hour min sec msec.truncated)

/-- A field is out of its range. -/
def Fields.Invalid (f : Fields) : Prop :=
  f.year > 275943 ∨ (f.month = 0 ∨ f.month > 12) ∨
    (f.day = 0 ∨ (f.day : ℤ) > daysInMonth f.year f.month) ∨
    f.hour > 24 ∨ f.hour = 24 ∧ (f.min > 0 ∨ f.sec > 0) ∨ f.min > 59 ∨ f.sec > 59 ∨
    f.tzHour > 23 ∨ f.tzMin > 59

instance (f : Fields) : Decidable f.Invalid := by
  unfold Fields.Invalid
  infer_instance

/-- What follows `done`. -/
def finish (offset : ℤ → ℤ) (dtInfo : DateTimeInfo) (s : Chars) (f : Fields) (i : ℕ) : Except ScanFailure ℤ :=
  if f.Invalid then throw .syntaxError
  else if i ≠ s.length then throw .syntaxError
  else
    let msec := msecFromDate (f.dateMul * f.year) (f.month - 1) f.day f.hour f.min f.sec (f.frac * .ofNat 1000)
    let msec :=
      if f.isLocalTime then utc offset msec dtInfo
      else msec - f.tzMul * (f.tzHour * msPerHour + f.tzMin * msPerMinute)
    if msec < -8640000000000000 ∨ msec > 8640000000000000 then throw .syntaxError else pure msec

/-- `date_parseISOString`. -/
def parseISOString (offset : ℤ → ℤ) (s : Chars) (dtInfo : DateTimeInfo) : Except ScanFailure ℤ := do
  let (f, i) ← scanYear s {} 0
  let (f, i) ← scanMonth s f i
  let (f, i) ← scanTime s f i
  finish offset dtInfo s f i

/-! ## Printing -/

/-- The digits that `cvt_l` writes from the last one on. -/
def cvtDigits (num : ℕ) (cvt : Chars) : Chars :=
  if num = 0 then cvt else cvtDigits (num / 10) (UInt16.ofNat (0x30 + num % 10) :: cvt)

/-- `%d` with a positive precision, as `cvt_l` and `fill_n` do it. -/
def formatInt (prec : ℕ) (n : ℤ) : Chars :=
  let cvt := cvtDigits n.natAbs []
  let cvt := if cvt.length = 0 then [unit '0'] else cvt
  (if n < 0 then [unit '-'] else []) ++ List.replicate (prec - cvt.length) (unit '0') ++ cvt

/-- `print_iso_string`. -/
def printIsoString (utctime : ℤ) : Chars :=
  formatInt 4 (yearFromTime utctime) ++ unit '-' :: formatInt 2 (monthFromTime utctime + 1) ++
    unit '-' :: formatInt 2 (dateFromTime utctime) ++ unit 'T' :: formatInt 2 (hourFromTime utctime) ++
    unit ':' :: formatInt 2 (minFromTime utctime) ++ unit ':' :: formatInt 2 (secFromTime utctime) ++
    unit '.' :: formatInt 3 (msFromTime utctime) ++ [unit 'Z']

end SpiderMonkey.Vm.Date
