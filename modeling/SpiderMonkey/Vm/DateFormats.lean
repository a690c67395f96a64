import SpiderMonkey.Vm.DateFraction

/-!
# The formats of dates

A format is the date, the time or both, with the digits of every field. It has a text, and a meaning if its fields
are in range: the milliseconds since 1970, with the zone of the format taken into account.
-/

namespace SpiderMonkey.Vm.Date

/-! ## Digits -/

/-- The character of a digit. -/
def digitUnit (d : Fin 10) : UInt16 := UInt16.ofNat (0x30 + d.val)

/-- Digits as text. -/
def digitsText (ds : List (Fin 10)) : Chars := ds.map digitUnit

/-- As many digits as a field has. -/
structure Digits (n : ℕ) where
  digits : List (Fin 10)
  length_eq : digits.length = n

namespace Digits

variable {n : ℕ}

def text (ds : Digits n) : Chars := digitsText ds.digits

/-- The number that the digits are. -/
def value (ds : Digits n) : ℕ := digitsValue ds.digits

end Digits

/-! ## The formats -/

/-- A sign. -/
def signUnit (negative : Bool) : UInt16 := if negative then unit '-' else unit '+'

/-- `YYYY`, `+YYYYYY` or `-YYYYYY`. -/
inductive YearFormat where
  | basic (year : Digits 4)
  | expanded (negative : Bool) (year : Digits 6)

/-- Nothing, `-MM` or `-MM-DD`. -/
inductive MonthFormat where
  | missing
  | monthOnly (month : Digits 2)
  | complete (month day : Digits 2)

/-- Nothing, `:ss`, or `:ss.s` with one or more digits of a fraction. -/
inductive SecondsFormat where
  | missing
  | whole (sec : Digits 2)
  | fraction (sec : Digits 2) (frac : List (Fin 10)) (ne : frac ≠ [])

/-- `Z`, `+hh:mm` or `-hh:mm`, with or without the colon, or nothing for local time. -/
inductive ZoneFormat where
  | utc
  | shift (negative : Bool) (hour : Digits 2) (colon : Bool) (min : Digits 2)
  | missing

/-- The year, and perhaps the month and the day. -/
structure DateFormat where
  year : YearFormat
  month : MonthFormat

/-- `Thh:mm`, perhaps the seconds, and the zone. -/
structure TimeFormat where
  hour : Digits 2
  min : Digits 2
  seconds : SecondsFormat
  zone : ZoneFormat

/-- The date or the time can be missing. -/
inductive Format where
  | date (d : DateFormat)
  | time (t : TimeFormat)
  | dateTime (d : DateFormat) (t : TimeFormat)

/-! ## Texts -/

def YearFormat.text : YearFormat → Chars
  | basic year => year.text
  | expanded negative year => signUnit negative :: year.text

def MonthFormat.text : MonthFormat → Chars
  | missing => []
  | monthOnly month => unit '-' :: month.text
  | complete month day => unit '-' :: (month.text ++ unit '-' :: day.text)

def SecondsFormat.text : SecondsFormat → Chars
  | missing => []
  | whole sec => unit ':' :: sec.text
  | fraction sec frac _ => unit ':' :: (sec.text ++ unit '.' :: digitsText frac)

def ZoneFormat.text : ZoneFormat → Chars
  | utc => [unit 'Z']
  | shift negative hour colon min =>
    signUnit negative :: (hour.text ++ ((if colon then [unit ':'] else []) ++ min.text))
  | missing => []

def DateFormat.text (d : DateFormat) : Chars := d.year.text ++ d.month.text

def TimeFormat.text (t : TimeFormat) : Chars :=
  unit 'T' :: (t.hour.text ++ unit ':' :: (t.min.text ++ (t.seconds.text ++ t.zone.text)))

namespace Format

def text : Format → Chars
  | date d => d.text
  | time t => t.text
  | dateTime d t => d.text ++ t.text

/-! ## Fields -/

/-- The date, if there is one. -/
def dateFormat : Format → Option DateFormat
  | date d => some d
  | time _ => none
  | dateTime d _ => some d

/-- The time, if there is one. -/
def timeFormat : Format → Option TimeFormat
  | date _ => none
  | time t => some t
  | dateTime _ t => some t

def year (f : Format) : ℤ :=
  match f.dateFormat with
  | some ⟨.basic year, _⟩ => year.value
  | some ⟨.expanded negative year, _⟩ => if negative then -year.value else year.value
  | none => 1970

def month (f : Format) : ℕ :=
  match f.dateFormat with
  | some ⟨_, .monthOnly month⟩ => month.value
  | some ⟨_, .complete month _⟩ => month.value
  | _ => 1

def day (f : Format) : ℕ :=
  match f.dateFormat with
  | some ⟨_, .complete _ day⟩ => day.value
  | _ => 1

def hour (f : Format) : ℕ := f.timeFormat.elim 0 fun t => t.hour.value

def min (f : Format) : ℕ := f.timeFormat.elim 0 fun t => t.min.value

/-- The seconds, if there are any. -/
def seconds (f : Format) : SecondsFormat := f.timeFormat.elim .missing TimeFormat.seconds

def sec (f : Format) : ℕ :=
  match f.seconds with
  | .missing => 0
  | .whole sec => sec.value
  | .fraction sec _ _ => sec.value

/-- The digits of the fraction. -/
def fraction (f : Format) : List (Fin 10) :=
  match f.seconds with
  | .fraction _ frac _ => frac
  | _ => []

/-- The zone. Without a time it is that of Greenwich. -/
def zone (f : Format) : ZoneFormat := f.timeFormat.elim .utc TimeFormat.zone

def zoneHour (f : Format) : ℕ :=
  match f.zone with
  | .shift _ hour _ _ => hour.value
  | _ => 0

def zoneMin (f : Format) : ℕ :=
  match f.zone with
  | .shift _ _ _ min => min.value
  | _ => 0

/-- The zone has its colon, as in the formats of the note. -/
def Documented (f : Format) : Prop :=
  match f.zone with
  | .shift _ _ colon _ => colon
  | _ => True

/-! ## Meaning -/

/-- The number of days of a month from 1 to 12. -/
def monthLength (year : ℤ) (month : ℕ) : ℤ := (monthLengths year ++ [31]).getD (month - 1) 0

/-- Hour 24 has a fraction that is not zero. -/
def PastMidnight (f : Format) : Prop := f.hour = 24 ∧ ∃ d ∈ f.fraction, d ≠ 0

/-- Every field is in its range. Hour 24 is the end of the day. -/
def InRange (f : Format) : Prop :=
  (1 ≤ f.month ∧ f.month ≤ 12) ∧ (1 ≤ f.day ∧ f.day ≤ monthLength f.year f.month) ∧
    (f.hour ≤ 23 ∨ f.hour = 24 ∧ f.min = 0 ∧ f.sec = 0 ∧ ∀ d ∈ f.fraction, d = 0) ∧ f.min ≤ 59 ∧ f.sec ≤ 59 ∧
    f.zoneHour ≤ 23 ∧ f.zoneMin ≤ 59

instance (f : Format) : Decidable f.InRange := by
  unfold InRange
  infer_instance

/-- The days since 1970. -/
def dayNumber (f : Format) : ℤ :=
  dayFromYear f.year + ((monthLengths f.year).take (f.month - 1)).sum + (f.day - 1)

/-- The time of the format in its own zone, with the milliseconds of the fraction. -/
def zonedTime (f : Format) (ms : ℤ) : ℤ := (((f.dayNumber * 24 + f.hour) * 60 + f.min) * 60 + f.sec) * 1000 + ms

/-- The time of the format. Only a time without a zone is local. -/
def utcTime (f : Format) (toUTC : ℤ → ℤ) (ms : ℤ) : ℤ :=
  match f.zone with
  | .utc => f.zonedTime ms
  | .shift negative hour _ min =>
    f.zonedTime ms - (if negative then -1 else 1) * (hour.value * 60 + min.value) * 60000
  | .missing => toUTC (f.zonedTime ms)

end Format

end SpiderMonkey.Vm.Date
