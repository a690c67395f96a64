import SpiderMonkey.Lib.Windows

/-!
# The cache of daylight saving time offsets

The offset is computed in the local time zone, which is slow. The cache keeps two ranges of seconds
with an offset each. A query near the current range tries to extend it by thirty days, since the
offset does not change twice in so short a time.

Seconds and milliseconds are integers. No sum here leaves the range of `int64_t`: what is added to is a
second that a query can ask for, or the sentinel, to which a positive amount is added. The source divides by
`msPerSecond` in floating point. The rounding there cannot reach the next second before the quotient
passes `2 ^ 44`, where each query is clamped.
-/

namespace SpiderMonkey.Vm

/-- Milliseconds in a second. -/
def msPerSecond : ℤ := 1000

/-- Seconds in a minute. -/
def secondsPerMinute : ℤ := 60

/-- Seconds in an hour. -/
def secondsPerHour : ℤ := 60 * 60

/-- Seconds in a day. -/
def secondsPerDay : ℤ := secondsPerHour * 24

/-- The last second whose offset is computed. -/
def maxUnixTimeT : ℤ := 2145859200

/-- How far a range is extended at a time. -/
def rangeExpansionAmount : ℤ := 30 * secondsPerDay

/-- The ends of a range that holds no second. -/
def int64Min : ℤ := -2 ^ 63

/-- A time of day, as `localtime` breaks it down. -/
structure LocalTime where
  sec : ℤ
  min : ℤ
  hour : ℤ

/-- The offset at a second, by the local time of day and the one without daylight saving time. -/
def computeDSTOffsetMilliseconds (localtime : ℤ → Option LocalTime)
    (utcToLocalStandardOffsetSeconds utcSeconds : ℤ) : ℤ :=
  match localtime utcSeconds with
  | none => 0
  | some tm =>
    let dayoff := (utcSeconds + utcToLocalStandardOffsetSeconds).tmod secondsPerDay
    let tmoff := tm.sec + tm.min * secondsPerMinute + tm.hour * secondsPerHour
    let diff := tmoff - dayoff
    let diff := if diff < 0 then diff + secondsPerDay else diff
    diff * msPerSecond

/-- The adjustment to the local time zone, which is not a number at first, and the two ranges. -/
structure DateTimeInfo where
  localTZA : Option ℤ
  offsetMilliseconds : ℤ
  rangeStartSeconds : ℤ
  rangeEndSeconds : ℤ
  oldOffsetMilliseconds : ℤ
  oldRangeStartSeconds : ℤ
  oldRangeEndSeconds : ℤ
  deriving DecidableEq

namespace DateTimeInfo

/-- Empty the cache if the standard offset is a new one. -/
def updateTimeZoneAdjustment (utcToLocalStandardOffsetSeconds : ℤ) (d : DateTimeInfo) :
    DateTimeInfo :=
  let newTZA := utcToLocalStandardOffsetSeconds * msPerSecond
  if some newTZA = d.localTZA then d
  else
    { localTZA := some newTZA
      offsetMilliseconds := 0
      rangeStartSeconds := int64Min
      rangeEndSeconds := int64Min
      oldOffsetMilliseconds := 0
      oldRangeStartSeconds := int64Min
      oldRangeEndSeconds := int64Min }

/-- The second that a query asks for, brought to where offsets are computed. -/
def clampSeconds (utcMilliseconds : ℤ) : ℤ :=
  let utcSeconds := utcMilliseconds.tdiv msPerSecond
  if utcSeconds > maxUnixTimeT then maxUnixTimeT
  -- Go ahead a day to make `localtime` work.
  else if utcSeconds < 0 then secondsPerDay
  else utcSeconds

/-- The current range becomes the old one. -/
def saveRange (d : DateTimeInfo) : DateTimeInfo :=
  { d with
    oldOffsetMilliseconds := d.offsetMilliseconds
    oldRangeStartSeconds := d.rangeStartSeconds
    oldRangeEndSeconds := d.rangeEndSeconds }

/-- A miss at a second after the start of the current range. -/
def extendForwards (offset : ℤ → ℤ) (utcSeconds : ℤ) (d : DateTimeInfo) : DateTimeInfo :=
  let newEndSeconds := min (d.rangeEndSeconds + rangeExpansionAmount) maxUnixTimeT
  if newEndSeconds ≥ utcSeconds then
    let endOffsetMilliseconds := offset newEndSeconds
    if endOffsetMilliseconds = d.offsetMilliseconds then
      { d with rangeEndSeconds := newEndSeconds }
    else
      let offsetMilliseconds := offset utcSeconds
      if offsetMilliseconds = endOffsetMilliseconds then
        { d with
          offsetMilliseconds
          rangeStartSeconds := utcSeconds
          rangeEndSeconds := newEndSeconds }
      else
        { d with
          offsetMilliseconds
          rangeEndSeconds := utcSeconds }
  else
    { d with
      offsetMilliseconds := offset utcSeconds
      rangeStartSeconds := utcSeconds
      rangeEndSeconds := utcSeconds }

/-- A miss at a second before the current range. -/
def extendBackwards (offset : ℤ → ℤ) (utcSeconds : ℤ) (d : DateTimeInfo) : DateTimeInfo :=
  let newStartSeconds := max (d.rangeStartSeconds - rangeExpansionAmount) 0
  if newStartSeconds ≤ utcSeconds then
    let startOffsetMilliseconds := offset newStartSeconds
    if startOffsetMilliseconds = d.offsetMilliseconds then
      { d with rangeStartSeconds := newStartSeconds }
    else
      let offsetMilliseconds := offset utcSeconds
      if offsetMilliseconds = startOffsetMilliseconds then
        { d with
          offsetMilliseconds
          rangeStartSeconds := newStartSeconds
          rangeEndSeconds := utcSeconds }
      else
        { d with
          offsetMilliseconds
          rangeStartSeconds := utcSeconds }
  else
    { d with
      offsetMilliseconds := offset utcSeconds
      rangeStartSeconds := utcSeconds
      rangeEndSeconds := utcSeconds }

/-- The offset at a time, from one of the ranges where possible. -/
def getDSTOffsetMilliseconds (offset : ℤ → ℤ) (utcMilliseconds : ℤ) (d : DateTimeInfo) :
    ℤ × DateTimeInfo :=
  let utcSeconds := clampSeconds utcMilliseconds
  if d.rangeStartSeconds ≤ utcSeconds ∧ utcSeconds ≤ d.rangeEndSeconds then
    (d.offsetMilliseconds, d)
  else if d.oldRangeStartSeconds ≤ utcSeconds ∧ utcSeconds ≤ d.oldRangeEndSeconds then
    (d.oldOffsetMilliseconds, d)
  else
    let d :=
      if d.rangeStartSeconds ≤ utcSeconds then extendForwards offset utcSeconds d.saveRange
      else extendBackwards offset utcSeconds d.saveRange
    (d.offsetMilliseconds, d)

/-- The answers to a sequence of queries, and the cache after it. -/
def queryAll (offset : ℤ → ℤ) : List ℤ → DateTimeInfo → List ℤ × DateTimeInfo
  | [], d => ([], d)
  | utcMilliseconds :: rest, d =>
    let (answer, d) := getDSTOffsetMilliseconds offset utcMilliseconds d
    let (answers, d) := queryAll offset rest d
    (answer :: answers, d)

/-- A range is what the cache makes at first, or holds seconds whose offset is the cached one. The
second case has what `sanityCheck` asserts. -/
def RangeSound (offset : ℤ → ℤ) (start stop offsetMilliseconds : ℤ) : Prop :=
  start = int64Min ∧ stop = int64Min ∨
    0 ≤ start ∧ start ≤ stop ∧ stop ≤ maxUnixTimeT ∧ HasValueOn offset offsetMilliseconds start stop

/-- Both ranges are sound. -/
structure Sound (offset : ℤ → ℤ) (d : DateTimeInfo) : Prop where
  current : RangeSound offset d.rangeStartSeconds d.rangeEndSeconds d.offsetMilliseconds
  old : RangeSound offset d.oldRangeStartSeconds d.oldRangeEndSeconds d.oldOffsetMilliseconds

/-- A second that a query can ask for. -/
theorem clampSeconds_mem (utcMilliseconds : ℤ) :
    0 ≤ clampSeconds utcMilliseconds ∧ clampSeconds utcMilliseconds ≤ maxUnixTimeT := by
  unfold clampSeconds
  simp only [maxUnixTimeT, secondsPerDay, secondsPerHour]
  split_ifs <;> omega

variable {offset : ℤ → ℤ} {d : DateTimeInfo} {utcSeconds : ℤ}

/-- A hit in a sound range. -/
theorem RangeSound.hit {start stop v : ℤ} (h : RangeSound offset start stop v)
    (hnonneg : 0 ≤ utcSeconds) (hin : start ≤ utcSeconds ∧ utcSeconds ≤ stop) :
    v = offset utcSeconds := by
  cases h with
  | inl hnone => simp only [hnone, int64Min] at hin; omega
  | inr hsome => exact (hsome.2.2.2 utcSeconds hin.1 hin.2).symm

/-- A range of one second. -/
theorem rangeSound_single (hmem : 0 ≤ utcSeconds ∧ utcSeconds ≤ maxUnixTimeT) :
    RangeSound offset utcSeconds utcSeconds (offset utcSeconds) :=
  .inr ⟨hmem.1, le_rfl, hmem.2, hasValueOn_self offset utcSeconds⟩

/-- Two points that are no further apart than a range is extended. -/
theorem atMostOnce_near (h : ChangesOncePer offset rangeExpansionAmount 0 maxUnixTimeT) {a b : ℤ}
    (ha : 0 ≤ a) (hb : b ≤ maxUnixTimeT) (hab : b ≤ a + rangeExpansionAmount) :
    ChangesAtMostOnce offset a b :=
  h.atMostOnce (by decide) ha hb hab

/-- A range can only be extended forwards if it holds seconds. -/
theorem RangeSound.of_near {start stop v : ℤ} (h : RangeSound offset start stop v)
    (hnonneg : 0 ≤ utcSeconds) (hnear : utcSeconds ≤ stop + rangeExpansionAmount) :
    0 ≤ start ∧ start ≤ stop ∧ stop ≤ maxUnixTimeT ∧ HasValueOn offset v start stop := by
  cases h with
  | inl hnone =>
    rw [hnone.2, int64Min, rangeExpansionAmount, secondsPerDay, secondsPerHour] at hnear
    omega
  | inr hsome => exact hsome

/-- Forwards, the range stays sound and gets the second. -/
theorem extendForwards_sound (h : ChangesOncePer offset rangeExpansionAmount 0 maxUnixTimeT)
    (hmem : 0 ≤ utcSeconds ∧ utcSeconds ≤ maxUnixTimeT)
    (hd : RangeSound offset d.rangeStartSeconds d.rangeEndSeconds d.offsetMilliseconds)
    (hstop : d.rangeEndSeconds < utcSeconds) :
    let d' := extendForwards offset utcSeconds d
    RangeSound offset d'.rangeStartSeconds d'.rangeEndSeconds d'.offsetMilliseconds ∧
      d'.offsetMilliseconds = offset utcSeconds := by
  unfold extendForwards
  dsimp only
  by_cases hnear : min (d.rangeEndSeconds + rangeExpansionAmount) maxUnixTimeT ≥ utcSeconds
  case neg =>
    rw [if_neg hnear]
    exact ⟨rangeSound_single hmem, rfl⟩
  rw [if_pos hnear]
  obtain ⟨hnonneg, hle, hmax, hvalue⟩ := hd.of_near hmem.1 (hnear.trans (min_le_left _ _))
  -- The offset changes at most once from the old end of the range to the new one.
  generalize hnew : min (d.rangeEndSeconds + rangeExpansionAmount) maxUnixTimeT = newEnd at hnear ⊢
  have hnewMax : newEnd ≤ maxUnixTimeT := hnew ▸ min_le_right _ _
  have honce : ChangesAtMostOnce offset d.rangeEndSeconds newEnd :=
    atMostOnce_near h (hnonneg.trans hle) hnewMax (hnew ▸ min_le_left _ _)
  have hend : offset d.rangeEndSeconds = d.offsetMilliseconds := hvalue _ hle le_rfl
  split_ifs with hsame hutc
  · have hrest := honce.hasValueOn (hend.trans hsame.symm)
    rw [hend] at hrest
    have hall := hvalue.append hrest
    have hin : d.rangeStartSeconds ≤ utcSeconds := hle.trans hstop.le
    exact ⟨.inr ⟨hnonneg, hin.trans hnear, hnewMax, hall⟩, (hall utcSeconds hin hnear).symm⟩
  · have hrest := honce.hasValueOn_right hstop.le hnear fun hequal =>
      hsame (hutc.symm.trans (hequal.trans hend))
    exact ⟨.inr ⟨hmem.1, hnear, hnewMax, hrest⟩, rfl⟩
  · have hrest := honce.hasValueOn_left hstop.le hnear hutc
    have hsecond : offset utcSeconds = d.offsetMilliseconds :=
      (hrest utcSeconds hstop.le le_rfl).trans hend
    rw [hend, ← hsecond] at hrest
    rw [← hsecond] at hvalue
    exact ⟨.inr ⟨hnonneg, hle.trans hstop.le, hmem.2, hvalue.append hrest⟩, rfl⟩

/-- Backwards, the range stays sound and gets the second. -/
theorem extendBackwards_sound (h : ChangesOncePer offset rangeExpansionAmount 0 maxUnixTimeT)
    (hmem : 0 ≤ utcSeconds ∧ utcSeconds ≤ maxUnixTimeT)
    (hd : RangeSound offset d.rangeStartSeconds d.rangeEndSeconds d.offsetMilliseconds)
    (hstart : utcSeconds < d.rangeStartSeconds) :
    let d' := extendBackwards offset utcSeconds d
    RangeSound offset d'.rangeStartSeconds d'.rangeEndSeconds d'.offsetMilliseconds ∧
      d'.offsetMilliseconds = offset utcSeconds := by
  unfold extendBackwards
  dsimp only
  by_cases hnear : max (d.rangeStartSeconds - rangeExpansionAmount) 0 ≤ utcSeconds
  case neg =>
    rw [if_neg hnear]
    exact ⟨rangeSound_single hmem, rfl⟩
  rw [if_pos hnear]
  have hsome : 0 ≤ d.rangeStartSeconds ∧ d.rangeStartSeconds ≤ d.rangeEndSeconds ∧
      d.rangeEndSeconds ≤ maxUnixTimeT ∧
      HasValueOn offset d.offsetMilliseconds d.rangeStartSeconds d.rangeEndSeconds := by
    cases hd with
    | inl hnone => rw [hnone.1, int64Min] at hstart; omega
    | inr hsome => exact hsome
  obtain ⟨hnonneg, hle, hmax, hvalue⟩ := hsome
  -- The offset changes at most once from the new start of the range to the old one.
  generalize hnew : max (d.rangeStartSeconds - rangeExpansionAmount) 0 = newStart at hnear ⊢
  have hnewNonneg : 0 ≤ newStart := hnew ▸ le_max_right _ _
  have hnewNear : d.rangeStartSeconds - rangeExpansionAmount ≤ newStart := hnew ▸ le_max_left _ _
  have honce : ChangesAtMostOnce offset newStart d.rangeStartSeconds :=
    atMostOnce_near h hnewNonneg (hle.trans hmax) (by omega)
  have hfirst : offset d.rangeStartSeconds = d.offsetMilliseconds := hvalue _ le_rfl hle
  split_ifs with hsame hutc
  · have hrest := honce.hasValueOn (hsame.trans hfirst.symm)
    rw [hsame] at hrest
    have hall := hrest.append hvalue
    have hin : utcSeconds ≤ d.rangeEndSeconds := hstart.le.trans hle
    exact ⟨.inr ⟨hnewNonneg, hnear.trans hin, hmax, hall⟩, (hall utcSeconds hnear hin).symm⟩
  · have hrest := honce.hasValueOn_left hnear hstart.le fun hequal =>
      hsame (hutc.symm.trans (hequal.trans hfirst))
    rw [← hutc] at hrest
    exact ⟨.inr ⟨hnewNonneg, hnear, hmem.2, hrest⟩, rfl⟩
  · have hrest := honce.hasValueOn_right hnear hstart.le hutc
    have hsecond : offset utcSeconds = d.offsetMilliseconds :=
      (hrest d.rangeStartSeconds hstart.le le_rfl).symm.trans hfirst
    rw [← hsecond] at hvalue
    exact ⟨.inr ⟨hmem.1, hstart.le.trans hle, hmax, hrest.append hvalue⟩, rfl⟩

/-- A miss moves the old range out of the way, and leaves it alone after that. -/
theorem extendForwards_old (offset : ℤ → ℤ) (utcSeconds : ℤ) (d : DateTimeInfo) :
    let d' := extendForwards offset utcSeconds d
    d'.oldRangeStartSeconds = d.oldRangeStartSeconds ∧
      d'.oldRangeEndSeconds = d.oldRangeEndSeconds ∧
      d'.oldOffsetMilliseconds = d.oldOffsetMilliseconds := by
  unfold extendForwards
  dsimp only
  split_ifs <;> exact ⟨rfl, rfl, rfl⟩

/-- Backwards as forwards. -/
theorem extendBackwards_old (offset : ℤ → ℤ) (utcSeconds : ℤ) (d : DateTimeInfo) :
    let d' := extendBackwards offset utcSeconds d
    d'.oldRangeStartSeconds = d.oldRangeStartSeconds ∧
      d'.oldRangeEndSeconds = d.oldRangeEndSeconds ∧
      d'.oldOffsetMilliseconds = d.oldOffsetMilliseconds := by
  unfold extendBackwards
  dsimp only
  split_ifs <;> exact ⟨rfl, rfl, rfl⟩

/-- The ranges after a miss. -/
theorem sound_of_miss (hd : Sound offset d) {d' : DateTimeInfo}
    (hold : d'.oldRangeStartSeconds = d.saveRange.oldRangeStartSeconds ∧
      d'.oldRangeEndSeconds = d.saveRange.oldRangeEndSeconds ∧
      d'.oldOffsetMilliseconds = d.saveRange.oldOffsetMilliseconds)
    (hcurrent : RangeSound offset d'.rangeStartSeconds d'.rangeEndSeconds d'.offsetMilliseconds) :
    Sound offset d' := by
  refine ⟨hcurrent, ?_⟩
  rw [hold.1, hold.2.1, hold.2.2]
  exact hd.current

/-- A query gives the offset, and keeps the ranges sound. -/
theorem getDSTOffsetMilliseconds_sound
    (h : ChangesOncePer offset rangeExpansionAmount 0 maxUnixTimeT) (hd : Sound offset d)
    (utcMilliseconds : ℤ) :
    let r := getDSTOffsetMilliseconds offset utcMilliseconds d
    r.1 = offset (clampSeconds utcMilliseconds) ∧ Sound offset r.2 := by
  have hmem := clampSeconds_mem utcMilliseconds
  unfold getDSTOffsetMilliseconds
  generalize clampSeconds utcMilliseconds = utcSeconds at hmem ⊢
  dsimp only
  split_ifs with hhit hold hforwards
  · exact ⟨hd.current.hit hmem.1 hhit, hd⟩
  · exact ⟨hd.old.hit hmem.1 hold, hd⟩
  · have hstop : d.rangeEndSeconds < utcSeconds := not_le.mp fun hle => hhit ⟨hforwards, hle⟩
    have hnew := extendForwards_sound (d := d.saveRange) h hmem hd.current hstop
    exact ⟨hnew.2, sound_of_miss hd (extendForwards_old offset utcSeconds d.saveRange) hnew.1⟩
  · have hnew := extendBackwards_sound (d := d.saveRange) h hmem hd.current (not_le.mp hforwards)
    exact ⟨hnew.2, sound_of_miss hd (extendBackwards_old offset utcSeconds d.saveRange) hnew.1⟩

/-- Queries give the offsets, and keep the ranges sound. -/
theorem queryAll_sound (h : ChangesOncePer offset rangeExpansionAmount 0 maxUnixTimeT)
    (hd : Sound offset d) (times : List ℤ) :
    let r := queryAll offset times d
    r.1 = times.map (fun time => offset (clampSeconds time)) ∧ Sound offset r.2 := by
  induction times generalizing d with
  | nil => exact ⟨rfl, hd⟩
  | cons time rest ih =>
    have hquery := getDSTOffsetMilliseconds_sound h hd time
    have hrest := ih hquery.2
    exact ⟨congrArg₂ List.cons hquery.1 hrest.1, hrest.2⟩

/-- The ranges are sound when the cache was just emptied. -/
theorem sound_updateTimeZoneAdjustment {standardOffset : ℤ}
    (hnew : d.localTZA ≠ some (standardOffset * msPerSecond)) :
    Sound offset (updateTimeZoneAdjustment standardOffset d) := by
  unfold updateTimeZoneAdjustment
  rw [if_neg (Ne.symm hnew)]
  exact ⟨.inl ⟨rfl, rfl⟩, .inl ⟨rfl, rfl⟩⟩

/-- After the cache was emptied, all queries give the offsets, and leave the ranges sound. -/
theorem dstOffsetCache_transparent {standardOffset : ℤ}
    (h : ChangesOncePer offset rangeExpansionAmount 0 maxUnixTimeT)
    (hnew : d.localTZA ≠ some (standardOffset * msPerSecond)) (times : List ℤ) :
    let r := queryAll offset times (updateTimeZoneAdjustment standardOffset d)
    r.1 = times.map (fun time => offset (clampSeconds time)) ∧ Sound offset r.2 :=
  queryAll_sound h (sound_updateTimeZoneAdjustment hnew) times

/-- Time goes forward an hour after a million seconds. The queries are on both sides of the change, in
and out of the ranges, and beyond both ends. -/
theorem dstOffsetCache_transparent_oneChange :
    let offset : ℤ → ℤ := fun t => if t < 1000000 then 0 else 3600000
    let d : DateTimeInfo := ⟨none, 0, 0, 0, 0, 0, 0⟩
    let times := [0, 1500000000, 999999999, -1, 9000000000000000, 2000000000]
    let r := queryAll offset times (updateTimeZoneAdjustment (-28800) d)
    r.1 = times.map (fun time => offset (clampSeconds time)) ∧ Sound offset r.2 := by
  intro offset d times
  have hchange : ∀ s, ChangesAt offset s → s = 999999 := by
    intro s hs
    by_contra hne
    refine hs ?_
    change (if s < 1000000 then (0 : ℤ) else 3600000) = if s + 1 < 1000000 then 0 else 3600000
    split_ifs <;> first | rfl | omega
  have honce : ChangesOncePer offset rangeExpansionAmount 0 maxUnixTimeT := by
    intro a _ _ s t _ _ _ _ hs ht
    rw [hchange s hs, hchange t ht]
  exact dstOffsetCache_transparent honce (by decide) times

/-- Forwards, offsets are computed only where `computeDSTOffsetMilliseconds` allows. -/
theorem extendForwards_congr {offset' : ℤ → ℤ}
    (hagree : ∀ t, 0 ≤ t → t ≤ maxUnixTimeT → offset t = offset' t)
    (hmem : 0 ≤ utcSeconds ∧ utcSeconds ≤ maxUnixTimeT) :
    extendForwards offset utcSeconds d = extendForwards offset' utcSeconds d := by
  unfold extendForwards
  dsimp only
  rw [hagree utcSeconds hmem.1 hmem.2]
  by_cases hnear : min (d.rangeEndSeconds + rangeExpansionAmount) maxUnixTimeT ≥ utcSeconds
  · rw [if_pos hnear, if_pos hnear, hagree _ (hmem.1.trans hnear) (min_le_right _ _)]
  · rw [if_neg hnear, if_neg hnear]

/-- Backwards as forwards. -/
theorem extendBackwards_congr {offset' : ℤ → ℤ}
    (hagree : ∀ t, 0 ≤ t → t ≤ maxUnixTimeT → offset t = offset' t)
    (hmem : 0 ≤ utcSeconds ∧ utcSeconds ≤ maxUnixTimeT) :
    extendBackwards offset utcSeconds d = extendBackwards offset' utcSeconds d := by
  unfold extendBackwards
  dsimp only
  rw [hagree utcSeconds hmem.1 hmem.2]
  by_cases hnear : max (d.rangeStartSeconds - rangeExpansionAmount) 0 ≤ utcSeconds
  · rw [if_pos hnear, if_pos hnear, hagree _ (le_max_right _ _) (hnear.trans hmem.2)]
  · rw [if_neg hnear, if_neg hnear]

/-- All queries compute offsets only where `computeDSTOffsetMilliseconds` allows. -/
theorem queryAll_congr {offset' : ℤ → ℤ}
    (hagree : ∀ t, 0 ≤ t → t ≤ maxUnixTimeT → offset t = offset' t) (times : List ℤ) :
    queryAll offset times d = queryAll offset' times d := by
  induction times generalizing d with
  | nil => rfl
  | cons time rest ih =>
    have hmem := clampSeconds_mem time
    have hquery : getDSTOffsetMilliseconds offset time d =
        getDSTOffsetMilliseconds offset' time d := by
      unfold getDSTOffsetMilliseconds
      dsimp only
      rw [extendForwards_congr hagree hmem, extendBackwards_congr hagree hmem]
    simp only [queryAll, hquery, ih]

/-- So the local time is never asked for at another second. -/
theorem queryAll_localtime {localtime localtime' : ℤ → Option LocalTime} (standardOffset : ℤ)
    (hagree : ∀ t, 0 ≤ t → t ≤ maxUnixTimeT → localtime t = localtime' t) (times : List ℤ) :
    queryAll (computeDSTOffsetMilliseconds localtime standardOffset) times d =
      queryAll (computeDSTOffsetMilliseconds localtime' standardOffset) times d := by
  apply queryAll_congr
  intro t hnonneg hmax
  rw [computeDSTOffsetMilliseconds, computeDSTOffsetMilliseconds, hagree t hnonneg hmax]

end DateTimeInfo

end SpiderMonkey.Vm
