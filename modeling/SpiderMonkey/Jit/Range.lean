import Mathlib

/-!
# Ion's numeric ranges

The `Range` class of range analysis and its arithmetic. A range keeps two int32 bounds,
each with a flag saying whether it is a real bound, a fraction flag and an exponent that
bounds the magnitude. The exponent has two special codes, for ranges with infinities and
for ranges with infinities and NaN.

Intermediate bounds are 64-bit in the source and never leave that range, so they are
integers here. A range is not required to satisfy `assertInvariants`: the constructors
can be applied to any fields.
-/

namespace SpiderMonkey.Jit

/-- The smallest int32. -/
def jsvalIntMin : ℤ := -2147483648

/-- The largest int32. -/
def jsvalIntMax : ℤ := 2147483647

/-- The sixty-four-bit value standing for a missing upper bound. -/
def noInt32UpperBound : ℤ := jsvalIntMax + 1

/-- The sixty-four-bit value standing for a missing lower bound. -/
def noInt32LowerBound : ℤ := jsvalIntMin - 1

/-- The exponent of the int32 of largest magnitude. -/
def maxInt32Exponent : ℕ := 31

/-- The largest exponent at which double operations lose no precision. -/
def maxTruncatableExponent : ℕ := 52

/-- The largest exponent of a finite double. -/
def maxFiniteExponent : ℕ := 1023

/-- The exponent code of ranges holding all non-NaN values. -/
def includesInfinity : ℕ := maxFiniteExponent + 1

/-- The exponent code of ranges holding all values. -/
def includesInfinityAndNaN : ℕ := 65535

/-- The stored fields of a range. -/
structure Range where
  lower : ℤ
  hasInt32LowerBound : Bool
  upper : ℤ
  hasInt32UpperBound : Bool
  canHaveFractionalPart : Bool
  maxExponent : ℕ
  deriving DecidableEq, Repr

namespace Range

/-- Whether both bounds are real, so that the value lies within the int32 bounds. -/
def hasInt32Bounds (r : Range) : Bool := r.hasInt32LowerBound && r.hasInt32UpperBound

/-- Whether every value is an int32. -/
def isInt32 (r : Range) : Bool := r.hasInt32Bounds && !r.canHaveFractionalPart

/-- Whether double arithmetic on the values can round. -/
def canHaveRoundingErrors (r : Range) : Bool :=
  r.canHaveFractionalPart || decide (maxTruncatableExponent ≤ r.maxExponent)

/-- Whether the bounds admit zero. -/
def canBeZero (r : Range) : Bool := decide (r.lower ≤ 0) && decide (0 ≤ r.upper)

/-- Whether the exponent code admits NaN. -/
def canBeNaN (r : Range) : Bool := r.maxExponent == includesInfinityAndNaN

/-- Whether the exponent code admits an infinity or NaN. -/
def canBeInfiniteOrNaN (r : Range) : Bool := decide (includesInfinity ≤ r.maxExponent)

/-- NaN is admitted by its own exponent code only. -/
theorem canBeNaN_iff (r : Range) : r.canBeNaN = true ↔ r.maxExponent = includesInfinityAndNaN := by
  simp [canBeNaN]

/-- The infinities are admitted from the first special exponent code on. -/
theorem canBeInfiniteOrNaN_iff (r : Range) :
    r.canBeInfiniteOrNaN = true ↔ includesInfinity ≤ r.maxExponent := by
  simp [canBeInfiniteOrNaN]

/-- The number of bits of the magnitude. -/
def numBits (r : Range) : ℕ := r.maxExponent + 1

/-- The exponent slack left by the fraction flag. -/
def exponentSlack (r : Range) : ℕ := r.maxExponent + r.canHaveFractionalPart.toNat

/-- An exponent is one of a finite value, or one of the two special codes. -/
def ExponentCode (e : ℕ) : Prop :=
  e ≤ maxFiniteExponent ∨ e = includesInfinity ∨ e = includesInfinityAndNaN

instance (e : ℕ) : Decidable (ExponentCode e) := inferInstanceAs (Decidable (_ ∨ _ ∨ _))

/-- Every exponent is at most the NaN code. -/
theorem ExponentCode.le {e : ℕ} (h : ExponentCode e) : e ≤ includesInfinityAndNaN := by
  rcases h with h | h | h
  · exact h.trans (by decide)
  · exact h.trans_le (by decide)
  · exact h.le

/-- The debug-mode consistency check of a range, with the int32 type of the stored bounds. -/
structure AssertInvariants (r : Range) : Prop where
  lower_int32 : jsvalIntMin ≤ r.lower
  upper_int32 : r.upper ≤ jsvalIntMax
  lower_le_upper : r.lower ≤ r.upper
  lower_eq : r.hasInt32LowerBound = false → r.lower = jsvalIntMin
  upper_eq : r.hasInt32UpperBound = false → r.upper = jsvalIntMax
  exponent_code : ExponentCode r.maxExponent
  missing_bound : r.hasInt32LowerBound = false ∨ r.hasInt32UpperBound = false →
    maxInt32Exponent ≤ r.exponentSlack
  upper_exponent : r.upper.natAbs.log2 ≤ r.exponentSlack
  lower_exponent : r.lower.natAbs.log2 ≤ r.exponentSlack

instance (r : Range) : Decidable r.AssertInvariants :=
  decidable_of_iff
    (jsvalIntMin ≤ r.lower ∧ r.upper ≤ jsvalIntMax ∧ r.lower ≤ r.upper ∧
      (r.hasInt32LowerBound = false → r.lower = jsvalIntMin) ∧
      (r.hasInt32UpperBound = false → r.upper = jsvalIntMax) ∧
      ExponentCode r.maxExponent ∧
      (r.hasInt32LowerBound = false ∨ r.hasInt32UpperBound = false →
        maxInt32Exponent ≤ r.exponentSlack) ∧
      r.upper.natAbs.log2 ≤ r.exponentSlack ∧ r.lower.natAbs.log2 ≤ r.exponentSlack)
    ⟨fun ⟨h1, h2, h3, h4, h5, h6, h7, h8, h9⟩ => ⟨h1, h2, h3, h4, h5, h6, h7, h8, h9⟩,
      fun ⟨h1, h2, h3, h4, h5, h6, h7, h8, h9⟩ => ⟨h1, h2, h3, h4, h5, h6, h7, h8, h9⟩⟩

/-- Clamp a sixty-four-bit lower bound to the stored bound and its flag. -/
def setLowerInit (r : Range) (x : ℤ) : Range :=
  if jsvalIntMax < x then { r with lower := jsvalIntMax, hasInt32LowerBound := true }
  else if x < jsvalIntMin then { r with lower := jsvalIntMin, hasInt32LowerBound := false }
  else { r with lower := x, hasInt32LowerBound := true }

/-- Clamp a sixty-four-bit upper bound to the stored bound and its flag. -/
def setUpperInit (r : Range) (x : ℤ) : Range :=
  if jsvalIntMax < x then { r with upper := jsvalIntMax, hasInt32UpperBound := false }
  else if x < jsvalIntMin then { r with upper := jsvalIntMin, hasInt32UpperBound := true }
  else { r with upper := x, hasInt32UpperBound := true }

/-- The least exponent compatible with both bounds. -/
def exponentImpliedByInt32Bounds (r : Range) : ℕ :=
  (max r.lower.natAbs r.upper.natAbs).log2

/-- Tighten integer bounds to the magnitude the exponent allows. -/
def refineInt32BoundsByExponent (e : ℕ) (l h : ℤ) : ℤ × ℤ :=
  if e < maxInt32Exponent then
    let limit : ℤ := 2 ^ (e + 1) - 1
    (max l (-limit), min h limit)
  else (l, h)

/-- Lower the exponent to the one the bounds imply. -/
def optimizeExponent (r : Range) : Range :=
  if r.exponentImpliedByInt32Bounds < r.maxExponent then
    { r with maxExponent := r.exponentImpliedByInt32Bounds }
  else r

/-- Drop the fraction flag of a range with a single value. -/
def optimizeFraction (r : Range) : Range :=
  if r.canHaveFractionalPart && r.lower == r.upper then { r with canHaveFractionalPart := false }
  else r

/-- Let every field that implies a stronger value of another field update it. -/
def optimize (r : Range) : Range :=
  if r.hasInt32Bounds then r.optimizeExponent.optimizeFraction else r

/-- Set the fields to the given raw values. -/
def rawInitialize (l : ℤ) (lb : Bool) (h : ℤ) (hb : Bool) (f : Bool) (e : ℕ) : Range :=
  optimize ⟨l, lb, h, hb, f, e⟩

/-- Set the fields from sixty-four-bit bounds, a fraction flag and an exponent. -/
def set (l h : ℤ) (f : Bool) (e : ℕ) : Range :=
  (((⟨0, false, 0, false, f, e⟩ : Range).setLowerInit l).setUpperInit h).optimize

/-- The range of all values. -/
def unknown : Range := set noInt32LowerBound noInt32UpperBound true includesInfinityAndNaN

/-- Intersect two optional constraints: the emptiness report and the resulting constraint. -/
def intersect : Option Range → Option Range → Bool × Option Range
  | none, none => (false, none)
  | none, some rhs => (false, some rhs)
  | some lhs, none => (false, some lhs)
  | some lhs, some rhs =>
    let newLower := max lhs.lower rhs.lower
    let newUpper := min lhs.upper rhs.upper
    -- Conflicting constraints; NaN may still satisfy both.
    if newUpper < newLower then (!lhs.canBeNaN || !rhs.canBeNaN, none)
    else
      let newHasInt32LowerBound := lhs.hasInt32LowerBound || rhs.hasInt32LowerBound
      let newHasInt32UpperBound := lhs.hasInt32UpperBound || rhs.hasInt32UpperBound
      let newFractional := lhs.canHaveFractionalPart && rhs.canHaveFractionalPart
      let newExponent := min lhs.maxExponent rhs.maxExponent
      if newHasInt32LowerBound && newHasInt32UpperBound && newExponent == includesInfinityAndNaN then
        (false, none)
      else if lhs.canHaveFractionalPart != rhs.canHaveFractionalPart ||
          (lhs.canHaveFractionalPart && newHasInt32LowerBound && newHasInt32UpperBound &&
            newLower == newUpper) then
        let refined := refineInt32BoundsByExponent newExponent newLower newUpper
        if refined.2 < refined.1 then (true, none)
        else (false, some (rawInitialize refined.1 newHasInt32LowerBound refined.2
          newHasInt32UpperBound newFractional newExponent))
      else (false, some (rawInitialize newLower newHasInt32LowerBound newUpper
          newHasInt32UpperBound newFractional newExponent))

/-- Widen a range to hold the values of another. -/
def unionWith (r other : Range) : Range :=
  rawInitialize (min r.lower other.lower) (r.hasInt32LowerBound && other.hasInt32LowerBound)
    (max r.upper other.upper) (r.hasInt32UpperBound && other.hasInt32UpperBound)
    (r.canHaveFractionalPart || other.canHaveFractionalPart)
    (max r.maxExponent other.maxExponent)

/-- Whether any of the four bounds of two ranges is missing. -/
def missingAnyInt32Bounds (lhs rhs : Range) : Bool :=
  !lhs.hasInt32LowerBound || !lhs.hasInt32UpperBound ||
    !rhs.hasInt32LowerBound || !rhs.hasInt32UpperBound

/-- The exponent of a sum or difference. -/
def addExponent (lhs rhs : Range) : ℕ :=
  if lhs.canBeInfiniteOrNaN && rhs.canBeInfiniteOrNaN then includesInfinityAndNaN
  else
    let e := max lhs.maxExponent rhs.maxExponent
    if e ≤ maxFiniteExponent then e + 1 else e

/-- The range of a sum. -/
protected def add (lhs rhs : Range) : Range :=
  let l := if !lhs.hasInt32LowerBound || !rhs.hasInt32LowerBound then noInt32LowerBound
    else lhs.lower + rhs.lower
  let h := if !lhs.hasInt32UpperBound || !rhs.hasInt32UpperBound then noInt32UpperBound
    else lhs.upper + rhs.upper
  set l h (lhs.canHaveFractionalPart || rhs.canHaveFractionalPart) (addExponent lhs rhs)

/-- The range of a difference. -/
protected def sub (lhs rhs : Range) : Range :=
  let l := if !lhs.hasInt32LowerBound || !rhs.hasInt32UpperBound then noInt32LowerBound
    else lhs.lower - rhs.upper
  let h := if !lhs.hasInt32UpperBound || !rhs.hasInt32LowerBound then noInt32UpperBound
    else lhs.upper - rhs.lower
  set l h (lhs.canHaveFractionalPart || rhs.canHaveFractionalPart) (addExponent lhs rhs)

/-- The exponent of a product. -/
def mulExponent (lhs rhs : Range) : ℕ :=
  if !lhs.canBeInfiniteOrNaN && !rhs.canBeInfiniteOrNaN then
    let exponent := lhs.numBits + rhs.numBits - 1
    if maxFiniteExponent < exponent then includesInfinity else exponent
  else if !lhs.canBeNaN && !rhs.canBeNaN && !(lhs.canBeZero && rhs.canBeInfiniteOrNaN) &&
      !(rhs.canBeZero && lhs.canBeInfiniteOrNaN) then
    includesInfinity
  else includesInfinityAndNaN

/-- The range of a product. -/
protected def mul (lhs rhs : Range) : Range :=
  let fractional := lhs.canHaveFractionalPart || rhs.canHaveFractionalPart
  let exponent := mulExponent lhs rhs
  if missingAnyInt32Bounds lhs rhs then
    set noInt32LowerBound noInt32UpperBound fractional exponent
  else
    let a := lhs.lower * rhs.lower
    let b := lhs.lower * rhs.upper
    let c := lhs.upper * rhs.lower
    let d := lhs.upper * rhs.upper
    set (min (min a b) (min c d)) (max (max a b) (max c d)) fractional exponent

/-- The range of an absolute value; the negation of the least int32 is clamped. -/
protected def abs (op : Range) : Range :=
  let l := op.lower
  let u := op.upper
  rawInitialize (max (max 0 l) (if u = jsvalIntMin then jsvalIntMax else -u)) true
    (max (max 0 u) (if l = jsvalIntMin then jsvalIntMax else -l))
    (op.hasInt32LowerBound && op.hasInt32UpperBound && l != jsvalIntMin)
    op.canHaveFractionalPart op.maxExponent

/-- The range of the smaller operand, unless an operand can be NaN. -/
protected def min (lhs rhs : Range) : Option Range :=
  if lhs.canBeNaN || rhs.canBeNaN then none
  else some (rawInitialize (min lhs.lower rhs.lower)
    (lhs.hasInt32LowerBound && rhs.hasInt32LowerBound) (min lhs.upper rhs.upper)
    (lhs.hasInt32UpperBound || rhs.hasInt32UpperBound)
    (lhs.canHaveFractionalPart || rhs.canHaveFractionalPart)
    (max lhs.maxExponent rhs.maxExponent))

/-- The range of the larger operand, unless an operand can be NaN. -/
protected def max (lhs rhs : Range) : Option Range :=
  if lhs.canBeNaN || rhs.canBeNaN then none
  else some (rawInitialize (max lhs.lower rhs.lower)
    (lhs.hasInt32LowerBound || rhs.hasInt32LowerBound) (max lhs.upper rhs.upper)
    (lhs.hasInt32UpperBound && rhs.hasInt32UpperBound)
    (lhs.canHaveFractionalPart || rhs.canHaveFractionalPart)
    (max lhs.maxExponent rhs.maxExponent))

end Range

end SpiderMonkey.Jit
