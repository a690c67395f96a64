import SpiderMonkey.Jit.RangeSound
import SpiderMonkey.Lib.Binary64

/-!
# Ranges from doubles, and ranges made int32

`setDouble` infers every field of a range from two end points, either of which may be infinite or NaN. The
operations that turn a range into one of int32 values clamp it or let it wrap around.
-/

namespace SpiderMonkey

namespace Binary64

/-- The number that a double denotes. Both zeros denote zero. -/
def value : Binary64 → ExtRat
  | finite negative m => .finite (signed negative m.1)
  | infinity negative => if negative then .negInf else .posInf
  | nan => .nan

end Binary64

namespace Jit.Range

/-- `setInt32`. -/
def setInt32 (l h : ℤ) : Range :=
  let r : Range := ⟨l, true, h, true, false, 0⟩
  { r with maxExponent := r.exponentImpliedByInt32Bounds }

/-- `clampToInt32`. -/
def clampToInt32 (r : Range) : Range :=
  if r.isInt32 then r
  else
    setInt32 (if r.hasInt32LowerBound then r.lower else jsvalIntMin)
      (if r.hasInt32UpperBound then r.upper else jsvalIntMax)

/-- `wrapAroundToInt32`. -/
def wrapAroundToInt32 (r : Range) : Range :=
  if !r.hasInt32Bounds then setInt32 jsvalIntMin jsvalIntMax
  else if r.canHaveFractionalPart then
    -- without fractional offsets the exponent may imply better bounds
    let refined := refineInt32BoundsByExponent r.maxExponent r.lower r.upper
    { r with canHaveFractionalPart := false, lower := refined.1, upper := refined.2 }
  else r

/-- `ExponentImpliedByDouble`: the exponent component, clamped at zero. -/
def exponentImpliedByDouble (d : ExtRat) : ℕ :=
  match d with
  | .nan => includesInfinityAndNaN
  | .posInf => includesInfinity
  | .negInf => includesInfinity
  | .finite q => (Int.log 2 |q|).toNat

/-- A comparison with the bounds of int32, and a conversion if it holds. -/
def int32OfDouble (convert : ℚ → ℤ) (d : ExtRat) : Option ℤ :=
  match d with
  | .finite q => if (jsvalIntMin : ℚ) ≤ q ∧ q ≤ jsvalIntMax then some (convert q) else none
  | _ => none

/-- Whether an end point is NaN or below zero. -/
def isNaNOrNegative (d : ExtRat) : Bool :=
  match d with
  | .nan => true
  | .negInf => true
  | .posInf => false
  | .finite q => q < 0

/-- Whether an end point is NaN or above zero. -/
def isNaNOrPositive (d : ExtRat) : Bool :=
  match d with
  | .nan => true
  | .negInf => false
  | .posInf => true
  | .finite q => 0 < q

/-- `setDouble`. -/
def setDouble (l h : ExtRat) : Range :=
  let lower := int32OfDouble Int.floor l
  let upper := int32OfDouble Int.ceil h
  let lExp := exponentImpliedByDouble l
  let hExp := exponentImpliedByDouble h
  let crossesZero := isNaNOrNegative l && isNaNOrPositive h
  optimize
    ⟨lower.getD jsvalIntMin, lower.isSome, upper.getD jsvalIntMax, upper.isSome,
      crossesZero || min lExp hExp < maxTruncatableExponent, max lExp hExp⟩

end Jit.Range

end SpiderMonkey
