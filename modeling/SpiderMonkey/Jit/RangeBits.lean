import SpiderMonkey.Jit.Range

/-!
# Bitwise operations on ranges

The operations of the `Range` class for the bitwise operators, on ranges of int32 values. Bounds are
int32, so an operator on them works on their bits. `CountLeadingZeroes32` is undefined at zero.
-/

namespace SpiderMonkey.Jit

namespace Range

/-! ## Operators on bounds -/

/-- The bits of an int32. -/
def bits (z : ℤ) : BitVec 32 := BitVec.ofInt 32 z

/-- `~z`. -/
def int32Not (z : ℤ) : ℤ := (~~~ bits z).toInt

/-- `a | b`. -/
def int32Or (a b : ℤ) : ℤ := (bits a ||| bits b).toInt

/-- `CountLeadingZeroes32`. -/
def countLeadingZeroes32 (u : BitVec 32) : Option ℕ :=
  if u = 0 then none else some (31 - u.toNat.log2)

/-- `int32_t(UINT32_MAX >> n)`. -/
def shiftedMax (n : ℕ) : ℤ := (BitVec.allOnes 32 >>> n).toInt

/-- `NewInt32Range`. -/
def newInt32Range (l h : ℤ) : Range := set l h false maxInt32Exponent

/-- `MaxUInt32Exponent`. -/
def maxUInt32Exponent : ℕ := 31

/-- `NewUInt32Range`. -/
def newUInt32Range (l h : BitVec 32) : Range := set l.toNat h.toNat false maxUInt32Exponent

/-- Whether all values are finite and negative. -/
def isFiniteNegative (r : Range) : Bool := decide (r.upper < 0) && !r.canBeInfiniteOrNaN

/-- Whether all values are finite and non-negative. -/
def isFiniteNonNegative (r : Range) : Bool := decide (0 ≤ r.lower) && !r.canBeInfiniteOrNaN

/-! ## The bitwise operators -/

/-- `Range::and_`. -/
def and_ (lhs rhs : Range) : Range :=
  if lhs.lower < 0 && rhs.lower < 0 then newInt32Range jsvalIntMin (max lhs.upper rhs.upper)
  else
    let upper := min lhs.upper rhs.upper
    -- a negative value keeps all bits of the other one
    let upper := if lhs.lower < 0 then rhs.upper else upper
    let upper := if rhs.lower < 0 then lhs.upper else upper
    newInt32Range 0 upper

/-- The bounds where an operand of `or_` is negative, tightened by the leading ones of the operand. -/
def orNegative (operand : Range) (bounds : ℤ × ℤ) : Option (ℤ × ℤ) :=
  if operand.upper < 0 then do
    let leadingOnes ← countLeadingZeroes32 (bits (int32Not operand.lower))
    some (max bounds.1 (int32Not (shiftedMax leadingOnes)), -1)
  else some bounds

/-- `Range::or_`. -/
def or_ (lhs rhs : Range) : Option Range :=
  if lhs.lower == lhs.upper && lhs.lower == 0 then some rhs
  else if lhs.lower == lhs.upper && lhs.lower == -1 then some lhs
  else if rhs.lower == rhs.upper && rhs.lower == 0 then some lhs
  else if rhs.lower == rhs.upper && rhs.lower == -1 then some rhs
  else if 0 ≤ lhs.lower && 0 ≤ rhs.lower then do
    let lhsLeadingZeros ← countLeadingZeroes32 (bits lhs.upper)
    let rhsLeadingZeros ← countLeadingZeroes32 (bits rhs.upper)
    some (newInt32Range (max lhs.lower rhs.lower) (shiftedMax (min lhsLeadingZeros rhsLeadingZeros)))
  else do
    let bounds ← orNegative lhs (jsvalIntMin, jsvalIntMax)
    let bounds ← orNegative rhs bounds
    some (newInt32Range bounds.1 bounds.2)

/-- The bounds of an operand of `xor_`, complemented if it is negative, and whether they are. -/
def complementNegative (operand : Range) : (ℤ × ℤ) × Bool :=
  if operand.upper < 0 then ((int32Not operand.upper, int32Not operand.lower), true)
  else ((operand.lower, operand.upper), false)

/-- The bounds of `xor_` for operands that are not negative throughout. -/
def xorBounds (lhs rhs : ℤ × ℤ) : Option (ℤ × ℤ) :=
  if lhs.1 == 0 && lhs.2 == 0 then some rhs
  else if rhs.1 == 0 && rhs.2 == 0 then some lhs
  else if 0 ≤ lhs.1 && 0 ≤ rhs.1 then do
    let lhsLeadingZeros ← countLeadingZeroes32 (bits lhs.2)
    let rhsLeadingZeros ← countLeadingZeroes32 (bits rhs.2)
    some (0, min (int32Or rhs.2 (shiftedMax lhsLeadingZeros)) (int32Or lhs.2 (shiftedMax rhsLeadingZeros)))
  else some (jsvalIntMin, jsvalIntMax)

/-- `Range::xor_`. -/
def xor_ (lhs rhs : Range) : Option Range := do
  let (lhsBounds, lhsInverted) := lhs.complementNegative
  let (rhsBounds, rhsInverted) := rhs.complementNegative
  let bounds ← xorBounds lhsBounds rhsBounds
  if lhsInverted != rhsInverted then some (newInt32Range (int32Not bounds.2) (int32Not bounds.1))
  else some (newInt32Range bounds.1 bounds.2)

/-- `Range::not_`. -/
def not_ (op : Range) : Range := newInt32Range (int32Not op.upper) (int32Not op.lower)

/-! ## Shifts -/

/-- `c & 0x1f`. -/
def shiftAmount (c : BitVec 32) : ℕ := (c &&& 0x1f).toNat

/-- Whether a bound loses no bits, and gets none into the sign bit. -/
def fitsShifted (z : ℤ) (shift : ℕ) : Bool := (bits z <<< shift <<< 1 >>> shift >>> 1).toInt == z

/-- `Range::lsh` by a constant. -/
def lsh (lhs : Range) (c : BitVec 32) : Range :=
  let shift := shiftAmount c
  if fitsShifted lhs.lower shift && fitsShifted lhs.upper shift then
    newInt32Range (bits lhs.lower <<< shift).toInt (bits lhs.upper <<< shift).toInt
  else newInt32Range jsvalIntMin jsvalIntMax

/-- `Range::rsh` by a constant. -/
def rsh (lhs : Range) (c : BitVec 32) : Range :=
  let shift := shiftAmount c
  newInt32Range ((bits lhs.lower).sshiftRight shift).toInt ((bits lhs.upper).sshiftRight shift).toInt

/-- `Range::ursh` by a constant. -/
def ursh (lhs : Range) (c : BitVec 32) : Range :=
  let shift := shiftAmount c
  if lhs.isFiniteNonNegative || lhs.isFiniteNegative then
    newUInt32Range (bits lhs.lower >>> shift) (bits lhs.upper >>> shift)
  else newUInt32Range 0 (BitVec.allOnes 32 >>> shift)

/-- `Range::lsh` by a variable. -/
def lshVariable (_lhs _rhs : Range) : Range := newInt32Range jsvalIntMin jsvalIntMax

/-- `Range::rsh` by a variable. -/
def rshVariable (lhs _rhs : Range) : Range := newInt32Range (min lhs.lower 0) (max lhs.upper 0)

/-- `Range::ursh` by a variable. -/
def urshVariable (lhs _rhs : Range) : Range :=
  newUInt32Range 0 (if lhs.isFiniteNonNegative then bits lhs.upper else BitVec.allOnes 32)

end Range

end SpiderMonkey.Jit
