import SpiderMonkey.Jit.MIR
import SpiderMonkey.Jit.RangeBits

/-!
# Beta nodes

`addBetaNodes` gives a block that is entered by one direction of a branch on a comparison new names for the
compared definitions, with the range that the comparison implies.
-/

namespace SpiderMonkey.Jit.MIR

/-- `BranchDirection`. -/
inductive BranchDirection where
  | falseBranch
  | trueBranch
  deriving DecidableEq

/-- `MBeta`, for an operand of the comparison. -/
structure MBeta where
  val : Side
  comparison : Range

/-- `DoubleEqualsInt32`, which takes negative zero for zero. -/
def doubleEqualsInt32 (d : Binary64) : Option ℤ :=
  match d.value with
  | .finite q => if q.den = 1 ∧ jsvalIntMin ≤ q.num ∧ q.num ≤ jsvalIntMax then some q.num else none
  | _ => none

/-- A sum or a difference, if it is an int32: what `SafeAdd` and `SafeSub` report. -/
def safeInt32 (z : ℤ) : Option ℤ := if jsvalIntMin ≤ z ∧ z ≤ jsvalIntMax then some z else none

/-- `SafeAdd`. -/
def safeAdd (one two : ℤ) : Option ℤ := safeInt32 (one + two)

/-- `SafeSub`. -/
def safeSub (one two : ℤ) : Option ℤ := safeInt32 (one - two)

/-- The bound of a strict comparison, moved by one if the compared definition is of int32 type. -/
def adjustBound (type : MIRType) (safe : ℤ → ℤ → Option ℤ) (bound : Binary64) : Binary64 :=
  if type = .int32 then
    match (doubleEqualsInt32 bound).bind (safe · 1) with
    | some intbound => .ofInt32 (Range.bits intbound)
    | none => bound
  else bound

/-- The range of a definition that compares to `bound`, if there is one. -/
def comparisonRange (jsop : CompareOp) (type : MIRType) (conservativeLower conservativeUpper bound : Binary64) :
    Option Range :=
  match jsop with
  | .le => some (Range.setDouble conservativeLower.value bound.value)
  | .lt =>
    -- if x < c, the upper bound of an integer x is c - 1
    some (Range.setDouble conservativeLower.value (adjustBound type safeSub bound).value)
  | .ge => some (Range.setDouble bound.value conservativeUpper.value)
  | .gt =>
    -- if x > c, the lower bound of an integer x is c + 1
    some (Range.setDouble (adjustBound type safeAdd bound).value conservativeUpper.value)
  | .eq => some (Range.setDouble bound.value bound.value)
  | _ => none

/-- The beta nodes of two int32 definitions. -/
def int32BetaNodes (jsop : CompareOp) : List MBeta :=
  let ranges (smaller greater : Side) : List MBeta :=
    [⟨smaller, Range.newInt32Range jsvalIntMin (jsvalIntMax - 1)⟩,
      ⟨greater, Range.newInt32Range (jsvalIntMin + 1) jsvalIntMax⟩]
  match jsop with
  | .lt => ranges .left .right
  | .gt => ranges .right .left
  | _ => []

/-- The operator in a direction of a branch, and the conservative bounds there. -/
def directed (branchDir : BranchDirection) (jsop : CompareOp) : CompareOp × Binary64 × Binary64 :=
  match branchDir with
  | .falseBranch => (negateCompareOp jsop, .nan, .nan)
  | .trueBranch => (jsop, .infinity true, .infinity false)

/-- `addBetaNodes`, for the block in a direction of a test of a comparison. -/
def addBetaNodes (branchDir : BranchDirection) (compare : MCompare) : List MBeta :=
  if compare.compareType = .uint32 then []
  else
    let (jsop, conservativeLower, conservativeUpper) := directed branchDir compare.jsop
    let beta (val : Side) (range : Option Range) : List MBeta := (range.map (⟨val, ·⟩)).toList
    match compare.left.constantNumber, compare.right.constantNumber with
    | some bound, _ =>
      beta .right (comparisonRange (reverseCompareOp jsop) compare.right.type conservativeLower
        conservativeUpper bound)
    | none, some bound =>
      beta .left (comparisonRange jsop compare.left.type conservativeLower conservativeUpper bound)
    | none, none =>
      if compare.left.type = .int32 ∧ compare.right.type = .int32 then int32BetaNodes jsop else []

end SpiderMonkey.Jit.MIR
