import SpiderMonkey.Jit.MIR
import SpiderMonkey.Jit.RangeBits

/-!
# Folding of nodes

`foldsTo` replaces a node by a constant if its operands are constants, and by an operand if the other one is
the identity of the operation. `foldUnnecessaryBitop` does the latter for bitwise operations. A function is
undefined where it asserts that a constant is a number or an int32.
-/

namespace SpiderMonkey.Jit.MIR

namespace Value

/-- `setNumber` of a double, which makes an int32 of it if it can. -/
def ofNumber (d : Binary64) : Value :=
  match d.isInt32 with
  | some i => int32 i
  | none => double d

/-- `setNumber` of an unsigned integer. -/
def ofUInt32 (u : BitVec 32) : Value :=
  if jsvalIntMax < u.toNat then double (.ofNat u.toNat) else int32 u

/-- `ToBoolean`. -/
def toBoolean : Value → Bool
  | undefined => false
  | null => false
  | boolean b => b
  | int32 i => i != 0
  | double (.finite _ m) => m.1 != 0
  | double (.infinity _) => true
  | double .nan => false

end Value

/-! ## Nodes -/

/-- The operations of a bitwise instruction. -/
inductive BitwiseOp where
  | bitAnd
  | bitOr
  | bitXor
  | lsh
  | rsh
  | ursh
  deriving DecidableEq

/-- The operations of an arithmetic instruction. -/
inductive ArithOp where
  | add
  | sub
  | mul
  | div
  | mod
  deriving DecidableEq

/-- `op`. -/
inductive Opcode where
  | bitwise (op : BitwiseOp)
  | arith (op : ArithOp)

/-- `MBinaryBitwiseInstruction`. Only `MUrsh` has `bailoutsDisabled`. -/
structure MBinaryBitwiseInstruction where
  op : BitwiseOp
  left : MDefinition
  right : MDefinition
  type : MIRType
  specialization : MIRType
  bailoutsDisabled : Bool

/-- `MBinaryArithInstruction`. Only `MDiv` and `MMod` have `isUnsigned`. -/
structure MBinaryArithInstruction where
  op : ArithOp
  left : MDefinition
  right : MDefinition
  type : MIRType
  specialization : MIRType
  isTruncated : Bool
  isUnsigned : Bool
  canBeNegativeZero : Bool

/-- `MNot`. -/
structure MNot where
  operand : MDefinition
  type : MIRType
  operandMightEmulateUndefined : Bool

/-- `MBitNot`. -/
structure MBitNot where
  operand : MDefinition
  specialization : MIRType

/-- The nodes that are folded here. -/
inductive Node where
  | bitwise (ins : MBinaryBitwiseInstruction)
  | arith (ins : MBinaryArithInstruction)
  | compare (ins : MCompare)
  | not (ins : MNot)
  | bitNot (ins : MBitNot)

/-- What a node is folded to: a node, an operand, or a new constant. -/
inductive Folded where
  | node (n : Node)
  | operand (d : MDefinition)
  | constant (v : Value)

/-- `EqualValues`. -/
def equalValues (valueNumber : Option (MDefinition → ℕ)) (left right : MDefinition) : Bool :=
  match valueNumber with
  | some number => number left == number right
  | none => left == right

/-- `IsConstant`. -/
def isConstant (d : MDefinition) (v : Binary64) : Option Bool :=
  match d.constantValue with
  | some c => c.toNumber.map fun number => decide (number = v)
  | none => some false

/-! ## Constant operands -/

/-- Whether a double is zero. -/
def isZero : Binary64 → Bool
  | .finite _ m => m.1 = 0
  | _ => false

/-- The sign bit of a number. -/
def isNegative : Binary64 → Bool
  | .finite s _ => s
  | .infinity s => s
  | .nan => false

/-- `NumberDiv`. -/
def numberDiv (a b : Binary64) : Binary64 :=
  if isZero b then
    if isZero a || a == .nan then .nan
    else if isNegative a != isNegative b then .infinity true
    else .infinity false
  else a / b

/-- `NumberMod`. -/
def numberMod (a b : Binary64) : Binary64 := if isZero b then .nan else Binary64.fmod a b

/-- The value of an operation on two constants, `EvaluateConstantOperands` before it looks at the type. -/
def evaluateOp (op : Opcode) (lhs rhs : Value) : Option Value :=
  match op with
  | .bitwise .bitAnd => do some (.int32 ((← lhs.toInt32) &&& (← rhs.toInt32)))
  | .bitwise .bitOr => do some (.int32 ((← lhs.toInt32) ||| (← rhs.toInt32)))
  | .bitwise .bitXor => do some (.int32 ((← lhs.toInt32) ^^^ (← rhs.toInt32)))
  | .bitwise .lsh => do some (.int32 ((← lhs.toInt32) <<< Range.shiftAmount (← rhs.toInt32)))
  | .bitwise .rsh => do some (.int32 ((← lhs.toInt32).sshiftRight (Range.shiftAmount (← rhs.toInt32))))
  | .bitwise .ursh => do some (.ofUInt32 ((← lhs.toInt32) >>> Range.shiftAmount (← rhs.toInt32)))
  | .arith .add => do some (.ofNumber ((← lhs.toNumber) + (← rhs.toNumber)))
  | .arith .sub => do some (.ofNumber ((← lhs.toNumber) - (← rhs.toNumber)))
  | .arith .mul => do some (.ofNumber ((← lhs.toNumber) * (← rhs.toNumber)))
  | .arith .div => do some (.ofNumber (numberDiv (← lhs.toNumber) (← rhs.toNumber)))
  | .arith .mod => do some (.ofNumber (numberMod (← lhs.toNumber) (← rhs.toNumber)))

/-- An int32 turned back to a double. -/
def Value.backToDouble : Value → Value
  | int32 i => double (.ofInt32 i)
  | v => v

/-- `EvaluateConstantOperands`: a new constant of the type of the instruction, or nothing. -/
def evaluateConstantOperands (op : Opcode) (type : MIRType) (left right : MDefinition) :
    Option (Option Value) :=
  match left.constantValue, right.constantValue with
  | some lhs, some rhs =>
    (evaluateOp op lhs rhs).map fun ret =>
      let ret := if type = .double then ret.backToDouble else ret
      if type ≠ ret.type then none else some ret
  | _, _ => some none

/-! ## Bitwise operations -/

namespace MBinaryBitwiseInstruction

/-- `getOperand`. -/
def getOperand (ins : MBinaryBitwiseInstruction) : Side → MDefinition
  | .left => ins.left
  | .right => ins.right

/-- `MBinaryBitwiseInstruction::foldsTo`. -/
def foldsTo (ins : MBinaryBitwiseInstruction) : Option Folded :=
  if ins.specialization ≠ .int32 then some (.node (.bitwise ins))
  else
    (evaluateConstantOperands (.bitwise ins.op) ins.type ins.left ins.right).map fun
      | some folded => .constant folded
      | none => .node (.bitwise ins)

/-- `foldIfZero`. -/
def foldIfZero (ins : MBinaryBitwiseInstruction) (operand : Side) : Folded :=
  match ins.op, operand with
  | .bitAnd, _ => .operand (ins.getOperand operand)
  | .bitOr, .left => .operand ins.right
  | .bitOr, .right => .operand ins.left
  | .bitXor, .left => .operand ins.right
  | .bitXor, .right => .operand ins.left
  | .lsh, _ => .operand ins.left
  | .rsh, _ => .operand ins.left
  | .ursh, .left => .operand ins.left
  | .ursh, .right => .node (.bitwise ins)

/-- `foldIfNegOne`. -/
def foldIfNegOne (ins : MBinaryBitwiseInstruction) (operand : Side) : Folded :=
  match ins.op, operand with
  | .bitAnd, .left => .operand ins.right
  | .bitAnd, .right => .operand ins.left
  | .bitOr, _ => .operand (ins.getOperand operand)
  | _, _ => .node (.bitwise ins)

/-- `foldIfEqual`. -/
def foldIfEqual (ins : MBinaryBitwiseInstruction) : Folded :=
  match ins.op with
  | .bitAnd => .operand ins.left
  | .bitOr => .operand ins.left
  | _ => .node (.bitwise ins)

/-- `foldUnnecessaryBitop`. -/
def foldUnnecessaryBitop (ins : MBinaryBitwiseInstruction) : Option Folded :=
  if ins.specialization ≠ .int32 then some (.node (.bitwise ins))
  else do
    let lhsZero ← isConstant ins.left (.ofInt32 0)
    if lhsZero then some (ins.foldIfZero .left)
    else do
      let rhsZero ← isConstant ins.right (.ofInt32 0)
      if rhsZero then some (ins.foldIfZero .right)
      else do
        let lhsNegOne ← isConstant ins.left (.ofInt32 (-1))
        if lhsNegOne then some (ins.foldIfNegOne .left)
        else do
          let rhsNegOne ← isConstant ins.right (.ofInt32 (-1))
          if rhsNegOne then some (ins.foldIfNegOne .right)
          else if equalValues none ins.left ins.right then some ins.foldIfEqual
          else some (.node (.bitwise ins))

end MBinaryBitwiseInstruction

/-! ## Arithmetic -/

namespace MBinaryArithInstruction

/-- `getIdentity`, which division and remainder do not have. -/
def getIdentity : ArithOp → Option Binary64
  | .add => some (.ofInt32 0)
  | .sub => some (.ofInt32 0)
  | .mul => some (.ofInt32 1)
  | .div => none
  | .mod => none

/-- What `MDiv::foldsTo` and `MMod::foldsTo` do, and all others first. -/
def foldConstants (ins : MBinaryArithInstruction) : Option Folded :=
  if ins.specialization = .none then some (.node (.arith ins))
  else
    (evaluateConstantOperands (.arith ins.op) ins.type ins.left ins.right).map fun
      | some folded => .constant folded
      | none => .node (.arith ins)

/-- `MBinaryArithInstruction::foldsTo`, with what is returned instead of the instruction itself. -/
def foldIdentity (ins : MBinaryArithInstruction) (self : Folded) : Option Folded :=
  if ins.specialization = .none then some self
  else do
    match ← evaluateConstantOperands (.arith ins.op) ins.type ins.left ins.right with
    | some folded => some (.constant folded)
    | none =>
      -- 0 + -0 = 0, so an addition of doubles stays
      if ins.op = .add ∧ ins.specialization ≠ .int32 then some self
      else do
        let identity ← getIdentity ins.op
        if ← isConstant ins.right identity then some (.operand ins.left)
        else if ins.op = .sub then some self
        else if ← isConstant ins.left identity then some (.operand ins.right)
        else some self

/-- The instruction after `MMul::foldsTo` has looked for a square. -/
def withoutNegativeZero (ins : MBinaryArithInstruction) (valueNumber : Option (MDefinition → ℕ)) :
    MBinaryArithInstruction :=
  if ins.specialization = .int32 ∧ equalValues valueNumber ins.left ins.right then
    { ins with canBeNegativeZero := false }
  else ins

/-- `foldsTo`. -/
def foldsTo (ins : MBinaryArithInstruction) (valueNumber : Option (MDefinition → ℕ)) : Option Folded :=
  match ins.op with
  | .add => ins.foldIdentity (.node (.arith ins))
  | .sub => ins.foldIdentity (.node (.arith ins))
  | .mul => ins.foldIdentity (.node (.arith (ins.withoutNegativeZero valueNumber)))
  | .div => ins.foldConstants
  | .mod => ins.foldConstants

end MBinaryArithInstruction

/-! ## Comparisons -/

namespace MCompare

/-- `inputType`. -/
def inputType (ins : MCompare) : MIRType :=
  match ins.compareType with
  | .undefined => .undefined
  | .null => .null
  | .boolean => .boolean
  | .uint32 => .int32
  | .int32 => .int32
  | .int32MaybeCoerceBoth => .int32
  | .int32MaybeCoerceLHS => .int32
  | .int32MaybeCoerceRHS => .int32
  | .double => .double
  | .doubleMaybeCoerceLHS => .double
  | .doubleMaybeCoerceRHS => .double
  | .float32 => .float32
  | .string => .string
  | .strictString => .string
  | .object => .object
  | .unknown => .value
  | .value => .value

/-- Whether the operator is `!=` or `!==`. -/
def isInequality (ins : MCompare) : Bool := ins.jsop = .ne || ins.jsop = .strictNe

/-- The part of `tryFold` for a comparison with null or undefined. -/
def tryFoldNullish (ins : MCompare) : Option Bool :=
  match ins.left.type with
  | .undefined | .null =>
    if ins.left.type = ins.inputType then some (ins.jsop = .eq || ins.jsop = .strictEq)
    else some (ins.jsop = .eq || ins.jsop = .strictNe)
  | .object =>
    if (ins.jsop = .eq ∨ ins.jsop = .ne) ∧ ins.operandMightEmulateUndefined then none
    else some ins.isInequality
  | .int32 | .double | .float32 | .string | .boolean => some ins.isInequality
  | _ => none

/-- The part of `tryFold` for a strict comparison with a definition of type `excluded`. -/
def tryFoldStrict (ins : MCompare) (excluded : MIRType) : Option Bool :=
  match ins.left.type with
  | .undefined | .null | .boolean | .int32 | .double | .float32 | .string | .object =>
    if ins.left.type = excluded then none else some (ins.jsop = .strictNe)
  | _ => none

/-- `tryFold`. -/
def tryFold (ins : MCompare) : Option Bool :=
  match ins.compareType with
  | .null | .undefined => ins.tryFoldNullish
  | .boolean => ins.tryFoldStrict .boolean
  | .strictString => ins.tryFoldStrict .string
  | _ => none

/-- The comparison of unsigned integers. -/
def compareUInt32 (op : CompareOp) (lhs rhs : BitVec 32) : Bool :=
  match op with
  | .lt => lhs < rhs
  | .le => lhs ≤ rhs
  | .gt => rhs < lhs
  | .ge => rhs ≤ lhs
  | .eq => lhs = rhs
  | .strictEq => lhs = rhs
  | .ne => lhs ≠ rhs
  | .strictNe => lhs ≠ rhs

/-- The comparison of numbers. Strict operators are not folded. -/
def compareNumbers (op : CompareOp) (lhs rhs : Binary64) : Option Bool :=
  match op with
  | .strictEq => none
  | .strictNe => none
  | op => some (op.holds lhs.value rhs.value)

/-- `MCompare::evaluateConstantOperands`. -/
def evaluateConstantOperands (ins : MCompare) : Option (Option Bool) :=
  if ins.type ≠ .boolean ∧ ins.type ≠ .int32 then some none
  else
    match ins.left.constantValue, ins.right.constantValue with
    | some lhs, some rhs =>
      if ins.compareType = .uint32 then do
        some (some (compareUInt32 ins.jsop (← lhs.toInt32) (← rhs.toInt32)))
      else
        match lhs.toNumber, rhs.toNumber with
        | some l, some r => some (compareNumbers ins.jsop l r)
        | _, _ => some none
    | _, _ => some none

/-- A Boolean result as the type of a node has it. -/
def ofBool (type : MIRType) (result : Bool) : Value :=
  if type = .int32 then .int32 (if result then 1 else 0) else .boolean result

/-- `MCompare::foldsTo`. -/
def foldsTo (ins : MCompare) : Option Folded :=
  match ins.tryFold with
  | some result => some (.constant (ofBool ins.type result))
  | none =>
    ins.evaluateConstantOperands.map fun
      | some result => .constant (ofBool ins.type result)
      | none => .node (.compare ins)

end MCompare

/-! ## Complements -/

/-- `MNot::foldsTo`. -/
def MNot.foldsTo (ins : MNot) : Folded :=
  match ins.operand.constantValue with
  | some v => .constant (MCompare.ofBool ins.type !v.toBoolean)
  | none =>
    if ins.operand.type = .undefined ∨ ins.operand.type = .null then .constant (.boolean true)
    else if ins.operand.type = .object ∧ !ins.operandMightEmulateUndefined then .constant (.boolean false)
    else .node (.not ins)

/-- `MBitNot::foldsTo`. -/
def MBitNot.foldsTo (ins : MBitNot) : Option Folded :=
  if ins.specialization ≠ .int32 then some (.node (.bitNot ins))
  else
    match ins.operand with
    | .constant _ v => v.toInt32.map fun i => .constant (.int32 (~~~i))
    | .bitNot _ specialization d =>
      if specialization = .int32 then some (.operand d) else some (.node (.bitNot ins))
    | .other _ _ => some (.node (.bitNot ins))

/-- `foldsTo`. -/
def Node.foldsTo (valueNumber : Option (MDefinition → ℕ)) : Node → Option Folded
  | bitwise ins => ins.foldsTo
  | arith ins => ins.foldsTo valueNumber
  | compare ins => ins.foldsTo
  | not ins => some ins.foldsTo
  | bitNot ins => ins.foldsTo

end SpiderMonkey.Jit.MIR
