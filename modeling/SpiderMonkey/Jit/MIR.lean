import SpiderMonkey.Jit.RangeDouble
import SpiderMonkey.Lib.Binary64Int32

/-!
# Nodes of the MIR graph

What folding and range analysis read of a node: its type, its value if it is a constant, and the operands of
a comparison. Strings, objects and magic values are left out of the constants.
-/

namespace SpiderMonkey.Jit.MIR

/-- `MIRType`. -/
inductive MIRType where
  | undefined
  | null
  | boolean
  | int32
  | double
  | float32
  | string
  | object
  | magic
  | value
  | none
  | slots
  | elements
  | pointer
  | shape
  | forkJoinSlice
  deriving DecidableEq

/-- The value of a constant. -/
inductive Value where
  | undefined
  | null
  | boolean (b : Bool)
  | int32 (i : BitVec 32)
  | double (d : Binary64)
  deriving DecidableEq

namespace Value

/-- `MIRTypeFromValue`. -/
def type : Value → MIRType
  | undefined => .undefined
  | null => .null
  | boolean _ => .boolean
  | int32 _ => .int32
  | double _ => .double

/-- `toNumber`, which is defined for numbers only. -/
def toNumber : Value → Option Binary64
  | int32 i => some (.ofInt32 i)
  | double d => some d
  | _ => none

/-- `toInt32`, which is defined for int32 only. -/
def toInt32 : Value → Option (BitVec 32)
  | int32 i => some i
  | _ => none

end Value

/-- The comparison operators from `JSOP_LT` to `JSOP_STRICTNE`. -/
inductive CompareOp where
  | lt
  | le
  | gt
  | ge
  | eq
  | ne
  | strictEq
  | strictNe
  deriving DecidableEq

/-- `ReverseCompareOp`. -/
def reverseCompareOp : CompareOp → CompareOp
  | .gt => .lt
  | .ge => .le
  | .lt => .gt
  | .le => .ge
  | op => op

/-- `NegateCompareOp`. -/
def negateCompareOp : CompareOp → CompareOp
  | .gt => .le
  | .ge => .lt
  | .lt => .ge
  | .le => .gt
  | .eq => .ne
  | .ne => .eq
  | .strictNe => .strictEq
  | .strictEq => .strictNe

/-- What an operator says of two numbers. Zeros are equal, and NaN is not equal to anything. -/
def CompareOp.holds (op : CompareOp) (x y : ExtRat) : Bool :=
  match op with
  | .lt => x.lt y
  | .le => x.le y
  | .gt => y.lt x
  | .ge => y.le x
  | .eq => x.eq y
  | .strictEq => x.eq y
  | .ne => !x.eq y
  | .strictNe => !x.eq y

/-- `MCompare::CompareType`. -/
inductive CompareType where
  | undefined
  | null
  | boolean
  | int32
  | int32MaybeCoerceBoth
  | int32MaybeCoerceLHS
  | int32MaybeCoerceRHS
  | uint32
  | double
  | doubleMaybeCoerceLHS
  | doubleMaybeCoerceRHS
  | float32
  | string
  | strictString
  | object
  | value
  | unknown
  deriving DecidableEq

/-- A definition: a constant, a complement, or another node, of which only the type is known. -/
inductive MDefinition where
  | constant (id : ℕ) (value : Value)
  | bitNot (id : ℕ) (specialization : MIRType) (operand : MDefinition)
  | other (id : ℕ) (type : MIRType)
  deriving DecidableEq

namespace MDefinition

/-- `type`. -/
def type : MDefinition → MIRType
  | constant _ v => v.type
  | bitNot _ _ _ => .int32
  | other _ t => t

/-- `id`. -/
def id : MDefinition → ℕ
  | constant i _ => i
  | bitNot i _ _ => i
  | other i _ => i

/-- `toConstant()->value()`, for a constant. -/
def constantValue : MDefinition → Option Value
  | constant _ v => some v
  | _ => none

/-- The number of a definition that is a constant number. -/
def constantNumber (d : MDefinition) : Option Binary64 := d.constantValue.bind Value.toNumber

end MDefinition

/-- The operands of a binary instruction. -/
inductive Side where
  | left
  | right
  deriving DecidableEq

/-- `MCompare`. -/
structure MCompare where
  left : MDefinition
  right : MDefinition
  type : MIRType
  compareType : CompareType
  jsop : CompareOp
  operandMightEmulateUndefined : Bool

end SpiderMonkey.Jit.MIR
