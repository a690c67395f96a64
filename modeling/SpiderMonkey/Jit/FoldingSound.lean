import SpiderMonkey.Jit.Folding
import SpiderMonkey.Jit.BetaNodesSound

/-!
# What folding preserves

A node has a value for the values of its operands, or it bails out. A folded node has the same type and the
same value. Unsigned division and remainder are folded as if they were signed, so a node of theirs with
constant operands keeps its value for some constants only.
-/

namespace SpiderMonkey.Jit.MIR

/-! ## The values of nodes -/

/-- Values of the definitions, of the types that they have. -/
structure Valuation where
  value : MDefinition → Value
  int32 : ∀ d, d.type = .int32 → ∃ i, value d = .int32 i
  double : ∀ d, d.type = .double → ∃ x, value d = .double x
  constant : ∀ id v, value (.constant id v) = v
  bitNot : ∀ id d i, value d = .int32 i → value (.bitNot id .int32 d) = .int32 (~~~i)

/-- Definitions with the same number have the same value. -/
def Valuation.Respects (ρ : Valuation) (valueNumber : Option (MDefinition → ℕ)) : Prop :=
  ∀ number, valueNumber = some number → ∀ d d', number d = number d' → ρ.value d = ρ.value d'

/-- A bitwise operation on int32. -/
def BitwiseOp.result (op : BitwiseOp) (x y : BitVec 32) : BitVec 32 :=
  match op with
  | .bitAnd => x &&& y
  | .bitOr => x ||| y
  | .bitXor => x ^^^ y
  | .lsh => x <<< Range.shiftAmount y
  | .rsh => x.sshiftRight (Range.shiftAmount y)
  | .ursh => x >>> Range.shiftAmount y

/-- The value of a bitwise node. An unsigned result that is no int32 is a double, or it bails out. -/
def MBinaryBitwiseInstruction.evaluate (ins : MBinaryBitwiseInstruction) (ρ : Valuation) : Option Value :=
  match ρ.value ins.left, ρ.value ins.right with
  | .int32 x, .int32 y =>
    let r := ins.op.result x y
    if ins.op = .ursh then
      if ins.specialization = .double then some (.double (.ofNat r.toNat))
      else if ins.bailoutsDisabled ∨ (r.toNat : ℤ) ≤ jsvalIntMax then some (.int32 r)
      else none
    else some (.int32 r)
  | _, _ => none

/-- An exact result that is an int32, unless it is a negative zero that is checked for. -/
def checkedInt32 (z : ℤ) (negativeZero : Bool) : Option (BitVec 32) :=
  if jsvalIntMin ≤ z ∧ z ≤ jsvalIntMax ∧ negativeZero = false then some (Range.bits z) else none

/-- An arithmetic operation of int32 type: unsigned, modulo 2 ^ 32, or with a bailout. -/
def MBinaryArithInstruction.int32Result (ins : MBinaryArithInstruction) (x y : BitVec 32) :
    Option (BitVec 32) :=
  match ins.op with
  | .add => if ins.isTruncated then some (x + y) else checkedInt32 (x.toInt + y.toInt) false
  | .sub => if ins.isTruncated then some (x - y) else checkedInt32 (x.toInt - y.toInt) false
  | .mul =>
    if ins.isTruncated then some (x * y)
    else checkedInt32 (x.toInt * y.toInt)
      (ins.canBeNegativeZero && x.toInt * y.toInt == 0 && (decide (x.toInt < 0) || decide (y.toInt < 0)))
  | .div =>
    if ins.isUnsigned then some (if y = 0 then 0 else x.udiv y)
    else if ins.isTruncated then some (if y = 0 then 0 else x.sdiv y)
    else if y.toInt ∣ x.toInt ∧ y.toInt ≠ 0 then
      checkedInt32 (x.toInt.tdiv y.toInt) (ins.canBeNegativeZero && x.toInt == 0 && decide (y.toInt < 0))
    else none
  | .mod =>
    if ins.isUnsigned then some (if y = 0 then 0 else x.umod y)
    else if ins.isTruncated then some (if y = 0 then 0 else x.srem y)
    else if y.toInt ≠ 0 then
      checkedInt32 (x.toInt.tmod y.toInt) (decide (x.toInt < 0) && x.toInt.tmod y.toInt == 0)
    else none

/-- An arithmetic operation on doubles. -/
def ArithOp.doubleResult (op : ArithOp) (x y : Binary64) : Binary64 :=
  match op with
  | .add => x + y
  | .sub => x - y
  | .mul => x * y
  | .div => x / y
  | .mod => Binary64.fmod x y

/-- The value of an arithmetic node. -/
def MBinaryArithInstruction.evaluate (ins : MBinaryArithInstruction) (ρ : Valuation) : Option Value :=
  match ρ.value ins.left, ρ.value ins.right with
  | .int32 x, .int32 y => (ins.int32Result x y).map .int32
  | .double x, .double y => some (.double (ins.op.doubleResult x y))
  | _, _ => none

/-- The value of a comparison of int32, of unsigned integers, or of doubles. -/
def MCompare.evaluate (ins : MCompare) (ρ : Valuation) : Option Value :=
  match ρ.value ins.left, ρ.value ins.right with
  | .int32 x, .int32 y =>
    if ins.compareType = .uint32 then
      some (ofBool ins.type (ins.jsop.holds (.finite x.toNat) (.finite y.toNat)))
    else some (ofBool ins.type (ins.jsop.holds (.finite x.toInt) (.finite y.toInt)))
  | .double x, .double y => some (ofBool ins.type (ins.jsop.holds x.value y.value))
  | _, _ => none

/-- The value of a node. -/
def Node.evaluate (ρ : Valuation) : Node → Option Value
  | bitwise ins => ins.evaluate ρ
  | arith ins => ins.evaluate ρ
  | compare ins => ins.evaluate ρ
  | not ins => some (MCompare.ofBool ins.type !(ρ.value ins.operand).toBoolean)
  | bitNot ins => (ρ.value ins.operand).toInt32.map fun i => .int32 (~~~i)

/-- The type of a node. -/
def Node.type : Node → MIRType
  | bitwise ins => ins.type
  | arith ins => ins.type
  | compare ins => ins.type
  | not ins => ins.type
  | bitNot _ => .int32

/-- The type of what a node is folded to. -/
def Folded.type : Folded → MIRType
  | node n => n.type
  | operand d => d.type
  | constant v => v.type

/-- The value of what a node is folded to. -/
def Folded.evaluate (ρ : Valuation) : Folded → Option Value
  | node n => n.evaluate ρ
  | operand d => some (ρ.value d)
  | constant v => some v

/-! ## Specialized nodes -/

/-- The operands of a bitwise node are of int32 type. Only `>>>` has a result that is a double. -/
structure MBinaryBitwiseInstruction.Specialized (ins : MBinaryBitwiseInstruction) : Prop where
  left : ins.left.type = .int32
  right : ins.right.type = .int32
  type : ins.type = ins.specialization
  specialization : ins.specialization = .int32 ∨ ins.specialization = .double ∧ ins.op = .ursh

/-- The operands of an arithmetic node are of its type. -/
structure MBinaryArithInstruction.Specialized (ins : MBinaryArithInstruction) : Prop where
  left : ins.left.type = ins.type
  right : ins.right.type = ins.type
  type : ins.type = ins.specialization
  specialization : ins.specialization = .int32 ∨ ins.specialization = .double

/-- The operands of a comparison are of its input type, which is int32 or double. -/
structure MCompare.Specialized (ins : MCompare) : Prop where
  left : ins.left.type = ins.inputType
  right : ins.right.type = ins.inputType
  inputType : ins.inputType = .int32 ∨ ins.inputType = .double
  type : ins.type = .boolean ∨ ins.type = .int32

/-- Nodes of int32 or double specialization, with operands as the type policies leave them. -/
def Node.Specialized : Node → Prop
  | bitwise ins => ins.Specialized
  | arith ins => ins.Specialized
  | compare ins => ins.Specialized
  | not ins => (ins.operand.type = .int32 ∨ ins.operand.type = .double) ∧
      (ins.type = .boolean ∨ ins.type = .int32)
  | bitNot ins => ins.operand.type = .int32 ∧ ins.specialization = .int32 ∧
      ∀ id specialization d, ins.operand = .bitNot id specialization d → specialization = .int32 →
        d.type = .int32

/-- Folding gives the same type and, for the values of the operands, the same value. -/
def Preserves (ρ : Valuation) (node : Node) (result : Option Folded) : Prop :=
  ∃ folded, result = some folded ∧ folded.type = node.type ∧ folded.evaluate ρ = node.evaluate ρ

variable {ρ : Valuation} {d : MDefinition} {v : Value} {i : BitVec 32} {x y a b : Binary64}

/-! ## Constants -/

/-- A constant has its value. -/
theorem Valuation.value_of_constant (h : d.constantValue = some v) : ρ.value d = v := by
  cases d with
  | constant id w => rw [← Option.some.inj h, ρ.constant]
  | bitNot id s d => cases h
  | other id t => cases h

/-- The type of a constant is that of its value. -/
theorem type_of_constant (h : d.constantValue = some v) : d.type = v.type := by
  cases d <;> cases h
  rfl

/-- A constant of int32 type is an int32. -/
theorem exists_int32_of_type (h : v.type = .int32) : ∃ i, v = .int32 i := by
  cases v <;> cases h
  exact ⟨_, rfl⟩

/-- A constant of double type is a double. -/
theorem exists_double_of_type (h : v.type = .double) : ∃ x, v = .double x := by
  cases v <;> cases h
  exact ⟨_, rfl⟩

/-- Whether a definition of int32 type is a constant. -/
theorem isConstant_int32 (ρ : Valuation) (h : d.type = .int32) (i : BitVec 32) :
    ∃ is, isConstant d (.ofInt32 i) = some is ∧ (is = true → ρ.value d = .int32 i) := by
  unfold isConstant
  cases hd : d.constantValue with
  | none => exact ⟨false, rfl, nofun⟩
  | some c =>
    obtain ⟨j, rfl⟩ := exists_int32_of_type ((type_of_constant hd).symm.trans h)
    refine ⟨_, rfl, fun heq => ?_⟩
    rw [ρ.value_of_constant hd, Binary64.ofInt32_injective (of_decide_eq_true heq)]

/-- Whether a definition of double type is a constant. -/
theorem isConstant_double (ρ : Valuation) (h : d.type = .double) (x : Binary64) :
    ∃ is, isConstant d x = some is ∧ (is = true → ρ.value d = .double x) := by
  unfold isConstant
  cases hd : d.constantValue with
  | none => exact ⟨false, rfl, nofun⟩
  | some c =>
    obtain ⟨z, rfl⟩ := exists_double_of_type ((type_of_constant hd).symm.trans h)
    refine ⟨_, rfl, fun heq => ?_⟩
    rw [ρ.value_of_constant hd, of_decide_eq_true heq]

/-- Definitions that are equal by their numbers have the same value. -/
theorem Valuation.Respects.value_eq {numbers : Option (MDefinition → ℕ)} {d' : MDefinition}
    (hρ : ρ.Respects numbers) (h : equalValues numbers d d' = true) : ρ.value d = ρ.value d' := by
  cases numbers with
  | none => rw [eq_of_beq h]
  | some number => exact hρ number rfl d d' (eq_of_beq h)

/-- A node that is not folded. -/
theorem preserves_self (ρ : Valuation) (node : Node) : Preserves ρ node (some (.node node)) := ⟨_, rfl, rfl, rfl⟩

/-- A node that is folded to an operand of its type. -/
theorem preserves_operand {node : Node} (htype : d.type = node.type) (hvalue : some (ρ.value d) = node.evaluate ρ) :
    Preserves ρ node (some (.operand d)) := ⟨_, rfl, htype, hvalue⟩

/-! ## Bitwise operations -/

section Bitwise

variable {ins : MBinaryBitwiseInstruction} {x y : BitVec 32}

/-- The value of a bitwise operation on two int32 constants. -/
theorem evaluateOp_bitwise (op : BitwiseOp) (x y : BitVec 32) :
    evaluateOp (.bitwise op) (.int32 x) (.int32 y) =
      some (if op = .ursh then .ofUInt32 (op.result x y) else .int32 (op.result x y)) := by
  cases op <;> rfl

/-- A bitwise operation that folds to its result. -/
theorem MBinaryBitwiseInstruction.evaluate_eq (hleft : ρ.value ins.left = .int32 x) (hright : ρ.value ins.right = .int32 y)
    (hspec : ins.specialization = .int32) (hresult : ins.op = .ursh → ((ins.op.result x y).toNat : ℤ) ≤ jsvalIntMax) :
    ins.evaluate ρ = some (.int32 (ins.op.result x y)) := by
  unfold MBinaryBitwiseInstruction.evaluate
  rw [hleft, hright]
  simp only [hspec]
  by_cases hop : ins.op = .ursh
  · rw [if_pos hop, if_neg (by decide), if_pos (Or.inr (hresult hop))]
  · rw [if_neg hop]

/-- Folding the constants of a bitwise operation. -/
theorem bitwise_foldsTo (h : ins.Specialized) : Preserves ρ (.bitwise ins) ins.foldsTo := by
  unfold MBinaryBitwiseInstruction.foldsTo
  split
  · exact preserves_self ρ _
  · next hspec =>
    have hspec := not_not.mp hspec
    have htype := h.type.trans hspec
    unfold evaluateConstantOperands
    cases hl : ins.left.constantValue with
    | none => exact preserves_self ρ _
    | some lhs =>
      cases hr : ins.right.constantValue with
      | none => exact preserves_self ρ _
      | some rhs =>
        obtain ⟨x, rfl⟩ := exists_int32_of_type ((type_of_constant hl).symm.trans h.left)
        obtain ⟨y, rfl⟩ := exists_int32_of_type ((type_of_constant hr).symm.trans h.right)
        have hleft := ρ.value_of_constant hl
        have hright := ρ.value_of_constant hr
        have hfold (hresult : ins.op = .ursh → ((ins.op.result x y).toNat : ℤ) ≤ jsvalIntMax) :
            Preserves ρ (.bitwise ins) (some (.constant (.int32 (ins.op.result x y)))) :=
          ⟨_, rfl, htype.symm, (ins.evaluate_eq hleft hright hspec hresult).symm⟩
        rw [htype]
        simp only [evaluateOp_bitwise]
        by_cases hop : ins.op = .ursh
        · -- an unsigned result that is no int32 is not folded
          simp only [if_pos hop, Value.ofUInt32]
          by_cases hle : jsvalIntMax < ((ins.op.result x y).toNat : ℤ)
          · rw [if_pos hle]
            exact preserves_self ρ _
          · rw [if_neg hle]
            exact hfold fun _ => not_lt.mp hle
        · simp only [if_neg hop]
          exact hfold fun h => absurd h hop

/-- A bitwise operation that leaves its left operand alone. -/
theorem preserves_left (h : ins.Specialized) (hspec : ins.specialization = .int32)
    (hx : ρ.value ins.left = .int32 x) (hy : ρ.value ins.right = .int32 y) (hresult : ins.op.result x y = x)
    (hursh : ins.op = .ursh → x = 0) : Preserves ρ (.bitwise ins) (some (.operand ins.left)) := by
  refine preserves_operand (h.left.trans (h.type.trans hspec).symm) ?_
  have hle : ins.op = .ursh → ((ins.op.result x y).toNat : ℤ) ≤ jsvalIntMax := fun hop => by
    rw [hresult, hursh hop]
    decide
  rw [hx, Node.evaluate, ins.evaluate_eq hx hy hspec hle, hresult]

/-- A bitwise operation that leaves its right operand alone. -/
theorem preserves_right (h : ins.Specialized) (hspec : ins.specialization = .int32)
    (hx : ρ.value ins.left = .int32 x) (hy : ρ.value ins.right = .int32 y) (hresult : ins.op.result x y = y)
    (hne : ins.op ≠ .ursh) : Preserves ρ (.bitwise ins) (some (.operand ins.right)) := by
  refine preserves_operand (h.right.trans (h.type.trans hspec).symm) ?_
  rw [hy, Node.evaluate, ins.evaluate_eq hx hy hspec fun hop => absurd hop hne, hresult]

/-- A bitwise operation with zero as its left operand. -/
theorem preserves_foldIfZero_left (h : ins.Specialized) (hspec : ins.specialization = .int32)
    (hx : ρ.value ins.left = .int32 0) (hy : ρ.value ins.right = .int32 y) :
    Preserves ρ (.bitwise ins) (some (ins.foldIfZero .left)) := by
  obtain ⟨op, left, right, type, spec, disabled⟩ := ins
  cases op with
  | bitAnd => exact preserves_left h hspec hx hy (BitVec.zero_and) fun _ => rfl
  | bitOr => exact preserves_right h hspec hx hy (BitVec.zero_or) nofun
  | bitXor => exact preserves_right h hspec hx hy (BitVec.zero_xor) nofun
  | lsh => exact preserves_left h hspec hx hy (BitVec.zero_shiftLeft _) fun _ => rfl
  | rsh => exact preserves_left h hspec hx hy (BitVec.zero_sshiftRight) fun _ => rfl
  | ursh => exact preserves_left h hspec hx hy (BitVec.zero_ushiftRight) fun _ => rfl

/-- A bitwise operation with zero as its right operand. -/
theorem preserves_foldIfZero_right (h : ins.Specialized) (hspec : ins.specialization = .int32)
    (hx : ρ.value ins.left = .int32 x) (hy : ρ.value ins.right = .int32 0) :
    Preserves ρ (.bitwise ins) (some (ins.foldIfZero .right)) := by
  have hshift : Range.shiftAmount 0 = 0 := by decide
  obtain ⟨op, left, right, type, spec, disabled⟩ := ins
  cases op with
  | bitAnd => exact preserves_right h hspec hx hy (BitVec.and_zero) nofun
  | bitOr => exact preserves_left h hspec hx hy (BitVec.or_zero) nofun
  | bitXor => exact preserves_left h hspec hx hy (BitVec.xor_zero) nofun
  | lsh => exact preserves_left h hspec hx hy (by simp only [BitwiseOp.result, hshift, BitVec.shiftLeft_zero]) nofun
  | rsh => exact preserves_left h hspec hx hy (by simp only [BitwiseOp.result, hshift, BitVec.sshiftRight_zero]) nofun
  | ursh => exact preserves_self ρ _

/-- A bitwise operation with all bits set in its left operand. -/
theorem preserves_foldIfNegOne_left (h : ins.Specialized) (hspec : ins.specialization = .int32)
    (hx : ρ.value ins.left = .int32 (-1)) (hy : ρ.value ins.right = .int32 y) :
    Preserves ρ (.bitwise ins) (some (ins.foldIfNegOne .left)) := by
  have hones : (-1 : BitVec 32) = BitVec.allOnes 32 := by decide
  obtain ⟨op, left, right, type, spec, disabled⟩ := ins
  cases op with
  | bitAnd => exact preserves_right h hspec hx hy (by simp only [BitwiseOp.result, hones, BitVec.allOnes_and]) nofun
  | bitOr => exact preserves_left h hspec hx hy (by simp only [BitwiseOp.result, hones, BitVec.allOnes_or]) nofun
  | _ => exact preserves_self ρ _

/-- A bitwise operation with all bits set in its right operand. -/
theorem preserves_foldIfNegOne_right (h : ins.Specialized) (hspec : ins.specialization = .int32)
    (hx : ρ.value ins.left = .int32 x) (hy : ρ.value ins.right = .int32 (-1)) :
    Preserves ρ (.bitwise ins) (some (ins.foldIfNegOne .right)) := by
  have hones : (-1 : BitVec 32) = BitVec.allOnes 32 := by decide
  obtain ⟨op, left, right, type, spec, disabled⟩ := ins
  cases op with
  | bitAnd => exact preserves_left h hspec hx hy (by simp only [BitwiseOp.result, hones, BitVec.and_allOnes]) nofun
  | bitOr => exact preserves_right h hspec hx hy (by simp only [BitwiseOp.result, hones, BitVec.or_allOnes]) nofun
  | _ => exact preserves_self ρ _

/-- A bitwise operation with equal operands. -/
theorem preserves_foldIfEqual (h : ins.Specialized) (hspec : ins.specialization = .int32)
    (hx : ρ.value ins.left = .int32 x) (hy : ρ.value ins.right = .int32 x) :
    Preserves ρ (.bitwise ins) (some ins.foldIfEqual) := by
  obtain ⟨op, left, right, type, spec, disabled⟩ := ins
  cases op with
  | bitAnd => exact preserves_left h hspec hx hy BitVec.and_self nofun
  | bitOr => exact preserves_left h hspec hx hy BitVec.or_self nofun
  | _ => exact preserves_self ρ _

/-- Operands with which a bitwise operation does nothing. -/
theorem bitwise_foldUnnecessaryBitop (h : ins.Specialized) :
    Preserves ρ (.bitwise ins) ins.foldUnnecessaryBitop := by
  unfold MBinaryBitwiseInstruction.foldUnnecessaryBitop
  split
  · exact preserves_self ρ _
  · next hspec =>
    have hspec := not_not.mp hspec
    obtain ⟨x, hx⟩ := ρ.int32 _ h.left
    obtain ⟨y, hy⟩ := ρ.int32 _ h.right
    obtain ⟨lhsZero, hlz, hlzero⟩ := isConstant_int32 ρ h.left 0
    obtain ⟨rhsZero, hrz, hrzero⟩ := isConstant_int32 ρ h.right 0
    obtain ⟨lhsNegOne, hln, hlnegOne⟩ := isConstant_int32 ρ h.left (-1)
    obtain ⟨rhsNegOne, hrn, hrnegOne⟩ := isConstant_int32 ρ h.right (-1)
    rw [hlz, hrz, hln, hrn]
    simp only [Option.bind_eq_bind, Option.bind_some]
    split
    · next hc => exact preserves_foldIfZero_left h hspec (hlzero hc) hy
    split
    · next hc => exact preserves_foldIfZero_right h hspec hx (hrzero hc)
    split
    · next hc => exact preserves_foldIfNegOne_left h hspec (hlnegOne hc) hy
    split
    · next hc => exact preserves_foldIfNegOne_right h hspec hx (hrnegOne hc)
    split
    · next hc =>
      have hequal : ρ.value ins.left = ρ.value ins.right := by rw [eq_of_beq hc]
      exact preserves_foldIfEqual h hspec hx (hequal ▸ hx)
    · exact preserves_self ρ _

end Bitwise

/-! ## Arithmetic -/

/-- `NumberDiv` divides. -/
theorem numberDiv_eq (a b : Binary64) : numberDiv a b = a / b := by
  rw [Binary64.div_def]
  cases b with
  | finite t n =>
    by_cases hn : n.1 = 0
    · cases a with
      | finite s m =>
        by_cases hm : m.1 = 0
        · simp [numberDiv, isZero, Binary64.div, hn, hm]
        · cases s <;> cases t <;> simp [numberDiv, isZero, isNegative, Binary64.div, hn, hm]
      | infinity s => cases s <;> cases t <;> simp [numberDiv, isZero, isNegative, Binary64.div, hn]
      | nan => simp [numberDiv, isZero, Binary64.div, hn]
    · simp [numberDiv, isZero, hn, Binary64.div_def]
  | infinity t => rfl
  | nan => rfl

/-- `NumberMod` is the remainder. -/
theorem numberMod_eq (a b : Binary64) : numberMod a b = Binary64.fmod a b := by
  cases b with
  | finite t n =>
    by_cases hn : n.1 = 0
    · cases a <;> simp [numberMod, isZero, Binary64.fmod, hn]
    · simp [numberMod, isZero, hn]
  | infinity t => rfl
  | nan => rfl

/-- The value of an arithmetic operation on two constants. -/
theorem evaluateOp_arith (op : ArithOp) (lhs rhs : Value) (hl : lhs.toNumber = some a) (hr : rhs.toNumber = some b) :
    evaluateOp (.arith op) lhs rhs = some (.ofNumber (op.doubleResult a b)) := by
  cases op <;> simp [evaluateOp, hl, hr, ArithOp.doubleResult, numberDiv_eq, numberMod_eq]

/-- A number made an int32 and back. -/
theorem backToDouble_ofNumber (x : Binary64) : (Value.ofNumber x).backToDouble = .double x := by
  unfold Value.ofNumber
  cases h : x.isInt32 with
  | none => rfl
  | some i => rw [Binary64.isInt32_eq_some_iff.mp h]; rfl

section Arith

variable {ins : MBinaryArithInstruction} {x y i : BitVec 32}

/-- Folding two int32 constants. -/
theorem evaluateConstantOperands_int32 (htype : ins.type = .int32) (hl : ins.left.constantValue = some (.int32 x))
    (hr : ins.right.constantValue = some (.int32 y)) :
    evaluateConstantOperands (.arith ins.op) ins.type ins.left ins.right =
      some ((ins.op.doubleResult (.ofInt32 x) (.ofInt32 y)).isInt32.map .int32) := by
  unfold evaluateConstantOperands
  rw [hl, hr]
  simp only [evaluateOp_arith ins.op (.int32 x) (.int32 y) rfl rfl, htype, Value.ofNumber]
  cases (ins.op.doubleResult (.ofInt32 x) (.ofInt32 y)).isInt32 <;> rfl

/-- Folding two double constants. -/
theorem evaluateConstantOperands_double (htype : ins.type = .double) (hl : ins.left.constantValue = some (.double a))
    (hr : ins.right.constantValue = some (.double b)) :
    evaluateConstantOperands (.arith ins.op) ins.type ins.left ins.right =
      some (some (.double (ins.op.doubleResult a b))) := by
  unfold evaluateConstantOperands
  rw [hl, hr]
  simp only [evaluateOp_arith ins.op (.double a) (.double b) rfl rfl, htype]
  rw [Option.map_some, if_pos trivial, backToDouble_ofNumber]
  rfl

/-- A result that is an int32 passes the check, unless it is a negative zero. -/
theorem checkedInt32_eq {z : ℤ} {negativeZero : Bool} (hz : i.toInt = z) (hneg : negativeZero = false) :
    checkedInt32 z negativeZero = some i := by
  obtain ⟨hl, hh⟩ := Range.toInt_range i
  rw [checkedInt32, if_pos ⟨hz ▸ hl, hz ▸ hh, hneg⟩, ← hz, Range.bits, BitVec.ofInt_toInt]

/-- What is folded is the result, unless it is unsigned. -/
theorem int32Result_eq (h : ins.op.doubleResult (.ofInt32 x) (.ofInt32 y) = .ofInt32 i)
    (hun : ins.isUnsigned = true → ins.op ≠ .div ∧ ins.op ≠ .mod) : ins.int32Result x y = some i := by
  unfold MBinaryArithInstruction.int32Result
  cases hop : ins.op with
  | add =>
    rw [hop] at h
    have hi := Binary64.toInt_of_ofInt32_add h
    simp only
    split
    · congr 1
      apply BitVec.eq_of_toInt_eq
      rw [BitVec.toInt_add, ← hi, BitVec.toInt_bmod_cancel]
    · exact checkedInt32_eq hi rfl
  | sub =>
    rw [hop] at h
    have hi := Binary64.toInt_of_ofInt32_sub h
    simp only
    split
    · congr 1
      apply BitVec.eq_of_toInt_eq
      rw [BitVec.toInt_sub, ← hi, BitVec.toInt_bmod_cancel]
    · exact checkedInt32_eq hi rfl
  | mul =>
    rw [hop] at h
    obtain ⟨hi, hsign⟩ := Binary64.toInt_of_ofInt32_mul h
    simp only
    split
    · congr 1
      apply BitVec.eq_of_toInt_eq
      rw [BitVec.toInt_mul, ← hi, BitVec.toInt_bmod_cancel]
    · refine checkedInt32_eq hi ?_
      rw [hi] at hsign
      by_cases hzero : x.toInt * y.toInt = 0
      · rcases mul_eq_zero.mp hzero with hz | hz <;> simp_all
      · simp [hzero]
  | div =>
    rw [hop] at h
    obtain ⟨hy, hx, hsign⟩ := Binary64.ofInt32_div_eq_iff.mp h
    have hsigned : ins.isUnsigned = false := Bool.eq_false_iff.mpr fun htrue => (hun htrue).1 hop
    have hy0 : y ≠ 0 := fun h0 => hy (by rw [h0]; rfl)
    have hdiv : i.toInt = x.toInt.tdiv y.toInt := by rw [hx, Int.mul_tdiv_cancel _ hy]
    simp only [hsigned, Bool.false_eq_true, if_false]
    by_cases htrunc : ins.isTruncated = true
    · rw [if_pos htrunc]
      congr 1
      apply BitVec.eq_of_toInt_eq
      rw [if_neg hy0, BitVec.toInt_sdiv, ← hdiv, BitVec.toInt_bmod_cancel]
    · rw [if_neg htrunc, if_pos ⟨⟨i.toInt, by rw [hx, mul_comm]⟩, hy⟩]
      refine checkedInt32_eq hdiv ?_
      by_cases hzero : x.toInt = 0
      · have hi0 : i.toInt = 0 := by rw [hdiv, hzero, Int.zero_tdiv]
        simp_all
      · simp [hzero]
  | mod =>
    rw [hop] at h
    obtain ⟨hy, hi, hsign⟩ := Binary64.ofInt32_fmod_eq_iff.mp h
    have hsigned : ins.isUnsigned = false := Bool.eq_false_iff.mpr fun htrue => (hun htrue).2 hop
    have hy0 : y ≠ 0 := fun h0 => hy (by rw [h0]; rfl)
    simp only [hsigned, Bool.false_eq_true, if_false]
    by_cases htrunc : ins.isTruncated = true
    · rw [if_pos htrunc]
      congr 1
      apply BitVec.eq_of_toInt_eq
      rw [if_neg hy0, BitVec.toInt_srem, hi]
    · rw [if_neg htrunc, if_pos hy]
      refine checkedInt32_eq hi ?_
      rw [← hi]
      have hiff := decide_eq_decide.mp hsign
      by_cases hneg : x.toInt < 0
      · have hne : i.toInt ≠ 0 := (hiff.mp hneg).ne
        simp [hne]
      · simp [hneg]

/-- The value of an arithmetic node with int32 operands. -/
theorem evaluate_int32 (hx : ρ.value ins.left = .int32 x) (hy : ρ.value ins.right = .int32 y) :
    (Node.arith ins).evaluate ρ = (ins.int32Result x y).map .int32 := by
  rw [Node.evaluate, MBinaryArithInstruction.evaluate, hx, hy]

/-- The value of an arithmetic node with double operands. -/
theorem evaluate_double (hx : ρ.value ins.left = .double a) (hy : ρ.value ins.right = .double b) :
    (Node.arith ins).evaluate ρ = some (.double (ins.op.doubleResult a b)) := by
  rw [Node.evaluate, MBinaryArithInstruction.evaluate, hx, hy]

/-- Two constants are folded to a value that the node has, if it is the result. -/
theorem preserves_constant_iff (htype : ins.type = .int32) (hx : ρ.value ins.left = .int32 x)
    (hy : ρ.value ins.right = .int32 y) :
    Preserves ρ (.arith ins) (some (.constant (.int32 i))) ↔ ins.int32Result x y = some i := by
  apply Iff.intro
  · rintro ⟨folded, hfolded, -, hvalue⟩
    cases hfolded
    rw [evaluate_int32 hx hy] at hvalue
    obtain ⟨j, hj, heq⟩ := Option.map_eq_some_iff.mp hvalue.symm
    rw [hj, Value.int32.inj heq]
  · intro h
    exact ⟨_, rfl, htype.symm, by rw [evaluate_int32 hx hy, h]; rfl⟩

/-- Folding constants, unless they are unsigned. -/
theorem evaluateConstantOperands_cases (ρ : Valuation) (h : ins.Specialized)
    (hun : ins.isUnsigned = true → ins.specialization = .int32 → ins.op ≠ .div ∧ ins.op ≠ .mod) :
    evaluateConstantOperands (.arith ins.op) ins.type ins.left ins.right = some none ∨
      ∃ v, evaluateConstantOperands (.arith ins.op) ins.type ins.left ins.right = some (some v) ∧
        Preserves ρ (.arith ins) (some (.constant v)) := by
  cases hl : ins.left.constantValue with
  | none => exact Or.inl (by rw [evaluateConstantOperands, hl])
  | some lhs =>
    cases hr : ins.right.constantValue with
    | none => exact Or.inl (by rw [evaluateConstantOperands, hl, hr])
    | some rhs =>
      have hleft := ρ.value_of_constant hl
      have hright := ρ.value_of_constant hr
      have hlt := (type_of_constant hl).symm.trans h.left
      have hrt := (type_of_constant hr).symm.trans h.right
      rcases h.specialization with hspec | hspec
      · have htype := h.type.trans hspec
        obtain ⟨x, rfl⟩ := exists_int32_of_type (hlt.trans htype)
        obtain ⟨y, rfl⟩ := exists_int32_of_type (hrt.trans htype)
        rw [evaluateConstantOperands_int32 htype hl hr]
        cases hfold : (ins.op.doubleResult (.ofInt32 x) (.ofInt32 y)).isInt32 with
        | none => exact Or.inl rfl
        | some i =>
          have hresult := int32Result_eq (Binary64.isInt32_eq_some_iff.mp hfold) fun hu => hun hu hspec
          exact Or.inr ⟨_, rfl, (preserves_constant_iff htype hleft hright).mpr hresult⟩
      · have htype := h.type.trans hspec
        obtain ⟨x, rfl⟩ := exists_double_of_type (hlt.trans htype)
        obtain ⟨y, rfl⟩ := exists_double_of_type (hrt.trans htype)
        rw [evaluateConstantOperands_double htype hl hr]
        exact Or.inr ⟨_, rfl, _, rfl, htype.symm, (evaluate_double hleft hright).symm⟩

/-- An operation on int32 with the identity at its right. -/
theorem int32Result_identity_right {identity : BitVec 32} (x : BitVec 32)
    (hid : MBinaryArithInstruction.getIdentity ins.op = some (.ofInt32 identity)) :
    ins.int32Result x identity = some x := by
  unfold MBinaryArithInstruction.int32Result
  cases hop : ins.op with
  | add =>
    rw [hop] at hid
    have hzero : identity = 0 := Binary64.ofInt32_injective (Option.some.inj hid).symm
    subst hzero
    simp only
    split
    · exact congrArg some (BitVec.add_zero x)
    · exact checkedInt32_eq (by simp) rfl
  | sub =>
    rw [hop] at hid
    have hzero : identity = 0 := Binary64.ofInt32_injective (Option.some.inj hid).symm
    subst hzero
    simp only
    split
    · exact congrArg some (BitVec.sub_zero x)
    · exact checkedInt32_eq (by simp) rfl
  | mul =>
    rw [hop] at hid
    have hone : identity = 1 := Binary64.ofInt32_injective (Option.some.inj hid).symm
    subst hone
    simp only
    split
    · exact congrArg some (BitVec.mul_one x)
    · refine checkedInt32_eq (by simp) ?_
      by_cases hx : x.toInt = 0 <;> simp [hx]
  | div => rw [hop] at hid; cases hid
  | mod => rw [hop] at hid; cases hid

/-- An operation on int32 with the identity at its left. -/
theorem int32Result_identity_left {identity : BitVec 32} (y : BitVec 32) (hop : ins.op ≠ .sub)
    (hid : MBinaryArithInstruction.getIdentity ins.op = some (.ofInt32 identity)) :
    ins.int32Result identity y = some y := by
  have hright := int32Result_identity_right y hid
  unfold MBinaryArithInstruction.int32Result at hright ⊢
  cases hins : ins.op with
  | add =>
    rw [hins] at hright
    simp only at hright ⊢
    rwa [BitVec.add_comm identity, add_comm identity.toInt]
  | sub => exact absurd hins hop
  | mul =>
    rw [hins] at hright
    simp only at hright ⊢
    rwa [BitVec.mul_comm identity, mul_comm identity.toInt, Bool.or_comm (decide (identity.toInt < 0))]
  | div => rw [hins] at hid; cases hid
  | mod => rw [hins] at hid; cases hid

/-- An operation on doubles with the identity at its right. -/
theorem doubleResult_identity_right {identity : Binary64} {op : ArithOp} (x : Binary64) (hop : op ≠ .add)
    (hid : MBinaryArithInstruction.getIdentity op = some identity) : op.doubleResult x identity = x := by
  cases op with
  | add => exact absurd rfl hop
  | sub => cases hid; exact Binary64.sub_zero_eq x
  | mul => cases hid; exact Binary64.mul_one_eq x
  | div => cases hid
  | mod => cases hid

/-- Folding an addition, a subtraction or a multiplication. -/
theorem preserves_foldIdentity {self : Folded} (h : ins.Specialized) (hop : ins.op ≠ .div ∧ ins.op ≠ .mod)
    (hself : Preserves ρ (.arith ins) (some self)) : Preserves ρ (.arith ins) (ins.foldIdentity self) := by
  obtain ⟨identity, hid⟩ : ∃ identity : BitVec 32,
      MBinaryArithInstruction.getIdentity ins.op = some (.ofInt32 identity) := by
    cases hins : ins.op with
    | add => exact ⟨0, rfl⟩
    | sub => exact ⟨0, rfl⟩
    | mul => exact ⟨1, rfl⟩
    | div => exact absurd hins hop.1
    | mod => exact absurd hins hop.2
  have hnone : ins.specialization ≠ .none := by
    rcases h.specialization with hs | hs <;> rw [hs] <;> decide
  unfold MBinaryArithInstruction.foldIdentity
  rw [if_neg hnone, hid]
  rcases evaluateConstantOperands_cases ρ h (fun _ _ => hop) with hconst | ⟨v, hconst, hv⟩
  · rw [hconst]
    simp only [Option.bind_eq_bind, Option.bind_some]
    split
    · exact hself
    · next hadd =>
      rcases h.specialization with hspec | hspec
      · have htype := h.type.trans hspec
        obtain ⟨x, hx⟩ := ρ.int32 _ (h.left.trans htype)
        obtain ⟨y, hy⟩ := ρ.int32 _ (h.right.trans htype)
        obtain ⟨isRight, hr, hright⟩ := isConstant_int32 ρ (h.right.trans htype) identity
        obtain ⟨isLeft, hl, hleft⟩ := isConstant_int32 ρ (h.left.trans htype) identity
        rw [hr, hl]
        simp only [Option.bind_some]
        split
        · next hc =>
          refine preserves_operand h.left ?_
          rw [evaluate_int32 hx (hright hc), int32Result_identity_right x hid, hx]
          rfl
        split
        · exact hself
        split
        · next hsub hc =>
          refine preserves_operand h.right ?_
          rw [evaluate_int32 (hleft hc) hy, int32Result_identity_left y hsub hid, hy]
          rfl
        · exact hself
      · have htype := h.type.trans hspec
        have hne : ins.op ≠ .add := fun hins => hadd ⟨hins, by rw [hspec]; decide⟩
        obtain ⟨x, hx⟩ := ρ.double _ (h.left.trans htype)
        obtain ⟨y, hy⟩ := ρ.double _ (h.right.trans htype)
        obtain ⟨isRight, hr, hright⟩ := isConstant_double ρ (h.right.trans htype) (.ofInt32 identity)
        obtain ⟨isLeft, hl, hleft⟩ := isConstant_double ρ (h.left.trans htype) (.ofInt32 identity)
        rw [hr, hl]
        simp only [Option.bind_some]
        split
        · next hc =>
          refine preserves_operand h.left ?_
          rw [evaluate_double hx (hright hc), doubleResult_identity_right x hne hid, hx]
        split
        · exact hself
        split
        · next hsub hc =>
          refine preserves_operand h.right ?_
          have hmul : ins.op = .mul := by
            cases hins : ins.op <;> simp_all
          have hres := doubleResult_identity_right y hne hid
          rw [hmul] at hres
          rw [evaluate_double (hleft hc) hy, hmul, hy]
          exact congrArg some (congrArg Value.double (hres.symm.trans (Binary64.mul_comm_eq _ _)))
        · exact hself
  · rw [hconst]
    exact hv

/-- A square is no negative zero, so it keeps its value without the check. -/
theorem preserves_withoutNegativeZero {numbers : Option (MDefinition → ℕ)} (hρ : ρ.Respects numbers)
    (h : ins.Specialized) (hop : ins.op = .mul) :
    Preserves ρ (.arith ins) (some (.node (.arith (ins.withoutNegativeZero numbers)))) := by
  unfold MBinaryArithInstruction.withoutNegativeZero
  split
  · next hc =>
    have htype := h.type.trans hc.1
    obtain ⟨x, hx⟩ := ρ.int32 _ (h.left.trans htype)
    have hy := hρ.value_eq hc.2 ▸ hx
    refine ⟨_, rfl, rfl, ?_⟩
    rw [Folded.evaluate, evaluate_int32 hx hy, @evaluate_int32 ρ { ins with canBeNegativeZero := false } x x hx hy]
    congr 1
    unfold MBinaryArithInstruction.int32Result
    simp only [hop]
    split
    · rfl
    · congr 1
      by_cases hzero : x.toInt = 0 <;> simp [hzero]
  · exact preserves_self ρ _

/-- Folding a node of signed arithmetic. -/
theorem arith_foldsTo {numbers : Option (MDefinition → ℕ)} (hρ : ρ.Respects numbers) (h : ins.Specialized)
    (hun : ins.isUnsigned = true → ins.specialization = .int32 → ins.op ≠ .div ∧ ins.op ≠ .mod) :
    Preserves ρ (.arith ins) (ins.foldsTo numbers) := by
  have hconstants : Preserves ρ (.arith ins) ins.foldConstants := by
    unfold MBinaryArithInstruction.foldConstants
    split
    · exact preserves_self ρ _
    · rcases evaluateConstantOperands_cases ρ h hun with hconst | ⟨v, hconst, hv⟩
      · rw [hconst]
        exact preserves_self ρ _
      · rw [hconst]
        exact hv
  unfold MBinaryArithInstruction.foldsTo
  cases hop : ins.op with
  | add => exact preserves_foldIdentity h (by rw [hop]; decide) (preserves_self ρ _)
  | sub => exact preserves_foldIdentity h (by rw [hop]; decide) (preserves_self ρ _)
  | mul => exact preserves_foldIdentity h (by rw [hop]; decide) (preserves_withoutNegativeZero hρ h hop)
  | div => exact hconstants
  | mod => exact hconstants

end Arith

/-! ## Comparisons and complements -/

/-- A Boolean result has the type of its node. -/
theorem type_ofBool {type : MIRType} (h : type = .boolean ∨ type = .int32) (result : Bool) :
    (MCompare.ofBool type result).type = type := by
  rcases h with rfl | rfl <;> rfl

/-- Unsigned integers compare as numbers. -/
theorem compareUInt32_eq (op : CompareOp) (x y : BitVec 32) :
    MCompare.compareUInt32 op x y = op.holds (.finite x.toNat) (.finite y.toNat) := by
  have heq : (x = y) ↔ x.toNat = y.toNat := ⟨fun h => h ▸ rfl, BitVec.eq_of_toNat_eq⟩
  cases op <;>
    simp [MCompare.compareUInt32, CompareOp.holds, ExtRat.lt, ExtRat.le, ExtRat.eq, BitVec.lt_def,
      BitVec.le_def, heq]

/-- Numbers that are compared when they are folded. -/
theorem compareNumbers_eq {op : CompareOp} {result : Bool} (h : MCompare.compareNumbers op a b = some result) :
    result = op.holds a.value b.value := by
  cases op <;> cases h <;> rfl

section Compare

variable {ins : MCompare}

/-- A comparison of numbers is not folded by the types of its operands. -/
theorem tryFold_eq_none (h : ins.Specialized) : ins.tryFold = none := by
  have hinput := h.inputType
  unfold MCompare.inputType at hinput
  unfold MCompare.tryFold
  cases hc : ins.compareType <;> rw [hc] at hinput <;> simp_all

/-- Folding a comparison. -/
theorem compare_foldsTo (h : ins.Specialized) : Preserves ρ (.compare ins) ins.foldsTo := by
  unfold MCompare.foldsTo
  rw [tryFold_eq_none h]
  simp only
  unfold MCompare.evaluateConstantOperands
  rw [if_neg fun hne => h.type.elim hne.1 hne.2]
  have hfold {result : Bool} (hvalue : ins.evaluate ρ = some (MCompare.ofBool ins.type result)) :
      Preserves ρ (.compare ins) (some (.constant (MCompare.ofBool ins.type result))) :=
    ⟨_, rfl, type_ofBool h.type _, hvalue.symm⟩
  cases hl : ins.left.constantValue with
  | none => exact preserves_self ρ _
  | some lhs =>
    cases hr : ins.right.constantValue with
    | none => exact preserves_self ρ _
    | some rhs =>
      have hleft := ρ.value_of_constant hl
      have hright := ρ.value_of_constant hr
      have hlt := (type_of_constant hl).symm.trans h.left
      have hrt := (type_of_constant hr).symm.trans h.right
      rcases h.inputType with hinput | hinput
      · obtain ⟨x, rfl⟩ := exists_int32_of_type (hlt.trans hinput)
        obtain ⟨y, rfl⟩ := exists_int32_of_type (hrt.trans hinput)
        simp only
        split
        · next huint =>
          refine hfold ?_
          rw [MCompare.evaluate, hleft, hright]
          simp only [if_pos huint, compareUInt32_eq]
        · next huint =>
          simp only [Value.toNumber]
          cases hcompare : MCompare.compareNumbers ins.jsop (.ofInt32 x) (.ofInt32 y) with
          | none => exact preserves_self ρ _
          | some result =>
            refine hfold ?_
            rw [MCompare.evaluate, hleft, hright, compareNumbers_eq hcompare]
            simp only [if_neg huint, Binary64.value_ofInt32]
      · obtain ⟨x, rfl⟩ := exists_double_of_type (hlt.trans hinput)
        obtain ⟨y, rfl⟩ := exists_double_of_type (hrt.trans hinput)
        have huint : ins.compareType ≠ .uint32 := fun hc => by
          rw [MCompare.inputType, hc] at hinput
          cases hinput
        simp only [if_neg huint, Value.toNumber]
        cases hcompare : MCompare.compareNumbers ins.jsop x y with
        | none => exact preserves_self ρ _
        | some result =>
          refine hfold ?_
          rw [MCompare.evaluate, hleft, hright, compareNumbers_eq hcompare]

end Compare

/-- Folding a negation. -/
theorem not_foldsTo {ins : MNot} (hoperand : ins.operand.type = .int32 ∨ ins.operand.type = .double)
    (htype : ins.type = .boolean ∨ ins.type = .int32) : Preserves ρ (.not ins) (some ins.foldsTo) := by
  unfold MNot.foldsTo
  cases hv : ins.operand.constantValue with
  | some v => exact ⟨_, rfl, type_ofBool htype _, by rw [Node.evaluate, ρ.value_of_constant hv]; rfl⟩
  | none =>
    simp only
    rw [if_neg, if_neg]
    · exact preserves_self ρ _
    · rcases hoperand with h | h <;> rw [h] <;> exact fun hobject => by cases hobject.1
    · rcases hoperand with h | h <;> rw [h] <;> exact fun hor => by rcases hor with hc | hc <;> cases hc

/-- Folding a complement. -/
theorem bitNot_foldsTo {ins : MBitNot} (hoperand : ins.operand.type = .int32)
    (hspec : ins.specialization = .int32)
    (hinner : ∀ id specialization d, ins.operand = .bitNot id specialization d → specialization = .int32 →
      d.type = .int32) : Preserves ρ (.bitNot ins) ins.foldsTo := by
  unfold MBitNot.foldsTo
  rw [if_neg (not_not.mpr hspec)]
  cases hop : ins.operand with
  | constant id v =>
    obtain ⟨i, rfl⟩ := exists_int32_of_type (show v.type = .int32 by rw [hop] at hoperand; exact hoperand)
    refine ⟨_, rfl, rfl, ?_⟩
    rw [Folded.evaluate, Node.evaluate, hop, ρ.constant]
    rfl
  | bitNot id specialization d =>
    simp only
    split
    · next hs =>
      have hd := hinner _ _ _ hop hs
      obtain ⟨i, hi⟩ := ρ.int32 _ hd
      refine preserves_operand hd ?_
      rw [Node.evaluate, hop, hs, ρ.bitNot id d i hi, hi]
      exact congrArg (fun j => some (Value.int32 j)) (BitVec.not_not).symm
    · exact preserves_self ρ _
  | other id type => exact preserves_self ρ _

/-! ## Unsigned division and remainder -/

/-- The operands for which a signed result is not folded, or is also the unsigned one. -/
def UnsignedAgrees (op : ArithOp) (x y : ℤ) : Prop :=
  match op with
  | .div => y = 0 ∨ ¬y ∣ x ∨ x = 0 ∧ y < 0 ∨ x = jsvalIntMin ∧ y = -1 ∨ 0 ≤ x ∧ 0 < y ∨ y = 1 ∨ x = y
  | .mod => y = 0 ∨ x < 0 ∧ y ∣ x ∨ 0 ≤ x ∧ 0 < y ∨ 0 ≤ x ∧ x < -y
  | _ => True

/-- The unsigned integer of an int32. -/
theorem toInt_cases (x : BitVec 32) : x.toInt = x.toNat ∧ x.toNat < 2 ^ 31 ∨
    x.toInt = x.toNat - 2 ^ 32 ∧ 2 ^ 31 ≤ x.toNat ∧ x.toNat < 2 ^ 32 := by
  have hlt := x.isLt
  rw [BitVec.toInt_eq_toNat_cond]
  split <;> omega

section Unsigned

variable {x y : BitVec 32}

/-- An exact quotient that is no unsigned quotient. -/
theorem udiv_ne {q : BitVec 32} (hq : x.toInt = q.toInt * y.toInt) (hy : y.toInt ≠ 0) (hq0 : q.toInt ≠ 0)
    (hsigns : ¬(0 ≤ x.toInt ∧ 0 < y.toInt)) (hone : y.toInt ≠ 1) (hne : x.toInt ≠ y.toInt) : x.udiv y ≠ q := by
  intro heq
  have hnat : x.toNat / y.toNat = q.toNat := by rw [← heq]; rfl
  have hmag : x.toInt.natAbs = q.toInt.natAbs * y.toInt.natAbs := by rw [hq, Int.natAbs_mul]
  have hypos : 0 < y.toInt.natAbs := Int.natAbs_pos.mpr hy
  have hqpos : 0 < q.toInt.natAbs := Int.natAbs_pos.mpr hq0
  have hyle : y.toInt.natAbs ≤ x.toInt.natAbs := hmag ▸ Nat.le_mul_of_pos_left _ hqpos
  have hx := toInt_cases x
  have hy' := toInt_cases y
  have hq' := toInt_cases q
  rcases lt_or_ge x.toInt 0 with hxneg | hxpos
  · rcases lt_or_ge y.toInt 0 with hyneg | hypos'
    · -- two negative numbers: the divisor is larger, unless they are equal
      have hlt : x.toNat < y.toNat := by
        rcases hyle.lt_or_eq with hlt | hmageq
        · omega
        · exact absurd (by omega) hne
      rw [Nat.div_eq_of_lt hlt] at hnat
      omega
    · -- a negative quotient is large
      have hqneg : q.toInt < 0 := by
        by_contra hqnonneg
        have hnonneg := mul_nonneg (not_lt.mp hqnonneg) hypos'
        omega
      have htwo : x.toNat / y.toNat ≤ x.toNat / 2 := Nat.div_le_div_left (by omega) (by decide)
      omega
  · have hyneg : y.toInt < 0 := by
      by_contra hyn
      exact hsigns ⟨hxpos, by omega⟩
    rw [Nat.div_eq_of_lt (by omega)] at hnat
    omega

/-- A quotient that is folded is the unsigned one exactly if the operands agree. -/
theorem udiv_iff : (∀ i, Binary64.ofInt32 x / .ofInt32 y = .ofInt32 i → (if y = 0 then 0 else x.udiv y) = i) ↔
    UnsignedAgrees .div x.toInt y.toInt := by
  have hzero : y = 0 ↔ y.toInt = 0 := ⟨fun h => by rw [h]; rfl, fun h => BitVec.eq_of_toInt_eq h⟩
  have hx := toInt_cases x
  have hy := toInt_cases y
  apply Iff.intro
  · intro h
    by_contra hagrees
    simp only [UnsignedAgrees, not_or, not_and, not_not] at hagrees
    obtain ⟨hy0, ⟨q, hq⟩, hnegzero, hmin, hsigns, hone, hne⟩ := hagrees
    have hq0 : q ≠ 0 := fun h0 => by
      rw [h0, mul_zero] at hq
      have h1 := hnegzero hq
      have h2 := hsigns (by omega)
      omega
    have hmag : x.toInt.natAbs = y.toInt.natAbs * q.natAbs := by rw [hq, Int.natAbs_mul]
    have hqle : q.natAbs ≤ x.toInt.natAbs := hmag ▸ Nat.le_mul_of_pos_left _ (Int.natAbs_pos.mpr hy0)
    have hqmax : q ≠ 2 ^ 31 := fun h31 => by
      have hyle : y.toInt.natAbs ≤ 1 := by
        have hpow : ((2 : ℤ) ^ 31).natAbs = 2 ^ 31 := rfl
        rw [h31, hpow] at hmag
        omega
      have hcases : y.toInt = -1 := by omega
      rw [h31, hcases] at hq
      exact hmin (by rw [hq]; decide) hcases
    have hi : (BitVec.ofInt 32 q).toInt = q := by
      rw [BitVec.toInt_ofInt, Int.bmod_eq_of_le] <;> omega
    refine udiv_ne (q := BitVec.ofInt 32 q) (by rw [hi, hq, mul_comm]) hy0 (by rwa [hi])
      (fun hs => hsigns hs.1 hs.2) hone hne ?_
    have hsign : (decide (x.toInt < 0) ^^ decide (y.toInt < 0)) = decide (q < 0) := by
      rw [hq]
      rcases lt_or_gt_of_ne hy0 with hyneg | hypos <;> rcases lt_or_gt_of_ne hq0 with hqneg | hqpos
      · have hpos := mul_pos_of_neg_of_neg hyneg hqneg
        simp [hyneg, hqneg, not_lt.mpr hpos.le]
      · have hneg := mul_neg_of_neg_of_pos hyneg hqpos
        simp [hyneg, hneg, not_lt.mpr hqpos.le]
      · have hneg := mul_neg_of_pos_of_neg hypos hqneg
        simp [hqneg, hneg, not_lt.mpr hypos.le]
      · have hpos := mul_pos hypos hqpos
        simp [not_lt.mpr hpos.le, not_lt.mpr hypos.le, not_lt.mpr hqpos.le]
    have hfold := h (BitVec.ofInt 32 q)
      (Binary64.ofInt32_div_eq_iff.mpr ⟨hy0, by rw [hi, hq, mul_comm], by rw [hi]; exact hsign⟩)
    rwa [if_neg fun h0 => hy0 (hzero.mp h0)] at hfold
  · intro hagrees i hfold
    obtain ⟨hy0, hmul, hsign⟩ := Binary64.ofInt32_div_eq_iff.mp hfold
    rw [if_neg fun h0 => hy0 (hzero.mp h0)]
    have hi := toInt_cases i
    apply BitVec.eq_of_toNat_eq
    change x.toNat / y.toNat = i.toNat
    rcases hagrees with h | h | ⟨h, hneg⟩ | ⟨h, hneg⟩ | ⟨hxpos, hypos⟩ | h | h
    · exact absurd h hy0
    · exact absurd ⟨i.toInt, by rw [hmul, mul_comm]⟩ h
    · have hi0 : i.toInt = 0 := by
        rw [h] at hmul
        exact (mul_eq_zero.mp hmul.symm).resolve_right hy0
      rw [h, hi0] at hsign
      simp [hneg] at hsign
    · rw [h, hneg, jsvalIntMin] at hmul
      omega
    · have hipos : 0 ≤ i.toInt := by
        rw [decide_eq_false (not_lt.mpr hxpos), decide_eq_false (not_lt.mpr hypos.le)] at hsign
        exact not_lt.mp (of_decide_eq_false hsign.symm)
      have hxn : (x.toNat : ℤ) = x.toInt := by omega
      have hyn : (y.toNat : ℤ) = y.toInt := by omega
      have hin : (i.toNat : ℤ) = i.toInt := by omega
      have hmuln : x.toNat = i.toNat * y.toNat := by
        have hcast : (x.toNat : ℤ) = i.toNat * y.toNat := by rw [hxn, hyn, hin, hmul]
        exact_mod_cast hcast
      rw [hmuln, Nat.mul_div_cancel _ (by omega)]
    · rw [h, mul_one] at hmul
      have hone : y.toNat = 1 := by omega
      rw [hone, Nat.div_one, BitVec.eq_of_toInt_eq hmul]
    · have hi1 : i.toInt = 1 := by
        rw [h] at hmul
        exact (mul_eq_right₀ hy0).mp hmul.symm
      have hxy := BitVec.eq_of_toInt_eq h
      rw [hxy, Nat.div_self (by omega)]
      omega

/-- A remainder that is folded is the unsigned one exactly if the operands agree. -/
theorem umod_iff :
    (∀ i, Binary64.fmod (.ofInt32 x) (.ofInt32 y) = .ofInt32 i → (if y = 0 then 0 else x.umod y) = i) ↔
      UnsignedAgrees .mod x.toInt y.toInt := by
  have hzero : y = 0 ↔ y.toInt = 0 := ⟨fun h => by rw [h]; rfl, fun h => BitVec.eq_of_toInt_eq h⟩
  have hx := toInt_cases x
  have hy := toInt_cases y
  apply Iff.intro
  · intro h
    by_contra hagrees
    simp only [UnsignedAgrees, not_or, not_and, not_lt] at hagrees
    obtain ⟨hy0, hdvd, hsigns, hsmall⟩ := hagrees
    have hmag : (x.toInt.tmod y.toInt).natAbs < y.toInt.natAbs := by
      rw [Int.natAbs_tmod]
      exact Nat.mod_lt _ (Int.natAbs_pos.mpr hy0)
    have hnonneg : 0 ≤ x.toInt → 0 ≤ x.toInt.tmod y.toInt := Int.tmod_nonneg _
    have hneg : x.toInt < 0 → x.toInt.tmod y.toInt < 0 := fun hxneg => by
      have hle := Int.tmod_nonneg y.toInt (show 0 ≤ -x.toInt by omega)
      have hne : x.toInt.tmod y.toInt ≠ 0 := fun h0 => hdvd hxneg (Int.dvd_of_tmod_eq_zero h0)
      rw [Int.neg_tmod] at hle
      omega
    have hi : (BitVec.ofInt 32 (x.toInt.tmod y.toInt)).toInt = x.toInt.tmod y.toInt := by
      rw [BitVec.toInt_ofInt, Int.bmod_eq_of_le] <;> omega
    have hfold := h (BitVec.ofInt 32 (x.toInt.tmod y.toInt)) (Binary64.ofInt32_fmod_eq_iff.mpr
      ⟨hy0, hi, by rw [hi]; exact decide_eq_decide.mpr ⟨hneg, fun hlt => by by_contra hn; omega⟩⟩)
    rw [if_neg fun h0 => hy0 (hzero.mp h0)] at hfold
    have hnat : x.toNat % y.toNat = (BitVec.ofInt 32 (x.toInt.tmod y.toInt)).toNat := by rw [← hfold]; rfl
    have hcases := toInt_cases (BitVec.ofInt 32 (x.toInt.tmod y.toInt))
    have hlt : x.toNat % y.toNat < y.toNat := Nat.mod_lt _ (by omega)
    rw [hi] at hcases
    rcases lt_or_ge x.toInt 0 with hxneg | hxpos
    · have hrneg := hneg hxneg
      omega
    · have hyneg := hsigns hxpos
      have hle := hsmall hxpos
      rw [Nat.mod_eq_of_lt (by omega)] at hnat
      omega
  · intro hagrees i hfold
    obtain ⟨hy0, hmod, hsign⟩ := Binary64.ofInt32_fmod_eq_iff.mp hfold
    rw [if_neg fun h0 => hy0 (hzero.mp h0)]
    have hi := toInt_cases i
    apply BitVec.eq_of_toNat_eq
    change x.toNat % y.toNat = i.toNat
    rcases hagrees with h | ⟨hneg, hdvd⟩ | ⟨hxpos, hypos⟩ | ⟨hxpos, hlt⟩
    · exact absurd h hy0
    · rw [Int.tmod_eq_zero_of_dvd hdvd] at hmod
      rw [hmod] at hsign
      simp [hneg] at hsign
    · rw [Int.tmod_eq_emod_of_nonneg hxpos] at hmod
      have hxn : (x.toNat : ℤ) = x.toInt := by omega
      have hyn : (y.toNat : ℤ) = y.toInt := by omega
      have hcast : ((x.toNat % y.toNat : ℕ) : ℤ) = i.toInt := by rw [hmod, ← hxn, ← hyn]; push_cast; rfl
      omega
    · rw [← Int.tmod_neg, Int.tmod_eq_emod_of_nonneg hxpos, Int.emod_eq_of_lt hxpos hlt] at hmod
      rw [Nat.mod_eq_of_lt (by omega)]
      omega

end Unsigned

/-! ## All nodes -/

/-- Whether the constant operands of an unsigned node agree with folding them as signed. -/
def Node.Agrees : Node → Prop
  | arith ins => ins.isUnsigned = true → ins.specialization = .int32 → ∀ x y,
      ins.left.constantValue = some (.int32 x) → ins.right.constantValue = some (.int32 y) →
        UnsignedAgrees ins.op x.toInt y.toInt
  | _ => True

section

variable {ins : MBinaryArithInstruction}

/-- What is folded of an unsigned division or remainder is its result exactly if the operands agree. -/
theorem unsigned_iff {x y : BitVec 32} (hun : ins.isUnsigned = true) (hop : ins.op = .div ∨ ins.op = .mod) :
    (∀ i, ins.op.doubleResult (.ofInt32 x) (.ofInt32 y) = .ofInt32 i → ins.int32Result x y = some i) ↔
      UnsignedAgrees ins.op x.toInt y.toInt := by
  unfold MBinaryArithInstruction.int32Result
  rcases hop with hop | hop <;> rw [hop]
  · rw [← udiv_iff]
    simp only [hun, if_true, Option.some.injEq]
    rfl
  · rw [← umod_iff]
    simp only [hun, if_true, Option.some.injEq]
    rfl

/-- Folding an unsigned division or remainder. -/
theorem unsigned_foldsTo_iff {numbers : Option (MDefinition → ℕ)} (h : ins.Specialized)
    (hun : ins.isUnsigned = true) (hspec : ins.specialization = .int32) (hop : ins.op = .div ∨ ins.op = .mod) :
    Preserves ρ (.arith ins) (ins.foldsTo numbers) ↔ (Node.arith ins).Agrees := by
  have htype := h.type.trans hspec
  have hfolds : ins.foldsTo numbers = ins.foldConstants := by
    unfold MBinaryArithInstruction.foldsTo
    rcases hop with hop | hop <;> rw [hop]
  have hnone : ins.specialization ≠ .none := by rw [hspec]; decide
  rw [hfolds, MBinaryArithInstruction.foldConstants, if_neg hnone]
  have hself (hconst : ∀ x y, ins.left.constantValue = some (.int32 x) →
      ins.right.constantValue ≠ some (.int32 y)) :
      Preserves ρ (.arith ins) (some (.node (.arith ins))) ↔ (Node.arith ins).Agrees :=
    ⟨fun _ _ _ x y hx hy => absurd hy (hconst x y hx), fun _ => preserves_self ρ _⟩
  cases hl : ins.left.constantValue with
  | none =>
    rw [evaluateConstantOperands, hl]
    exact hself fun x y hx => by rw [hl] at hx; cases hx
  | some lhs =>
    cases hr : ins.right.constantValue with
    | none =>
      rw [evaluateConstantOperands, hl, hr]
      exact hself fun x y _ hy => by rw [hr] at hy; cases hy
    | some rhs =>
      obtain ⟨x, rfl⟩ := exists_int32_of_type (((type_of_constant hl).symm.trans h.left).trans htype)
      obtain ⟨y, rfl⟩ := exists_int32_of_type (((type_of_constant hr).symm.trans h.right).trans htype)
      have hx := ρ.value_of_constant hl
      have hy := ρ.value_of_constant hr
      have hagrees : (Node.arith ins).Agrees ↔ UnsignedAgrees ins.op x.toInt y.toInt := by
        refine ⟨fun hall => hall hun hspec x y hl hr, fun hag _ _ x' y' hx' hy' => ?_⟩
        rw [hl] at hx'
        rw [hr] at hy'
        cases hx'
        cases hy'
        exact hag
      rw [hagrees, ← unsigned_iff hun hop, evaluateConstantOperands_int32 htype hl hr]
      cases hfold : (ins.op.doubleResult (.ofInt32 x) (.ofInt32 y)).isInt32 with
      | none =>
        refine ⟨fun _ i hi => ?_, fun _ => preserves_self ρ _⟩
        rw [Binary64.isInt32_eq_some_iff.mpr hi] at hfold
        cases hfold
      | some i =>
        refine (preserves_constant_iff htype hx hy).trans ⟨fun hres j hj => ?_, fun hall => hall i ?_⟩
        · rw [Binary64.isInt32_eq_some_iff.mpr hj] at hfold
          cases hfold
          exact hres
        · exact Binary64.isInt32_eq_some_iff.mp hfold

end

/-- Whatever the values of the operands, folding a specialized node keeps its type and its value if and only
if it is no unsigned division or remainder of constants that do not agree. -/
theorem foldsTo_preserves_iff (ρ : Valuation) (numbers : Option (MDefinition → ℕ)) (hρ : ρ.Respects numbers)
    (node : Node) (h : node.Specialized) :
    (Preserves ρ node (node.foldsTo numbers) ∧
        ∀ ins, node = .bitwise ins → Preserves ρ node ins.foldUnnecessaryBitop) ↔ node.Agrees := by
  cases node with
  | bitwise ins =>
    exact ⟨fun _ => trivial, fun _ => ⟨bitwise_foldsTo h, fun ins' heq => by
      cases heq
      exact bitwise_foldUnnecessaryBitop h⟩⟩
  | arith ins =>
    have hbitwise : (∀ ins', Node.arith ins = .bitwise ins' →
        Preserves ρ (.arith ins) ins'.foldUnnecessaryBitop) ↔ True := ⟨fun _ => trivial, fun _ _ heq => by cases heq⟩
    rw [hbitwise, and_true]
    by_cases hun : ins.isUnsigned = true ∧ ins.specialization = .int32 ∧ (ins.op = .div ∨ ins.op = .mod)
    · exact unsigned_foldsTo_iff h hun.1 hun.2.1 hun.2.2
    · have hops (hu : ins.isUnsigned = true) (hs : ins.specialization = .int32) :
          ins.op ≠ .div ∧ ins.op ≠ .mod :=
        not_or.mp fun hor => hun ⟨hu, hs, hor⟩
      refine ⟨fun _ hu hs x y _ _ => ?_, fun _ => arith_foldsTo hρ h hops⟩
      obtain ⟨hdiv, hmod⟩ := hops hu hs
      cases hop : ins.op with
      | div => exact absurd hop hdiv
      | mod => exact absurd hop hmod
      | _ => trivial
  | compare ins => exact ⟨fun _ => trivial, fun _ => ⟨compare_foldsTo h, fun _ heq => by cases heq⟩⟩
  | not ins => exact ⟨fun _ => trivial, fun _ => ⟨not_foldsTo h.1 h.2, fun _ heq => by cases heq⟩⟩
  | bitNot ins => exact ⟨fun _ => trivial, fun _ => ⟨bitNot_foldsTo h.1 h.2.1 h.2.2, fun _ heq => by cases heq⟩⟩

/-- The value of a definition if all that is not known of a type is the same. -/
def valueOf (i : BitVec 32) (x : Binary64) : MDefinition → Value
  | .constant _ v => v
  | .bitNot _ specialization d =>
    match specialization, valueOf i x d with
    | .int32, .int32 j => .int32 (~~~j)
    | _, _ => .int32 i
  | .other _ type => if type = .int32 then .int32 i else if type = .double then .double x else .undefined

/-- The type of these values. -/
theorem type_valueOf (i : BitVec 32) (x : Binary64) (d : MDefinition) (h : d.type = .int32 ∨ d.type = .double) :
    (valueOf i x d).type = d.type := by
  cases d with
  | constant id v => rfl
  | bitNot id s d =>
    unfold valueOf
    split <;> rfl
  | other id t => rcases h with h | h <;> simp only [MDefinition.type] at h <;> rw [h] <;> rfl

/-- These values as a valuation. -/
def Valuation.uniform (i : BitVec 32) (x : Binary64) : Valuation where
  value := valueOf i x
  int32 d h := exists_int32_of_type ((type_valueOf i x d (Or.inl h)).trans h)
  double d h := exists_double_of_type ((type_valueOf i x d (Or.inr h)).trans h)
  constant _ _ := rfl
  bitNot id d j h := by simp only [valueOf, h]

/-- The unsigned division of two constants. -/
def unsignedDivision (x y : BitVec 32) : MBinaryArithInstruction :=
  ⟨.div, .constant 0 (.int32 x), .constant 1 (.int32 y), .int32, .int32, true, true, true⟩

/-- The unsigned division of six by three. -/
theorem foldsTo_preserves_iff_six :
    (Preserves (.uniform 0 .nan) (.arith (unsignedDivision 6 3)) ((Node.arith (unsignedDivision 6 3)).foldsTo none) ∧
        ∀ ins, Node.arith (unsignedDivision 6 3) = .bitwise ins →
          Preserves (.uniform 0 .nan) (.arith (unsignedDivision 6 3)) ins.foldUnnecessaryBitop) ↔
      (Node.arith (unsignedDivision 6 3)).Agrees :=
  foldsTo_preserves_iff (.uniform 0 .nan) none nofun (.arith (unsignedDivision 6 3)) ⟨rfl, rfl, rfl, Or.inl rfl⟩

/-- The unsigned division of 2 ^ 32 - 4 by two is folded to -2. -/
theorem unsignedDivision_folds_signed :
    (unsignedDivision (-4) 2).foldsTo none = some (.constant (.int32 (-2))) ∧
      (unsignedDivision (-4) 2).evaluate (.uniform 0 .nan) = some (.int32 2147483646) := by
  apply And.intro
  · have hdiv : (ArithOp.doubleResult .div (.ofInt32 (-4)) (.ofInt32 2)).isInt32 = some (-2) :=
      Binary64.isInt32_eq_some_iff.mpr (Binary64.ofInt32_div_eq_iff.mpr (by decide))
    have hfold := @evaluateConstantOperands_int32 (unsignedDivision (-4) 2) (-4) 2 rfl rfl rfl
    change (unsignedDivision (-4) 2).foldConstants = _
    rw [MBinaryArithInstruction.foldConstants, hfold]
    simp only [unsignedDivision, hdiv]
    rfl
  · have hresult : (unsignedDivision (-4) 2).int32Result (-4) 2 = some 2147483646 := by decide
    have hvalue := @evaluate_int32 (.uniform 0 .nan) (unsignedDivision (-4) 2) (-4) 2 rfl rfl
    rw [hresult] at hvalue
    exact hvalue

end SpiderMonkey.Jit.MIR
