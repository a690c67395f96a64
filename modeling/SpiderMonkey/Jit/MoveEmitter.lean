import SpiderMonkey.Jit.MoveResolver
import Mathlib.Data.BitVec

/-!
# Cycles of moves between registers

`MoveEmitterX86` breaks a cycle of moves with a stack slot, unless all destinations are registers of one class that
are moved in turn, and few enough to be exchanged. A general register has `w` bits, and a move of an int32 copies 32
of them. Operands in memory never take part in a cycle that is exchanged, so that the moves here are those between
registers.
-/

namespace SpiderMonkey.Jit

namespace MoveOperand

/-- `isGeneralReg`. -/
def isGeneralReg : MoveOperand → Bool
  | reg _ => true
  | _ => false

/-- `isFloatReg`. -/
def isFloatReg : MoveOperand → Bool
  | floatReg _ => true
  | _ => false

end MoveOperand

namespace MoveEmitter

/-- What `characterizeCycle` returns, with its two out parameters. A swap count of -1 is `none`. -/
structure Characterization where
  swapCount : Option ℕ
  allGeneralRegs : Bool
  allFloatRegs : Bool
  deriving DecidableEq

/-- A cycle that is not optimized. -/
def Characterization.failed : Characterization := ⟨none, false, false⟩

/-- The loop of `characterizeCycle` from `j`, and the check after it. It is `none` where the source reads past the
moves. -/
def characterizeLoop (moves : List MoveOp) (i j swapCount : ℕ) (allGeneralRegs allFloatRegs : Bool) :
    Option Characterization :=
  match _h : moves[j]? with
  | none => none
  | some move =>
    let allGeneralRegs := allGeneralRegs && move.toOp.isGeneralReg
    let allFloatRegs := allFloatRegs && move.toOp.isFloatReg
    if !allGeneralRegs && !allFloatRegs then some .failed
    else if j ≠ i ∧ move.cycleEnd then do
      -- the last move cycles back to the first move
      let move ← moves[i + swapCount]?
      let first ← moves[i]?
      if move.fromOp ≠ first.toOp then some .failed
      else some ⟨some swapCount, allGeneralRegs, allFloatRegs⟩
    else
      match moves[j + 1]? with
      | none => none
      | some next =>
        if move.fromOp ≠ next.toOp then some .failed
        else characterizeLoop moves i (j + 1) (swapCount + 1) allGeneralRegs allFloatRegs
termination_by moves.length - j
decreasing_by
  have hlt := (List.getElem?_eq_some_iff.mp ‹_›).1
  omega

/-- `characterizeCycle`. -/
def characterizeCycle (moves : List MoveOp) (i : ℕ) : Option Characterization :=
  characterizeLoop moves i i 0 true true

/-- The instructions of an optimized cycle. -/
inductive Instruction where
  | xchg (a b : ℕ)
  | xorpd (src dest : ℕ)
  deriving DecidableEq

/-- `masm.xchg` of the destinations of a move and the next one. -/
def xchgNext (moves : List MoveOp) (k : ℕ) : Option Instruction := do
  let .reg a := (← moves[k]?).toOp | none
  let .reg b := (← moves[k + 1]?).toOp | none
  some (.xchg a b)

/-- `maybeEmitOptimizedCycle`: the code of the cycle, or `none` if it is not optimized. -/
def maybeEmitOptimizedCycle (moves : List MoveOp) (i : ℕ) (c : Characterization) : Option (List Instruction) := do
  let swapCount ← c.swapCount
  if c.allGeneralRegs ∧ swapCount ≤ 2 then (List.range swapCount).mapM fun k => xchgNext moves (i + k)
  else if c.allFloatRegs ∧ swapCount = 1 then
    let .floatReg a := (← moves[i]?).toOp | none
    let .floatReg b := (← moves[i + 1]?).toOp | none
    some [.xorpd a b, .xorpd b a, .xorpd a b]
  else none

/-- The contents of the registers. -/
structure Registers (w : ℕ) where
  general : ℕ → BitVec w
  float : ℕ → BitVec 128

section Machine

variable {w : ℕ}

/-- The registers after an instruction. -/
def Instruction.run (s : Registers w) : Instruction → Registers w
  | xchg a b => { s with general := Function.update (Function.update s.general a (s.general b)) b (s.general a) }
  | xorpd src dest => { s with float := Function.update s.float dest (s.float dest ^^^ s.float src) }

/-- The registers after the code of an optimized cycle. -/
def runOptimized (s : Registers w) (code : List Instruction) : Registers w := code.foldl Instruction.run s

/-- What a 32-bit move leaves of a general register. -/
def low32 (v : BitVec w) : BitVec w := (v.setWidth 32).setWidth w

/-- A move between registers: `emitInt32Move`, `emitGeneralMove`, `emitFloat32Move` and `emitDoubleMove`. -/
def emitRegisterMove (type : MoveType) (fromOp toOp : MoveOperand) (s : Registers w) : Option (Registers w) :=
  match type, fromOp, toOp with
  | .general, .reg a, .reg b => some { s with general := Function.update s.general b (s.general a) }
  | .int32, .reg a, .reg b => some { s with general := Function.update s.general b (low32 (s.general a)) }
  | .float32, .floatReg a, .floatReg b => some { s with float := Function.update s.float b (s.float a) }
  | .double, .floatReg a, .floatReg b => some { s with float := Function.update s.float b (s.float a) }
  | _, _, _ => none

/-- What `breakCycle` saves: a word that it pushes, or the bits it stores into the cycle slot. -/
inductive Saved (w : ℕ) where
  | pushed (v : BitVec w)
  | slot (bits : BitVec 64)

/-- `breakCycle`. -/
def breakCycle (toOp : MoveOperand) (type : MoveType) (s : Registers w) : Option (Saved w) :=
  match type, toOp with
  | .float32, .floatReg a => some (.slot (((s.float a).setWidth 32).setWidth 64))
  | .double, .floatReg a => some (.slot ((s.float a).setWidth 64))
  | .int32, .reg a => some (.slot (((s.general a).setWidth 32).setWidth 64))
  | .general, .reg a => some (.pushed (s.general a))
  | _, _ => none

/-- `completeCycle`. -/
def completeCycle (toOp : MoveOperand) (type : MoveType) (saved : Saved w) (s : Registers w) :
    Option (Registers w) :=
  match type, toOp, saved with
  | .float32, .floatReg a, .slot bits =>
    some { s with float := Function.update s.float a ((bits.setWidth 32).setWidth 128) }
  | .double, .floatReg a, .slot bits => some { s with float := Function.update s.float a (bits.setWidth 128) }
  | .int32, .reg a, .slot bits =>
    some { s with general := Function.update s.general a ((bits.setWidth 32).setWidth w) }
  | .general, .reg a, .pushed v => some { s with general := Function.update s.general a v }
  | _, _, _ => none

/-- A step of `emit` that does not optimize cycles, with what is saved inside of one. -/
def emitThroughStack (state : Registers w × Option (Saved w)) (move : MoveOp) :
    Option (Registers w × Option (Saved w)) :=
  if move.cycleEnd then do
    let saved ← state.2
    let s ← completeCycle move.toOp move.type saved state.1
    some (s, none)
  else if move.cycleBegin then
    match state.2 with
    | some _ => none
    | none => do
      let endCycleType ← move.endCycleType
      let saved ← breakCycle move.toOp endCycleType state.1
      let s ← emitRegisterMove move.type move.fromOp move.toOp state.1
      some (s, some saved)
  else do
    let s ← emitRegisterMove move.type move.fromOp move.toOp state.1
    some (s, state.2)

/-- The value of a type in a register: a word, an int32, a float or a double. -/
def valueIn (type : MoveType) (operand : MoveOperand) (s : Registers w) : Option ℕ :=
  match type, operand with
  | .general, .reg a => some (s.general a).toNat
  | .int32, .reg a => some ((s.general a).toNat % 2 ^ 32)
  | .float32, .floatReg a => some ((s.float a).toNat % 2 ^ 32)
  | .double, .floatReg a => some ((s.float a).toNat % 2 ^ 64)
  | _, _ => none

end Machine

end MoveEmitter

end SpiderMonkey.Jit
