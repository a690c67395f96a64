import Mathlib
import SpiderMonkey.Jit.LiveInterval

/-!
# Splitting in the backtracking allocator

`splitAt` and `splitAtAllRegisterUses` replace an interval by smaller ones for its definition and its register
uses, and by a spill interval for everything else, unless an earlier split has made one. An assertion that does
not hold is a failure here, and so is a position without an instruction. Allocation failures, the queue and hints
are left out.
-/

namespace SpiderMonkey.Jit.Backtracking

/-! ## Instructions, uses and registers -/

/-- `LUse::Policy`. -/
inductive Policy where
  | ANY
  | REGISTER
  | FIXED
  | KEEPALIVE
  | RECOVERED_INPUT
  deriving DecidableEq

/-- `LUse`: the policy, and which operand of its instruction the use is. -/
structure LUse where
  policy : Policy
  operand : ℕ
  deriving DecidableEq

/-- `LInstruction`: its definitions and temporaries that must reuse an input, with the operand, and whether the
register of the definition must copy its input. -/
structure LInstruction where
  isNop : Bool
  isOsiPoint : Bool
  reusedInputs : List (ℕ × Bool)

/-- An interval of the allocator. -/
abbrev Interval := LiveInterval LUse

/-- A virtual register: whether a phi defines it, and whether the output of a preset definition is a register. -/
structure VirtualRegister where
  isPhi : Bool
  presetOutput : Option Bool
  intervals : List Interval

/-- `inputOf`, for the instruction at a position. -/
def inputOf (pos : ℕ) : ℕ := 2 * (pos / 2)

/-- `outputOf`. -/
def outputOf (ins : ℕ) : ℕ := 2 * ins + 1

/-- The loop of `minimalDefEnd`, over the instructions behind `ins`. -/
def minimalDefEndLoop : List LInstruction → ℕ → Option ℕ
  | [], _ => none
  | next :: rest, ins =>
    if !next.isNop && !next.isOsiPoint then some (outputOf ins) else minimalDefEndLoop rest (ins + 1)

/-- `minimalDefEnd`. -/
def minimalDefEnd (insData : List LInstruction) (ins : ℕ) : Option ℕ :=
  minimalDefEndLoop (insData.drop (ins + 1)) ins

/-- `isReusedInput`. -/
def isReusedInput (use : LUse) (ins : LInstruction) (considerCopy : Bool) : Bool :=
  match ins.reusedInputs.find? fun d => d.1 = use.operand with
  | some d => considerCopy || !d.2
  | none => false

/-- `isRegisterUse`. -/
def isRegisterUse (use : LUse) (ins : LInstruction) (considerCopy : Bool) : Bool :=
  match use.policy with
  | .ANY => isReusedInput use ins considerCopy
  | .REGISTER => true
  | .FIXED => true
  | _ => false

/-- `isRegisterDefinition`, for the interval with an index. -/
def isRegisterDefinition (reg : VirtualRegister) (index : ℕ) : Bool :=
  if index ≠ 0 then false
  else if reg.isPhi then false
  else reg.presetOutput ≠ some false

/-! ## Building intervals -/

/-- `LiveInterval::New`. -/
def new : Interval := ⟨[], [], 2 ^ 64 - 1⟩

/-- `addUseAtEnd`. -/
def addUseAtEnd (i : Interval) (u : ℕ × LUse) : Option Interval :=
  if i.uses.getLast?.any fun back => u.1 < back.1 then none else some { i with uses := i.uses ++ [u] }

/-- `newIntervals.back()->addUseAtEnd`, where the latest of the new intervals is the first of the list. -/
def addUseToBack (newIntervals : List Interval) (u : ℕ × LUse) : Option (List Interval) :=
  match newIntervals with
  | [] => none
  | back :: rest => (addUseAtEnd back u).map (· :: rest)

/-- The ranges of the interval from a position on are added to a spill interval. -/
def addRangesFrom (spillStart : ℕ) : List LiveRange → Interval → Option Interval
  | [], spill => some spill
  | range :: ranges, spill => do
    let fromPos := if range.fromPos < spillStart then spillStart else range.fromPos
    let spill ← spill.addRange fromPos range.toPos
    addRangesFrom spillStart ranges spill

/-- Where the spill interval starts: behind the definition, if it is one of a register. -/
def spillStartOf (insData : List LInstruction) (reg : VirtualRegister) (index start : ℕ) : Option ℕ :=
  if isRegisterDefinition reg index then (minimalDefEnd insData (start / 2)).map (· + 1) else some start

/-- The spill interval of an interval, or a new one with its ranges. -/
def spillOf (interval : Interval) (spillInterval : Option Interval) (spillStart : ℕ) : Option Interval :=
  match spillInterval with
  | some spill => some spill
  | none => addRangesFrom spillStart interval.ranges new

/-- What an interval is split into, and the spill interval. -/
structure Pieces where
  newIntervals : List Interval
  spillInterval : Interval
  spillIntervalIsNew : Bool

/-- The new intervals, with the spill interval if it is one of them. -/
def Pieces.all (p : Pieces) : List Interval :=
  p.newIntervals ++ if p.spillIntervalIsNew then [p.spillInterval] else []

/-! ## `splitAtAllRegisterUses` -/

section AllRegisterUses

variable (insData : List LInstruction) (spillStart : ℕ) (spillIntervalIsNew : Bool)

/-- `addLiveInterval`. -/
def addLiveInterval (newIntervals : List Interval) (fromPos toPos : ℕ) : Option (List Interval) :=
  (new.addRange fromPos toPos).map (· :: newIntervals)

/-- A turn of the loop over the uses. -/
def splitUse (s : List Interval × Interval) (u : ℕ × LUse) : Option (List Interval × Interval) := do
  let (newIntervals, spillInterval) := s
  let ins ← insData[u.1 / 2]?
  if u.1 < spillStart then
    let newIntervals ← addUseToBack newIntervals u
    some (newIntervals, spillInterval)
  else if isRegisterUse u.2 ins false then
    let fromPos := inputOf u.1
    let toPos := u.1 + 1
    -- Duplicate use positions share an interval, unless the uses are fixed.
    let newIntervals ←
      if newIntervals.head?.bind LiveInterval.stop ≠ some toPos ∨ u.2.policy = .FIXED then
        addLiveInterval newIntervals fromPos toPos
      else some newIntervals
    let newIntervals ← addUseToBack newIntervals u
    some (newIntervals, spillInterval)
  else if spillIntervalIsNew then
    let spillInterval ← addUseAtEnd spillInterval u
    some (newIntervals, spillInterval)
  else none

/-- `splitAtAllRegisterUses`, up to `split`. -/
def splitAtAllRegisterUses (reg : VirtualRegister) (index : ℕ) (interval : Interval)
    (spillInterval : Option Interval) : Option Pieces := do
  let start ← interval.start
  let spillStart ← spillStartOf insData reg index start
  let newIntervals ←
    if isRegisterDefinition reg index then addLiveInterval [] start spillStart else some []
  let spill ← spillOf interval spillInterval spillStart
  let (newIntervals, spill) ←
    interval.uses.foldlM (splitUse insData spillStart spillInterval.isNone) (newIntervals, spill)
  some ⟨newIntervals.reverse, spill, spillInterval.isNone⟩

end AllRegisterUses

/-! ## `splitAt` -/

/-- `NextSplitPosition`, on the split positions from the active one on. -/
def nextSplitPosition (splitPositions : List ℕ) (currentPos : ℕ) : List ℕ :=
  splitPositions.dropWhile (· ≤ currentPos)

/-- `SplitHere`. -/
def splitHere (splitPositions : List ℕ) (currentPos : ℕ) : Bool :=
  match splitPositions with
  | [] => false
  | active :: _ => currentPos ≥ active

/-- The new intervals, the spill interval, the last register use, and the split positions from the active one on.
-/
structure SplitState where
  newIntervals : List Interval
  spillInterval : Interval
  lastRegisterUse : ℕ
  splitPositions : List ℕ

/-- A turn of the loop over the uses. -/
def splitAtUse (insData : List LInstruction) (spillStart : ℕ) (spillIntervalIsNew : Bool) (s : SplitState)
    (u : ℕ × LUse) : Option SplitState := do
  let ins ← insData[u.1 / 2]?
  if u.1 < spillStart then
    let newIntervals ← addUseToBack s.newIntervals u
    some { s with newIntervals, splitPositions := nextSplitPosition s.splitPositions u.1 }
  else if isRegisterUse u.2 ins false then
    -- A split point between this register use and the last one.
    let s :=
      if s.lastRegisterUse = 0 ∨ splitHere s.splitPositions u.1 then
        { s with
          newIntervals := new :: s.newIntervals
          splitPositions := nextSplitPosition s.splitPositions u.1 }
      else s
    let newIntervals ← addUseToBack s.newIntervals u
    some { s with newIntervals, lastRegisterUse := u.1 }
  else if spillIntervalIsNew then
    let spillInterval ← addUseAtEnd s.spillInterval u
    some { s with spillInterval }
  else none

/-- The positions that a new interval is to cover. -/
def newBounds (start spillStart : ℕ) (isFirst : Bool) (newInterval : Interval) : Option (ℕ × ℕ) :=
  if isFirst && spillStart ≠ start then
    match newInterval.uses.getLast? with
    | none => some (start, spillStart)
    | some back => some (start, back.1 + 1)
  else do
    let front ← newInterval.uses.head?
    let back ← newInterval.uses.getLast?
    some (inputOf front.1, back.1 + 1)

/-- The loop over the active ranges, the earliest first. -/
def fillRanges (start stop : ℕ) : List LiveRange → Interval → Option (Interval × List LiveRange)
  | [], newInterval => some (newInterval, [])
  | range :: ranges, newInterval =>
    if range.toPos ≤ start then fillRanges start stop ranges newInterval
    else if range.fromPos ≥ stop then some (newInterval, range :: ranges)
    else do
      let newInterval ← newInterval.addRange (max range.fromPos start) (min range.toPos stop)
      if range.toPos ≥ stop then some (newInterval, range :: ranges)
      else fillRanges start stop ranges newInterval

/-- The loop that computes the ranges of the new intervals. -/
def fillIntervals (start spillStart : ℕ) : Bool → List LiveRange → List Interval → Option (List Interval)
  | _, _, [] => some []
  | isFirst, ranges, newInterval :: rest => do
    let (fromPos, toPos) ← newBounds start spillStart isFirst newInterval
    let (newInterval, ranges) ← fillRanges fromPos toPos ranges newInterval
    let rest ← fillIntervals start spillStart false ranges rest
    some (newInterval :: rest)

/-- `splitAt`, up to `split`. -/
def splitAt (insData : List LInstruction) (reg : VirtualRegister) (index : ℕ) (interval : Interval)
    (spillInterval : Option Interval) (splitPositions : List ℕ) : Option Pieces := do
  -- The split positions should be non-empty and sorted.
  if splitPositions = [] ∨ ¬ splitPositions.Pairwise (· < ·) then none
  else
    let start ← interval.start
    let spillStart ← spillStartOf insData reg index start
    let spill ← spillOf interval spillInterval spillStart
    let state : SplitState :=
      { newIntervals := if spillStart ≠ start then [new] else []
        spillInterval := spill
        lastRegisterUse := if spillStart ≠ start then start else 0
        splitPositions := nextSplitPosition splitPositions start }
    let state ← interval.uses.foldlM (splitAtUse insData spillStart spillInterval.isNone) state
    let newIntervals ← fillIntervals start spillStart true interval.ranges.reverse state.newIntervals.reverse
    some ⟨newIntervals, state.spillInterval, spillInterval.isNone⟩

/-! ## `split` -/

/-- `addInterval`: before the first interval that starts later. -/
def addInterval (intervals : List Interval) (interval : Interval) : Option (List Interval) := do
  let start ← interval.start
  let rec insert : List Interval → Option (List Interval)
    | [] => some [interval]
    | i :: rest => do
      if start < (← i.start) then some (interval :: i :: rest)
      else some (i :: (← insert rest))
  insert intervals

/-- The index of the earliest interval. -/
def findFirst : List Interval → Option ℕ
  | [] => none
  | [_] => some 0
  | i :: rest => do
    let k ← findFirst rest
    let other ← rest[k]?
    some (if (← other.start) < (← i.start) then k + 1 else 0)

/-- `split`: the intervals of the register, with the earliest of the new ones in the place of the old one. -/
def split (intervals : List Interval) (index : ℕ) (newIntervals : List Interval) : Option (List Interval) := do
  if newIntervals.length < 2 then none
  else
    let k ← findFirst newIntervals
    let first ← newIntervals[k]?
    (newIntervals.eraseIdx k).foldlM addInterval (intervals.set index first)

end SpiderMonkey.Jit.Backtracking
