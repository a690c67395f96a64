import Mathlib.Data.Nat.Notation

/-!
# Live intervals

The code positions where a virtual register is live, as ranges in a vector, the last range first, and the
uses of the register in a list. Ranges are added, cut off and split in place, and queries start where the
last one ended.

A position is its number. An assertion that does not hold is a failure here, and so is reading the start or
the end of an interval that has no ranges.
-/

namespace SpiderMonkey.Jit

/-- `LiveInterval::Range`: the end is exclusive. -/
structure LiveRange where
  fromPos : ℕ
  toPos : ℕ
  deriving DecidableEq, Repr

/-- `CodePosition::MIN`. -/
def CodePosition.MIN : ℕ := 0

/-- An interval: its ranges, the uses with their positions, and `lastProcessedRange_`, which may be any
number. -/
structure LiveInterval (U : Type) where
  ranges : List LiveRange
  uses : List (ℕ × U)
  lastProcessedRange : ℕ

namespace LiveInterval

variable {U : Type}

/-- `start`. -/
def start (i : LiveInterval U) : Option ℕ := i.ranges.getLast?.map (·.fromPos)

/-- `end`. -/
def stop (i : LiveInterval U) : Option ℕ := i.ranges.head?.map (·.toPos)

/-- `lastProcessedRangeIfValid`. -/
def lastProcessedRangeIfValid (i : LiveInterval U) (pos : ℕ) : ℕ :=
  if i.ranges[i.lastProcessedRange]?.any fun r => r.fromPos ≤ pos then i.lastProcessedRange
  else i.ranges.length - 1

/-- `addRangeAtHead`. -/
def addRangeAtHead (i : LiveInterval U) (fromPos toPos : ℕ) : Option (LiveInterval U) :=
  if ¬fromPos < toPos then none
  else
    match i.ranges.getLast? with
    | none => some { i with ranges := [⟨fromPos, toPos⟩] }
    | some first =>
      if toPos < first.fromPos then some { i with ranges := i.ranges ++ [⟨fromPos, toPos⟩] }
      else if toPos = first.fromPos then
        some { i with ranges := i.ranges.dropLast ++ [{ first with fromPos }] }
      else if ¬fromPos < first.toPos then none
      else
        let first := if fromPos < first.fromPos then { first with fromPos } else first
        let first := if first.toPos < toPos then { first with toPos } else first
        some { i with ranges := i.ranges.dropLast ++ [first] }

/-- The first loop of `addRange`, from the back of the vector on: how many ranges are left when it stops,
and the new range. -/
def findPlace (ranges : List LiveRange) (new : LiveRange) : ℕ → ℕ × LiveRange
  | 0 => (0, new)
  | i + 1 =>
    match ranges[i]? with
    | none => (i + 1, new)
    | some r =>
      if new.fromPos ≤ r.toPos then
        (i + 1, if r.fromPos < new.fromPos then { new with fromPos := r.fromPos } else new)
      else findPlace ranges new i

/-- The second loop of `addRange`: ranges that the new one reaches are erased. -/
def coalesce : ℕ → List LiveRange → LiveRange → ℕ × List LiveRange × LiveRange
  | 0, ranges, new => (0, ranges, new)
  | i + 1, ranges, new =>
    match ranges[i]? with
    | none => (i + 1, ranges, new)
    | some r =>
      if new.toPos < r.fromPos then (i + 1, ranges, new)
      else
        coalesce i (ranges.eraseIdx i) (if new.toPos < r.toPos then { new with toPos := r.toPos } else new)

/-- `addRange`. -/
def addRange (i : LiveInterval U) (fromPos toPos : ℕ) : Option (LiveInterval U) :=
  if ¬fromPos < toPos then none
  else
    let place := findPlace i.ranges ⟨fromPos, toPos⟩ i.ranges.length
    let (place, ranges, new) := coalesce place.1 i.ranges place.2
    some { i with ranges := ranges.insertIdx place new }

/-- The loop of `setFrom`, which ends when no range is left. -/
def setFromLoop (fromPos : ℕ) : ℕ → List LiveRange → List LiveRange
  | 0, ranges => ranges
  | n + 1, ranges =>
    match ranges.getLast? with
    | none => ranges
    | some back =>
      if back.toPos < fromPos then setFromLoop fromPos n ranges.dropLast
      else if fromPos = back.toPos then ranges.dropLast
      else ranges.dropLast ++ [{ back with fromPos }]

/-- `setFrom`. -/
def setFrom (i : LiveInterval U) (fromPos : ℕ) : LiveInterval U :=
  { i with ranges := setFromLoop fromPos i.ranges.length i.ranges }

/-- The loop of `covers`, from a range on to those behind it: how many there are, and the range that was
processed last. -/
def coversLoop (ranges : List LiveRange) (pos : ℕ) : ℕ → ℕ → Bool × ℕ
  | 0, last => (false, last)
  | i + 1, last =>
    match ranges[i]? with
    | none => (false, last)
    | some r =>
      if pos < r.fromPos then (false, last)
      else if pos < r.toPos then (true, i)
      else coversLoop ranges pos i i

/-- `covers`. -/
def covers (i : LiveInterval U) (pos : ℕ) : Option (Bool × LiveInterval U) := do
  let first ← i.start
  let last ← i.stop
  if pos < first ∨ last ≤ pos then some (false, i)
  else
    let (found, last) :=
      coversLoop i.ranges pos (i.lastProcessedRangeIfValid pos + 1) i.lastProcessedRange
    some (found, { i with lastProcessedRange := last })

/-- The loop of `nextCoveredAfter`, from a range on, with the range before it in the vector. -/
def nextCoveredLoop (pos : ℕ) : Option LiveRange → List LiveRange → ℕ
  | _, [] => CodePosition.MIN
  | above, r :: ranges =>
    if r.toPos ≤ pos then
      match above with
      | some next => next.fromPos
      | none => CodePosition.MIN
    else if r.fromPos ≤ pos then pos
    else nextCoveredLoop pos (some r) ranges

/-- `nextCoveredAfter`. -/
def nextCoveredAfter (i : LiveInterval U) (pos : ℕ) : ℕ := nextCoveredLoop pos none i.ranges

/-- The loop of `intersect`: the ranges that both intervals have come to, and the range of the first one
that was processed last. Each step goes to the next range of one of them. -/
def intersectLoop (this other : LiveInterval U) (thisEnd otherStart otherEnd : ℕ) :
    ℕ → ℕ → ℕ → ℕ → Option (ℕ × ℕ)
  | 0, _, _, _ => none
  | fuel + 1, i, j, last => do
    let r1 ← this.ranges[i]?
    let r2 ← other.ranges[j]?
    if r1.fromPos ≤ r2.fromPos then
      let last := if r1.fromPos ≤ otherStart then i else last
      if r2.fromPos < r1.toPos then some (r2.fromPos, last)
      else if i = 0 then some (CodePosition.MIN, last)
      else do
        let next ← this.ranges[i - 1]?
        if otherEnd < next.fromPos then some (CodePosition.MIN, last)
        else intersectLoop this other thisEnd otherStart otherEnd fuel (i - 1) j last
    else if r1.fromPos < r2.toPos then some (r1.fromPos, last)
    else if j = 0 then some (CodePosition.MIN, last)
    else do
      let next ← other.ranges[j - 1]?
      if thisEnd < next.fromPos then some (CodePosition.MIN, last)
      else intersectLoop this other thisEnd otherStart otherEnd fuel i (j - 1) last

/-- `intersect` where the first interval does not start behind the second one. -/
def intersectFrom (this other : LiveInterval U) : Option (ℕ × LiveInterval U) := do
  let otherStart ← other.start
  let thisEnd ← this.stop
  let otherEnd ← other.stop
  let i := this.lastProcessedRangeIfValid otherStart
  let j := other.ranges.length - 1
  let (pos, last) ←
    intersectLoop this other thisEnd otherStart otherEnd (i + j + 1) i j this.lastProcessedRange
  some (pos, { this with lastProcessedRange := last })

/-- The loop of `splitFrom`, from the back of the vector on: what is moved back, and what is left. -/
def splitLoop (pos : ℕ) : ℕ → List LiveRange → List LiveRange × List LiveRange
  | 0, after => ([], after)
  | i + 1, after =>
    match after[i]? with
    | none => ([], after)
    | some r =>
      if r.toPos ≤ pos then splitLoop pos i after
      else if r.fromPos < pos then
        (⟨r.fromPos, pos⟩ :: after.drop (i + 1), (after.set i { r with fromPos := pos }).take (i + 1))
      else (after.drop (i + 1), after.take (i + 1))

/-- `splitFrom`: the interval and the one that gets its end. -/
def splitFrom (i after : LiveInterval U) (pos : ℕ) : Option (LiveInterval U × LiveInterval U) := do
  let first ← i.start
  let last ← i.stop
  if ¬(first ≤ pos ∧ pos < last) then none
  else if after.ranges ≠ [] then none
  else if ¬after.uses.isEmpty then none
  else
    let (before, behind) := splitLoop pos i.ranges.length i.ranges
    some ({ i with ranges := before, uses := i.uses.takeWhile fun u => u.1 ≤ pos },
      { after with ranges := behind, uses := i.uses.dropWhile fun u => u.1 ≤ pos })

/-- `addUse`: before the first use that is not before it. -/
def addUse (i : LiveInterval U) (pos : ℕ) (use : U) : LiveInterval U :=
  { i with
    uses := (i.uses.takeWhile fun u => u.1 < pos) ++ (pos, use) :: i.uses.dropWhile fun u => u.1 < pos }

/-- The intervals at work, by their numbers. -/
abbrev Intervals (U : Type) := ℕ → LiveInterval U

/-- What a register allocator does with its intervals. -/
inductive Op (U : Type) where
  | addRange (id fromPos toPos : ℕ)
  | addRangeAtHead (id fromPos toPos : ℕ)
  | setFrom (id fromPos : ℕ)
  | splitFrom (id pos after : ℕ)
  | addUse (id pos : ℕ) (use : U)
  | covers (id pos : ℕ)
  | nextCoveredAfter (id pos : ℕ)
  | intersect (id other : ℕ)

/-- What it sees. -/
inductive Result where
  | done
  | covered (b : Bool)
  | position (pos : ℕ)
  deriving DecidableEq, Repr

/-- Replace an interval. -/
def Intervals.put (s : Intervals U) (id : ℕ) (i : LiveInterval U) : Intervals U :=
  fun id' => if id' = id then i else s id'

/-- One operation. In `intersect`, the interval that starts later is looked for in the other one. -/
def Intervals.step (s : Intervals U) : Op U → Option (Result × Intervals U)
  | .addRange id fromPos toPos => do
    let i ← (s id).addRange fromPos toPos
    some (.done, s.put id i)
  | .addRangeAtHead id fromPos toPos => do
    let i ← (s id).addRangeAtHead fromPos toPos
    some (.done, s.put id i)
  | .setFrom id fromPos => some (.done, s.put id ((s id).setFrom fromPos))
  | .splitFrom id pos after => do
    let (i, a) ← (s id).splitFrom (s after) pos
    some (.done, (s.put id i).put after a)
  | .addUse id pos use => some (.done, s.put id ((s id).addUse pos use))
  | .covers id pos => do
    let (found, i) ← (s id).covers pos
    some (.covered found, s.put id i)
  | .nextCoveredAfter id pos => some (.position ((s id).nextCoveredAfter pos), s)
  | .intersect id other => do
    let first ← (s id).start
    let otherFirst ← (s other).start
    if otherFirst < first then do
      let (pos, o) ← (s other).intersectFrom (s id)
      some (.position pos, s.put other o)
    else do
      let (pos, i) ← (s id).intersectFrom (s other)
      some (.position pos, s.put id i)

/-- A run of operations. -/
def Intervals.run (s : Intervals U) : List (Op U) → Option (List Result × Intervals U)
  | [] => some ([], s)
  | op :: ops => do
    let (r, s) ← s.step op
    let (rs, s) ← Intervals.run s ops
    some (r :: rs, s)

end LiveInterval

end SpiderMonkey.Jit
