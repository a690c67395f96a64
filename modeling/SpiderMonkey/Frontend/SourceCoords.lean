import Mathlib

/-!
# Source coordinates

`TokenStream::SourceCoords`, the table of the offsets at which the lines of a text start. It is filled
while the text is read, and looked up for the line and the column of an offset. The table is a vector
with a fixed capacity inside, which it outgrows by doubling.

A read past the end of the table, and a failed assertion, have no result.
-/

namespace SpiderMonkey.Frontend

/-- The sentinel behind the last line, and the number of 32-bit integers less one. -/
def MAX_PTR : ℕ := 2 ^ 32 - 1

/-- The capacity that a table has inside. -/
def inlineCapacity : ℕ := 128

/-- The starts of lines and the sentinel. -/
structure SourceCoords where
  lineStartOffsets_ : List ℕ
  capacity : ℕ
  initialLineNum_ : ℕ
  /-- The result of the last lookup. -/
  lastLineIndex_ : ℕ
deriving DecidableEq, Repr

namespace SourceCoords

/-- The table of a text of which nothing was read. -/
def new_ (ln : ℕ) : SourceCoords where
  lineStartOffsets_ := [0, MAX_PTR]
  capacity := inlineCapacity
  initialLineNum_ := ln
  lastLineIndex_ := 0

/-- The number of a line, which may wrap. -/
def lineIndexToNum (c : SourceCoords) (lineIndex : ℕ) : ℕ := (lineIndex + c.initialLineNum_) % 2 ^ 32

/-- The index of a line. -/
def lineNumToIndex (c : SourceCoords) (lineNum : ℕ) : ℕ :=
  (lineNum + (2 ^ 32 - c.initialLineNum_)) % 2 ^ 32

/-- Append to the vector. Its storage may not grow. -/
def append (c : SourceCoords) (x : ℕ) (grows : Bool) : SourceCoords :=
  if c.lineStartOffsets_.length < c.capacity then
    { c with lineStartOffsets_ := c.lineStartOffsets_ ++ [x] }
  else if grows then
    { c with lineStartOffsets_ := c.lineStartOffsets_ ++ [x], capacity := 2 * c.capacity }
  else c

/-- Add the start of a line. -/
def add (c : SourceCoords) (lineNum lineStartOffset : ℕ) (grows : Bool) : Option SourceCoords := do
  let lineIndex := c.lineNumToIndex lineNum
  let sentinelIndex := c.lineStartOffsets_.length - 1
  guard (c.lineStartOffsets_[0]? = some 0 ∧ c.lineStartOffsets_[sentinelIndex]? = some MAX_PTR)
  if lineIndex = sentinelIndex then
    -- The sentinel is overwritten, and a new one may not fit.
    let c := { c with lineStartOffsets_ := c.lineStartOffsets_.set lineIndex lineStartOffset }
    some (c.append MAX_PTR grows)
  else do
    let seen ← c.lineStartOffsets_[lineIndex]?
    guard (seen = lineStartOffset)
    some c

/-- Append the entries of another table from an index on. -/
def appendFrom (grows : ℕ → Bool) : SourceCoords → ℕ → List ℕ → SourceCoords
  | c, _, [] => c
  | c, i, x :: rest => appendFrom grows (c.append x (grows i)) (i + 1) rest

/-- Take the entries that another table has and this one has not. -/
def fill (c other : SourceCoords) (grows : ℕ → Bool) : Option SourceCoords := do
  guard (c.lineStartOffsets_.getLast? = some MAX_PTR)
  guard (other.lineStartOffsets_.getLast? = some MAX_PTR)
  if other.lineStartOffsets_.length ≤ c.lineStartOffsets_.length then some c
  else do
    let sentinelIndex := c.lineStartOffsets_.length - 1
    let x ← other.lineStartOffsets_[sentinelIndex]?
    let c := { c with lineStartOffsets_ := c.lineStartOffsets_.set sentinelIndex x }
    some (appendFrom grows c (sentinelIndex + 1) (other.lineStartOffsets_.drop (sentinelIndex + 1)))

/-- The binary search between two indices. -/
def searchLoop (table : List ℕ) (offset : ℕ) : ℕ → ℕ → ℕ → Option ℕ
  | 0, _, _ => none
  | fuel + 1, iMin, iMax =>
    if iMin < iMax then do
      let iMid := iMin + (iMax - iMin) / 2
      let next ← table[iMid + 1]?
      if next ≤ offset then searchLoop table offset fuel (iMid + 1) iMax
      else searchLoop table offset fuel iMin iMid
    else do
      guard (iMax = iMin)
      some iMin

/-- The binary search from an index on. -/
def searchFrom (c : SourceCoords) (offset iMin : ℕ) : Option (ℕ × SourceCoords) := do
  let table := c.lineStartOffsets_
  let i ← searchLoop table offset table.length iMin (table.length - 2)
  let start ← table[i]?
  let next ← table[i + 1]?
  guard (start ≤ offset ∧ offset < next)
  some (i, { c with lastLineIndex_ := i })

/-- The index of the line of an offset. The last result and the two indices after it are tried
before the binary search. -/
def lineIndexOf (c : SourceCoords) (offset : ℕ) : Option (ℕ × SourceCoords) := do
  let table := c.lineStartOffsets_
  let last := c.lastLineIndex_
  let start ← table[last]?
  if start ≤ offset then do
    let next ← table[last + 1]?
    if offset < next then some (last, c)
    else do
      let next ← table[last + 2]?
      if offset < next then some (last + 1, { c with lastLineIndex_ := last + 1 })
      else do
        let next ← table[last + 3]?
        if offset < next then some (last + 2, { c with lastLineIndex_ := last + 2 })
        else do
          guard (last + 3 < table.length - 1)
          searchFrom { c with lastLineIndex_ := last + 2 } offset (last + 3)
  else searchFrom c offset 0

/-- The number of the line of an offset. -/
def lineNum (c : SourceCoords) (offset : ℕ) : Option (ℕ × SourceCoords) := do
  let (lineIndex, c) ← c.lineIndexOf offset
  some (c.lineIndexToNum lineIndex, c)

/-- The column of an offset. -/
def columnIndex (c : SourceCoords) (offset : ℕ) : Option (ℕ × SourceCoords) := do
  let (lineIndex, c) ← c.lineIndexOf offset
  let lineStartOffset ← c.lineStartOffsets_[lineIndex]?
  guard (lineStartOffset ≤ offset)
  some (offset - lineStartOffset, c)

/-- Whether an offset is on the line of a number. -/
def isOnThisLine (c : SourceCoords) (offset lineNum : ℕ) : Option Bool := do
  let lineIndex := c.lineNumToIndex lineNum
  guard (lineIndex + 1 < c.lineStartOffsets_.length)
  let start ← c.lineStartOffsets_[lineIndex]?
  let next ← c.lineStartOffsets_[lineIndex + 1]?
  some (start ≤ offset ∧ offset < next)

end SourceCoords

/-- The offsets behind the ends of the lines of a text, which itself starts at an offset. A carriage
return and a line feed after it are one end. -/
def lineStartsFrom : ℕ → List UInt16 → List ℕ
  | _, [] => []
  | offset, [c] =>
    if c = 0x0A ∨ c = 0x0D ∨ c = 0x2028 ∨ c = 0x2029 then [offset + 1] else []
  | offset, c :: d :: rest =>
    if c = 0x0D ∧ d = 0x0A then (offset + 2) :: lineStartsFrom (offset + 2) rest
    else if c = 0x0A ∨ c = 0x0D ∨ c = 0x2028 ∨ c = 0x2029 then
      (offset + 1) :: lineStartsFrom (offset + 1) (d :: rest)
    else lineStartsFrom (offset + 1) (d :: rest)

/-- The offsets at which the lines of a text start. -/
def lineStarts (text : List UInt16) : List ℕ := 0 :: lineStartsFrom 0 text

/-- Any number of readers of one text, each with its table. -/
structure Readers where
  coords : ℕ → SourceCoords
  /-- The index of the furthest line that each has come to. -/
  furthest : ℕ → ℕ

/-- What a reader does. -/
inductive Readers.Op where
  /-- Come to the line of an index. -/
  | add (i lineIndex : ℕ) (grows : Bool)
  | fill (i j : ℕ) (grows : ℕ → Bool)
  | lineNum (i offset : ℕ)
  | columnIndex (i offset : ℕ)
  | isOnThisLine (i offset lineIndex : ℕ)

namespace Readers

/-- Nobody has read anything. -/
def init (ln : UInt32) : Readers where
  coords := fun _ => SourceCoords.new_ ln.toNat
  furthest := fun _ => 0

/-- Change the table of a reader. -/
def setCoords (s : Readers) (i : ℕ) (c : SourceCoords) : Readers :=
  { s with coords := Function.update s.coords i c }

/-- Come to a line. -/
def reach (s : Readers) (i lineIndex : ℕ) : Readers :=
  { s with furthest := Function.update s.furthest i (max (s.furthest i) lineIndex) }

/-- Do an operation on a text. -/
def step (text : List UInt16) (s : Readers) : Op → Option Readers
  | .add i lineIndex grows => do
    let c := s.coords i
    let lineStartOffset ← (lineStarts text)[lineIndex]?
    let c ← c.add (c.lineIndexToNum lineIndex) lineStartOffset grows
    some ((s.setCoords i c).reach i lineIndex)
  | .fill i j grows => do
    let c ← (s.coords i).fill (s.coords j) grows
    some ((s.setCoords i c).reach i (s.furthest j))
  | .lineNum i offset => do
    let (_, c) ← (s.coords i).lineNum offset
    some (s.setCoords i c)
  | .columnIndex i offset => do
    let (_, c) ← (s.coords i).columnIndex offset
    some (s.setCoords i c)
  | .isOnThisLine i offset lineIndex => do
    let _ ← (s.coords i).isOnThisLine offset ((s.coords i).lineIndexToNum lineIndex)
    some s

/-- Which operations there are. Lines are numbered one after the other, and may be come to again;
what is looked up are offsets in the text, and lines that were come to. -/
def Issued (text : List UInt16) (s : Readers) : Op → Prop
  | .add i lineIndex _ =>
    0 < lineIndex ∧ lineIndex ≤ s.furthest i + 1 ∧ lineIndex < (lineStarts text).length
  | .fill _ _ _ => True
  | .lineNum _ offset => offset ≤ text.length
  | .columnIndex _ offset => offset ≤ text.length
  | .isOnThisLine i offset lineIndex => offset ≤ text.length ∧ lineIndex ≤ s.furthest i

instance (text : List UInt16) (s : Readers) (op : Op) : Decidable (s.Issued text op) := by
  cases op
  all_goals
    unfold Issued
    infer_instance

/-- No append of the operation fails. -/
def AppendsSucceed (s : Readers) : Op → Prop
  | .add i lineIndex grows =>
    lineIndex = (s.coords i).lineStartOffsets_.length - 1 →
      (s.coords i).capacity ≤ (s.coords i).lineStartOffsets_.length → grows = true
  | .fill i j grows =>
    ∀ k < (s.coords j).lineStartOffsets_.length, (s.coords i).capacity ≤ k → grows k = true
  | _ => True

/-- The runs in which all steps meet a condition. -/
inductive Reachable (Meets : Readers → Op → Prop) (text : List UInt16) (ln : UInt32) : Readers → Prop
  | init : Reachable Meets text ln (init ln)
  | step {s s' : Readers} {op : Op} : Reachable Meets text ln s → s.Issued text op → Meets s op →
      s.step text op = some s' → Reachable Meets text ln s'

end Readers

end SpiderMonkey.Frontend
