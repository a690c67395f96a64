import SpiderMonkey.Frontend.SourceNotes
import SpiderMonkey.Lib.Segments
import Mathlib.Data.Int.Notation

/-!
# Taking source notes

The part of the bytecode emitter that takes source notes: each of the two sections has its own notes,
and they are joined when the script is finished. Of the code only the lengths matter. Running out of
memory is left out; a function without a result has reported an operand that is too large.
-/

namespace SpiderMonkey.Frontend

open SrcNoteType Segments

/-- A section of code with its notes. -/
structure EmitSection where
  codeLength : ℕ
  notes : List ℕ
  lastNoteOffset : ℕ
  currentLine : ℕ
  deriving DecidableEq

/-- The two sections of code. -/
inductive SectionKind where
  | prolog
  | main
  deriving DecidableEq

/-- The fields of the emitter that taking notes depends on. -/
structure BytecodeEmitter where
  prolog : EmitSection
  main : EmitSection
  current : SectionKind
  firstLine : ℕ

/-- The sections before anything is emitted. -/
def EmitSection.start (lineNum : ℕ) : EmitSection := ⟨0, [], 0, lineNum⟩

/-- The emitter before anything is emitted. -/
def BytecodeEmitter.start (lineNum : ℕ) : BytecodeEmitter :=
  ⟨.start lineNum, .start lineNum, .main, lineNum⟩

namespace BytecodeEmitter

/-- The section that is emitted to. -/
def currentSection (bce : BytecodeEmitter) : EmitSection :=
  match bce.current with
  | .prolog => bce.prolog
  | .main => bce.main

/-- Change the section that is emitted to. -/
def setCurrent (bce : BytecodeEmitter) (s : EmitSection) : BytecodeEmitter :=
  match bce.current with
  | .prolog => { bce with prolog := s }
  | .main => { bce with main := s }

end BytecodeEmitter

/-! ## New notes -/

/-- Take extended deltas for as long as the delta does not fit a note. -/
def xdeltaLoop (notes : List ℕ) (delta : ℕ) : List ℕ × ℕ :=
  if snDeltaLimit ≤ delta then
    let xdelta := min delta snXdeltaMask
    xdeltaLoop (notes ++ [snMakeXdelta xdelta]) (delta - xdelta)
  else (notes, delta)
termination_by delta
decreasing_by
  simp only [snDeltaLimit, snXdeltaMask] at *
  omega

/-- `NewSrcNote` up to the notes for the operands. Returns the index of the note. A note that is
allocated is written at once. -/
def newSrcNoteByte (s : EmitSection) (type : SrcNoteType) : ℕ × EmitSection :=
  let offset := s.codeLength
  let (notes, delta) := xdeltaLoop s.notes (offset - s.lastNoteOffset)
  (notes.length, { s with notes := notes ++ [snMakeNote type delta], lastNoteOffset := offset })

/-- Take a note for each operand. -/
def newOperandNotes : ℕ → EmitSection → EmitSection
  | 0, s => s
  | n + 1, s => newOperandNotes n (newSrcNoteByte s srcNull).2

/-- `NewSrcNote`. The notes for operands have no operands themselves. -/
def newSrcNote (s : EmitSection) (type : SrcNoteType) : ℕ × EmitSection :=
  let (index, s) := newSrcNoteByte s type
  (index, newOperandNotes type.arity s)

/-- `SetSrcNoteOffset`. -/
def setSrcNoteOffset (notes : List ℕ) (index which offset : ℕ) : Option (List ℕ) :=
  if offset > snMaxOffset then none
  else do
    let sn ← skipOffsets notes which (index + 1)
    let b ← notes[sn]?
    if offset > sn3byteOffsetMask ∨ b &&& sn3byteOffsetFlag ≠ 0 then
      let notes :=
        if b &&& sn3byteOffsetFlag = 0 then (notes.insertIdx sn 0).insertIdx sn 0 else notes
      overwrite notes sn
        [(sn3byteOffsetFlag ||| (offset >>> 16)) % 256, (offset >>> 8) % 256, offset % 256]
    else overwrite notes sn [offset % 256]

/-- `SetSrcNoteOffset` in a section. -/
def EmitSection.setSrcNoteOffset (s : EmitSection) (index which offset : ℕ) : Option EmitSection :=
  (Frontend.setSrcNoteOffset s.notes index which offset).map fun notes => { s with notes }

/-- `NewSrcNote2`. -/
def newSrcNote2 (s : EmitSection) (type : SrcNoteType) (offset : ℕ) : Option (ℕ × EmitSection) := do
  let (index, s) := newSrcNote s type
  let s ← s.setSrcNoteOffset index 0 offset
  return (index, s)

/-- `NewSrcNote3`. -/
def newSrcNote3 (s : EmitSection) (type : SrcNoteType) (offset1 offset2 : ℕ) :
    Option (ℕ × EmitSection) := do
  let (index, s) := newSrcNote s type
  let s ← s.setSrcNoteOffset index 0 offset1
  let s ← s.setSrcNoteOffset index 1 offset2
  return (index, s)

/-! ## Finishing -/

/-- `AddToSrcNoteDelta` on the notes of the main section. -/
def addToSrcNoteDelta (notes : List ℕ) (sn delta : ℕ) : Option (List ℕ) := do
  let b ← notes[sn]?
  let base := snDelta b
  let limit := if snIsXdelta b then snXdeltaLimit else snDeltaLimit
  let newdelta := base + delta
  if newdelta < limit then return notes.set sn (snSetDelta b newdelta)
  else return notes.insertIdx sn (snMakeXdelta delta)

/-- The loop that adds the rest of the prolog to the first note of the main section. -/
def addToFirstNote (notes : List ℕ) (offset delta : ℕ) : Option (List ℕ) :=
  match addToSrcNoteDelta notes 0 delta with
  | none => none
  | some notes =>
    if offset - delta = 0 then some notes
    else addToFirstNote notes (offset - delta) (min (offset - delta) snXdeltaMask)
termination_by 2 * offset + if delta = 0 then 1 else 0
decreasing_by
  simp only [snXdeltaMask]
  split_ifs <;> omega

/-- The delta that the first note has room for. -/
def firstNoteRoom (sn : ℕ) : ℕ :=
  if snIsXdelta sn then snXdeltaMask - (sn &&& snXdeltaMask) else snDeltaMask - (sn &&& snDeltaMask)

/-- `FinishTakingSrcNotes`, called when the main section is emitted to. Returns the notes that are
written. -/
def finishTakingSrcNotes (bce : BytecodeEmitter) : Option (List ℕ) :=
  if bce.prolog.notes.length ≠ 0 ∧ bce.prolog.currentLine ≠ bce.firstLine then do
    let (_, prolog) ← newSrcNote2 bce.prolog srcSetline bce.firstLine
    return prolog.notes ++ bce.main.notes ++ [snTerminator]
  else do
    let offset := bce.prolog.codeLength - bce.prolog.lastNoteOffset
    let mainNotes ←
      if offset > 0 ∧ bce.main.notes.length ≠ 0 then do
        let sn ← bce.main.notes[0]?
        addToFirstNote bce.main.notes offset (min offset (firstNoteRoom sn))
      else some bce.main.notes
    return bce.prolog.notes ++ mainNotes ++ [snTerminator]

/-- `JS_HOWMANY`. -/
def howmany (x y : ℤ) : ℤ := (x + y - 1) / y

/-- `BytecodeEmitter::countFinalSourceNotes`. -/
def countFinalSourceNotes (bce : BytecodeEmitter) : ℤ :=
  let diff : ℤ := bce.prolog.codeLength - bce.prolog.lastNoteOffset
  let cnt : ℤ := bce.prolog.notes.length + bce.main.notes.length + 1
  if bce.prolog.notes.length ≠ 0 ∧ bce.prolog.currentLine ≠ bce.firstLine then
    let cnt := if diff > snDeltaMask then cnt + howmany (diff - snDeltaMask) snXdeltaMask else cnt
    cnt + 2 + (if bce.firstLine > sn3byteOffsetMask then 2 else 0)
  else if diff > 0 then
    let diff := match bce.main.notes with
      | [] => diff
      | sn :: _ => diff - firstNoteRoom sn
    if diff > 0 then cnt + howmany diff snXdeltaMask else cnt
  else cnt

end SpiderMonkey.Frontend
