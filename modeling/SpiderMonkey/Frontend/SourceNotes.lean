import Mathlib

/-!
# Source notes

A vector of source notes is a list of bytes: a note is a byte with five bits of type and three bits
of offset from the note before it, followed by its operands of one or three bytes. An extended
delta only adds to the offset.
-/

namespace SpiderMonkey.Frontend

/-- The types of notes. -/
inductive SrcNoteType where
  | srcNull
  | srcIf
  | srcIfElse
  | srcCond
  | srcFor
  | srcWhile
  | srcForIn
  | srcForOf
  | srcContinue
  | srcBreak
  | srcBreak2label
  | srcSwitchbreak
  | srcTableswitch
  | srcCondswitch
  | srcNextcase
  | srcAssignop
  | srcTry
  | srcColspan
  | srcNewline
  | srcSetline
  | srcUnused20
  | srcUnused21
  | srcUnused22
  | srcUnused23
  | srcXdelta
  deriving DecidableEq

namespace SrcNoteType

/-- The types in the order of their numbers. -/
def all : List SrcNoteType :=
  [srcNull, srcIf, srcIfElse, srcCond, srcFor, srcWhile, srcForIn, srcForOf, srcContinue, srcBreak,
    srcBreak2label, srcSwitchbreak, srcTableswitch, srcCondswitch, srcNextcase, srcAssignop, srcTry,
    srcColspan, srcNewline, srcSetline, srcUnused20, srcUnused21, srcUnused22, srcUnused23,
    srcXdelta]

/-- The number of a type. -/
def toNat (type : SrcNoteType) : ℕ := all.idxOf type

/-- The number of operands, from `js_SrcNoteSpec`. -/
def arity : SrcNoteType → ℕ
  | srcIfElse | srcCond | srcWhile | srcForIn | srcForOf | srcTableswitch | srcNextcase | srcTry
  | srcColspan | srcSetline => 1
  | srcCondswitch => 2
  | srcFor => 3
  | _ => 0

end SrcNoteType

open SrcNoteType

abbrev snDeltaMask : ℕ := 0x07
abbrev snXdeltaMask : ℕ := 0x3F
abbrev snDeltaLimit : ℕ := 0x08
abbrev snXdeltaLimit : ℕ := 0x40
abbrev sn3byteOffsetFlag : ℕ := 0x80
abbrev sn3byteOffsetMask : ℕ := 0x7F
abbrev snMaxOffset : ℕ := (sn3byteOffsetFlag <<< 16) - 1

/-- `SN_MAKE_NOTE`. -/
def snMakeNote (type : SrcNoteType) (delta : ℕ) : ℕ :=
  ((type.toNat <<< 3) ||| (delta &&& snDeltaMask)) % 256

/-- `SN_MAKE_XDELTA`. -/
def snMakeXdelta (delta : ℕ) : ℕ :=
  ((srcXdelta.toNat <<< 3) ||| (delta &&& snXdeltaMask)) % 256

/-- `SN_IS_XDELTA`. -/
def snIsXdelta (sn : ℕ) : Bool := sn >>> 3 ≥ srcXdelta.toNat

/-- `SN_TYPE`. -/
def snType (sn : ℕ) : SrcNoteType :=
  if snIsXdelta sn then srcXdelta else SrcNoteType.all.getD (sn >>> 3) srcXdelta

/-- `SN_DELTA`. -/
def snDelta (sn : ℕ) : ℕ :=
  if snIsXdelta sn then sn &&& snXdeltaMask else sn &&& snDeltaMask

/-- `SN_SET_DELTA`. -/
def snSetDelta (sn delta : ℕ) : ℕ :=
  if snIsXdelta sn then snMakeXdelta delta else snMakeNote (snType sn) delta

/-- The terminator of a vector of notes. -/
abbrev snTerminator : ℕ := 0

/-! ## Reading -/

/-- The loops that skip operands. Reading past the end has no result. -/
def skipOffsets (notes : List ℕ) : ℕ → ℕ → Option ℕ
  | 0, sn => some sn
  | which + 1, sn => do
    let b ← notes[sn]?
    skipOffsets notes which (if b &&& sn3byteOffsetFlag ≠ 0 then sn + 3 else sn + 1)

/-- `SN_LENGTH` of the note at `sn`. -/
def snLength (notes : List ℕ) (sn : ℕ) : Option ℕ := do
  let b ← notes[sn]?
  let next ← skipOffsets notes (snType b).arity (sn + 1)
  return next - sn

/-- `js_GetSrcNoteOffset` of the note at `sn`. -/
def getSrcNoteOffset (notes : List ℕ) (sn which : ℕ) : Option ℕ := do
  let sn ← skipOffsets notes which (sn + 1)
  let b0 ← notes[sn]?
  if b0 &&& sn3byteOffsetFlag ≠ 0 then
    let b1 ← notes[sn + 1]?
    let b2 ← notes[sn + 2]?
    return ((b0 &&& sn3byteOffsetMask) <<< 16) ||| (b1 <<< 8) ||| b2
  else return b0

/-- A note as its readers see it. -/
structure SrcNote where
  type : SrcNoteType
  offset : ℕ
  operands : List ℕ
  deriving DecidableEq

/-- Skipping operands goes forward. -/
theorem le_skipOffsets {notes : List ℕ} {which sn next : ℕ} (h : skipOffsets notes which sn = some next) :
    sn ≤ next := by
  induction which generalizing sn with
  | zero => exact Nat.le_of_eq (Option.some.inj h)
  | succ which ih =>
    rw [skipOffsets, Option.bind_eq_bind, Option.bind_eq_some_iff] at h
    obtain ⟨b, -, h⟩ := h
    have hle := ih h
    split_ifs at hle <;> omega

/-- A note has at least one byte. -/
theorem snLength_pos {notes : List ℕ} {sn length : ℕ} (h : snLength notes sn = some length) :
    0 < length := by
  simp only [snLength, Option.bind_eq_bind, Option.bind_eq_some_iff, Option.pure_def,
    Option.some.injEq] at h
  obtain ⟨b, -, next, hnext, rfl⟩ := h
  have hle := le_skipOffsets hnext
  omega

/-- The walk of the readers from `sn` to the terminator, with the offset reached so far. It gives the
notes other than extended deltas. -/
def walk (notes : List ℕ) (sn offset : ℕ) : Option (List SrcNote) :=
  match notes[sn]? with
  | none => none
  | some b =>
    if b = snTerminator then some []
    else
      match _h : snLength notes sn with
      | none => none
      | some length =>
        let offset := offset + snDelta b
        if snType b = srcXdelta then walk notes (sn + length) offset
        else
          match (List.range (snType b).arity).mapM (getSrcNoteOffset notes sn) with
          | none => none
          | some operands =>
              (walk notes (sn + length) offset).map (⟨snType b, offset, operands⟩ :: ·)
termination_by notes.length - sn
decreasing_by all_goals
  have hpos := snLength_pos _h
  have hlt : sn < notes.length := by
    simp only [snLength, Option.bind_eq_bind, Option.bind_eq_some_iff] at _h
    obtain ⟨b, hb, -⟩ := _h
    exact (List.getElem?_eq_some_iff.mp hb).1
  omega

end SpiderMonkey.Frontend
