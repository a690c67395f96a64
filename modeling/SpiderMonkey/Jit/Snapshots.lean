import SpiderMonkey.Jit.Architecture
import SpiderMonkey.Jit.CompactBuffer

/-!
# Snapshots

A snapshot tells for each frame of an Ion activation, and each slot of the frame, where its value is
to be found when Ion code bails out. A slot's first byte holds a type and a register code; codes
from 28 on are escapes whose meaning depends on the type.

How values are boxed and how many registers there are depends on the architecture. The writer's
counters, which only assertions read, and the debug sentinel are left out; assertions of the reader
make it fail.
-/

namespace SpiderMonkey.Jit

open Reader CompactBuffer

namespace Snapshots

/-- Types of values, with their codes. -/
inductive JSValueType where
  | double | int32 | undefined | boolean | magic | string | null | object
  deriving DecidableEq, Repr

namespace JSValueType

/-- The code of a type. -/
def code : JSValueType → UInt32
  | double => 0
  | int32 => 1
  | undefined => 2
  | boolean => 3
  | magic => 4
  | string => 5
  | null => 6
  | object => 7

/-- The type with a code of three bits. -/
def ofCode (code : UInt8) : JSValueType :=
  if code = 0 then double else if code = 1 then int32 else if code = 2 then undefined
  else if code = 3 then boolean else if code = 4 then magic else if code = 5 then string
  else if code = 6 then null else object

end JSValueType

/-- Why Ion code bails out. -/
inductive BailoutKind where
  | normal | argumentCheck | boundsCheck | shapeGuard | baselineInfo
  deriving DecidableEq, Repr

namespace BailoutKind

/-- The code of a bailout kind. -/
def code : BailoutKind → UInt32
  | normal => 0
  | argumentCheck => 1
  | boundsCheck => 2
  | shapeGuard => 3
  | baselineInfo => 4

/-- The bailout kind with a code. -/
def ofCode (code : UInt32) : Option BailoutKind :=
  if code = 0 then some normal else if code = 1 then some argumentCheck
  else if code = 2 then some boundsCheck else if code = 3 then some shapeGuard
  else if code = 4 then some baselineInfo else none

end BailoutKind

/-- Bits of a bailout kind. -/
def bailoutKindBits : UInt32 := 3

/-- Where the bailout kind is in a header. -/
def bailoutKindShift : UInt32 := 0

/-- The bits of the bailout kind. -/
def bailoutKindMask : UInt32 := (1 <<< bailoutKindBits) - 1

/-- Where the resume flag is in a header. -/
def bailoutResumeShift : UInt32 := bailoutKindShift + bailoutKindBits

/-- Where the frame count is in a header. -/
def bailoutFramecountShift : UInt32 := bailoutKindBits + 1

/-- Bits of a frame count. -/
def bailoutFramecountBits : ℕ := 28

/-- The register code of a payload that follows. -/
def escRegFieldIndex : UInt32 := 31

/-- The register code of a constant. -/
def escRegFieldConst : UInt32 := 30

/-- The register code of a float32 on the stack. -/
def escRegFieldFloat32Stack : UInt32 := 29

/-- The register code of a float32 in a register. -/
def escRegFieldFloat32Reg : UInt32 := 28

/-- The first register code that is no register. -/
def minRegFieldEsc : UInt32 := 28

/-- A place that holds a boxed value or half of one. -/
inductive Place (arch : Arch) where
  | reg (r : Register arch)
  | stack (index : Int32)

/-- The calls that add a slot. -/
inductive SlotEntry (arch : Arch) where
  | double (reg : FloatRegister arch)
  | typedReg (type : JSValueType) (reg : Register arch)
  | typedStack (type : JSValueType) (stackIndex : Int32)
  | nunbox (type payload : Place arch)
  | punbox (value : Place arch)
  | undefined
  | null
  | int32 (value : Int32)
  | float32Reg (reg : FloatRegister arch)
  | float32Stack (stackIndex : Int32)
  | constantPool (index : UInt32)

section Writer

variable {arch : Arch}

/-- The header of a snapshot. -/
def startSnapshot (frameCount : UInt32) (kind : BailoutKind) (resumeAfter : Bool) : List UInt8 :=
  let bits := (kind.code <<< bailoutKindShift) ||| (frameCount <<< bailoutFramecountShift)
  let bits := if resumeAfter then bits ||| (1 <<< bailoutResumeShift) else bits
  writeUnsigned bits

/-- The header of a frame. -/
def startFrame (pcoff nslots : UInt32) : List UInt8 := writeUnsigned pcoff ++ writeUnsigned nslots

/-- The first byte of a slot. -/
def writeSlotHeader (type : JSValueType) (regCode : UInt32) : List UInt8 :=
  writeByte (type.code ||| (regCode <<< 3))

/-- A slot that is boxed in two words. -/
def addNunboxSlot : Place arch → Place arch → List UInt8
  | .reg type, .reg payload =>
    writeSlotHeader .magic 3 ++ writeByte (codeOf type) ++ writeByte (codeOf payload)
  | .reg type, .stack payloadStackIndex =>
    writeSlotHeader .magic 2 ++ writeByte (codeOf type) ++ writeSigned payloadStackIndex
  | .stack typeStackIndex, .reg payload =>
    writeSlotHeader .magic 1 ++ writeSigned typeStackIndex ++ writeByte (codeOf payload)
  | .stack typeStackIndex, .stack payloadStackIndex =>
    writeSlotHeader .magic 0 ++ writeSigned typeStackIndex ++ writeSigned payloadStackIndex

/-- A slot that is boxed in one word. -/
def addPunboxSlot : Place arch → List UInt8
  | .reg value => writeSlotHeader .magic (codeOf value)
  | .stack valueStackSlot => writeSlotHeader .magic escRegFieldIndex ++ writeSigned valueStackSlot

/-- A slot that is a constant integer. -/
def addInt32Slot (value : Int32) : List UInt8 :=
  if 0 ≤ value ∧ value.toUInt32 < minRegFieldEsc then writeSlotHeader .null value.toUInt32
  else writeSlotHeader .null escRegFieldIndex ++ writeSigned value

/-- A slot that is in the constant pool. -/
def addConstantPoolSlot (index : UInt32) : List UInt8 :=
  if index < minRegFieldEsc then writeSlotHeader .undefined index
  else writeSlotHeader .undefined escRegFieldIndex ++ writeUnsigned index

/-- Add a slot. -/
def addSlot : SlotEntry arch → List UInt8
  | .double reg => writeSlotHeader .double (codeOf reg)
  | .typedReg type reg => writeSlotHeader type (codeOf reg)
  | .typedStack type stackIndex => writeSlotHeader type escRegFieldIndex ++ writeSigned stackIndex
  | .nunbox type payload => addNunboxSlot type payload
  | .punbox value => addPunboxSlot value
  | .undefined => writeSlotHeader .undefined escRegFieldConst
  | .null => writeSlotHeader .null escRegFieldConst
  | .int32 value => addInt32Slot value
  | .float32Reg reg => writeSlotHeader .null escRegFieldFloat32Reg ++ writeUnsigned (codeOf reg)
  | .float32Stack stackIndex => writeSlotHeader .null escRegFieldFloat32Stack ++ writeSigned stackIndex
  | .constantPool index => addConstantPoolSlot index

end Writer

/-- Where a payload is: on the stack unless the stack slot is invalid, else in a register. -/
structure Location where
  reg : ℕ
  stackSlot : Int32
  deriving DecidableEq

namespace Location

/-- An offset that is illegal for a local variable's stack allocation. -/
def invalidStackSlot : Int32 := -1

/-- The location of a register. -/
def ofReg {total : ℕ} (reg : Fin total) : Location := ⟨reg.val, invalidStackSlot⟩

/-- The location of a stack slot. -/
def ofStack (stackSlot : Int32) : CompactBufferReader Location := do
  check (stackSlot ≠ invalidStackSlot)
  pure ⟨0, stackSlot⟩

end Location

/-- Where a boxed value is. -/
inductive UnknownType where
  | nunbox (type payload : Location)
  | punbox (value : Location)

/-- A slot as it is read. -/
inductive Slot (arch : Arch) where
  | constant (index : UInt32)
  | doubleReg (reg : FloatRegister arch)
  | float32Reg (reg : FloatRegister arch)
  | float32Stack (payload : Location)
  | typedReg (type : JSValueType) (payload : Location)
  | typedStack (type : JSValueType) (payload : Location)
  | untyped (value : UnknownType)
  | undefined
  | null
  | int32 (value : Int32)

/-- The reader's state but for its position. -/
structure SnapshotReader where
  pcOffset : UInt32
  slotCount : UInt32
  frameCount : UInt32
  bailoutKind : BailoutKind
  framesRead : UInt32
  slotsRead : UInt32
  resumeAfter : Bool

namespace SnapshotReader

/-- Whether there are more frames. -/
def moreFrames (r : SnapshotReader) : Bool := r.framesRead < r.frameCount

/-- Whether the frame has more slots. -/
def moreSlots (r : SnapshotReader) : Bool := r.slotsRead < r.slotCount

/-- Read the header of a snapshot. -/
def readSnapshotHeader : CompactBufferReader SnapshotReader := do
  let bits ← readUnsigned
  let frameCount := bits >>> bailoutFramecountShift
  check (frameCount > 0)
  let bailoutKind ← ofOption (BailoutKind.ofCode ((bits >>> bailoutKindShift) &&& bailoutKindMask))
  let resumeAfter := decide (bits &&& (1 <<< bailoutResumeShift) ≠ 0)
  pure ⟨0, 0, frameCount, bailoutKind, 0, 0, resumeAfter⟩

/-- Read the header of the next frame. -/
def nextFrame (r : SnapshotReader) : CompactBufferReader SnapshotReader := do
  check r.moreFrames
  check (r.slotsRead = r.slotCount)
  let pcOffset ← readUnsigned
  let slotCount ← readUnsigned
  pure { r with
    pcOffset := pcOffset, slotCount := slotCount, framesRead := r.framesRead + 1, slotsRead := 0 }

/-- Construct a reader, which reads the header and the first frame's header. -/
def init : CompactBufferReader SnapshotReader := do
  let r ← readSnapshotHeader
  nextFrame r

variable (arch : Arch)

/-- Read a slot that is boxed in two words. -/
def readNunboxSlot (code : UInt32) : CompactBufferReader UnknownType := do
  if code = 0 then
    let type ← Location.ofStack (← readSigned)
    let payload ← Location.ofStack (← readSigned)
    pure (.nunbox type payload)
  else if code = 1 then
    let type ← Location.ofStack (← readSigned)
    let payload ← fromCode arch.registersTotal (← readByte).toUInt32
    pure (.nunbox type (.ofReg payload))
  else if code = 2 then
    let type ← fromCode arch.registersTotal (← readByte).toUInt32
    let payload ← Location.ofStack (← readSigned)
    pure (.nunbox (.ofReg type) payload)
  else
    check (code = 3)
    let type ← fromCode arch.registersTotal (← readByte).toUInt32
    let payload ← fromCode arch.registersTotal (← readByte).toUInt32
    pure (.nunbox (.ofReg type) (.ofReg payload))

/-- Read a slot that is boxed in one word. -/
def readPunboxSlot (code : UInt32) : CompactBufferReader UnknownType := do
  if code < minRegFieldEsc then
    let value ← fromCode arch.registersTotal code
    pure (.punbox (.ofReg value))
  else
    check (code = escRegFieldIndex)
    let value ← Location.ofStack (← readSigned)
    pure (.punbox value)

/-- Read the rest of a slot after its first byte. -/
def readSlotBody (type : JSValueType) (code : UInt32) : CompactBufferReader (Slot arch) :=
  match type with
  | .double => do
    if code < minRegFieldEsc then
      let reg ← fromCode arch.floatRegistersTotal code
      pure (.doubleReg reg)
    else
      check (code = escRegFieldIndex)
      let payload ← Location.ofStack (← readSigned)
      pure (.typedStack type payload)
  | .int32 | .string | .object | .boolean => do
    if code < minRegFieldEsc then
      let reg ← fromCode arch.registersTotal code
      pure (.typedReg type (.ofReg reg))
    else
      check (code = escRegFieldIndex)
      let payload ← Location.ofStack (← readSigned)
      pure (.typedStack type payload)
  | .null => do
    if code = escRegFieldConst then pure .null
    else if code = escRegFieldIndex then
      let value ← readSigned
      pure (.int32 value)
    else if code = escRegFieldFloat32Reg then
      let reg ← fromCode arch.floatRegistersTotal (← readUnsigned)
      pure (.float32Reg reg)
    else if code = escRegFieldFloat32Stack then
      let payload ← Location.ofStack (← readSigned)
      pure (.float32Stack payload)
    else pure (.int32 code.toInt32)
  | .undefined => do
    if code = escRegFieldConst then pure .undefined
    else if code = escRegFieldIndex then
      let index ← readUnsigned
      pure (.constant index)
    else pure (.constant code)
  | .magic => do
    if code = escRegFieldConst then
      let reg2 := (← readUnsigned).toUInt8
      if reg2.toUInt32 ≠ escRegFieldIndex then
        let reg ← fromCode arch.registersTotal reg2.toUInt32
        pure (.typedReg type (.ofReg reg))
      else
        let payload ← Location.ofStack (← readSigned)
        pure (.typedReg type payload)
    else
      let value ← if arch.nunbox32 then readNunboxSlot arch code else readPunboxSlot arch code
      pure (.untyped value)

/-- Read a slot. -/
def readSlot (r : SnapshotReader) : CompactBufferReader (Slot arch × SnapshotReader) := do
  check r.moreSlots
  let b ← readByte
  let slot ← readSlotBody arch (JSValueType.ofCode (b &&& 7)) (b >>> 3).toUInt32
  pure (slot, { r with slotsRead := r.slotsRead + 1 })

/-- Read all slots of a frame. -/
def readSlots : ℕ → SnapshotReader → CompactBufferReader (List (Slot arch) × SnapshotReader)
  | 0, r => do
    check (r.moreSlots = false)
    pure ([], r)
  | n + 1, r => do
    let (slot, r) ← readSlot arch r
    let (slots, r) ← readSlots n r
    pure (slot :: slots, r)

/-- A frame as it is read: its pc offset, slot count and slots. -/
abbrev FrameRead := UInt32 × UInt32 × List (Slot arch)

/-- Read all frames, the first of whose headers has been read. -/
def readFrames : ℕ → SnapshotReader → CompactBufferReader (List (FrameRead arch))
  | 0, _ => fun _ => none
  | n + 1, r => do
    let (slots, r) ← readSlots arch r.slotCount.toNat r
    let frame : FrameRead arch := (r.pcOffset, r.slotCount, slots)
    if r.moreFrames then
      let r ← nextFrame r
      let frames ← readFrames n r
      pure (frame :: frames)
    else pure [frame]

/-- Construct a reader and read everything: the frame count, bailout kind and resume flag, and the
frames. -/
def readAll : CompactBufferReader (UInt32 × BailoutKind × Bool × List (FrameRead arch)) := do
  let r ← init
  let frames ← readFrames arch r.frameCount.toNat r
  pure (r.frameCount, r.bailoutKind, r.resumeAfter, frames)

end SnapshotReader

end Snapshots

end SpiderMonkey.Jit
