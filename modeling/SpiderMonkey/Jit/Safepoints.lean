import SpiderMonkey.Jit.Architecture
import SpiderMonkey.Jit.BitSet
import SpiderMonkey.Jit.CompactBuffer

/-!
# Safepoints

A safepoint tells the garbage collector which registers and stack slots of an Ion frame hold
pointers or values at a call. Slots go through a bit set, which is written word by word and read
back from the highest bit of each word down. Values boxed in two words have an entry for each pair of
parts; entries that lack a part are not written.

Assertions of the reader make it fail. How an allocation packs its kind and data in a word is left
out, as are the kinds that never hold a part of a value: constants and floating-point registers.
-/

namespace SpiderMonkey.Jit

open Reader CompactBuffer

namespace Safepoints

variable (arch : Arch)

/-- Storage for an operand. A use is storage that is not known yet. -/
inductive LAllocation where
  | use (vreg : UInt32)
  | gpr (reg : Register arch)
  | stackSlot (slot : UInt32)
  | argument (index : UInt32)
  deriving DecidableEq

/-- The storage of a value that is boxed in two words. -/
structure SafepointNunboxEntry where
  type : LAllocation arch
  payload : LAllocation arch
  deriving DecidableEq

variable {arch}

/-- Whether storage is not known yet. -/
def LAllocation.isUse : LAllocation arch → Bool
  | use _ => true
  | _ => false

/-- Whether an entry lacks a part. -/
def SafepointNunboxEntry.isPartial (entry : SafepointNunboxEntry arch) : Bool :=
  entry.type.isUse || entry.payload.isUse

/-- The two parts of an entry. -/
inductive NunboxSide where
  | type | payload
  deriving DecidableEq

namespace SafepointNunboxEntry

/-- A part of an entry. -/
def part (entry : SafepointNunboxEntry arch) : NunboxSide → LAllocation arch
  | .type => entry.type
  | .payload => entry.payload

/-- An entry with a part filled in. -/
def setPart (entry : SafepointNunboxEntry arch) (side : NunboxSide) (a : LAllocation arch) :
    SafepointNunboxEntry arch :=
  match side with
  | .type => { entry with type := a }
  | .payload => { entry with payload := a }

/-- An entry of one part whose other part is not known yet. -/
def half (side : NunboxSide) (a other : LAllocation arch) : SafepointNunboxEntry arch :=
  match side with
  | .type => ⟨a, other⟩
  | .payload => ⟨other, a⟩

end SafepointNunboxEntry

variable (arch)

/-- The entries of values boxed in two words, with the count of those that lack a part. No entry
lacks both. Counters of 32 bits run over lists, so lists are shorter than that. -/
structure NunboxList where
  entries : List (SafepointNunboxEntry arch)
  partialNunboxes : UInt32
  count_eq : partialNunboxes = UInt32.ofNat (entries.countP SafepointNunboxEntry.isPartial)
  known : ∀ entry ∈ entries, (entry.type.isUse && entry.payload.isUse) = false
  length_lt : entries.length < 2 ^ 32

/-- What is live at a call: registers by their masks, slots by their distance from the frame pointer.
Pointers and values are in live registers only. -/
structure LSafepoint where
  osiCallPointOffset : UInt32
  liveGprs : UInt32
  liveFpus : UInt32
  gcRegs : UInt32
  valueRegs : UInt32
  slotsOrElementsRegs : UInt32
  gcSlots : List UInt32
  valueSlots : List UInt32
  nunboxParts : NunboxList arch
  slotsOrElementsSlots : List UInt32
  gcRegs_sub : gcRegs &&& ~~~liveGprs = 0
  valueRegs_sub : valueRegs &&& ~~~liveGprs = 0
  slotsOrElementsRegs_sub : slotsOrElementsRegs &&& ~~~liveGprs = 0
  slotsOrElementsSlots_length_lt : slotsOrElementsSlots.length < 2 ^ 32

variable {arch}

namespace NunboxList

/-- No entries. -/
def empty : NunboxList arch where
  entries := []
  partialNunboxes := 0
  count_eq := rfl
  known := fun _ h => nomatch h
  length_lt := Nat.two_pow_pos 32

/-- Fill in a part: the entries that result, and whether there was one that lacked this part. There is
no result if no entry has the part or lacks it. -/
def fillPart (side : NunboxSide) (vreg : UInt32) (a : LAllocation arch) :
    List (SafepointNunboxEntry arch) → Option (List (SafepointNunboxEntry arch) × Bool)
  | [] => none
  | entry :: entries =>
    if entry.part side = a then some (entry :: entries, false)
    else if entry.part side = .use vreg then some (entry.setPart side a :: entries, true)
    else (fillPart side vreg a entries).map fun (entries, filled) => (entry :: entries, filled)

/-- Filling in a part keeps what an entries' list promises. -/
theorem fillPart_spec {side : NunboxSide} {vreg : UInt32} {a : LAllocation arch} (ha : a.isUse = false)
    {entries entries' : List (SafepointNunboxEntry arch)} {filled : Bool}
    (h : fillPart side vreg a entries = some (entries', filled))
    (hknown : ∀ entry ∈ entries, (entry.type.isUse && entry.payload.isUse) = false) :
    entries'.length = entries.length ∧
      (∀ entry ∈ entries', (entry.type.isUse && entry.payload.isUse) = false) ∧
      entries'.countP SafepointNunboxEntry.isPartial + filled.toNat =
        entries.countP SafepointNunboxEntry.isPartial := by
  induction entries generalizing entries' with
  | nil => cases h
  | cons entry entries ih =>
    have hentry := hknown entry List.mem_cons_self
    have hrest := fun e he => hknown e (List.mem_cons_of_mem entry he)
    rw [fillPart] at h
    split at h
    · cases h
      exact ⟨rfl, hknown, rfl⟩
    · split at h
      · rename_i hpart
        cases h
        have hpartial : entry.isPartial = true := by
          cases side <;> simp_all [SafepointNunboxEntry.part, SafepointNunboxEntry.isPartial,
            LAllocation.isUse]
        have hfull : (entry.setPart side a).isPartial = false := by
          cases side <;> simp_all [SafepointNunboxEntry.part, SafepointNunboxEntry.setPart,
            SafepointNunboxEntry.isPartial, LAllocation.isUse]
        have hboth : ((entry.setPart side a).type.isUse &&
            (entry.setPart side a).payload.isUse) = false := by
          cases side <;> simp [SafepointNunboxEntry.setPart, ha]
        refine ⟨rfl, List.forall_mem_cons.mpr ⟨hboth, hrest⟩, ?_⟩
        rw [List.countP_cons_of_neg (by simp [hfull]), List.countP_cons_of_pos hpartial]
        rfl
      · obtain ⟨⟨rest, filled'⟩, hrec, heq⟩ := Option.map_eq_some_iff.mp h
        cases heq
        obtain ⟨hlength, hknown', hcount⟩ := ih hrec hrest
        refine ⟨by rw [List.length_cons, List.length_cons, hlength],
          List.forall_mem_cons.mpr ⟨hentry, hknown'⟩, ?_⟩
        rw [List.countP_cons, List.countP_cons, ← hcount]
        omega

/-- Append an entry. This fails when the list is full. -/
def append (list : NunboxList arch) (entry : SafepointNunboxEntry arch)
    (hentry : (entry.type.isUse && entry.payload.isUse) = false) : Option (NunboxList arch) :=
  if h : (list.entries ++ [entry]).length < 2 ^ 32 then some {
    entries := list.entries ++ [entry]
    partialNunboxes := if entry.isPartial then list.partialNunboxes + 1 else list.partialNunboxes
    count_eq := by
      rw [List.countP_append, List.countP_singleton, list.count_eq]
      split <;> simp
    known := by
      intro e he
      rcases List.mem_append.mp he with he | he
      · exact list.known e he
      · rw [List.mem_singleton.mp he]
        exact hentry
    length_lt := h }
  else none

/-- Add an entry with both parts. -/
def addNunboxParts (list : NunboxList arch) (type payload : LAllocation arch)
    (htype : type.isUse = false) : Option (NunboxList arch) :=
  list.append ⟨type, payload⟩ (by simp [htype])

/-- Add a part of a value whose other part has this virtual register. -/
def addPart (list : NunboxList arch) (side : NunboxSide) (vreg otherVreg : UInt32)
    (a : LAllocation arch) (ha : a.isUse = false) : Option (NunboxList arch) :=
  match h : fillPart side vreg a list.entries with
  | some (entries, filled) => some {
      entries := entries
      partialNunboxes := if filled then list.partialNunboxes - 1 else list.partialNunboxes
      count_eq := by
        obtain ⟨-, -, hcount⟩ := fillPart_spec ha h list.known
        rw [list.count_eq, ← hcount]
        cases filled <;> simp
      known := (fillPart_spec ha h list.known).2.1
      length_lt := by
        rw [(fillPart_spec ha h list.known).1]
        exact list.length_lt }
  | none => list.append (.half side a (.use otherVreg))
      (by cases side <;> simp [SafepointNunboxEntry.half, ha])

/-- Add the type of a value. The payload's virtual register follows the type's. -/
def addNunboxType (list : NunboxList arch) (typeVreg : UInt32) (type : LAllocation arch)
    (htype : type.isUse = false) : Option (NunboxList arch) :=
  list.addPart .type typeVreg (typeVreg + 1) type htype

/-- Add the payload of a value. -/
def addNunboxPayload (list : NunboxList arch) (payloadVreg : UInt32) (payload : LAllocation arch)
    (hpayload : payload.isUse = false) : Option (NunboxList arch) :=
  list.addPart .payload payloadVreg (payloadVreg - 1) payload hpayload

end NunboxList

section Writer

/-- Append a set of registers. -/
def writeRegisterMask (arch : Arch) (bits : UInt32) : List UInt8 :=
  if arch.sizeofPackedRegisterMask = 8 then writeByte bits else writeUnsigned bits

/-- Append the sets of registers. -/
def writeGcRegs (safepoint : LSafepoint arch) : List UInt8 :=
  let spilledGpr := safepoint.liveGprs
  writeRegisterMask arch spilledGpr ++
    (if spilledGpr ≠ 0 then
      writeRegisterMask arch safepoint.gcRegs ++
        writeRegisterMask arch safepoint.slotsOrElementsRegs ++
        if arch.nunbox32 then [] else writeRegisterMask arch safepoint.valueRegs
    else []) ++
    writeRegisterMask arch safepoint.liveFpus

/-- Put slots in a set. They are at a distance from the frame pointer, in bytes; the first is at the
distance of a pointer. -/
def insertSlots (arch : Arch) {numBits : ℕ} (set : BitSet numBits) (slots : List UInt32) :
    BitSet numBits :=
  slots.foldl (fun set slot => set.insert (slot / UInt32.ofNat arch.sizeofIntptr - 1)) set

/-- Append a set of slots. -/
def mapSlotsToBitset (arch : Arch) (slotCount : UInt32) (slots : List UInt32) : List UInt8 :=
  (insertSlots arch (BitSet.clear (slotCount.toNat / arch.sizeofIntptr)) slots).bits.flatMap
    writeUnsigned

/-- Append the slots that hold pointers to slots or elements. -/
def writeSlotsOrElementsSlots (safepoint : LSafepoint arch) : List UInt8 :=
  writeUnsigned (UInt32.ofNat safepoint.slotsOrElementsSlots.length) ++
    safepoint.slotsOrElementsSlots.flatMap writeUnsigned

/-- Kinds of parts. -/
inductive NunboxPartKind where
  | reg | stack | arg
  deriving DecidableEq

/-- A kind's code. -/
def NunboxPartKind.code : NunboxPartKind → UInt16
  | reg => 0
  | stack => 1
  | arg => 2

/-- The kind with a code. -/
def NunboxPartKind.ofCode (code : UInt16) : Option NunboxPartKind :=
  if code = 0 then some reg else if code = 1 then some stack
  else if code = 2 then some arg else none

/-- Bits of a part's kind. -/
def partKindBits : UInt16 := 3

/-- The bits of a part's kind. -/
def partKindMask : UInt16 := (1 <<< partKindBits) - 1

/-- Bits of what tells where a part is. -/
def partInfoBits : UInt16 := 5

/-- The bits that tell where a part is. -/
def partInfoMask : UInt16 := (1 <<< partInfoBits) - 1

/-- What tells that the place follows the header. -/
def maxInfoValue : UInt32 := 31

/-- Where the type's kind is in a header. -/
def typeKindShift : UInt16 := 16 - partKindBits

/-- Where the payload's kind is in a header. -/
def payloadKindShift : UInt16 := typeKindShift - partKindBits

/-- Where the type's place is in a header. -/
def typeInfoShift : UInt16 := payloadKindShift - partInfoBits

/-- Where the payload's place is in a header. -/
def payloadInfoShift : UInt16 := typeInfoShift - partInfoBits

/-- The kind of a part. Parts that are not known yet are not asked for. -/
def allocationToPartKind : LAllocation arch → NunboxPartKind
  | .gpr _ => .reg
  | .stackSlot _ => .stack
  | .argument _ => .arg
  | .use _ => .arg

/-- What tells where a part is, and whether it fits the header. -/
def canEncodeInfoInHeader : LAllocation arch → UInt32 × Bool
  | .gpr reg => (codeOf reg, true)
  | .stackSlot slot => (slot, slot < maxInfoValue)
  | .argument index => (index, index < maxInfoValue)
  | .use vreg => (vreg, vreg < maxInfoValue)

/-- Append an entry. -/
def writeNunboxEntry (entry : SafepointNunboxEntry arch) : List UInt8 :=
  let header := (allocationToPartKind entry.type).code <<< typeKindShift
  let header := header ||| ((allocationToPartKind entry.payload).code <<< payloadKindShift)
  let (typeVal, typeFits) := canEncodeInfoInHeader entry.type
  let header := header |||
    (if typeFits then typeVal else maxInfoValue).toUInt16 <<< typeInfoShift
  let (payloadVal, payloadFits) := canEncodeInfoInHeader entry.payload
  let header := header |||
    (if payloadFits then payloadVal else maxInfoValue).toUInt16 <<< payloadInfoShift
  writeFixedUint16 header ++ (if typeFits then [] else writeUnsigned typeVal) ++
    (if payloadFits then [] else writeUnsigned payloadVal)

/-- Append the entries that have both parts. -/
def writeNunboxParts (safepoint : LSafepoint arch) : List UInt8 :=
  let entries := safepoint.nunboxParts.entries
  writeUnsigned (UInt32.ofNat entries.length - safepoint.nunboxParts.partialNunboxes) ++
    entries.flatMap fun entry => if entry.isPartial then [] else writeNunboxEntry entry

/-- Append a safepoint. -/
def encode (slotCount : UInt32) (safepoint : LSafepoint arch) : List UInt8 :=
  writeUnsigned safepoint.osiCallPointOffset ++ writeGcRegs safepoint ++
    mapSlotsToBitset arch slotCount safepoint.gcSlots ++
    mapSlotsToBitset arch slotCount safepoint.valueSlots ++
    (if arch.nunbox32 then writeNunboxParts safepoint else []) ++
    writeSlotsOrElementsSlots safepoint

end Writer

/-- The reader's state but for its position in the stream. -/
structure SafepointReader where
  osiCallPointOffset : UInt32
  allGprSpills : UInt32
  gcSpills : UInt32
  valueSpills : UInt32
  slotsOrElementsSpills : UInt32
  allFloatSpills : UInt32
  frameSlots : ℕ
  currentSlotChunk : UInt32
  nextSlotChunkNumber : ℕ
  nunboxSlotsRemaining : UInt32
  slotsOrElementsSlotsRemaining : UInt32

namespace SafepointReader

variable (arch)

/-- Read the sets of general registers: all, those with pointers, those with pointers to slots or
elements, and those with values. -/
def readGprSpills : CompactBufferReader (UInt32 × UInt32 × UInt32 × UInt32) := do
  let allGprSpills ← readUnsigned
  if allGprSpills = 0 then pure (allGprSpills, allGprSpills, allGprSpills, allGprSpills)
  else
    let gcSpills ← readUnsigned
    let slotsOrElementsSpills ← readUnsigned
    let valueSpills ← (if arch.nunbox32 then pure 0 else readUnsigned : CompactBufferReader UInt32)
    pure (allGprSpills, gcSpills, slotsOrElementsSpills, valueSpills)

/-- Construct a reader, which reads the sets of registers. -/
def init (frameSlots : UInt32) : CompactBufferReader SafepointReader := do
  let osiCallPointOffset ← readUnsigned
  let (allGprSpills, gcSpills, slotsOrElementsSpills, valueSpills) ← readGprSpills arch
  let allFloatSpills ← readUnsigned
  pure ⟨osiCallPointOffset, allGprSpills, gcSpills, valueSpills, slotsOrElementsSpills,
    allFloatSpills, frameSlots.toNat / arch.sizeofIntptr, 0, 0, 0, 0⟩

/-- Read chunks until one has a bit. -/
def loadChunk : ℕ → SafepointReader → CompactBufferReader (Bool × SafepointReader)
  | 0, r => pure (decide (r.currentSlotChunk ≠ 0), r)
  | n + 1, r =>
    if r.currentSlotChunk = 0 then do
      let currentSlotChunk ← readUnsigned
      loadChunk n { r with
        currentSlotChunk := currentSlotChunk, nextSlotChunkNumber := r.nextSlotChunkNumber + 1 }
    else pure (true, r)

/-- Read the next slot of a bit set, if there is one. -/
def getSlotFromBitmap (r : SafepointReader) :
    CompactBufferReader (Option UInt32 × SafepointReader) := do
  let (found, r) ← loadChunk (rawLengthForBits r.frameSlots - r.nextSlotChunkNumber) r
  if found then
    let bit := r.currentSlotChunk.toNat.log2
    let slot := (UInt32.ofNat (r.nextSlotChunkNumber - 1) * UInt32.ofNat bitsPerWord +
      UInt32.ofNat bit + 1) * UInt32.ofNat arch.sizeofIntptr
    pure (some slot, { r with
      currentSlotChunk := r.currentSlotChunk &&& ~~~(1 <<< UInt32.ofNat bit) })
  else pure (none, r)

/-- Reset the chunk counter. -/
def advanceFromGcSlots (r : SafepointReader) : SafepointReader :=
  { r with currentSlotChunk := 0, nextSlotChunkNumber := 0 }

/-- Read the next slot that holds a pointer, if there is one. -/
def getGcSlot (r : SafepointReader) : CompactBufferReader (Option UInt32 × SafepointReader) := do
  let (slot, r) ← getSlotFromBitmap arch r
  if slot.isSome then pure (slot, r) else pure (none, r.advanceFromGcSlots)

/-- Read how many slots with pointers to slots or elements there are. -/
def advanceFromNunboxSlots (r : SafepointReader) : CompactBufferReader SafepointReader := do
  let remaining ← readUnsigned
  pure { r with slotsOrElementsSlotsRemaining := remaining }

/-- Read how many entries there are. Where values are boxed in one word there are none. -/
def advanceFromValueSlots (r : SafepointReader) : CompactBufferReader SafepointReader := do
  if arch.nunbox32 then
    let remaining ← readUnsigned
    pure { r with nunboxSlotsRemaining := remaining }
  else advanceFromNunboxSlots { r with nunboxSlotsRemaining := 0 }

/-- Read the next slot that holds a value, if there is one. -/
def getValueSlot (r : SafepointReader) : CompactBufferReader (Option UInt32 × SafepointReader) := do
  let (slot, r) ← getSlotFromBitmap arch r
  if slot.isSome then pure (slot, r)
  else
    let r ← advanceFromValueSlots arch r
    pure (none, r)

/-- Read where a part is. -/
def partFromStream (kind : NunboxPartKind) (info : UInt32) :
    CompactBufferReader (LAllocation arch) := do
  match kind with
  | .reg =>
    let reg ← fromCode arch.registersTotal info
    pure (.gpr reg)
  | .stack =>
    let info ← (if info = maxInfoValue then readUnsigned else pure info : CompactBufferReader UInt32)
    pure (.stackSlot info)
  | .arg =>
    let info ← (if info = maxInfoValue then readUnsigned else pure info : CompactBufferReader UInt32)
    pure (.argument info)

/-- Read the next entry, if there is one. The counter is decremented in any case. -/
def getNunboxSlot (r : SafepointReader) :
    CompactBufferReader (Option (SafepointNunboxEntry arch) × SafepointReader) := do
  let remaining := r.nunboxSlotsRemaining
  let r := { r with nunboxSlotsRemaining := remaining - 1 }
  if remaining = 0 then
    let r ← advanceFromNunboxSlots r
    pure (none, r)
  else
    let header ← readFixedUint16
    let typeKind ← ofOption (NunboxPartKind.ofCode ((header >>> typeKindShift) &&& partKindMask))
    let payloadKind ← ofOption
      (NunboxPartKind.ofCode ((header >>> payloadKindShift) &&& partKindMask))
    let typeInfo := ((header >>> typeInfoShift) &&& partInfoMask).toUInt32
    let payloadInfo := ((header >>> payloadInfoShift) &&& partInfoMask).toUInt32
    let type ← partFromStream arch typeKind typeInfo
    let payload ← partFromStream arch payloadKind payloadInfo
    pure (some ⟨type, payload⟩, r)

/-- Read the next slot that holds a pointer to slots or elements, if there is one. The counter is
decremented in any case. -/
def getSlotsOrElementsSlot (r : SafepointReader) :
    CompactBufferReader (Option UInt32 × SafepointReader) := do
  let remaining := r.slotsOrElementsSlotsRemaining
  let r := { r with slotsOrElementsSlotsRemaining := remaining - 1 }
  if remaining = 0 then pure (none, r)
  else
    let slot ← readUnsigned
    pure (some slot, r)

end SafepointReader

/-- Call a getter until it has nothing more to give. A number bounds the calls. -/
def drain {A : Type} (get : SafepointReader → CompactBufferReader (Option A × SafepointReader)) :
    ℕ → SafepointReader → CompactBufferReader (List A × SafepointReader)
  | 0, _ => fun _ => none
  | n + 1, r => do
    let (item, r) ← get r
    match item with
    | none => pure ([], r)
    | some item =>
      let (items, r) ← drain get n r
      pure (item :: items, r)

/-- There are at most as many slots in a bit set as bits; one more call finds the end. -/
def slotBound (r : SafepointReader) : ℕ := bitsPerWord * rawLengthForBits r.frameSlots + 1

/-- What is read of a safepoint. -/
structure SafepointRead (arch : Arch) where
  osiCallPointOffset : UInt32
  liveGprs : UInt32
  liveFpus : UInt32
  gcRegs : UInt32
  valueRegs : UInt32
  slotsOrElementsRegs : UInt32
  gcSlots : List UInt32
  valueSlots : List UInt32
  nunboxParts : List (SafepointNunboxEntry arch)
  slotsOrElementsSlots : List UInt32
  deriving DecidableEq

/-- Drain the entries, where they are asked for. -/
def drainNunbox (arch : Arch) (askNunbox : Bool) (r : SafepointReader) :
    CompactBufferReader (List (SafepointNunboxEntry arch) × SafepointReader) :=
  if askNunbox then drain (SafepointReader.getNunboxSlot arch) (r.nunboxSlotsRemaining.toNat + 1) r
  else pure ([], r)

/-- Construct a reader and drain it in order. Whether entries are asked for where values are boxed in
one word is up to the caller. -/
def readAll (arch : Arch) (askNunbox : Bool) (frameSlots : UInt32) :
    CompactBufferReader (SafepointRead arch) := do
  let r ← SafepointReader.init arch frameSlots
  let (gcSlots, r) ← drain (SafepointReader.getGcSlot arch) (slotBound r) r
  let (valueSlots, r) ← drain (SafepointReader.getValueSlot arch) (slotBound r) r
  let (nunboxParts, r) ← drainNunbox arch askNunbox r
  let (slotsOrElementsSlots, r) ←
    drain SafepointReader.getSlotsOrElementsSlot (r.slotsOrElementsSlotsRemaining.toNat + 1) r
  pure ⟨r.osiCallPointOffset, r.allGprSpills, r.allFloatSpills, r.gcSpills, r.valueSpills,
    r.slotsOrElementsSpills, gcSlots, valueSlots, nunboxParts, slotsOrElementsSlots⟩

end Safepoints

end SpiderMonkey.Jit
