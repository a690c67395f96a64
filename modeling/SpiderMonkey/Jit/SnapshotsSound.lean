import SpiderMonkey.Jit.Snapshots

/-!
# Snapshots round-trip

Every slot is read back from its first byte and what follows it, and so is every frame and the whole
snapshot, on every architecture.
-/

namespace SpiderMonkey.Jit.Snapshots

open Reader CompactBuffer

variable {arch : Arch}

/-- A stack index that is legal, or a register. -/
def Place.Valid : Place arch → Prop
  | .reg _ => True
  | .stack index => index ≠ Location.invalidStackSlot

/-- What callers of the writer promise: typed slots have a type with a payload, stack indices are
legal, and values are boxed as the architecture boxes them. -/
def SlotEntry.Valid : SlotEntry arch → Prop
  | .typedReg type _ => type ∈ [.int32, .string, .object, .boolean]
  | .typedStack type stackIndex =>
    type ∈ [.double, .int32, .string, .object, .boolean] ∧ stackIndex ≠ Location.invalidStackSlot
  | .nunbox type payload => arch.nunbox32 = true ∧ type.Valid ∧ payload.Valid
  | .punbox value => arch.nunbox32 = false ∧ value.Valid
  | .float32Stack stackIndex => stackIndex ≠ Location.invalidStackSlot
  | _ => True

/-- The location of a place. -/
def Place.location : Place arch → Location
  | .reg r => .ofReg r
  | .stack index => ⟨0, index⟩

/-- The slot that an entry is read back as. -/
def SlotEntry.slot : SlotEntry arch → Slot arch
  | .double reg => .doubleReg reg
  | .typedReg type reg => .typedReg type (.ofReg reg)
  | .typedStack type stackIndex => .typedStack type ⟨0, stackIndex⟩
  | .nunbox type payload => .untyped (.nunbox type.location payload.location)
  | .punbox value => .untyped (.punbox value.location)
  | .undefined => .undefined
  | .null => .null
  | .int32 value => .int32 value
  | .float32Reg reg => .float32Reg reg
  | .float32Stack stackIndex => .float32Stack ⟨0, stackIndex⟩
  | .constantPool index => .constant index

/-- The first byte of a slot holds its type and register code. -/
theorem slotHeader_fields (type : JSValueType) (code : UInt32) (h : code < 32) :
    JSValueType.ofCode ((type.code ||| (code <<< 3)).toUInt8 &&& 7) = type ∧
      ((type.code ||| (code <<< 3)).toUInt8 >>> 3).toUInt32 = code := by
  have hall : ∀ n : Fin 32, ∀ type : JSValueType,
      JSValueType.ofCode ((type.code ||| (UInt32.ofNat n.val <<< 3)).toUInt8 &&& 7) = type ∧
        ((type.code ||| (UInt32.ofNat n.val <<< 3)).toUInt8 >>> 3).toUInt32 = UInt32.ofNat n.val := by
    intro n type
    cases type <;> revert n <;> decide
  have hlt : code.toNat < 32 := UInt32.lt_iff_toNat_lt.mp h
  have hcode : UInt32.ofNat code.toNat = code := UInt32.ofNat_toNat
  simpa only [hcode] using hall ⟨code.toNat, hlt⟩ type

/-- A register's code is none of the escapes. -/
theorem codeOf_lt {total : ℕ} (htotal : total ≤ 16) (reg : Fin total) :
    codeOf reg < minRegFieldEsc := by
  rw [UInt32.lt_iff_toNat_lt, toNat_codeOf htotal]
  exact reg.isLt.trans_le (htotal.trans (by decide))

/-- A register is found by its byte. -/
theorem reads_fromByte {total : ℕ} (htotal : total ≤ 16) (reg : Fin total) :
    Reads (fromCode total (codeOf reg).toUInt8.toUInt32 : CompactBufferReader (Fin total)) [] reg := by
  have hbyte : (codeOf reg).toUInt8.toUInt32 = codeOf reg := by
    rw [← UInt32.toNat_inj, UInt8.toNat_toUInt32, UInt32.toNat_toUInt8, toNat_codeOf htotal]
    have hlt := reg.isLt
    omega
  rw [hbyte]
  exact reads_fromCode htotal reg

/-- A legal stack slot is a location. -/
theorem reads_ofStack {stackSlot : Int32} (h : stackSlot ≠ Location.invalidStackSlot) :
    Reads (Location.ofStack stackSlot) [] ⟨0, stackSlot⟩ := (reads_check h).bind_nil (reads_pure _)

open SnapshotReader

/-- A slot boxed in two words is read back. -/
theorem reads_addNunboxSlot {type payload : Place arch} (htype : type.Valid)
    (hpayload : payload.Valid) : ∃ code l, addNunboxSlot type payload = writeSlotHeader .magic code ++ l ∧
      code < 4 ∧ Reads (readNunboxSlot arch code) l (.nunbox type.location payload.location) := by
  have hregister := reads_fromByte arch.registersTotal_le
  cases type with
  | reg type =>
    cases payload with
    | reg payload =>
      refine ⟨3, _, List.append_assoc _ _ _, by decide, ?_⟩
      exact (reads_check rfl).bind_nil <| (reads_writeByte _).bind <| (hregister type).bind_nil <|
        (reads_writeByte _).bind_pure <| (hregister payload).bind_nil <| reads_pure _
    | stack payload =>
      refine ⟨2, _, List.append_assoc _ _ _, by decide, ?_⟩
      exact (reads_writeByte _).bind <| (hregister type).bind_nil <|
        (reads_writeSigned _).bind_pure <| (reads_ofStack hpayload).bind_nil <| reads_pure _
  | stack type =>
    cases payload with
    | reg payload =>
      refine ⟨1, _, List.append_assoc _ _ _, by decide, ?_⟩
      exact (reads_writeSigned _).bind <| (reads_ofStack htype).bind_nil <|
        (reads_writeByte _).bind_pure <| (hregister payload).bind_nil <| reads_pure _
    | stack payload =>
      refine ⟨0, _, List.append_assoc _ _ _, by decide, ?_⟩
      exact (reads_writeSigned _).bind <| (reads_ofStack htype).bind_nil <|
        (reads_writeSigned _).bind_pure <| (reads_ofStack hpayload).bind_nil <| reads_pure _

/-- A slot boxed in one word is read back. -/
theorem reads_addPunboxSlot {value : Place arch} (hvalue : value.Valid) :
    ∃ code l, addPunboxSlot value = writeSlotHeader .magic code ++ l ∧
      code < 32 ∧ code ≠ escRegFieldConst ∧
        Reads (readPunboxSlot arch code) l (.punbox value.location) := by
  cases value with
  | reg value =>
    have hlt := codeOf_lt arch.registersTotal_le value
    refine ⟨_, [], (List.append_nil _).symm, UInt32.lt_trans hlt (by decide : minRegFieldEsc < 32), fun h => ?_, ?_⟩
    · rw [h] at hlt
      exact absurd hlt (by decide)
    · rw [readPunboxSlot, if_pos hlt]
      exact (reads_fromCode arch.registersTotal_le value).bind_nil (reads_pure _)
  | stack value =>
    refine ⟨escRegFieldIndex, _, rfl, by decide, by decide, ?_⟩
    exact (reads_check rfl).bind_nil <| (reads_writeSigned _).bind_pure <|
      (reads_ofStack hvalue).bind_nil <| reads_pure _

/-- Every slot is a first byte and a rest that is read back. -/
theorem reads_addSlot {entry : SlotEntry arch} (h : entry.Valid) :
    ∃ type code l, addSlot entry = writeSlotHeader type code ++ l ∧ code < 32 ∧
      Reads (readSlotBody arch type code) l entry.slot := by
  cases entry with
  | double reg =>
    have hlt := codeOf_lt arch.floatRegistersTotal_le reg
    refine ⟨.double, codeOf reg, [], (List.append_nil _).symm, UInt32.lt_trans hlt (by decide : minRegFieldEsc < 32), ?_⟩
    rw [readSlotBody, if_pos hlt]
    exact (reads_fromCode arch.floatRegistersTotal_le reg).bind_nil (reads_pure _)
  | typedReg type reg =>
    have hlt := codeOf_lt arch.registersTotal_le reg
    refine ⟨type, codeOf reg, [], (List.append_nil _).symm, UInt32.lt_trans hlt (by decide : minRegFieldEsc < 32), ?_⟩
    have hreads : Reads (do
        let reg ← (fromCode arch.registersTotal (codeOf reg) : CompactBufferReader (Register arch))
        pure (Slot.typedReg type (.ofReg reg) : Slot arch)) [] (.typedReg type (.ofReg reg)) :=
      (reads_fromCode arch.registersTotal_le reg).bind_nil (reads_pure _)
    cases type <;> simp [SlotEntry.Valid] at h <;> rw [readSlotBody, if_pos hlt] <;> exact hreads
  | typedStack type stackIndex =>
    obtain ⟨htype, hstack⟩ := h
    refine ⟨type, escRegFieldIndex, _, rfl, by decide, ?_⟩
    have hreads : Reads (do
        check (escRegFieldIndex = escRegFieldIndex)
        let payload ← Location.ofStack (← readSigned)
        pure (Slot.typedStack type payload : Slot arch)) (writeSigned stackIndex)
          (.typedStack type ⟨0, stackIndex⟩) :=
      (reads_check rfl).bind_nil <| (reads_writeSigned _).bind_pure <|
        (reads_ofStack hstack).bind_nil <| reads_pure _
    cases type <;> simp at htype <;> exact hreads
  | nunbox type payload =>
    obtain ⟨harch, htype, hpayload⟩ := h
    obtain ⟨code, l, hl, hcode, hreads⟩ := reads_addNunboxSlot htype hpayload
    refine ⟨.magic, code, l, hl, UInt32.lt_trans hcode (by decide : (4 : UInt32) < 32), ?_⟩
    have hconst : code ≠ escRegFieldConst := by
      rintro rfl
      exact absurd hcode (by decide)
    rw [readSlotBody, if_neg hconst, harch]
    exact hreads.bind_pure (reads_pure _)
  | punbox value =>
    obtain ⟨harch, hvalue⟩ := h
    obtain ⟨code, l, hl, hcode, hconst, hreads⟩ := reads_addPunboxSlot hvalue
    refine ⟨.magic, code, l, hl, hcode, ?_⟩
    rw [readSlotBody, if_neg hconst, harch]
    exact hreads.bind_pure (reads_pure _)
  | undefined => exact ⟨.undefined, _, [], (List.append_nil _).symm, by decide, reads_pure _⟩
  | null => exact ⟨.null, _, [], (List.append_nil _).symm, by decide, reads_pure _⟩
  | int32 value =>
    rw [addSlot, addInt32Slot]
    split
    · rename_i hsmall
      refine ⟨.null, value.toUInt32, [], (List.append_nil _).symm,
        UInt32.lt_trans hsmall.2 (by decide : minRegFieldEsc < 32), ?_⟩
      have hescape (escape : UInt32) (hescape : minRegFieldEsc ≤ escape) :
          value.toUInt32 ≠ escape := by
        rintro rfl
        exact absurd (UInt32.lt_of_lt_of_le hsmall.2 hescape) (UInt32.lt_irrefl _)
      rw [readSlotBody, if_neg (hescape _ (by decide)), if_neg (hescape _ (by decide)),
        if_neg (hescape _ (by decide)), if_neg (hescape _ (by decide))]
      exact reads_pure _
    · exact ⟨.null, escRegFieldIndex, _, rfl, by decide,
        (reads_writeSigned _).bind_pure (reads_pure _)⟩
  | float32Reg reg =>
    refine ⟨.null, escRegFieldFloat32Reg, _, rfl, by decide, ?_⟩
    exact (reads_writeUnsigned _).bind_pure <|
      (reads_fromCode arch.floatRegistersTotal_le reg).bind_nil <| reads_pure _
  | float32Stack stackIndex =>
    refine ⟨.null, escRegFieldFloat32Stack, _, rfl, by decide, ?_⟩
    exact (reads_writeSigned _).bind_pure <| (reads_ofStack h).bind_nil <| reads_pure _
  | constantPool index =>
    rw [addSlot, addConstantPoolSlot]
    split
    · rename_i hsmall
      refine ⟨.undefined, index, [], (List.append_nil _).symm,
        UInt32.lt_trans hsmall (by decide : minRegFieldEsc < 32), ?_⟩
      have hescape (escape : UInt32) (hescape : minRegFieldEsc ≤ escape) : index ≠ escape := by
        rintro rfl
        exact absurd (UInt32.lt_of_lt_of_le hsmall hescape) (UInt32.lt_irrefl _)
      rw [readSlotBody, if_neg (hescape _ (by decide)), if_neg (hescape _ (by decide))]
      exact reads_pure _
    · exact ⟨.undefined, escRegFieldIndex, _, rfl, by decide,
        (reads_writeUnsigned _).bind_pure (reads_pure _)⟩

/-- A slot is read back. -/
theorem reads_slot {entry : SlotEntry arch} (h : entry.Valid) {r : SnapshotReader}
    (hmore : r.slotsRead < r.slotCount) :
    Reads (readSlot arch r) (addSlot entry) (entry.slot, { r with slotsRead := r.slotsRead + 1 }) := by
  obtain ⟨type, code, l, hl, hcode, hreads⟩ := reads_addSlot h
  obtain ⟨htype, hcode⟩ := slotHeader_fields type code hcode
  rw [hl]
  refine (reads_check (decide_eq_true hmore)).bind_nil <| (reads_writeByte _).bind ?_
  rw [htype, hcode]
  exact hreads.bind_pure (reads_pure _)

/-- A frame to be written. -/
structure Frame (arch : Arch) where
  pcOffset : UInt32
  slots : List (SlotEntry arch)

/-- The slot count of a frame. -/
def Frame.slotCount (frame : Frame arch) : UInt32 := UInt32.ofNat frame.slots.length

/-- Write a frame with its slots. -/
def Frame.write (frame : Frame arch) : List UInt8 :=
  startFrame frame.pcOffset frame.slotCount ++ frame.slots.flatMap addSlot

/-- The slots of a frame fit its count, and callers' promises hold of them. -/
structure Frame.Valid (frame : Frame arch) : Prop where
  length_lt : frame.slots.length < 2 ^ 32
  slots : ∀ entry ∈ frame.slots, entry.Valid

/-- The frame as it is read back. -/
def Frame.read (frame : Frame arch) : FrameRead arch :=
  (frame.pcOffset, frame.slotCount, frame.slots.map SlotEntry.slot)

/-- The rest of the slots of a frame are read back. -/
theorem reads_slots (slots : List (SlotEntry arch)) : ∀ r : SnapshotReader,
    (∀ entry ∈ slots, entry.Valid) → r.slotsRead.toNat + slots.length = r.slotCount.toNat →
      Reads (readSlots arch slots.length r) (slots.flatMap addSlot)
        (slots.map SlotEntry.slot, { r with slotsRead := r.slotCount }) := by
  induction slots with
  | nil =>
    intro r _ hcount
    have heq : r.slotsRead = r.slotCount := UInt32.toNat_inj.mp hcount
    refine (reads_check ?_).bind_nil ?_
    · simp [moreSlots, heq]
    · have hr : ({ r with slotsRead := r.slotCount } : SnapshotReader) = r := by
        cases r
        cases heq
        rfl
      rw [hr]
      exact reads_pure _
  | cons entry slots ih =>
    intro r hvalid hcount
    rw [List.length_cons] at hcount
    have hlt := r.slotCount.toNat_lt
    have hmore : r.slotsRead < r.slotCount := UInt32.lt_iff_toNat_lt.mpr (by omega)
    have hnext : (r.slotsRead + 1).toNat = r.slotsRead.toNat + 1 := by
      rw [UInt32.toNat_add]
      exact Nat.mod_eq_of_lt (by change _ + 1 < _; omega)
    have hrest := ih { r with slotsRead := r.slotsRead + 1 }
      (fun e he => hvalid e (List.mem_cons_of_mem entry he)) (by simp only [hnext]; omega)
    exact (reads_slot (hvalid entry List.mem_cons_self) hmore).bind <|
      hrest.bind_pure (reads_pure _)

/-- The header of the next frame is read back. -/
theorem reads_nextFrame {r : SnapshotReader} (hmore : r.framesRead < r.frameCount)
    (hslots : r.slotsRead = r.slotCount) (frame : Frame arch) :
    Reads (nextFrame r) (startFrame frame.pcOffset frame.slotCount)
      { r with
        pcOffset := frame.pcOffset, slotCount := frame.slotCount
        framesRead := r.framesRead + 1, slotsRead := 0 } :=
  (reads_check (decide_eq_true hmore)).bind_nil <| (reads_check hslots).bind_nil <|
    (reads_writeUnsigned _).bind <| (reads_writeUnsigned _).bind_pure (reads_pure _)

/-- All slots of a frame are read back. -/
theorem reads_frameSlots {frame : Frame arch} (h : frame.Valid) {r : SnapshotReader}
    (hcount : r.slotCount = frame.slotCount) (hslots : r.slotsRead = 0) :
    Reads (readSlots arch r.slotCount.toNat r) (frame.slots.flatMap addSlot)
      (frame.slots.map SlotEntry.slot, { r with slotsRead := r.slotCount }) := by
  have hlength : r.slotCount.toNat = frame.slots.length := by
    rw [hcount, Frame.slotCount, UInt32.toNat_ofNat', Nat.mod_eq_of_lt h.length_lt]
  rw [hlength]
  apply reads_slots _ _ h.slots
  rw [hslots, hlength]
  exact Nat.zero_add _

/-- The rest of the frames are read back, once the header of the first of them is. -/
theorem reads_frames (frames : List (Frame arch)) : ∀ (frame : Frame arch) (r : SnapshotReader) (n : ℕ),
    frame.Valid → (∀ f ∈ frames, f.Valid) → r.pcOffset = frame.pcOffset →
      r.slotCount = frame.slotCount → r.slotsRead = 0 →
      r.framesRead.toNat + frames.length = r.frameCount.toNat → frames.length < n →
        Reads (readFrames arch n r)
          (frame.slots.flatMap addSlot ++ frames.flatMap Frame.write)
          (frame.read :: frames.map Frame.read) := by
  induction frames with
  | nil =>
    intro frame r n hvalid _ hpc hcount hslots hframes hn
    obtain ⟨n, rfl⟩ := Nat.exists_eq_add_of_lt hn
    have hlast : ¬ r.framesRead < r.frameCount := by
      rw [UInt32.lt_iff_toNat_lt]
      simp only [List.length_nil] at hframes
      omega
    refine (reads_frameSlots hvalid hcount hslots).bind ?_
    simp only [moreFrames, hlast, decide_false, Bool.false_eq_true, if_false]
    have hread : frame.read = (r.pcOffset, r.slotCount, frame.slots.map SlotEntry.slot) := by
      rw [hpc, hcount]
      rfl
    rw [List.map_nil, hread]
    exact reads_pure _
  | cons next frames ih =>
    intro frame r n hvalid hvalids hpc hcount hslots hframes hn
    obtain ⟨n, rfl⟩ := Nat.exists_eq_add_of_lt hn
    rw [List.length_cons] at hframes hn
    have hlt := r.frameCount.toNat_lt
    have hmore : r.framesRead < r.frameCount := UInt32.lt_iff_toNat_lt.mpr (by omega)
    have hnext : (r.framesRead + 1).toNat = r.framesRead.toNat + 1 := by
      rw [UInt32.toNat_add]
      exact Nat.mod_eq_of_lt (by change _ + 1 < _; omega)
    refine (reads_frameSlots hvalid hcount hslots).bind ?_
    simp only [moreFrames, hmore, decide_true, if_true]
    have hread : frame.read = (r.pcOffset, r.slotCount, frame.slots.map SlotEntry.slot) := by
      rw [hpc, hcount]
      rfl
    have hrest := ih next
      { r with
        pcOffset := next.pcOffset, slotCount := next.slotCount
        framesRead := r.framesRead + 1, slotsRead := 0 } ((next :: frames).length + n)
      (hvalids next List.mem_cons_self) (fun f hf => hvalids f (List.mem_cons_of_mem next hf))
      rfl rfl rfl (by simp only [hnext]; omega) (by rw [List.length_cons]; omega)
    rw [List.map_cons, hread, List.flatMap_cons, Frame.write, List.append_assoc]
    exact (reads_nextFrame (r := { r with slotsRead := r.slotCount }) hmore rfl next).bind <|
      hrest.bind_pure (reads_pure _)

/-- What is written of a snapshot. -/
structure Snapshot (arch : Arch) where
  kind : BailoutKind
  resumeAfter : Bool
  frames : List (Frame arch)

namespace Snapshot

/-- The number of frames. -/
def frameCount (s : Snapshot arch) : UInt32 := UInt32.ofNat s.frames.length

/-- Write a snapshot. -/
def write (s : Snapshot arch) : List UInt8 :=
  startSnapshot s.frameCount s.kind s.resumeAfter ++ s.frames.flatMap Frame.write

/-- There are frames, and their number fits its field. -/
structure Valid (s : Snapshot arch) : Prop where
  frameCount_pos : 0 < s.frames.length
  frameCount_lt : s.frames.length < 2 ^ bailoutFramecountBits
  frames : ∀ frame ∈ s.frames, frame.Valid

end Snapshot

/-- The header of a snapshot is read back. -/
theorem reads_startSnapshot (frameCount : UInt32) (kind : BailoutKind) (resumeAfter : Bool)
    (hpos : 0 < frameCount.toNat) (hlt : frameCount.toNat < 2 ^ bailoutFramecountBits) :
    Reads readSnapshotHeader (startSnapshot frameCount kind resumeAfter)
      ⟨0, 0, frameCount, kind, 0, 0, resumeAfter⟩ := by
  have hkind : kind.code.toNat < 8 := by cases kind <;> decide
  have hframes : (frameCount <<< bailoutFramecountShift).toNat = 2 ^ 4 * frameCount.toNat := by
    rw [UInt32.toNat_shiftLeft]
    change _ <<< 4 % 2 ^ 32 = _
    rw [Nat.shiftLeft_eq]
    rw [bailoutFramecountBits] at hlt
    omega
  have hbits : ((kind.code <<< bailoutKindShift) ||| (frameCount <<< bailoutFramecountShift)).toNat =
      2 ^ 4 * frameCount.toNat + kind.code.toNat := by
    have hor := Nat.two_pow_add_eq_or_of_lt (i := 4) (b := kind.code.toNat) (by omega)
      frameCount.toNat
    have hsame : kind.code <<< bailoutKindShift = kind.code := by cases kind <;> rfl
    rw [hsame, UInt32.toNat_or, hframes, Nat.or_comm, ← hor]
  have hresume : (((kind.code <<< bailoutKindShift) ||| (frameCount <<< bailoutFramecountShift)) |||
      (1 <<< bailoutResumeShift)).toNat = 2 ^ 4 * frameCount.toNat + (8 + kind.code.toNat) := by
    have hor := Nat.two_pow_add_eq_or_of_lt (i := 4) (b := 8 + kind.code.toNat) (by omega)
      frameCount.toNat
    have hor' := Nat.two_pow_add_eq_or_of_lt (i := 3) hkind 1
    have hor'' := Nat.two_pow_add_eq_or_of_lt (i := 4) (b := kind.code.toNat) (by omega)
      frameCount.toNat
    have hbit : (1 <<< bailoutResumeShift : UInt32).toNat = 2 ^ 3 * 1 := rfl
    rw [UInt32.toNat_or, hbits, hor'', hbit, Nat.or_assoc, Nat.or_comm kind.code.toNat, ← hor', ← hor]
  generalize hheader : (if resumeAfter then
    ((kind.code <<< bailoutKindShift) ||| (frameCount <<< bailoutFramecountShift)) |||
      (1 <<< bailoutResumeShift)
    else (kind.code <<< bailoutKindShift) ||| (frameCount <<< bailoutFramecountShift)) = bits
  have htoNat : bits.toNat =
      16 * frameCount.toNat + ((if resumeAfter then 8 else 0) + kind.code.toNat) := by
    rw [← hheader]
    cases resumeAfter
    · simpa using hbits
    · simpa using hresume
  have hcount : bits >>> bailoutFramecountShift = frameCount := by
    rw [← UInt32.toNat_inj, UInt32.toNat_shiftRight]
    change bits.toNat >>> 4 = _
    rw [Nat.shiftRight_eq_div_pow, htoNat]
    split <;> omega
  have hcode : (bits >>> bailoutKindShift) &&& bailoutKindMask = kind.code := by
    rw [← UInt32.toNat_inj, UInt32.toNat_and, UInt32.toNat_shiftRight]
    change bits.toNat >>> 0 &&& 2 ^ 3 - 1 = _
    rw [Nat.shiftRight_zero, Nat.and_two_pow_sub_one_eq_mod, htoNat]
    split <;> omega
  have hflag : bits &&& (1 <<< bailoutResumeShift) ≠ 0 ↔ resumeAfter = true := by
    rw [ne_eq, ← UInt32.toNat_inj, UInt32.toNat_and]
    change ¬ bits.toNat &&& 2 ^ 3 = 0 ↔ _
    rw [Nat.and_two_pow, Nat.testBit_eq_decide_div_mod_eq, htoNat]
    cases resumeAfter
    · have hbit : ¬ (16 * frameCount.toNat + (0 + kind.code.toNat)) / 2 ^ 3 % 2 = 1 := by omega
      simp only [Bool.false_eq_true, if_false, hbit, decide_false, Bool.toNat_false, Nat.zero_mul,
        not_true_eq_false]
    · have hbit : (16 * frameCount.toNat + (8 + kind.code.toNat)) / 2 ^ 3 % 2 = 1 := by omega
      simp only [if_true, hbit, decide_true, Bool.toNat_true, iff_true]
      decide
  have hkindCode : BailoutKind.ofCode kind.code = some kind := by cases kind <;> rfl
  have hdecide : decide (bits &&& (1 <<< bailoutResumeShift) ≠ 0) = resumeAfter := by
    cases resumeAfter
    · exact decide_eq_false fun hne => by simpa using hflag.mp hne
    · exact decide_eq_true (hflag.mpr rfl)
  simp only [startSnapshot, hheader]
  refine (reads_writeUnsigned bits).bind_pure ?_
  simp only [hcount, hcode, hdecide]
  have hpos' : bits >>> bailoutFramecountShift > 0 :=
    hcount.symm ▸ (UInt32.lt_iff_toNat_lt.mpr hpos : (0 : UInt32) < frameCount)
  refine (reads_check hpos').bind_nil ?_
  exact (reads_ofOption hkindCode).bind_nil (reads_pure _)

/-- A snapshot is read back: the header, and every frame with its slots in order. Reading takes
exactly the bytes that were written. -/
theorem readAll_write (s : Snapshot arch) (h : s.Valid) :
    Reads (readAll arch) s.write (s.frameCount, s.kind, s.resumeAfter, s.frames.map Frame.read) := by
  obtain ⟨kind, resumeAfter, frames⟩ := s
  cases frames with
  | nil => exact absurd h.frameCount_pos (Nat.lt_irrefl 0)
  | cons frame frames =>
    have hcount : (UInt32.ofNat (frame :: frames).length).toNat = (frame :: frames).length := by
      rw [UInt32.toNat_ofNat', Nat.mod_eq_of_lt]
      exact lt_trans h.frameCount_lt (by decide)
    have hpos : 0 < (frame :: frames).length := h.frameCount_pos
    have hlt : (frame :: frames).length < 2 ^ bailoutFramecountBits := h.frameCount_lt
    rw [Snapshot.write, Snapshot.frameCount]
    dsimp only
    generalize UInt32.ofNat (frame :: frames).length = count at *
    rw [← hcount] at hpos hlt
    have hframes := reads_frames frames frame
      ⟨frame.pcOffset, frame.slotCount, count, kind, 0 + 1, 0, resumeAfter⟩ count.toNat
      (h.frames frame List.mem_cons_self) (fun f hf => h.frames f (List.mem_cons_of_mem frame hf))
      rfl rfl rfl (by rw [hcount, List.length_cons, Nat.add_comm]; rfl) (by rw [hcount]; simp)
    have hfirst := reads_nextFrame (r := ⟨0, 0, count, kind, 0, 0, resumeAfter⟩)
      (UInt32.lt_iff_toNat_lt.mpr hpos) rfl frame
    have hinit := (reads_startSnapshot count kind resumeAfter hpos hlt).bind hfirst
    rw [List.flatMap_cons, Frame.write, List.append_assoc, ← List.append_assoc]
    refine Reads.bind (p := SnapshotReader.init) hinit ?_
    exact hframes.bind_pure (reads_pure _)

/-- A snapshot of two frames on an architecture that boxes values in two words. -/
theorem readAll_write_twoFrames :
    let s : Snapshot .x86 := ⟨.boundsCheck, true,
      [⟨7, [.int32 (-2147483648), .nunbox (.reg ⟨3, by decide⟩) (.stack 40)]⟩, ⟨300, [.constantPool 28, .null]⟩]⟩
    readAll .x86 s.write = some ((2, .boundsCheck, true, s.frames.map Frame.read), []) := by
  intro s
  have hnunbox : (SlotEntry.nunbox (.reg ⟨3, by decide⟩) (.stack 40) : SlotEntry .x86).Valid :=
    ⟨rfl, trivial, by change (40 : Int32) ≠ -1; decide⟩
  refine (readAll_write s ⟨by decide, by decide, fun frame hframe => ?_⟩).run
  rcases List.mem_cons.mp hframe with rfl | hframe
  · exact ⟨by decide, List.forall_mem_cons.mpr ⟨trivial, List.forall_mem_singleton.mpr hnunbox⟩⟩
  · obtain rfl := List.mem_singleton.mp hframe
    exact ⟨by decide, List.forall_mem_cons.mpr ⟨trivial, List.forall_mem_singleton.mpr trivial⟩⟩

end SpiderMonkey.Jit.Snapshots
