import SpiderMonkey.Jit.Safepoints
import Mathlib.Data.List.Nodup

/-!
# Safepoints round-trip

A safepoint is read back with its registers, its slots as sets, and its entries with both parts, and
reading stops where writing stopped. Where values are boxed in one word, the reader must not ask for
entries: there is no count of them in the stream, and asking takes the next count twice.
-/

namespace SpiderMonkey.Jit.Safepoints

open Reader CompactBuffer SafepointReader

variable {arch : Arch}

/-- A pointer's length is less than the length of a word. -/
theorem toNat_sizeofIntptr (arch : Arch) :
    (UInt32.ofNat arch.sizeofIntptr).toNat = arch.sizeofIntptr := by cases arch <;> rfl

/-- A set of registers is read back. -/
theorem reads_writeRegisterMask (bits : UInt32) :
    Reads readUnsigned (writeRegisterMask arch bits) bits := by
  have hsize : arch.sizeofPackedRegisterMask ≠ 8 := by cases arch <;> decide
  rw [writeRegisterMask, if_neg hsize]
  exact reads_writeUnsigned bits

/-- There is nothing in a subset of the empty set. -/
theorem eq_zero_of_sub {bits live : UInt32} (hsub : bits &&& ~~~live = 0) (hlive : live = 0) :
    bits = 0 := by
  rw [hlive] at hsub
  simpa using hsub

/-- The registers with values that a reader finds. -/
def LSafepoint.valueSpills (safepoint : LSafepoint arch) : UInt32 :=
  if arch.nunbox32 then 0 else safepoint.valueRegs

/-- A reader that has read the sets of registers. -/
def SafepointReader.start (slotCount : UInt32) (safepoint : LSafepoint arch) : SafepointReader :=
  ⟨safepoint.osiCallPointOffset, safepoint.liveGprs, safepoint.gcRegs, safepoint.valueSpills,
    safepoint.slotsOrElementsRegs, safepoint.liveFpus, slotCount.toNat / arch.sizeofIntptr, 0, 0, 0, 0⟩

/-- The sets of registers are read back. -/
theorem reads_init (slotCount : UInt32) (safepoint : LSafepoint arch) :
    Reads (init arch slotCount) (writeUnsigned safepoint.osiCallPointOffset ++ writeGcRegs safepoint)
      (start slotCount safepoint) := by
  apply (reads_writeUnsigned _).bind
  rw [writeGcRegs, List.append_assoc]
  have hgprs : Reads (readGprSpills arch)
      (writeRegisterMask arch safepoint.liveGprs ++ if safepoint.liveGprs ≠ 0 then
        writeRegisterMask arch safepoint.gcRegs ++
          writeRegisterMask arch safepoint.slotsOrElementsRegs ++
          if arch.nunbox32 then [] else writeRegisterMask arch safepoint.valueRegs
      else [])
      (safepoint.liveGprs, safepoint.gcRegs, safepoint.slotsOrElementsRegs, safepoint.valueSpills) := by
    apply (reads_writeRegisterMask safepoint.liveGprs).bind
    by_cases hlive : safepoint.liveGprs = 0
    · have hvalue : safepoint.valueSpills = 0 := by
        rw [LSafepoint.valueSpills, eq_zero_of_sub safepoint.valueRegs_sub hlive]
        exact ite_self 0
      rw [if_pos hlive, if_neg (not_not.mpr hlive), hvalue, hlive,
        eq_zero_of_sub safepoint.gcRegs_sub hlive,
        eq_zero_of_sub safepoint.slotsOrElementsRegs_sub hlive]
      exact reads_pure _
    · rw [if_neg hlive, if_pos hlive, List.append_assoc]
      apply (reads_writeRegisterMask safepoint.gcRegs).bind
      apply (reads_writeRegisterMask safepoint.slotsOrElementsRegs).bind
      have hvalue : Reads (if arch.nunbox32 then pure 0 else readUnsigned)
          (if arch.nunbox32 then [] else writeRegisterMask arch safepoint.valueRegs)
          safepoint.valueSpills := by
        rw [LSafepoint.valueSpills]
        cases arch.nunbox32 with
        | true => exact reads_pure 0
        | false => exact reads_writeRegisterMask _
      exact hvalue.bind_pure (reads_pure _)
  rw [← List.append_assoc]
  apply hgprs.bind
  exact (reads_writeRegisterMask safepoint.liveFpus).bind_pure (reads_pure _)

/-- The distance of a slot that is in a bit set. -/
def slotOf (arch : Arch) (v : ℕ) : UInt32 := (UInt32.ofNat v + 1) * UInt32.ofNat arch.sizeofIntptr

/-- The next slot in a chunk that has bits. -/
theorem reads_getSlotFromBitmap_chunk {r : SafepointReader} (hchunk : r.currentSlotChunk ≠ 0) :
    Reads (getSlotFromBitmap arch r) []
      (some (slotOf arch (bitsPerWord * (r.nextSlotChunkNumber - 1) + r.currentSlotChunk.toNat.log2)),
        { r with currentSlotChunk :=
            r.currentSlotChunk &&& ~~~(1 <<< UInt32.ofNat r.currentSlotChunk.toNat.log2) }) := by
  have hload (n : ℕ) : Reads (loadChunk n r) [] (true, r) := by
    cases n with
    | zero =>
      rw [loadChunk, decide_eq_true hchunk]
      exact reads_pure _
    | succ n =>
      rw [loadChunk, if_neg hchunk]
      exact reads_pure _
  apply (hload _).bind_nil
  dsimp only
  rw [if_pos rfl, slotOf, UInt32.ofNat_add, UInt32.ofNat_mul, UInt32.mul_comm (UInt32.ofNat bitsPerWord)]
  exact reads_pure _

/-- An empty chunk is followed by the next one. -/
theorem getSlotFromBitmap_skip {r : SafepointReader} (hchunk : r.currentSlotChunk = 0)
    (hnext : r.nextSlotChunkNumber < rawLengthForBits r.frameSlots) (w : UInt32) (rest : List UInt8) :
    getSlotFromBitmap arch r (writeUnsigned w ++ rest) =
      getSlotFromBitmap arch { r with
        currentSlotChunk := w, nextSlotChunkNumber := r.nextSlotChunkNumber + 1 } rest := by
  obtain ⟨n, hn⟩ := Nat.exists_eq_add_of_lt hnext
  have hleft : rawLengthForBits r.frameSlots - r.nextSlotChunkNumber = n + 1 := by omega
  have hleft' : rawLengthForBits r.frameSlots - (r.nextSlotChunkNumber + 1) = n := by omega
  have hload : loadChunk (n + 1) r (writeUnsigned w ++ rest) = loadChunk n { r with
      currentSlotChunk := w, nextSlotChunkNumber := r.nextSlotChunkNumber + 1 } rest := by
    rw [loadChunk, if_pos hchunk]
    change (readUnsigned (writeUnsigned w ++ rest)).bind _ = _
    rw [reads_writeUnsigned w rest]
    rfl
  change (loadChunk _ r (writeUnsigned w ++ rest)).bind _ = (loadChunk _ _ rest).bind _
  dsimp only
  rw [hleft, hleft', hload]

/-- There is no slot after the last chunk. -/
theorem reads_getSlotFromBitmap_end {r : SafepointReader} (hchunk : r.currentSlotChunk = 0)
    (hnext : r.nextSlotChunkNumber = rawLengthForBits r.frameSlots) :
    Reads (getSlotFromBitmap arch r) [] (none, r) := by
  have hload : Reads (loadChunk (rawLengthForBits r.frameSlots - r.nextSlotChunkNumber) r) []
      (false, r) := by
    rw [hnext, Nat.sub_self, loadChunk, hchunk]
    exact reads_pure _
  exact hload.bind_nil (reads_pure _)

/-- A getter of slots in a bit set, with what it does at the end. -/
def getSlotThen (arch : Arch) (advance : SafepointReader → CompactBufferReader SafepointReader)
    (r : SafepointReader) : CompactBufferReader (Option UInt32 × SafepointReader) := do
  let (slot, r) ← getSlotFromBitmap arch r
  if slot.isSome then pure (slot, r)
  else
    let r ← advance r
    pure (none, r)

/-- The slots that are still to be read: those in the current chunk, and those in the words that
follow. -/
def remainingElements (r : SafepointReader) (words : List UInt32) : List ℕ :=
  (bitsBelow r.currentSlotChunk.toNat 32).map (bitsPerWord * (r.nextSlotChunkNumber - 1) + ·) ++
    BitSet.elementsFrom r.nextSlotChunkNumber words

/-- A getter that is applied to the same state and stream gives the same. -/
theorem drain_congr {A : Type} {get : SafepointReader → CompactBufferReader (Option A × SafepointReader)}
    {r r₁ : SafepointReader} {l l₁ : List UInt8} (h : get r l = get r₁ l₁) (n : ℕ) :
    drain get (n + 1) r l = drain get (n + 1) r₁ l₁ := by
  change (get r l).bind _ = (get r₁ l₁).bind _
  rw [h]

/-- Draining goes on after an item. -/
theorem reads_drain_cons {A : Type}
    {get : SafepointReader → CompactBufferReader (Option A × SafepointReader)}
    {r r₁ r' : SafepointReader} {l l' : List UInt8} {item : A} {items : List A} {n : ℕ}
    (hget : Reads (get r) l (some item, r₁)) (hrest : Reads (drain get n r₁) l' (items, r')) :
    Reads (drain get (n + 1) r) (l ++ l') (item :: items, r') := by
  apply hget.bind
  exact hrest.bind_pure (reads_pure _)

/-- Draining stops when there is no item. -/
theorem reads_drain_nil {A : Type}
    {get : SafepointReader → CompactBufferReader (Option A × SafepointReader)}
    {r r' : SafepointReader} {l : List UInt8} (hget : Reads (get r) l (none, r')) (n : ℕ) :
    Reads (drain get (n + 1) r) l ([], r') := hget.bind_pure (reads_pure _)

/-- All slots of a bit set are read, in the set's order. The induction is on calls and words
together: a call takes a bit of the current chunk, or goes on to the next word. -/
theorem reads_drain_slots {advance : SafepointReader → CompactBufferReader SafepointReader}
    {tail : List UInt8} {r' : SafepointReader} (m : ℕ) :
    ∀ (n : ℕ) (words : List UInt32) (r : SafepointReader), n + words.length = m →
      r.nextSlotChunkNumber + words.length = rawLengthForBits r.frameSlots →
      (remainingElements r words).length < n →
      Reads (advance { r with
        currentSlotChunk := 0, nextSlotChunkNumber := rawLengthForBits r.frameSlots }) tail r' →
      Reads (drain (getSlotThen arch advance) n r) (words.flatMap writeUnsigned ++ tail)
        ((remainingElements r words).map (slotOf arch), r') := by
  induction m with
  | zero =>
    intro n words r hm hnext hn
    omega
  | succ m ih =>
    intro n words r hm hnext hn hadvance
    obtain ⟨n, rfl⟩ : ∃ k, n = k + 1 := ⟨n - 1, by omega⟩
    by_cases hchunk : r.currentSlotChunk = 0
    · cases words with
      | nil =>
        have hlast : r.nextSlotChunkNumber = rawLengthForBits r.frameSlots := hnext
        have hnone : remainingElements r [] = [] := by
          rw [remainingElements, hchunk, BitSet.elementsFrom, List.append_nil]
          exact congrArg (List.map _) (bitsBelow_zero 32)
        have hr : { r with
            currentSlotChunk := 0, nextSlotChunkNumber := rawLengthForBits r.frameSlots } = r := by
          rw [← hlast, ← hchunk]
        rw [hnone, List.map_nil, List.flatMap_nil, List.nil_append]
        apply reads_drain_nil
        rw [hr] at hadvance
        exact (reads_getSlotFromBitmap_end hchunk hlast).bind_nil (hadvance.bind_pure (reads_pure _))
      | cons w words =>
        have hlt : r.nextSlotChunkNumber < rawLengthForBits r.frameSlots := by
          rw [← hnext, List.length_cons]
          omega
        have hsame : remainingElements r (w :: words) = remainingElements { r with
            currentSlotChunk := w, nextSlotChunkNumber := r.nextSlotChunkNumber + 1 } words := by
          rw [remainingElements, hchunk, BitSet.elementsFrom]
          change List.map _ (bitsBelow 0 32) ++ _ = _
          rw [bitsBelow_zero]
          rfl
        rw [hsame] at hn ⊢
        rw [List.length_cons] at hm hnext
        have hrest := ih (n + 1) words { r with
          currentSlotChunk := w, nextSlotChunkNumber := r.nextSlotChunkNumber + 1 }
          (by omega) (by dsimp only; omega) hn hadvance
        intro rest
        rw [← hrest rest, List.flatMap_cons]
        simp only [List.append_assoc]
        apply drain_congr
        change (getSlotFromBitmap arch r _).bind _ = (getSlotFromBitmap arch _ _).bind _
        rw [getSlotFromBitmap_skip hchunk hlt]
    · have hhead : remainingElements r words =
          (bitsPerWord * (r.nextSlotChunkNumber - 1) + r.currentSlotChunk.toNat.log2) ::
            remainingElements { r with currentSlotChunk := r.currentSlotChunk &&&
              ~~~(1 <<< UInt32.ofNat r.currentSlotChunk.toNat.log2) } words := by
        rw [remainingElements, bitsBelow_clearBit hchunk]
        rfl
      rw [hhead, List.length_cons] at hn
      rw [hhead, List.map_cons, ← List.nil_append (words.flatMap writeUnsigned ++ tail)]
      refine reads_drain_cons ?_ (ih n words _ (by omega) hnext (by omega) hadvance)
      exact (reads_getSlotFromBitmap_chunk hchunk).bind_nil (reads_pure _)

/-- A slot of a frame: its distance is a positive multiple of a pointer's length and at most the
frame's size. -/
def ValidSlot (arch : Arch) (slotCount slot : UInt32) : Prop :=
  slot.toNat % arch.sizeofIntptr = 0 ∧ 0 < slot.toNat ∧ slot ≤ slotCount

/-- The number that stands for a slot. -/
def indexOf (arch : Arch) (slot : UInt32) : ℕ := slot.toNat / arch.sizeofIntptr - 1

/-- A valid slot's distance. -/
theorem ValidSlot.toNat_eq {slotCount slot : UInt32} (h : ValidSlot arch slotCount slot) :
    slot.toNat = (indexOf arch slot + 1) * arch.sizeofIntptr := by
  obtain ⟨hmod, hpos, -⟩ := h
  have hdiv : 0 < slot.toNat / arch.sizeofIntptr := by
    apply Nat.pos_of_ne_zero
    intro hzero
    have hsplit := Nat.div_add_mod slot.toNat arch.sizeofIntptr
    rw [hzero, hmod] at hsplit
    omega
  rw [indexOf, Nat.sub_add_cancel hdiv]
  exact (Nat.div_mul_cancel (Nat.dvd_of_mod_eq_zero hmod)).symm

/-- The number that stands for a valid slot fits the set. -/
theorem ValidSlot.indexOf_lt {slotCount slot : UInt32} (h : ValidSlot arch slotCount slot) :
    indexOf arch slot < slotCount.toNat / arch.sizeofIntptr := by
  have hle : slot.toNat ≤ slotCount.toNat := h.2.2
  rw [h.toNat_eq] at hle
  exact (Nat.le_div_iff_mul_le arch.sizeofIntptr_pos).mpr hle

/-- The writer computes the number that stands for a valid slot. -/
theorem ValidSlot.toNat_index {slotCount slot : UInt32} (h : ValidSlot arch slotCount slot) :
    (slot / UInt32.ofNat arch.sizeofIntptr - 1).toNat = indexOf arch slot := by
  have hdiv : (slot / UInt32.ofNat arch.sizeofIntptr).toNat = indexOf arch slot + 1 := by
    rw [UInt32.toNat_div, toNat_sizeofIntptr, h.toNat_eq]
    exact Nat.mul_div_cancel _ arch.sizeofIntptr_pos
  have hle : (1 : UInt32) ≤ slot / UInt32.ofNat arch.sizeofIntptr :=
    UInt32.le_iff_toNat_le.mpr (by rw [hdiv]; exact Nat.le_add_left 1 _)
  rw [UInt32.toNat_sub_of_le _ _ hle, hdiv]
  rfl

/-- The reader finds a valid slot by its number. -/
theorem ValidSlot.slotOf_indexOf {slotCount slot : UInt32} (h : ValidSlot arch slotCount slot) :
    slotOf arch (indexOf arch slot) = slot := by
  have hslot := h.toNat_eq
  have hlt := slot.toNat_lt
  have hindex : indexOf arch slot + 1 ≤ slot.toNat := by
    rw [hslot]
    exact Nat.le_mul_of_pos_right _ arch.sizeofIntptr_pos
  rw [← UInt32.toNat_inj, slotOf, UInt32.toNat_mul, toNat_sizeofIntptr, UInt32.toNat_add,
    UInt32.toNat_ofNat']
  change ((indexOf arch slot % 2 ^ 32 + 1) % 2 ^ 32 * arch.sizeofIntptr) % 2 ^ 32 = _
  rw [Nat.mod_eq_of_lt (by omega : indexOf arch slot < 2 ^ 32),
    Nat.mod_eq_of_lt (by omega : indexOf arch slot + 1 < 2 ^ 32), ← hslot, Nat.mod_eq_of_lt hlt]

/-- What is in a set after slots are put in it. -/
theorem has_insertSlots {slotCount : UInt32} (slots : List UInt32)
    (hslots : ∀ slot ∈ slots, ValidSlot arch slotCount slot)
    (set : BitSet (slotCount.toNat / arch.sizeofIntptr)) (v : ℕ) :
    BitSet.Has (insertSlots arch set slots).bits v ↔
      (∃ slot ∈ slots, indexOf arch slot = v) ∨ BitSet.Has set.bits v := by
  induction slots generalizing set with
  | nil => simp [insertSlots]
  | cons slot slots ih =>
    have hslot := hslots slot List.mem_cons_self
    have hlt := hslot.indexOf_lt
    rw [← hslot.toNat_index] at hlt
    have hinsert := set.has_insert hlt v
    rw [hslot.toNat_index] at hinsert
    have hrest := ih (fun s hs => hslots s (List.mem_cons_of_mem slot hs))
      (set.insert (slot / UInt32.ofNat arch.sizeofIntptr - 1))
    rw [insertSlots, List.foldl_cons]
    change BitSet.Has (insertSlots arch _ slots).bits v ↔ _
    rw [hrest, hinsert, List.exists_mem_cons_iff, eq_comm, ← or_assoc]
    exact or_congr_left or_comm

/-- The numbers of a safepoint's slots, in the order in which they are read. -/
def slotElements (arch : Arch) (slotCount : UInt32) (slots : List UInt32) : List ℕ :=
  BitSet.elementsFrom 0
    (insertSlots arch (BitSet.clear (slotCount.toNat / arch.sizeofIntptr)) slots).bits

/-- The numbers that are read are those of the slots. -/
theorem mem_slotElements {slotCount : UInt32} {slots : List UInt32}
    (hslots : ∀ slot ∈ slots, ValidSlot arch slotCount slot) (v : ℕ) :
    v ∈ slotElements arch slotCount slots ↔ ∃ slot ∈ slots, indexOf arch slot = v := by
  rw [slotElements, BitSet.mem_elementsFrom, Nat.mul_zero, Nat.sub_zero, has_insertSlots slots hslots,
    or_iff_left (BitSet.not_has_clear v)]
  exact and_iff_right (Nat.zero_le v)

/-- The slots that are read are those that were written. -/
theorem mem_map_slotElements {slotCount : UInt32} {slots : List UInt32}
    (hslots : ∀ slot ∈ slots, ValidSlot arch slotCount slot) (slot : UInt32) :
    slot ∈ (slotElements arch slotCount slots).map (slotOf arch) ↔ slot ∈ slots := by
  constructor
  · intro hslot
    obtain ⟨v, hv, rfl⟩ := List.mem_map.mp hslot
    obtain ⟨s, hs, rfl⟩ := (mem_slotElements hslots v).mp hv
    rwa [(hslots s hs).slotOf_indexOf]
  · intro hslot
    apply List.mem_map.mpr
    exact ⟨indexOf arch slot, (mem_slotElements hslots _).mpr ⟨slot, hslot, rfl⟩,
      (hslots slot hslot).slotOf_indexOf⟩

/-- No slot is read twice. -/
theorem nodup_map_slotElements {slotCount : UInt32} {slots : List UInt32}
    (hslots : ∀ slot ∈ slots, ValidSlot arch slotCount slot) :
    ((slotElements arch slotCount slots).map (slotOf arch)).Nodup := by
  apply (BitSet.nodup_elementsFrom _ 0).map_on
  intro v hv w hw heq
  obtain ⟨s, hs, rfl⟩ := (mem_slotElements hslots v).mp hv
  obtain ⟨t, ht, rfl⟩ := (mem_slotElements hslots w).mp hw
  rw [(hslots s hs).slotOf_indexOf, (hslots t ht).slotOf_indexOf] at heq
  rw [heq]

/-- The slots of a bit set are read from its start. -/
theorem reads_drain_mapSlotsToBitset
    {advance : SafepointReader → CompactBufferReader SafepointReader} {tail : List UInt8}
    {slotCount : UInt32} (slots : List UInt32) {r r' : SafepointReader}
    (hframe : r.frameSlots = slotCount.toNat / arch.sizeofIntptr)
    (hchunk : r.currentSlotChunk = 0) (hnext : r.nextSlotChunkNumber = 0)
    (hadvance : Reads (advance { r with
      currentSlotChunk := 0, nextSlotChunkNumber := rawLengthForBits r.frameSlots }) tail r') :
    Reads (drain (getSlotThen arch advance) (slotBound r) r)
      (mapSlotsToBitset arch slotCount slots ++ tail)
      ((slotElements arch slotCount slots).map (slotOf arch), r') := by
  generalize hset : insertSlots arch (BitSet.clear (slotCount.toNat / arch.sizeofIntptr)) slots = set
  have hlength : set.bits.length = rawLengthForBits r.frameSlots := by rw [hframe, set.length_eq]
  have helements : remainingElements r set.bits = slotElements arch slotCount slots := by
    rw [remainingElements, hchunk, hnext, slotElements, hset]
    change List.map _ (bitsBelow 0 32) ++ _ = _
    rw [bitsBelow_zero, List.map_nil, List.nil_append]
  have hbound : (remainingElements r set.bits).length < slotBound r := by
    rw [helements, slotElements, hset, slotBound, ← hlength]
    exact Nat.lt_succ_of_le (BitSet.length_elementsFrom_le _ 0)
  rw [mapSlotsToBitset, hset, ← helements]
  exact reads_drain_slots _ _ _ _ rfl (by rw [hnext, hlength, Nat.zero_add]) hbound hadvance

/-- A header holds the kinds and places of both parts. -/
theorem toNat_header {typeKind payloadKind : UInt16} {typeInfo payloadInfo : UInt32}
    (htypeKind : typeKind.toNat < 8) (hpayloadKind : payloadKind.toNat < 8)
    (htypeInfo : typeInfo.toNat < 32) (hpayloadInfo : payloadInfo.toNat < 32) :
    (typeKind <<< typeKindShift ||| (payloadKind <<< payloadKindShift) |||
      typeInfo.toUInt16 <<< typeInfoShift ||| payloadInfo.toUInt16 <<< payloadInfoShift).toNat =
        8192 * typeKind.toNat + 1024 * payloadKind.toNat + 32 * typeInfo.toNat + payloadInfo.toNat := by
  have hplaced (a : UInt16) (shift : ℕ) (b : UInt16) (hb : b.toNat % 16 = shift)
      (ha : a.toNat * 2 ^ shift < 2 ^ 16) : (a <<< b).toNat = 2 ^ shift * a.toNat := by
    rw [UInt16.toNat_shiftLeft, hb, Nat.shiftLeft_eq, Nat.mod_eq_of_lt ha, Nat.mul_comm]
  have htype : typeInfo.toUInt16.toNat = typeInfo.toNat := by
    rw [UInt32.toNat_toUInt16]
    omega
  have hpayload : payloadInfo.toUInt16.toNat = payloadInfo.toNat := by
    rw [UInt32.toNat_toUInt16]
    omega
  have hor := Nat.two_pow_add_eq_or_of_lt (i := 3) hpayloadKind typeKind.toNat
  have hor' := Nat.two_pow_add_eq_or_of_lt (i := 5) htypeInfo
    (2 ^ 3 * typeKind.toNat + payloadKind.toNat)
  have hor'' := Nat.two_pow_add_eq_or_of_lt (i := 5) hpayloadInfo
    (2 ^ 5 * (2 ^ 3 * typeKind.toNat + payloadKind.toNat) + typeInfo.toNat)
  have hshift (x y k : ℕ) : 2 ^ k * (x ||| y) = 2 ^ k * x ||| 2 ^ k * y := by
    rw [Nat.mul_comm, ← Nat.shiftLeft_eq, Nat.shiftLeft_or_distrib, Nat.shiftLeft_eq, Nat.shiftLeft_eq,
      Nat.mul_comm x, Nat.mul_comm y]
  rw [UInt16.toNat_or, UInt16.toNat_or, UInt16.toNat_or,
    hplaced typeKind 13 typeKindShift rfl (by omega),
    hplaced payloadKind 10 payloadKindShift rfl (by omega),
    hplaced _ 5 typeInfoShift rfl (by omega), hplaced _ 0 payloadInfoShift rfl (by omega), htype,
    hpayload, pow_zero, Nat.one_mul]
  calc 2 ^ 13 * typeKind.toNat ||| 2 ^ 10 * payloadKind.toNat ||| 2 ^ 5 * typeInfo.toNat |||
        payloadInfo.toNat
      = 2 ^ 10 * (2 ^ 3 * typeKind.toNat ||| payloadKind.toNat) ||| 2 ^ 5 * typeInfo.toNat |||
          payloadInfo.toNat := by rw [hshift, ← Nat.mul_assoc, ← pow_add]
    _ = 2 ^ 5 * (2 ^ 5 * (2 ^ 3 * typeKind.toNat + payloadKind.toNat) ||| typeInfo.toNat) |||
          payloadInfo.toNat := by rw [← hor, hshift, ← Nat.mul_assoc, ← pow_add]
    _ = 2 ^ 5 * (2 ^ 5 * (2 ^ 3 * typeKind.toNat + payloadKind.toNat) + typeInfo.toNat) +
          payloadInfo.toNat := by rw [← hor', hor'']
    _ = 8192 * typeKind.toNat + 1024 * payloadKind.toNat + 32 * typeInfo.toNat +
          payloadInfo.toNat := by omega

/-- A field of a header. -/
theorem toNat_headerField (header shift mask : UInt16) (k w : ℕ) (hshift : shift.toNat % 16 = k)
    (hmask : mask.toNat = 2 ^ w - 1) :
    ((header >>> shift) &&& mask).toNat = header.toNat / 2 ^ k % 2 ^ w := by
  rw [UInt16.toNat_and, UInt16.toNat_shiftRight, hshift, hmask, Nat.shiftRight_eq_div_pow,
    Nat.and_two_pow_sub_one_eq_mod]

/-- What a header says about where a part is. -/
def headerInfo (a : LAllocation arch) : UInt32 :=
  if (canEncodeInfoInHeader a).2 then (canEncodeInfoInHeader a).1 else maxInfoValue

/-- What follows a header about where a part is. -/
def extraInfo (a : LAllocation arch) : List UInt8 :=
  if (canEncodeInfoInHeader a).2 then [] else writeUnsigned (canEncodeInfoInHeader a).1

/-- What a header says fits its field. -/
theorem toNat_headerInfo_lt (a : LAllocation arch) : (headerInfo a).toNat < 32 := by
  have hfits (info : UInt32) : (if decide (info < maxInfoValue) = true then info
      else maxInfoValue).toNat < 32 := by
    by_cases h : info < maxInfoValue
    · rw [if_pos (decide_eq_true h)]
      exact lt_trans (UInt32.lt_iff_toNat_lt.mp h) (by decide : maxInfoValue.toNat < 32)
    · rw [if_neg (by simp [h])]
      decide
  cases a with
  | use vreg => exact hfits vreg
  | stackSlot slot => exact hfits slot
  | argument index => exact hfits index
  | gpr reg =>
    change (codeOf reg).toNat < 32
    rw [toNat_codeOf arch.registersTotal_le]
    exact lt_of_lt_of_le reg.isLt (le_trans arch.registersTotal_le (by decide))

/-- A place that may follow the header is read back. -/
theorem reads_extraInfo (info : UInt32) :
    Reads (if (if decide (info < maxInfoValue) = true then info else maxInfoValue) = maxInfoValue
        then readUnsigned else pure (if decide (info < maxInfoValue) = true then info else maxInfoValue))
      (if decide (info < maxInfoValue) = true then [] else writeUnsigned info) info := by
  by_cases h : info < maxInfoValue
  · have hne : info ≠ maxInfoValue := fun heq => UInt32.lt_irrefl _ (heq ▸ h)
    rw [if_pos (decide_eq_true h), if_pos (decide_eq_true h), if_neg hne]
    exact reads_pure info
  · have hdec : ¬ decide (info < maxInfoValue) = true := by simp [h]
    rw [if_neg hdec, if_neg hdec, if_pos rfl]
    exact reads_writeUnsigned info

/-- A part is read back. -/
theorem reads_partFromStream (a : LAllocation arch) (ha : a.isUse = false) :
    Reads (partFromStream arch (allocationToPartKind a) (headerInfo a)) (extraInfo a) a := by
  cases a with
  | use vreg => cases ha
  | gpr reg => exact (reads_fromCode arch.registersTotal_le reg).bind_nil (reads_pure _)
  | stackSlot slot => exact (reads_extraInfo slot).bind_pure (reads_pure _)
  | argument index => exact (reads_extraInfo index).bind_pure (reads_pure _)

/-- An entry with both parts is read back. -/
theorem reads_getNunboxSlot {r : SafepointReader} (entry : SafepointNunboxEntry arch)
    (hentry : entry.isPartial = false) (hremaining : r.nunboxSlotsRemaining ≠ 0) :
    Reads (getNunboxSlot arch r) (writeNunboxEntry entry)
      (some entry, { r with nunboxSlotsRemaining := r.nunboxSlotsRemaining - 1 }) := by
  obtain ⟨type, payload⟩ := entry
  obtain ⟨htype, hpayload⟩ := Bool.or_eq_false_iff.mp hentry
  have hkind (a : LAllocation arch) : (allocationToPartKind a).code.toNat < 8 := by
    have hall : ∀ kind : NunboxPartKind, kind.code.toNat < 8 := by
      intro kind
      cases kind <;> decide
    exact hall (allocationToPartKind a)
  have hheader := toNat_header (hkind type) (hkind payload) (toNat_headerInfo_lt type)
    (toNat_headerInfo_lt payload)
  have hwrite : writeNunboxEntry ⟨type, payload⟩ =
      writeFixedUint16 ((allocationToPartKind type).code <<< typeKindShift |||
        ((allocationToPartKind payload).code <<< payloadKindShift) |||
        (headerInfo type).toUInt16 <<< typeInfoShift |||
        (headerInfo payload).toUInt16 <<< payloadInfoShift) ++ extraInfo type ++ extraInfo payload := rfl
  rw [hwrite, getNunboxSlot]
  generalize (allocationToPartKind type).code <<< typeKindShift |||
    ((allocationToPartKind payload).code <<< payloadKindShift) |||
    (headerInfo type).toUInt16 <<< typeInfoShift |||
    (headerInfo payload).toUInt16 <<< payloadInfoShift = header at hheader
  have hlt := toNat_headerInfo_lt type
  have hlt' := toNat_headerInfo_lt payload
  have hcode := hkind type
  have hcode' := hkind payload
  have hofCode (kind : NunboxPartKind) (code : UInt16) (h : code.toNat = kind.code.toNat) :
      NunboxPartKind.ofCode code = some kind := by
    rw [UInt16.toNat_inj.mp h]
    cases kind <;> rfl
  have htypeKind := hofCode (allocationToPartKind type) ((header >>> typeKindShift) &&& partKindMask)
    (by rw [toNat_headerField header _ _ 13 3 rfl rfl, hheader]; omega)
  have hpayloadKind := hofCode (allocationToPartKind payload)
    ((header >>> payloadKindShift) &&& partKindMask)
    (by rw [toNat_headerField header _ _ 10 3 rfl rfl, hheader]; omega)
  have htypeInfo : ((header >>> typeInfoShift) &&& partInfoMask).toUInt32 = headerInfo type := by
    rw [← UInt32.toNat_inj, UInt16.toNat_toUInt32, toNat_headerField header _ _ 5 5 rfl rfl, hheader]
    omega
  have hpayloadInfo : ((header >>> payloadInfoShift) &&& partInfoMask).toUInt32 =
      headerInfo payload := by
    rw [← UInt32.toNat_inj, UInt16.toNat_toUInt32, toNat_headerField header _ _ 0 5 rfl rfl, hheader]
    omega
  dsimp only
  rw [if_neg hremaining, List.append_assoc]
  apply (reads_writeFixedUint16 header).bind
  apply (reads_ofOption htypeKind).bind_nil
  apply (reads_ofOption hpayloadKind).bind_nil
  rw [htypeInfo, hpayloadInfo]
  apply (reads_partFromStream type htype).bind
  exact (reads_partFromStream payload hpayload).bind_pure (reads_pure _)

/-- Items that are counted are read back, and then what follows the last. -/
theorem reads_drain_counted {A : Type}
    {get : SafepointReader → CompactBufferReader (Option A × SafepointReader)}
    {write : A → List UInt8} (setCount : UInt32 → SafepointReader) {tail : List UInt8}
    {r' : SafepointReader} (items : List A) (hlength : items.length < 2 ^ 32)
    (hget : ∀ item ∈ items, ∀ count : UInt32, count ≠ 0 →
      Reads (get (setCount count)) (write item) (some item, setCount (count - 1)))
    (hend : Reads (get (setCount 0)) tail (none, r')) :
    Reads (drain get (items.length + 1) (setCount (UInt32.ofNat items.length)))
      (items.flatMap write ++ tail) (items, r') := by
  induction items with
  | nil => exact reads_drain_nil hend 0
  | cons item items ih =>
    rw [List.length_cons] at hlength ⊢
    have hne : UInt32.ofNat (items.length + 1) ≠ 0 := by
      intro hzero
      have hnat := congrArg UInt32.toNat hzero
      rw [UInt32.toNat_ofNat', Nat.mod_eq_of_lt hlength] at hnat
      exact absurd hnat (Nat.succ_ne_zero _)
    have hpred : UInt32.ofNat (items.length + 1) - 1 = UInt32.ofNat items.length := by
      rw [UInt32.ofNat_add]
      exact UInt32.add_sub_cancel _ _
    have hitem := hget item List.mem_cons_self _ hne
    rw [hpred] at hitem
    rw [List.flatMap_cons, List.append_assoc]
    exact reads_drain_cons hitem
      (ih (Nat.lt_of_succ_lt hlength) fun i hi => hget i (List.mem_cons_of_mem item hi))

/-- The slots with pointers to slots or elements are read back. -/
theorem reads_drain_slotsOrElements (safepoint : LSafepoint arch) {r : SafepointReader} {count : UInt32}
    (hr : r.slotsOrElementsSlotsRemaining = count)
    (hcount : count = UInt32.ofNat safepoint.slotsOrElementsSlots.length) :
    Reads (drain getSlotsOrElementsSlot (r.slotsOrElementsSlotsRemaining.toNat + 1) r)
      (safepoint.slotsOrElementsSlots.flatMap writeUnsigned)
      (safepoint.slotsOrElementsSlots, { r with slotsOrElementsSlotsRemaining := 0 - 1 }) := by
  have hlength := safepoint.slotsOrElementsSlots_length_lt
  have hnat : count.toNat = safepoint.slotsOrElementsSlots.length := by
    rw [hcount, UInt32.toNat_ofNat', Nat.mod_eq_of_lt hlength]
  have hget : ∀ slot ∈ safepoint.slotsOrElementsSlots, ∀ count : UInt32, count ≠ 0 →
      Reads (getSlotsOrElementsSlot { r with slotsOrElementsSlotsRemaining := count })
        (writeUnsigned slot) (some slot, { r with slotsOrElementsSlotsRemaining := count - 1 }) := by
    intro slot _ count hne
    rw [getSlotsOrElementsSlot]
    dsimp only
    rw [if_neg hne]
    exact (reads_writeUnsigned slot).bind_pure (reads_pure _)
  have hend : Reads (getSlotsOrElementsSlot { r with slotsOrElementsSlotsRemaining := 0 }) []
      (none, { r with slotsOrElementsSlotsRemaining := 0 - 1 }) := reads_pure _
  have hslots := reads_drain_counted (fun count => { r with slotsOrElementsSlotsRemaining := count })
    safepoint.slotsOrElementsSlots hlength hget hend
  rw [List.append_nil, ← hcount, ← hnat, ← hr] at hslots
  exact hslots

/-- The number of entries with both parts is written. -/
theorem count_nunboxParts (list : NunboxList arch) :
    UInt32.ofNat list.entries.length - list.partialNunboxes =
      UInt32.ofNat (list.entries.filter fun entry => !entry.isPartial).length := by
  have hsplit := List.length_eq_countP_add_countP (l := list.entries) SafepointNunboxEntry.isPartial
  have hfilter : (list.entries.filter fun entry => !entry.isPartial).length =
      list.entries.countP fun entry => decide ¬ entry.isPartial = true := by
    rw [List.countP_eq_length_filter]
    congr 2
    funext entry
    cases entry.isPartial <;> rfl
  rw [list.count_eq, hsplit, hfilter, UInt32.ofNat_add, UInt32.add_comm]
  exact UInt32.add_sub_cancel _ _

/-- The entries with both parts are written. -/
theorem flatMap_nunboxParts (entries : List (SafepointNunboxEntry arch)) :
    (entries.flatMap fun entry => if entry.isPartial then [] else writeNunboxEntry entry) =
      (entries.filter fun entry => !entry.isPartial).flatMap writeNunboxEntry := by
  induction entries with
  | nil => rfl
  | cons entry entries ih =>
    rw [List.flatMap_cons, ih, List.filter_cons]
    cases entry.isPartial with
    | true => rfl
    | false => rfl

/-- The entries with both parts are read back, and then the count of the slots that follow. -/
theorem reads_drain_nunboxParts (list : NunboxList arch) (remaining : UInt32) {r : SafepointReader}
    (hr : r.nunboxSlotsRemaining = UInt32.ofNat list.entries.length - list.partialNunboxes) :
    Reads (drain (getNunboxSlot arch) (r.nunboxSlotsRemaining.toNat + 1) r)
      ((list.entries.flatMap fun entry => if entry.isPartial then [] else writeNunboxEntry entry) ++
        writeUnsigned remaining)
      (list.entries.filter fun entry => !entry.isPartial,
        { r with nunboxSlotsRemaining := 0 - 1, slotsOrElementsSlotsRemaining := remaining }) := by
  have hlength : (list.entries.filter fun entry => !entry.isPartial).length < 2 ^ 32 :=
    lt_of_le_of_lt (List.length_filter_le _ _) list.length_lt
  have hnat : r.nunboxSlotsRemaining.toNat =
      (list.entries.filter fun entry => !entry.isPartial).length := by
    rw [hr, count_nunboxParts, UInt32.toNat_ofNat', Nat.mod_eq_of_lt hlength]
  have hget : ∀ entry ∈ list.entries.filter fun entry => !entry.isPartial, ∀ count : UInt32,
      count ≠ 0 → Reads (getNunboxSlot arch { r with nunboxSlotsRemaining := count })
        (writeNunboxEntry entry) (some entry, { r with nunboxSlotsRemaining := count - 1 }) := by
    intro entry hentry count hne
    have hpartial : entry.isPartial = false := by simpa using (List.mem_filter.mp hentry).2
    exact reads_getNunboxSlot entry hpartial hne
  have hend : Reads (getNunboxSlot arch { r with nunboxSlotsRemaining := 0 }) (writeUnsigned remaining)
      (none, { r with
        nunboxSlotsRemaining := 0 - 1, slotsOrElementsSlotsRemaining := remaining }) := by
    have hadvance : Reads (advanceFromNunboxSlots { r with nunboxSlotsRemaining := 0 - 1 })
        (writeUnsigned remaining) { r with
          nunboxSlotsRemaining := 0 - 1, slotsOrElementsSlotsRemaining := remaining } :=
      (reads_writeUnsigned remaining).bind_pure (reads_pure _)
    exact hadvance.bind_pure (reads_pure _)
  have hentries := reads_drain_counted (fun count => { r with nunboxSlotsRemaining := count })
    (list.entries.filter fun entry => !entry.isPartial) hlength hget hend
  rw [← count_nunboxParts, ← hr, ← hnat] at hentries
  rw [flatMap_nunboxParts]
  exact hentries

/-- The getter of slots with pointers. -/
theorem getGcSlot_eq (arch : Arch) :
    getGcSlot arch = getSlotThen arch fun r => pure r.advanceFromGcSlots := rfl

/-- The getter of slots with values. -/
theorem getValueSlot_eq (arch : Arch) :
    getValueSlot arch = getSlotThen arch (advanceFromValueSlots arch) := rfl

/-- What is read of a safepoint, given the order in which its slots are read. -/
def LSafepoint.read (safepoint : LSafepoint arch) (gcSlots valueSlots : List UInt32) :
    SafepointRead arch where
  osiCallPointOffset := safepoint.osiCallPointOffset
  liveGprs := safepoint.liveGprs
  liveFpus := safepoint.liveFpus
  gcRegs := safepoint.gcRegs
  valueRegs := safepoint.valueSpills
  slotsOrElementsRegs := safepoint.slotsOrElementsRegs
  gcSlots := gcSlots
  valueSlots := valueSlots
  nunboxParts :=
    if arch.nunbox32 then safepoint.nunboxParts.entries.filter fun entry => !entry.isPartial else []
  slotsOrElementsSlots := safepoint.slotsOrElementsSlots

/-- The slots with pointers are read back. -/
theorem reads_drain_gcSlots (slotCount : UInt32) (safepoint : LSafepoint arch) :
    Reads (drain (getGcSlot arch) (slotBound (start slotCount safepoint)) (start slotCount safepoint))
      (mapSlotsToBitset arch slotCount safepoint.gcSlots)
      ((slotElements arch slotCount safepoint.gcSlots).map (slotOf arch), start slotCount safepoint) := by
  have hadvance : Reads (pure (start slotCount safepoint) : CompactBufferReader SafepointReader) []
      (start slotCount safepoint) := reads_pure _
  rw [getGcSlot_eq, ← List.append_nil (mapSlotsToBitset arch slotCount safepoint.gcSlots)]
  exact reads_drain_mapSlotsToBitset safepoint.gcSlots rfl rfl rfl hadvance

/-- A reader that has read the slots with values and a count. -/
def SafepointReader.afterValues (slotCount : UInt32) (safepoint : LSafepoint arch)
    (nunboxSlotsRemaining slotsOrElementsSlotsRemaining : UInt32) : SafepointReader :=
  { start slotCount safepoint with
    currentSlotChunk := 0
    nextSlotChunkNumber := rawLengthForBits (start slotCount safepoint).frameSlots
    nunboxSlotsRemaining := nunboxSlotsRemaining
    slotsOrElementsSlotsRemaining := slotsOrElementsSlotsRemaining }

/-- The slots with values and the entries are read back, and then the count of the slots that follow.
The bytes of the count come with the slots or with the entries. -/
theorem reads_drain_values (slotCount : UInt32) (safepoint : LSafepoint arch) (remaining : UInt32) :
    ∃ (r r' : SafepointReader) (l l' : List UInt8),
      Reads (drain (getValueSlot arch) (slotBound (start slotCount safepoint))
        (start slotCount safepoint)) l
        ((slotElements arch slotCount safepoint.valueSlots).map (slotOf arch), r) ∧
      Reads (drainNunbox arch arch.nunbox32 r) l'
        ((if arch.nunbox32 then
          safepoint.nunboxParts.entries.filter fun entry => !entry.isPartial else []), r') ∧
      l ++ l' = mapSlotsToBitset arch slotCount safepoint.valueSlots ++
        (if arch.nunbox32 then writeNunboxParts safepoint else []) ++ writeUnsigned remaining ∧
      ∃ count, r' = afterValues slotCount safepoint count remaining := by
  cases hnunbox : arch.nunbox32 with
  | true =>
    have hadvance : Reads (advanceFromValueSlots arch { start slotCount safepoint with
          currentSlotChunk := 0,
          nextSlotChunkNumber := rawLengthForBits (start slotCount safepoint).frameSlots })
        (writeUnsigned (UInt32.ofNat safepoint.nunboxParts.entries.length -
          safepoint.nunboxParts.partialNunboxes))
        (afterValues slotCount safepoint (UInt32.ofNat safepoint.nunboxParts.entries.length -
          safepoint.nunboxParts.partialNunboxes) 0) := by
      rw [advanceFromValueSlots, if_pos hnunbox]
      exact (reads_writeUnsigned _).bind_pure (reads_pure _)
    have hvalues := reads_drain_mapSlotsToBitset safepoint.valueSlots rfl rfl rfl hadvance
    have hparts := reads_drain_nunboxParts safepoint.nunboxParts remaining
      (r := afterValues slotCount safepoint (UInt32.ofNat safepoint.nunboxParts.entries.length -
          safepoint.nunboxParts.partialNunboxes) 0) rfl
    refine ⟨_, _, _, _, hvalues, hparts, ?_, 0 - 1, rfl⟩
    rw [if_pos rfl, writeNunboxParts]
    simp only [List.append_assoc]
  | false =>
    have hadvance : Reads (advanceFromValueSlots arch { start slotCount safepoint with
          currentSlotChunk := 0,
          nextSlotChunkNumber := rawLengthForBits (start slotCount safepoint).frameSlots })
        (writeUnsigned remaining) (afterValues slotCount safepoint 0 remaining) := by
      rw [advanceFromValueSlots, hnunbox, if_neg Bool.false_ne_true]
      exact (reads_writeUnsigned _).bind_pure (reads_pure _)
    have hvalues := reads_drain_mapSlotsToBitset safepoint.valueSlots rfl rfl rfl hadvance
    refine ⟨_, _, _, _, hvalues, reads_pure _, ?_, 0, rfl⟩
    rw [if_neg Bool.false_ne_true, List.append_nil, List.append_nil]

/-- A safepoint is read back: its offset and sets of registers, the sets of its slots each slot once,
its entries with both parts in order, and the slots with pointers to slots or elements. Reading takes
exactly the bytes that were written. Entries are asked for only where values are boxed in two words. -/
theorem readAll_encode (slotCount : UInt32) (safepoint : LSafepoint arch)
    (hgc : ∀ slot ∈ safepoint.gcSlots, ValidSlot arch slotCount slot)
    (hvalue : ∀ slot ∈ safepoint.valueSlots, ValidSlot arch slotCount slot) :
    ∃ gcSlots valueSlots : List UInt32,
      Reads (readAll arch arch.nunbox32 slotCount) (encode slotCount safepoint)
        (safepoint.read gcSlots valueSlots) ∧
      gcSlots.Nodup ∧ (∀ slot, slot ∈ gcSlots ↔ slot ∈ safepoint.gcSlots) ∧
      valueSlots.Nodup ∧ ∀ slot, slot ∈ valueSlots ↔ slot ∈ safepoint.valueSlots := by
  refine ⟨(slotElements arch slotCount safepoint.gcSlots).map (slotOf arch),
    (slotElements arch slotCount safepoint.valueSlots).map (slotOf arch), ?_,
    nodup_map_slotElements hgc, mem_map_slotElements hgc,
    nodup_map_slotElements hvalue, mem_map_slotElements hvalue⟩
  obtain ⟨r, r', l, l', hvalues, hparts, hbytes, count, rfl⟩ := reads_drain_values slotCount safepoint
    (UInt32.ofNat safepoint.slotsOrElementsSlots.length)
  have hslots := reads_drain_slotsOrElements safepoint
    (r := afterValues slotCount safepoint count _) rfl rfl
  have hencode : encode slotCount safepoint =
      (writeUnsigned safepoint.osiCallPointOffset ++ writeGcRegs safepoint) ++
        (mapSlotsToBitset arch slotCount safepoint.gcSlots ++
          (l ++ (l' ++ safepoint.slotsOrElementsSlots.flatMap writeUnsigned))) := by
    rw [← List.append_assoc l, hbytes, encode, writeSlotsOrElementsSlots]
    simp only [List.append_assoc]
  rw [hencode]
  apply (reads_init slotCount safepoint).bind
  apply (reads_drain_gcSlots slotCount safepoint).bind
  apply hvalues.bind
  apply hparts.bind
  exact hslots.bind_pure (reads_pure _)

/-- A safepoint with a value in two parts and one that lacks its payload. -/
theorem readAll_encode_nunbox :
    let parts : NunboxList .x86 :=
      ⟨[⟨.gpr ⟨1, by decide⟩, .stackSlot 40⟩, ⟨.argument 8, .use 3⟩], 1, rfl, by decide, by decide⟩
    let safepoint : LSafepoint .x86 :=
      ⟨7, 6, 1, 2, 0, 4, [12, 4], [140], parts, [8], rfl, rfl, rfl, by decide⟩
    ∃ gcSlots valueSlots : List UInt32,
      Reads (readAll .x86 true 200) (encode 200 safepoint) (safepoint.read gcSlots valueSlots) ∧
      gcSlots.Nodup ∧ (∀ slot, slot ∈ gcSlots ↔ slot ∈ safepoint.gcSlots) ∧
      valueSlots.Nodup ∧ ∀ slot, slot ∈ valueSlots ↔ slot ∈ safepoint.valueSlots := by
  intro parts safepoint
  have hslot (slot : UInt32) (hslot : slot = 12 ∨ slot = 4 ∨ slot = 140) : ValidSlot .x86 200 slot := by
    rcases hslot with rfl | rfl | rfl
    · exact ⟨rfl, by decide, by decide⟩
    · exact ⟨rfl, by decide, by decide⟩
    · exact ⟨rfl, by decide, by decide⟩
  apply readAll_encode 200 safepoint
  · intro slot hmem
    apply hslot
    rcases List.mem_cons.mp hmem with rfl | hmem
    · exact Or.inl rfl
    · exact Or.inr (Or.inl (List.mem_singleton.mp hmem))
  · intro slot hmem
    exact hslot slot (Or.inr (Or.inr (List.mem_singleton.mp hmem)))

/-- Where values are boxed in one word, a reader that asks for entries does not find the slot with a
pointer to slots or elements: the question takes that slot for the count of such slots. -/
theorem readAll_encode_askNunbox :
    let safepoint : LSafepoint .x64 := ⟨1, 0, 0, 0, 0, 0, [], [], .empty, [8], rfl, rfl, rfl, by decide⟩
    (∀ slot ∈ safepoint.slotsOrElementsSlots, ValidSlot .x64 8 slot) ∧
      readAll .x64 true 8 (encode 8 safepoint) = none := by
  intro safepoint
  have hbytes : encode 8 safepoint = [2, 0, 0, 0, 0, 2, 16] := by
    have hzero : writeUnsigned 0 = [0] := by rw [writeUnsigned_eq]; rfl
    have hone : writeUnsigned 1 = [2] := by rw [writeUnsigned_eq]; rfl
    have height : writeUnsigned 8 = [16] := by rw [writeUnsigned_eq]; rfl
    have hmask (bits : UInt32) : writeRegisterMask .x64 bits = writeUnsigned bits := rfl
    have hset : mapSlotsToBitset .x64 8 [] = writeUnsigned 0 := List.append_nil _
    have hslots : writeSlotsOrElementsSlots safepoint = writeUnsigned 1 ++ (writeUnsigned 8 ++ []) := rfl
    rw [encode, writeGcRegs, hslots]
    change writeUnsigned 1 ++ (writeRegisterMask .x64 0 ++ [] ++ writeRegisterMask .x64 0) ++
      mapSlotsToBitset .x64 8 [] ++ mapSlotsToBitset .x64 8 [] ++ [] ++ _ = _
    rw [hset, hmask, hzero, hone, height]
    rfl
  constructor
  · intro slot hslot
    obtain rfl := List.mem_singleton.mp hslot
    exact ⟨rfl, by decide, by decide⟩
  · rw [hbytes]
    rfl

end SpiderMonkey.Jit.Safepoints
