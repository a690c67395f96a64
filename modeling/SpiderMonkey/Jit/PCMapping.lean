import Mathlib
import SpiderMonkey.Jit.CompactBuffer

/-!
# The pc mapping of baseline code

The baseline compiler notes for each instruction that it compiles where the native code of it starts. The
notes become differences in a compact buffer, which index entries divide into runs of instructions that
follow each other. Both lookups go to a run and through it.

What is known of a script and its code is a parameter. An assertion that fails, and a reader at the end of
its run, have no result.
-/

namespace SpiderMonkey.Jit.Baseline

open CompactBuffer Reader

/-- A script by the offsets of its instructions: how long they are, which are reachable, which slots are
not synced before them, and how much native code is emitted for those that can be compiled. -/
structure Script where
  codeEnd : ℕ
  getBytecodeLength : ℕ → ℕ
  maybeInfo : ℕ → Bool
  stackTopSlotInfo : ℕ → UInt8
  emitOp : ℕ → Option ℕ

structure PCMappingEntry where
  pcOffset : ℕ
  nativeOffset : ℕ
  slotInfo : UInt8
  addIndexEntry : Bool

structure PCMappingIndexEntry where
  pcOffset : ℕ
  nativeOffset : ℕ
  bufferOffset : ℕ

/-- The index entries, and the compact buffer. -/
structure PCMapping where
  index : List PCMappingIndexEntry
  data : List UInt8

/-! ## Compilation -/

/-- Note an instruction, unless it was the last one. -/
def addPCMappingEntry (entries : List PCMappingEntry) (entry : PCMappingEntry) : List PCMappingEntry :=
  if entries.getLast?.map PCMappingEntry.pcOffset = some entry.pcOffset then entries
  else entries ++ [entry]

/-- The loop over the instructions, with the native code that there is. -/
def emitBody (s : Script) : ℕ → ℕ → ℕ → ℕ → Bool → List PCMappingEntry → Option (List PCMappingEntry)
  | 0, _, _, _, _, _ => none
  | fuel + 1, pc, currentOffset, emittedOps, lastOpUnreachable, entries =>
    let next := pc + s.getBytecodeLength pc
    if !s.maybeInfo pc then
      if s.codeEnd ≤ next then some entries else emitBody s fuel next currentOffset emittedOps true entries
    else do
      let addIndexEntry := pc = 0 || lastOpUnreachable || 100 < emittedOps
      let emittedOps := if addIndexEntry then 0 else emittedOps
      let entries := addPCMappingEntry entries ⟨pc, currentOffset, s.stackTopSlotInfo pc, addIndexEntry⟩
      let size ← s.emitOp pc
      if s.codeEnd ≤ next then some entries
      else emitBody s fuel next (currentOffset + size) (emittedOps + 1) false entries

/-- The entries of a script, whose code follows a prologue. -/
def mappingEntries (s : Script) (prologueSize : ℕ) : Option (List PCMappingEntry) :=
  emitBody s (s.codeEnd + 1) 0 prologueSize 0 false []

/-- The loop that encodes the entries. The assembler says where code is that was moved. -/
def encodeLoop (actualOffset : ℕ → ℕ) : List PCMappingEntry → ℕ → PCMapping → Option PCMapping
  | [], _, m => some m
  | entry :: entries, previousOffset, m => do
    let nativeOffset := actualOffset entry.nativeOffset
    guard (nativeOffset < 2 ^ 32)
    let index :=
      if entry.addIndexEntry then m.index ++ [⟨entry.pcOffset, nativeOffset, m.data.length⟩] else m.index
    let previousOffset := if entry.addIndexEntry then nativeOffset else previousOffset
    guard (entry.slotInfo &&& 0x80 = 0)
    if nativeOffset = previousOffset then
      encodeLoop actualOffset entries nativeOffset ⟨index, m.data ++ writeByte entry.slotInfo.toUInt32⟩
    else do
      guard (previousOffset < nativeOffset)
      encodeLoop actualOffset entries nativeOffset ⟨index, m.data ++
        (writeByte (0x80 ||| entry.slotInfo.toUInt32) ++
          writeUnsigned (UInt32.ofNat (nativeOffset - previousOffset)))⟩

def encodeEntries (actualOffset : ℕ → ℕ) (entries : List PCMappingEntry) : Option PCMapping :=
  encodeLoop actualOffset entries 0 ⟨[], []⟩

/-! ## Lookups -/

/-- The bytes of a run. -/
def pcMappingReader (m : PCMapping) (i : ℕ) (entry : PCMappingIndexEntry) : List UInt8 :=
  let data := m.data.drop entry.bufferOffset
  match m.index[i + 1]? with
  | none => data
  | some next => data.take (next.bufferOffset - entry.bufferOffset)

/-- Read the byte of an instruction, and its native offset if that differs from the one before. -/
def readEntry (nativeOffset : ℕ) : CompactBufferReader (UInt8 × ℕ) := do
  let b ← readByte
  let delta ← if b &&& 0x80 ≠ 0 then readUnsigned else pure 0
  pure (b, nativeOffset + delta.toNat)

/-- The loop through a run. -/
def scanLoop (s : Script) (found : ℕ → ℕ → Bool) : ℕ → ℕ → ℕ → List UInt8 → Option (ℕ × ℕ × UInt8)
  | 0, _, _, _ => none
  | fuel + 1, curPC, nativeOffset, reader => do
    let ((b, nativeOffset), reader) ← readEntry nativeOffset reader
    if found curPC nativeOffset then some (curPC, nativeOffset, b &&& 0x7F)
    else scanLoop s found fuel (curPC + s.getBytecodeLength curPC) nativeOffset reader

/-- Find the last index entry that is not past what is looked for, and go through its run. -/
def searchMapping (s : Script) (m : PCMapping) (past found : ℕ → ℕ → Bool) : Option (ℕ × ℕ × UInt8) := do
  let i := m.index.tail.findIdx fun entry => past entry.pcOffset entry.nativeOffset
  let entry ← m.index[i]?
  guard (past entry.pcOffset entry.nativeOffset = false)
  let reader := pcMappingReader m i entry
  scanLoop s found reader.length entry.pcOffset entry.nativeOffset reader

/-- The native code of an instruction, and the slots that are not synced before it. -/
def nativeCodeForPC (s : Script) (m : PCMapping) (pc : ℕ) : Option (ℕ × UInt8) := do
  let (_, nativeOffset, slotInfo) ← searchMapping s m (fun pcOffset _ => pc < pcOffset) fun curPC _ => curPC = pc
  some (nativeOffset, slotInfo)

/-- The first instruction of its run whose native code starts at an offset. -/
def pcForReturnOffset (s : Script) (m : PCMapping) (nativeOffset : ℕ) : Option ℕ := do
  let (curPC, _) ← searchMapping s m (fun _ offset => nativeOffset < offset) fun _ offset => offset = nativeOffset
  some curPC

/-! ## What is noted -/

variable {s : Script} {actualOffset : ℕ → ℕ} {entries l pre mid post : List PCMappingEntry}
  {a e e' : PCMappingEntry} {pc offset previousOffset fuel : ℕ} {past found : ℕ → ℕ → Bool}

/-- An entry is noted behind another one: further on, and if no run starts with it right after it. -/
def Follows (s : Script) (e e' : PCMappingEntry) : Prop :=
  e.pcOffset < e'.pcOffset ∧ e.nativeOffset ≤ e'.nativeOffset ∧
    (e'.addIndexEntry = false → e'.pcOffset = e.pcOffset + s.getBytecodeLength e.pcOffset)

/-- What is noted of a script: entries that follow each other, the first one with an index entry. -/
structure Noted (s : Script) (entries : List PCMappingEntry) : Prop where
  chain : entries.IsChain (Follows s)
  head : ∀ e ∈ entries.head?, e.addIndexEntry = true
  slotInfo : ∀ e ∈ entries, e.slotInfo = s.stackTopSlotInfo e.pcOffset

/-- The instructions from an offset on. -/
inductive IsInstruction (s : Script) : ℕ → ℕ → Prop where
  | here (pc : ℕ) : IsInstruction s pc pc
  | later {pc target : ℕ} : pc + s.getBytecodeLength pc < s.codeEnd →
    IsInstruction s (pc + s.getBytecodeLength pc) target → IsInstruction s pc target

/-- Noting an instruction that is further on. -/
theorem Noted.addPCMappingEntry (hn : Noted s entries) (hlast : ∀ x ∈ entries.getLast?, Follows s x e)
    (hempty : entries = [] → e.addIndexEntry = true) (hslot : e.slotInfo = s.stackTopSlotInfo e.pcOffset) :
    Baseline.addPCMappingEntry entries e = entries ++ [e] ∧ Noted s (entries ++ [e]) := by
  constructor
  · rw [Baseline.addPCMappingEntry, if_neg]
    intro hsame
    obtain ⟨x, hx, hpc⟩ := Option.map_eq_some_iff.mp hsame
    exact Nat.ne_of_lt (hlast x hx).1 hpc
  constructor
  · apply List.isChain_append.mpr
    refine ⟨hn.chain, List.isChain_singleton e, ?_⟩
    intro x hx y hy
    rw [List.head?_cons, Option.mem_some_iff] at hy
    rw [← hy]
    exact hlast x hx
  · intro x hx
    cases entries with
    | nil =>
      rw [List.nil_append, List.head?_cons, Option.mem_some_iff] at hx
      rw [← hx]
      exact hempty rfl
    | cons y entries => exact hn.head x hx
  · intro x hx
    rcases List.mem_append.mp hx with hx | hx
    · exact hn.slotInfo x hx
    · rw [List.mem_singleton.mp hx]
      exact hslot

/-- The high bits of the bytes are free. -/
theorem Noted.slotInfo_and (hn : Noted s entries) (hslot : ∀ pc, s.stackTopSlotInfo pc &&& 0x80 = 0) :
    ∀ e ∈ entries, e.slotInfo &&& 0x80 = 0 := by
  intro e he
  rw [hn.slotInfo e he]
  exact hslot _

/-- The loop notes every reachable instruction, if all of them can be compiled. -/
theorem emitBody_spec (hlength : ∀ pc, 0 < s.getBytecodeLength pc) (fuel pc offset emittedOps : ℕ)
    (unreachable : Bool) (entries : List PCMappingEntry)
    (hfuel : s.codeEnd - pc < fuel)
    (hcompile : ∀ target, IsInstruction s pc target → s.maybeInfo target → (s.emitOp target).isSome)
    (hn : Noted s entries)
    (hlast : ∀ e ∈ entries.getLast?, e.pcOffset < pc ∧ e.nativeOffset ≤ offset ∧
      (unreachable = false → pc = e.pcOffset + s.getBytecodeLength e.pcOffset))
    (hempty : entries = [] → pc = 0 ∨ unreachable = true) :
    ∃ l, emitBody s fuel pc offset emittedOps unreachable entries = some l ∧ Noted s l ∧
      (∀ e ∈ entries, e ∈ l) ∧
      ∀ target, IsInstruction s pc target → s.maybeInfo target → ∃ e ∈ l, e.pcOffset = target := by
  induction fuel generalizing pc offset emittedOps unreachable entries with
  | zero => exact absurd hfuel (Nat.not_lt_zero _)
  | succ fuel ih =>
    have hpos := hlength pc
    have hfuel' : pc + s.getBytecodeLength pc < s.codeEnd →
        s.codeEnd - (pc + s.getBytecodeLength pc) < fuel := by omega
    have hcompile' (hnext : pc + s.getBytecodeLength pc < s.codeEnd) (target : ℕ)
        (htarget : IsInstruction s (pc + s.getBytecodeLength pc) target) :=
      hcompile target (.later hnext htarget)
    rw [emitBody]
    cases hinfo : s.maybeInfo pc with
    | false =>
      simp only [Bool.not_false, if_true]
      by_cases hend : s.codeEnd ≤ pc + s.getBytecodeLength pc
      · rw [if_pos hend]
        refine ⟨entries, rfl, hn, fun _ he => he, ?_⟩
        intro target htarget hreach
        cases htarget with
        | here => rw [hinfo] at hreach; cases hreach
        | later hnext _ => exact absurd hend (Nat.not_le.mpr hnext)
      · rw [if_neg hend]
        have hnext := Nat.not_le.mp hend
        obtain ⟨l, hl, hnoted, hsub, hcover⟩ := ih _ offset emittedOps true entries
          (hfuel' hnext) (hcompile' hnext) hn
          (by
            intro e he
            obtain ⟨hlt, hle, _⟩ := hlast e he
            exact ⟨Nat.lt_add_right _ hlt, hle, fun h => by cases h⟩)
          (fun _ => Or.inr rfl)
        refine ⟨l, hl, hnoted, hsub, ?_⟩
        intro target htarget hreach
        cases htarget with
        | here => rw [hinfo] at hreach; cases hreach
        | later _ htarget => exact hcover target htarget hreach
    | true =>
      obtain ⟨size, hsize⟩ := Option.isSome_iff_exists.mp (hcompile pc (.here pc) hinfo)
      generalize hadd : (decide (pc = 0) || unreachable || decide (100 < emittedOps)) = add
      obtain ⟨hnew, hnoted⟩ := hn.addPCMappingEntry (e := ⟨pc, offset, s.stackTopSlotInfo pc, add⟩)
        (by
          intro e he
          obtain ⟨hlt, hle, hnext⟩ := hlast e he
          refine ⟨hlt, hle, ?_⟩
          intro hno
          apply hnext
          rw [← hadd] at hno
          cases unreachable with
          | false => rfl
          | true => simp at hno)
        (by
          intro hnil
          show add = true
          rw [← hadd]
          rcases hempty hnil with h | h <;> simp [h])
        rfl
      simp only [Bool.not_true, Bool.false_eq_true, if_false, hsize, Option.bind_eq_bind, Option.bind_some,
        hnew]
      by_cases hend : s.codeEnd ≤ pc + s.getBytecodeLength pc
      · rw [if_pos hend]
        refine ⟨_, rfl, hnoted, fun e he => List.mem_append_left _ he, ?_⟩
        intro target htarget _
        cases htarget with
        | here => exact ⟨_, List.mem_append_right _ List.mem_cons_self, rfl⟩
        | later hnext _ => exact absurd hend (Nat.not_le.mpr hnext)
      · rw [if_neg hend]
        have hnext := Nat.not_le.mp hend
        obtain ⟨l, hl, hnoted', hsub, hcover⟩ := ih _ (offset + size)
          ((if add = true then 0 else emittedOps) + 1) false _ (hfuel' hnext) (hcompile' hnext) hnoted
          (by
            intro e he
            rw [List.getLast?_concat, Option.mem_some_iff] at he
            rw [← he]
            exact ⟨Nat.lt_add_of_pos_right hpos, Nat.le_add_right _ _, fun _ => rfl⟩)
          (fun h => absurd h (List.append_ne_nil_of_right_ne_nil _ (List.cons_ne_nil _ _)))
        refine ⟨l, hl, hnoted', fun e he => hsub e (List.mem_append_left _ he), ?_⟩
        intro target htarget hreach
        cases htarget with
        | here => exact ⟨_, hsub _ (List.mem_append_right _ List.mem_cons_self), rfl⟩
        | later _ htarget => exact hcover target htarget hreach

/-! ## What is encoded -/

/-- The bytes of an entry. -/
def entryBytes (previousOffset nativeOffset : ℕ) (slotInfo : UInt8) : List UInt8 :=
  if nativeOffset = previousOffset then writeByte slotInfo.toUInt32
  else writeByte (0x80 ||| slotInfo.toUInt32) ++ writeUnsigned (UInt32.ofNat (nativeOffset - previousOffset))

/-- The bytes of entries. Those of an entry with an index entry start anew. -/
def dataOf (actualOffset : ℕ → ℕ) : ℕ → List PCMappingEntry → List UInt8
  | _, [] => []
  | previousOffset, e :: l =>
    entryBytes (if e.addIndexEntry then actualOffset e.nativeOffset else previousOffset)
      (actualOffset e.nativeOffset) e.slotInfo ++ dataOf actualOffset (actualOffset e.nativeOffset) l

/-- The index entries of entries, behind a number of bytes. -/
def indexOf (actualOffset : ℕ → ℕ) : ℕ → ℕ → List PCMappingEntry → List PCMappingIndexEntry
  | _, _, [] => []
  | size, previousOffset, e :: l =>
    (if e.addIndexEntry then [⟨e.pcOffset, actualOffset e.nativeOffset, size⟩] else []) ++
      indexOf actualOffset (size + (entryBytes
        (if e.addIndexEntry then actualOffset e.nativeOffset else previousOffset)
        (actualOffset e.nativeOffset) e.slotInfo).length) (actualOffset e.nativeOffset) l

/-- The assertions of the encoding hold, and this is what it gives. -/
theorem encodeLoop_eq (hmono : Monotone actualOffset) (hchain : l.IsChain (Follows s))
    (hslot : ∀ e ∈ l, e.slotInfo &&& 0x80 = 0) (hlt : ∀ e ∈ l, actualOffset e.nativeOffset < 2 ^ 32)
    (hprevious : ∀ e ∈ l.head?, e.addIndexEntry = true ∨ previousOffset ≤ actualOffset e.nativeOffset)
    (m : PCMapping) :
    encodeLoop actualOffset l previousOffset m =
      some ⟨m.index ++ indexOf actualOffset m.data.length previousOffset l,
        m.data ++ dataOf actualOffset previousOffset l⟩ := by
  induction l generalizing previousOffset m with
  | nil => rw [encodeLoop, indexOf, dataOf, List.append_nil, List.append_nil]
  | cons e l ih =>
    obtain ⟨hfollows, hchain⟩ := List.isChain_cons.mp hchain
    have hnext : ∀ e' ∈ l.head?, e'.addIndexEntry = true ∨
        actualOffset e.nativeOffset ≤ actualOffset e'.nativeOffset :=
      fun e' he' => Or.inr (hmono (hfollows e' he').2.1)
    have ih' := ih hchain (fun x hx => hslot x (List.mem_cons_of_mem _ hx))
      (fun x hx => hlt x (List.mem_cons_of_mem _ hx)) hnext
    have hslot' := hslot e List.mem_cons_self
    have hlt' := hlt e List.mem_cons_self
    have hprevious' := hprevious e (by rw [List.head?_cons, Option.mem_some_iff])
    have hle : (if e.addIndexEntry = true then actualOffset e.nativeOffset else previousOffset) ≤
        actualOffset e.nativeOffset := by
      split
      · exact Nat.le_refl _
      · exact hprevious'.resolve_left ‹_›
    have hindex (size : ℕ) : (if e.addIndexEntry = true then
          m.index ++ [⟨e.pcOffset, actualOffset e.nativeOffset, size⟩] else m.index) =
        m.index ++ if e.addIndexEntry = true then [⟨e.pcOffset, actualOffset e.nativeOffset, size⟩] else [] := by
      split <;> simp
    rw [encodeLoop, indexOf, dataOf]
    simp only [hlt', hslot', guard_true, Option.bind_eq_bind, Option.pure_def, Option.bind_some, hindex]
    generalize (if e.addIndexEntry = true then actualOffset e.nativeOffset else previousOffset) = start at hle ⊢
    by_cases heq : actualOffset e.nativeOffset = start
    · rw [if_pos heq, ih', entryBytes, if_pos heq]
      simp only [List.length_append, List.append_assoc]
    · have hgt : start < actualOffset e.nativeOffset := Nat.lt_of_le_of_ne hle (Ne.symm heq)
      simp only [heq, if_false, hgt, guard_true, Option.pure_def, Option.bind_some, ih', entryBytes]
      simp only [List.length_append, List.append_assoc]

/-- Entries behind others, if there is an index entry for the first of them. -/
theorem dataOf_append (q : ℕ) (hhead : ∀ e ∈ post.head?, e.addIndexEntry = true) :
    dataOf actualOffset previousOffset (l ++ post) =
      dataOf actualOffset previousOffset l ++ dataOf actualOffset q post := by
  induction l generalizing previousOffset with
  | nil =>
    cases post with
    | nil => rfl
    | cons e post =>
      have he := hhead e (by rw [List.head?_cons, Option.mem_some_iff])
      simp only [List.nil_append, dataOf, he, if_true]
  | cons e l ih => rw [List.cons_append, dataOf, dataOf, ih, List.append_assoc]

/-- The index entries behind others. -/
theorem indexOf_append (q size : ℕ) (hhead : ∀ e ∈ post.head?, e.addIndexEntry = true) :
    indexOf actualOffset size previousOffset (l ++ post) =
      indexOf actualOffset size previousOffset l ++
        indexOf actualOffset (size + (dataOf actualOffset previousOffset l).length) q post := by
  induction l generalizing previousOffset size with
  | nil =>
    cases post with
    | nil => rfl
    | cons e post =>
      have he := hhead e (by rw [List.head?_cons, Option.mem_some_iff])
      simp only [List.nil_append, indexOf, dataOf, he, if_true, List.length_nil, Nat.add_zero]
  | cons e l ih =>
    rw [List.cons_append, indexOf, indexOf, ih, dataOf, List.length_append, List.append_assoc, Nat.add_assoc]

/-- There are no index entries within a run. -/
theorem indexOf_run (size : ℕ) (hmid : ∀ e ∈ mid, e.addIndexEntry = false) :
    indexOf actualOffset size previousOffset mid = [] := by
  induction mid generalizing size previousOffset with
  | nil => rfl
  | cons e mid ih =>
    rw [indexOf, hmid e List.mem_cons_self, ih _ fun x hx => hmid x (List.mem_cons_of_mem _ hx)]
    rfl

/-- Index entries are those of entries. -/
theorem mem_indexOf {x : PCMappingIndexEntry} {size : ℕ}
    (hx : x ∈ indexOf actualOffset size previousOffset l) :
    ∃ e ∈ l, x.pcOffset = e.pcOffset ∧ x.nativeOffset = actualOffset e.nativeOffset := by
  induction l generalizing size previousOffset with
  | nil => cases hx
  | cons e l ih =>
    rw [indexOf] at hx
    rcases List.mem_append.mp hx with hx | hx
    · split at hx
      · rw [List.mem_singleton.mp hx]
        exact ⟨e, List.mem_cons_self, rfl, rfl⟩
      · cases hx
    · obtain ⟨e', he', h⟩ := ih hx
      exact ⟨e', List.mem_cons_of_mem _ he', h⟩

/-- An entry takes a byte at least. -/
theorem length_entryBytes_pos (previousOffset nativeOffset : ℕ) (slotInfo : UInt8) :
    1 ≤ (entryBytes previousOffset nativeOffset slotInfo).length := by
  rw [entryBytes]
  split <;> simp [writeByte]

/-- Entries take as many bytes as they are, at least. -/
theorem length_le_dataOf : l.length ≤ (dataOf actualOffset previousOffset l).length := by
  induction l generalizing previousOffset with
  | nil => exact Nat.le_refl 0
  | cons e l ih =>
    have hle := length_entryBytes_pos
      (if e.addIndexEntry = true then actualOffset e.nativeOffset else previousOffset)
      (actualOffset e.nativeOffset) e.slotInfo
    have hlength := @ih (actualOffset e.nativeOffset)
    rw [dataOf, List.length_append, List.length_cons]
    omega

/-! ## What is found -/

/-- The high bit of a byte, and the others. -/
theorem slotInfo_bits {slotInfo : UInt8} (h : slotInfo &&& 0x80 = 0) :
    slotInfo &&& 0x7F = slotInfo ∧ (0x80 ||| slotInfo.toUInt32).toUInt8 &&& 0x80 ≠ 0 ∧
      (0x80 ||| slotInfo.toUInt32).toUInt8 &&& 0x7F = slotInfo := by
  have hall : ∀ n < 256, UInt8.ofNat n &&& 0x80 = 0 → UInt8.ofNat n &&& 0x7F = UInt8.ofNat n ∧
      (0x80 ||| (UInt8.ofNat n).toUInt32).toUInt8 &&& 0x80 ≠ 0 ∧
      (0x80 ||| (UInt8.ofNat n).toUInt32).toUInt8 &&& 0x7F = UInt8.ofNat n := by
    decide +kernel
  have hbyte := hall slotInfo.toNat (UInt8.toNat_lt slotInfo)
  rw [UInt8.ofNat_toNat] at hbyte
  exact hbyte h

/-- An entry is read back. -/
theorem reads_readEntry {slotInfo : UInt8} (hslot : slotInfo &&& 0x80 = 0) (hle : previousOffset ≤ offset)
    (hlt : offset < 2 ^ 32) :
    ∃ b, b &&& 0x7F = slotInfo ∧
      Reads (readEntry previousOffset) (entryBytes previousOffset offset slotInfo) (b, offset) := by
  obtain ⟨hsame, hhigh, hlow⟩ := slotInfo_bits hslot
  rw [entryBytes]
  by_cases heq : offset = previousOffset
  · rw [if_pos heq]
    have hbyte : slotInfo.toUInt32.toUInt8 = slotInfo := by simp
    refine ⟨slotInfo, hsame, ?_⟩
    rw [← hbyte, readEntry]
    apply (reads_writeByte _).bind_pure
    rw [hbyte, if_neg (by simp [hslot])]
    apply (reads_pure _).bind_nil
    show Reads (pure (slotInfo.toUInt32.toUInt8, previousOffset + (0 : UInt32).toNat)) [] (slotInfo, offset)
    rw [hbyte, heq]
    exact reads_pure _
  · rw [if_neg heq]
    refine ⟨(0x80 ||| slotInfo.toUInt32).toUInt8, hlow, ?_⟩
    rw [readEntry]
    apply (reads_writeByte _).bind
    rw [if_pos hhigh]
    apply (reads_writeUnsigned _).bind_pure
    have hdelta : previousOffset + (UInt32.ofNat (offset - previousOffset)).toNat = offset := by
      rw [UInt32.toNat_ofNat_of_lt' (Nat.lt_of_le_of_lt (Nat.sub_le _ _) hlt)]
      omega
    show Reads (pure (_, previousOffset + (UInt32.ofNat (offset - previousOffset)).toNat)) [] _
    rw [hdelta]
    exact reads_pure _

/-- Going through a run comes to the first entry that is looked for. -/
theorem scanLoop_spec (s : Script) (l : List PCMappingEntry) (fuel pc previousOffset : ℕ)
    (found : ℕ → ℕ → Bool) (hmono : Monotone actualOffset) (hchain : l.IsChain (Follows s))
    (hrun : ∀ e ∈ l.tail, e.addIndexEntry = false) (hslot : ∀ e ∈ l, e.slotInfo &&& 0x80 = 0)
    (hlt : ∀ e ∈ l, actualOffset e.nativeOffset < 2 ^ 32)
    (hpc : ∀ e ∈ l.head?, pc = e.pcOffset)
    (hprevious : ∀ e ∈ l.head?, if e.addIndexEntry then previousOffset = actualOffset e.nativeOffset
      else previousOffset ≤ actualOffset e.nativeOffset)
    (hfuel : l.length ≤ fuel) (hex : ∃ e ∈ l, found e.pcOffset (actualOffset e.nativeOffset)) :
    ∃ e ∈ l, found e.pcOffset (actualOffset e.nativeOffset) ∧
      scanLoop s found fuel pc previousOffset (dataOf actualOffset previousOffset l) =
        some (e.pcOffset, actualOffset e.nativeOffset, e.slotInfo) := by
  induction l generalizing pc previousOffset fuel with
  | nil =>
    obtain ⟨e, he, _⟩ := hex
    cases he
  | cons e l ih =>
    obtain ⟨hfollows, hchain⟩ := List.isChain_cons.mp hchain
    obtain ⟨fuel, rfl⟩ := Nat.exists_eq_succ_of_ne_zero (Nat.ne_zero_of_lt (Nat.lt_of_lt_of_le
      (Nat.zero_lt_succ l.length) hfuel))
    have hhead : e ∈ (e :: l).head? := by rw [List.head?_cons, Option.mem_some_iff]
    have hstart : (if e.addIndexEntry = true then actualOffset e.nativeOffset else previousOffset) =
        previousOffset := by
      have := hprevious e hhead
      split at this
      · rw [if_pos ‹_›, this]
      · rw [if_neg ‹_›]
    have hle : previousOffset ≤ actualOffset e.nativeOffset := by
      have := hprevious e hhead
      split at this
      · exact this.le
      · exact this
    obtain ⟨b, hb, hread⟩ := reads_readEntry (hslot e List.mem_cons_self) hle (hlt e List.mem_cons_self)
    rw [hpc e hhead, dataOf, hstart, scanLoop, hread]
    simp only [Option.bind_eq_bind, Option.bind_some, hb]
    by_cases hfound : found e.pcOffset (actualOffset e.nativeOffset) = true
    · exact ⟨e, List.mem_cons_self, hfound, by rw [if_pos hfound]⟩
    · rw [if_neg hfound]
      have hnext : ∀ x ∈ l.head?, x.addIndexEntry = false := by
        intro x hx
        exact hrun x (List.mem_of_mem_head? hx)
      obtain ⟨e', he', hfound', hscan⟩ := ih fuel (e.pcOffset + s.getBytecodeLength e.pcOffset)
        (actualOffset e.nativeOffset) hchain (fun x hx => hrun x (List.mem_of_mem_tail hx))
        (fun x hx => hslot x (List.mem_cons_of_mem _ hx))
        (fun x hx => hlt x (List.mem_cons_of_mem _ hx))
        (fun x hx => ((hfollows x hx).2.2 (hnext x hx)).symm)
        (by
          intro x hx
          rw [hnext x hx]
          exact hmono (hfollows x hx).2.1)
        (Nat.le_of_succ_le_succ hfuel)
        (by
          obtain ⟨x, hx, hfx⟩ := hex
          rcases List.mem_cons.mp hx with rfl | hx
          · exact absurd hfx hfound
          · exact ⟨x, hx, hfx⟩)
      exact ⟨e', List.mem_cons_of_mem _ he', hfound', hscan⟩

/-- The last item with a property. -/
theorem exists_last {α : Type} (p : α → Bool) {l : List α} (h : ∃ x ∈ l, p x) :
    ∃ pre a mid, l = pre ++ a :: mid ∧ p a = true ∧ ∀ x ∈ mid, p x = false := by
  have hsome : (l.reverse.find? p).isSome := List.find?_isSome.mpr (by simpa using h)
  obtain ⟨a, ha⟩ := Option.isSome_iff_exists.mp hsome
  obtain ⟨hpa, mid, pre, hl, hmid⟩ := List.find?_eq_some_iff_append.mp ha
  refine ⟨pre.reverse, a, mid.reverse, ?_, hpa, ?_⟩
  · rw [← List.reverse_reverse l, hl]
    simp
  · intro x hx
    simpa using hmid x (List.mem_reverse.mp hx)

/-- An entry is in a run, which has an index entry at its start and none within. -/
theorem Noted.exists_run (hn : Noted s (pre ++ e :: post)) :
    ∃ pre' a mid post', pre ++ e :: post = pre' ++ a :: mid ++ post' ∧ a.addIndexEntry = true ∧
      (∀ x ∈ mid, x.addIndexEntry = false) ∧ (∀ x ∈ post'.head?, x.addIndexEntry = true) ∧ e ∈ a :: mid ∧
      (∀ x ∈ pre' ++ [a], x ∈ pre ++ [e]) ∧ ∀ x ∈ post', x ∈ post := by
  have hex : ∃ x ∈ pre ++ [e], PCMappingEntry.addIndexEntry x := by
    cases pre with
    | nil => exact ⟨e, List.mem_cons_self, hn.head e (by simp)⟩
    | cons x pre => exact ⟨x, List.mem_cons_self, hn.head x (by simp)⟩
  obtain ⟨pre', a, mid, hsplit, ha, hmid⟩ := exists_last PCMappingEntry.addIndexEntry hex
  refine ⟨pre', a, mid ++ post.takeWhile fun x => !x.addIndexEntry,
    post.dropWhile fun x => !x.addIndexEntry, ?_, ha, ?_, ?_, ?_, ?_, ?_⟩
  · calc pre ++ e :: post = pre ++ [e] ++ post := (List.append_cons pre e post)
      _ = pre' ++ a :: mid ++ post := by rw [hsplit]
      _ = _ := by
        conv_lhs => rw [← List.takeWhile_append_dropWhile (p := fun x => !x.addIndexEntry) (l := post)]
        simp only [List.append_assoc, List.cons_append]
  · intro x hx
    rcases List.mem_append.mp hx with hx | hx
    · exact hmid x hx
    · simpa using List.mem_takeWhile_imp hx
  · intro x hx
    have := List.head?_dropWhile_not (fun x : PCMappingEntry => !x.addIndexEntry) post
    rw [Option.mem_def] at hx
    rw [hx] at this
    simpa using this
  · have he : e ∈ pre ++ [e] := List.mem_append_right _ List.mem_cons_self
    have hlast : (pre' ++ a :: mid).getLast? = some e := by
      rw [← hsplit, List.getLast?_concat]
    rw [List.getLast?_append_of_ne_nil _ (List.cons_ne_nil _ _)] at hlast
    have := List.mem_of_getLast? hlast
    rw [← List.cons_append]
    exact List.mem_append_left _ this
  · intro x hx
    rw [hsplit]
    rw [List.append_cons]
    exact List.mem_append_left _ hx
  · intro x hx
    exact (List.dropWhile_sublist _).subset hx

/-- A search goes through the run of an index entry. -/
theorem searchMapping_eq (s : Script) {before after : List PCMappingIndexEntry} {x : PCMappingIndexEntry}
    {front run back : List UInt8} (hx : x.bufferOffset = front.length)
    (hbefore : ∀ y ∈ before ++ [x], past y.pcOffset y.nativeOffset = false)
    (hafter : ∀ y ∈ after, past y.pcOffset y.nativeOffset = true) (hback : after = [] → back = [])
    (hnext : ∀ y ∈ after.head?, y.bufferOffset = (front ++ run).length) :
    searchMapping s ⟨before ++ [x] ++ after, front ++ run ++ back⟩ past found =
      scanLoop s found run.length x.pcOffset x.nativeOffset run := by
  have hindex : (before ++ [x] ++ after).tail.findIdx (fun y => past y.pcOffset y.nativeOffset) =
      before.length := by
    have htail : (before ++ [x] ++ after).tail = (before ++ [x]).tail ++ after := by
      cases before <;> rfl
    have hzero : after.findIdx (fun y => past y.pcOffset y.nativeOffset) = 0 := by
      cases after with
      | nil => rfl
      | cons y after => rw [List.findIdx_cons, hafter y List.mem_cons_self]; rfl
    rw [htail, List.findIdx_append, hzero, if_neg]
    · rw [List.length_tail, List.length_append, List.length_singleton]
      omega
    · intro hlt
      obtain ⟨y, hy, hpast⟩ := List.findIdx_lt_length.mp hlt
      rw [hbefore y (List.mem_of_mem_tail hy)] at hpast
      cases hpast
  have hget : (before ++ [x] ++ after)[before.length]? = some x := by simp
  have hget' : (before ++ [x] ++ after)[before.length + 1]? = after.head? := by
    cases after <;> simp
  have hreader : pcMappingReader ⟨before ++ [x] ++ after, front ++ run ++ back⟩ before.length x = run := by
    have hdrop : (front ++ run ++ back).drop front.length = run ++ back := by
      rw [List.append_assoc, List.drop_left]
    simp only [pcMappingReader, hget', hx, hdrop]
    cases after with
    | nil => simp [hback rfl]
    | cons y after =>
      have hy := hnext y (by rw [List.head?_cons, Option.mem_some_iff])
      simp [hy]
  have hnot := hbefore x (List.mem_append_right _ List.mem_cons_self)
  simp only [searchMapping, hindex, hget, hreader, hnot, guard_true, Option.bind_eq_bind, Option.pure_def,
    Option.bind_some]

/-- What is encoded, with a run in the middle. -/
theorem Noted.encodeEntries_run (hn : Noted s (pre ++ a :: mid ++ post)) (hmono : Monotone actualOffset)
    (hslot : ∀ e ∈ pre ++ a :: mid ++ post, e.slotInfo &&& 0x80 = 0)
    (hlt : ∀ e ∈ pre ++ a :: mid ++ post, actualOffset e.nativeOffset < 2 ^ 32)
    (ha : a.addIndexEntry = true) (hmid : ∀ x ∈ mid, x.addIndexEntry = false)
    (hpost : ∀ x ∈ post.head?, x.addIndexEntry = true) :
    encodeEntries actualOffset (pre ++ a :: mid ++ post) =
      some ⟨indexOf actualOffset 0 0 pre ++
          [⟨a.pcOffset, actualOffset a.nativeOffset, (dataOf actualOffset 0 pre).length⟩] ++
          indexOf actualOffset (dataOf actualOffset 0 pre ++
            dataOf actualOffset (actualOffset a.nativeOffset) (a :: mid)).length 0 post,
        dataOf actualOffset 0 pre ++ dataOf actualOffset (actualOffset a.nativeOffset) (a :: mid) ++
          dataOf actualOffset 0 post⟩ := by
  have hencode := encodeLoop_eq hmono hn.chain hslot hlt
    (fun e _ => Or.inr (Nat.zero_le (actualOffset e.nativeOffset))) ⟨[], []⟩
  have hrun : ∀ x ∈ (a :: mid).head?, x.addIndexEntry = true := by
    intro x hx
    rw [List.head?_cons, Option.mem_some_iff] at hx
    rw [← hx]
    exact ha
  have hindex : indexOf actualOffset (dataOf actualOffset 0 pre).length (actualOffset a.nativeOffset) (a :: mid) =
      [⟨a.pcOffset, actualOffset a.nativeOffset, (dataOf actualOffset 0 pre).length⟩] := by
    rw [indexOf, indexOf_run _ hmid, ha, if_pos rfl]
    rfl
  rw [List.nil_append, List.nil_append, List.length_nil, dataOf_append 0 hpost,
    dataOf_append (actualOffset a.nativeOffset) hrun, indexOf_append 0 0 hpost,
    indexOf_append (actualOffset a.nativeOffset) 0 hrun, Nat.zero_add,
    dataOf_append (actualOffset a.nativeOffset) hrun, hindex, Nat.zero_add] at hencode
  exact hencode

/-- Looking for an entry of a run finds the first one of the run. -/
theorem searchMapping_spec (past found : ℕ → ℕ → Bool) (hmono : Monotone actualOffset)
    (hn : Noted s (pre ++ a :: mid ++ post))
    (hslot : ∀ pc, s.stackTopSlotInfo pc &&& 0x80 = 0)
    (hlt : ∀ e ∈ pre ++ a :: mid ++ post, actualOffset e.nativeOffset < 2 ^ 32)
    (ha : a.addIndexEntry = true) (hmid : ∀ x ∈ mid, x.addIndexEntry = false)
    (hpost : ∀ x ∈ post.head?, x.addIndexEntry = true)
    (hbefore : ∀ x ∈ pre ++ [a], past x.pcOffset (actualOffset x.nativeOffset) = false)
    (hafter : ∀ x ∈ post, past x.pcOffset (actualOffset x.nativeOffset) = true)
    (hex : ∃ e ∈ a :: mid, found e.pcOffset (actualOffset e.nativeOffset)) :
    ∃ m, encodeEntries actualOffset (pre ++ a :: mid ++ post) = some m ∧ ∃ e ∈ a :: mid,
      found e.pcOffset (actualOffset e.nativeOffset) ∧ searchMapping s m past found =
        some (e.pcOffset, actualOffset e.nativeOffset, e.slotInfo) := by
  have hslots := hn.slotInfo_and hslot
  refine ⟨_, hn.encodeEntries_run hmono hslots hlt ha hmid hpost, ?_⟩
  obtain ⟨e, he, hfound, hscan⟩ := scanLoop_spec s (a :: mid)
    (dataOf actualOffset (actualOffset a.nativeOffset) (a :: mid)).length a.pcOffset
    (actualOffset a.nativeOffset) found hmono (hn.chain.left_of_append.right_of_append) hmid
    (fun x hx => hslots x (List.mem_append_left _ (List.mem_append_right _ hx)))
    (fun x hx => hlt x (List.mem_append_left _ (List.mem_append_right _ hx)))
    (by
      intro x hx
      rw [List.head?_cons, Option.mem_some_iff] at hx
      rw [hx])
    (by
      intro x hx
      rw [List.head?_cons, Option.mem_some_iff] at hx
      rw [← hx, ha, if_pos rfl])
    length_le_dataOf hex
  refine ⟨e, he, hfound, ?_⟩
  rw [← hscan]
  have hpost' : post = [] ∨ ∃ y l, post = y :: l ∧ y.addIndexEntry = true := by
    cases post with
    | nil => exact Or.inl rfl
    | cons y l => exact Or.inr ⟨y, l, rfl, hpost y (by rw [List.head?_cons, Option.mem_some_iff])⟩
  apply searchMapping_eq s rfl
  · intro y hy
    rcases List.mem_append.mp hy with hy | hy
    · obtain ⟨x, hx, hpc, hoffset⟩ := mem_indexOf hy
      rw [hpc, hoffset]
      exact hbefore x (List.mem_append_left _ hx)
    · rw [List.mem_singleton.mp hy]
      exact hbefore a (List.mem_append_right _ List.mem_cons_self)
  · intro y hy
    obtain ⟨x, hx, hpc, hoffset⟩ := mem_indexOf hy
    rw [hpc, hoffset]
    exact hafter x hx
  · intro hnil
    rcases hpost' with rfl | ⟨y, l, rfl, hy⟩
    · rfl
    · rw [indexOf, hy, if_pos rfl] at hnil
      cases hnil
  · intro y hy
    rcases hpost' with rfl | ⟨x, l, rfl, hx⟩
    · cases hy
    · rw [indexOf, hx, if_pos rfl, List.singleton_append, List.head?_cons, Option.mem_some_iff] at hy
      rw [← hy]

/-! ## Both lookups -/

/-- The order of the entries. -/
theorem Noted.pairwise (hn : Noted s entries) :
    entries.Pairwise fun e e' => e.pcOffset < e'.pcOffset ∧ e.nativeOffset ≤ e'.nativeOffset := by
  have : IsTrans PCMappingEntry fun e e' => e.pcOffset < e'.pcOffset ∧ e.nativeOffset ≤ e'.nativeOffset :=
    ⟨fun _ _ _ h h' => ⟨h.1.trans h'.1, h.2.trans h'.2⟩⟩
  exact (hn.chain.imp fun _ _ h => ⟨h.1, h.2.1⟩).pairwise

/-- An instruction has one entry. -/
theorem Noted.eq_of_pcOffset_eq (hn : Noted s entries) (he : e ∈ entries) (he' : e' ∈ entries)
    (h : e.pcOffset = e'.pcOffset) : e = e' := by
  have hnodup : (entries.map PCMappingEntry.pcOffset).Nodup :=
    List.pairwise_map.mpr (hn.pairwise.imp fun h => Nat.ne_of_lt h.1)
  exact List.inj_on_of_nodup_map hnodup he he' h

/-- The entry of an instruction is found. -/
theorem Noted.nativeCodeForPC_eq (hn : Noted s entries) (hmono : Monotone actualOffset)
    (hslot : ∀ pc, s.stackTopSlotInfo pc &&& 0x80 = 0)
    (hlt : ∀ e ∈ entries, actualOffset e.nativeOffset < 2 ^ 32) {m : PCMapping}
    (hm : encodeEntries actualOffset entries = some m) (he : e ∈ entries) :
    nativeCodeForPC s m e.pcOffset = some (actualOffset e.nativeOffset, s.stackTopSlotInfo e.pcOffset) := by
  obtain ⟨pre, post, rfl⟩ := List.append_of_mem he
  have hpairwise := List.pairwise_append.mp hn.pairwise
  obtain ⟨pre', a, mid, post', hsplit, ha, hmid, hpost, hmem, hpre', hpost'⟩ := hn.exists_run
  rw [hsplit] at hn hlt hm
  obtain ⟨m', hm', x, hx, hfound, hsearch⟩ := searchMapping_spec
    (fun pcOffset _ => e.pcOffset < pcOffset) (fun curPC _ => curPC = e.pcOffset) hmono hn hslot hlt ha hmid hpost
    (by
      intro y hy
      apply decide_eq_false
      rcases List.mem_append.mp (hpre' y hy) with hy | hy
      · exact Nat.not_lt.mpr (hpairwise.2.2 y hy e List.mem_cons_self).1.le
      · rw [List.mem_singleton.mp hy]
        exact Nat.lt_irrefl _)
    (by
      intro y hy
      exact decide_eq_true ((List.pairwise_cons.mp hpairwise.2.1).1 y (hpost' y hy)).1)
    ⟨e, hmem, decide_eq_true rfl⟩
  obtain rfl := Option.some_inj.mp (hm'.symm.trans hm)
  have hin {y : PCMappingEntry} (hy : y ∈ a :: mid) : y ∈ pre' ++ a :: mid ++ post' :=
    List.mem_append_left _ (List.mem_append_right _ hy)
  obtain rfl := hn.eq_of_pcOffset_eq (hin hx) (hin hmem) (of_decide_eq_true hfound)
  simp only [nativeCodeForPC, hsearch, Option.bind_eq_bind, Option.bind_some, hn.slotInfo x (hin hx)]

/-- An entry with the native code is found, in the last run where that can be. -/
theorem Noted.pcForReturnOffset_eq (hn : Noted s entries) (hmono : Monotone actualOffset)
    (hslot : ∀ pc, s.stackTopSlotInfo pc &&& 0x80 = 0)
    (hlt : ∀ e ∈ entries, actualOffset e.nativeOffset < 2 ^ 32) {m : PCMapping}
    (hm : encodeEntries actualOffset entries = some m) (he : e ∈ entries) :
    ∃ e' ∈ entries, actualOffset e'.nativeOffset = actualOffset e.nativeOffset ∧
      pcForReturnOffset s m (actualOffset e.nativeOffset) = some e'.pcOffset := by
  generalize hoffset : actualOffset e.nativeOffset = offset
  obtain ⟨pre, last, post, rfl, hlast, hno⟩ := exists_last
    (fun x : PCMappingEntry => decide (actualOffset x.nativeOffset = offset)) ⟨e, he, decide_eq_true hoffset⟩
  have hlast := of_decide_eq_true hlast
  have hpairwise := List.pairwise_append.mp hn.pairwise
  obtain ⟨pre', a, mid, post', hsplit, ha, hmid, hpost, hmem, hpre', hpost'⟩ := hn.exists_run
  rw [hsplit] at hn hlt hm ⊢
  obtain ⟨m', hm', x, hx, hfound, hsearch⟩ := searchMapping_spec
    (fun _ nativeOffset => offset < nativeOffset) (fun _ nativeOffset => nativeOffset = offset) hmono hn hslot hlt
    ha hmid hpost
    (by
      intro y hy
      apply decide_eq_false
      rw [← hlast]
      rcases List.mem_append.mp (hpre' y hy) with hy | hy
      · exact Nat.not_lt.mpr (hmono (hpairwise.2.2 y hy last List.mem_cons_self).2)
      · rw [List.mem_singleton.mp hy]
        exact Nat.lt_irrefl _)
    (by
      intro y hy
      have hle := hmono ((List.pairwise_cons.mp hpairwise.2.1).1 y (hpost' y hy)).2
      have hne := of_decide_eq_false (hno y (hpost' y hy))
      rw [hlast] at hle
      exact decide_eq_true (Nat.lt_of_le_of_ne hle (Ne.symm hne)))
    ⟨last, hmem, decide_eq_true hlast⟩
  obtain rfl := Option.some_inj.mp (hm'.symm.trans hm)
  refine ⟨x, List.mem_append_left _ (List.mem_append_right _ hx), of_decide_eq_true hfound, ?_⟩
  simp only [pcForReturnOffset, hsearch, Option.bind_eq_bind, Option.bind_some]

/-- Instructions of three bytes, one of them unreachable, and some without native code. -/
def sampleScript : Script where
  codeEnd := 15
  getBytecodeLength _ := 3
  maybeInfo pc := pc ≠ 6
  stackTopSlotInfo pc := if pc = 9 then 5 else 0
  emitOp pc := some (if pc = 0 then 200 else if pc = 3 then 0 else 7)

end SpiderMonkey.Jit.Baseline
