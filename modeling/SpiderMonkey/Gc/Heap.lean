import Mathlib

/-!
# Arenas and their free spans

The free cells of an arena are kept as a list of spans, each linked to the next through its last
cell. Sweeping makes the new list in the cells of the old one. A failed assertion gives `none`.

Addresses are those of a 64-bit process. No arena is at the end of the address space, since the
information of its chunk comes after it, and so no sum of addresses below wraps.
-/

namespace SpiderMonkey.Gc

/-- The size of an arena. -/
def ArenaSize : ℕ := 2 ^ 12

/-- The bits of an address within its arena. -/
def ArenaMask : ℕ := ArenaSize - 1

/-- Every size of a thing is a multiple of this one. -/
def CellSize : ℕ := 8

/-- The size of the header of an arena. -/
def sizeofArenaHeader : ℕ := 32

/-- The size of a span in memory. -/
def sizeofFreeSpan : ℕ := 16

/-- A sequence of free cells. -/
structure FreeSpan where
  /-- The address of the first cell. -/
  first : ℕ
  /-- The address of the last cell or, in the last span, of the last byte of the arena. -/
  last : ℕ
deriving DecidableEq, Repr

/-- Where a span is stored. -/
inductive SpanRef where
  /-- The local variable of the sweep. -/
  | newListHead
  /-- The first words of a cell. -/
  | cell (address : ℕ)
deriving DecidableEq, Repr

/-- What is read as a span at each place. -/
abbrev Memory := SpanRef → FreeSpan

/-- Write a span, or any other two words, at a place. -/
def Memory.write (mem : Memory) (ref : SpanRef) (span : FreeSpan) : Memory :=
  Function.update mem ref span

namespace FreeSpan

/-- The arena of a span, which is found from its end. -/
def arenaAddressUnchecked (span : FreeSpan) : ℕ := span.last - (span.last &&& ArenaMask)

/-- The assertions on the last span of a list. -/
def CheckLast (span : FreeSpan) : Prop :=
  span.last &&& ArenaMask = ArenaMask ∧
    (span.first - 1 = span.last ∨
      ((span.last - span.first + 1) % CellSize = 0 ∧
        span.first - (span.first &&& ArenaMask) = span.arenaAddressUnchecked))

instance (span : FreeSpan) : Decidable span.CheckLast :=
  inferInstanceAs (Decidable (_ ∧ (_ ∨ (_ ∧ _))))

/-- The assertions on a span that has a next one. -/
def CheckNext (span next : FreeSpan) : Prop :=
  span.first ≤ span.last ∧ (span.last - span.first) % CellSize = 0 ∧
    span.first - (span.first &&& ArenaMask) = span.arenaAddressUnchecked ∧
    sizeofFreeSpan + CellSize ≤ ArenaSize - (span.last &&& ArenaMask) ∧
    span.last < next.first ∧ span.arenaAddressUnchecked = next.arenaAddressUnchecked ∧
    (next.last < next.first →
      next.first - 1 = next.last ∧ span.arenaAddressUnchecked + ArenaSize = next.first)

instance (span next : FreeSpan) : Decidable (span.CheckNext next) :=
  inferInstanceAs (Decidable (_ ∧ _ ∧ _ ∧ _ ∧ _ ∧ _ ∧ (_ → _ ∧ _)))

/-- The assertions on a span, which may read the next one. -/
def checkSpan (mem : Memory) (span : FreeSpan) : Prop :=
  span.last ≠ 2 ^ 64 - 1 ∧ span.first ≠ 0 ∧ span.last ≠ 0 ∧ span.first - 1 ≤ span.last ∧
    if span.last % 2 = 1 then span.CheckLast else span.CheckNext (mem (.cell span.last))

instance (mem : Memory) (span : FreeSpan) : Decidable (span.checkSpan mem) :=
  inferInstanceAs (Decidable (_ ∧ _ ∧ _ ∧ _ ∧ ite _ _ _))

/-- The header of an arena holds its first span as two offsets. -/
def encodeOffsets (firstOffset lastOffset : ℕ) : Option ℕ := do
  guard (firstOffset ≤ ArenaSize)
  guard (lastOffset < ArenaSize)
  guard (firstOffset ≤ (lastOffset + 1) / 2 * 2)
  some (firstOffset ||| (lastOffset <<< 16))

/-- Read the first span of an arena from its header. -/
def decodeOffsets (mem : Memory) (arenaAddr offsets : ℕ) : Option FreeSpan := do
  guard (arenaAddr &&& ArenaMask = 0)
  let firstOffset := offsets &&& 0xFFFF
  let lastOffset := offsets >>> 16
  guard (firstOffset ≤ ArenaSize)
  guard (lastOffset < ArenaSize)
  -- The sum is not a disjunction, since the first offset of the empty span is the arena's size.
  let span : FreeSpan := ⟨arenaAddr + firstOffset, arenaAddr ||| lastOffset⟩
  guard (span.checkSpan mem)
  some span

/-- The arena of a checked span. -/
def arenaAddress (mem : Memory) (span : FreeSpan) : Option ℕ := do
  guard (span.checkSpan mem)
  some span.arenaAddressUnchecked

/-- The offsets of a span. -/
def encodeAsOffsets (mem : Memory) (span : FreeSpan) : Option ℕ := do
  let arenaAddr ← span.arenaAddress mem
  encodeOffsets (span.first - arenaAddr) (span.last &&& ArenaMask)

/-- The place of the next span. -/
def nextSpan (mem : Memory) (span : FreeSpan) : Option SpanRef := do
  guard (span.checkSpan mem)
  guard (span.last % 2 = 0)
  some (.cell span.last)

/-- The place of the next span, whatever it holds. -/
def nextSpanUnchecked (span : FreeSpan) (thingSize : ℕ) : Option SpanRef := do
  let lastOffset := span.last &&& ArenaMask
  guard (lastOffset % 2 = 0)
  guard ((ArenaSize - lastOffset) % thingSize = 0)
  some (.cell span.last)

/-- Take a cell off a list. No cell is given when the list is empty. -/
def allocate (mem : Memory) (span : FreeSpan) (thingSize : ℕ) : Option (Option ℕ × FreeSpan) := do
  guard (thingSize % CellSize = 0)
  guard (span.checkSpan mem)
  let thing := span.first
  if thing < span.last then
    let rest : FreeSpan := { span with first := thing + thingSize }
    guard (rest.checkSpan mem)
    some (some thing, rest)
  else if thing = span.last then
    let rest := mem (.cell thing)
    guard (rest.checkSpan mem)
    some (some thing, rest)
  else
    some (none, span)

end FreeSpan

/-- An arena in use, whose things are all of one size. -/
structure Arena where
  /-- The address of the arena. -/
  address : ℕ
  /-- Arenas are aligned. -/
  aligned : ArenaSize ∣ address
  /-- The arena is not the end of the address space. -/
  address_lt : address + ArenaSize < 2 ^ 64
  /-- The size of each thing. -/
  thingSize : ℕ
  /-- Things are made of cells. -/
  cellSize_dvd : CellSize ∣ thingSize
  /-- A span fits in any thing. -/
  sizeofFreeSpan_le : sizeofFreeSpan ≤ thingSize
  /-- There is space for a thing. -/
  thingSize_le : thingSize ≤ ArenaSize - sizeofArenaHeader

namespace Arena

variable (A : Arena)

/-- How many things the arena has. -/
def thingsPerArena : ℕ := (ArenaSize - sizeofArenaHeader) / A.thingSize

/-- Where the first thing is, so that the last one ends with the arena. -/
def firstThingOffset : ℕ := sizeofArenaHeader + (ArenaSize - sizeofArenaHeader) % A.thingSize

/-- The first thing. -/
def thingsStart : ℕ := A.address ||| A.firstThingOffset

/-- The end of the last thing. -/
def thingsEnd : ℕ := A.address + ArenaSize

/-- The last byte of the last thing. -/
def lastByte : ℕ := A.thingsEnd - 1

/-- Whether an address is that of a thing, by its distance from the end of its arena. -/
def IsAligned (thing thingSize : ℕ) : Prop :=
  (((2 ^ 64 + ArenaSize - thing) % 2 ^ 64) &&& ArenaMask) % thingSize = 0

instance (thing thingSize : ℕ) : Decidable (IsAligned thing thingSize) :=
  inferInstanceAs (Decidable (_ = _))

/-- The first span of the arena, as its header has it. -/
def getFirstFreeSpan (mem : Memory) (firstFreeSpanOffsets : ℕ) : Option FreeSpan :=
  FreeSpan.decodeOffsets mem A.address firstFreeSpanOffsets

/-- The header for a first span. -/
def setFirstFreeSpan (mem : Memory) (span : FreeSpan) : Option ℕ := do
  let arenaAddr ← span.arenaAddress mem
  guard (arenaAddr = A.address)
  span.encodeAsOffsets mem

/-- What the sweep does to the memory of the arena, in order. -/
inductive Event where
  /-- The span in a cell is read, to follow the old list. -/
  | readLink (address : ℕ) (span : FreeSpan)
  /-- A span is written, to make the new list. -/
  | writeSpan (ref : SpanRef)
  /-- A thing is finalized, which leaves anything in its cell. -/
  | finalizeThing (address : ℕ)
deriving DecidableEq, Repr

/-- The variables of the sweep, the memory, and what was done to it. -/
structure Sweep where
  /-- The spans in memory. -/
  mem : Memory
  /-- What is left of the old list. -/
  nextFree : FreeSpan
  /-- Where the last span of the new list will be written. -/
  newListTail : SpanRef
  /-- Where that span starts, if it has started. -/
  newFreeSpanStart : ℕ
  /-- Whether no thing was marked so far. -/
  allClear : Bool
  /-- What was done. -/
  log : List Event

/-- Start a span at a thing, unless one has started. -/
def Sweep.startSpan (s : Sweep) (thing : ℕ) : Sweep :=
  if s.newFreeSpanStart = 0 then { s with newFreeSpanStart := thing } else s

/-- Go over a span of the old list. -/
def Sweep.skipSpan (s : Sweep) : Option Sweep := do
  let ref ← s.nextFree.nextSpan s.mem
  let nextFree := s.mem ref
  guard (nextFree.checkSpan s.mem)
  some { s with nextFree := nextFree, log := s.log ++ [.readLink s.nextFree.last nextFree] }

/-- Write the span that has started, as the last but one of the new list. -/
def Sweep.closeSpan (s : Sweep) (thing : ℕ) : Option Sweep := do
  guard (A.thingsStart + A.thingSize ≤ thing)
  let span : FreeSpan := ⟨s.newFreeSpanStart, thing - A.thingSize⟩
  let newListTail ← span.nextSpanUnchecked A.thingSize
  some { s with
    mem := s.mem.write s.newListTail span
    newListTail := newListTail
    newFreeSpanStart := 0
    log := s.log ++ [.writeSpan s.newListTail] }

/-- Go over a marked thing. -/
def Sweep.keepThing (s : Sweep) (thing : ℕ) : Option Sweep :=
  if s.newFreeSpanStart = 0 then some { s with allClear := false }
  else { s with allClear := false }.closeSpan A thing

/-- Finalize a thing. Its finalizer, and the pattern of freed memory, leave anything in its cell. -/
def Sweep.freeThing (s : Sweep) (junk : ℕ → FreeSpan) (thing : ℕ) : Sweep :=
  { s.startSpan thing with
    mem := s.mem.write (.cell thing) (junk thing)
    log := s.log ++ [.finalizeThing thing] }

/-- The loop over the things of the arena. -/
def sweepThings (isMarked : ℕ → Bool) (junk : ℕ → FreeSpan) : ℕ → ℕ → Sweep → Option Sweep
  | 0, _, _ => none
  | fuel + 1, thing, s => do
    guard (thing ≤ A.lastByte + 1)
    if thing = s.nextFree.first then
      guard (s.nextFree.last ≤ A.lastByte)
      if s.nextFree.last = A.lastByte then
        some s
      else
        guard (IsAligned s.nextFree.last A.thingSize)
        let s' ← (s.startSpan thing).skipSpan
        sweepThings isMarked junk fuel (s.nextFree.last + A.thingSize) s'
    else if isMarked thing then
      let s' ← s.keepThing A thing
      sweepThings isMarked junk fuel (thing + A.thingSize) s'
    else
      sweepThings isMarked junk fuel (thing + A.thingSize) (s.freeThing junk thing)

/-- What a sweep leaves. -/
structure Finalized where
  /-- Whether the arena has no marked thing. -/
  allClear : Bool
  /-- The spans in memory. -/
  mem : Memory
  /-- The offsets in the header of the arena. -/
  firstFreeSpanOffsets : ℕ
  /-- What was done. -/
  log : List Event

/-- After the loop: an empty arena is left to the caller, any other gets the new list. -/
def Sweep.finish (s : Sweep) (firstFreeSpanOffsets : ℕ) : Option Finalized := do
  if s.allClear then
    guard (s.newListTail = .newListHead)
    guard (s.newFreeSpanStart = A.thingsStart)
    some ⟨true, s.mem, firstFreeSpanOffsets, s.log⟩
  else
    let first := if s.newFreeSpanStart ≠ 0 then s.newFreeSpanStart else s.nextFree.first
    guard (IsAligned first A.thingSize)
    let mem := s.mem.write s.newListTail ⟨first, A.lastByte⟩
    let offsets ← A.setFirstFreeSpan mem (mem .newListHead)
    some ⟨false, mem, offsets, s.log ++ [.writeSpan s.newListTail]⟩

/-- Sweep an arena. Each step of the loop goes over a thing at least. -/
def finalize (isMarked : ℕ → Bool) (junk : ℕ → FreeSpan) (mem : Memory)
    (firstFreeSpanOffsets : ℕ) : Option Finalized := do
  let nextFree ← A.getFirstFreeSpan mem firstFreeSpanOffsets
  let s ← A.sweepThings isMarked junk (A.thingsPerArena + 1) A.thingsStart
    ⟨mem, nextFree, .newListHead, 0, true, []⟩
  s.finish A firstFreeSpanOffsets

end Arena

end SpiderMonkey.Gc
