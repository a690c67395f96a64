import Mathlib
import SpiderMonkey.Lib.Linked

/-!
# LIFO allocation

Chunks of memory that are filled from their start on, chained to allocators that mark and release
their position. Chunks that were released stay on the chain, with what their bump pointer was.

Addresses are those of a 64-bit process. What `malloc` gives is a parameter of the operations that
call it. Beside the fields of the source, a state has the blocks that each allocator has handed out
and the marks that are outstanding. A failed assertion, and a read of memory that is not a chunk,
have no result.
-/

namespace SpiderMonkey.Ds

/-- The alignment of blocks. -/
def LIFO_ALLOC_ALIGN : ℕ := 8

/-- The next aligned address. -/
def alignPtr (orig : ℕ) : ℕ := (orig + (LIFO_ALLOC_ALIGN - 1)) / LIFO_ALLOC_ALIGN * LIFO_ALLOC_ALIGN

/-- The size of the header of a chunk. -/
def sizeofBumpChunk : ℕ := 32

/-- The number of addresses. -/
def addressSpace : ℕ := 2 ^ 64

/-- The header of a chunk. -/
structure BumpChunk where
  /-- The start of the available data. -/
  bump : ℕ
  /-- The end of the data. -/
  limit : ℕ
  /-- The next chunk. -/
  next_ : Option ℕ
  /-- The size of the data area. -/
  bumpSpaceSize : ℕ
deriving DecidableEq, Repr

namespace BumpChunk

/-- The start of the data area. -/
def bumpBase (chunk : BumpChunk) : ℕ := chunk.limit - chunk.bumpSpaceSize

/-- A chunk of a size at an address, with nothing in it. -/
def make (headerBase bumpSpaceSize : ℕ) : BumpChunk where
  bump := headerBase + sizeofBumpChunk
  limit := headerBase + sizeofBumpChunk + bumpSpaceSize
  next_ := none
  bumpSpaceSize := bumpSpaceSize

/-- The bytes in use. -/
def used (chunk : BumpChunk) : ℕ := chunk.bump - chunk.bumpBase

/-- Whether an address is in the data area, or its end. -/
def Contains (chunk : BumpChunk) (mark : ℕ) : Prop := chunk.bumpBase ≤ mark ∧ mark ≤ chunk.limit

instance (chunk : BumpChunk) (mark : ℕ) : Decidable (chunk.Contains mark) :=
  inferInstanceAs (Decidable (_ ∧ _))

/-- The size of a chunk at an address. -/
def computedSizeOfIncludingThis (chunk : BumpChunk) (headerBase : ℕ) : ℕ := chunk.limit - headerBase

/-- Move the bump pointer. -/
def setBump (chunk : BumpChunk) (ptr : ℕ) : Option BumpChunk := do
  guard (chunk.Contains ptr)
  guard (chunk.Contains chunk.bump)
  some { chunk with bump := ptr }

/-- Forget what is in a chunk. -/
def resetBump (chunk : BumpChunk) (headerBase : ℕ) : Option BumpChunk :=
  chunk.setBump (headerBase + sizeofBumpChunk)

/-- Go back to a mark. -/
def release (chunk : BumpChunk) (mark : ℕ) : Option BumpChunk := do
  guard (chunk.Contains mark)
  guard (mark ≤ chunk.bump)
  chunk.setBump mark

/-- Whether a chunk has space for a block. The end of the block may wrap. -/
def canAlloc (chunk : BumpChunk) (headerBase n : ℕ) : Bool :=
  let bumped := (alignPtr chunk.bump + n) % addressSpace
  bumped ≤ chunk.limit && headerBase < bumped

/-- The bytes that are left. -/
def unused (chunk : BumpChunk) : ℕ :=
  (addressSpace + chunk.limit - alignPtr chunk.bump) % addressSpace

/-- Take a block off a chunk, if it has space. -/
def tryAlloc (chunk : BumpChunk) (n : ℕ) : Option (Option ℕ × BumpChunk) :=
  let aligned := alignPtr chunk.bump
  let newBump := (aligned + n) % addressSpace
  if chunk.limit < newBump then some (none, chunk)
  else if newBump < chunk.bump then some (none, chunk)
  else do
    let chunk ← chunk.setBump newBump
    some (some aligned, chunk)

end BumpChunk

/-- The chunks in memory. -/
structure Heap where
  chunk : ℕ → Option BumpChunk
  /-- Where they are. -/
  addresses : List ℕ

namespace Heap

/-- Change a chunk. -/
def set (h : Heap) (address : ℕ) (chunk : BumpChunk) : Heap :=
  { h with chunk := Function.update h.chunk address (some chunk) }

/-- Make a chunk of a size, where `malloc` gives memory. -/
def new_ (h : Heap) (chunkSize address : ℕ) : Option Heap := do
  guard (2 ^ Nat.clog 2 chunkSize = chunkSize)
  let chunk := BumpChunk.make address (chunkSize - sizeofBumpChunk)
  guard (alignPtr chunk.bump = chunk.bump)
  some ⟨Function.update h.chunk address (some chunk), address :: h.addresses⟩

/-- Free a chunk. -/
def delete_ (h : Heap) (address : ℕ) : Heap :=
  ⟨Function.update h.chunk address none, h.addresses.erase address⟩

/-- The next chunk on a chain. -/
def next (h : Heap) (address : ℕ) : Option ℕ := (h.chunk address).bind BumpChunk.next_

/-- Link a chunk to another one. -/
def setNext (h : Heap) (address : ℕ) (succ : Option ℕ) : Option Heap := do
  let chunk ← h.chunk address
  some (h.set address { chunk with next_ := succ })

/-- Forget what is in a chunk. -/
def resetBump (h : Heap) (address : ℕ) : Option Heap := do
  let chunk ← h.chunk address
  let chunk ← chunk.resetBump address
  some (h.set address chunk)

end Heap

/-- An allocator. -/
structure LifoAlloc where
  first : Option ℕ
  latest : Option ℕ
  last : Option ℕ
  markCount : ℕ
  defaultChunkSize_ : ℕ
  curSize_ : ℕ
  peakSize_ : ℕ
deriving DecidableEq, Repr

namespace LifoAlloc

/-- An allocator without chunks. -/
def reset (a : LifoAlloc) (defaultChunkSize : ℕ) : LifoAlloc :=
  { a with
    first := none
    latest := none
    last := none
    defaultChunkSize_ := defaultChunkSize
    markCount := 0
    curSize_ := 0 }

/-- Count memory. -/
def incrementCurSize (a : LifoAlloc) (size : ℕ) : LifoAlloc :=
  { a with curSize_ := a.curSize_ + size, peakSize_ := max a.peakSize_ (a.curSize_ + size) }

/-- Count memory that is gone. -/
def decrementCurSize (a : LifoAlloc) (size : ℕ) : Option LifoAlloc := do
  guard (size ≤ a.curSize_)
  some { a with curSize_ := a.curSize_ - size }

/-- Chain unused chunks to the end. -/
def appendUnused (a : LifoAlloc) (h : Heap) (start last : ℕ) : Option (Heap × LifoAlloc) :=
  match a.last with
  | some end_ => do
    let h ← h.setNext end_ (some start)
    some (h, { a with last := some last })
  | none => some (h, { a with first := some start, latest := some start, last := some last })

/-- Chain used chunks to the end. -/
def appendUsed (a : LifoAlloc) (h : Heap) (start latest last : ℕ) : Option (Heap × LifoAlloc) := do
  let (h, a) ← a.appendUnused h start last
  some (h, { a with latest := some latest })

/-- Whether there is nothing in the latest chunk. -/
def isEmpty (a : LifoAlloc) (h : Heap) : Option Bool :=
  match a.latest with
  | none => some true
  | some latest => (h.chunk latest).map fun chunk => chunk.used = 0

/-- Look for space in the unused chunks after the latest one, which is moved along. -/
def findUnused (n : ℕ) : ℕ → Heap → ℕ → Option (Heap × ℕ × Bool)
  | 0, _, _ => none
  | fuel + 1, h, latest => do
    let chunk ← h.chunk latest
    match chunk.next_ with
    | none => some (h, latest, false)
    | some latest => do
      let h ← h.resetBump latest
      let chunk ← h.chunk latest
      if chunk.canAlloc latest n then some (h, latest, true) else findUnused n fuel h latest

/-- The size of a new chunk for a block, if the block is not too large. -/
def chunkSize (a : LifoAlloc) (n : ℕ) : Option ℕ :=
  let defaultChunkFreeSpace := a.defaultChunkSize_ - sizeofBumpChunk
  if defaultChunkFreeSpace < n then
    let allocSizeWithHeader := (n + sizeofBumpChunk) % addressSpace
    if allocSizeWithHeader < n ∨ 2 ^ 63 ≤ allocSizeWithHeader then none
    else some (2 ^ Nat.clog 2 allocSizeWithHeader)
  else some a.defaultChunkSize_

/-- Chain a new chunk to the end. -/
def addChunk (a : LifoAlloc) (h : Heap) (chunkSize address : ℕ) : Option (Heap × LifoAlloc) := do
  let h ← h.new_ chunkSize address
  let chunk ← h.chunk address
  let size := chunk.computedSizeOfIncludingThis address
  guard (size = chunkSize)
  match a.first with
  | none =>
    some (h, { a with
      first := some address
      latest := some address
      last := some address }.incrementCurSize size)
  | some _ => do
    let latest ← a.latest
    let old ← h.chunk latest
    guard (old.next_ = none)
    let h ← h.setNext latest (some address)
    some (h, { a with latest := some address, last := some address }.incrementCurSize size)

/-- Move to an unused chunk with space, if there is one. -/
def moveToUnused (a : LifoAlloc) (h : Heap) (n : ℕ) : Option (Heap × LifoAlloc × Bool) :=
  match a.first with
  | none => some (h, a, false)
  | some _ => do
    let latest ← a.latest
    let (h, latest, found) ← findUnused n (h.addresses.length + 1) h latest
    some (h, { a with latest := some latest }, found)

/-- Move to an unused chunk with space, or to a new one. The flag says whether there is one. -/
def getOrCreateChunk (a : LifoAlloc) (h : Heap) (n : ℕ) (malloc : Option ℕ) :
    Option (Heap × LifoAlloc × Bool) := do
  let (h, a, found) ← a.moveToUnused h n
  if found then some (h, a, true)
  else
    match a.chunkSize n, malloc with
    | some size, some address => do
      let (h, a) ← a.addChunk h size address
      some (h, a, true)
    | _, _ => some (h, a, false)

/-- Take a block off the latest chunk. -/
def tryAlloc (a : LifoAlloc) (h : Heap) (n : ℕ) : Option (Heap × Option ℕ) :=
  match a.latest with
  | none => some (h, none)
  | some latest => do
    let chunk ← h.chunk latest
    let (result, chunk) ← chunk.tryAlloc n
    some (h.set latest chunk, result)

/-- Allocate a block. The source asserts that there is one in the chunk that was found; where the end
of the block wraps there is none, and a null pointer is returned. -/
def alloc (a : LifoAlloc) (h : Heap) (n : ℕ) (malloc : Option ℕ) :
    Option (Heap × LifoAlloc × Option ℕ) := do
  let (h, result) ← a.tryAlloc h n
  match result with
  | some result => some (h, a, some result)
  | none => do
    let (h, a, found) ← a.getOrCreateChunk h n malloc
    if found then do
      let (h, result) ← a.tryAlloc h n
      some (h, a, result)
    else some (h, a, none)

/-- Whether the chunks from one on have so many bytes left. -/
def hasUnused (n : ℕ) (h : Heap) : ℕ → Option ℕ → ℕ → Option Bool
  | 0, _, _ => none
  | _ + 1, none, _ => some false
  | fuel + 1, some address, total => do
    let chunk ← h.chunk address
    let total := (total + chunk.unused) % addressSpace
    if n ≤ total then some true else hasUnused n h fuel chunk.next_ total

/-- Make sure that there is some memory, in one chunk or more. -/
def ensureUnusedApproximate (a : LifoAlloc) (h : Heap) (n : ℕ) (malloc : Option ℕ) :
    Option (Heap × LifoAlloc × Bool) := do
  if ← hasUnused n h (h.addresses.length + 1) a.latest 0 then some (h, a, true)
  else do
    let latestBefore := a.latest
    let (h, a, found) ← a.getOrCreateChunk h n malloc
    if found then
      match latestBefore with
      | some latest => some (h, { a with latest := some latest }, true)
      | none => some (h, a, true)
    else some (h, a, false)

/-- Free chunks from the first one on. -/
def freeChunks : ℕ → Heap → LifoAlloc → Option (Heap × LifoAlloc)
  | 0, _, _ => none
  | fuel + 1, h, a =>
    match a.first with
    | none => some (h, a)
    | some victim => do
      let chunk ← h.chunk victim
      let a ← { a with first := chunk.next_ }.decrementCurSize
        (chunk.computedSizeOfIncludingThis victim)
      freeChunks fuel (h.delete_ victim) a

/-- Free all memory. -/
def freeAll (a : LifoAlloc) (h : Heap) : Option (Heap × LifoAlloc) := do
  let (h, a) ← freeChunks (h.addresses.length + 1) h a
  guard (a.curSize_ = 0)
  some (h, { a with first := none, latest := none, last := none })

/-- Go back to the first chunk, and forget what is in it. -/
def rewind (a : LifoAlloc) (h : Heap) : Option (Heap × LifoAlloc) :=
  match a.first with
  | none => some (h, { a with latest := none })
  | some first => do
    let h ← h.resetBump first
    some (h, { a with latest := some first })

/-- Take all chunks of another allocator, in place of the own ones. -/
def steal (a other : LifoAlloc) : Option (LifoAlloc × LifoAlloc) := do
  guard (other.markCount = 0)
  let a := { other with peakSize_ := max a.peakSize_ other.curSize_ }
  some (a, other.reset a.defaultChunkSize_)

/-- Take all chunks of another allocator, after the own ones. -/
def transferFrom (a other : LifoAlloc) (h : Heap) : Option (Heap × LifoAlloc × LifoAlloc) := do
  guard (a.markCount = 0)
  guard (other.markCount = 0)
  match other.first with
  | none => some (h, a, other)
  | some first => do
    let latest ← other.latest
    let last ← other.last
    let a := a.incrementCurSize other.curSize_
    let (h, a) ← if ← other.isEmpty h then a.appendUnused h first last
      else a.appendUsed h first latest last
    some (h, a, { other with first := none, last := none, latest := none, curSize_ := 0 })

/-- Count the chunks from one on for this allocator, and not for the other. -/
def moveSizes (h : Heap) : ℕ → Option ℕ → LifoAlloc → LifoAlloc → Option (LifoAlloc × LifoAlloc)
  | 0, _, _, _ => none
  | _ + 1, none, a, other => some (a, other)
  | fuel + 1, some address, a, other => do
    let chunk ← h.chunk address
    let size := chunk.computedSizeOfIncludingThis address
    let other ← other.decrementCurSize size
    moveSizes h fuel chunk.next_ (a.incrementCurSize size) other

/-- Take the chunks of another allocator after its latest one. -/
def transferUnusedFrom (a other : LifoAlloc) (h : Heap) : Option (Heap × LifoAlloc × LifoAlloc) := do
  guard (a.markCount = 0)
  guard (a.latest = a.first)
  match other.first with
  | none => some (h, a, other)
  | some first =>
    if other.markCount ≠ 0 then some (h, a, other)
    else do
      let latest ← other.latest
      let chunk ← h.chunk latest
      match chunk.next_ with
      | none => some (h, a, other)
      | some start => do
        let (a, other) ←
          if other.latest = other.first then do
            let chunk ← h.chunk first
            let delta := other.curSize_ - chunk.computedSizeOfIncludingThis first
            let other ← other.decrementCurSize delta
            some (a.incrementCurSize delta, other)
          else moveSizes h (h.addresses.length + 1) (some start) a other
        let last ← other.last
        let (h, a) ← a.appendUnused h start last
        let h ← h.setNext latest none
        some (h, a, { other with last := other.latest })

end LifoAlloc

/-- A block that was handed out. -/
structure Block where
  start : ℕ
  size : ℕ
deriving DecidableEq, Repr

/-- A mark, with the number of blocks there were. -/
structure Mark where
  chunk : Option ℕ
  markInChunk : ℕ
  blocks : ℕ
deriving DecidableEq, Repr

/-- Any number of allocators. -/
structure State where
  heap : Heap
  lifo : ℕ → LifoAlloc
  /-- The blocks that were handed out by each, in order, and not released. -/
  blocks : ℕ → List Block
  /-- The outstanding marks of each, the newest first. -/
  marks : ℕ → List Mark

/-- The operations, with what `malloc` gives. -/
inductive Op where
  | alloc (i n : ℕ) (malloc : Option ℕ)
  | ensureUnusedApproximate (i n : ℕ) (malloc : Option ℕ)
  | mark (i : ℕ)
  | release (i : ℕ)
  | releaseAll (i : ℕ)
  | freeAll (i : ℕ)
  | steal (i j : ℕ)
  | transferFrom (i j : ℕ)
  | transferUnusedFrom (i j : ℕ)

namespace State

/-- No allocator has a chunk. -/
def init (defaultChunkSize : ℕ → ℕ) : State where
  heap := ⟨fun _ => none, []⟩
  lifo := fun i => ⟨none, none, none, 0, defaultChunkSize i, 0, 0⟩
  blocks := fun _ => []
  marks := fun _ => []

/-- Change the heap and an allocator. -/
def setLifo (s : State) (i : ℕ) (h : Heap) (a : LifoAlloc) : State :=
  { s with heap := h, lifo := Function.update s.lifo i a }

/-- The blocks of an allocator. -/
def setBlocks (s : State) (i : ℕ) (blocks : List Block) : State :=
  { s with blocks := Function.update s.blocks i blocks }

/-- The marks of an allocator. -/
def setMarks (s : State) (i : ℕ) (marks : List Mark) : State :=
  { s with marks := Function.update s.marks i marks }

/-- Mark the position of an allocator. -/
def mark (s : State) (i : ℕ) : Option State := do
  let a := s.lifo i
  let s' := s.setLifo i s.heap { a with markCount := a.markCount + 1 }
  match a.latest with
  | none => some (s'.setMarks i (⟨none, 0, (s.blocks i).length⟩ :: s.marks i))
  | some latest => do
    let chunk ← s.heap.chunk latest
    some (s'.setMarks i (⟨some latest, chunk.bump, (s.blocks i).length⟩ :: s.marks i))

/-- Go back to the newest mark. -/
def release (s : State) (i : ℕ) : Option State :=
  match s.marks i with
  | [] => none
  | m :: marks => do
    let a := s.lifo i
    let a := { a with markCount := a.markCount - 1 }
    let (h, a) ←
      match m.chunk with
      | none => a.rewind s.heap
      | some address => do
        let chunk ← s.heap.chunk address
        let chunk ← chunk.release m.markInChunk
        some (s.heap.set address chunk, { a with latest := some address })
    some (((s.setLifo i h a).setMarks i marks).setBlocks i ((s.blocks i).take m.blocks))

/-- Do an operation. -/
def step (s : State) : Op → Option State
  | .alloc i n malloc => do
    let (h, a, result) ← (s.lifo i).alloc s.heap n malloc
    match result with
    | none => some (s.setLifo i h a)
    | some start => some ((s.setLifo i h a).setBlocks i (s.blocks i ++ [⟨start, n⟩]))
  | .ensureUnusedApproximate i n malloc => do
    let (h, a, _) ← (s.lifo i).ensureUnusedApproximate s.heap n malloc
    some (s.setLifo i h a)
  | .mark i => s.mark i
  | .release i => s.release i
  | .releaseAll i => do
    guard ((s.lifo i).markCount = 0)
    let (h, a) ← (s.lifo i).rewind s.heap
    some ((s.setLifo i h a).setBlocks i [])
  | .freeAll i => do
    let (h, a) ← (s.lifo i).freeAll s.heap
    some (((s.setLifo i h a).setBlocks i []).setMarks i [])
  | .steal i j => do
    let (a, other) ← (s.lifo i).steal (s.lifo j)
    some ((((s.setLifo i s.heap a).setLifo j s.heap other).setBlocks i (s.blocks j)).setBlocks j [])
  | .transferFrom i j => do
    let (h, a, other) ← (s.lifo i).transferFrom (s.lifo j) s.heap
    some ((((s.setLifo i h a).setLifo j h other).setBlocks i
      (s.blocks i ++ s.blocks j)).setBlocks j [])
  | .transferUnusedFrom i j => do
    let (h, a, other) ← (s.lifo i).transferUnusedFrom (s.lifo j) s.heap
    some ((s.setLifo i h a).setLifo j h other)

end State

end SpiderMonkey.Ds
