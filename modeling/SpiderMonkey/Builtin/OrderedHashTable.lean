import Mathlib
import SpiderMonkey.Lib.Linked

/-!
# The ordered hash table behind JavaScript's Map and Set

Entries sit in a vector in insertion order, and each bucket of the hash table heads a chain through
the vector. Removing an entry only empties its place; live ranges are told about removals and about
every compaction of the vector.

Pointers into the vector are indices. An emptied element is `none` instead of an entry with the
reserved key. The fill factor times a power of two rounds down to the same integer in doubles as in
rationals, and the loads are compared with exact doubles. Following a null pointer or running
around a chain for longer than the vector gives `none`.
-/

namespace SpiderMonkey.Builtin

/-- Spread a hash code over all bits. -/
def scrambleHashCode (h : UInt32) : UInt32 := h * 0x9E3779B9

/-- A place of the data vector. -/
structure Data (K V : Type) where
  element : Option (K × V)
  chain : Option ℕ

/-- The position of a range: the index of its front, and the number of nonempty entries before. -/
structure Range where
  i : ℕ
  count : ℕ
  deriving DecidableEq, Repr

/-- The table with its live ranges, which their owners know by number. `hashTable` is null until
initialization succeeds, and the length of `data` is the number of constructed elements. -/
structure OrderedHashTable (K V : Type) where
  hashTable : Option (ℕ → Option ℕ)
  data : List (Data K V)
  dataCapacity : ℕ
  liveCount : ℕ
  hashShift : ℕ
  ranges : List (ℕ × Range)

/-- The calls a user of the table makes. A range is named when it is created. -/
inductive Op (K V : Type) where
  | init
  | has (l : K)
  | get (l : K)
  | count
  | put (e : K × V)
  | remove (l : K)
  | clear
  | all (id : ℕ)
  | copy (source id : ℕ)
  | destroy (id : ℕ)
  | empty (id : ℕ)
  | popFront (id : ℕ)
  | rekeyFront (id : ℕ) (k : K)
  | rekeyOneEntry (current newKey : K) (element : K × V)

/-- What a call returns. Popping the front of a range returns that entry. -/
inductive Output (E : Type) where
  | done
  | answer (b : Bool)
  | number (n : ℕ)
  | entry (e : Option E)
  | ok (b : Bool)
  | removed (ok found : Bool)

namespace Output

/-- Change the entries of an output. -/
def map {E E' : Type} (f : E → E') : Output E → Output E'
  | .done => .done
  | .answer b => .answer b
  | .number n => .number n
  | .entry e => .entry (e.map f)
  | .ok b => .ok b
  | .removed b found => .removed b found

/-- Whether a call reports no allocation failure. -/
def success {E : Type} : Output E → Bool
  | .ok b => b
  | .removed b _ => b
  | _ => true

end Output

/-- Bits of a hash code. -/
def hashNumberSizeBits : ℕ := 32

/-- Buckets of a new table, as a logarithm. -/
def initialBucketsLog2 : ℕ := 1

/-- Buckets of a new table. -/
def initialBuckets : ℕ := 2 ^ initialBucketsLog2

/-- Buckets under a hash shift. -/
def bucketsOf (hashShift : ℕ) : ℕ := 2 ^ (hashNumberSizeBits - hashShift)

/-- Elements the data vector is allocated for, with eight thirds per bucket. -/
def capacityOf (buckets : ℕ) : ℕ := buckets * 8 / 3

variable {K V : Type}

/-- The chain pointer at an index. -/
def chainOf (data : List (Data K V)) (i : ℕ) : Option ℕ := data[i]?.bind Data.chain

/-- The element at an index, if it is constructed and not empty. -/
def elementAt (data : List (Data K V)) (i : ℕ) : Option (K × V) := data[i]?.bind Data.element

/-- Skip empty elements of the rest of the vector. -/
def seekFrom : List (Data K V) → ℕ → ℕ
  | [], i => i
  | d :: rest, i => if d.element.isNone then seekFrom rest (i + 1) else i

/-- Move an index to the next nonempty entry. -/
def seek (data : List (Data K V)) (i : ℕ) : ℕ := seekFrom (data.drop i) i

namespace Range

/-- A range over all entries. -/
def init (data : List (Data K V)) : Range := ⟨seek data 0, 0⟩

/-- The entry at an index was removed. -/
def onRemove (data : List (Data K V)) (j : ℕ) (r : Range) : Range :=
  let r := if j < r.i then { r with count := r.count - 1 } else r
  if j = r.i then { r with i := seek data r.i } else r

/-- The table was resized or compacted. -/
def onCompact (r : Range) : Range := { r with i := r.count }

/-- The table was cleared. -/
def onClear (_ : Range) : Range := ⟨0, 0⟩

/-- Advance past the front entry. -/
def popFront (data : List (Data K V)) (r : Range) : Range := ⟨seek data (r.i + 1), r.count + 1⟩

end Range

/-- A pointer to a chain pointer. -/
inductive LinkRef where
  | bucket (h : ℕ)
  | chain (i : ℕ)

/-- The chain pointer behind a reference. -/
def readLink (table : ℕ → Option ℕ) (data : List (Data K V)) : LinkRef → Option ℕ
  | .bucket h => table h
  | .chain i => chainOf data i

/-- Store a chain pointer behind a reference. -/
def writeLink (table : ℕ → Option ℕ) (data : List (Data K V)) (p : Option ℕ) :
    LinkRef → (ℕ → Option ℕ) × List (Data K V)
  | .bucket h => (Function.update table h p, data)
  | .chain i => (table, data.modify i fun d => { d with chain := p })

/-- The reference that points to an entry, from one on. -/
def findLinkTo (table : ℕ → Option ℕ) (data : List (Data K V)) (entry : ℕ) :
    ℕ → LinkRef → Option LinkRef
  | 0, _ => none
  | fuel + 1, ep =>
    match readLink table data ep with
    | none => none
    | some i => if i = entry then some ep else findLinkTo table data entry fuel (.chain i)

/-- The first reference, from one on, that does not point to an entry later in the vector. -/
def findPlaceFor (table : ℕ → Option ℕ) (data : List (Data K V)) (entry : ℕ) :
    ℕ → LinkRef → Option LinkRef
  | 0, _ => none
  | fuel + 1, ep =>
    match readLink table data ep with
    | none => some ep
    | some i => if entry < i then findPlaceFor table data entry fuel (.chain i) else some ep

/-- Take an entry out of its old chain and put it into its new one, in descending order. -/
def moveEntry (table : ℕ → Option ℕ) (data : List (Data K V)) (entry oldHash newHash : ℕ) :
    Option ((ℕ → Option ℕ) × List (Data K V)) := do
  let fuel := data.length + 1
  let ep ← findLinkTo table data entry fuel (.bucket oldHash)
  let (table, data) := writeLink table data (chainOf data entry) ep
  let ep ← findPlaceFor table data entry fuel (.bucket newHash)
  let (table, data) := writeLink table data (readLink table data ep) (.chain entry)
  pure (writeLink table data (some entry) ep)

namespace OrderedHashTable

section

variable [DecidableEq K] (hash : K → UInt32)

/-- The scrambled hash code of a key. -/
def prepareHash (k : K) : ℕ := (scrambleHashCode (hash k)).toNat

/-- The bucket of a key under a hash shift. -/
def bucketFor (hashShift : ℕ) (k : K) : ℕ := prepareHash hash k >>> hashShift

/-- Buckets of the table. -/
def hashBuckets (t : OrderedHashTable K V) : ℕ := bucketsOf t.hashShift

/-- Search a chain for a key. -/
def lookupChain (data : List (Data K V)) (l : K) : ℕ → Option ℕ → Option (Option ℕ)
  | _, none => some none
  | 0, some _ => none
  | fuel + 1, some e =>
    match data[e]? with
    | none => none
    | some d =>
      if d.element.any fun element => element.1 = l then some (some e)
      else lookupChain data l fuel d.chain

/-- The index of the entry with a key. -/
def lookup (t : OrderedHashTable K V) (l : K) : Option (Option ℕ) :=
  match t.hashTable with
  | none => none
  | some table => lookupChain t.data l t.data.length (table (bucketFor hash t.hashShift l))

/-- Allocate an empty table. The allocations succeed as `alloc` says. -/
def init (alloc : ℕ → Bool) (t : OrderedHashTable K V) : OrderedHashTable K V × Bool :=
  if !alloc 0 then (t, false)
  else if !alloc 1 then (t, false)
  else
    ({ t with
      hashTable := some fun _ => none
      data := []
      dataCapacity := capacityOf initialBuckets
      liveCount := 0
      hashShift := hashNumberSizeBits - initialBucketsLog2 }, true)

/-- Construct an element at the end of a vector, at the head of its chain. -/
def appendData (hashShift : ℕ) (s : (ℕ → Option ℕ) × List (Data K V)) (e : K × V) :
    (ℕ → Option ℕ) × List (Data K V) :=
  (Function.update s.1 (bucketFor hash hashShift e.1) (some s.2.length),
    s.2 ++ [⟨some e, s.1 (bucketFor hash hashShift e.1)⟩])

/-- Move the element at one index down to the first free index, unless it is empty. -/
def compactStep (hashShift : ℕ) (s : (ℕ → Option ℕ) × List (Data K V) × ℕ) (rp : ℕ) :
    (ℕ → Option ℕ) × List (Data K V) × ℕ :=
  match elementAt s.2.1 rp with
  | none => s
  | some e =>
    (Function.update s.1 (bucketFor hash hashShift e.1) (some s.2.2),
      s.2.1.set s.2.2 ⟨some e, s.1 (bucketFor hash hashShift e.1)⟩, s.2.2 + 1)

/-- Tell the ranges that the vector was compacted. -/
def compacted (t : OrderedHashTable K V) : OrderedHashTable K V :=
  { t with ranges := t.ranges.map fun r => (r.1, r.2.onCompact) }

/-- Compact the entries and rehash them without changing the size. -/
def rehashInPlace (t : OrderedHashTable K V) : OrderedHashTable K V :=
  let s := (List.range t.data.length).foldl (compactStep hash t.hashShift)
    (fun _ => none, t.data, 0)
  compacted { t with hashTable := some s.1, data := s.2.1.take t.liveCount }

/-- Grow, shrink or compact. A hash shift below two asks for more bytes than there are addresses,
as the bucket count overflows. -/
def rehash (alloc : ℕ → Bool) (newHashShift : ℕ) (t : OrderedHashTable K V) :
    OrderedHashTable K V × Bool :=
  if newHashShift = t.hashShift then (rehashInPlace hash t, true)
  else if newHashShift < 2 || !alloc 0 then (t, false)
  else if !alloc 1 then (t, false)
  else
    let s := (t.data.filterMap Data.element).foldl (appendData hash newHashShift) (fun _ => none, [])
    (compacted { t with
      hashTable := some s.1
      data := s.2
      dataCapacity := capacityOf (bucketsOf newHashShift)
      hashShift := newHashShift }, true)

/-- Make room for an element if the vector is full. -/
def makeRoom (alloc : ℕ → Bool) (t : OrderedHashTable K V) : OrderedHashTable K V × Bool :=
  if t.data.length = t.dataCapacity then
    rehash hash alloc
      (if 3 * t.dataCapacity ≤ 4 * t.liveCount then t.hashShift - 1 else t.hashShift) t
  else (t, true)

/-- Add a new entry at the end. -/
def addEntry (t : OrderedHashTable K V) (table : ℕ → Option ℕ) (e : K × V) :
    OrderedHashTable K V :=
  let s := appendData hash t.hashShift (table, t.data) e
  { t with hashTable := some s.1, data := s.2, liveCount := t.liveCount + 1 }

/-- Replace or add an entry. -/
def put (alloc : ℕ → Bool) (e : K × V) (t : OrderedHashTable K V) :
    Option (OrderedHashTable K V × Bool) := do
  match ← lookup hash t e.1 with
  | some i => pure ({ t with data := t.data.modify i fun d => { d with element := some e } }, true)
  | none =>
    let (t, ok) := makeRoom hash alloc t
    if ok then
      let table ← t.hashTable
      pure (addEntry hash t table e, true)
    else pure (t, false)

/-- Empty the entry at an index and tell the ranges. -/
def emptyEntry (pos : ℕ) (t : OrderedHashTable K V) : OrderedHashTable K V :=
  let data := t.data.modify pos fun d => { d with element := none }
  { t with
    data := data
    liveCount := t.liveCount - 1
    ranges := t.ranges.map fun r => (r.1, r.2.onRemove data pos) }

/-- Shrink the table if it has become too empty. -/
def shrinkIfSparse (alloc : ℕ → Bool) (t : OrderedHashTable K V) : OrderedHashTable K V × Bool :=
  if initialBuckets < t.hashBuckets ∧ 4 * t.liveCount < t.data.length then
    rehash hash alloc (t.hashShift + 1) t
  else (t, true)

/-- Remove an entry: whether there was no allocation failure, and whether it was found. -/
def remove (alloc : ℕ → Bool) (l : K) (t : OrderedHashTable K V) :
    Option (OrderedHashTable K V × Bool × Bool) := do
  match ← lookup hash t l with
  | none => pure (t, true, false)
  | some pos =>
    let (t, ok) := shrinkIfSparse hash alloc (emptyEntry pos t)
    pure (t, ok, true)

/-- Remove all entries. -/
def clear (alloc : ℕ → Bool) (t : OrderedHashTable K V) : OrderedHashTable K V × Bool :=
  if t.data.length = 0 then (t, true)
  else
    let (t', ok) := init alloc { t with hashTable := none }
    if ok then ({ t' with ranges := t'.ranges.map fun r => (r.1, r.2.onClear) }, true)
    else ({ t' with hashTable := t.hashTable }, false)

/-- Change the key of the front entry of a range. -/
def rekeyFront (r : Range) (k : K) (t : OrderedHashTable K V) : Option (OrderedHashTable K V) := do
  let entry ← elementAt t.data r.i
  let oldHash := bucketFor hash t.hashShift entry.1
  let newHash := bucketFor hash t.hashShift k
  let data := t.data.modify r.i fun d => { d with element := some (k, entry.2) }
  if newHash = oldHash then pure { t with data := data }
  else
    let table ← t.hashTable
    let (table, data) ← moveEntry table data r.i oldHash newHash
    pure { t with hashTable := some table, data := data }

/-- Replace the entry of a key by one with another key. -/
def rekeyOneEntry (current newKey : K) (element : K × V) (t : OrderedHashTable K V) :
    Option (OrderedHashTable K V) :=
  if current = newKey then some t
  else do
    match ← lookup hash t current with
    | none => pure t
    | some entry =>
      let data := t.data.modify entry fun d => { d with element := some element }
      let table ← t.hashTable
      let (table, data) ← moveEntry table data entry (bucketFor hash t.hashShift current)
        (bucketFor hash t.hashShift newKey)
      pure { t with hashTable := some table, data := data }

/-- The range with a name. -/
def rangeOf (t : OrderedHashTable K V) (id : ℕ) : Option Range :=
  (t.ranges.find? fun r => r.1 = id).map Prod.snd

/-- Replace the range with a name. -/
def setRange (t : OrderedHashTable K V) (id : ℕ) (r : Range) : OrderedHashTable K V :=
  { t with ranges := t.ranges.map fun r' => if r'.1 = id then (id, r) else r' }

/-- One call. -/
def step (alloc : ℕ → Bool) (t : OrderedHashTable K V) :
    Op K V → Option (OrderedHashTable K V × Output (K × V))
  | .init => some ((init alloc t).1, .ok (init alloc t).2)
  | .has l => (lookup hash t l).map fun e => (t, .answer e.isSome)
  | .get l => (lookup hash t l).map fun e => (t, .entry (e.bind (elementAt t.data)))
  | .count => some (t, .number t.liveCount)
  | .put e => (put hash alloc e t).map fun r => (r.1, .ok r.2)
  | .remove l => (remove hash alloc l t).map fun r => (r.1, .removed r.2.1 r.2.2)
  | .clear => some ((clear alloc t).1, .ok (clear alloc t).2)
  | .all id => some ({ t with ranges := (id, Range.init t.data) :: t.ranges }, .done)
  | .copy source id =>
    (t.rangeOf source).map fun r => ({ t with ranges := (id, r) :: t.ranges }, .done)
  | .destroy id => some ({ t with ranges := t.ranges.filter fun r => r.1 ≠ id }, .done)
  | .empty id => (t.rangeOf id).map fun r => (t, .answer (decide (t.data.length ≤ r.i)))
  | .popFront id => do
    let r ← t.rangeOf id
    let e ← elementAt t.data r.i
    pure (t.setRange id (r.popFront t.data), .entry (some e))
  | .rekeyFront id k => do
    let r ← t.rangeOf id
    let t ← rekeyFront hash r k t
    pure (t, .done)
  | .rekeyOneEntry current newKey element =>
    (rekeyOneEntry hash current newKey element t).map fun t => (t, .done)

end

end OrderedHashTable

end SpiderMonkey.Builtin
