import SpiderMonkey.Vm.StructuredCloneTags

/-!
# Transfer maps

Transferring array buffers through a structured clone. The map at the start of the data has an entry
of three words for each buffer: a tag that tells who owns the contents, a pointer to them, and user
data. The writer steals contents and fills in entries one after the other; the reader makes new
buffers and marks entries one after the other; each may fail between any two steps. `discard` frees
what the map owns.

Which steal fails, and at which entry the reader fails and how, are parameters. Contents are given by
their addresses.
-/

namespace SpiderMonkey.Vm.StructuredClone

/-- The header of a map that has not been read. -/
def sctagTmUnread : UInt32 := 0

/-- The header of a map that has been read. -/
def sctagTmTransferred : UInt32 := 1

/-- An entry whose contents have not been stolen yet. -/
def sctagTmUnfilled : UInt32 := 0

/-- An entry whose contents are owned by a new buffer. -/
def sctagTmUnowned : UInt32 := 1

/-- All entries at least this large are owned by the map. -/
def sctagTmFirstOwned : UInt32 := 2

/-- An entry whose contents can be freed. -/
def sctagTmAllocData : UInt32 := 2

/-- The array buffers to be transferred, given by their contents. A script's array lists them. -/
structure Transferables where
  contents : List UInt64
  contents_ne : ∀ content ∈ contents, content ≠ 0
  length_lt : contents.length < 2 ^ 32

/-- What is written after the map. It does not start like a map. -/
structure Body where
  words : List UInt64
  head_ne : ∀ u ∈ words.head?, tagOf u ≠ sctagTransferMapHeader

/-- The words of an entry before its contents are stolen. -/
def placeholder : List UInt64 := [pairToUInt64 sctagTransferMapEntry sctagTmUnfilled, 0, 0]

/-- Write the map. There is none if nothing is transferred. -/
def writeTransferMap (transferableObjects : List UInt64) : List UInt64 :=
  if transferableObjects = [] then []
  else pairToUInt64 sctagTransferMapHeader sctagTmUnread ::
    UInt64.ofNat transferableObjects.length :: transferableObjects.flatMap fun _ => placeholder

/-- The writer's state: the output, where the next entry is, and what has been stolen. -/
structure Stealing where
  buf : List UInt64
  point : ℕ
  stolen : List UInt64

/-- Steal contents and fill in entries, until the steal that fails. -/
def stealEntries (failsAt : ℕ) : List UInt64 → ℕ → Stealing → Bool × Stealing
  | [], _, s => (true, s)
  | content :: rest, i, s =>
    if i = failsAt then (false, s)
    else
      let buf := s.buf.set s.point (pairToUInt64 sctagTransferMapEntry sctagTmAllocData)
      let buf := buf.set (s.point + 1) content
      let buf := buf.set (s.point + 2) 0
      stealEntries failsAt rest (i + 1) ⟨buf, s.point + 3, s.stolen ++ [content]⟩

/-- Take over the contents of all buffers. All steals succeed if none has the index of the one that
fails. -/
def transferOwnership (failsAt : ℕ) (transferableObjects buf : List UInt64) : Bool × Stealing :=
  if transferableObjects = [] then (true, ⟨buf, 0, []⟩)
  else stealEntries failsAt transferableObjects 0 ⟨buf, 2, []⟩

/-- How reading an entry fails. -/
inductive EntryFault where
  | read | create | append
  deriving DecidableEq

/-- The reader's state: the input, where the next entry is, and the contents that new buffers own. -/
structure Handing where
  buf : List UInt64
  point : ℕ
  handed : List UInt64

/-- Read an entry: make a new buffer, mark the entry, and append the buffer to the list of objects. -/
def readEntry (fault : Option EntryFault) (s : Handing) : Bool × Handing :=
  if fault = some .read then (false, s)
  else
    match s.buf[s.point]?, s.buf[s.point + 1]?, s.buf[s.point + 2]? with
    | some _, some content, some _ =>
      if fault = some .create then (false, s)
      else
        let buf := s.buf.set s.point (pairToUInt64 sctagTransferMapEntry sctagTmUnowned)
        (decide (fault ≠ some .append), ⟨buf, s.point + 3, s.handed ++ [content]⟩)
    | _, _, _ => (false, s)

/-- Read a number of entries, until the one that fails. -/
def readEntries (failsAt : ℕ) (fault : EntryFault) : ℕ → ℕ → Handing → Bool × Handing
  | 0, _, s => (true, s)
  | n + 1, i, s =>
    match readEntry (if i = failsAt then some fault else none) s with
    | (false, s) => (false, s)
    | (true, s) => readEntries failsAt fault n (i + 1) s

/-- Read the map. All entries are read if none has the index of the one that fails; then the map is
marked. -/
def readTransferMap (failsAt : ℕ) (fault : EntryFault) (buf : List UInt64) : Bool × Handing :=
  match buf[0]? with
  | none => (false, ⟨buf, 0, []⟩)
  | some u =>
    if tagOf u ≠ sctagTransferMapHeader ∨ dataOf u = sctagTmTransferred then (true, ⟨buf, 0, []⟩)
    else
      match buf[1]? with
      | none => (false, ⟨buf, 1, []⟩)
      | some numTransferables =>
        match readEntries failsAt fault numTransferables.toNat 0 ⟨buf, 2, []⟩ with
        | (false, s) => (false, s)
        | (true, s) =>
          let header := pairToUInt64 sctagTransferMapHeader sctagTmTransferred
          (true, { s with buf := s.buf.set 0 header })

/-- A word that is taken for an entry, and what is freed on its account. -/
structure DiscardedEntry where
  position : ℕ
  freed : Option UInt64
  deriving DecidableEq

/-- Free what a number of entries own. There is no result if this reads beyond the data. -/
def discardEntries (buf : List UInt64) : ℕ → ℕ → Option (List DiscardedEntry)
  | 0, _ => some []
  | n + 1, point => do
    let u ← buf[point]?
    if dataOf u ≥ sctagTmFirstOwned then
      let content ← buf[point + 1]?
      let rest ← discardEntries buf n (point + 3)
      pure (⟨point, some content⟩ :: rest)
    else
      let rest ← discardEntries buf n (point + 1)
      pure (⟨point, none⟩ :: rest)

/-- Free what the data owns: when the output is destroyed, and when a clone is cleared. -/
def discard (buf : List UInt64) : Option (List DiscardedEntry) :=
  match buf with
  | [] => some []
  | u :: _ =>
    if tagOf u ≠ sctagTransferMapHeader then some []
    else if dataOf u = sctagTmTransferred then some []
    else do
      let numTransferables ← buf[1]?
      discardEntries buf numTransferables.toNat 2

/-- The contents that are freed. Freeing nothing has no effect. -/
def freedContents (entries : List DiscardedEntry) : List UInt64 :=
  (entries.filterMap DiscardedEntry.freed).filter (· ≠ 0)

/-- What is left of a run: the data, the contents that were stolen, and those that new buffers own. -/
structure Transferred where
  buf : List UInt64
  stolen : List UInt64
  handed : List UInt64

/-- Write a clone, and read it if all steals succeed and there is a reader. The reader fails at an
entry, if there is one with its index. -/
def transfer (transferables : Transferables) (body : Body) (stealFailsAt : ℕ)
    (reader : Option (ℕ × EntryFault)) : Transferred :=
  let buf := writeTransferMap transferables.contents ++ body.words
  match transferOwnership stealFailsAt transferables.contents buf, reader with
  | (false, s), _ => ⟨s.buf, s.stolen, []⟩
  | (true, s), none => ⟨s.buf, s.stolen, []⟩
  | (true, s), some (readFailsAt, fault) =>
    let (_, r) := readTransferMap readFailsAt fault s.buf
    ⟨r.buf, s.stolen, r.handed⟩

/-- Contents are owned once: `discard` frees each of the stolen contents that no new buffer owns, and
takes only entries for entries. -/
def OwnedOnce (transferables : Transferables) (t : Transferred) : Prop :=
  ∃ entries, discard t.buf = some entries ∧
    (freedContents entries ++ t.handed).Perm t.stolen ∧
    ∀ entry ∈ entries, ∃ i < transferables.contents.length, entry.position = 2 + 3 * i

/-- No entry but the last is without contents that the map owns: at most the last steal fails, and
the reader does not fail, or there is one entry only, or it fails before the first entry is marked. -/
def NoGap (transferables : Transferables) (stealFailsAt : ℕ) (reader : Option (ℕ × EntryFault)) :
    Prop :=
  let n := transferables.contents.length
  n ≤ stealFailsAt + 1 ∧
    (n ≤ stealFailsAt → ∀ readFailsAt fault, reader = some (readFailsAt, fault) →
      n ≤ readFailsAt ∨ n ≤ 1 ∨ (readFailsAt = 0 ∧ fault ≠ .append))

end SpiderMonkey.Vm.StructuredClone
