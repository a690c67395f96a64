import SpiderMonkey.Builtin.OrderedHashTableSound

/-!
# Every call of the table is the map's

The table's live entries are the map's entries, and each range's count is its cursor. Rehashing
keeps what a table stands for; each allowed call, whichever allocations fail, returns what the map
returns and leads to a table that stands for the map after it.
-/

namespace SpiderMonkey.Builtin

variable {K V : Type} {hash : K → UInt32}

/-- The live entries before a place depend on the elements only. -/
theorem live_take_congr {data data' : List (Data K V)}
    (h : data'.map Data.element = data.map Data.element) (i : ℕ) :
    live (data'.take i) = live (data.take i) := by
  have hlive (l : List (Data K V)) : live (l.take i) = ((l.map Data.element).take i).filterMap id := by
    rw [← List.map_take, List.filterMap_map]
    rfl
  rw [hlive, hlive, h]

/-- The elements at each place give the elements of the vector. -/
theorem map_element_congr {data data' : List (Data K V)}
    (h : ∀ i, elementAt data' i = elementAt data i) (hlength : data'.length = data.length) :
    data'.map Data.element = data.map Data.element := by
  apply List.ext_getElem (by simpa using hlength)
  intro i hi hi'
  rw [List.length_map] at hi hi'
  simpa [elementAt, List.getElem?_eq_getElem hi, List.getElem?_eq_getElem hi'] using h i

/-- A range's position depends on the elements only. -/
theorem RangeAt.congr {data data' : List (Data K V)} {r : Range} (hr : RangeAt data r)
    (h : ∀ i, elementAt data' i = elementAt data i) (hlength : data'.length = data.length) :
    RangeAt data' r := by
  refine ⟨hlength ▸ hr.le, ?_, ?_⟩
  · rw [live_take_congr (map_element_congr h hlength)]
    exact hr.count_eq
  · rw [hlength, h]
    exact hr.at_live

namespace OrderedHashTable

/-- The table stands for a map. Before initialization it holds nothing. -/
structure Refines (hash : K → UInt32) (t : OrderedHashTable K V) (m : OrderedMap K V) : Prop where
  wellFormed : m.initialized = true → ∃ table, t.hashTable = some table ∧ WellFormed hash t table
  nothing : m.initialized = false → t.data = [] ∧ t.ranges = []
  entries : live t.data = m.entries.map Prod.snd
  cursors : t.ranges.map (fun r => (r.1, r.2.count)) = m.cursors
  rangeAt : ∀ r ∈ t.ranges, RangeAt t.data r.2
  valid : m.Valid

/-- What a call leaves that reports an allocation failure: a removal is done without shrinking, any
other call changes nothing. -/
def afterFailure [DecidableEq K] (hash : K → UInt32) (t : OrderedHashTable K V) :
    Op K V → OrderedHashTable K V
  | .remove l =>
    match OrderedHashTable.lookup hash t l with
    | some (some pos) => emptyEntry pos t
    | _ => t
  | _ => t

/-- A call returns what it returns on the map, and leads to a table that stands for the map after
it. -/
structure Stepped [DecidableEq K] (hash : K → UInt32) (t : OrderedHashTable K V)
    (m : OrderedMap K V) (op : Op K V) (t' : OrderedHashTable K V) (out : Output (K × V)) :
    Prop where
  output : out = (m.step out.success op).2.map Prod.snd
  refines : Refines hash t' (m.step out.success op).1
  failure : out.success = false → t' = afterFailure hash t op

namespace Refines

variable {t : OrderedHashTable K V} {m : OrderedMap K V}

/-- The number of entries. -/
theorem length_eq (h : Refines hash t m) : (live t.data).length = m.entries.length := by
  simpa using congrArg List.length h.entries

/-- The map's entry that stands at a place of the vector. -/
theorem entry_at (h : Refines hash t m) {i : ℕ} {e : K × V} (he : elementAt t.data i = some e) :
    ∃ s, m.entries[(live (t.data.take i)).length]? = some (s, e) := by
  have hget := live_getElem? he
  rw [h.entries, List.getElem?_map, Option.map_eq_some_iff] at hget
  obtain ⟨⟨s, e'⟩, hentry, rfl⟩ := hget
  exact ⟨s, hentry⟩

/-- The range that stands for a cursor. -/
theorem range_of (h : Refines hash t m) {id p : ℕ} (hp : m.cursorOf id = some p) :
    ∃ r, t.rangeOf id = some r ∧ r.count = p ∧ RangeAt t.data r := by
  rw [OrderedMap.cursorOf, ← h.cursors, List.find?_map] at hp
  simp only [Option.map_map, Option.map_eq_some_iff, Function.comp_def] at hp
  obtain ⟨r, hr, rfl⟩ := hp
  exact ⟨r.2, by rw [rangeOf, hr, Option.map_some], rfl, h.rangeAt r (List.mem_of_find?_eq_some hr)⟩

/-- The front of a range is the map's entry at its cursor. -/
theorem front_eq (h : Refines hash t m) {r : Range} (hr : RangeAt t.data r) :
    elementAt t.data r.i = m.entries[r.count]?.map Prod.snd := by
  rw [hr.front_eq, h.entries, List.getElem?_map]

/-- A rehash with room for the live entries does not change what a table stands for. -/
theorem rehashed (h : Refines hash t m) (hinit : m.initialized = true) {newHashShift : ℕ}
    {t' : OrderedHashTable K V} (hrehashed : Rehashed hash newHashShift t t')
    (hfit : t.liveCount ≤ capacityOf (bucketsOf newHashShift))
    (hshift : 2 ≤ newHashShift ∧ newHashShift ≤ 31) : Refines hash t' m := by
  obtain ⟨table, -, hwell⟩ := h.wellFormed hinit
  refine ⟨fun _ => hrehashed.wellFormed hwell.count hfit hshift,
    fun hinit' => by simp [hinit] at hinit', ?_, ?_, fun r hr => ?_, h.valid⟩
  · rw [live_of_dense hrehashed.elements, h.entries]
  · rw [hrehashed.ranges, List.map_map, ← h.cursors]
    rfl
  · rw [hrehashed.ranges] at hr
    obtain ⟨r', hr', rfl⟩ := List.mem_map.mp hr
    exact (h.rangeAt r' hr').onCompact hrehashed.elements

/-- Making room succeeds with room for an element, or changes nothing. -/
theorem makeRoom (h : Refines hash t m) (hinit : m.initialized = true) (alloc : ℕ → Bool) :
    Refines hash (makeRoom hash alloc t).1 m ∧
      ((makeRoom hash alloc t).2 = true →
        (makeRoom hash alloc t).1.data.length < (makeRoom hash alloc t).1.dataCapacity) ∧
      ((makeRoom hash alloc t).2 = false → (makeRoom hash alloc t).1 = t) := by
  obtain ⟨table, htable, hwell⟩ := h.wellFormed hinit
  have hlive := length_live_le t.data
  have hcount := hwell.count
  have hle := hwell.length_le
  have hcapacity := hwell.capacity
  have hpos := bucketsOf_pos t.hashShift
  have hshift := hwell.shift
  unfold OrderedHashTable.makeRoom
  split
  · rename_i hfull
    rw [hashBuckets] at hcapacity
    split
    · rename_i hdense
      obtain ⟨hok, hfail⟩ := hwell.rehash alloc (t.hashShift - 1)
      cases hresult : (rehash hash alloc (t.hashShift - 1) t).2 with
      | false => exact ⟨by rw [hfail hresult]; exact h, by rintro ⟨⟩, fun _ => hfail hresult⟩
      | true =>
        obtain ⟨hlarge, hrehashed⟩ := hok hresult
        have hdouble : bucketsOf (t.hashShift - 1) = 2 * bucketsOf t.hashShift := by
          rw [bucketsOf_eq (by omega), Nat.sub_add_cancel (by omega)]
        have hgrown : t.dataCapacity < capacityOf (bucketsOf (t.hashShift - 1)) := by
          rw [hcapacity, hdouble, capacityOf, capacityOf]
          omega
        refine ⟨h.rehashed hinit hrehashed (by omega) (by omega), fun _ => ?_, by rintro ⟨⟩⟩
        rw [hrehashed.length_eq, hrehashed.capacity]
        omega
    · rename_i hsparse
      obtain ⟨hok, hfail⟩ := hwell.rehash alloc t.hashShift
      cases hresult : (rehash hash alloc t.hashShift t).2 with
      | false => exact ⟨by rw [hfail hresult]; exact h, by rintro ⟨⟩, fun _ => hfail hresult⟩
      | true =>
        obtain ⟨-, hrehashed⟩ := hok hresult
        refine ⟨h.rehashed hinit hrehashed (by omega) hshift, fun _ => ?_, by rintro ⟨⟩⟩
        rw [hrehashed.length_eq, hrehashed.capacity]
        omega
  · exact ⟨h, fun _ => by dsimp only; omega, by rintro ⟨⟩⟩

/-- Shrinking keeps what a table stands for. -/
theorem shrinkIfSparse (h : Refines hash t m) (hinit : m.initialized = true) (alloc : ℕ → Bool) :
    Refines hash (shrinkIfSparse hash alloc t).1 m ∧
      ((shrinkIfSparse hash alloc t).2 = false → (shrinkIfSparse hash alloc t).1 = t) := by
  obtain ⟨table, htable, hwell⟩ := h.wellFormed hinit
  have hle := hwell.length_le
  have hcapacity := hwell.capacity
  have hshift := hwell.shift
  unfold OrderedHashTable.shrinkIfSparse
  split
  · rename_i hsparse
    obtain ⟨hok, hfail⟩ := hwell.rehash alloc (t.hashShift + 1)
    cases hresult : (rehash hash alloc (t.hashShift + 1) t).2 with
    | false => exact ⟨by rw [hfail hresult]; exact h, fun _ => hfail hresult⟩
    | true =>
      obtain ⟨-, hrehashed⟩ := hok hresult
      have hhalf := bucketsOf_eq hshift.2
      have hmany : t.hashShift ≠ 31 := by
        intro heq
        simp [hashBuckets, heq, initialBuckets, initialBucketsLog2, bucketsOf,
          hashNumberSizeBits] at hsparse
      rw [hashBuckets, hhalf, capacityOf] at hcapacity
      refine ⟨h.rehashed hinit hrehashed ?_ (by omega), by rintro ⟨⟩⟩
      rw [capacityOf]
      omega
  · exact ⟨h, by rintro ⟨⟩⟩

/-- Adding an entry at the end, with room for it. -/
theorem addEntry (h : Refines hash t m) (hinit : m.initialized = true) {table : ℕ → Option ℕ}
    (hwell : WellFormed hash t table) (hroom : t.data.length < t.dataCapacity) (e : K × V)
    (hvalid : OrderedMap.Valid
      { m with entries := m.entries ++ [(m.clock, e)], clock := m.clock + 1 }) :
    Refines hash (addEntry hash t table e)
      { m with entries := m.entries ++ [(m.clock, e)], clock := m.clock + 1 } := by
  refine ⟨fun _ => ⟨_, rfl, hwell.hashed.appendEntry (s := (table, t.data)) e, ?_, hwell.capacity, ?_,
    hwell.shift⟩, fun hinit' => by simp [hinit] at hinit', ?_, h.cursors, fun r hr => (h.rangeAt r hr).append _, hvalid⟩
  · simp [OrderedHashTable.addEntry, appendData, hwell.count]
  · simp only [OrderedHashTable.addEntry, appendData, List.length_append, List.length_singleton]
    omega
  · simp [OrderedHashTable.addEntry, appendData, h.entries]

/-- Emptying the entry at a place. -/
theorem emptyEntry (h : Refines hash t m) {pos : ℕ} {e : K × V}
    (he : elementAt t.data pos = some e)
    (hvalid : (m.erase (live (t.data.take pos)).length).Valid) :
    Refines hash (emptyEntry pos t) (m.erase (live (t.data.take pos)).length) := by
  have hlive := live_modify_none he
  have hlength := congrArg List.length hlive
  have hlt : (live (t.data.take pos)).length < (live t.data).length :=
    (List.getElem?_eq_some_iff.mp (live_getElem? he)).choose
  rw [List.length_eraseIdx_of_lt hlt] at hlength
  refine ⟨fun hinit => ?_, fun hinit => ?_, ?_, ?_, fun r hr => ?_, hvalid⟩
  · obtain ⟨table, htable, hwell⟩ := h.wellFormed hinit
    refine ⟨table, htable, hwell.hashed.modify_none pos, ?_, hwell.capacity, ?_, hwell.shift⟩
    · simp only [OrderedHashTable.emptyEntry, hlength, hwell.count]
    · simpa [OrderedHashTable.emptyEntry] using hwell.length_le
  · obtain ⟨hdata, hranges⟩ := h.nothing hinit
    simp [hdata, elementAt] at he
  · simp only [OrderedHashTable.emptyEntry, OrderedMap.erase, hlive, h.entries, List.eraseIdx_map]
  · simp only [OrderedHashTable.emptyEntry, OrderedMap.erase, ← h.cursors, List.map_map]
    apply List.map_congr_left
    intro r hr
    simp only [Function.comp_apply, ((h.rangeAt r hr).onRemove he).2]
  · obtain ⟨r', hr', rfl⟩ := List.mem_map.mp hr
    exact ((h.rangeAt r' hr').onRemove he).1

/-- Replacing the entry at a place, in a vector and hash table that keep all other entries. -/
theorem replace (h : Refines hash t m) {i : ℕ} {e e' : K × V} (he : elementAt t.data i = some e)
    {hashTable : Option (ℕ → Option ℕ)} {data' : List (Data K V)}
    (hhashed : ∃ table, hashTable = some table ∧ Hashed hash t.hashShift table data')
    (helements : ∀ n, elementAt data' n =
      elementAt (t.data.modify i fun d => { d with element := some e' }) n)
    (hlength : data'.length = t.data.length)
    (hvalid : (m.replace (live (t.data.take i)).length e').Valid) :
    Refines hash { t with hashTable := hashTable, data := data' }
      (m.replace (live (t.data.take i)).length e') := by
  have hlength' : data'.length =
      (t.data.modify i fun d => { d with element := some e' }).length := by simpa using hlength
  have hlive : live data' = (live t.data).set (live (t.data.take i)).length e' := by
    rw [← live_modify_some he, ← List.take_length (l := data'),
      live_take_congr (map_element_congr helements hlength'), hlength', List.take_length]
  refine ⟨fun hinit => ?_, fun hinit => ?_, ?_, h.cursors, fun r hr => ?_, hvalid⟩
  · obtain ⟨table, -, hwell⟩ := h.wellFormed hinit
    obtain ⟨table, htable, hhashed⟩ := hhashed
    refine ⟨table, htable, hhashed, ?_, hwell.capacity, ?_, hwell.shift⟩
    · simp only [hlive, List.length_set, hwell.count]
    · simpa only [hlength] using hwell.length_le
  · obtain ⟨hdata, -⟩ := h.nothing hinit
    simp [hdata, elementAt] at he
  · simp only [hlive, h.entries, OrderedMap.replace]
    rw [← OrderedMap.modify_const]
    exact (OrderedMap.map_modify (h := fun _ => e') (fun _ => rfl) _ _).symm
  · exact ((h.rangeAt r hr).modify_some he e').congr helements hlength'

/-- A clear with entries fails and changes nothing, or leaves an initial table. -/
theorem clear_cases (alloc : ℕ → Bool) (hdata : t.data.length ≠ 0) :
    OrderedHashTable.clear alloc t = (t, false) ∨
      OrderedHashTable.clear alloc t = (⟨some fun _ => none, [], capacityOf initialBuckets, 0,
        hashNumberSizeBits - initialBucketsLog2, t.ranges.map fun r => (r.1, r.2.onClear)⟩, true) := by
  rw [OrderedHashTable.clear, if_neg hdata]
  cases h0 : alloc 0 <;> cases h1 : alloc 1 <;> simp [OrderedHashTable.init, h0, h1]

/-- Creating, moving or destroying ranges. -/
theorem withRanges (h : Refines hash t m) (hinit : m.initialized = true) {ranges : List (ℕ × Range)}
    {cursors : List (ℕ × ℕ)} (hcursors : ranges.map (fun r => (r.1, r.2.count)) = cursors)
    (hrangeAt : ∀ r ∈ ranges, RangeAt t.data r.2)
    (hvalid : OrderedMap.Valid { m with cursors := cursors }) :
    Refines hash { t with ranges := ranges } { m with cursors := cursors } := by
  refine ⟨fun _ => ?_, fun hinit' => by simp [hinit] at hinit', h.entries, hcursors, hrangeAt, hvalid⟩
  obtain ⟨table, htable, hwell⟩ := h.wellFormed hinit
  exact ⟨table, htable, hwell.hashed, hwell.count, hwell.capacity, hwell.length_le, hwell.shift⟩

/-- Changing the key of the front of a range to one of the same bucket. -/
theorem rekeyFront_same {r : Range} {k : K} {e : K × V} (he : elementAt t.data r.i = some e)
    (hsame : bucketFor hash t.hashShift k = bucketFor hash t.hashShift e.1) :
    OrderedHashTable.rekeyFront hash r k t =
      some { t with data := t.data.modify r.i fun d => { d with element := some (k, e.2) } } :=
  Option.bind_eq_some_iff.mpr ⟨e, he, if_pos hsame⟩

/-- Changing the key of the front of a range moves it to its new bucket. -/
theorem rekeyFront_moved {r : Range} {k : K} {e : K × V} {table table' : ℕ → Option ℕ}
    {data' : List (Data K V)} (he : elementAt t.data r.i = some e) (htable : t.hashTable = some table)
    (hne : bucketFor hash t.hashShift k ≠ bucketFor hash t.hashShift e.1)
    (hmove : moveEntry table (t.data.modify r.i fun d => { d with element := some (k, e.2) }) r.i
      (bucketFor hash t.hashShift e.1) (bucketFor hash t.hashShift k) = some (table', data')) :
    OrderedHashTable.rekeyFront hash r k t =
      some { t with hashTable := some table', data := data' } := by
  refine Option.bind_eq_some_iff.mpr ⟨e, he, ?_⟩
  refine (if_neg hne).trans ?_
  refine Option.bind_eq_some_iff.mpr ⟨table, htable, ?_⟩
  exact Option.bind_eq_some_iff.mpr ⟨(table', data'), hmove, rfl⟩

section Calls

variable [DecidableEq K]

/-- Looking a key up finds the place of the map's entry with it. -/
theorem lookup (h : Refines hash t m) (hinit : m.initialized = true) (l : K) :
    ∃ r, lookup hash t l = some r ∧
      (r = none ∧ m.find l = none ∨
        ∃ i v s, r = some i ∧ elementAt t.data i = some (l, v) ∧
          m.find l = some (live (t.data.take i)).length ∧
          m.entries[(live (t.data.take i)).length]? = some (s, l, v)) := by
  obtain ⟨table, htable, hwell⟩ := h.wellFormed hinit
  obtain ⟨r, hr, hfound, hnone⟩ := hwell.lookup htable l
  refine ⟨r, hr, ?_⟩
  cases r with
  | none =>
    left
    refine ⟨rfl, ?_⟩
    rw [OrderedMap.find, List.findIdx?_eq_none_iff]
    intro e he
    have hlive : e.2 ∈ live t.data := h.entries ▸ List.mem_map_of_mem he
    obtain ⟨i, hi⟩ := mem_live.mp hlive
    simpa using hnone rfl i e.2 hi
  | some i =>
    right
    obtain ⟨v, hv⟩ := hfound i rfl
    obtain ⟨s, hs⟩ := h.entry_at hv
    exact ⟨i, v, s, rfl, hv, OrderedMap.find_eq h.valid.keys_nodup hs, hs⟩

/-- Initializing a table. -/
theorem init (h : Refines hash t m) (alloc : ℕ → Bool) (hallowed : m.Allowed .init) :
    Stepped hash t m .init (init alloc t).1 (.ok (init alloc t).2) := by
  have hinit : m.initialized = false := hallowed
  obtain ⟨hdata, hranges⟩ := h.nothing hinit
  unfold OrderedHashTable.init
  split
  · exact ⟨rfl, h, fun _ => rfl⟩
  · split
    · exact ⟨rfl, h, fun _ => rfl⟩
    · have hentries : m.entries = [] := by
        have hlength := h.length_eq
        rw [hdata] at hlength
        exact List.eq_nil_of_length_eq_zero hlength.symm
      refine ⟨rfl, ⟨fun _ => ⟨_, rfl, wellFormed_initial _⟩, nofun, ?_, h.cursors, fun r hr => ?_,
        h.valid.step true hallowed⟩, nofun⟩
      · simp [OrderedMap.step, Output.success, hentries]
      · simp [hranges] at hr

/-- Putting an entry. -/
theorem put (h : Refines hash t m) (alloc : ℕ → Bool) (e : K × V)
    (hallowed : m.Allowed (.put e)) : ∃ r, put hash alloc e t = some r ∧
      Stepped hash t m (.put e) r.1 (.ok r.2) := by
  have hinit : m.initialized = true := hallowed
  have hvalid := fun ok => h.valid.step ok hallowed
  obtain ⟨r, hr, ⟨rfl, hfind⟩ | ⟨i, v, s, rfl, he, hfind, -⟩⟩ := h.lookup hinit e.1
  · obtain ⟨hrefines, hroom, hfail⟩ := h.makeRoom hinit alloc
    obtain ⟨table, htable, hwell⟩ := hrefines.wellFormed hinit
    simp only [OrderedMap.step, hfind] at hvalid
    cases hresult : (OrderedHashTable.makeRoom hash alloc t).2 with
    | false =>
      refine ⟨(t, false), by simp [OrderedHashTable.put, hr, hresult, hfail hresult], ?_, ?_,
        fun _ => rfl⟩
      · simp [OrderedMap.step, hfind, Output.success, Output.map]
      · simpa [OrderedMap.step, hfind, Output.success] using h
    | true =>
      refine ⟨(OrderedHashTable.addEntry hash (OrderedHashTable.makeRoom hash alloc t).1 table e, true),
        by simp [OrderedHashTable.put, hr, hresult, htable], ?_, ?_, by rintro ⟨⟩⟩
      · simp [OrderedMap.step, hfind, Output.success, Output.map]
      · simpa [OrderedMap.step, hfind, Output.success] using
          hrefines.addEntry hinit hwell (hroom hresult) e (hvalid true)
  · obtain ⟨table, htable, hwell⟩ := h.wellFormed hinit
    simp only [OrderedMap.step, hfind] at hvalid
    refine ⟨({ t with data := t.data.modify i fun d => { d with element := some e } }, true),
      by simp [OrderedHashTable.put, hr], ?_, ?_, by rintro ⟨⟩⟩
    · simp [OrderedMap.step, hfind, Output.map]
    · simp only [OrderedMap.step, hfind]
      exact h.replace he ⟨table, htable, hwell.hashed.modify he rfl⟩ (fun _ => rfl) (by simp)
        (hvalid true)

/-- Removing an entry. -/
theorem remove (h : Refines hash t m) (alloc : ℕ → Bool) (l : K)
    (hallowed : m.Allowed (.remove l)) : ∃ r, remove hash alloc l t = some r ∧
      Stepped hash t m (.remove l) r.1 (.removed r.2.1 r.2.2) := by
  have hinit : m.initialized = true := hallowed
  have hvalid := fun ok => h.valid.step ok hallowed
  obtain ⟨r, hr, ⟨rfl, hfind⟩ | ⟨i, v, s, rfl, he, hfind, -⟩⟩ := h.lookup hinit l
  · refine ⟨(t, true, false), by simp [OrderedHashTable.remove, hr], ?_, ?_, nofun⟩
    · simp [OrderedMap.step, hfind, Output.map]
    · simpa [OrderedMap.step, hfind] using h
  · simp only [OrderedMap.step, hfind] at hvalid
    obtain ⟨hrefines, hfail⟩ := (h.emptyEntry he (hvalid true)).shrinkIfSparse hinit alloc
    refine ⟨((OrderedHashTable.shrinkIfSparse hash alloc (OrderedHashTable.emptyEntry i t)).1,
      (OrderedHashTable.shrinkIfSparse hash alloc (OrderedHashTable.emptyEntry i t)).2, true),
      by simp [OrderedHashTable.remove, hr], ?_, ?_, fun hok => ?_⟩
    · simp [OrderedMap.step, hfind, Output.map, Output.success]
    · simpa only [OrderedMap.step, hfind] using hrefines
    · simpa only [afterFailure, hr] using hfail hok

/-- Clearing a table. -/
theorem clear (h : Refines hash t m) (alloc : ℕ → Bool) (hallowed : m.Allowed .clear) :
    Stepped hash t m .clear (clear alloc t).1 (.ok (clear alloc t).2) := by
  have hinit : m.initialized = true := hallowed
  have hvalid := h.valid.step true hallowed
  by_cases hempty : t.data.length = 0
  · rw [OrderedHashTable.clear, if_pos hempty]
    have hdata := List.eq_nil_of_length_eq_zero hempty
    have hentries : m.entries = [] := by
      have hlength := h.length_eq
      rw [hdata] at hlength
      exact List.eq_nil_of_length_eq_zero hlength.symm
    have hcursors : m.cursors.map (fun c => (c.1, 0)) = m.cursors := by
      conv_rhs => rw [← List.map_id m.cursors]
      apply List.map_congr_left
      intro c hc
      have hle := h.valid.cursor_le c hc
      rw [hentries, List.length_nil, Nat.le_zero] at hle
      exact Prod.ext rfl hle.symm
    refine ⟨rfl, ?_, by rintro ⟨⟩⟩
    simpa [OrderedMap.step, Output.success, hcursors, ← hentries] using h
  · rcases clear_cases alloc hempty with hfail | hok
    · rw [hfail]
      exact ⟨rfl, h, fun _ => rfl⟩
    · rw [hok]
      refine ⟨rfl, ⟨fun _ => ⟨_, rfl, wellFormed_initial _⟩, fun hinit' => ?_, rfl, ?_, fun r hr => ?_,
        hvalid⟩, by rintro ⟨⟩⟩
      · simp [OrderedMap.step, Output.success, hinit] at hinit'
      · simp [OrderedMap.step, Output.success, ← h.cursors, Range.onClear]
      · obtain ⟨r', -, rfl⟩ := List.mem_map.mp hr
        exact ⟨Nat.le_refl _, rfl, Or.inl rfl⟩

/-- Changing the key of the front of a range. -/
theorem rekeyFront (h : Refines hash t m) {id : ℕ} {k : K}
    (hallowed : m.Allowed (.rekeyFront id k)) : ∃ r t', t.rangeOf id = some r ∧
      rekeyFront hash r k t = some t' ∧ Stepped hash t m (.rekeyFront id k) t' .done := by
  have hvalid := h.valid.step true hallowed
  obtain ⟨hinit, p, ⟨s, e⟩, hp, hentry, -⟩ := hallowed
  obtain ⟨table, htable, hwell⟩ := h.wellFormed hinit
  obtain ⟨r, hr, rfl, hrange⟩ := h.range_of hp
  have he : elementAt t.data r.i = some e := by rw [h.front_eq hrange, hentry]; rfl
  have hstep : (m.step true (.rekeyFront id k)).1 =
      m.replace (live (t.data.take r.i)).length (k, e.2) := by
    simp only [OrderedMap.step, hp, Option.getD_some, OrderedMap.replace, ← hrange.count_eq]
    congr 1
    apply List.ext_getElem?
    intro n
    rw [List.getElem?_modify, List.getElem?_modify]
    by_cases hn : r.count = n
    · simp [← hn, hentry]
    · simp [hn]
  rw [hstep] at hvalid
  by_cases hsame : bucketFor hash t.hashShift k = bucketFor hash t.hashShift e.1
  · refine ⟨r, { t with data := t.data.modify r.i fun d => { d with element := some (k, e.2) } }, hr,
      rekeyFront_same he hsame, rfl, ?_, by rintro ⟨⟩⟩
    change Refines hash _ (m.step true (.rekeyFront id k)).1
    rw [hstep]
    exact h.replace he ⟨table, htable, hwell.hashed.modify he hsame⟩ (fun _ => rfl) (by simp) hvalid
  · have hbucket : bucketFor hash t.hashShift ((k, e.2) : K × V).1 = bucketFor hash t.hashShift k := rfl
    obtain ⟨table', data', hmove, hhashed, helements, hlength⟩ := hwell.hashed.moveEntry he hbucket
    refine ⟨r, { t with hashTable := some table', data := data' }, hr,
      rekeyFront_moved he htable hsame hmove, rfl, ?_, by rintro ⟨⟩⟩
    change Refines hash _ (m.step true (.rekeyFront id k)).1
    rw [hstep]
    exact h.replace he ⟨table', rfl, hhashed⟩ helements hlength hvalid

/-- Replacing an entry by one with another key. -/
theorem rekeyOneEntry (h : Refines hash t m) {current newKey : K} {element : K × V}
    (hallowed : m.Allowed (.rekeyOneEntry current newKey element)) :
    ∃ t', rekeyOneEntry hash current newKey element t = some t' ∧
      Stepped hash t m (.rekeyOneEntry current newKey element) t' .done := by
  have hvalid := h.valid.step true hallowed
  obtain ⟨hinit, rfl, -⟩ := hallowed
  obtain ⟨table, htable, hwell⟩ := h.wellFormed hinit
  by_cases hsame : current = element.1
  · refine ⟨t, by simp [OrderedHashTable.rekeyOneEntry, hsame], ?_, ?_, nofun⟩
    · simp [OrderedMap.step, hsame, Output.map]
    · simpa [OrderedMap.step, hsame] using h
  · obtain ⟨r, hr, ⟨rfl, hfind⟩ | ⟨i, v, s, rfl, he, hfind, -⟩⟩ := h.lookup hinit current
    · refine ⟨t, by simp [OrderedHashTable.rekeyOneEntry, hsame, hr], ?_, ?_, nofun⟩
      · simp [OrderedMap.step, hsame, hfind, Output.map]
      · simpa [OrderedMap.step, hsame, hfind] using h
    · obtain ⟨table', data', hmove, hhashed, helements, hlength⟩ :=
        hwell.hashed.moveEntry he (Eq.refl (bucketFor hash t.hashShift element.1))
      refine ⟨{ t with hashTable := some table', data := data' },
        by simp [OrderedHashTable.rekeyOneEntry, hsame, hr, htable, hmove], ?_, ?_, nofun⟩
      · simp [OrderedMap.step, hsame, hfind, Output.map]
      · simp only [OrderedMap.step, hsame, hfind, if_false] at hvalid ⊢
        exact h.replace he ⟨table', rfl, hhashed⟩ helements hlength hvalid

/-- Every allowed call. -/
theorem step (h : Refines hash t m) (alloc : ℕ → Bool) {op : Op K V} (hallowed : m.Allowed op) :
    ∃ t' out, step hash alloc t op = some (t', out) ∧ Stepped hash t m op t' out := by
  cases op with
  | init => exact ⟨_, _, rfl, h.init alloc hallowed⟩
  | has l =>
    have hinit : m.initialized = true := hallowed
    obtain ⟨r, hr, ⟨rfl, hfind⟩ | ⟨i, v, s, rfl, -, -, hentry⟩⟩ := h.lookup hinit l
    · refine ⟨t, .answer false, by simp [OrderedHashTable.step, hr], ?_, h, by rintro ⟨⟩⟩
      simp [OrderedMap.step, Output.map, OrderedMap.not_mem_of_find hfind]
    · have hmem : l ∈ m.keys := List.mem_map_of_mem (List.mem_of_getElem? hentry)
      refine ⟨t, .answer true, by simp [OrderedHashTable.step, hr], ?_, h, by rintro ⟨⟩⟩
      simp [OrderedMap.step, Output.map, hmem]
  | get l =>
    have hinit : m.initialized = true := hallowed
    obtain ⟨r, hr, ⟨rfl, hfind⟩ | ⟨i, v, s, rfl, he, hfind, hentry⟩⟩ := h.lookup hinit l
    · refine ⟨t, .entry none, by simp [OrderedHashTable.step, hr], ?_, h, by rintro ⟨⟩⟩
      simp [OrderedMap.step, Output.map, hfind]
    · refine ⟨t, .entry (some (l, v)), by simp [OrderedHashTable.step, hr, he], ?_, h, by rintro ⟨⟩⟩
      simp [OrderedMap.step, Output.map, hfind, hentry]
  | count =>
    obtain ⟨table, -, hwell⟩ := h.wellFormed hallowed
    refine ⟨t, .number t.liveCount, rfl, ?_, h, by rintro ⟨⟩⟩
    rw [hwell.count, h.length_eq]
    rfl
  | put e =>
    obtain ⟨r, hr, hstepped⟩ := h.put alloc e hallowed
    exact ⟨r.1, .ok r.2, by simp [OrderedHashTable.step, hr], hstepped⟩
  | remove l =>
    obtain ⟨r, hr, hstepped⟩ := h.remove alloc l hallowed
    exact ⟨r.1, .removed r.2.1 r.2.2, by simp [OrderedHashTable.step, hr], hstepped⟩
  | clear => exact ⟨_, _, rfl, h.clear alloc hallowed⟩
  | all id =>
    have hinit : m.initialized = true := hallowed.1
    refine ⟨_, _, rfl, rfl, h.withRanges hinit ?_ ?_ (h.valid.step true hallowed), by rintro ⟨⟩⟩
    · simp [← h.cursors, Range.init]
    · exact List.forall_mem_cons.mpr ⟨RangeAt.init, h.rangeAt⟩
  | copy source id =>
    have hvalid := h.valid.step true hallowed
    obtain ⟨hinit, hsource, -⟩ := hallowed
    obtain ⟨p, hp⟩ := Option.ne_none_iff_exists'.mp hsource
    obtain ⟨r, hr, rfl, hrange⟩ := h.range_of hp
    refine ⟨{ t with ranges := (id, r) :: t.ranges }, .done, by simp [OrderedHashTable.step, hr], rfl,
      h.withRanges hinit ?_ ?_ hvalid, by rintro ⟨⟩⟩
    · simp [← h.cursors, hp]
    · exact List.forall_mem_cons.mpr ⟨hrange, h.rangeAt⟩
  | destroy id =>
    have hinit : m.initialized = true := hallowed.1
    refine ⟨_, _, rfl, rfl, h.withRanges hinit ?_ (fun r hr => ?_) (h.valid.step true hallowed), by rintro ⟨⟩⟩
    · rw [← h.cursors, List.filter_map]
      rfl
    · exact h.rangeAt r (List.mem_filter.mp hr).1
  | empty id =>
    obtain ⟨p, hp⟩ := Option.ne_none_iff_exists'.mp hallowed.2
    obtain ⟨r, hr, rfl, hrange⟩ := h.range_of hp
    refine ⟨t, .answer (decide (t.data.length ≤ r.i)), by simp [OrderedHashTable.step, hr], ?_, h,
      by rintro ⟨⟩⟩
    simp [OrderedMap.step, Output.map, hp, hrange.empty_iff, h.length_eq]
  | popFront id =>
    have hvalid := h.valid.step true hallowed
    obtain ⟨hinit, p, hp, hlt⟩ := hallowed
    obtain ⟨r, hr, rfl, hrange⟩ := h.range_of hp
    have he : elementAt t.data r.i = some m.entries[r.count].2 := by
      rw [h.front_eq hrange, List.getElem?_eq_getElem hlt, Option.map_some]
    refine ⟨t.setRange id (r.popFront t.data), .entry (some m.entries[r.count].2),
      by simp [OrderedHashTable.step, hr, he], ?_, h.withRanges hinit ?_ (fun r' hr' => ?_) hvalid,
      by rintro ⟨⟩⟩
    · simp [OrderedMap.step, Output.map, hp, List.getElem?_eq_getElem hlt]
    · simp only [← h.cursors, List.map_map, hp, Option.getD_some]
      apply List.map_congr_left
      intro r' _
      by_cases hid : r'.1 = id <;> simp [hid, Range.popFront]
    · obtain ⟨r'', hr'', rfl⟩ := List.mem_map.mp hr'
      by_cases hid : r''.1 = id
      · rw [if_pos hid]
        exact hrange.popFront he
      · rw [if_neg hid]
        exact h.rangeAt r'' hr''
  | rekeyFront id k =>
    obtain ⟨r, t', hr, ht', hstepped⟩ := h.rekeyFront hallowed
    exact ⟨t', .done, by simp [OrderedHashTable.step, hr, ht'], hstepped⟩
  | rekeyOneEntry current newKey element =>
    obtain ⟨t', ht', hstepped⟩ := h.rekeyOneEntry hallowed
    exact ⟨t', .done, by simp [OrderedHashTable.step, ht'], hstepped⟩

end Calls

end Refines

end OrderedHashTable

end SpiderMonkey.Builtin
