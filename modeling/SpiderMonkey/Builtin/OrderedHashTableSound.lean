import SpiderMonkey.Builtin.OrderedHashChains
import SpiderMonkey.Builtin.OrderedHashEntries
import SpiderMonkey.Builtin.OrderedMap
import Mathlib.Algebra.Order.Group.Nat
import Mathlib.Data.Nat.Bitwise

/-!
# The table refines an insertion-ordered map

A table stands for the ordered map of its live entries, and a range for the cursor at its count.
Every allowed call returns what it returns on the map, whichever allocations fail.
-/

namespace SpiderMonkey.Builtin

namespace OrderedHashTable

variable {K V : Type} (hash : K → UInt32)

/-- Descending chains in which every live entry is on the chain of its bucket. -/
def Hashed (hashShift : ℕ) (table : ℕ → Option ℕ) (data : List (Data K V)) : Prop :=
  ∃ home, Chains table data home ∧
    ∀ i e, elementAt data i = some e → home i = some (bucketFor hash hashShift e.1)

/-- The invariant of an initialized table. -/
structure WellFormed (t : OrderedHashTable K V) (table : ℕ → Option ℕ) : Prop where
  hashed : Hashed hash t.hashShift table t.data
  count : t.liveCount = (live t.data).length
  capacity : t.dataCapacity = capacityOf t.hashBuckets
  length_le : t.data.length ≤ t.dataCapacity
  shift : 2 ≤ t.hashShift ∧ t.hashShift ≤ 31

section Lookup

variable [DecidableEq K] {hash} {t : OrderedHashTable K V} {table : ℕ → Option ℕ} {data : List (Data K V)}

/-- Searching a chain finds an entry with the key if there is one. -/
theorem lookupChain_spec (l : K) : ∀ (chain : List ℕ) (fuel : ℕ) (start : Option ℕ),
    chain.length ≤ fuel → (∀ i ∈ chain, i < data.length) → Linked (chainOf data) start chain →
      ∃ r, lookupChain data l fuel start = some r ∧
        (∀ i, r = some i → ∃ v, elementAt data i = some (l, v)) ∧
        (r = none → ∀ i ∈ chain, ∀ e, elementAt data i = some e → e.1 ≠ l) := by
  intro chain
  induction chain with
  | nil =>
    rintro fuel start _ _ rfl
    exact ⟨none, by cases fuel <;> rfl, by rintro i ⟨⟩, by simp⟩
  | cons i chain ih =>
    rintro fuel start hfuel hlt ⟨rfl, hchain⟩
    obtain ⟨fuel, rfl⟩ := Nat.exists_eq_add_of_lt (show 0 < fuel by simp at hfuel; omega)
    have hi := hlt i (by simp)
    rw [Nat.zero_add, lookupChain, List.getElem?_eq_getElem hi]
    have helement : elementAt data i = data[i].element := by
      simp [elementAt, List.getElem?_eq_getElem hi]
    by_cases hmatch : data[i].element.any fun element => element.1 = l
    · refine ⟨some i, by simp [hmatch], fun j hj => ?_, by rintro ⟨⟩⟩
      obtain rfl := Option.some.inj hj
      obtain ⟨e, he, hkey⟩ := (Option.any_eq_true _ _).mp hmatch
      exact ⟨e.2, by rw [helement, he, ← of_decide_eq_true hkey]⟩
    · obtain ⟨r, hr, hfound, hnone⟩ := ih fuel data[i].chain (by simp at hfuel; omega)
        (fun j hj => hlt j (List.mem_cons_of_mem _ hj)) (by simpa [chainOf, hi] using hchain)
      refine ⟨r, by simp [hmatch, hr], hfound, fun hr' j hj e he => ?_⟩
      rcases List.mem_cons.mp hj with rfl | hj
      · intro hkey
        rw [helement] at he
        simp [he, hkey] at hmatch
      · exact hnone hr' j hj e he

/-- Looking a key up finds the entry with it if there is one. -/
theorem WellFormed.lookup (h : WellFormed hash t table) (htable : t.hashTable = some table)
    (l : K) : ∃ r, lookup hash t l = some r ∧
      (∀ i, r = some i → ∃ v, elementAt t.data i = some (l, v)) ∧
      (r = none → ∀ i e, elementAt t.data i = some e → e.1 ≠ l) := by
  obtain ⟨home, hchains, hhome⟩ := h.hashed
  obtain ⟨chain, hlinked, hsorted, hmem⟩ := hchains.chain (bucketFor hash t.hashShift l)
  obtain ⟨r, hr, hfound, hnone⟩ := lookupChain_spec l chain t.data.length _
    (hchains.length_le hsorted hmem) (fun i hi => hchains.lt i _ ((hmem i).mp hi)) hlinked
  refine ⟨r, by rw [OrderedHashTable.lookup, htable]; exact hr, hfound, fun hr' i e he hkey => ?_⟩
  exact hnone hr' i ((hmem i).mpr (hkey ▸ hhome i e he)) e he hkey

end Lookup

section Append

variable {hash} {hashShift : ℕ}

/-- A new entry at the head of its chain. -/
theorem Hashed.appendEntry {s : (ℕ → Option ℕ) × List (Data K V)} (h : Hashed hash hashShift s.1 s.2)
    (e : K × V) : Hashed hash hashShift (appendData hash hashShift s e).1
      (appendData hash hashShift s e).2 := by
  obtain ⟨home, hchains, hhome⟩ := h
  have hold (i : ℕ) (hi : i < s.2.length) :
      chainOf (appendData hash hashShift s e).2 i = chainOf s.2 i := by
    simp [OrderedHashTable.appendData, chainOf, List.getElem?_append_left hi]
  refine ⟨Function.update home s.2.length (some (bucketFor hash hashShift e.1)),
    ⟨fun b => ?_, fun i b hi => ?_⟩, fun i e' he' => ?_⟩
  · obtain ⟨l, hl, hsorted, hmem⟩ := hchains.chain b
    have hlt (i : ℕ) (hi : i ∈ l) : i < s.2.length := hchains.lt i b ((hmem i).mp hi)
    have hl' := hl.congr fun i hi => hold i (hlt i hi)
    by_cases hb : b = bucketFor hash hashShift e.1
    · subst hb
      refine ⟨s.2.length :: l, ⟨by simp [OrderedHashTable.appendData], ?_⟩,
        List.pairwise_cons.mpr ⟨hlt, hsorted⟩, fun i => ?_⟩
      · have hnew : chainOf (OrderedHashTable.appendData hash hashShift s e).2 s.2.length =
            s.1 (bucketFor hash hashShift e.1) := by
          simp [OrderedHashTable.appendData, chainOf]
        rw [hnew]
        exact hl'
      · rcases eq_or_ne i s.2.length with rfl | hne
        · simp
        · rw [Function.update_of_ne hne, ← hmem i]
          simp [hne]
    · refine ⟨l, ?_, hsorted, fun i => ?_⟩
      · have htable : (OrderedHashTable.appendData hash hashShift s e).1 b = s.1 b :=
          Function.update_of_ne hb _ _
        rw [htable]
        exact hl'
      · rcases eq_or_ne i s.2.length with rfl | hne
        · have hnot : s.2.length ∉ l := fun hi => Nat.lt_irrefl _ (hlt _ hi)
          simp [hnot, Ne.symm hb]
        · rw [Function.update_of_ne hne, hmem i]
  · simp only [OrderedHashTable.appendData, List.length_append, List.length_singleton]
    rcases eq_or_ne i s.2.length with rfl | hne
    · omega
    · rw [Function.update_of_ne hne] at hi
      have hlt := hchains.lt i b hi
      omega
  · rcases eq_or_ne i s.2.length with rfl | hne
    · obtain rfl : e = e' := by simpa [OrderedHashTable.appendData, elementAt] using he'
      simp
    · rw [Function.update_of_ne hne]
      refine hhome i e' ?_
      have hlt := elementAt_lt he'
      simp only [OrderedHashTable.appendData, List.length_append, List.length_singleton] at hlt
      rw [← he', elementAt, elementAt, OrderedHashTable.appendData,
        List.getElem?_append_left (by omega)]

variable (hash hashShift) in
/-- An empty vector is hashed. -/
theorem hashed_empty : Hashed hash hashShift (fun _ => none) ([] : List (Data K V)) :=
  ⟨_, chains_empty, by simp [elementAt]⟩

/-- An initial table is well formed. -/
theorem wellFormed_initial (ranges : List (ℕ × Range)) : WellFormed hash
    (⟨some fun _ => none, [], capacityOf initialBuckets, 0, hashNumberSizeBits - initialBucketsLog2,
      ranges⟩ : OrderedHashTable K V) fun _ => none := by
  refine ⟨hashed_empty _ _, rfl, ?_, Nat.zero_le _, ?_⟩
  · simp [hashBuckets, bucketsOf, initialBuckets, initialBucketsLog2, hashNumberSizeBits]
  · simp [initialBucketsLog2, hashNumberSizeBits]

/-- Entries appended one after the other. -/
theorem foldl_appendData (entries : List (K × V)) : ∀ s : (ℕ → Option ℕ) × List (Data K V),
    Hashed hash hashShift s.1 s.2 →
      Hashed hash hashShift (entries.foldl (appendData hash hashShift) s).1
        (entries.foldl (appendData hash hashShift) s).2 ∧
      (entries.foldl (appendData hash hashShift) s).2.map Data.element =
        s.2.map Data.element ++ entries.map some := by
  induction entries with
  | nil => exact fun s h => ⟨h, by simp⟩
  | cons e entries ih =>
    intro s h
    obtain ⟨hhashed, helements⟩ := ih _ (h.appendEntry e)
    refine ⟨hhashed, ?_⟩
    rw [List.foldl_cons, helements]
    simp [OrderedHashTable.appendData]

variable (hash hashShift) in
/-- Compacting in place writes what appending the live entries to an empty vector gives. -/
theorem foldl_compactStep (data : List (Data K V)) : ∀ n ≤ data.length,
    ∃ rest, (List.range n).foldl (compactStep hash hashShift) (fun _ => none, data, 0) =
      (((live (data.take n)).foldl (appendData hash hashShift) (fun _ => none, [])).1,
        ((live (data.take n)).foldl (appendData hash hashShift) (fun _ => none, [])).2 ++ rest,
        (live (data.take n)).length) ∧
      (∀ i, n ≤ i → (((live (data.take n)).foldl (appendData hash hashShift)
        (fun _ => none, [])).2 ++ rest)[i]? = data[i]?) := by
  intro n
  induction n with
  | zero => exact fun _ => ⟨data, by simp, by simp⟩
  | succ n ih =>
    intro hn
    obtain ⟨rest, hfold, hrest⟩ := ih (by omega)
    have hempty : Hashed hash hashShift ((fun _ => none, []) : (ℕ → Option ℕ) × List (Data K V)).1
        ((fun _ => none, []) : (ℕ → Option ℕ) × List (Data K V)).2 := hashed_empty _ _
    have helements := (foldl_appendData (live (data.take n)) _ hempty).2
    have hlength := congrArg List.length helements
    simp only [List.map_nil, List.nil_append, List.length_map] at hlength
    have hle := length_live_le (data.take n)
    rw [List.length_take] at hle
    have htake : live (data.take (n + 1)) = live (data.take n) ++ (elementAt data n).toList := by
      rw [List.take_add_one, live_append, elementAt]
      cases data[n]? <;> simp
    generalize hs : (live (data.take n)).foldl (appendData hash hashShift) (fun _ => none, []) = s at *
    have hn' := hrest n le_rfl
    have helement : elementAt (s.2 ++ rest) n = elementAt data n := by
      rw [elementAt, elementAt, hn']
    rw [List.range_succ, List.foldl_append, hfold, htake, List.foldl_append, hs]
    simp only [List.foldl_cons, List.foldl_nil, compactStep, helement]
    cases hdata : elementAt data n with
    | none => exact ⟨rest, by simp, fun i hi => by simpa using hrest i (by omega)⟩
    | some e =>
      cases rest with
      | nil =>
        rw [List.append_nil, List.getElem?_eq_none (by omega), eq_comm, List.getElem?_eq_none_iff]
          at hn'
        omega
      | cons d rest =>
        refine ⟨rest, ?_, fun i hi => ?_⟩
        · simp [appendData, ← hlength]
        · have hsame : (s.2 ++ d :: rest)[i]? = data[i]? := hrest i (by omega)
          rw [List.getElem?_append_right (by omega)] at hsame
          simp only [Option.toList_some, List.foldl_cons, List.foldl_nil, appendData,
            List.append_assoc, List.singleton_append]
          rw [List.getElem?_append_right (by omega), ← hsame, List.getElem?_cons, List.getElem?_cons]
          simp [show i - s.2.length ≠ 0 by omega]

end Append

section Rekey

variable {hash} {hashShift : ℕ} {table : ℕ → Option ℕ} {data : List (Data K V)} {i : ℕ} {e e' : K × V}

/-- The chain pointers do not depend on the elements. -/
theorem chainOf_modify_element (data : List (Data K V)) (i j : ℕ) (element : Option (K × V)) :
    chainOf (data.modify i fun d => { d with element := element }) j = chainOf data j := by
  rw [chainOf, chainOf, List.getElem?_modify]
  by_cases hi : i = j <;> cases data[j]? <;> simp [hi]

/-- An entry replaced by one of the same bucket. -/
theorem Hashed.modify (h : Hashed hash hashShift table data) (he : elementAt data i = some e)
    (hbucket : bucketFor hash hashShift e'.1 = bucketFor hash hashShift e.1) :
    Hashed hash hashShift table (data.modify i fun d => { d with element := some e' }) := by
  obtain ⟨home, hchains, hhome⟩ := h
  refine ⟨home, hchains.congr (chainOf_modify_element data i · _) (by simp), fun n e'' he'' => ?_⟩
  rw [elementAt_modify] at he''
  split at he''
  · rename_i hn
    obtain rfl := Option.some.inj he''
    rw [hbucket, ← hn.1]
    exact hhome i e he
  · exact hhome n e'' he''

/-- An entry without its element. -/
theorem Hashed.modify_none (h : Hashed hash hashShift table data) (i : ℕ) :
    Hashed hash hashShift table (data.modify i fun d => { d with element := none }) := by
  obtain ⟨home, hchains, hhome⟩ := h
  refine ⟨home, hchains.congr (chainOf_modify_element data i · _) (by simp), fun n e' he' => ?_⟩
  rw [elementAt_modify] at he'
  split at he'
  · simp at he'
  · exact hhome n e' he'

/-- An entry replaced by one of another bucket and moved there. -/
theorem Hashed.moveEntry (h : Hashed hash hashShift table data) (he : elementAt data i = some e)
    {newHash : ℕ} (hbucket : bucketFor hash hashShift e'.1 = newHash) :
    ∃ table' data', moveEntry table (data.modify i fun d => { d with element := some e' }) i
        (bucketFor hash hashShift e.1) newHash = some (table', data') ∧
      Hashed hash hashShift table' data' ∧
      (∀ n, elementAt data' n = elementAt (data.modify i fun d => { d with element := some e' }) n) ∧
      data'.length = data.length := by
  obtain ⟨home, hchains, hhome⟩ := h
  have hchains' : Chains table (data.modify i fun d => { d with element := some e' }) home :=
    hchains.congr (chainOf_modify_element data i · _) (by simp)
  obtain ⟨table', data', hmove, hmoved, helements, hlength⟩ :=
    hchains'.moveEntry newHash (hhome i e he)
  refine ⟨table', data', hmove, ⟨_, hmoved, fun n e'' he'' => ?_⟩, helements, by simpa using hlength⟩
  rw [helements, elementAt_modify] at he''
  split at he''
  · rename_i hn
    obtain rfl := Option.some.inj he''
    rw [← hn.1, Function.update_self, hbucket]
  · rename_i hn
    have hne : n ≠ i := by
      rintro rfl
      exact hn ⟨rfl, elementAt_lt he''⟩
    rw [Function.update_of_ne hne]
    exact hhome n e'' he''

end Rekey

section Rehash

variable {hash} {t : OrderedHashTable K V} {table : ℕ → Option ℕ}

/-- A smaller shift doubles the buckets. -/
theorem bucketsOf_eq {hashShift : ℕ} (h : hashShift ≤ 31) :
    bucketsOf hashShift = 2 * bucketsOf (hashShift + 1) := by
  rw [bucketsOf, bucketsOf, ← pow_succ', hashNumberSizeBits]
  congr 1
  omega

/-- A hash code is in range of the buckets. -/
theorem bucketFor_lt {hashShift : ℕ} (h : hashShift ≤ 32) (k : K) :
    bucketFor hash hashShift k < bucketsOf hashShift := by
  rw [bucketFor, bucketsOf, Nat.shiftRight_eq_div_pow, Nat.div_lt_iff_lt_mul (Nat.two_pow_pos _),
    ← pow_add, hashNumberSizeBits, Nat.sub_add_cancel h]
  exact (scrambleHashCode (hash k)).toNat_lt

/-- There is a bucket. -/
theorem bucketsOf_pos (hashShift : ℕ) : 0 < bucketsOf hashShift := Nat.two_pow_pos _

/-- What a rehash does that reports no failure: the vector holds the live entries and no empty
places. -/
structure Rehashed (hash : K → UInt32) (newHashShift : ℕ) (t t' : OrderedHashTable K V) : Prop where
  hashed : ∃ table, t'.hashTable = some table ∧ Hashed hash newHashShift table t'.data
  elements : t'.data.map Data.element = (live t.data).map some
  ranges : t'.ranges = t.ranges.map fun r => (r.1, r.2.onCompact)
  liveCount : t'.liveCount = t.liveCount
  hashShift : t'.hashShift = newHashShift
  capacity : t'.dataCapacity = capacityOf (bucketsOf newHashShift)

/-- Rehashing in place. -/
theorem WellFormed.rehashInPlace (h : WellFormed hash t table) :
    Rehashed hash t.hashShift t (rehashInPlace hash t) := by
  obtain ⟨rest, hfold, -⟩ := foldl_compactStep hash t.hashShift t.data t.data.length le_rfl
  rw [List.take_length] at hfold
  obtain ⟨hhashed, helements⟩ := foldl_appendData (live t.data)
    (fun _ => none, []) (hashed_empty hash t.hashShift)
  rw [List.map_nil, List.nil_append] at helements
  have hlength := congrArg List.length helements
  rw [List.length_map, List.length_map, ← h.count] at hlength
  have hdata : (OrderedHashTable.rehashInPlace hash t).data =
      ((live t.data).foldl (appendData hash t.hashShift) (fun _ => none, [])).2 := by
    simp only [OrderedHashTable.rehashInPlace, compacted, hfold]
    rw [← hlength, List.take_left']
    rfl
  refine ⟨⟨_, rfl, ?_⟩, ?_, rfl, rfl, rfl, h.capacity⟩
  · rw [hdata, hfold]
    exact hhashed
  · rw [hdata, helements]

/-- A rehash either moves all live entries or changes nothing. -/
theorem WellFormed.rehash (h : WellFormed hash t table) (alloc : ℕ → Bool) (newHashShift : ℕ) :
    ((rehash hash alloc newHashShift t).2 = true → 2 ≤ newHashShift ∧
        Rehashed hash newHashShift t (rehash hash alloc newHashShift t).1) ∧
      ((rehash hash alloc newHashShift t).2 = false → (rehash hash alloc newHashShift t).1 = t) := by
  unfold OrderedHashTable.rehash
  split
  · rename_i hsame
    subst hsame
    exact ⟨fun _ => ⟨h.shift.1, h.rehashInPlace⟩, nofun⟩
  · split
    · exact ⟨nofun, fun _ => rfl⟩
    · rename_i hlarge
      simp only [Bool.or_eq_true, decide_eq_true_eq, not_or, Nat.not_lt] at hlarge
      split
      · exact ⟨nofun, fun _ => rfl⟩
      · obtain ⟨hhashed, helements⟩ := foldl_appendData (live t.data)
          (fun _ => none, []) (hashed_empty hash newHashShift)
        exact ⟨fun _ => ⟨hlarge.1, ⟨_, rfl, hhashed⟩, helements, rfl, rfl, rfl, rfl⟩, nofun⟩

/-- A rehashed vector is as long as there are live entries. -/
theorem Rehashed.length_eq {newHashShift : ℕ} {t' : OrderedHashTable K V}
    (h : Rehashed hash newHashShift t t') : t'.data.length = (live t.data).length := by
  simpa using congrArg List.length h.elements

/-- A rehashed table is well formed if the live entries fit. -/
theorem Rehashed.wellFormed {newHashShift : ℕ} {t' : OrderedHashTable K V}
    (h : Rehashed hash newHashShift t t') (hcount : t.liveCount = (live t.data).length)
    (hfit : t.liveCount ≤ capacityOf (bucketsOf newHashShift))
    (hshift : 2 ≤ newHashShift ∧ newHashShift ≤ 31) :
    ∃ table', t'.hashTable = some table' ∧ WellFormed hash t' table' := by
  obtain ⟨table', htable, hhashed⟩ := h.hashed
  refine ⟨table', htable, h.hashShift ▸ hhashed, ?_, ?_, ?_, h.hashShift ▸ hshift⟩
  · rw [h.liveCount, hcount, live_of_dense h.elements]
  · rw [h.capacity, hashBuckets, h.hashShift]
  · rw [h.length_eq, ← hcount, h.capacity]
    exact hfit

end Rehash

end OrderedHashTable

end SpiderMonkey.Builtin
