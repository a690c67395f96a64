import SpiderMonkey.Builtin.OrderedHashTableRefines

/-!
# Runs of the table

A history lists the calls since the construction of a table with what they returned. Along every
history of allowed calls the table stands for the map after the same calls, so that the facts about
cursors over the map hold of ranges over the table.
-/

namespace SpiderMonkey.Builtin

namespace OrderedHashTable

variable {K V : Type}

/-- The calls of a history, with whether they reported success. -/
def callsOf (history : List (Op K V × Output (K × V))) : List (Op K V × Bool) :=
  history.map fun c => (c.1, c.2.success)

/-- The entries a range returned over a history. -/
def returned (id : ℕ) (history : List (Op K V × Output (K × V))) : List (K × V) :=
  history.flatMap fun c => OrderedMap.yieldOf id c.1 c.2

/-- The calls of a history in two parts. -/
theorem callsOf_append (before after : List (Op K V × Output (K × V))) :
    callsOf (before ++ after) = callsOf before ++ callsOf after := List.map_append

variable [DecidableEq K]

/-- The map that a history leads to. -/
def mapOf (history : List (Op K V × Output (K × V))) : OrderedMap K V :=
  OrderedMap.start.run (callsOf history)

/-- The tables after a history of allowed calls, any of whose allocations may have failed. The
constructor leaves the counters undefined. -/
inductive Reaches (hash : K → UInt32) :
    List (Op K V × Output (K × V)) → OrderedHashTable K V → Prop
  | start (dataCapacity liveCount hashShift : ℕ) :
    Reaches hash [] ⟨none, [], dataCapacity, liveCount, hashShift, []⟩
  | call {history : List (Op K V × Output (K × V))} {t t' : OrderedHashTable K V} {op : Op K V}
      {out : Output (K × V)} (alloc : ℕ → Bool) : Reaches hash history t →
    (mapOf history).Allowed op → step hash alloc t op = some (t', out) →
      Reaches hash (history ++ [(op, out)]) t'

variable {hash : K → UInt32} {history : List (Op K V × Output (K × V))} {t : OrderedHashTable K V}

/-- The map after a history in two parts. -/
theorem mapOf_append (before after : List (Op K V × Output (K × V))) :
    mapOf (before ++ after) = (mapOf before).run (callsOf after) := by
  rw [mapOf, callsOf_append, OrderedMap.run, List.foldl_append]
  rfl

/-- A table that is reached stands for the map of its history. -/
theorem Reaches.refines (h : Reaches hash history t) : Refines hash t (mapOf history) := by
  induction h with
  | start dataCapacity liveCount hashShift =>
    exact ⟨nofun, fun _ => ⟨rfl, rfl⟩, rfl, rfl, by simp, OrderedMap.valid_start⟩
  | call alloc _ hallowed hstep ih =>
    obtain ⟨t', out, hstep', hstepped⟩ := ih.step alloc hallowed
    obtain ⟨rfl, rfl⟩ := Prod.mk.inj (Option.some.inj (hstep.symm.trans hstep'))
    rw [mapOf_append]
    exact hstepped.refines

/-- The calls of a history that is reached were allowed. -/
theorem Reaches.allowedRun (h : Reaches hash history t) :
    (OrderedMap.start : OrderedMap K V).AllowedRun (callsOf history) := by
  induction h with
  | start dataCapacity liveCount hashShift => trivial
  | call alloc _ hallowed _ ih =>
    rw [callsOf_append, OrderedMap.allowedRun_append]
    exact ⟨ih, hallowed, trivial⟩

/-- The calls of the second part of a history are allowed after the first, which leads to a valid
map. -/
theorem Reaches.allowed_after {before after : List (Op K V × Output (K × V))}
    (h : Reaches hash (before ++ after) t) :
    (mapOf before).Valid ∧ (mapOf before).AllowedRun (callsOf after) := by
  have hallowed := h.allowedRun
  rw [callsOf_append, OrderedMap.allowedRun_append] at hallowed
  exact ⟨OrderedMap.valid_start.run hallowed.1, hallowed.2⟩

/-- What a range returned over a history is what its cursor returned over the same calls. -/
theorem Reaches.returned_eq (h : Reaches hash history t) (id : ℕ)
    {before after : List (Op K V × Output (K × V))} (hhistory : history = before ++ after) :
    returned id after = ((mapOf before).yields id (callsOf after)).map Prod.snd := by
  induction h generalizing after with
  | start dataCapacity liveCount hashShift =>
    obtain ⟨-, rfl⟩ := List.append_eq_nil_iff.mp hhistory.symm
    rfl
  | @call history t t' op out alloc hreach hallowed hstep ih =>
    rcases List.eq_nil_or_concat after with rfl | ⟨after, last, rfl⟩
    · rfl
    · rw [List.concat_eq_append, ← List.append_assoc] at hhistory
      obtain ⟨rfl, hlast⟩ := List.append_inj' hhistory rfl
      obtain rfl := (List.singleton_inj.mp hlast).symm
      obtain ⟨t'', out', hstep', hstepped⟩ := hreach.refines.step alloc hallowed
      obtain ⟨rfl, rfl⟩ := Prod.mk.inj (Option.some.inj (hstep.symm.trans hstep'))
      have hreturned : returned id [(op, out)] =
          (((mapOf (before ++ after)).yields id (callsOf [(op, out)])).map Prod.snd) := by
        simp only [returned, callsOf, OrderedMap.yields, List.flatMap_cons, List.flatMap_nil,
          List.map_cons, List.map_nil, List.append_nil, ← OrderedMap.yieldOf_map]
        rw [← hstepped.output]
      rw [List.concat_eq_append, callsOf_append, OrderedMap.yields_append, List.map_append,
        ← mapOf_append, ← hreturned, ← ih rfl]
      simp [returned]

/-- Iteration neither skips nor repeats. At any time of any history of allowed calls, each range
has counted the nonempty entries left of its index and stands at a nonempty entry or at the end, so
that its front is the live entry at its count, and advancing it never fails.

A range that lives through the second part of the history returned entries of increasing insertion
time in that part. It returned no entry but those that were ahead of it or were added later; of the
entries it has passed at the end and that are still there, it returned those that it had not passed
at the start; and it returned none of those that are still ahead of it. -/
theorem ranges_neither_skip_nor_repeat {before after : List (Op K V × Output (K × V))}
    (hreach : Reaches hash (before ++ after) t) :
    (∀ r ∈ t.ranges, r.2.count = (live (t.data.take r.2.i)).length ∧
      (r.2.i = t.data.length ∨ (elementAt t.data r.2.i).isSome) ∧
      elementAt t.data r.2.i = (live t.data)[r.2.count]?) ∧
    live t.data = (mapOf (before ++ after)).entries.map Prod.snd ∧
    t.ranges.map (fun r => (r.1, r.2.count)) = (mapOf (before ++ after)).cursors ∧
    (∀ alloc op, (mapOf (before ++ after)).Allowed op → ∃ t' out, step hash alloc t op = some (t', out)) ∧
    ∀ id p entries, (mapOf before).cursorOf id = some p → (∀ c ∈ after, c.1 ≠ .destroy id) →
      entries = (mapOf before).yields id (callsOf after) → ∃ r, t.rangeOf id = some r ∧
        returned id after = entries.map Prod.snd ∧ (entries.map Prod.fst).Pairwise (· < ·) ∧
        (∀ e ∈ entries, e.1 ∈ (mapOf before).stamps.drop p ∨ (mapOf before).clock ≤ e.1) ∧
        (∀ s ∈ (mapOf (before ++ after)).stamps.take r.count,
          s ∈ entries.map Prod.fst ↔ s ∉ (mapOf before).stamps.take p) ∧
        (∀ s ∈ (mapOf (before ++ after)).stamps.drop r.count, s ∉ entries.map Prod.fst) := by
  have hrefines := hreach.refines
  refine ⟨fun r hr => ?_, hrefines.entries, hrefines.cursors, fun alloc op hallowed => ?_,
    fun id p entries hp hlive hentries => ?_⟩
  · have hrange := hrefines.rangeAt r hr
    exact ⟨hrange.count_eq, hrange.at_live, hrange.front_eq⟩
  · obtain ⟨t', out, hstep, -⟩ := hrefines.step alloc hallowed
    exact ⟨t', out, hstep⟩
  · obtain ⟨hvalid, hallowed⟩ := hreach.allowed_after
    obtain ⟨p', hp', hyielded⟩ := (OrderedMap.Yielded.refl (mapOf before) p).run hvalid hp hallowed
      fun c hc => by
        obtain ⟨c', hc', rfl⟩ := List.mem_map.mp hc
        exact hlive c' hc'
    rw [← mapOf_append] at hp' hyielded
    rw [List.nil_append, ← hentries] at hyielded
    obtain ⟨r, hr, rfl, -⟩ := hrefines.range_of hp'
    refine ⟨r, hr, hentries ▸ hreach.returned_eq id rfl, hyielded.increasing, hyielded.ahead_before,
      fun s hs => ⟨fun hreturned hpassed => ?_, fun hpassed => ?_⟩, fun s hs hreturned => ?_⟩
    · obtain ⟨e, he, rfl⟩ := List.mem_map.mp hreturned
      rcases hyielded.ahead_before e he with hahead | hlater
      · have hdisjoint := (List.take_append_drop p (mapOf before).stamps).symm ▸ hvalid.sorted
        have hlt := (List.pairwise_append.mp hdisjoint).2.2 e.1 hpassed e.1 hahead
        exact Nat.lt_irrefl _ hlt
      · have hlt := hvalid.stamp_lt e.1 (List.mem_of_mem_take hpassed)
        omega
    · exact (hyielded.passed s hs).resolve_right hpassed
    · obtain ⟨e, he, rfl⟩ := List.mem_map.mp hreturned
      exact Nat.lt_irrefl _ ((hyielded.ahead e.1 hs).1 e he)

/-- A run in which an entry is returned, another one is added and the first one is removed. -/
theorem reaches_popFront_put_remove : ∃ t : OrderedHashTable ℕ ℕ, Reaches (fun k => UInt32.ofNat k)
    ([(.init, .ok true), (.all 7, .done), (.put (1, 10), .ok true)] ++
      [(.popFront 7, .entry (some (1, 10))), (.put (2, 20), .ok true), (.remove 1, .removed true true)])
    t := by
  refine ⟨_, .call (fun _ => true) (.call (fun _ => true) (.call (fun _ => true) (.call (fun _ => true)
    (.call (fun _ => true) (.call (fun _ => true) (.start 0 0 0) ?_ rfl) ?_ rfl) ?_ rfl) ?_ rfl) ?_ rfl)
    ?_ rfl⟩
  all_goals simp [mapOf, callsOf, OrderedMap.run, OrderedMap.start, OrderedMap.Allowed,
    OrderedMap.step, OrderedMap.cursorOf, OrderedMap.find, Output.success]

/-- In that run the range stands at the entry that is left. -/
theorem ranges_neither_skip_nor_repeat_removed : ∃ t : OrderedHashTable ℕ ℕ,
    live t.data = [(2, 20)] ∧ (∃ r, t.rangeOf 7 = some r) ∧
      ∀ r ∈ t.ranges, elementAt t.data r.2.i = some (2, 20) := by
  obtain ⟨t, hreach⟩ := reaches_popFront_put_remove
  obtain ⟨hranges, hlive, hcursors, -, hreturned⟩ := ranges_neither_skip_nor_repeat hreach
  obtain ⟨r, hr, -⟩ := hreturned 7 0 _ rfl (by simp) rfl
  have hlive' : live t.data = [(2, 20)] := hlive
  have hcursors' : t.ranges.map (fun r => (r.1, r.2.count)) = [(7, 0)] := hcursors
  refine ⟨t, hlive', ⟨r, hr⟩, fun r hr => ?_⟩
  have hcursor := List.mem_map_of_mem (f := fun r : ℕ × Range => (r.1, r.2.count)) hr
  rw [hcursors', List.mem_singleton, Prod.mk.injEq] at hcursor
  rw [(hranges r hr).2.2, hcursor.2, hlive']
  rfl

/-- The table refines an insertion-ordered map. After any history of allowed calls, whichever
allocations failed: the live entries in order are the map's entries; every next allowed call returns
what it returns on the map, and if it reports a failed allocation it leaves the table as it was,
except that a removal is done without shrinking. In an initialized table the count is the number of
entries, each nonempty entry is on the chain of its bucket and no other, chains descend, and the
capacity is what the buckets call for and is not exceeded: after making room there is room, and
after a removal all live entries fit. -/
theorem refines_insertion_ordered_map (hreach : Reaches hash history t) :
    live t.data = (mapOf history).entries.map Prod.snd ∧
    (∀ alloc op, (mapOf history).Allowed op → ∃ t' out, step hash alloc t op = some (t', out) ∧
      out = ((mapOf history).step out.success op).2.map Prod.snd ∧
      live t'.data = ((mapOf history).step out.success op).1.entries.map Prod.snd ∧
      (out.success = false → t' = afterFailure hash t op)) ∧
    ((mapOf history).initialized = true →
      t.liveCount = (mapOf history).entries.length ∧
      (∃ (table : ℕ → Option ℕ) (chain : ℕ → List ℕ), t.hashTable = some table ∧
        (∀ b, Linked (chainOf t.data) (table b) (chain b) ∧ (chain b).Pairwise fun i j => j < i) ∧
        ∀ i e b, elementAt t.data i = some e →
          (i ∈ chain b ↔ b = bucketFor hash t.hashShift e.1)) ∧
      (∀ k, bucketFor hash t.hashShift k < t.hashBuckets) ∧
      t.dataCapacity = capacityOf t.hashBuckets ∧
      t.data.length ≤ t.dataCapacity ∧
      (∀ alloc, (makeRoom hash alloc t).2 = true →
        (makeRoom hash alloc t).1.data.length < (makeRoom hash alloc t).1.dataCapacity) ∧
      (∀ alloc l r, remove hash alloc l t = some r →
        (live r.1.data).length ≤ r.1.data.length ∧ r.1.data.length ≤ r.1.dataCapacity)) := by
  have hrefines := hreach.refines
  refine ⟨hrefines.entries, fun alloc op hallowed => ?_, fun hinit => ?_⟩
  · obtain ⟨t', out, hstep, hstepped⟩ := hrefines.step alloc hallowed
    exact ⟨t', out, hstep, hstepped.output, hstepped.refines.entries, hstepped.failure⟩
  · obtain ⟨table, htable, hwell⟩ := hrefines.wellFormed hinit
    obtain ⟨home, hchains, hhome⟩ := hwell.hashed
    choose chain hlinked hsorted hmem using hchains.chain
    refine ⟨hwell.count.trans hrefines.length_eq, ⟨table, chain, htable,
      fun b => ⟨hlinked b, hsorted b⟩, fun i e b he => ?_⟩,
      fun k => bucketFor_lt (by have hshift := hwell.shift; omega) k, hwell.capacity, hwell.length_le,
      fun alloc => (hrefines.makeRoom hinit alloc).2.1, fun alloc l r hr => ?_⟩
    · rw [hmem, hhome i e he, Option.some.injEq, eq_comm]
    · obtain ⟨r', hr', hstepped⟩ := hrefines.remove alloc l hinit
      obtain rfl := Option.some.inj (hr.symm.trans hr')
      have hinit' : ((mapOf history).step r.2.1 (.remove l)).1.initialized = true := by
        simp only [OrderedMap.step]
        split <;> exact hinit
      obtain ⟨table', -, hwell'⟩ := hstepped.refines.wellFormed hinit'
      exact ⟨length_live_le _, hwell'.length_le⟩

/-- After that run the other key is found. -/
theorem refines_insertion_ordered_map_removed : ∃ t : OrderedHashTable ℕ ℕ,
    t.liveCount = 1 ∧ ∃ t', step (fun k => UInt32.ofNat k) (fun _ => false) t (.get 2) =
      some (t', .entry (some (2, 20))) := by
  obtain ⟨t, hreach⟩ := reaches_popFront_put_remove
  obtain ⟨-, hstep, htable⟩ := refines_insertion_ordered_map hreach
  obtain ⟨t', out, ht', hout, -⟩ := hstep (fun _ => false) (.get 2) rfl
  refine ⟨t, (htable rfl).1, t', ?_⟩
  rw [ht', hout]
  rfl

end OrderedHashTable

end SpiderMonkey.Builtin
