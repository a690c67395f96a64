import SpiderMonkey.Vm.TransferMap

/-!
# Who owns transferred contents

`discard` goes three words on after an entry that the map owns, but one word on after any other entry.
So it takes the right words for entries just when no entry but the last is without contents that the
map owns, and then it frees the right contents. Otherwise it takes a pointer for an entry; on the
reader's side it then misses contents that the map still owns.
-/

namespace SpiderMonkey.Vm.StructuredClone

/-- An entry: who owns the contents, and the contents. -/
abbrev MapEntry := UInt32 × UInt64

/-- The words of entries. -/
def mapWords (entries : List MapEntry) : List UInt64 :=
  entries.flatMap fun entry => [pairToUInt64 sctagTransferMapEntry entry.1, entry.2, 0]

/-- An entry with contents that the map owns. -/
def owned (content : UInt64) : MapEntry := (sctagTmAllocData, content)

/-- An entry whose contents a new buffer owns. -/
def unowned (content : UInt64) : MapEntry := (sctagTmUnowned, content)

/-- An entry whose contents have not been stolen. -/
def unfilled : MapEntry := (sctagTmUnfilled, 0)

/-- Three words an entry. -/
theorem length_mapWords (entries : List MapEntry) : (mapWords entries).length = 3 * entries.length := by
  induction entries with
  | nil => rfl
  | cons entry entries ih =>
    change (mapWords entries).length + 3 = 3 * (entries.length + 1)
    rw [ih, Nat.mul_succ]

/-- The words of an entry and those that follow. -/
theorem mapWords_cons (entry : MapEntry) (entries : List MapEntry) :
    mapWords (entry :: entries) =
      pairToUInt64 sctagTransferMapEntry entry.1 :: entry.2 :: 0 :: mapWords entries := rfl

/-- The words of two lists of entries. -/
theorem mapWords_append (entries entries' : List MapEntry) :
    mapWords (entries ++ entries') = mapWords entries ++ mapWords entries' := List.flatMap_append

/-- Words at the start of the rest of some data. -/
theorem getElem?_append_add (pre rest : List UInt64) (i : ℕ) :
    (pre ++ rest)[pre.length + i]? = rest[i]? := by
  rw [List.getElem?_append_right (Nat.le_add_right _ _), Nat.add_sub_cancel_left]

/-- A word is set at the start of the rest of some data. -/
theorem set_append_add (pre rest : List UInt64) (i : ℕ) (u : UInt64) :
    (pre ++ rest).set (pre.length + i) u = pre ++ rest.set i u := by
  rw [List.set_append_right _ _ (Nat.le_add_right _ _), Nat.add_sub_cancel_left]

/-- The first word of the rest of some data is set. -/
theorem set_append_length (pre rest : List UInt64) (u : UInt64) :
    (pre ++ rest).set pre.length u = pre ++ rest.set 0 u := set_append_add pre rest 0 u

/-- The contents that are stolen, and the entries that result. The induction is on the buffers; the
entries before are part of what precedes. -/
theorem stealEntries_eq (failsAt : ℕ) (contents : List UInt64) (tail : List UInt64) :
    ∀ (i : ℕ) (pre stolen : List UInt64), i ≤ failsAt →
      let j := min (failsAt - i) contents.length
      ∃ point, stealEntries failsAt contents i
          ⟨pre ++ (mapWords (List.replicate contents.length unfilled) ++ tail), pre.length, stolen⟩ =
        (decide (i + contents.length ≤ failsAt),
          ⟨pre ++ (mapWords ((contents.take j).map owned ++
            List.replicate (contents.length - j) unfilled) ++ tail), point,
            stolen ++ contents.take j⟩) := by
  induction contents with
  | nil =>
    intro i pre stolen hi
    refine ⟨pre.length, ?_⟩
    simp [stealEntries, mapWords, hi]
  | cons content contents ih =>
    intro i pre stolen hi j
    by_cases hfail : i = failsAt
    · have hj : j = 0 := by
        change min (failsAt - i) _ = 0
        omega
      refine ⟨pre.length, ?_⟩
      rw [stealEntries, if_pos hfail, hj]
      have hok : ¬ i + (content :: contents).length ≤ failsAt := by
        rw [List.length_cons]
        omega
      rw [decide_eq_false hok, List.take_zero, List.map_nil, List.nil_append, List.append_nil,
        Nat.sub_zero]
    · have hlt : i + 1 ≤ failsAt := by omega
      obtain ⟨point, hrest⟩ := ih (i + 1)
        (pre ++ [pairToUInt64 sctagTransferMapEntry sctagTmAllocData, content, 0])
        (stolen ++ [content]) hlt
      have hj : j = min (failsAt - (i + 1)) contents.length + 1 := by
        change min (failsAt - i) (contents.length + 1) = _
        omega
      refine ⟨point, ?_⟩
      rw [stealEntries, if_neg hfail]
      have hset (tail' : List UInt64) :
          (((pre ++ (mapWords (List.replicate (contents.length + 1) unfilled) ++ tail')).set pre.length
              (pairToUInt64 sctagTransferMapEntry sctagTmAllocData)).set (pre.length + 1) content).set
              (pre.length + 2) 0 =
            (pre ++ [pairToUInt64 sctagTransferMapEntry sctagTmAllocData, content, 0]) ++
              (mapWords (List.replicate contents.length unfilled) ++ tail') := by
        rw [set_append_length, set_append_add, set_append_add, List.append_assoc, List.replicate_succ,
          mapWords_cons]
        rfl
      have hpoint : pre.length + 3 =
          (pre ++ [pairToUInt64 sctagTransferMapEntry sctagTmAllocData, content, 0]).length := by
        rw [List.length_append]
        rfl
      rw [List.length_cons]
      dsimp only
      rw [hset, hpoint, hrest, hj, List.take_succ_cons, List.map_cons, List.cons_append, mapWords_cons]
      have hok : i + 1 + contents.length ≤ failsAt ↔ i + (contents.length + 1) ≤ failsAt := by omega
      have hleft : contents.length + 1 - (min (failsAt - (i + 1)) contents.length + 1) =
          contents.length - min (failsAt - (i + 1)) contents.length := by omega
      simp only [hok, hleft, List.append_assoc, List.cons_append, List.nil_append]
      rfl

/-- The number of entries that are marked. -/
def marked (failsAt : ℕ) (fault : EntryFault) (n : ℕ) : ℕ :=
  if failsAt < n then if fault = .append then failsAt + 1 else failsAt else n

/-- An entry that is read is marked. -/
theorem marked_succ (failsAt : ℕ) (fault : EntryFault) (n : ℕ) :
    marked (failsAt + 1) fault (n + 1) = marked failsAt fault n + 1 := by
  unfold marked
  by_cases hlt : failsAt < n
  · rw [if_pos hlt, if_pos (Nat.succ_lt_succ hlt)]
    split <;> rfl
  · rw [if_neg hlt, if_neg (fun h => hlt (Nat.lt_of_succ_lt_succ h))]

/-- What reading an entry does. -/
theorem readEntry_eq (fault : Option EntryFault) (pre handed tail : List UInt64) (content : UInt64) :
    readEntry fault ⟨pre ++ (mapWords [owned content] ++ tail), pre.length, handed⟩ =
      if fault = some .read ∨ fault = some .create then
        (false, ⟨pre ++ (mapWords [owned content] ++ tail), pre.length, handed⟩)
      else (decide (fault ≠ some .append),
        ⟨pre ++ (mapWords [unowned content] ++ tail), pre.length + 3, handed ++ [content]⟩) := by
  have hfirst : (pre ++ (mapWords [owned content] ++ tail))[pre.length]? =
      some (pairToUInt64 sctagTransferMapEntry sctagTmAllocData) := getElem?_append_add pre _ 0
  have hsecond : (pre ++ (mapWords [owned content] ++ tail))[pre.length + 1]? = some content :=
    getElem?_append_add pre _ 1
  have hthird : (pre ++ (mapWords [owned content] ++ tail))[pre.length + 2]? = some 0 :=
    getElem?_append_add pre _ 2
  rw [readEntry]
  by_cases hread : fault = some .read
  · rw [if_pos hread, if_pos (Or.inl hread)]
  · rw [if_neg hread]
    dsimp only
    rw [hfirst, hsecond, hthird]
    dsimp only
    by_cases hcreate : fault = some .create
    · rw [if_pos hcreate, if_pos (Or.inr hcreate)]
    · rw [if_neg hcreate, if_neg (not_or.mpr ⟨hread, hcreate⟩), set_append_length]
      rfl

/-- The entries that are read, and those that result. The induction is on the entries; those before
are part of what precedes. -/
theorem readEntries_eq (failsAt : ℕ) (fault : EntryFault) (contents tail : List UInt64) :
    ∀ (i : ℕ) (pre handed : List UInt64), i ≤ failsAt →
      let m := marked (failsAt - i) fault contents.length
      ∃ point, readEntries failsAt fault contents.length i
          ⟨pre ++ (mapWords (contents.map owned) ++ tail), pre.length, handed⟩ =
        (decide (i + contents.length ≤ failsAt),
          ⟨pre ++ (mapWords ((contents.take m).map unowned ++ (contents.drop m).map owned) ++ tail),
            point, handed ++ contents.take m⟩) := by
  induction contents with
  | nil =>
    intro i pre handed hi m
    refine ⟨pre.length, ?_⟩
    simp [readEntries, mapWords, hi]
  | cons content contents ih =>
    intro i pre handed hi m
    have hsplit (e : MapEntry) (es : List MapEntry) :
        pre ++ (mapWords (e :: es) ++ tail) = pre ++ (mapWords [e] ++ (mapWords es ++ tail)) := rfl
    rw [List.length_cons, readEntries, List.map_cons, hsplit, readEntry_eq]
    by_cases hfail : i = failsAt
    · have hm : m = if fault = .append then 1 else 0 := by
        change marked (failsAt - i) fault (contents.length + 1) = _
        rw [hfail, Nat.sub_self, marked, if_pos (Nat.succ_pos _)]
      have hok : ¬ i + (contents.length + 1) ≤ failsAt := by omega
      rw [if_pos hfail, hm, decide_eq_false hok]
      cases fault with
      | read => exact ⟨pre.length, by simp [mapWords]⟩
      | create => exact ⟨pre.length, by simp [mapWords]⟩
      | append => exact ⟨pre.length + 3, by simp [mapWords]⟩
    · have hlt : i + 1 ≤ failsAt := by omega
      obtain ⟨point, hrest⟩ := ih (i + 1) (pre ++ mapWords [unowned content]) (handed ++ [content]) hlt
      have hm : m = marked (failsAt - (i + 1)) fault contents.length + 1 := by
        change marked (failsAt - i) fault (contents.length + 1) = _
        have hpred : failsAt - i = failsAt - (i + 1) + 1 := by omega
        rw [hpred, marked_succ]
      have hpoint : pre.length + 3 = (pre ++ mapWords [unowned content]).length := by
        rw [List.length_append]
        rfl
      have hok : i + 1 + contents.length ≤ failsAt ↔ i + (contents.length + 1) ≤ failsAt := by omega
      refine ⟨point, ?_⟩
      rw [if_neg hfail, if_neg (by simp)]
      rw [decide_eq_true (by simp), ← List.append_assoc pre, hpoint]
      change readEntries failsAt fault contents.length (i + 1) _ = _
      rw [hrest, hm, List.take_succ_cons, List.drop_succ_cons, List.map_cons, List.cons_append]
      simp only [hok, List.append_assoc, List.cons_append, List.nil_append]
      rfl

/-- What is left when entries have been taken for entries: those that the map owns are freed. -/
theorem discardEntries_owned (contents tail : List UInt64) (n : ℕ) :
    ∀ pre : List UInt64,
      discardEntries (pre ++ (mapWords (contents.map owned) ++ tail)) (contents.length + n) pre.length =
        (discardEntries (pre ++ (mapWords (contents.map owned) ++ tail)) n
          (pre.length + 3 * contents.length)).map fun rest =>
            (contents.zipIdx.map fun (content, i) => ⟨pre.length + 3 * i, some content⟩) ++ rest := by
  induction contents with
  | nil =>
    intro pre
    simp
  | cons content contents ih =>
    intro pre
    have hrest := ih (pre ++ mapWords [owned content])
    have hwords : pre ++ (mapWords ((content :: contents).map owned) ++ tail) =
        pre ++ mapWords [owned content] ++ (mapWords (contents.map owned) ++ tail) := by
      rw [List.append_assoc]
      rfl
    have hlength : (pre ++ mapWords [owned content]).length = pre.length + 3 := by
      rw [List.length_append]
      rfl
    rw [hlength] at hrest
    have hfirst : (pre ++ (mapWords ((content :: contents).map owned) ++ tail))[pre.length]? =
        some (pairToUInt64 sctagTransferMapEntry sctagTmAllocData) := getElem?_append_add pre _ 0
    have hsecond : (pre ++ (mapWords ((content :: contents).map owned) ++ tail))[pre.length + 1]? =
        some content := getElem?_append_add pre _ 1
    have hcount : (content :: contents).length + n = contents.length + n + 1 := by
      rw [List.length_cons]
      omega
    have hend : pre.length + 3 * (content :: contents).length = pre.length + 3 + 3 * contents.length := by
      rw [List.length_cons]
      omega
    rw [hcount, discardEntries, hfirst, Option.bind_eq_bind, Option.bind_some, dataOf_pairToUInt64,
      if_pos (by decide : sctagTmAllocData ≥ sctagTmFirstOwned), hsecond, Option.bind_eq_bind,
      Option.bind_some, hend, hwords, hrest]
    cases discardEntries (pre ++ mapWords [owned content] ++ (mapWords (contents.map owned) ++ tail)) n
      (pre.length + 3 + 3 * contents.length) with
    | none => rfl
    | some rest =>
      have hshift : contents.zipIdx.map (fun x : UInt64 × ℕ =>
            (⟨pre.length + 3 + 3 * x.2, some x.1⟩ : DiscardedEntry)) =
          (contents.zipIdx 1).map fun x => ⟨pre.length + 3 * x.2, some x.1⟩ := by
        rw [List.zipIdx_succ, List.map_map]
        apply List.map_congr_left
        intro x _
        have hx : pre.length + 3 + 3 * x.2 = pre.length + 3 * (x.2 + 1) := by omega
        simp only [Function.comp_apply, hx]
      rw [List.zipIdx_cons, List.map_cons]
      change some (_ :: (List.map _ contents.zipIdx ++ rest)) = some (_ :: (List.map _ _ ++ rest))
      rw [hshift]
      rfl

/-- A word after an entry that the map does not own is taken for an entry, if there are more to come.
-/
theorem exists_gap {buf : List UInt64} {u : UInt64} {point n : ℕ} {entries : List DiscardedEntry}
    (hu : buf[point]? = some u) (howned : ¬ dataOf u ≥ sctagTmFirstOwned)
    (h : discardEntries buf (n + 2) point = some entries) :
    ∃ entry ∈ entries, entry.position = point + 1 := by
  rw [discardEntries, hu, Option.bind_eq_bind, Option.bind_some, if_neg howned] at h
  obtain ⟨rest, hrest, heq⟩ := Option.bind_eq_some_iff.mp h
  cases heq
  rw [discardEntries] at hrest
  obtain ⟨u', -, hrest⟩ := Option.bind_eq_some_iff.mp hrest
  by_cases howned' : dataOf u' ≥ sctagTmFirstOwned
  · rw [if_pos howned'] at hrest
    obtain ⟨content, -, hrest⟩ := Option.bind_eq_some_iff.mp hrest
    obtain ⟨rest', -, heq⟩ := Option.bind_eq_some_iff.mp hrest
    cases heq
    exact ⟨_, List.mem_cons_of_mem _ List.mem_cons_self, rfl⟩
  · rw [if_neg howned'] at hrest
    obtain ⟨rest', -, heq⟩ := Option.bind_eq_some_iff.mp hrest
    cases heq
    exact ⟨_, List.mem_cons_of_mem _ List.mem_cons_self, rfl⟩

/-- Data with a map. -/
def mapData (header : UInt32) (entries : List MapEntry) (tail : List UInt64) : List UInt64 :=
  [pairToUInt64 sctagTransferMapHeader header, UInt64.ofNat entries.length] ++
    (mapWords entries ++ tail)

/-- The number of entries fits a word. -/
theorem toNat_length {n : ℕ} (h : n < 2 ^ 32) : (UInt64.ofNat n).toNat = n := by
  rw [UInt64.toNat_ofNat']
  omega

/-- A map that has not been read is discarded entry by entry. -/
theorem discard_unread {entries : List MapEntry} (hlength : entries.length < 2 ^ 32)
    (tail : List UInt64) :
    discard (mapData sctagTmUnread entries tail) =
      discardEntries (mapData sctagTmUnread entries tail) entries.length 2 := by
  have htag : ¬ tagOf (pairToUInt64 sctagTransferMapHeader sctagTmUnread) ≠ sctagTransferMapHeader := by
    rw [tagOf_pairToUInt64]
    exact fun h => h rfl
  have hdata : ¬ dataOf (pairToUInt64 sctagTransferMapHeader sctagTmUnread) = sctagTmTransferred := by
    rw [dataOf_pairToUInt64]
    decide
  rw [mapData, List.cons_append, discard, if_neg htag, if_neg hdata]
  change discardEntries _ (UInt64.ofNat entries.length).toNat 2 = _
  rw [toNat_length hlength]

/-- Nothing is discarded of a map that has been read. -/
theorem discard_transferred (entries : List MapEntry) (tail : List UInt64) :
    discard (mapData sctagTmTransferred entries tail) = some [] := by
  have htag : ¬ tagOf (pairToUInt64 sctagTransferMapHeader sctagTmTransferred) ≠
      sctagTransferMapHeader := by
    rw [tagOf_pairToUInt64]
    exact fun h => h rfl
  rw [mapData, List.cons_append, discard, if_neg htag, if_pos (dataOf_pairToUInt64 _ _)]

/-- What is freed on account of entries that the map owns. -/
theorem freedContents_owned {contents : List UInt64} (hne : ∀ content ∈ contents, content ≠ 0)
    (rest : List DiscardedEntry) (hrest : ∀ entry ∈ rest, entry.freed = none) :
    freedContents ((contents.zipIdx.map fun (content, i) => ⟨2 + 3 * i, some content⟩) ++ rest) =
      contents := by
  have hnone : rest.filterMap DiscardedEntry.freed = [] := List.filterMap_eq_nil_iff.mpr hrest
  have hsome : (contents.zipIdx.map fun x : UInt64 × ℕ =>
      (⟨2 + 3 * x.2, some x.1⟩ : DiscardedEntry)).filterMap DiscardedEntry.freed = contents := by
    rw [List.filterMap_map]
    change contents.zipIdx.filterMap (fun x => some x.1) = contents
    rw [List.filterMap_eq_map']
    exact List.zipIdx_map_fst 0 contents
  rw [freedContents, List.filterMap_append, hsome, hnone, List.append_nil]
  exact List.filter_eq_self.mpr fun content hcontent => decide_eq_true (hne content hcontent)

/-- Entries that the map owns are discarded one after the other. -/
theorem discard_owned_append {contents : List UInt64} {rest : List MapEntry}
    (hlength : (contents.map owned ++ rest).length < 2 ^ 32) (tail : List UInt64) :
    discard (mapData sctagTmUnread (contents.map owned ++ rest) tail) =
      (discardEntries (mapData sctagTmUnread (contents.map owned ++ rest) tail) rest.length
        (2 + 3 * contents.length)).map fun entries =>
          (contents.zipIdx.map fun (content, i) => ⟨2 + 3 * i, some content⟩) ++ entries := by
  have hdata : mapData sctagTmUnread (contents.map owned ++ rest) tail =
      [pairToUInt64 sctagTransferMapHeader sctagTmUnread,
        UInt64.ofNat (contents.map owned ++ rest).length] ++
        (mapWords (contents.map owned) ++ (mapWords rest ++ tail)) := by
    rw [mapData, mapWords_append, List.append_assoc]
  have hn : (contents.map owned ++ rest).length = contents.length + rest.length := by
    rw [List.length_append, List.length_map]
  have hprefix := discardEntries_owned contents (mapWords rest ++ tail) rest.length
    [pairToUInt64 sctagTransferMapHeader sctagTmUnread,
      UInt64.ofNat (contents.map owned ++ rest).length]
  rw [← hdata, ← hn] at hprefix
  rw [discard_unread hlength]
  exact hprefix

/-- The first word of the entry that follows. -/
theorem getElem?_mapData (contents : List UInt64) (e : MapEntry) (rest : List MapEntry)
    (tail : List UInt64) :
    (mapData sctagTmUnread (contents.map owned ++ e :: rest) tail)[2 + 3 * contents.length]? =
      some (pairToUInt64 sctagTransferMapEntry e.1) := by
  rw [mapData, mapWords_append, List.append_assoc, ← List.append_assoc]
  generalize UInt64.ofNat (contents.map owned ++ e :: rest).length = u
  have hlength : ([pairToUInt64 sctagTransferMapHeader sctagTmUnread, u] ++
      mapWords (contents.map owned)).length = 2 + 3 * contents.length := by
    rw [List.length_append, length_mapWords, List.length_map]
    rfl
  rw [← hlength]
  exact getElem?_append_add _ _ 0

/-- The words that are taken for entries are entries, and what the map owns is freed, if no entry but
the last is without contents that the map owns. -/
theorem discard_of_noGap {contents : List UInt64} (hne : ∀ content ∈ contents, content ≠ 0)
    {last : List MapEntry} (hlast : last.length ≤ 1) (howned : ∀ e ∈ last, ¬ e.1 ≥ sctagTmFirstOwned)
    (hlength : (contents.map owned ++ last).length < 2 ^ 32) (tail : List UInt64) :
    ∃ entries, discard (mapData sctagTmUnread (contents.map owned ++ last) tail) = some entries ∧
      freedContents entries = contents ∧
      ∀ entry ∈ entries, ∃ i < contents.length + last.length, entry.position = 2 + 3 * i := by
  have hpositions : ∀ entry ∈ contents.zipIdx.map fun (content, i) =>
      (⟨2 + 3 * i, some content⟩ : DiscardedEntry),
      ∃ i < contents.length + last.length, entry.position = 2 + 3 * i := by
    intro entry hentry
    obtain ⟨⟨content, i⟩, hmem, rfl⟩ := List.mem_map.mp hentry
    have hi := (List.mem_zipIdx hmem).2.1
    exact ⟨i, by omega, rfl⟩
  rw [discard_owned_append hlength]
  cases last with
  | nil =>
    refine ⟨_, rfl, freedContents_owned hne [] (by simp), ?_⟩
    dsimp only
    rw [List.append_nil]
    exact hpositions
  | cons e last =>
    obtain rfl : last = [] := List.length_eq_zero_iff.mp (by simpa using hlast)
    have hstep : discardEntries (mapData sctagTmUnread (contents.map owned ++ [e]) tail) 1
        (2 + 3 * contents.length) = some [⟨2 + 3 * contents.length, none⟩] := by
      rw [discardEntries, getElem?_mapData, Option.bind_eq_bind, Option.bind_some,
        dataOf_pairToUInt64, if_neg (howned e (List.mem_singleton_self e))]
      rfl
    rw [List.length_singleton, hstep]
    refine ⟨_, rfl, freedContents_owned hne _ (by simp), ?_⟩
    intro entry hentry
    rcases List.mem_append.mp hentry with hentry | hentry
    · exact hpositions entry hentry
    · obtain rfl := List.mem_singleton.mp hentry
      exact ⟨contents.length, Nat.lt_succ_self _, rfl⟩

/-- A word that is no entry is taken for one, if an entry before the last is without contents that the
map owns. -/
theorem discard_of_gap {contents : List UInt64} {e e' : MapEntry} {rest : List MapEntry}
    (howned : ¬ e.1 ≥ sctagTmFirstOwned)
    (hlength : (contents.map owned ++ e :: e' :: rest).length < 2 ^ 32) (tail : List UInt64)
    {entries : List DiscardedEntry}
    (h : discard (mapData sctagTmUnread (contents.map owned ++ e :: e' :: rest) tail) = some entries) :
    ∃ entry ∈ entries, ∀ i, entry.position ≠ 2 + 3 * i := by
  rw [discard_owned_append hlength] at h
  obtain ⟨entries', hrest, rfl⟩ := Option.map_eq_some_iff.mp h
  have hword := getElem?_mapData contents e (e' :: rest) tail
  obtain ⟨entry, hentry, hposition⟩ := exists_gap hword (by rwa [dataOf_pairToUInt64]) hrest
  exact ⟨entry, List.mem_append_right _ hentry, fun i hi => by omega⟩

/-- Which steal fails decides what is stolen, and the data that results. -/
theorem transferOwnership_eq (transferables : Transferables) (body : Body) (failsAt : ℕ)
    (hpos : transferables.contents ≠ []) :
    let contents := transferables.contents
    let j := min failsAt contents.length
    ∃ point, transferOwnership failsAt contents (writeTransferMap contents ++ body.words) =
      (decide (contents.length ≤ failsAt),
        ⟨mapData sctagTmUnread ((contents.take j).map owned ++
          List.replicate (contents.length - j) unfilled) body.words, point, contents.take j⟩) := by
  intro contents j
  obtain ⟨point, hsteal⟩ := stealEntries_eq failsAt contents body.words 0
    [pairToUInt64 sctagTransferMapHeader sctagTmUnread, UInt64.ofNat contents.length] []
    (Nat.zero_le failsAt)
  have hplaceholders : contents.flatMap (fun _ => placeholder) =
      mapWords (List.replicate contents.length unfilled) := by
    generalize contents = l
    induction l with
    | nil => rfl
    | cons content l ih =>
      rw [List.flatMap_cons, List.length_cons, List.replicate_succ, mapWords_cons, ih]
      rfl
  have hentries : ((contents.take j).map owned ++
      List.replicate (contents.length - j) unfilled).length = contents.length := by
    rw [List.length_append, List.length_map, List.length_take, List.length_replicate]
    omega
  rw [Nat.zero_add, Nat.sub_zero, List.nil_append] at hsteal
  refine ⟨point, ?_⟩
  rw [transferOwnership, if_neg hpos, writeTransferMap, if_neg hpos, hplaceholders, mapData, hentries]
  exact hsteal

/-- Which entry fails decides which are marked, and what new buffers own. -/
theorem readTransferMap_eq (contents : List UInt64) (hlength : contents.length < 2 ^ 32)
    (tail : List UInt64) (failsAt : ℕ) (fault : EntryFault) :
    let m := marked failsAt fault contents.length
    ∃ point, (readTransferMap failsAt fault (mapData sctagTmUnread (contents.map owned) tail)).2 =
      ⟨mapData (if contents.length ≤ failsAt then sctagTmTransferred else sctagTmUnread)
        ((contents.take m).map unowned ++ (contents.drop m).map owned) tail, point,
        contents.take m⟩ := by
  intro m
  obtain ⟨point, hread⟩ := readEntries_eq failsAt fault contents tail 0
    [pairToUInt64 sctagTransferMapHeader sctagTmUnread, UInt64.ofNat contents.length] []
    (Nat.zero_le failsAt)
  rw [Nat.zero_add, Nat.sub_zero, List.nil_append] at hread
  have hheader : ¬ (tagOf (pairToUInt64 sctagTransferMapHeader sctagTmUnread) ≠
      sctagTransferMapHeader ∨
      dataOf (pairToUInt64 sctagTransferMapHeader sctagTmUnread) = sctagTmTransferred) := by
    rw [tagOf_pairToUInt64, dataOf_pairToUInt64]
    decide
  have hentries : ((contents.take m).map unowned ++ (contents.drop m).map owned).length =
      contents.length := by
    rw [List.length_append, List.length_map, List.length_map, ← List.length_append,
      List.take_append_drop]
  have hdata : mapData sctagTmUnread (contents.map owned) tail =
      [pairToUInt64 sctagTransferMapHeader sctagTmUnread, UInt64.ofNat contents.length] ++
        (mapWords (contents.map owned) ++ tail) := by rw [mapData, List.length_map]
  rw [← hdata] at hread
  change readEntries failsAt fault contents.length 0 ⟨_, 2, []⟩ = _ at hread
  have hfirst : (mapData sctagTmUnread (contents.map owned) tail)[0]? =
      some (pairToUInt64 sctagTransferMapHeader sctagTmUnread) := rfl
  have hsecond : (mapData sctagTmUnread (contents.map owned) tail)[1]? =
      some (UInt64.ofNat contents.length) := by rw [hdata]; rfl
  refine ⟨point, ?_⟩
  rw [readTransferMap, hfirst]
  dsimp only
  rw [if_neg hheader, hsecond]
  dsimp only
  rw [toNat_length hlength, hread]
  by_cases hall : contents.length ≤ failsAt
  · rw [decide_eq_true hall, if_pos hall, mapData, hentries]
    rfl
  · rw [decide_eq_false hall, if_neg hall, mapData, hentries]

/-- Data without a map is left alone. -/
theorem discard_body (body : Body) : discard body.words = some [] := by
  obtain ⟨words, hhead⟩ := body
  cases words with
  | nil => rfl
  | cons u words => exact if_pos (hhead u rfl)

/-- Data without a map is not read. -/
theorem readTransferMap_body (body : Body) (failsAt : ℕ) (fault : EntryFault) :
    (readTransferMap failsAt fault body.words).2 = ⟨body.words, 0, []⟩ := by
  obtain ⟨words, hhead⟩ := body
  cases words with
  | nil => rfl
  | cons u words => exact congrArg Prod.snd (if_pos (Or.inl (hhead u rfl)))

/-- Nothing is transferred. -/
theorem transfer_nil (transferables : Transferables) (body : Body) (stealFailsAt : ℕ)
    (reader : Option (ℕ × EntryFault)) (hnil : transferables.contents = []) :
    transfer transferables body stealFailsAt reader = ⟨body.words, [], []⟩ := by
  have hwrite : writeTransferMap transferables.contents ++ body.words = body.words := by
    rw [writeTransferMap, if_pos hnil]
    rfl
  have hsteal : transferOwnership stealFailsAt transferables.contents body.words =
      (true, ⟨body.words, 0, []⟩) := if_pos hnil
  unfold transfer
  dsimp only
  rw [hwrite, hsteal]
  cases reader with
  | none => rfl
  | some reader =>
    change Transferred.mk (readTransferMap reader.1 reader.2 body.words).2.buf []
      (readTransferMap reader.1 reader.2 body.words).2.handed = _
    rw [readTransferMap_body]

/-- A steal fails. -/
theorem transfer_stealFails (transferables : Transferables) (body : Body) (stealFailsAt : ℕ)
    (reader : Option (ℕ × EntryFault)) (hlt : stealFailsAt < transferables.contents.length) :
    transfer transferables body stealFailsAt reader =
      ⟨mapData sctagTmUnread ((transferables.contents.take stealFailsAt).map owned ++
        List.replicate (transferables.contents.length - stealFailsAt) unfilled) body.words,
        transferables.contents.take stealFailsAt, []⟩ := by
  have hne : transferables.contents ≠ [] := List.ne_nil_of_length_pos (Nat.lt_of_le_of_lt (Nat.zero_le _) hlt)
  obtain ⟨point, hsteal⟩ := transferOwnership_eq transferables body stealFailsAt hne
  rw [Nat.min_eq_left (Nat.le_of_lt hlt), decide_eq_false (Nat.not_le.mpr hlt)] at hsteal
  unfold transfer
  dsimp only
  rw [hsteal]

/-- All steals succeed. -/
theorem transfer_stealSucceeds (transferables : Transferables) (body : Body) (stealFailsAt : ℕ)
    (reader : Option (ℕ × EntryFault)) (hne : transferables.contents ≠ [])
    (hle : transferables.contents.length ≤ stealFailsAt) :
    transfer transferables body stealFailsAt reader =
      match reader with
      | none => ⟨mapData sctagTmUnread (transferables.contents.map owned) body.words,
          transferables.contents, []⟩
      | some (readFailsAt, fault) =>
        let m := marked readFailsAt fault transferables.contents.length
        ⟨mapData (if transferables.contents.length ≤ readFailsAt then sctagTmTransferred
            else sctagTmUnread)
          ((transferables.contents.take m).map unowned ++ (transferables.contents.drop m).map owned)
          body.words,
          transferables.contents, transferables.contents.take m⟩ := by
  obtain ⟨point, hsteal⟩ := transferOwnership_eq transferables body stealFailsAt hne
  rw [Nat.min_eq_right hle, decide_eq_true hle, List.take_length, Nat.sub_self, List.replicate_zero,
    List.append_nil] at hsteal
  unfold transfer
  dsimp only
  rw [hsteal]
  cases reader with
  | none => rfl
  | some reader =>
    obtain ⟨readFailsAt, fault⟩ := reader
    obtain ⟨point', hread⟩ := readTransferMap_eq transferables.contents transferables.length_lt
      body.words readFailsAt fault
    change Transferred.mk (readTransferMap readFailsAt fault _).2.buf transferables.contents
      (readTransferMap readFailsAt fault _).2.handed = _
    rw [hread]

/-- Contents are owned once if no entry but the last is without contents that the map owns. -/
theorem ownedOnce_of_noGap (transferables : Transferables) {contents handed stolen : List UInt64}
    {last : List MapEntry} {tail : List UInt64} (hcontents : ∀ c ∈ contents, c ∈ transferables.contents)
    (hlast : last.length ≤ 1) (howned : ∀ e ∈ last, ¬ e.1 ≥ sctagTmFirstOwned)
    (hlength : contents.length + last.length = transferables.contents.length)
    (hperm : (contents ++ handed).Perm stolen) :
    OwnedOnce transferables
      ⟨mapData sctagTmUnread (contents.map owned ++ last) tail, stolen, handed⟩ := by
  have hne : ∀ content ∈ contents, content ≠ 0 :=
    fun content hcontent => transferables.contents_ne content (hcontents content hcontent)
  have hentries : (contents.map owned ++ last).length < 2 ^ 32 := by
    rw [List.length_append, List.length_map, hlength]
    exact transferables.length_lt
  obtain ⟨entries, hdiscard, hfreed, hpositions⟩ := discard_of_noGap hne hlast howned hentries tail
  refine ⟨entries, hdiscard, ?_, ?_⟩
  · rw [hfreed]
    exact hperm
  · rw [← hlength]
    exact hpositions

/-- Contents are not owned once if an entry before the last is without contents that the map owns. -/
theorem not_ownedOnce_of_gap (transferables : Transferables) {contents handed stolen : List UInt64}
    {e e' : MapEntry} {rest : List MapEntry} {tail : List UInt64} (howned : ¬ e.1 ≥ sctagTmFirstOwned)
    (hlength : contents.length + (rest.length + 2) = transferables.contents.length) :
    ¬ OwnedOnce transferables
      ⟨mapData sctagTmUnread (contents.map owned ++ e :: e' :: rest) tail, stolen, handed⟩ := by
  rintro ⟨entries, hdiscard, -, hpositions⟩
  have hentries : (contents.map owned ++ e :: e' :: rest).length < 2 ^ 32 := by
    rw [List.length_append, List.length_map]
    change contents.length + (rest.length + 2) < 2 ^ 32
    rw [hlength]
    exact transferables.length_lt
  obtain ⟨entry, hentry, hposition⟩ := discard_of_gap howned hentries tail hdiscard
  obtain ⟨i, -, hi⟩ := hpositions entry hentry
  exact hposition i hi

/-- When a steal fails, contents are owned once just if it is the last. -/
theorem ownedOnce_stealFails (transferables : Transferables) (body : Body) {stealFailsAt : ℕ}
    (reader : Option (ℕ × EntryFault)) (hlt : stealFailsAt < transferables.contents.length) :
    OwnedOnce transferables (transfer transferables body stealFailsAt reader) ↔
      transferables.contents.length ≤ stealFailsAt + 1 := by
  have hunfilled : ¬ unfilled.1 ≥ sctagTmFirstOwned := by decide
  have htake : (transferables.contents.take stealFailsAt).length = stealFailsAt := by
    rw [List.length_take]
    omega
  rw [transfer_stealFails transferables body stealFailsAt reader hlt]
  constructor
  · intro h
    by_contra hgap
    obtain ⟨d, hd⟩ := Nat.exists_eq_add_of_le (Nat.lt_of_not_le hgap)
    have hcount : transferables.contents.length - stealFailsAt = d + 2 := by omega
    rw [hcount, List.replicate_succ, List.replicate_succ] at h
    refine not_ownedOnce_of_gap transferables hunfilled ?_ h
    rw [htake, List.length_replicate]
    omega
  · intro hle
    apply ownedOnce_of_noGap
    · exact fun content hcontent => List.mem_of_mem_take hcontent
    · rw [List.length_replicate]
      omega
    · intro e he
      rw [List.eq_of_mem_replicate he]
      exact hunfilled
    · rw [htake, List.length_replicate]
      omega
    · rw [List.append_nil]

/-- When all steals succeed and there is no reader, contents are owned once. -/
theorem ownedOnce_unread (transferables : Transferables) (body : Body) {stealFailsAt : ℕ}
    (hne : transferables.contents ≠ []) (hle : transferables.contents.length ≤ stealFailsAt) :
    OwnedOnce transferables (transfer transferables body stealFailsAt none) := by
  rw [transfer_stealSucceeds transferables body stealFailsAt none hne hle]
  have hall : OwnedOnce transferables
      ⟨mapData sctagTmUnread (transferables.contents.map owned ++ []) body.words,
        transferables.contents, []⟩ :=
    ownedOnce_of_noGap transferables (fun _ h => h) (Nat.zero_le _) (fun _ h => nomatch h) rfl
      (by rw [List.append_nil])
  rwa [List.append_nil] at hall

/-- When all steals succeed and there is a reader, contents are owned once just if the reader does not
fail, or there is one entry only, or it fails before the first entry is marked. -/
theorem ownedOnce_read (transferables : Transferables) (body : Body) {stealFailsAt : ℕ}
    (hne : transferables.contents ≠ []) (hle : transferables.contents.length ≤ stealFailsAt)
    (readFailsAt : ℕ) (fault : EntryFault) :
    OwnedOnce transferables (transfer transferables body stealFailsAt (some (readFailsAt, fault))) ↔
      transferables.contents.length ≤ readFailsAt ∨ transferables.contents.length ≤ 1 ∨
        (readFailsAt = 0 ∧ fault ≠ .append) := by
  rw [transfer_stealSucceeds transferables body stealFailsAt _ hne hle]
  dsimp only
  have hunowned (content : UInt64) : ¬ (unowned content).1 ≥ sctagTmFirstOwned :=
    (by decide : ¬ sctagTmUnowned ≥ sctagTmFirstOwned)
  have hpos : 0 < transferables.contents.length := List.length_pos_iff.mpr hne
  by_cases hall : transferables.contents.length ≤ readFailsAt
  · have hmarked : marked readFailsAt fault transferables.contents.length =
        transferables.contents.length := by rw [marked, if_neg (Nat.not_lt.mpr hall)]
    rw [if_pos hall, hmarked, List.take_length]
    constructor
    · exact fun _ => Or.inl hall
    · exact fun _ => ⟨[], discard_transferred _ _, List.Perm.refl _, fun _ h => nomatch h⟩
  · have hmarked : marked readFailsAt fault transferables.contents.length =
        if fault = .append then readFailsAt + 1 else readFailsAt := by
      rw [marked, if_pos (Nat.lt_of_not_le hall)]
    rw [if_neg hall, or_iff_right hall]
    generalize marked readFailsAt fault transferables.contents.length = m at hmarked
    have hfirst : m = 0 ↔ readFailsAt = 0 ∧ fault ≠ .append := by
      rw [hmarked]
      split <;> simp_all
    have hm : m ≤ transferables.contents.length := by
      rw [hmarked]
      split <;> omega
    rw [← hfirst]
    by_cases hzero : m = 0
    · rw [hzero, List.take_zero, List.drop_zero, List.map_nil, List.nil_append]
      constructor
      · exact fun _ => Or.inr rfl
      · intro _
        have hnone := ownedOnce_unread transferables body hne hle
        rwa [transfer_stealSucceeds transferables body stealFailsAt none hne hle] at hnone
    · rw [or_iff_left hzero]
      obtain ⟨content, contents, hcontents⟩ := List.exists_cons_of_ne_nil hne
      obtain ⟨k, rfl⟩ : ∃ k, m = k + 1 := ⟨m - 1, by omega⟩
      have hlength : transferables.contents.length = contents.length + 1 := by
        rw [hcontents, List.length_cons]
      rw [hcontents, List.take_succ_cons, List.drop_succ_cons, List.map_cons, List.cons_append]
      cases contents with
      | nil =>
        have hone : OwnedOnce transferables
            ⟨mapData sctagTmUnread (([] : List UInt64).map owned ++ [unowned content]) body.words,
              [content], [content]⟩ :=
          ownedOnce_of_noGap transferables (fun _ h => nomatch h) (Nat.le_refl 1)
            (fun e he => List.mem_singleton.mp he ▸ hunowned content) hlength.symm (List.Perm.refl _)
        rw [List.take_nil, List.drop_nil]
        exact ⟨fun _ => Nat.le_refl 1, fun _ => hone⟩
      | cons second contents =>
        constructor
        · intro h
          cases k with
          | zero =>
            change OwnedOnce transferables ⟨mapData sctagTmUnread
              (([] : List UInt64).map owned ++ unowned content :: owned second :: contents.map owned)
              body.words, _, _⟩ at h
            refine absurd h (not_ownedOnce_of_gap transferables (hunowned content) ?_)
            rw [hlength, List.length_map, List.length_cons]
            exact Nat.zero_add _
          | succ k =>
            rw [List.take_succ_cons, List.drop_succ_cons, List.map_cons, List.cons_append] at h
            change OwnedOnce transferables ⟨mapData sctagTmUnread
              (([] : List UInt64).map owned ++ unowned content :: unowned second :: _)
              body.words, _, _⟩ at h
            refine absurd h (not_ownedOnce_of_gap transferables (hunowned content) ?_)
            rw [hlength, List.length_append, List.length_map, List.length_map, ← List.length_append,
              List.take_append_drop, List.length_cons]
            exact Nat.zero_add _
        · intro h
          simp at h

/-- Transferred contents are owned once just when no entry but the last is without contents that the
map owns. -/
theorem ownedOnce_iff_noGap (transferables : Transferables) (body : Body) (stealFailsAt : ℕ)
    (reader : Option (ℕ × EntryFault)) :
    OwnedOnce transferables (transfer transferables body stealFailsAt reader) ↔
      NoGap transferables stealFailsAt reader := by
  rw [NoGap]
  by_cases hnil : transferables.contents = []
  · rw [transfer_nil transferables body stealFailsAt reader hnil, hnil]
    constructor
    · exact fun _ => ⟨Nat.zero_le _, fun _ _ _ _ => Or.inl (Nat.zero_le _)⟩
    · exact fun _ => ⟨[], discard_body body, List.Perm.refl _, fun _ h => nomatch h⟩
  · by_cases hsteal : transferables.contents.length ≤ stealFailsAt
    · have hnext : transferables.contents.length ≤ stealFailsAt + 1 := Nat.le_succ_of_le hsteal
      cases reader with
      | none =>
        constructor
        · exact fun _ => ⟨hnext, fun _ _ _ h => nomatch h⟩
        · exact fun _ => ownedOnce_unread transferables body hnil hsteal
      | some reader =>
        obtain ⟨readFailsAt, fault⟩ := reader
        rw [ownedOnce_read transferables body hnil hsteal]
        constructor
        · intro h
          refine ⟨hnext, fun _ _ _ heq => ?_⟩
          cases heq
          exact h
        · exact fun h => h.2 hsteal readFailsAt fault rfl
    · rw [ownedOnce_stealFails transferables body reader (Nat.lt_of_not_le hsteal)]
      constructor
      · exact fun h => ⟨h, fun hle => absurd hle hsteal⟩
      · exact fun h => h.1

/-- Two buffers are transferred, and the reader fails to make the second new buffer. What is freed is
the user data of the first entry, and the contents of the second are lost. -/
theorem not_ownedOnce_createFails :
    let transferables : Transferables := ⟨[4096, 8192], by simp, by simp⟩
    let t := transfer transferables ⟨[pairToUInt64 sctagNull 0], by simpa using by decide⟩ 2 (some (1, .create))
    t.stolen = [4096, 8192] ∧ t.handed = [4096] ∧
      discard t.buf = some [⟨2, none⟩, ⟨3, some 0⟩] ∧ ¬ OwnedOnce transferables t := by
  intro transferables t
  have hdiscard : discard t.buf = some [⟨2, none⟩, ⟨3, some 0⟩] := by decide
  refine ⟨by decide, by decide, hdiscard, ?_⟩
  rintro ⟨entries, hentries, -, hpositions⟩
  rw [hdiscard] at hentries
  cases hentries
  obtain ⟨i, -, hi⟩ := hpositions ⟨3, some 0⟩ (List.mem_cons_of_mem _ List.mem_cons_self)
  change 3 = 2 + 3 * i at hi
  omega

end SpiderMonkey.Vm.StructuredClone
