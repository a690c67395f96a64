import SpiderMonkey.Builtin.OrderedHashTable

/-!
# Hash chains in descending order

Each place of the vector is on the chain of at most one bucket, its home. Chains descend, so a new
entry belongs at the head, and an entry that changes its home is put back by position.
-/

namespace SpiderMonkey.Builtin

variable {K V : Type} {table : ℕ → Option ℕ} {data : List (Data K V)} {home : ℕ → Option ℕ}

/-- Every bucket heads a descending chain of the places it is home to. -/
structure Chains (table : ℕ → Option ℕ) (data : List (Data K V)) (home : ℕ → Option ℕ) :
    Prop where
  chain : ∀ b, ∃ l, Linked (chainOf data) (table b) l ∧ l.Pairwise (fun i j => j < i) ∧
    ∀ i, i ∈ l ↔ home i = some b
  lt : ∀ i b, home i = some b → i < data.length

/-- An empty vector has empty chains. -/
theorem chains_empty : Chains (fun _ => none) ([] : List (Data K V)) fun _ => none :=
  ⟨fun _ => ⟨[], rfl, List.Pairwise.nil, by simp⟩, by simp⟩

/-- Chains depend on the chain pointers of the vector only. -/
theorem Chains.congr {data' : List (Data K V)} (h : Chains table data home)
    (hchain : ∀ i, chainOf data' i = chainOf data i) (hlength : data'.length = data.length) :
    Chains table data' home := by
  refine ⟨fun b => ?_, fun i b hi => hlength ▸ h.lt i b hi⟩
  obtain ⟨l, hl, hsorted, hmem⟩ := h.chain b
  exact ⟨l, hl.congr fun i _ => hchain i, hsorted, hmem⟩

/-- A descending chain is no longer than the vector. -/
theorem Chains.length_le (h : Chains table data home) {b : ℕ} {l : List ℕ}
    (hsorted : l.Pairwise fun i j => j < i) (hmem : ∀ i, i ∈ l ↔ home i = some b) :
    l.length ≤ data.length := by
  have hbound (l : List ℕ) (n : ℕ) (hsorted : l.Pairwise fun i j => j < i)
      (hlt : ∀ i ∈ l, i < n) : l.length ≤ n := by
    induction l generalizing n with
    | nil => simp
    | cons i l ih =>
      rw [List.pairwise_cons] at hsorted
      have hle := ih i hsorted.2 hsorted.1
      have hi := hlt i (by simp)
      simp only [List.length_cons]
      omega
  exact hbound l _ hsorted fun i hi => h.lt i b ((hmem i).mp hi)

/-- The reference after the nodes of a list that starts at another. -/
def lastRef (ep : LinkRef) (l : List ℕ) : LinkRef := l.getLast?.elim ep .chain

/-- The reference after a longer list. -/
@[simp] theorem lastRef_cons (ep : LinkRef) (i : ℕ) (l : List ℕ) :
    lastRef ep (i :: l) = lastRef (.chain i) l := by
  cases l with
  | nil => rfl
  | cons j l => simp [lastRef, List.getLast?_cons]

variable (table) in
/-- The search for a reference walks up to the entry. -/
theorem findLinkTo_eq {entry : ℕ} {rest : List ℕ} : ∀ (before : List ℕ) (fuel : ℕ) (ep : LinkRef),
    before.length < fuel → entry ∉ before →
      Linked (chainOf data) (readLink table data ep) (before ++ entry :: rest) →
        findLinkTo table data entry fuel ep = some (lastRef ep before) := by
  intro before
  induction before with
  | nil =>
    intro fuel ep hfuel _ h
    obtain ⟨fuel, rfl⟩ := Nat.exists_eq_add_of_lt hfuel
    simp [findLinkTo, h.1, lastRef]
  | cons i before ih =>
    intro fuel ep hfuel hentry h
    obtain ⟨fuel, rfl⟩ := Nat.exists_eq_add_of_lt hfuel
    rw [List.mem_cons, not_or] at hentry
    rw [findLinkTo, h.1, lastRef_cons]
    simp only [Ne.symm hentry.1, if_false]
    exact ih _ (.chain i) (by simp only [List.length_cons]; omega) hentry.2 h.2

variable (table) in
/-- The search for a place walks past the later entries. -/
theorem findPlaceFor_eq {entry : ℕ} {rest : List ℕ} : ∀ (before : List ℕ) (fuel : ℕ) (ep : LinkRef),
    before.length < fuel → (∀ i ∈ before, entry < i) → (∀ i ∈ rest, i < entry) →
      Linked (chainOf data) (readLink table data ep) (before ++ rest) →
        findPlaceFor table data entry fuel ep = some (lastRef ep before) := by
  intro before
  induction before with
  | nil =>
    intro fuel ep hfuel _ hrest h
    obtain ⟨fuel, rfl⟩ := Nat.exists_eq_add_of_lt hfuel
    rw [findPlaceFor]
    cases rest with
    | nil => rw [show readLink table data ep = none from h]; rfl
    | cons i rest =>
      have hlt := hrest i (by simp)
      rw [h.1]
      simp [show ¬ entry < i by omega, lastRef]
  | cons i before ih =>
    intro fuel ep hfuel hbefore hrest h
    obtain ⟨fuel, rfl⟩ := Nat.exists_eq_add_of_lt hfuel
    rw [findPlaceFor, h.1, lastRef_cons]
    simp only [hbefore i (by simp), if_true]
    exact ih _ (.chain i) (by simp only [List.length_cons]; omega)
      (fun j hj => hbefore j (List.mem_cons_of_mem _ hj)) hrest h.2

/-- Chain pointers after storing one of them. -/
theorem chainOf_modify (data : List (Data K V)) (p : Option ℕ) (i j : ℕ) (hi : i < data.length) :
    chainOf (data.modify i fun d => { d with chain := p }) j =
      if i = j then p else chainOf data j := by
  rw [chainOf, chainOf, List.getElem?_modify]
  by_cases hij : i = j
  · subst hij
    simp [List.getElem?_eq_getElem hi]
  · simp [hij]

/-- Storing a chain pointer keeps the elements. -/
@[simp] theorem elementAt_modify_chain (data : List (Data K V)) (p : Option ℕ) (i j : ℕ) :
    elementAt (data.modify i fun d => { d with chain := p }) j = elementAt data j := by
  rw [elementAt, elementAt, List.getElem?_modify]
  by_cases hij : i = j
  · cases data[j]? <;> simp [hij]
  · simp [hij]

/-- The pointer behind the reference after a list is where the list arrives. -/
theorem readLink_lastRef {stop : Option ℕ} : ∀ (l : List ℕ) (ep : LinkRef),
    LinkedTo (chainOf data) stop (readLink table data ep) l →
      readLink table data (lastRef ep l) = stop := by
  intro l
  induction l with
  | nil => exact fun ep h => h
  | cons i l ih => exact fun ep h => lastRef_cons ep i l ▸ ih (.chain i) h.2

/-- What storing a pointer behind the reference after a list of a chain does. -/
structure Redirected (table table' : ℕ → Option ℕ) (data data' : List (Data K V)) (b : ℕ)
    (before : List ℕ) (p : Option ℕ) : Prop where
  table_eq : ∀ c, c ≠ b → table' c = table c
  chain_eq : ∀ i, i ∉ before → chainOf data' i = chainOf data i
  linked : LinkedTo (chainOf data') p (table' b) before
  element_eq : ∀ i, elementAt data' i = elementAt data i
  length_eq : data'.length = data.length

/-- Storing a pointer behind the reference after a list makes the list arrive there. -/
theorem redirected_writeLink {b : ℕ} {before : List ℕ} {stop : Option ℕ} (p : Option ℕ)
    (h : LinkedTo (chainOf data) stop (table b) before) (hnodup : before.Nodup)
    (hlt : ∀ i ∈ before, i < data.length) :
    Redirected table (writeLink table data p (lastRef (.bucket b) before)).1 data
      (writeLink table data p (lastRef (.bucket b) before)).2 b before p := by
  rcases List.eq_nil_or_concat before with rfl | ⟨init, a, rfl⟩
  · refine ⟨fun c hc => ?_, fun _ _ => rfl, ?_, fun _ => rfl, rfl⟩
    · simp [lastRef, writeLink, hc]
    · simp [lastRef, writeLink, LinkedTo]
  · rw [List.concat_eq_append] at *
    have hchain := fun j => chainOf_modify data p a j (hlt a (by simp))
    rw [linkedTo_append] at h
    obtain ⟨mid, hinit, hmid, -⟩ := h
    have ha : a ∉ init := by
      rw [List.nodup_append] at hnodup
      exact fun hmem => hnodup.2.2 a hmem a (by simp) rfl
    simp only [lastRef, List.getLast?_concat, Option.elim_some, writeLink]
    refine ⟨fun _ _ => rfl, fun i hi => ?_, ?_, fun i => elementAt_modify_chain _ _ _ _, by simp⟩
    · rw [hchain, if_neg (by rintro rfl; simp at hi)]
    · rw [linkedTo_append]
      refine ⟨mid, hinit.congr fun i hi => ?_, hmid, ?_⟩
      · rw [hchain, if_neg (by rintro rfl; exact ha hi)]
      · exact (hchain a).trans (if_pos rfl)

/-- Taking an entry out of its chain leaves it without a home. -/
theorem Chains.unlink (h : Chains table data home) {entry b : ℕ} (hentry : home entry = some b) :
    ∃ ep, findLinkTo table data entry (data.length + 1) (.bucket b) = some ep ∧
      Chains (writeLink table data (chainOf data entry) ep).1
        (writeLink table data (chainOf data entry) ep).2 (Function.update home entry none) ∧
      (∀ i, elementAt (writeLink table data (chainOf data entry) ep).2 i = elementAt data i) ∧
      (writeLink table data (chainOf data entry) ep).2.length = data.length := by
  obtain ⟨l, hl, hsorted, hmem⟩ := h.chain b
  have hlength := h.length_le hsorted hmem
  obtain ⟨before, after, rfl⟩ := List.append_of_mem ((hmem entry).mpr hentry)
  have hlater := (List.pairwise_append.mp hsorted)
  have hentry_later : ∀ i ∈ before, entry < i := fun i hi => hlater.2.2 i hi entry (by simp)
  have hafter : ∀ i ∈ after, i < entry := (List.pairwise_cons.mp hlater.2.1).1
  have hnodup : before.Nodup := hlater.1.imp fun hlt => Nat.ne_of_gt hlt
  have hnot : entry ∉ before := fun hmem => Nat.lt_irrefl _ (hentry_later entry hmem)
  rw [List.length_append, List.length_cons] at hlength
  have hfind := findLinkTo_eq table before (data.length + 1) (.bucket b) (by omega) hnot hl
  obtain ⟨mid, hbefore, -, hrest⟩ := linkedTo_append.mp hl
  have hredirected := redirected_writeLink (chainOf data entry) hbefore hnodup
    fun i hi => h.lt i b ((hmem i).mp (by simp [hi]))
  refine ⟨_, hfind, ⟨fun c => ?_, fun i c hi => ?_⟩, hredirected.element_eq, hredirected.length_eq⟩
  · by_cases hc : c = b
    · subst hc
      refine ⟨before ++ after, linkedTo_append.mpr ⟨_, hredirected.linked, hrest.congr fun i hi => ?_⟩,
        ?_, fun i => ?_⟩
      · refine hredirected.chain_eq i fun hib => ?_
        exact Nat.lt_asymm (hentry_later i hib) (hafter i hi)
      · exact hsorted.sublist (List.Sublist.append_left (List.sublist_cons_self _ _) _)
      · rcases eq_or_ne i entry with rfl | hne
        · have hnot' : i ∉ after := fun hmem => Nat.lt_irrefl _ (hafter i hmem)
          simp [hnot, hnot']
        · rw [Function.update_of_ne hne, ← hmem i]
          simp [hne]
    · obtain ⟨l', hl', hsorted', hmem'⟩ := h.chain c
      refine ⟨l', ?_, hsorted', fun i => ?_⟩
      · rw [hredirected.table_eq c hc]
        refine hl'.congr fun i hi => hredirected.chain_eq i fun hib => hc ?_
        have hbi := (hmem i).mp (List.mem_append_left _ hib)
        exact Option.some.inj (((hmem' i).mp hi).symm.trans hbi)
      · rcases eq_or_ne i entry with rfl | hne
        · simp [hmem', hentry, Ne.symm hc]
        · rw [Function.update_of_ne hne, hmem' i]
  · rw [hredirected.length_eq]
    rcases eq_or_ne i entry with rfl | hne
    · simp at hi
    · rw [Function.update_of_ne hne] at hi
      exact h.lt i c hi

/-- A descending list splits into what is above and what is below a number not in it. -/
theorem exists_split_at {l : List ℕ} {n : ℕ} (hsorted : l.Pairwise fun i j => j < i) (hn : n ∉ l) :
    ∃ before rest, l = before ++ rest ∧ (∀ i ∈ before, n < i) ∧ ∀ i ∈ rest, i < n := by
  induction l with
  | nil => exact ⟨[], [], rfl, by simp, by simp⟩
  | cons i l ih =>
    rw [List.pairwise_cons] at hsorted
    rw [List.mem_cons, not_or] at hn
    rcases Nat.lt_or_gt_of_ne hn.1 with hlt | hgt
    · obtain ⟨before, rest, rfl, hbefore, hrest⟩ := ih hsorted.2 hn.2
      exact ⟨i :: before, rest, rfl, by simpa using ⟨hlt, hbefore⟩, hrest⟩
    · refine ⟨[], i :: l, rfl, by simp, fun j hj => ?_⟩
      rcases List.mem_cons.mp hj with rfl | hj
      · exact hgt
      · exact Nat.lt_trans (hsorted.1 j hj) hgt

/-- Putting a homeless entry into a chain at its position. -/
theorem Chains.relink (h : Chains table data home) {entry b : ℕ} (hentry : home entry = none)
    (hlt : entry < data.length) :
    ∃ ep, findPlaceFor table data entry (data.length + 1) (.bucket b) = some ep ∧
      Chains (writeLink table (data.modify entry fun d => { d with chain := readLink table data ep })
          (some entry) ep).1
        (writeLink table (data.modify entry fun d => { d with chain := readLink table data ep })
          (some entry) ep).2 (Function.update home entry (some b)) ∧
      (∀ i, elementAt (writeLink table
        (data.modify entry fun d => { d with chain := readLink table data ep })
          (some entry) ep).2 i = elementAt data i) ∧
      (writeLink table (data.modify entry fun d => { d with chain := readLink table data ep })
        (some entry) ep).2.length = data.length := by
  obtain ⟨l, hl, hsorted, hmem⟩ := h.chain b
  have hlength := h.length_le hsorted hmem
  have hnot : entry ∉ l := fun hmem' => by simpa [hentry] using (hmem entry).mp hmem'
  obtain ⟨before, rest, rfl, hlater, hearlier⟩ := exists_split_at hsorted hnot
  obtain ⟨hsorted_before, hsorted_rest, hcross⟩ := List.pairwise_append.mp hsorted
  rw [List.mem_append, not_or] at hnot
  have hnodup : before.Nodup := hsorted_before.imp fun hlt => Nat.ne_of_gt hlt
  rw [List.length_append] at hlength
  have hfind := findPlaceFor_eq table before (data.length + 1) (.bucket b) (by omega) hlater
    hearlier hl
  obtain ⟨mid, hlinked, hlinked_rest⟩ := linkedTo_append.mp hl
  have hread : readLink table data (lastRef (.bucket b) before) = mid :=
    readLink_lastRef before (.bucket b) hlinked
  refine ⟨_, hfind, ?_⟩
  rw [hread]
  have hchain := fun i => chainOf_modify data mid entry i hlt
  have hlinked' : LinkedTo (chainOf (data.modify entry fun d => { d with chain := mid })) mid (table b)
      before := hlinked.congr fun i hi => by
    rw [hchain, if_neg (by rintro rfl; exact hnot.1 hi)]
  have hredirected := redirected_writeLink (some entry) hlinked' hnodup fun i hi => by
    rw [List.length_modify]
    exact h.lt i b ((hmem i).mp (by simp [hi]))
  refine ⟨⟨fun c => ?_, fun i c hi => ?_⟩, fun i => ?_, ?_⟩
  · by_cases hc : c = b
    · subst hc
      refine ⟨before ++ entry :: rest,
        linkedTo_append.mpr ⟨_, hredirected.linked, rfl, ?_⟩, ?_, fun i => ?_⟩
      · rw [hredirected.chain_eq entry hnot.1, hchain, if_pos rfl]
        refine hlinked_rest.congr fun i hi => ?_
        have hib : i ∉ before := fun hib =>
          Nat.lt_asymm (hlater i hib) (hearlier i hi)
        rw [hredirected.chain_eq i hib, hchain, if_neg (by rintro rfl; exact hnot.2 hi)]
      · refine List.pairwise_append.mpr ⟨hsorted_before,
          List.pairwise_cons.mpr ⟨hearlier, hsorted_rest⟩, fun i hi j hj => ?_⟩
        rcases List.mem_cons.mp hj with rfl | hj
        · exact hlater i hi
        · exact hcross i hi j hj
      · rcases eq_or_ne i entry with rfl | hne
        · simp
        · rw [Function.update_of_ne hne, ← hmem i]
          simp [hne]
    · obtain ⟨l', hl', hsorted', hmem'⟩ := h.chain c
      have hentry' : entry ∉ l' := fun hi => by simpa [hentry] using (hmem' entry).mp hi
      refine ⟨l', ?_, hsorted', fun i => ?_⟩
      · rw [hredirected.table_eq c hc]
        refine hl'.congr fun i hi => ?_
        have hib : i ∉ before := fun hib => hc <| Option.some.inj <|
          ((hmem' i).mp hi).symm.trans ((hmem i).mp (List.mem_append_left _ hib))
        rw [hredirected.chain_eq i hib, hchain, if_neg (by rintro rfl; exact hentry' hi)]
      · rcases eq_or_ne i entry with rfl | hne
        · simp [hentry', Ne.symm hc]
        · rw [Function.update_of_ne hne, hmem' i]
  · rw [hredirected.length_eq, List.length_modify]
    rcases eq_or_ne i entry with rfl | hne
    · exact hlt
    · rw [Function.update_of_ne hne] at hi
      exact h.lt i c hi
  · rw [hredirected.element_eq, elementAt_modify_chain]
  · rw [hredirected.length_eq, List.length_modify]

/-- Moving an entry gives it a new home and changes no element. -/
theorem Chains.moveEntry (h : Chains table data home) {entry oldHash : ℕ} (newHash : ℕ)
    (hentry : home entry = some oldHash) :
    ∃ table' data', moveEntry table data entry oldHash newHash = some (table', data') ∧
      Chains table' data' (Function.update home entry (some newHash)) ∧
      (∀ i, elementAt data' i = elementAt data i) ∧ data'.length = data.length := by
  obtain ⟨ep, hfind, hchains, helement, hlength⟩ := h.unlink hentry
  have hlt := h.lt entry oldHash hentry
  cases hunlinked : writeLink table data (chainOf data entry) ep with
  | mk table₁ data₁ =>
    rw [hunlinked] at hchains helement hlength
    obtain ⟨ep', hfind', hchains', helement', hlength'⟩ :=
      hchains.relink (b := newHash) (Function.update_self entry none home) (hlength ▸ hlt)
    rw [Function.update_idem] at hchains'
    dsimp only at hlength hfind' helement helement' hlength' hchains'
    rw [hlength] at hfind'
    refine ⟨_, _, ?_, hchains', fun i => (helement' i).trans (helement i), hlength'.trans hlength⟩
    simp [Builtin.moveEntry, hfind, hunlinked, hfind']
    rfl

end SpiderMonkey.Builtin
