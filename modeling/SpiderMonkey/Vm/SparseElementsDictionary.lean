import SpiderMonkey.Vm.SparseElements

/-!
# Dictionaries of shapes

What a dictionary holds is the list of its shapes: the list is linked both ways, ends with the empty
shape, and the table finds each of the others by its name. Taking a shape out, replacing the last one
and adding one keep this.
-/

namespace SpiderMonkey.Vm.SparseElements

open Lib

variable {V : Type} {d d' : Dictionary} {nodes rest pre post : List ℕ} {next node h : ℕ}
  {props before after : List Property} {p q : Property} {id id' : PropId}

/-! ## Lineages -/

/-- Shapes of properties with different names, and the empty one at the end. -/
inductive IsLineage : List Property → Prop where
  | root (p : Property) (hp : p.propid = none) : IsLineage [p]
  | cons (p : Property) (props : List Property) (id : PropId) (hp : p.propid = some id)
      (hnew : findProperty props id = none) (h : IsLineage props) : IsLineage (p :: props)

/-- Nothing has a name that is not found. -/
theorem findProperty_eq_none : findProperty props id = none ↔ ∀ p ∈ props, p.propid ≠ some id := by
  rw [findProperty, List.find?_eq_none]
  apply forall₂_congr
  intro p _
  rw [decide_eq_true_eq]

/-- What is found has the name and is there. -/
theorem of_findProperty (h : findProperty props id = some p) : p ∈ props ∧ p.propid = some id := by
  have hp := List.find?_some h
  rw [decide_eq_true_eq] at hp
  exact ⟨List.mem_of_find?_eq_some h, hp⟩

/-- A property in front is found if it has the name. -/
theorem findProperty_cons (p : Property) (props : List Property) (id : PropId) :
    findProperty (p :: props) id = if p.propid = some id then some p else findProperty props id := by
  rw [findProperty, List.find?_cons]
  by_cases hp : p.propid = some id
  · rw [if_pos hp, decide_eq_true hp]
  · rw [if_neg hp, decide_eq_false hp]
    rfl

/-- Each property of a lineage is found by its name. -/
theorem IsLineage.findProperty_mem (h : IsLineage props) (hp : p ∈ props)
    (hid : p.propid = some id) : findProperty props id = some p := by
  induction h with
  | root e he =>
    rw [List.mem_singleton.mp hp, he] at hid
    cases hid
  | cons q props id' hq hnew _ ih =>
    rw [findProperty_cons]
    rcases List.mem_cons.mp hp with rfl | hmem
    · rw [if_pos hid]
    · rw [if_neg, ih hmem]
      intro heq
      rw [hq] at heq
      exact findProperty_eq_none.mp hnew p hmem (hid.trans heq.symm)

/-- A property with others behind it has a name, and they do not have it. -/
theorem IsLineage.of_cons (h : IsLineage (p :: props)) (hprops : props ≠ []) :
    ∃ id, p.propid = some id ∧ findProperty props id = none ∧ IsLineage props := by
  cases h with
  | root => exact absurd rfl hprops
  | cons _ _ id hp hnew h => exact ⟨id, hp, hnew, h⟩

/-- A property with a name has others behind it. -/
theorem IsLineage.of_named (h : IsLineage (p :: props)) (hp : p.propid = some id) :
    findProperty props id = none ∧ IsLineage props := by
  cases h with
  | root _ he =>
    rw [hp] at he
    cases he
  | cons _ _ id' hid hnew h =>
    rw [hp] at hid
    rw [Option.some_inj.mp hid]
    exact ⟨hnew, h⟩

/-- What is behind some properties of a lineage is one, too. -/
theorem IsLineage.of_append (h : IsLineage (before ++ p :: after)) : IsLineage (p :: after) := by
  induction before with
  | nil => exact h
  | cons b before ih =>
    have hne := List.append_ne_nil_of_right_ne_nil before (List.cons_ne_nil p after)
    obtain ⟨_, _, _, h⟩ := IsLineage.of_cons h hne
    exact ih h

/-- There are others behind a property with a name. -/
theorem IsLineage.ne_nil (h : IsLineage (before ++ p :: after)) (hp : p.propid = some id) :
    after ≠ [] := by
  rintro rfl
  cases (h.of_append.of_named hp).2

/-- A lineage without one of its properties. -/
theorem IsLineage.remove (h : IsLineage (before ++ p :: after)) (hp : p.propid = some id) :
    IsLineage (before ++ after) := by
  induction before with
  | nil => exact (h.of_named hp).2
  | cons b before ih =>
    have hne := List.append_ne_nil_of_right_ne_nil before (List.cons_ne_nil p after)
    obtain ⟨id', hb, hnew, h⟩ := IsLineage.of_cons h hne
    apply IsLineage.cons b (before ++ after) id' hb _ (ih h)
    rw [findProperty_eq_none] at hnew ⊢
    intro q hq
    apply hnew q
    rcases List.mem_append.mp hq with hq | hq
    · exact List.mem_append_left _ hq
    · exact List.mem_append_right _ (List.mem_cons_of_mem p hq)

/-- What is found without one of the properties. -/
theorem IsLineage.findProperty_remove (h : IsLineage (before ++ p :: after))
    (hp : p.propid = some id) (id' : PropId) :
    findProperty (before ++ after) id' =
      if id' = id then none else findProperty (before ++ p :: after) id' := by
  induction before with
  | nil =>
    rw [List.nil_append, List.nil_append, findProperty_cons, hp]
    by_cases hid : id' = id
    · rw [if_pos hid, hid, (h.of_named hp).1]
    · rw [if_neg hid, if_neg (fun heq => hid (Option.some_inj.mp heq).symm)]
  | cons b before ih =>
    have hne := List.append_ne_nil_of_right_ne_nil before (List.cons_ne_nil p after)
    obtain ⟨id'', hb, hnew, h⟩ := IsLineage.of_cons h hne
    rw [List.cons_append, List.cons_append, findProperty_cons, findProperty_cons, ih h]
    by_cases hb' : b.propid = some id'
    · rw [if_pos hb', if_neg, if_pos hb']
      rintro rfl
      rw [hb] at hb'
      rw [Option.some_inj.mp hb', findProperty_eq_none] at hnew
      exact hnew p (List.mem_append_right _ List.mem_cons_self) hp
    · rw [if_neg hb', if_neg hb']

/-! ## Dictionaries -/

/-- The table is handed over by its owner. -/
theorem Dictionary.handoffTableTo_eq {old : ℕ} (howner : d.owner = old) (shape : ℕ) :
    d.handoffTableTo old shape = some { d with owner := shape } := by
  rw [Dictionary.handoffTableTo]
  by_cases heq : old = shape
  · rw [if_pos heq, ← heq, ← howner]
  · rw [if_neg heq, howner]
    simp only [guard_true, Option.pure_def, Option.bind_eq_bind, Option.bind_some]

/-- A shape in front is entered in the table under its name. -/
theorem update_table_iff {table : PropId → Option ℕ} {shapes : ℕ → Property}
    (hself : (shapes node).propid = some id) (hnew : ∀ other ∈ rest, (shapes other).propid ≠ some id)
    (htable : ∀ id' other, id' ≠ id →
      (table id' = some other ↔ other ∈ rest ∧ (shapes other).propid = some id')) (id' : PropId)
    (other : ℕ) : Function.update table id (some node) id' = some other ↔
      other ∈ node :: rest ∧ (shapes other).propid = some id' := by
  rw [Function.update_apply, List.mem_cons]
  by_cases heq : id' = id
  · rw [if_pos heq, heq]
    constructor
    · rintro ⟨⟩
      exact ⟨Or.inl rfl, hself⟩
    · rintro ⟨rfl | hother, hnamed⟩
      · rfl
      · exact absurd hnamed (hnew other hother)
  · rw [if_neg heq, htable id' other heq]
    constructor
    · rintro ⟨hother, hnamed⟩
      exact ⟨Or.inr hother, hnamed⟩
    · rintro ⟨rfl | hother, hnamed⟩
      · rw [hself] at hnamed
        exact absurd (Option.some_inj.mp hnamed).symm heq
      · exact ⟨hother, hnamed⟩

/-- The list of a dictionary's shapes. -/
structure Dictionary.Holds (d : Dictionary) (next : ℕ) (nodes : List ℕ) : Prop where
  chain : Chain d.list none nodes
  lt_next : ∀ node ∈ nodes, node < next
  lineage : IsLineage (nodes.map d.shapes)
  table : ∀ id node, d.table id = some node ↔ node ∈ nodes ∧ (d.shapes node).propid = some id

namespace Dictionary.Holds

/-- The last property of a dictionary is the head of its list. -/
theorem lastProperty_eq (hd : d.Holds next nodes) : d.lastProperty = nodes.head? := by
  have hchain : Chain d.list none ([] ++ nodes) := hd.chain
  exact hchain.read_lastPlace

/-- The shapes of a list are different ones. -/
theorem nodup (hd : d.Holds next nodes) : nodes.Nodup :=
  List.Nodup.of_map some (List.nodup_cons.mp hd.chain.nodup).2

/-- The table finds what is first in the list. -/
theorem search_eq (hd : d.Holds next nodes) (id : PropId) :
    (d.table id).map d.shapes = findProperty (nodes.map d.shapes) id := by
  cases hfind : findProperty (nodes.map d.shapes) id with
  | none =>
    rw [findProperty_eq_none] at hfind
    cases htable : d.table id with
    | none => rfl
    | some node =>
      obtain ⟨hmem, hid⟩ := (hd.table id node).mp htable
      exact absurd hid (hfind _ (List.mem_map_of_mem hmem))
  | some p =>
    obtain ⟨hmem, hid⟩ := of_findProperty hfind
    obtain ⟨node, hnode, rfl⟩ := List.mem_map.mp hmem
    rw [(hd.table id node).mpr ⟨hnode, hid⟩]
    rfl

/-- The pointer to the last property is the object's. -/
theorem back_lastProperty (hd : d.Holds next nodes) (hlast : d.lastProperty = some node) :
    d.list.back node = some none := by
  rw [hd.lastProperty_eq] at hlast
  obtain ⟨rest, rfl⟩ := List.head?_eq_some_iff.mp hlast
  have hchain : Chain d.list none ([] ++ node :: rest) := hd.chain
  exact hchain.middle.2

/-- A shape that is not there yet. -/
theorem next_notMem (hd : d.Holds next nodes) : next ∉ nodes :=
  fun hmem => lt_irrefl next (hd.lt_next next hmem)

/-- A fresh shape says what it is to say. -/
theorem shapes_initDictionaryShape_self (d : Dictionary) (next : ℕ) (p : Property) :
    (d.initDictionaryShape next p none).shapes next = p := by
  change Function.update d.shapes next p next = p
  rw [Function.update_self]

/-- The others say what they said. -/
theorem shapes_initDictionaryShape (hd : d.Holds next nodes) (p : Property) (hnode : node ∈ nodes) :
    (d.initDictionaryShape next p none).shapes node = d.shapes node := by
  change Function.update d.shapes next p node = d.shapes node
  apply Function.update_of_ne
  rintro rfl
  exact hd.next_notMem hnode

/-- A fresh shape is put in front. -/
theorem initDictionaryShape_chain (hd : d.Holds next nodes) (p : Property) :
    Chain (d.initDictionaryShape next p none).list none (next :: nodes) := by
  have hchain : Chain (d.list.setBack next none) none ([] ++ nodes) :=
    hd.chain.setBack hd.next_notMem none
  apply hchain.insert
  intro hmem
  rcases List.mem_cons.mp hmem with heq | hmem
  · cases heq
  · obtain ⟨node, hnode, heq⟩ := List.mem_map.mp hmem
    exact hd.next_notMem (Option.some_inj.mp heq ▸ hnode)

/-- The last property is replaced by a fresh shape. -/
theorem replaceWithNewEquivalentShape (hd : d.Holds next (h :: rest)) (howner : d.owner = h) :
    ∃ d', d.replaceWithNewEquivalentShape h next = some d' ∧ d'.Holds (next + 1) (next :: rest) ∧
      d'.owner = next ∧ (next :: rest).map d'.shapes = (h :: rest).map d.shapes := by
  have hne : next ≠ h := fun heq => hd.next_notMem (heq ▸ List.mem_cons_self)
  set d₁ := d.initDictionaryShape next (d.shapes h) none with hd₁
  have hchain : Chain d₁.list none ([next] ++ h :: rest) := hd.initDictionaryShape_chain (d.shapes h)
  have hchain₀ : Chain d₁.list none ([] ++ next :: h :: rest) := hchain
  obtain ⟨list, hlist, hchain', _⟩ := hchain.remove
  have hlast : list.head = some next :=
    (show Chain list none ([] ++ next :: rest) from hchain').middle.1
  have hself : d₁.shapes next = d.shapes h := shapes_initDictionaryShape_self d next (d.shapes h)
  have hothers (node : ℕ) (hnode : node ∈ rest) : d₁.shapes node = d.shapes node :=
    hd.shapes_initDictionaryShape (d.shapes h) (List.mem_cons_of_mem h hnode)
  have hmap : (next :: rest).map d₁.shapes = (h :: rest).map d.shapes := by
    rw [List.map_cons, List.map_cons, hself, List.map_congr_left hothers]
  have hremove : d₁.removeFromDictionary h = some { d₁ with list } := by
    rw [Dictionary.removeFromDictionary, show d₁.list.head = some next from hchain₀.middle.1,
      Option.bind_eq_bind, Option.bind_some, show d₁.list.back next = some none from hchain₀.middle.2,
      hlist]
    rfl
  have hhandoff : Dictionary.handoffTableTo { d₁ with list } h next =
      some { d₁ with list, owner := next } :=
    Dictionary.handoffTableTo_eq (d := { d₁ with list }) howner next
  have hholds (table : PropId → Option ℕ) (htable : ∀ id node, table id = some node ↔
      node ∈ next :: rest ∧ (d₁.shapes node).propid = some id) :
      Dictionary.Holds { d₁ with list, table, owner := next } (next + 1) (next :: rest) := by
    refine ⟨hchain', ?_, hmap ▸ hd.lineage, htable⟩
    intro node hnode
    rcases List.mem_cons.mp hnode with rfl | hnode
    · exact Nat.lt_succ_self node
    · exact Nat.lt_succ_of_lt (hd.lt_next node (List.mem_cons_of_mem h hnode))
  rw [Dictionary.replaceWithNewEquivalentShape, hd.lastProperty_eq, howner,
    hd.back_lastProperty hd.lastProperty_eq]
  simp only [List.head?_cons, guard_true, Option.bind_eq_bind, Option.bind_some, ← hd₁,
    show d₁.list.next next = some h from hchain₀.next, hremove, Dictionary.lastProperty, hlast, if_pos,
    hhandoff, Option.pure_def]
  cases hid : (d.shapes h).propid with
  | none =>
    refine ⟨_, rfl, hholds d.table ?_, rfl, hmap⟩
    intro id node
    rw [hd.table, List.mem_cons, List.mem_cons]
    constructor
    · rintro ⟨rfl | hnode, hnamed⟩
      · rw [hid] at hnamed
        cases hnamed
      · exact ⟨Or.inr hnode, (hothers node hnode).symm ▸ hnamed⟩
    · rintro ⟨rfl | hnode, hnamed⟩
      · rw [hself, hid] at hnamed
        cases hnamed
      · exact ⟨Or.inr hnode, hothers node hnode ▸ hnamed⟩
  | some id₀ =>
    have hlineage : IsLineage (d.shapes h :: rest.map d.shapes) := hd.lineage
    have hnew := findProperty_eq_none.mp (hlineage.of_named hid).1
    refine ⟨_, rfl, hholds (Function.update d.table id₀ (some next)) ?_, rfl, hmap⟩
    apply update_table_iff
    · rw [hself, hid]
    · intro other hother
      rw [hothers other hother]
      exact hnew _ (List.mem_map_of_mem hother)
    · intro id other heq
      rw [hd.table, List.mem_cons]
      constructor
      · rintro ⟨rfl | hother, hnamed⟩
        · rw [hid] at hnamed
          exact absurd (Option.some_inj.mp hnamed).symm heq
        · exact ⟨hother, (hothers other hother).symm ▸ hnamed⟩
      · rintro ⟨hother, hnamed⟩
        exact ⟨Or.inr hother, hothers other hother ▸ hnamed⟩

/-- A shape is taken out of the list and of the table. -/
theorem remove (hd : d.Holds next (pre ++ node :: post)) (hid : (d.shapes node).propid = some id) :
    ∃ list, d.list.remove node = some list ∧
      Dictionary.Holds { d with list, table := Function.update d.table id none } next
        (pre ++ post) := by
  obtain ⟨list, hlist, hchain, _⟩ := hd.chain.remove
  have hlineage := hd.lineage
  rw [List.map_append, List.map_cons] at hlineage
  have hsub : pre ++ post ⊆ pre ++ node :: post :=
    List.append_subset.mpr ⟨List.subset_append_left pre _, fun other hother =>
      List.mem_append_right pre (List.mem_cons_of_mem node hother)⟩
  refine ⟨list, hlist, hchain, fun other hother => hd.lt_next other (hsub hother), ?_, ?_⟩
  · rw [List.map_append]
    exact hlineage.remove hid
  · intro id' other
    change Function.update d.table id none id' = some other ↔ _ ∧ (d.shapes other).propid = some id'
    rw [Function.update_apply]
    have hfind := hlineage.findProperty_remove hid id'
    rw [← List.map_append] at hfind
    by_cases heq : id' = id
    · rw [if_pos heq] at hfind ⊢
      constructor
      · exact nofun
      · rintro ⟨hother, hnamed⟩
        exact absurd hnamed (findProperty_eq_none.mp hfind _ (List.mem_map_of_mem hother))
    · rw [if_neg heq, hd.table]
      constructor
      · rintro ⟨hother, hnamed⟩
        rw [List.mem_append, List.mem_cons] at hother
        rcases hother with hother | rfl | hother
        · exact ⟨List.mem_append_left post hother, hnamed⟩
        · rw [hid] at hnamed
          exact absurd (Option.some_inj.mp hnamed).symm heq
        · exact ⟨List.mem_append_right pre hother, hnamed⟩
      · rintro ⟨hother, hnamed⟩
        exact ⟨hsub hother, hnamed⟩

/-- A property is removed, and the last one gets a fresh shape. -/
theorem removeShape (hd : d.Holds next (pre ++ node :: post))
    (hid : (d.shapes node).propid = some id) (howner : d.lastProperty = some d.owner) :
    ∃ d', d.removeShape id node next = some d' ∧ d'.Holds (next + 1) (next :: (pre ++ post).tail) ∧
      d'.lastProperty = some d'.owner ∧
      (next :: (pre ++ post).tail).map d'.shapes = (pre ++ post).map d.shapes := by
  obtain ⟨list, hlist, hholds⟩ := hd.remove hid
  have hlineage := hd.lineage
  rw [List.map_append, List.map_cons] at hlineage
  have hpost : post ≠ [] := fun heq => hlineage.ne_nil hid (heq ▸ rfl)
  obtain ⟨last, rest, hlast⟩ : ∃ last rest, pre ++ post = last :: rest :=
    List.exists_cons_of_ne_nil (List.append_ne_nil_of_right_ne_nil pre hpost)
  rw [hlast] at hholds ⊢
  set d₁ : Dictionary := { d with list, table := Function.update d.table id none } with hd₁
  have hremove : Dictionary.removeFromDictionary
      { d with table := Function.update d.table id none } node = some d₁ := by
    rw [Dictionary.removeFromDictionary, show d.list.head = some d.owner from howner, hlist,
      Option.bind_eq_bind, Option.bind_some, hd.back_lastProperty howner]
    simp only [guard_true, Option.pure_def, hd₁]
    rfl
  have hhandoff : d₁.handoffTableTo d.owner last = some { d₁ with owner := last } :=
    Dictionary.handoffTableTo_eq rfl last
  have hholds' : Dictionary.Holds { d₁ with owner := last } next (last :: rest) :=
    ⟨hholds.chain, hholds.lt_next, hholds.lineage, hholds.table⟩
  obtain ⟨d', hd', hholds'', hown, hmap⟩ := hholds'.replaceWithNewEquivalentShape rfl
  refine ⟨d', ?_, hholds'', ?_, hmap⟩
  · have hlast₁ : d₁.lastProperty = some last := hholds.lastProperty_eq
    have hlast₀ : Dictionary.lastProperty { d with table := Function.update d.table id none } =
      some d.owner := howner
    rw [Dictionary.removeShape, hlast₀]
    simp only [Option.bind_eq_bind, Option.bind_some, hremove, hlast₁, hhandoff, hd']
  · rw [hholds''.lastProperty_eq, hown]
    rfl

/-- A property is added. -/
theorem addShape (hd : d.Holds next nodes) {child : Property} (hid : child.propid = some id)
    (hnew : findProperty (nodes.map d.shapes) id = none) (howner : d.lastProperty = some d.owner) :
    ∃ d', d.addShape id child next = some d' ∧ d'.Holds (next + 1) (next :: nodes) ∧
      d'.lastProperty = some d'.owner ∧
      (next :: nodes).map d'.shapes = child :: nodes.map d.shapes := by
  have hlast := hd.lastProperty_eq.symm.trans howner
  obtain ⟨rest, hnodes⟩ := List.head?_eq_some_iff.mp hlast
  have hchain : Chain (d.initDictionaryShape next child none).list none ([] ++ next :: nodes) :=
    hd.initDictionaryShape_chain child
  have hparent : (d.initDictionaryShape next child none).list.next next = some d.owner :=
    hchain.next.trans hlast
  have hself : (d.initDictionaryShape next child none).shapes next = child :=
    shapes_initDictionaryShape_self d next child
  have hothers (node : ℕ) (hnode : node ∈ nodes) :
      (d.initDictionaryShape next child none).shapes node = d.shapes node :=
    hd.shapes_initDictionaryShape child hnode
  have hmap : (next :: nodes).map (d.initDictionaryShape next child none).shapes =
      child :: nodes.map d.shapes := by
    rw [List.map_cons, hself, List.map_congr_left hothers]
  refine ⟨{ d.initDictionaryShape next child none with
    table := Function.update d.table id (some next), owner := next }, ?_, ⟨hchain, ?_, ?_, ?_⟩, ?_, hmap⟩
  · have hhandoff : Dictionary.handoffTableTo
        { d.initDictionaryShape next child none with table := Function.update d.table id (some next) }
        d.owner next = _ := Dictionary.handoffTableTo_eq rfl next
    rw [Dictionary.addShape]
    simp only [hparent, Option.bind_eq_bind, Option.bind_some]
    exact hhandoff
  · intro node hnode
    rcases List.mem_cons.mp hnode with rfl | hnode
    · exact Nat.lt_succ_self node
    · exact Nat.lt_succ_of_lt (hd.lt_next node hnode)
  · rw [hmap]
    exact IsLineage.cons child _ id hid hnew hd.lineage
  · intro id' node
    change Function.update d.table id (some next) id' = some node ↔
      _ ∧ ((d.initDictionaryShape next child none).shapes node).propid = some id'
    apply update_table_iff
    · rw [hself, hid]
    · intro other hother
      rw [hothers other hother]
      exact findProperty_eq_none.mp hnew _ (List.mem_map_of_mem hother)
    · intro id'' other _
      rw [hd.table, and_congr_right_iff]
      intro hother
      rw [hothers other hother]
  · exact hchain.middle.1

end Dictionary.Holds

/-! ## Making a dictionary -/

/-- The table finds the first shape with a name. -/
theorem hashify_eq (shapes : ℕ → Property) (nodes : List ℕ) (id : PropId) :
    hashify shapes nodes id = nodes.find? fun node => (shapes node).propid = some id := by
  have hfold (f : (PropId → Option ℕ) → ℕ → PropId → Option ℕ)
      (hnone : ∀ table shape, (shapes shape).propid = none → f table shape = table)
      (hsome : ∀ table shape id, (shapes shape).propid = some id →
        f table shape = if (table id).isNone then Function.update table id (some shape) else table)
      (table : PropId → Option ℕ) :
      nodes.foldl f table id = (table id).or (nodes.find? fun node => (shapes node).propid = some id) := by
    induction nodes generalizing table with
    | nil => exact (Option.or_none).symm
    | cons node nodes ih =>
      rw [List.foldl_cons, ih, List.find?_cons]
      cases hid : (shapes node).propid with
      | none => simp [hnone table node hid]
      | some id' =>
        rw [hsome table node id' hid]
        by_cases heq : id' = id
        · rw [heq, decide_eq_true rfl]
          cases htable : table id with
          | none => simp [htable]
          | some other => simp [htable]
        · rw [decide_eq_false (fun h => heq (Option.some_inj.mp h))]
          cases htable : table id' with
          | none => simp [htable, Function.update_of_ne (Ne.symm heq)]
          | some other => simp [htable]
  exact (hfold _ (fun _ _ hid => by simp only [hid]) (fun _ _ _ hid => by simp only [hid]) fun _ => none).trans
    Option.none_or

/-- The first shape with a name is the only one. -/
theorem IsLineage.find?_eq_some {shapes : ℕ → Property} (h : IsLineage (nodes.map shapes)) :
    nodes.find? (fun node => (shapes node).propid = some id) = some node ↔
      node ∈ nodes ∧ (shapes node).propid = some id := by
  induction nodes with
  | nil => cases h
  | cons first nodes ih =>
    rw [List.find?_cons, List.mem_cons]
    by_cases hfirst : (shapes first).propid = some id
    · have hnew := findProperty_eq_none.mp (h.of_named hfirst).1
      rw [decide_eq_true hfirst]
      constructor
      · rintro ⟨⟩
        exact ⟨Or.inl rfl, hfirst⟩
      · rintro ⟨rfl | hmem, hid⟩
        · rfl
        · exact absurd hid (hnew _ (List.mem_map_of_mem hmem))
    · rw [decide_eq_false hfirst]
      cases nodes with
      | nil =>
        constructor
        · exact nofun
        · rintro ⟨rfl | hmem, hid⟩
          · exact absurd hid hfirst
          · cases hmem
      | cons second nodes =>
        obtain ⟨_, _, _, hrest⟩ := IsLineage.of_cons h (List.cons_ne_nil _ _)
        rw [ih hrest, and_congr_left_iff]
        intro hid
        constructor
        · exact Or.inr
        · rintro (rfl | hmem)
          · exact absurd hid hfirst
          · exact hmem

/-- Cloning puts fresh shapes at the end of the list. -/
theorem cloneShapes_eq {memory : ℕ → Bool} {c c' : Cloning} {steps steps' : ℕ}
    (hchain : Chain c.list none nodes) (hlast : c.dictionaryShape = lastPlace none nodes)
    (hlt : ∀ node ∈ nodes, node < c.nextShape)
    (hclone : cloneShapes memory props c steps = (some c', steps')) :
    Chain c'.list none (nodes ++ List.range' c.nextShape props.length) ∧
      (nodes ++ List.range' c.nextShape props.length).map c'.shapes = nodes.map c.shapes ++ props ∧
      c'.nextShape = c.nextShape + props.length := by
  induction props generalizing c nodes steps with
  | nil =>
    cases hclone
    rw [List.length_nil, List.range'_zero, List.append_nil, List.append_nil]
    exact ⟨hchain, rfl, rfl⟩
  | cons child props ih =>
    have hnew : c.nextShape ∉ nodes := fun hmem => lt_irrefl _ (hlt _ hmem)
    rw [cloneShapes] at hclone
    by_cases hmemory : memory steps
    · rw [if_pos hmemory] at hclone
      have hchain' : Chain (c.clone child).list none (nodes ++ [c.nextShape]) := by
        have hset : Chain (c.list.setBack c.nextShape none) none (nodes ++ []) := by
          rw [List.append_nil]
          exact hchain.setBack hnew none
        have hinsert := hset.insert (v := c.nextShape)
        rw [← hlast] at hinsert
        apply hinsert
        intro hmem
        rw [List.append_nil] at hmem
        rcases List.mem_cons.mp hmem with heq | hmem
        · cases heq
        · obtain ⟨node, hnode, heq⟩ := List.mem_map.mp hmem
          exact hnew (Option.some_inj.mp heq ▸ hnode)
      have hmap : (nodes ++ [c.nextShape]).map (c.clone child).shapes = nodes.map c.shapes ++ [child] := by
        rw [List.map_append]
        congr 1
        · apply List.map_congr_left
          intro node hnode
          apply Function.update_of_ne
          rintro rfl
          exact hnew hnode
        · change [Function.update c.shapes c.nextShape child c.nextShape] = [child]
          rw [Function.update_self]
      have hlt' (node : ℕ) (hnode : node ∈ nodes ++ [c.nextShape]) : node < c.nextShape + 1 := by
        rcases List.mem_append.mp hnode with hnode | hnode
        · exact Nat.lt_succ_of_lt (hlt node hnode)
        · rw [List.mem_singleton.mp hnode]
          exact Nat.lt_succ_self _
      obtain ⟨hchain'', hmap', hnext⟩ := ih hchain' (lastPlace_append none nodes [_]).symm hlt' hclone
      rw [hmap, List.append_assoc, List.append_assoc] at hmap'
      rw [List.append_assoc] at hchain''
      rw [List.length_cons, List.range'_succ]
      refine ⟨hchain'', hmap', hnext.trans ?_⟩
      change c.nextShape + 1 + props.length = _
      omega
    · rw [if_neg hmemory] at hclone
      cases hclone

/-- An object is made a dictionary of the same properties, or stays as it is. -/
theorem toDictionaryMode_eq (memory : ℕ → Bool) (s : State V) (hprops : IsLineage props) :
    (∃ steps, toDictionaryMode memory s props = some (none, { s with steps })) ∨
    ∃ d nodes next steps, toDictionaryMode memory s props = some (some d,
      ⟨{ s.obj with lineage := .dictionary d, nextShape := next }, steps⟩) ∧
      d.Holds next nodes ∧ d.lastProperty = some d.owner ∧ nodes.map d.shapes = props := by
  rw [toDictionaryMode]
  set c₀ : Cloning := ⟨fun _ => ⟨none, SHAPE_INVALID_SLOT, 0, true, true⟩, ⟨none, fun _ => none,
    fun _ => none⟩, s.obj.nextShape, none⟩ with hc₀
  cases hclone : cloneShapes memory props c₀ s.steps with
  | mk r steps =>
    cases r with
    | none => exact Or.inl ⟨steps, rfl⟩
    | some c =>
      by_cases hmemory : memory steps
      · apply Or.inr
        have hchain₀ : Chain c₀.list none [] := ⟨List.nodup_singleton none, nofun, rfl⟩
        obtain ⟨hchain, hmap, hnext⟩ := cloneShapes_eq hchain₀ rfl nofun hclone
        obtain ⟨child, rest, rfl⟩ : ∃ child rest, props = child :: rest := by
          cases hprops with
          | root p => exact ⟨p, [], rfl⟩
          | cons p props => exact ⟨p, props, rfl⟩
        let nodes := List.range' s.obj.nextShape (child :: rest).length
        have hmap' : nodes.map c.shapes = child :: rest := hmap
        have hhead : c.list.head = some s.obj.nextShape := hchain.read_lastPlace
        have hlineage : IsLineage (nodes.map c.shapes) := hmap' ▸ hprops
        refine ⟨⟨c.shapes, c.list, hashify c.shapes nodes, s.obj.nextShape⟩, nodes, c.nextShape,
          steps + 1, ?_, ⟨hchain, ?_, hlineage, ?_⟩, hhead, hmap'⟩
        · simp [hmemory, hhead, nodes]
        · intro node hnode
          have hlt := (List.mem_range'_1.mp hnode).2
          rw [hnext]
          exact hlt
        · intro id node
          change hashify c.shapes nodes id = some node ↔ _
          rw [hashify_eq]
          exact hlineage.find?_eq_some
      · exact Or.inl ⟨steps + 1, by simp [hmemory]⟩

end SpiderMonkey.Vm.SparseElements
