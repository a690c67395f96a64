import SpiderMonkey.Vm.SparseElementsDictionary

/-!
# Objects with sparse elements

What an object holds is a lineage of properties, shared or in a dictionary, each with a value in a slot
of its own, and no index is both a property and a dense element. Removing a property and adding one
either change the lineage by the property, or leave it as it is.
-/

namespace SpiderMonkey.Vm.SparseElements

open Lib

variable {V : Type} {d : Dictionary} {lineage : Lineage} {obj : NativeObject V}
  {nodes pre post : List ℕ} {next node : ℕ} {props : List Property} {id : PropId}

/-! ## Objects -/

/-- The properties that are shared or in a dictionary. -/
inductive Lineage.Holds : Lineage → ℕ → List Property → Prop where
  | tree (next : ℕ) (props : List Property) (h : IsLineage props) : Holds (.tree props) next props
  | dictionary (d : Dictionary) (next : ℕ) (nodes : List ℕ) (hd : d.Holds next nodes)
      (howner : d.lastProperty = some d.owner) : Holds (.dictionary d) next (nodes.map d.shapes)

/-- The properties are a lineage. -/
theorem Lineage.Holds.isLineage (h : lineage.Holds next props) : IsLineage props := by
  cases h with
  | tree _ _ h => exact h
  | dictionary _ _ _ hd _ => exact hd.lineage

/-- Searching finds what is first among the properties. -/
theorem Lineage.Holds.search_eq (h : lineage.Holds next props) (id : PropId) :
    lineage.search id = findProperty props id := by
  cases h with
  | tree _ _ _ => rfl
  | dictionary _ _ _ hd _ => exact hd.search_eq id

/-- A property with a value in a slot. -/
def Property.HasValue (p : Property) : Prop := p.propid ≠ none ∧ p.hasSlot

instance (p : Property) : Decidable p.HasValue :=
  inferInstanceAs (Decidable (p.propid ≠ none ∧ p.hasSlot))

/-- What an object holds. -/
structure NativeObject.Holds (obj : NativeObject V) (props : List Property) : Prop where
  lineage : obj.lineage.Holds obj.nextShape props
  slot : ∀ p ∈ props, p.HasValue → p.slot < obj.slotSpan ∧ (obj.slots p.slot).isSome
  distinct : ∀ p ∈ props, ∀ q ∈ props, p.HasValue → q.HasValue → p.slot = q.slot → p = q
  exclusive : ∀ p ∈ props, ∀ i, p.propid = some (.index i) → obj.dense[i]?.join = none

/-- A property of an object's own is a dense element, or found among the properties. -/
theorem NativeObject.getOwnProperty_eq (h : obj.lineage.Holds next props) (id : PropId) :
    obj.getOwnProperty id =
      (denseOwn obj.dense id).or ((findProperty props id).map (shapeOwn obj.slots)) := by
  rw [NativeObject.getOwnProperty, h.search_eq]

/-! ## Removing properties -/

/-- A property is removed from a dictionary, or the object stays as it is. -/
theorem removeProperty_eq (memory : ℕ → Bool) (s : State V) (hobj : s.obj.lineage = .dictionary d)
    (hd : d.Holds s.obj.nextShape (pre ++ node :: post)) (howner : d.lastProperty = some d.owner)
    (hid : (d.shapes node).propid = some id)
    (hslot : (d.shapes node).hasSlot → (d.shapes node).slot < s.obj.slotSpan) :
    (∃ steps, removeProperty memory s id = some (false, { s with steps })) ∨
    ∃ d' steps, removeProperty memory s id = some (true, ⟨{ s.obj with
        lineage := .dictionary d'
        nextShape := s.obj.nextShape + 1
        slots := if (d.shapes node).hasSlot then Function.update s.obj.slots (d.shapes node).slot none
          else s.obj.slots }, steps⟩) ∧
      d'.Holds (s.obj.nextShape + 1) (s.obj.nextShape :: (pre ++ post).tail) ∧
      d'.lastProperty = some d'.owner ∧
      (s.obj.nextShape :: (pre ++ post).tail).map d'.shapes = (pre ++ post).map d.shapes := by
  have htable : d.table id = some node :=
    (hd.table id node).mpr ⟨List.mem_append_right pre List.mem_cons_self, hid⟩
  have hnext : (d.list.next node).isNone = false := by
    have hlineage := hd.lineage
    rw [List.map_append, List.map_cons] at hlineage
    have hpost : post ≠ [] := fun heq => hlineage.ne_nil hid (heq ▸ rfl)
    rw [hd.chain.next, List.head?_eq_some_head hpost]
    rfl
  rw [removeProperty]
  simp only [hobj, howner, guard_true, htable, hnext, Bool.false_eq_true, and_false, if_false,
    Option.pure_def, Option.bind_eq_bind, Option.bind_some]
  by_cases hspare : memory s.steps
  · rw [if_neg (by simp [hspare])]
    by_cases hlast : some d.owner = some node ∧ (!memory s.step.steps) = true
    · rw [if_pos hlast]
      exact Or.inl ⟨s.steps + 2, rfl⟩
    · obtain ⟨d', hd', hholds, howner', hmap⟩ := hd.removeShape hid howner
      have hguard : (guard ((d.shapes node).hasSlot → (d.shapes node).slot < s.step.obj.slotSpan) :
          Option Unit) = some () := if_pos hslot
      rw [if_neg hlast, hguard, hd']
      exact Or.inr ⟨d', s.steps + 2, rfl, hholds, howner', hmap⟩
  · rw [if_pos (by simp [hspare])]
    exact Or.inl ⟨s.steps + 1, rfl⟩

/-! ## Adding properties -/

/-- A property is added to a dictionary, or the object stays as it is. -/
theorem addToDictionary_eq (memory : ℕ → Bool) (s : State V) (child : Property)
    (hd : d.Holds s.obj.nextShape nodes) (howner : d.lastProperty = some d.owner)
    (hchild : child.propid = some id) (hnew : findProperty (nodes.map d.shapes) id = none) :
    (∃ steps, addToDictionary memory s d id child = some (false, { s with steps })) ∨
    ∃ lineage steps, addToDictionary memory s d id child = some (true, ⟨{ s.obj with
        lineage
        nextShape := s.obj.nextShape + 1
        slotSpan := max s.obj.slotSpan (child.slot + 1)
        isIndexed := s.obj.isIndexed || (js_IdIsIndex id).isSome }, steps⟩) ∧
      lineage.Holds (s.obj.nextShape + 1) (child :: nodes.map d.shapes) := by
  rw [addToDictionary]
  by_cases hbase : memory s.steps
  · rw [if_neg (by simp [hbase])]
    by_cases hshape : memory (s.steps + 1)
    · rw [if_neg (by simp [hshape])]
      by_cases hslots : s.obj.slotSpan ≤ child.slot ∧ (!memory (s.steps + 2)) = true
      · rw [if_pos hslots]
        exact Or.inl ⟨s.steps + 3, rfl⟩
      · rw [if_neg hslots]
        obtain ⟨d', hd', hholds, howner', hmap⟩ := hd.addShape hchild hnew howner
        dsimp only
        rw [hd']
        refine Or.inr ⟨.dictionary d', s.steps + 3, rfl, ?_⟩
        rw [← hmap]
        exact .dictionary d' _ _ hholds howner'
    · rw [if_pos (by simp [hshape])]
      exact Or.inl ⟨s.steps + 2, rfl⟩
  · rw [if_pos (by simp [hbase])]
    exact Or.inl ⟨s.steps + 1, rfl⟩

/-- A property is added, or the object has the ones that it had. -/
theorem addDataProperty_eq (memory : ℕ → Bool) (s : State V)
    (h : s.obj.lineage.Holds s.obj.nextShape props) (hnew : findProperty props id = none)
    (slot attrs : ℕ) :
    (∃ lineage nextShape steps, addDataProperty memory s id slot attrs =
        some (false, ⟨{ s.obj with lineage, nextShape }, steps⟩) ∧ lineage.Holds nextShape props) ∨
    ∃ lineage nextShape steps, addDataProperty memory s id slot attrs = some (true, ⟨{ s.obj with
        lineage
        nextShape
        slotSpan := max s.obj.slotSpan (slot + 1)
        isIndexed := s.obj.isIndexed || (js_IdIsIndex id).isSome }, steps⟩) ∧
      lineage.Holds nextShape (⟨some id, slot, attrs, true, true⟩ :: props) := by
  rw [addDataProperty]
  by_cases hextensible : s.obj.extensible
  · rw [if_neg (by simp [hextensible])]
    have hsame := h
    cases hobj : s.obj.lineage with
    | tree own =>
      rw [hobj] at h
      cases h with
      | tree _ _ hlineage =>
        obtain ⟨last, rest, hlast⟩ : ∃ last rest, props = last :: rest := by
          cases hlineage with
          | root p => exact ⟨p, [], rfl⟩
          | cons p props => exact ⟨p, props, rfl⟩
        have hhead : props.head? = some last := by rw [hlast, List.head?_cons]
        simp only [hhead, Option.bind_eq_bind, Option.bind_some]
        split_ifs with hdictionary hbase hshape hslots
        · rcases toDictionaryMode_eq memory s hlineage with
            ⟨steps, heq⟩ | ⟨d, nodes, next, steps, heq, hd, howner, hmap⟩
          · rw [heq]
            exact Or.inl ⟨s.obj.lineage, s.obj.nextShape, steps, rfl, hsame⟩
          · rw [heq]
            rw [← hmap] at hnew ⊢
            set s' : State V := ⟨{ s.obj with lineage := .dictionary d, nextShape := next }, steps⟩
            rcases addToDictionary_eq memory s' ⟨some id, slot, attrs, true, true⟩ hd howner rfl
              hnew with ⟨steps', hadd⟩ | ⟨lineage, steps', hadd, hholds⟩
            · exact Or.inl ⟨.dictionary d, next, steps', hadd, .dictionary d next nodes hd howner⟩
            · exact Or.inr ⟨lineage, next + 1, steps', hadd, hholds⟩
        · exact Or.inl ⟨s.obj.lineage, s.obj.nextShape, s.steps + 1, rfl, hsame⟩
        · exact Or.inl ⟨s.obj.lineage, s.obj.nextShape, s.steps + 2, rfl, hsame⟩
        · exact Or.inl ⟨s.obj.lineage, s.obj.nextShape, s.steps + 3, rfl, hsame⟩
        · exact Or.inr ⟨_, s.obj.nextShape, s.steps + 3, rfl,
            .tree _ _ (IsLineage.cons _ props id rfl hnew hlineage)⟩
    | dictionary d =>
      rw [hobj] at h
      cases h with
      | dictionary _ _ nodes hd howner =>
        by_cases hgrow : memory s.steps
        · dsimp only
          rw [if_neg (by simp [hgrow])]
          rcases addToDictionary_eq memory s.step ⟨some id, slot, attrs, true, true⟩ hd howner rfl
            hnew with ⟨steps', hadd⟩ | ⟨lineage, steps', hadd, hholds⟩
          · exact Or.inl ⟨s.obj.lineage, s.obj.nextShape, steps', hadd, hsame⟩
          · exact Or.inr ⟨lineage, _, steps', hadd, hholds⟩
        · dsimp only
          rw [if_pos (by simp [hgrow])]
          exact Or.inl ⟨s.obj.lineage, s.obj.nextShape, s.steps + 1, rfl, hsame⟩
  · rw [if_pos (by simp [hextensible])]
    exact Or.inl ⟨s.obj.lineage, s.obj.nextShape, s.steps, rfl, h⟩

end SpiderMonkey.Vm.SparseElements
