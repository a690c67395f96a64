import Mathlib.Data.List.Perm.Subperm
import SpiderMonkey.Vm.SparseElementsObjects

/-!
# Dense and sparse elements are the same

An element that is made sparse, and a property that is made dense, is the same property of the object,
and so are all others, no matter where it fails. Making all elements dense comes by all properties:
those before the shape that the traversal is at are not indexed, and the ones from there on are those of
the list before, though the last one of the list is a fresh one each time.
-/

namespace SpiderMonkey.Vm.SparseElements

open Lib

variable {V : Type} {d : Dictionary} {lineage : Lineage} {obj obj' obj'' : NativeObject V}
  {memory : ℕ → Bool} {nodes pre post : List ℕ} {next node i : ℕ}
  {props props' before after : List Property} {p child : Property} {id : PropId} {v : V}

/-! ## Properties of an object -/

/-- An object has the properties that another one has. -/
structure NativeObject.Keeps (obj obj' : NativeObject V) (props : List Property) : Prop where
  holds : obj'.Holds props
  same : ∀ id, obj'.getOwnProperty id = obj.getOwnProperty id

/-- Properties are kept in several steps. -/
theorem NativeObject.Keeps.trans (h : obj.Keeps obj' props) (h' : obj'.Keeps obj'' props') :
    obj.Keeps obj'' props' :=
  ⟨h'.holds, fun id => (h'.same id).trans (h.same id)⟩

/-- Nothing changes without a step. -/
theorem NativeObject.Holds.keeps (h : obj.Holds props) : obj.Keeps obj props := ⟨h, fun _ => rfl⟩

/-- A property without a slot, or with the same value in it, is the same. -/
theorem shapeOwn_congr {slots slots' : ℕ → Option V} (h : p.hasSlot → slots' p.slot = slots p.slot) :
    shapeOwn slots' p = shapeOwn slots p := by
  rw [shapeOwn, shapeOwn]
  by_cases hp : p.hasSlot
  · rw [if_pos hp, if_pos hp, h hp]
  · rw [if_neg hp, if_neg hp]

/-- What is at an index after an element is set. -/
theorem join_set (dense : List (Option V)) (o : Option V) (hi : i < dense.length) (j : ℕ) :
    (dense.set i o)[j]?.join = if j = i then o else dense[j]?.join := by
  rw [List.getElem?_set]
  by_cases hj : j = i
  · rw [hj, if_pos rfl, if_pos hi, if_pos rfl, Option.join_some]
  · rw [if_neg (Ne.symm hj), if_neg hj]

/-- The other dense elements are the same after one is set. -/
theorem denseOwn_set (dense : List (Option V)) (o : Option V) (hi : i < dense.length)
    (hid : id ≠ .index i) : denseOwn (dense.set i o) id = denseOwn dense id := by
  cases id with
  | index j =>
    rw [denseOwn, denseOwn, join_set dense o hi, if_neg]
    rintro rfl
    exact hid rfl
  | name n => rfl

/-! ## One element -/

/-- A dense element is made a property. -/
theorem NativeObject.Holds.sparsify (h : obj.Holds props) (hv : obj.dense[i]? = some (some v))
    (hchild : child = ⟨some (.index i), obj.slotSpan, JSPROP_ENUMERATE, true, true⟩)
    (hlineage : lineage.Holds next (child :: props)) (isIndexed : Bool) :
    obj.Keeps { obj with
      lineage
      nextShape := next
      slotSpan := max obj.slotSpan (obj.slotSpan + 1)
      slots := Function.update obj.slots obj.slotSpan (some v)
      dense := obj.dense.set i none
      isIndexed } (child :: props) := by
  have hi : i < obj.dense.length := (List.getElem?_eq_some_iff.mp hv).1
  have hne (p : Property) (hp : p ∈ props) (hvalue : p.HasValue) : p.slot ≠ obj.slotSpan :=
    ne_of_lt (h.slot p hp hvalue).1
  have hslots (p : Property) (hp : p ∈ props) (hvalue : p.HasValue) :
      Function.update obj.slots obj.slotSpan (some v) p.slot = obj.slots p.slot :=
    Function.update_of_ne (hne p hp hvalue) _ _
  have hslot : child.slot = obj.slotSpan := by rw [hchild]
  have hnamed : child.propid = some (.index i) := by rw [hchild]
  constructor
  · refine ⟨hlineage, ?_, ?_, ?_⟩
    · intro p hp hvalue
      dsimp only
      rcases List.mem_cons.mp hp with rfl | hp
      · rw [hslot, Function.update_self]
        exact ⟨by omega, rfl⟩
      · rw [hslots p hp hvalue]
        obtain ⟨hlt, hsome⟩ := h.slot p hp hvalue
        exact ⟨by omega, hsome⟩
    · intro p hp q hq hpvalue hqvalue heq
      rcases List.mem_cons.mp hp with rfl | hp'
      · rcases List.mem_cons.mp hq with rfl | hq'
        · rfl
        · exact absurd (heq.symm.trans hslot) (hne q hq' hqvalue)
      · rcases List.mem_cons.mp hq with rfl | hq'
        · exact absurd (heq.trans hslot) (hne p hp' hpvalue)
        · exact h.distinct p hp' q hq' hpvalue hqvalue heq
    · intro p hp j hj
      dsimp only
      rw [join_set obj.dense none hi]
      by_cases hji : j = i
      · rw [if_pos hji]
      · rw [if_neg hji]
        rcases List.mem_cons.mp hp with rfl | hp
        · rw [hnamed] at hj
          cases hj
          exact absurd rfl hji
        · exact h.exclusive p hp j hj
  · intro id
    rw [NativeObject.getOwnProperty_eq h.lineage, NativeObject.getOwnProperty_eq hlineage,
      findProperty_cons]
    by_cases hid : id = .index i
    · rw [hid, if_pos hnamed, denseOwn, denseOwn, join_set obj.dense none hi, if_pos rfl, hv, hchild]
      simp [shapeOwn, Property.hasSlot, JSPROP_ENUMERATE, JSPROP_SHARED]
    · rw [if_neg (fun heq => hid (Option.some_inj.mp (hnamed.symm.trans heq)).symm),
        denseOwn_set obj.dense none hi hid]
      congr 1
      cases hfind : findProperty props id with
      | none => rfl
      | some p =>
        obtain ⟨hp, hpid⟩ := of_findProperty hfind
        rw [Option.map_some, Option.map_some]
        congr 1
        apply shapeOwn_congr
        intro hhas
        exact hslots p hp ⟨by rw [hpid]; exact nofun, hhas⟩

/-- A property is made a dense element. -/
theorem NativeObject.Holds.densify (h : obj.Holds (before ++ p :: after))
    (hid : p.propid = some (.index i)) (hattrs : p.attrs = JSPROP_ENUMERATE)
    (hget : p.hasDefaultGetter) (hset : p.hasDefaultSetter) (hi : i < obj.dense.length)
    (hv : obj.slots p.slot = some v) (hlineage : lineage.Holds next (before ++ after)) :
    obj.Keeps { obj with
      lineage
      nextShape := next
      slots := Function.update obj.slots p.slot none
      dense := obj.dense.set i (some v) } (before ++ after) := by
  have hhas : p.hasSlot := by rw [Property.hasSlot, hattrs]; rfl
  have hp : p ∈ before ++ p :: after := List.mem_append_right _ List.mem_cons_self
  have hpvalue : p.HasValue := ⟨by rw [hid]; exact nofun, hhas⟩
  have hall := h.lineage.isLineage
  have hremoved (id : PropId) := hall.findProperty_remove hid id
  have hsub (q : Property) (hq : q ∈ before ++ after) : q ∈ before ++ p :: after := by
    rcases List.mem_append.mp hq with hq | hq
    · exact List.mem_append_left _ hq
    · exact List.mem_append_right _ (List.mem_cons_of_mem p hq)
  have hnamed (q : Property) (hq : q ∈ before ++ after) : q.propid ≠ some (.index i) := by
    have hfind := hremoved (.index i)
    rw [if_pos rfl] at hfind
    exact findProperty_eq_none.mp hfind q hq
  have hslots (q : Property) (hq : q ∈ before ++ after) (hvalue : q.HasValue) :
      Function.update obj.slots p.slot none q.slot = obj.slots q.slot := by
    apply Function.update_of_ne
    intro heq
    have hqp := h.distinct q (hsub q hq) p hp hvalue hpvalue heq
    exact hnamed q hq (hqp ▸ hid)
  constructor
  · refine ⟨hlineage, ?_, ?_, ?_⟩
    · intro q hq hvalue
      dsimp only
      rw [hslots q hq hvalue]
      exact h.slot q (hsub q hq) hvalue
    · intro q hq r hr
      exact h.distinct q (hsub q hq) r (hsub r hr)
    · intro q hq j hj
      dsimp only
      rw [join_set obj.dense (some v) hi, if_neg]
      · exact h.exclusive q (hsub q hq) j hj
      · rintro rfl
        exact hnamed q hq hj
  · intro id
    rw [NativeObject.getOwnProperty_eq h.lineage, NativeObject.getOwnProperty_eq hlineage, hremoved]
    by_cases heq : id = .index i
    · rw [heq, if_pos rfl, denseOwn, denseOwn, join_set obj.dense (some v) hi, if_pos rfl,
        h.exclusive p hp i hid, hall.findProperty_mem hp hid]
      simp [shapeOwn, hhas, hv, hattrs, hget, hset]
    · rw [if_neg heq, denseOwn_set obj.dense (some v) hi heq]
      congr 1
      cases hfind : findProperty (before ++ p :: after) id with
      | none => rfl
      | some q =>
        obtain ⟨hq, hqid⟩ := of_findProperty hfind
        rw [Option.map_some, Option.map_some]
        congr 1
        apply shapeOwn_congr
        intro hqhas
        apply hslots q _ ⟨by rw [hqid]; exact nofun, hqhas⟩
        have hrest := hremoved id
        rw [if_neg heq, hfind] at hrest
        exact (of_findProperty hrest).1

/-! ## Making elements sparse -/

/-- A dense element becomes a property, or stays what it is. -/
theorem sparsifyDenseElement_keeps (memory : ℕ → Bool) (s : State V) (h : s.obj.Holds props)
    (hv : s.obj.dense[i]? = some (some v)) :
    ∃ ok s' props', sparsifyDenseElement memory s i = some (ok, s') ∧ s.obj.Keeps s'.obj props' ∧
      s'.obj.dense = if ok then s.obj.dense.set i none else s.obj.dense := by
  have hnew : findProperty props (.index i) = none := by
    rw [findProperty_eq_none]
    intro p hp hid
    have hhole := h.exclusive p hp i hid
    rw [hv] at hhole
    cases hhole
  set s₁ : State V := { s with obj := s.obj.setDenseElement i none } with hs₁
  have hlineage : s₁.obj.lineage.Holds s₁.obj.nextShape props := h.lineage
  rw [sparsifyDenseElement, hv]
  simp only [Option.bind_eq_bind, Option.bind_some, ← hs₁]
  rcases addDataProperty_eq memory s₁ hlineage hnew s.obj.slotSpan JSPROP_ENUMERATE with
    ⟨lineage, nextShape, steps, hadd, hholds⟩ | ⟨lineage, nextShape, steps, hadd, hholds⟩
  · have hback : (s.obj.dense.set i none).set i (some v) = s.obj.dense := by
      obtain ⟨hi, hget⟩ := List.getElem?_eq_some_iff.mp hv
      rw [List.set_set, ← hget, List.set_getElem_self]
    rw [hadd]
    refine ⟨false, _, props, rfl, ⟨⟨hholds, h.slot, h.distinct, ?_⟩, ?_⟩, hback⟩
    · intro p hp j hj
      change ((s.obj.dense.set i none).set i (some v))[j]?.join = none
      rw [hback]
      exact h.exclusive p hp j hj
    · intro id
      have hdense : denseOwn ((s.obj.dense.set i none).set i (some v)) id = denseOwn s.obj.dense id := by
        rw [hback]
      rw [NativeObject.getOwnProperty_eq h.lineage, ← hdense]
      exact NativeObject.getOwnProperty_eq hholds id
  · rw [hadd]
    have hkeeps := h.sparsify hv rfl hholds (s.obj.isIndexed || true)
    have hguard : (guard (s.obj.slotSpan + 1 = max s₁.obj.slotSpan (s.obj.slotSpan + 1)) :
        Option Unit) = some () :=
      if_pos (Nat.max_eq_right (Nat.le_succ _)).symm
    refine ⟨true, ⟨_, steps⟩, _, ?_, hkeeps, rfl⟩
    rw [Option.bind_some]
    dsimp only
    rw [if_neg (by simp)]
    rw [hguard]
    rfl

/-- Elements from an index on become properties, until one stays what it is. -/
theorem sparsifyLoop_keeps (memory : ℕ → Bool) (n i : ℕ) (s : State V) (h : s.obj.Holds props)
    (hn : i + n = s.obj.dense.length) (hholes : ∀ j < i, s.obj.dense[j]?.join = none) :
    ∃ ok s' props', sparsifyLoop memory n i s = some (ok, s') ∧ s.obj.Keeps s'.obj props' ∧
      (ok = true → ∀ j : ℕ, s'.obj.dense[j]?.join = none) := by
  induction n generalizing i s props with
  | zero =>
    refine ⟨true, s, props, rfl, h.keeps, fun _ j => ?_⟩
    by_cases hj : j < i
    · exact hholes j hj
    · rw [List.getElem?_eq_none (by omega)]
      rfl
  | succ n ih =>
    obtain ⟨element, helement⟩ : ∃ element, s.obj.dense[i]? = some element :=
      ⟨_, List.getElem?_eq_getElem (by omega)⟩
    rw [sparsifyLoop, helement]
    cases element with
    | none =>
      apply ih (i + 1) s h (by omega)
      intro j hj
      rcases Nat.lt_succ_iff_lt_or_eq.mp hj with hj | rfl
      · exact hholes j hj
      · rw [helement]
        rfl
    | some v =>
      obtain ⟨ok, s₁, props₁, heq, hkeeps, hdense⟩ := sparsifyDenseElement_keeps memory s h helement
      simp only [Option.bind_eq_bind, Option.bind_some, Option.isNone_some, Bool.false_eq_true,
        if_false, heq]
      cases ok with
      | false => exact ⟨false, s₁, props₁, rfl, hkeeps, nofun⟩
      | true =>
        rw [if_pos rfl] at hdense
        have hi : i < s.obj.dense.length := by omega
        have hlength : i + 1 + n = s₁.obj.dense.length := by
          rw [hdense, List.length_set]
          omega
        have hholes' (j : ℕ) (hj : j < i + 1) : s₁.obj.dense[j]?.join = none := by
          rw [hdense, join_set s.obj.dense none hi]
          by_cases hji : j = i
          · rw [if_pos hji]
          · rw [if_neg hji]
            exact hholes j (by omega)
        obtain ⟨ok, s₂, props₂, heq₂, hkeeps₂, hnone⟩ := ih (i + 1) s₁ hkeeps.holds hlength hholes'
        exact ⟨ok, s₂, props₂, heq₂, hkeeps.trans hkeeps₂, hnone⟩

/-- An object without dense elements has the properties that it has with holes. -/
theorem NativeObject.Holds.clear (h : obj.Holds props) (hholes : ∀ j : ℕ, obj.dense[j]?.join = none) :
    obj.Keeps { obj with dense := [], capacity := 0 } props := by
  refine ⟨⟨h.lineage, h.slot, h.distinct, fun p _ j _ => rfl⟩, fun id => ?_⟩
  have hdense : denseOwn obj.dense id = denseOwn [] id := by
    cases id with
    | index j =>
      rw [denseOwn, hholes j]
      rfl
    | name n => rfl
  rw [NativeObject.getOwnProperty_eq h.lineage, hdense]
  apply NativeObject.getOwnProperty_eq
  exact h.lineage

/-- Dense elements become properties, and those that do not stay what they are. -/
theorem sparsifyDenseElements_keeps (memory : ℕ → Bool) (s : State V) (h : s.obj.Holds props) :
    ∃ ok s' props', sparsifyDenseElements memory s = some (ok, s') ∧ s.obj.Keeps s'.obj props' ∧
      (ok = true → s'.obj.dense = []) := by
  obtain ⟨ok, s', props', heq, hkeeps, hholes⟩ :=
    sparsifyLoop_keeps memory s.obj.dense.length 0 s h (Nat.zero_add _) nofun
  rw [sparsifyDenseElements, heq]
  cases ok with
  | false => exact ⟨false, s', props', rfl, hkeeps, nofun⟩
  | true => exact ⟨true, _, props', rfl, hkeeps.trans (hkeeps.holds.clear (hholes rfl)), fun _ => rfl⟩

/-! ## Making elements dense -/

/-- A property that can be a dense element below a length, if it is indexed. -/
def Property.IsDensifiable (p : Property) (length : ℕ) : Prop :=
  ∀ i, p.propid = some (.index i) →
    (p.attrs = JSPROP_ENUMERATE ∧ p.hasDefaultGetter ∧ p.hasDefaultSetter) ∧ i < length

/-- A name is an index or not. -/
theorem js_IdIsIndex_eq_some {o : Option PropId} : js_IdIsIndex o = some i ↔ o = some (.index i) := by
  rcases o with _ | ⟨j⟩ | n <;> simp [js_IdIsIndex]

/-- The shapes behind a shape. -/
theorem Dictionary.Holds.next_of_named (hd : d.Holds next (pre ++ node :: post))
    (hid : (d.shapes node).propid = some id) :
    ∃ node' post', post = node' :: post' ∧ d.list.next node = some node' := by
  have hlineage := hd.lineage
  rw [List.map_append, List.map_cons] at hlineage
  have hpost : post ≠ [] := fun heq => hlineage.ne_nil hid (heq ▸ rfl)
  obtain ⟨node', post', rfl⟩ := List.exists_cons_of_ne_nil hpost
  exact ⟨node', post', rfl, hd.chain.next⟩

/-- The empty shape is the last one. -/
theorem Dictionary.Holds.of_unnamed (hd : d.Holds next (pre ++ node :: post))
    (hid : (d.shapes node).propid = none) : post = [] := by
  have hlineage := hd.lineage
  rw [List.map_append, List.map_cons] at hlineage
  by_contra hpost
  obtain ⟨id, hid', _⟩ := hlineage.of_append.of_cons (fun heq => hpost (List.map_eq_nil_iff.mp heq))
  rw [hid] at hid'
  cases hid'

/-- Counting comes to an end, and finds that all indexed properties can be dense or that one cannot. -/
theorem countIndexed_eq (hd : d.Holds next (pre ++ node :: post)) {fuel : ℕ}
    (hfuel : post.length < fuel) (count length : ℕ) :
    ∃ r, countIndexed d fuel node count length = some r ∧ ∀ count' length', r = some (count', length') →
      length ≤ length' ∧ ∀ p ∈ (node :: post).map d.shapes, p.IsDensifiable length' := by
  induction fuel generalizing pre node post count length with
  | zero => exact absurd hfuel (Nat.not_lt_zero _)
  | succ fuel ih =>
    rw [countIndexed]
    cases hid : (d.shapes node).propid with
    | none =>
      rw [hd.of_unnamed hid]
      refine ⟨_, by simp [Property.isEmptyShape, hid]; rfl, ?_⟩
      rintro count' length' ⟨⟩
      refine ⟨le_rfl, ?_⟩
      intro p hp i hi
      rw [List.map_singleton, List.mem_singleton] at hp
      rw [hp, hid] at hi
      cases hi
    | some id =>
      obtain ⟨node', post', rfl, hnext⟩ := hd.next_of_named hid
      rw [List.append_cons] at hd
      have hfuel' : post'.length < fuel := by
        rw [List.length_cons] at hfuel
        omega
      have hnamed : (d.shapes node).isEmptyShape = false := by
        rw [Property.isEmptyShape, hid]
        rfl
      rw [hnamed]
      cases hindex : js_IdIsIndex (some id) with
      | none =>
        obtain ⟨r, heq, hr⟩ := ih hd hfuel' count length
        refine ⟨r, ?_, ?_⟩
        · simp only [Bool.false_eq_true, if_false, hnext, Option.bind_eq_bind, Option.bind_some]
          exact heq
        · intro count' length' hr'
          obtain ⟨hle, hall⟩ := hr count' length' hr'
          refine ⟨hle, ?_⟩
          intro p hp
          rcases List.mem_cons.mp hp with rfl | hp
          · intro i hi
            rw [hid] at hi
            rw [js_IdIsIndex_eq_some.mpr hi] at hindex
            cases hindex
          · exact hall p hp
      | some index =>
        by_cases hp : (d.shapes node).attrs = JSPROP_ENUMERATE ∧ (d.shapes node).hasDefaultGetter ∧
          (d.shapes node).hasDefaultSetter
        · obtain ⟨r, heq, hr⟩ := ih hd hfuel' (count + 1) (max length (index + 1))
          refine ⟨r, ?_, ?_⟩
          · simp only [Bool.false_eq_true, if_false, if_pos hp, hnext, Option.bind_eq_bind,
              Option.bind_some]
            exact heq
          · intro count' length' hr'
            obtain ⟨hle, hall⟩ := hr count' length' hr'
            refine ⟨by omega, ?_⟩
            intro q hq
            rcases List.mem_cons.mp hq with rfl | hq
            · intro i hi
              rw [hid] at hi
              rw [js_IdIsIndex_eq_some.mpr hi] at hindex
              cases hindex
              exact ⟨hp, by omega⟩
            · exact hall q hq
        · refine ⟨none, ?_, nofun⟩
          simp only [Bool.false_eq_true, if_false, if_neg hp]

/-- After a shape is removed, the traversal is at the shape that was behind it, or at the one that is
in its place. -/
theorem Dictionary.Holds.next_of_removed {d' : Dictionary} {node' : ℕ} {post' : List ℕ}
    (hd : d.Holds next (pre ++ node :: node' :: post')) {fresh : ℕ}
    (hmap : (fresh :: (pre ++ node' :: post').tail).map d'.shapes =
      (pre ++ node' :: post').map d.shapes) :
    ∃ pre₁ node₁ post₁, fresh :: (pre ++ node' :: post').tail = pre₁ ++ node₁ :: post₁ ∧
      pre₁.map d'.shapes = pre.map d.shapes ∧
      (node₁ :: post₁).map d'.shapes = (node' :: post').map d.shapes ∧
      (if d.lastProperty ≠ some node then node' else fresh) = node₁ := by
  cases pre with
  | nil =>
    have hlast : d.lastProperty = some node := hd.lastProperty_eq
    exact ⟨[], fresh, post', rfl, rfl, hmap, if_neg (not_not.mpr hlast)⟩
  | cons last pre =>
    have hlast : d.lastProperty = some last := hd.lastProperty_eq
    have hne : last ≠ node := by
      rintro rfl
      exact (List.nodup_cons.mp hd.nodup).1 (List.mem_append_right pre List.mem_cons_self)
    have hmap' : (fresh :: pre).map d'.shapes ++ (node' :: post').map d'.shapes =
        (last :: pre).map d.shapes ++ (node' :: post').map d.shapes := by
      rw [← List.map_append, ← List.map_append]
      exact hmap
    obtain ⟨hpre, hpost⟩ := List.append_inj hmap' (by simp)
    refine ⟨fresh :: pre, node', post', rfl, hpre, hpost, if_pos ?_⟩
    rw [hlast]
    exact fun heq => hne (Option.some_inj.mp heq)

/-- The names of shapes, in order. -/
def Dictionary.names (d : Dictionary) (nodes : List ℕ) : List PropId :=
  (nodes.map d.shapes).filterMap fun p => p.propid

/-- Where a traversal is: at a shape of the list, with no indexed properties before it and only such as
can be dense from there on. -/
structure Traversal (s : State V) (d : Dictionary) (pre : List ℕ) (node : ℕ) (post : List ℕ) : Prop where
  lineage : s.obj.lineage = .dictionary d
  dictionary : d.Holds s.obj.nextShape (pre ++ node :: post)
  owner : d.lastProperty = some d.owner
  holds : s.obj.Holds ((pre ++ node :: post).map d.shapes)
  seen : ∀ p ∈ pre.map d.shapes, js_IdIsIndex p.propid = none
  ahead : ∀ p ∈ (node :: post).map d.shapes, p.IsDensifiable s.obj.dense.length

namespace Traversal

variable {s : State V} {node' : ℕ} {post' : List ℕ}

/-- There are no indexed properties before the next shape if there is none at this one. -/
theorem seen_skip (ht : Traversal s d pre node post)
    (hindex : js_IdIsIndex (d.shapes node).propid = none) :
    ∀ p ∈ (pre ++ [node]).map d.shapes, js_IdIsIndex p.propid = none := by
  intro p hp
  rw [List.map_append, List.mem_append] at hp
  rcases hp with hp | hp
  · exact ht.seen p hp
  · rw [List.map_singleton, List.mem_singleton] at hp
    rw [hp, hindex]

/-- The traversal goes on behind a property that is not indexed. -/
theorem skip (ht : Traversal s d pre node (node' :: post'))
    (hindex : js_IdIsIndex (d.shapes node).propid = none) :
    Traversal s d (pre ++ [node]) node' post' := by
  have hd := ht.dictionary
  have h := ht.holds
  rw [List.append_cons] at hd h
  exact ⟨ht.lineage, hd, ht.owner, h, ht.seen_skip hindex,
    fun p hp => ht.ahead p (List.mem_cons_of_mem _ hp)⟩

/-- An indexed property cannot be removed, or it becomes dense and the traversal goes on behind it. -/
theorem densify (memory : ℕ → Bool) (ht : Traversal s d pre node (node' :: post'))
    (hid : (d.shapes node).propid = some (.index i)) :
    (∃ steps, ∀ fuel, densifyLoop memory (fuel + 1) node s =
      some (false, { s with steps }, [.index i])) ∨
    ∃ s₁ d₁ pre₁ node₁ post₁,
      (∀ fuel, densifyLoop memory (fuel + 1) node s = (densifyLoop memory fuel node₁ s₁).bind fun r =>
        some (r.1, r.2.1, .index i :: r.2.2)) ∧
      Traversal s₁ d₁ pre₁ node₁ post₁ ∧ (∃ props', s.obj.Keeps s₁.obj props') ∧
      (node₁ :: post₁).map d₁.shapes = (node' :: post').map d.shapes := by
  have hd := ht.dictionary
  have h := ht.holds
  have hdictionary : s.obj.dictionary? = some d := by rw [NativeObject.dictionary?, ht.lineage]
  have hnext : d.list.next node = some node' := hd.chain.next
  have hmem : d.shapes node ∈ (pre ++ node :: node' :: post').map d.shapes :=
    List.mem_map_of_mem (List.mem_append_right pre List.mem_cons_self)
  obtain ⟨⟨hattrs, hget, hset⟩, hlt⟩ := ht.ahead (d.shapes node) List.mem_cons_self i hid
  have hvalue : (d.shapes node).HasValue :=
    ⟨by rw [hid]; exact nofun, by rw [Property.hasSlot, hattrs]; rfl⟩
  obtain ⟨hspan, hsome⟩ := h.slot _ hmem hvalue
  obtain ⟨v, hv⟩ := Option.isSome_iff_exists.mp hsome
  have hindex : js_IdIsIndex (some (.index i)) = some i := rfl
  rcases removeProperty_eq memory s ht.lineage hd ht.owner hid (fun _ => hspan) with
    ⟨steps, hremove⟩ | ⟨d₁, steps, hremove, hholds, howner₁, hmap⟩
  · refine Or.inl ⟨steps, fun fuel => ?_⟩
    rw [densifyLoop, hdictionary]
    simp only [Option.bind_eq_bind, Option.bind_some, hid, hindex, hv, hnext, hremove]
    rfl
  · rw [if_pos hvalue.2] at hremove
    obtain ⟨pre₁, node₁, post₁, hnodes, hmapPre, hmapPost, hshape⟩ := hd.next_of_removed hmap
    have hlineage : Lineage.Holds (.dictionary d₁) (s.obj.nextShape + 1)
        (pre.map d.shapes ++ (node' :: post').map d.shapes) := by
      rw [← List.map_append, ← hmap]
      exact .dictionary d₁ _ _ hholds howner₁
    have hlast : d₁.lastProperty = some s.obj.nextShape := hholds.lastProperty_eq
    rw [hnodes] at hholds
    rw [List.map_append, List.map_cons] at h
    have hkeeps := h.densify hid hattrs hget hset hlt hv hlineage
    set s₁ : State V := ⟨{ s.obj with
      lineage := .dictionary d₁
      nextShape := s.obj.nextShape + 1
      slots := Function.update s.obj.slots (d.shapes node).slot none
      dense := s.obj.dense.set i (some v) }, steps⟩
    have hlength : s₁.obj.dense.length = s.obj.dense.length := List.length_set
    have hmapAll : (pre₁ ++ node₁ :: post₁).map d₁.shapes =
        pre.map d.shapes ++ (node' :: post').map d.shapes := by
      rw [List.map_append, hmapPre, hmapPost]
    have hahead (p : Property) (hp : p ∈ (node₁ :: post₁).map d₁.shapes) :
        p.IsDensifiable s₁.obj.dense.length := by
      rw [hmapPost] at hp
      rw [hlength]
      exact ht.ahead p (List.mem_cons_of_mem _ hp)
    refine Or.inr ⟨s₁, d₁, pre₁, node₁, post₁, fun fuel => ?_, ⟨rfl, hholds, howner₁,
      hmapAll ▸ hkeeps.holds, hmapPre ▸ ht.seen, hahead⟩, ⟨_, hkeeps⟩, hmapPost⟩
    have hguard : (guard (i < s.obj.dense.length) : Option Unit) = some () := if_pos hlt
    rw [densifyLoop, hdictionary]
    simp only [Option.bind_eq_bind, Option.bind_some, hid, hindex, hv, hnext, hremove, Bool.not_true,
      Bool.false_eq_true, if_false]
    simp only [NativeObject.dictionary?, Option.bind_some, hlast, hshape, hguard]
    rfl

/-- The properties from a shape on become dense, until one cannot be removed. All of them are come by. -/
theorem run (memory : ℕ → Bool) {fuel : ℕ} (ht : Traversal s d pre node post)
    (hfuel : post.length < fuel) :
    ∃ ok s' visited props', densifyLoop memory fuel node s = some (ok, s', visited) ∧
      s.obj.Keeps s'.obj props' ∧
      (ok = true → (∀ p ∈ props', js_IdIsIndex p.propid = none) ∧
        visited = d.names (node :: post)) := by
  induction fuel generalizing s d pre node post with
  | zero => exact absurd hfuel (Nat.not_lt_zero _)
  | succ fuel ih =>
    have hdictionary : s.obj.dictionary? = some d := by rw [NativeObject.dictionary?, ht.lineage]
    cases hid : (d.shapes node).propid with
    | none =>
      have hnil := ht.dictionary.of_unnamed hid
      subst hnil
      refine ⟨true, s, [], _, ?_, ht.holds.keeps, fun _ => ⟨ht.seen_skip (by rw [hid]; rfl), ?_⟩⟩
      · rw [densifyLoop, hdictionary]
        simp only [Option.bind_eq_bind, Option.bind_some, hid]
      · simp [Dictionary.names, hid]
    | some id =>
      obtain ⟨node', post', rfl, hnext⟩ := ht.dictionary.next_of_named hid
      rw [List.length_cons] at hfuel
      cases hindex : js_IdIsIndex (some id) with
      | none =>
        obtain ⟨ok, s', visited, props', heq, hkeeps, hok⟩ :=
          ih (ht.skip (by rw [hid, hindex])) (by omega)
        refine ⟨ok, s', id :: visited, props', ?_, hkeeps, fun htrue => ⟨(hok htrue).1, ?_⟩⟩
        · rw [densifyLoop, hdictionary]
          simp only [Option.bind_eq_bind, Option.bind_some, hid, hindex, hnext, heq]
        · rw [(hok htrue).2]
          simp [Dictionary.names, hid]
      | some i =>
        obtain ⟨rfl⟩ := Option.some_inj.mp (js_IdIsIndex_eq_some.mp hindex)
        rcases ht.densify memory hid with
          ⟨steps, hfail⟩ | ⟨s₁, d₁, pre₁, node₁, post₁, hstep, ht₁, ⟨props₁, hkeeps₁⟩, hmap⟩
        · exact ⟨false, _, [.index i], _, hfail fuel, ht.holds.keeps, nofun⟩
        · have hcount := congrArg List.length hmap
          simp only [List.length_map, List.length_cons] at hcount
          obtain ⟨ok, s', visited, props', heq, hkeeps, hok⟩ := ih ht₁ (by omega)
          refine ⟨ok, s', .index i :: visited, props', ?_, hkeeps₁.trans hkeeps, fun htrue =>
            ⟨(hok htrue).1, ?_⟩⟩
          · rw [hstep, heq]
            rfl
          · rw [(hok htrue).2, Dictionary.names, Dictionary.names, hmap]
            simp [hid]

end Traversal

/-- There are no more shapes in a dictionary than were made. -/
theorem Dictionary.Holds.length_le (hd : d.Holds next nodes) : nodes.length ≤ next := by
  have hsub : nodes ⊆ List.range next := fun node hnode => List.mem_range.mpr (hd.lt_next node hnode)
  have hle := (hd.nodup.subperm hsub).length_le
  rwa [List.length_range] at hle

/-- Properties that can be dense below a length can be below a greater one. -/
theorem Property.IsDensifiable.mono {length length' : ℕ} (h : p.IsDensifiable length)
    (hle : length ≤ length') : p.IsDensifiable length' :=
  fun i hi => ⟨(h i hi).1, lt_of_lt_of_le (h i hi).2 hle⟩

/-- Holes behind the dense elements change nothing. -/
theorem NativeObject.Holds.grow (h : obj.Holds props) (capacity length : ℕ) :
    obj.Keeps ({ obj with capacity }.ensureDenseInitializedLength length) props := by
  have hdense (j : ℕ) : (obj.dense ++ List.replicate (length - obj.dense.length) none)[j]?.join =
      obj.dense[j]?.join := by
    rw [List.getElem?_append]
    by_cases hj : j < obj.dense.length
    · rw [if_pos hj]
    · rw [if_neg hj, List.getElem?_replicate, List.getElem?_eq_none (Nat.not_lt.mp hj)]
      split <;> rfl
  refine ⟨⟨h.lineage, h.slot, h.distinct, fun p hp j hj => ?_⟩, fun id => ?_⟩
  · exact (hdense j).trans (h.exclusive p hp j hj)
  · have hown : denseOwn obj.dense id =
        denseOwn (obj.dense ++ List.replicate (length - obj.dense.length) none) id := by
      cases id with
      | index j => rw [denseOwn, denseOwn, hdense]
      | name n => rfl
    rw [NativeObject.getOwnProperty_eq h.lineage, hown]
    apply NativeObject.getOwnProperty_eq
    exact h.lineage

/-- Indexed properties become dense elements, or not, and the object has the same properties. If all are
dense, the traversal has come by each property that there was. -/
theorem maybeDensifySparseElements_keeps (memory : ℕ → Bool) (s : State V) (h : s.obj.Holds props) :
    ∃ result s' visited props', maybeDensifySparseElements memory s = some (result, s', visited) ∧
      s.obj.Keeps s'.obj props' ∧
      (result = .ED_OK → (∀ p ∈ props', js_IdIsIndex p.propid = none) ∧
        visited = props.filterMap fun p => p.propid) := by
  rw [maybeDensifySparseElements]
  cases hobj : s.obj.lineage with
  | tree own =>
    rw [NativeObject.dictionary?, hobj]
    exact ⟨.ED_SPARSE, s, [], props, rfl, h.keeps, nofun⟩
  | dictionary d =>
    have hlineage := h.lineage
    rw [hobj] at hlineage
    cases hlineage with
    | dictionary _ _ nodes hd howner =>
      rw [NativeObject.dictionary?, hobj]
      have hlast := hd.lastProperty_eq.symm.trans howner
      obtain ⟨rest, rfl⟩ := List.head?_eq_some_iff.mp hlast
      have hfuel : rest.length < s.obj.nextShape + 1 := by
        have hle := hd.length_le
        rw [List.length_cons] at hle
        omega
      have hlist : d.Holds s.obj.nextShape ([] ++ d.owner :: rest) := hd
      obtain ⟨counted, hcount, hcounted⟩ := countIndexed_eq hlist hfuel 0 0
      by_cases hspan : s.obj.slotSpan ≠ RoundUpPow2 s.obj.slotSpan
      · refine ⟨.ED_SPARSE, s, [], _, ?_, h.keeps, nofun⟩
        simp only [if_pos hspan]
      by_cases hextensible : (!s.obj.extensible || s.obj.watched) = true
      · refine ⟨.ED_SPARSE, s, [], _, ?_, h.keeps, nofun⟩
        simp only [if_neg hspan, if_pos hextensible]
      simp only [if_neg hspan, if_neg hextensible, howner, hcount, Option.bind_eq_bind,
        Option.bind_some]
      cases counted with
      | none => exact ⟨.ED_SPARSE, s, [], _, rfl, h.keeps, nofun⟩
      | some counted =>
        obtain ⟨count, length⟩ := counted
        obtain ⟨_, hdensifiable⟩ := hcounted count length rfl
        dsimp only
        by_cases hsparse : count * SPARSE_DENSITY_RATIO % 2 ^ 32 < length
        · rw [if_pos hsparse]
          exact ⟨.ED_SPARSE, s, [], _, rfl, h.keeps, nofun⟩
        by_cases hlimit : NELEMENTS_LIMIT ≤ length
        · rw [if_neg hsparse, if_pos hlimit]
          exact ⟨.ED_SPARSE, s, [], _, rfl, h.keeps, nofun⟩
        by_cases hgrow : s.obj.capacity < length ∧ (!memory s.steps) = true
        · rw [if_neg hsparse, if_neg hlimit, if_pos hgrow]
          exact ⟨.ED_FAILED, s.step, [], _, rfl, h.keeps, nofun⟩
        rw [if_neg hsparse, if_neg hlimit, if_neg hgrow]
        generalize hs₁ : (if s.obj.capacity < length then s.step else s) = s₁
        have hobj₁ : s₁.obj = s.obj := by
          rw [← hs₁]
          split <;> rfl
        rw [← hobj₁] at h hobj hlist hfuel ⊢
        set s₂ : State V := ⟨{ s₁.obj with
          capacity := max s₁.obj.capacity length }.ensureDenseInitializedLength length, s₁.steps⟩
        have hgrown : s₁.obj.Keeps s₂.obj _ := h.grow (max s₁.obj.capacity length) length
        have hle : length ≤ s₂.obj.dense.length := by
          change length ≤ (s₁.obj.dense ++ List.replicate (length - s₁.obj.dense.length) none).length
          rw [List.length_append, List.length_replicate]
          omega
        have ht : Traversal s₂ d [] d.owner rest := ⟨hobj, hlist, howner, hgrown.holds, nofun,
          fun p hp => (hdensifiable p hp).mono hle⟩
        obtain ⟨ok, s', visited, props', heq, hkeeps, hok⟩ := ht.run memory hfuel
        have heq₂ : densifyLoop memory (s₂.obj.nextShape + 1) d.owner s₂ = some (ok, s', visited) := heq
        rw [heq₂, Option.bind_some]
        have hkept := hgrown.trans hkeeps
        cases ok with
        | false => exact ⟨.ED_FAILED, s', visited, props', rfl, hkept, nofun⟩
        | true =>
          by_cases hmemory : memory s'.steps
          · have hcleared := hkeeps.holds
            refine ⟨.ED_OK, ⟨{ s'.obj with isIndexed := false }, s'.step.steps⟩, visited, props',
              by simp [hmemory], ⟨?_, hkept.same⟩, fun _ => hok rfl⟩
            exact ⟨hcleared.lineage, hcleared.slot, hcleared.distinct, hcleared.exclusive⟩
          · refine ⟨.ED_FAILED, s'.step, visited, props', ?_, hkept, nofun⟩
            simp [hmemory]

/-! ## Both ways -/

/-- An object with a dense element, a sparse one and another property. -/
def halfSparse : NativeObject ℕ where
  lineage := .dictionary {
    shapes := fun node =>
      if node = 0 then ⟨some (.index 2), 0, JSPROP_ENUMERATE, true, true⟩
      else if node = 1 then ⟨some (.name 0), 1, JSPROP_ENUMERATE, true, true⟩
      else ⟨none, SHAPE_INVALID_SLOT, 0, true, true⟩
    list := {
      head := some 0
      next := fun node => if node < 2 then some (node + 1) else none
      back := fun node => if node = 0 then some none else if node < 3 then some (some (node - 1)) else none }
    table := fun id => if id = .index 2 then some 0 else if id = .name 0 then some 1 else none
    owner := 0 }
  nextShape := 3
  slots := fun slot => some (slot + 10)
  slotSpan := 2
  dense := [some 1]
  capacity := 1
  isIndexed := true
  extensible := true
  watched := false
  hadElementsAccess := true

theorem halfSparse_holds : halfSparse.Holds
    [⟨some (.index 2), 0, JSPROP_ENUMERATE, true, true⟩,
      ⟨some (.name 0), 1, JSPROP_ENUMERATE, true, true⟩, ⟨none, SHAPE_INVALID_SLOT, 0, true, true⟩] := by
  constructor
  · apply Lineage.Holds.dictionary _ 3 [0, 1, 2] _ rfl
    constructor
    · exact ⟨by decide, by decide, rfl⟩
    · decide
    · apply IsLineage.cons _ _ (.index 2) rfl rfl
      apply IsLineage.cons _ _ (.name 0) rfl rfl
      exact IsLineage.root _ rfl
    · intro id node
      change (if id = .index 2 then some 0 else if id = .name 0 then some 1 else none) = some node ↔
        node ∈ [0, 1, 2] ∧ _
      rw [List.mem_cons, List.mem_cons, List.mem_singleton]
      constructor
      · split_ifs with hindex hname
        · rintro ⟨⟩
          exact ⟨Or.inl rfl, by rw [hindex]; rfl⟩
        · rintro ⟨⟩
          exact ⟨Or.inr (Or.inl rfl), by rw [hname]; rfl⟩
        · exact nofun
      · rintro ⟨rfl | rfl | rfl, hid⟩
        · cases hid
          rfl
        · cases hid
          rfl
        · cases hid
  · decide
  · decide
  · intro p hp i hi
    rw [List.mem_cons, List.mem_cons, List.mem_singleton] at hp
    rcases hp with rfl | rfl | rfl
    · cases hi
      rfl
    · cases hi
    · cases hi

example : (maybeDensifySparseElements (fun _ => true) ⟨halfSparse, 0⟩).map
    (fun r => (r.1, r.2.1.obj.dense, r.2.2)) =
      some (.ED_OK, [some 1, none, some 10], [.index 2, .name 0]) := by
  decide

end SpiderMonkey.Vm.SparseElements
