import Mathlib.Data.List.Nodup
import Mathlib.Logic.Function.Basic

/-!
# Lists with pointers back

Lists in which each node knows where the pointer to it is: at the head, or in the node before. A node is
taken out by writing there, without going through the list, and put in at such a place.
-/

namespace SpiderMonkey.Lib

variable {V : Type*}

/-- Pointers from the head and from each node to the next one, and from nodes back to where the pointer
to them is: nowhere, at the head, or in a node. -/
structure Links (V : Type*) where
  head : Option V
  next : V → Option V
  back : V → Option (Option V)

namespace Links

/-- The pointer at a place: the head, or a node. -/
def read (s : Links V) : Option V → Option V
  | none => s.head
  | some u => s.next u

variable [DecidableEq V]

/-- Write the pointer at a place. -/
def write (s : Links V) (place x : Option V) : Links V :=
  match place with
  | none => { s with head := x }
  | some u => { s with next := Function.update s.next u x }

/-- Set where the pointer to a node is. -/
def setBack (s : Links V) (v : V) (place : Option (Option V)) : Links V :=
  { s with back := Function.update s.back v place }

/-- Set where the pointer to a node is, if there is one. -/
def setBackOf (s : Links V) (v : Option V) (place : Option V) : Links V :=
  match v with
  | none => s
  | some v => s.setBack v (some place)

/-- Take a node out. -/
def remove (s : Links V) (v : V) : Option (Links V) := do
  let place ← s.back v
  let rest := s.next v
  some (((s.setBackOf rest place).write place rest).setBack v none)

/-- Put a node in at a place. -/
def insert (s : Links V) (v : V) (place : Option V) : Links V :=
  let rest := s.read place
  let s := (s.write (some v) rest).setBackOf rest (some v)
  (s.setBack v (some place)).write place (some v)

/-! ### What is read afterwards -/

variable (s : Links V) (place place' : Option V) (v w : V)

theorem read_write (x : Option V) :
    (s.write place x).read place' = if place' = place then x else s.read place' := by
  cases place with
  | none => cases place' <;> rfl
  | some u =>
    cases place' with
    | none => rfl
    | some u' =>
      change Function.update s.next u x u' = _
      by_cases hu : u' = u
      · rw [hu, Function.update_self, if_pos rfl]
      · rw [Function.update_of_ne hu, if_neg (fun heq => hu (Option.some_inj.mp heq))]
        rfl

theorem back_write (x : Option V) : (s.write place x).back = s.back := by
  cases place <;> rfl

theorem read_setBack (b : Option (Option V)) : (s.setBack v b).read place = s.read place := by
  cases place <;> rfl

theorem back_setBack (b : Option (Option V)) :
    (s.setBack v b).back w = if w = v then b else s.back w := by
  change Function.update s.back v b w = _
  rw [Function.update_apply]

theorem read_setBackOf (o : Option V) : (s.setBackOf o place').read place = s.read place := by
  cases o with
  | none => rfl
  | some u => exact read_setBack s place u (some place')

theorem back_setBackOf (o : Option V) :
    (s.setBackOf o place).back w = if o = some w then some place else s.back w := by
  cases o with
  | none => rfl
  | some u =>
    rw [setBackOf, back_setBack]
    by_cases hw : w = u
    · rw [hw, if_pos rfl, if_pos rfl]
    · rw [if_neg hw, if_neg (fun heq => hw (Option.some_inj.mp heq).symm)]

/-- Taking a node out changes what is pointed to from its place, and where the next one is. -/
theorem remove_eq (hback : s.back v = some place) :
    ∃ s', s.remove v = some s' ∧
      (∀ q, s'.read q = if q = place then s.next v else s.read q) ∧
      ∀ w, s'.back w =
        if w = v then none else if s.next v = some w then some place else s.back w := by
  refine ⟨_, by rw [remove, hback]; rfl, ?_, ?_⟩
  · intro q
    rw [read_setBack, read_write, read_setBackOf]
  · intro w
    rw [back_setBack, back_write, back_setBackOf]

/-- Putting a node in changes what is pointed to from there and from the node, and where the two are. -/
theorem insert_eq :
    (∀ q, (s.insert v place).read q =
      if q = place then some v else if q = some v then s.read place else s.read q) ∧
    ∀ w, (s.insert v place).back w =
      if w = v then some place else if s.read place = some w then some (some v) else s.back w := by
  constructor
  · intro q
    rw [insert, read_write, read_setBack, read_setBackOf, read_write]
  · intro w
    rw [insert, back_write, back_setBack, back_setBackOf, back_write]

end Links

variable {s s' : Links V} {place : Option V} {l l' pre post : List V} {v w : V}

/-! ## Places -/

/-- The place behind some nodes. -/
def lastPlace : Option V → List V → Option V
  | place, [] => place
  | _, v :: l => lastPlace (some v) l

/-- Each node with the place of the pointer to it. -/
def places : Option V → List V → List (Option V × V)
  | _, [] => []
  | place, v :: l => (place, v) :: places (some v) l

@[simp] theorem lastPlace_append (place : Option V) (l l' : List V) :
    lastPlace place (l ++ l') = lastPlace (lastPlace place l) l' := by
  induction l generalizing place with
  | nil => rfl
  | cons v l ih => exact ih (some v)

@[simp] theorem places_append (place : Option V) (l l' : List V) :
    places place (l ++ l') = places place l ++ places (lastPlace place l) l' := by
  induction l generalizing place with
  | nil => rfl
  | cons v l ih => exact congrArg ((place, v) :: ·) (ih (some v))

/-- The last place is the first one or a node. -/
theorem lastPlace_mem (place : Option V) (l : List V) : lastPlace place l ∈ place :: l.map some := by
  induction l generalizing place with
  | nil => exact List.mem_singleton_self place
  | cons v l ih => exact List.mem_cons_of_mem place (ih (some v))

/-- The nodes that have places. -/
theorem mem_of_mem_places {q : Option V × V} (hq : q ∈ places place l) : q.2 ∈ l := by
  induction l generalizing place with
  | nil => cases hq
  | cons v l ih =>
    rcases List.mem_cons.mp hq with rfl | hq
    · exact List.mem_cons_self
    · exact List.mem_cons_of_mem v (ih hq)

/-- The places of nodes are the first one or nodes, and not the last place. -/
theorem place_of_mem_places {q : Option V × V} (hnodup : (place :: l.map some).Nodup)
    (hq : q ∈ places place l) : q.1 ∈ place :: l.map some ∧ q.1 ≠ lastPlace place l := by
  induction l generalizing place with
  | nil => cases hq
  | cons v l ih =>
    rw [List.map_cons, List.nodup_cons] at hnodup
    rcases List.mem_cons.mp hq with rfl | hq
    · refine ⟨List.mem_cons_self, ?_⟩
      intro heq
      rw [show place = lastPlace (some v) l from heq] at hnodup
      exact hnodup.1 (lastPlace_mem (some v) l)
    · obtain ⟨hmem, hne⟩ := ih hnodup.2 hq
      exact ⟨List.mem_cons_of_mem place hmem, hne⟩

/-! ## Lists -/

/-- The nodes from a place on: each is pointed to from its place and points back there, and the last one
to nothing. -/
structure Chain (s : Links V) (place : Option V) (l : List V) : Prop where
  nodup : (place :: l.map some).Nodup
  node : ∀ q ∈ places place l, s.read q.1 = some q.2 ∧ s.back q.2 = some q.1
  stop : s.read (lastPlace place l) = none

/-- The node in the middle of a list. -/
theorem Chain.middle (h : Chain s place (pre ++ v :: post)) :
    s.read (lastPlace place pre) = some v ∧ s.back v = some (lastPlace place pre) := by
  apply h.node (lastPlace place pre, v)
  rw [places_append]
  exact List.mem_append_right _ List.mem_cons_self

/-- What a pointer in a list points to. -/
theorem Chain.read_lastPlace (h : Chain s place (pre ++ post)) :
    s.read (lastPlace place pre) = post.head? := by
  cases post with
  | nil =>
    rw [List.append_nil] at h
    exact h.stop
  | cons v post => exact h.middle.1

/-- The node that a node points to. -/
theorem Chain.next (h : Chain s place (pre ++ v :: post)) : s.next v = post.head? := by
  rw [List.append_cons] at h
  have hread := h.read_lastPlace
  rw [lastPlace_append] at hread
  exact hread

/-- The places of a list are those of its two parts, but for the first of the second part. -/
theorem Chain.of_parts (hnodup : (place :: (pre ++ post).map some).Nodup)
    (hpre : ∀ q ∈ places place pre, s.read q.1 = some q.2 ∧ s.back q.2 = some q.1)
    (hread : s.read (lastPlace place pre) = post.head?)
    (hback : ∀ w rest, post = w :: rest → s.back w = some (lastPlace place pre))
    (hpost : ∀ w rest, post = w :: rest → Chain s (some w) rest) : Chain s place (pre ++ post) := by
  cases post with
  | nil =>
    rw [List.append_nil] at hnodup ⊢
    exact ⟨hnodup, hpre, hread⟩
  | cons w rest =>
    have hrest := hpost w rest rfl
    refine ⟨hnodup, ?_, ?_⟩
    · intro q hq
      rw [places_append, List.mem_append] at hq
      rcases hq with hq | hq
      · exact hpre q hq
      · rcases List.mem_cons.mp hq with rfl | hq
        · exact ⟨hread, hback w rest rfl⟩
        · exact hrest.node q hq
    · rw [lastPlace_append]
      exact hrest.stop

/-- A part of a list from a node on is one, too. -/
theorem Chain.rest (h : Chain s place (pre ++ v :: post)) : Chain s (some v) post := by
  have hnodup := h.nodup
  rw [List.map_append, List.map_cons, ← List.cons_append] at hnodup
  refine ⟨(List.nodup_append.mp hnodup).2.1, ?_, ?_⟩
  · intro q hq
    apply h.node q
    rw [places_append]
    exact List.mem_append_right _ (List.mem_cons_of_mem _ hq)
  · have hstop := h.stop
    rw [lastPlace_append] at hstop
    exact hstop

/-- Only the pointers at the places of a list matter. -/
theorem Chain.congr (h : Chain s place l) (hread : ∀ q ∈ place :: l.map some, s'.read q = s.read q)
    (hback : ∀ v ∈ l, s'.back v = s.back v) : Chain s' place l := by
  refine ⟨h.nodup, ?_, ?_⟩
  · intro q hq
    rw [hread q.1 (place_of_mem_places h.nodup hq).1, hback q.2 (mem_of_mem_places hq)]
    exact h.node q hq
  · rw [hread _ (lastPlace_mem place l)]
    exact h.stop

variable [DecidableEq V]

/-- Where the pointer to a node is can be set, if the node is not in the list. -/
theorem Chain.setBack (h : Chain s place l) (hv : v ∉ l) (b : Option (Option V)) :
    Chain (s.setBack v b) place l := by
  apply h.congr
  · intro q _
    exact s.read_setBack q v b
  · intro w hw
    rw [s.back_setBack, if_neg]
    rintro rfl
    exact hv hw

/-- A node is taken out of a list. -/
theorem Chain.remove (h : Chain s place (pre ++ v :: post)) :
    ∃ s', s.remove v = some s' ∧ Chain s' place (pre ++ post) ∧
      ∀ w, w ∉ pre ++ v :: post → s'.back w = s.back w := by
  obtain ⟨s', hs', hread, hback⟩ := s.remove_eq (lastPlace place pre) v h.middle.2
  have hnext : s.next v = post.head? := h.next
  have hnodup := h.nodup
  rw [List.map_append, List.map_cons, ← List.cons_append] at hnodup
  obtain ⟨hnodupPre, hnodupPost, hdisjoint⟩ := List.nodup_append.mp hnodup
  have hv : some v ∉ post.map some := (List.nodup_cons.mp hnodupPost).1
  have hpre (w : V) (hw : w ∈ pre) : w ≠ v ∧ w ∉ post := by
    have hne := hdisjoint (some w) (List.mem_cons_of_mem _ (List.mem_map_of_mem hw))
    refine ⟨fun heq => hne (some v) List.mem_cons_self (congrArg some heq), fun hmem => ?_⟩
    exact hne (some w) (List.mem_cons_of_mem _ (List.mem_map_of_mem hmem)) rfl
  refine ⟨s', hs', ?_, ?_⟩
  · apply Chain.of_parts
    · rw [List.map_append, ← List.cons_append]
      refine List.nodup_append.mpr ⟨hnodupPre, (List.nodup_cons.mp hnodupPost).2, ?_⟩
      intro a ha b hb
      exact hdisjoint a ha b (List.mem_cons_of_mem _ hb)
    · intro q hq
      have hplace := (place_of_mem_places hnodupPre hq).2
      have hnot := hpre q.2 (mem_of_mem_places hq)
      rw [hread, if_neg hplace, hback, if_neg hnot.1, if_neg]
      · apply h.node q
        rw [places_append]
        exact List.mem_append_left _ hq
      · rw [hnext]
        intro heq
        exact hnot.2 (List.mem_of_mem_head? heq)
    · rw [hread, if_pos rfl, hnext]
    · intro w rest hpost
      rw [hback, if_neg, if_pos (by rw [hnext, hpost]; rfl)]
      rintro rfl
      rw [hpost] at hv
      exact hv List.mem_cons_self
    · intro w rest hpost
      rw [hpost] at h hdisjoint hv hnodupPost
      rw [List.append_cons] at h
      apply h.rest.congr
      · intro q hq
        rw [hread, if_neg]
        rintro rfl
        exact hdisjoint _ (lastPlace_mem place pre) _ (List.mem_cons_of_mem _ hq) rfl
      · intro u hu
        rw [hback, if_neg, if_neg]
        · rw [hnext, hpost]
          intro heq
          have hnodupRest := (List.nodup_cons.mp (List.nodup_cons.mp hnodupPost).2).1
          rw [Option.some_inj.mp heq] at hnodupRest
          exact hnodupRest (List.mem_map_of_mem hu)
        · rintro rfl
          exact hv (List.mem_cons_of_mem _ (List.mem_map_of_mem hu))
  · intro w hw
    rw [hback, if_neg, if_neg]
    · rw [hnext]
      intro heq
      exact hw (List.mem_append_right _ (List.mem_cons_of_mem _ (List.mem_of_mem_head? heq)))
    · rintro rfl
      exact hw (List.mem_append_right _ List.mem_cons_self)

/-- A node is put into a list. -/
theorem Chain.insert (h : Chain s place (pre ++ post)) (hv : some v ∉ place :: (pre ++ post).map some) :
    Chain (s.insert v (lastPlace place pre)) place (pre ++ v :: post) := by
  obtain ⟨hread, hback⟩ := s.insert_eq (lastPlace place pre) v
  have hhead : s.read (lastPlace place pre) = post.head? := h.read_lastPlace
  have hnodup := h.nodup
  rw [List.map_append, ← List.cons_append] at hnodup hv
  obtain ⟨hnodupPre, hnodupPost, hdisjoint⟩ := List.nodup_append.mp hnodup
  obtain ⟨hvPre, hvPost⟩ := not_or.mp (fun hmem => hv (List.mem_append.mpr hmem))
  have hpre (w : V) (hw : w ∈ pre) : w ≠ v ∧ w ∉ post := by
    have hmem := List.mem_cons_of_mem place (List.mem_map_of_mem (f := some) hw)
    refine ⟨fun heq => hvPre (heq ▸ hmem), fun hpost => ?_⟩
    exact hdisjoint _ hmem _ (List.mem_map_of_mem hpost) rfl
  have hplace (q : Option V) (hq : q ∈ post.map some) : q ≠ lastPlace place pre := by
    rintro rfl
    exact hdisjoint _ (lastPlace_mem place pre) _ hq rfl
  have hplaceSelf : some v ≠ lastPlace place pre := fun heq => hvPre (heq ▸ lastPlace_mem place pre)
  have hself : Chain (s.insert v (lastPlace place pre)) (some v) ([] ++ post) := by
    apply Chain.of_parts
    · exact List.nodup_cons.mpr ⟨hvPost, hnodupPost⟩
    · exact nofun
    · rw [lastPlace, hread, if_neg hplaceSelf, if_pos rfl, hhead]
    · intro w rest hpost
      rw [hback, if_neg, if_pos (by rw [hhead, hpost]; rfl)]
      · rfl
      · rintro rfl
        rw [hpost] at hvPost
        exact hvPost List.mem_cons_self
    · intro w rest hpost
      rw [hpost] at h hvPost hnodupPost
      apply h.rest.congr
      · intro q hq
        rw [hread, if_neg (hplace q (hpost ▸ hq)), if_neg]
        rintro rfl
        exact hvPost hq
      · intro u hu
        rw [hback, if_neg, if_neg]
        · rw [hhead, hpost]
          intro heq
          have hw := (List.nodup_cons.mp hnodupPost).1
          rw [Option.some_inj.mp heq] at hw
          exact hw (List.mem_map_of_mem hu)
        · rintro rfl
          exact hvPost (List.mem_cons_of_mem _ (List.mem_map_of_mem hu))
  apply Chain.of_parts
  · rw [List.map_append, List.map_cons, ← List.cons_append]
    refine List.nodup_append.mpr ⟨hnodupPre, List.nodup_cons.mpr ⟨hvPost, hnodupPost⟩, ?_⟩
    intro a ha b hb
    rcases List.mem_cons.mp hb with rfl | hb
    · rintro rfl
      exact hvPre ha
    · exact hdisjoint a ha b hb
  · intro q hq
    obtain ⟨hmem, hlast⟩ := place_of_mem_places hnodupPre hq
    have hnot := hpre q.2 (mem_of_mem_places hq)
    rw [hread, if_neg hlast, if_neg, hback, if_neg hnot.1, if_neg]
    · apply h.node q
      rw [places_append]
      exact List.mem_append_left _ hq
    · rw [hhead]
      intro heq
      exact hnot.2 (List.mem_of_mem_head? heq)
    · intro heq
      exact hvPre (heq ▸ hmem)
  · rw [hread, if_pos rfl]
    rfl
  · intro w rest hpost
    obtain ⟨rfl, rfl⟩ := List.cons_eq_cons.mp hpost
    rw [hback, if_pos rfl]
  · intro w rest hpost
    obtain ⟨rfl, rfl⟩ := List.cons_eq_cons.mp hpost
    exact hself

end SpiderMonkey.Lib
