import Mathlib

/-!
# The priority queue

`PriorityQueue` keeps its elements in a vector that encodes a binary tree. The children of element `n` are
elements `2 * n + 1` and `2 * n + 2`. An element that is appended sifts up, and the last element sifts down from
the place of the highest one that is removed.

A queue is a multiset. `removeHighest` takes a highest element away, because no element has a lower priority than
its children. One edge of the tree is out of order while an element sifts up, and two while it sifts down.
-/

namespace SpiderMonkey.Ds.PriorityQueue

variable {T P : Type*} [LinearOrder P]

/-- `P::priority(heap[a]) < P::priority(heap[b])`. -/
def lower (priority : T → P) (heap : Array T) (a b : ℕ) : Bool :=
  match heap[a]?, heap[b]? with
  | some x, some y => priority x < priority y
  | _, _ => false

/-- `siftDown`. -/
def siftDown (priority : T → P) (heap : Array T) (n : ℕ) : Array T :=
  let left := n * 2 + 1
  let right := n * 2 + 2
  if left < heap.size then
    if right < heap.size && lower priority heap n right && lower priority heap left right then
      siftDown priority (heap.swapIfInBounds n right) right
    else if lower priority heap n left then siftDown priority (heap.swapIfInBounds n left) left
    else heap
  else heap
termination_by heap.size - n
decreasing_by all_goals simp only [Array.size_swapIfInBounds]; omega

/-- `siftUp`. -/
def siftUp (priority : T → P) (heap : Array T) (n : ℕ) : Array T :=
  if n > 0 then
    let parent := (n - 1) / 2
    if lower priority heap n parent then heap
    else siftUp priority (heap.swapIfInBounds n parent) parent
  else heap
termination_by n
decreasing_by omega

/-- `insert`, for a vector that can be appended to. -/
def insert (priority : T → P) (heap : Array T) (v : T) : Array T :=
  let heap := heap.push v
  siftUp priority heap (heap.size - 1)

/-- `removeHighest`, for a queue that is not empty. -/
def removeHighest (priority : T → P) (heap : Array T) : Option (T × Array T) :=
  match heap[0]?, heap.back? with
  | some highest, some last =>
    let heap := heap.pop
    some (highest, if heap.isEmpty then heap else siftDown priority (heap.setIfInBounds 0 last) 0)
  | _, _ => none

/-- The operations on a queue. -/
inductive Op (T : Type*) where
  | insert (v : T)
  | removeHighest

/-- A sequence of operations, with what has been removed. -/
def run (priority : T → P) : Array T → List (Op T) → Option (List T × Array T)
  | heap, [] => some ([], heap)
  | heap, .insert v :: ops => run priority (insert priority heap v) ops
  | heap, .removeHighest :: ops => do
    let (highest, heap) ← removeHighest priority heap
    let (removed, heap) ← run priority heap ops
    some (highest :: removed, heap)

variable {priority : T → P} {heap : Array T} {n i j k : ℕ} {v : T}

/-! ## The queue as a multiset -/

/-- A sequence of operations on a multiset. What is removed is one of its highest elements. -/
def Serves (priority : T → P) : Multiset T → List (Op T) → List T → Multiset T → Prop
  | s, [], removed, t => removed = [] ∧ t = s
  | s, .insert v :: ops, removed, t => Serves priority (v ::ₘ s) ops removed t
  | s, .removeHighest :: ops, removed, t => ∃ highest rest s', removed = highest :: rest ∧
      s = highest ::ₘ s' ∧ (∀ x ∈ s, priority x ≤ priority highest) ∧ Serves priority s' ops rest t

/-- The elements of all insertions. -/
def inserted : List (Op T) → Multiset T
  | [] => 0
  | .insert v :: ops => v ::ₘ inserted ops
  | .removeHighest :: ops => inserted ops

/-- No sequence of operations removes from an empty queue of `count` elements. -/
def Enough : ℕ → List (Op T) → Prop
  | _, [] => True
  | count, .insert _ :: ops => Enough (count + 1) ops
  | count, .removeHighest :: ops => 0 < count ∧ Enough (count - 1) ops

/-- Nothing is lost: what was inserted has been removed or remains. -/
theorem Serves.add_eq {s t : Multiset T} {ops : List (Op T)} {removed : List T}
    (h : Serves priority s ops removed t) : s + inserted ops = removed + t := by
  induction ops generalizing s removed with
  | nil =>
    obtain ⟨rfl, rfl⟩ := h
    simp [inserted]
  | cons op ops ih =>
    cases op with
    | insert v =>
      have heq := ih h
      rw [inserted, Multiset.add_cons, ← Multiset.cons_add, heq]
    | removeHighest =>
      obtain ⟨highest, rest, s', rfl, rfl, -, h⟩ := h
      have heq := ih h
      rw [inserted, Multiset.cons_add, heq, ← Multiset.cons_coe, Multiset.cons_add]

/-! ## The order of the heap -/

/-- An element is a child of another. -/
def IsChild (i j : ℕ) : Prop := j = i * 2 + 1 ∨ j = i * 2 + 2

/-- An element does not have a lower priority than another one. -/
def Above (priority : T → P) (heap : Array T) (i j : ℕ) : Prop :=
  ∀ x y, heap[i]? = some x → heap[j]? = some y → priority y ≤ priority x

/-- No element has a lower priority than its children. -/
def Ordered (priority : T → P) (heap : Array T) : Prop := ∀ i j, IsChild i j → Above priority heap i j

/-- All edges are in order, unless they go up from `n`, also those from the parent of `n` to its children. -/
structure Rising (priority : T → P) (heap : Array T) (n : ℕ) : Prop where
  edges : ∀ i j, IsChild i j → j ≠ n → Above priority heap i j
  across : ∀ i j, IsChild i n → IsChild n j → Above priority heap i j

/-- All edges are in order, unless they go down from `n`, also those from the parent of `n` to its children. -/
structure Sinking (priority : T → P) (heap : Array T) (n : ℕ) : Prop where
  edges : ∀ i j, IsChild i j → i ≠ n → Above priority heap i j
  across : ∀ i j, IsChild i n → IsChild n j → Above priority heap i j

/-- Two elements that are not out of order. -/
theorem above_of_not_lower (h : lower priority heap i j = false) : Above priority heap i j := by
  intro x y hx hy
  rw [lower, hx, hy] at h
  exact not_lt.mp (of_decide_eq_false h)

/-- Two elements that are out of order. -/
theorem above_of_lower (h : lower priority heap i j = true) : Above priority heap j i := by
  intro y x hy hx
  rw [lower, hx, hy] at h
  exact (of_decide_eq_true h).le

/-- The element between two others that are in order. -/
theorem Above.trans (hij : Above priority heap i j) (hjk : Above priority heap j k) (hj : j < heap.size) :
    Above priority heap i k := by
  intro x z hx hz
  have hy := Array.getElem?_eq_getElem hj
  exact (hjk _ z hy hz).trans (hij x _ hx hy)

/-- What is in a place after a swap. -/
theorem getElem?_swap (hi : i < heap.size) (hj : j < heap.size) :
    (heap.swapIfInBounds i j)[k]? = if k = i then heap[j]? else if k = j then heap[i]? else heap[k]? := by
  rw [Array.swapIfInBounds_def, dif_pos hi, dif_pos hj, Array.getElem?_swap]
  grind

/-- A swap keeps the elements. -/
theorem perm_swap (heap : Array T) (i j : ℕ) : (heap.swapIfInBounds i j).toList.Perm heap.toList := by
  rw [Array.swapIfInBounds_def]
  split
  · split
    · exact (Array.swap_perm _ _).toList
    · exact List.Perm.refl _
  · exact List.Perm.refl _

/-! ## Sifting up -/

/-- The parent of an element. -/
theorem isChild_parent (hn : 0 < n) : IsChild ((n - 1) / 2) n := by
  unfold IsChild
  omega

/-- An element that is not lower than its parent takes its place. -/
theorem Rising.swap (h : Rising priority heap n) (hi : IsChild i n) (hn : n < heap.size)
    (hle : Above priority heap n i) : Rising priority (heap.swapIfInBounds n i) i := by
  have hin : i < n := by
    unfold IsChild at hi
    omega
  have hget (k : ℕ) := getElem?_swap (k := k) hn (hin.trans hn)
  have hlt (a b : ℕ) (hab : IsChild a b) : a < b := by
    unfold IsChild at hab
    omega
  have hparent (k : ℕ) (hk : IsChild k n) : k = i := by
    unfold IsChild at hi hk
    omega
  constructor
  · intro a b hab hb x y hx hy
    rw [hget] at hx hy
    by_cases hbn : b = n
    · subst hbn
      obtain rfl := hparent a hab
      rw [if_neg hin.ne, if_pos rfl] at hx
      rw [if_pos rfl] at hy
      exact hle x y hx hy
    rw [if_neg hbn, if_neg hb] at hy
    by_cases han : a = n
    · subst han
      rw [if_pos rfl] at hx
      exact h.across i b hi hab x y hx hy
    rw [if_neg han] at hx
    by_cases hai : a = i
    · subst hai
      rw [if_pos rfl] at hx
      exact hle.trans (h.edges a b hab hbn) (hin.trans hn) x y hx hy
    · rw [if_neg hai] at hx
      exact h.edges a b hab hbn x y hx hy
  · intro a b hai hib x y hx hy
    have ha := hlt a i hai
    have hup := h.edges a i hai hin.ne
    rw [hget, if_neg (ha.trans hin).ne, if_neg ha.ne] at hx
    rw [hget] at hy
    by_cases hbn : b = n
    · rw [if_pos hbn] at hy
      exact hup x y hx hy
    · rw [if_neg hbn, if_neg (hlt i b hib).ne'] at hy
      exact hup.trans (h.edges i b hib hbn) (hin.trans hn) x y hx hy

/-- The elements of a heap after `siftUp`. -/
theorem perm_siftUp (priority : T → P) (heap : Array T) (n : ℕ) : (siftUp priority heap n).toList.Perm heap.toList := by
  induction heap, n using siftUp.induct priority with
  | case1 heap n hpos parent hlower => rw [siftUp, if_pos hpos, if_pos hlower]
  | case2 heap n hpos parent hlower ih =>
    rw [siftUp, if_pos hpos, if_neg hlower]
    exact ih.trans (perm_swap heap n parent)
  | case3 heap n hpos => rw [siftUp, if_neg hpos]

/-- A heap without edges that are out of order. -/
theorem Rising.ordered (h : Rising priority heap n) (hle : ∀ i, IsChild i n → Above priority heap i n) :
    Ordered priority heap := by
  intro i j hij
  by_cases hj : j = n
  · subst hj
    exact hle i hij
  · exact h.edges i j hij hj

/-- `siftUp` leaves a heap in order. -/
theorem ordered_siftUp (h : Rising priority heap n) (hn : n < heap.size) :
    Ordered priority (siftUp priority heap n) := by
  induction heap, n using siftUp.induct priority with
  | case1 heap n hpos parent hlower =>
    rw [siftUp, if_pos hpos, if_pos hlower]
    refine h.ordered fun i hi => ?_
    have hip : i = parent := by
      have hparent := isChild_parent hpos
      unfold IsChild at hi hparent
      omega
    subst hip
    exact above_of_lower hlower
  | case2 heap n hpos parent hlower ih =>
    rw [siftUp, if_pos hpos, if_neg hlower]
    have hle := above_of_not_lower (Bool.eq_false_iff.mpr hlower)
    have hparent : parent < n := by omega
    refine ih (h.swap (isChild_parent hpos) hn hle) ?_
    rw [Array.size_swapIfInBounds]
    exact hparent.trans hn
  | case3 heap n hpos =>
    rw [siftUp, if_neg hpos]
    refine h.ordered fun i hi => ?_
    unfold IsChild at hi
    omega

/-! ## Sifting down -/

/-- An element takes the place of a child that is not lower, and is not lower than the other child. -/
theorem Sinking.swap (h : Sinking priority heap n) (hi : IsChild n i) (hn : i < heap.size)
    (hle : Above priority heap i n) (hother : ∀ j, IsChild n j → Above priority heap i j) :
    Sinking priority (heap.swapIfInBounds n i) i := by
  have hlt (a b : ℕ) (hab : IsChild a b) : a < b := by
    unfold IsChild at hab
    omega
  have hni := hlt n i hi
  have hget (k : ℕ) := getElem?_swap (k := k) (hni.trans hn) hn
  have hparent (a b c : ℕ) (hac : IsChild a c) (hbc : IsChild b c) : a = b := by
    unfold IsChild at hac hbc
    omega
  constructor
  · intro a b hab ha x y hx hy
    rw [hget] at hx hy
    by_cases han : a = n
    · subst han
      have hba := (hlt a b hab).ne'
      rw [if_pos rfl] at hx
      rw [if_neg hba] at hy
      by_cases hbi : b = i
      · rw [if_pos hbi] at hy
        exact hle x y hx hy
      · rw [if_neg hbi] at hy
        exact hother b hab x y hx hy
    rw [if_neg han, if_neg ha] at hx
    have hbi : b ≠ i := by
      rintro rfl
      exact han (hparent a n b hab hi)
    by_cases hbn : b = n
    · subst hbn
      rw [if_pos rfl] at hy
      exact h.across a i hab hi x y hx hy
    · rw [if_neg hbn, if_neg hbi] at hy
      exact h.edges a b hab han x y hx hy
  · intro a b hai hib x y hx hy
    obtain rfl := hparent a n i hai hi
    have hb := hlt i b hib
    rw [hget, if_pos rfl] at hx
    rw [hget, if_neg (hni.trans hb).ne', if_neg hb.ne'] at hy
    exact h.edges i b hib hni.ne' x y hx hy

/-- A heap without edges that are out of order. -/
theorem Sinking.ordered (h : Sinking priority heap n) (hle : ∀ j, IsChild n j → Above priority heap n j) :
    Ordered priority heap := by
  intro i j hij
  by_cases hi : i = n
  · subst hi
    exact hle j hij
  · exact h.edges i j hij hi

/-- The elements of a heap after `siftDown`. -/
theorem perm_siftDown (priority : T → P) (heap : Array T) (n : ℕ) : (siftDown priority heap n).toList.Perm heap.toList := by
  induction heap, n using siftDown.induct priority with
  | case1 heap n left right hleft hright ih =>
    rw [siftDown, if_pos hleft, if_pos hright]
    exact ih.trans (perm_swap heap n right)
  | case2 heap n left right hleft hright hlower ih =>
    rw [siftDown, if_pos hleft, if_neg hright, if_pos hlower]
    exact ih.trans (perm_swap heap n left)
  | case3 heap n left right hleft hright hlower => rw [siftDown, if_pos hleft, if_neg hright, if_neg hlower]
  | case4 heap n left hleft => rw [siftDown, if_neg hleft]

/-- An element is not lower than what is outside of the heap. -/
theorem above_of_size_le (hj : heap.size ≤ j) : Above priority heap i j := by
  intro x y hx hy
  rw [Array.getElem?_eq_none hj] at hy
  cases hy

/-- An element is not lower than itself. -/
theorem Above.refl (heap : Array T) (i : ℕ) : Above priority heap i i := by
  intro x y hx hy
  obtain rfl := Option.some.inj (hx.symm.trans hy)
  exact le_rfl

/-- `siftDown` leaves a heap in order. -/
theorem ordered_siftDown (h : Sinking priority heap n) : Ordered priority (siftDown priority heap n) := by
  induction heap, n using siftDown.induct priority with
  | case1 heap n left right hleft hright ih =>
    rw [siftDown, if_pos hleft, if_pos hright]
    rw [Bool.and_eq_true, Bool.and_eq_true, decide_eq_true_eq] at hright
    refine ih (h.swap (.inr rfl) hright.1.1 (above_of_lower hright.1.2) ?_)
    rintro j (rfl | rfl)
    · exact above_of_lower hright.2
    · exact Above.refl heap right
  | case2 heap n left right hleft hright hlower ih =>
    rw [siftDown, if_pos hleft, if_neg hright, if_pos hlower]
    have hle := above_of_lower hlower
    refine ih (h.swap (.inl rfl) hleft hle ?_)
    rintro j (rfl | rfl)
    · exact Above.refl heap left
    by_cases hr : right < heap.size
    · cases hnr : lower priority heap n right with
      | false => exact hle.trans (above_of_not_lower hnr) (by omega)
      | true =>
        refine above_of_not_lower ?_
        simpa [hr, hnr] using hright
    · exact above_of_size_le (not_lt.mp hr)
  | case3 heap n left right hleft hright hlower =>
    rw [siftDown, if_pos hleft, if_neg hright, if_neg hlower]
    have hle := above_of_not_lower (Bool.eq_false_iff.mpr hlower)
    refine h.ordered ?_
    rintro j (rfl | rfl)
    · exact hle
    by_cases hr : right < heap.size
    · cases hnr : lower priority heap n right with
      | false => exact above_of_not_lower hnr
      | true =>
        refine hle.trans (above_of_not_lower ?_) hleft
        simpa [hr, hnr] using hright
    · exact above_of_size_le (not_lt.mp hr)
  | case4 heap n left hleft =>
    rw [siftDown, if_neg hleft]
    refine h.ordered fun j hj => above_of_size_le ?_
    unfold IsChild at hj
    omega

/-! ## The operations -/

/-- The root is not lower than any element. -/
theorem Ordered.root (h : Ordered priority heap) (i : ℕ) : Above priority heap 0 i := by
  induction i using Nat.strong_induction_on with
  | _ i ih =>
    by_cases hi : i = 0
    · subst hi
      exact Above.refl heap 0
    by_cases hsize : i < heap.size
    · have hchild := isChild_parent (Nat.pos_of_ne_zero hi)
      exact (ih _ (by omega)).trans (h _ i hchild) (by omega)
    · exact above_of_size_le (not_lt.mp hsize)

/-- `insert` adds an element. -/
theorem insert_spec (h : Ordered priority heap) (v : T) :
    Ordered priority (insert priority heap v) ∧
      ((insert priority heap v).toList : Multiset T) = v ::ₘ (heap.toList : Multiset T) := by
  have hsize : (heap.push v).size - 1 = heap.size := by simp
  have hold (k : ℕ) (hk : k < heap.size) : (heap.push v)[k]? = heap[k]? := by
    rw [Array.getElem?_push, if_neg hk.ne]
  have hrising : Rising priority (heap.push v) ((heap.push v).size - 1) := by
    rw [hsize]
    constructor
    · intro i j hij hj
      by_cases hjs : j < heap.size
      · have hi : i < heap.size := by
          unfold IsChild at hij
          omega
        intro x y hx hy
        rw [hold i hi] at hx
        rw [hold j hjs] at hy
        exact h i j hij x y hx hy
      · refine above_of_size_le ?_
        rw [Array.size_push]
        omega
    · intro i j _ hj
      refine above_of_size_le ?_
      unfold IsChild at hj
      rw [Array.size_push]
      omega
  constructor
  · exact ordered_siftUp hrising (by simp)
  · have hperm := perm_siftUp priority (heap.push v) ((heap.push v).size - 1)
    rw [insert, Multiset.coe_eq_coe.mpr hperm, Array.toList_push, Multiset.cons_coe]
    exact Multiset.coe_eq_coe.mpr (List.perm_append_singleton v heap.toList)

/-- The last element in place of the root sinks. -/
theorem Ordered.sinking_pop (h : Ordered priority heap) (last : T) :
    Sinking priority (heap.pop.setIfInBounds 0 last) 0 := by
  constructor
  · intro i j hij hi x y hx hy
    have hj : j ≠ 0 := by
      unfold IsChild at hij
      omega
    rw [Array.getElem?_setIfInBounds_ne hi.symm] at hx
    rw [Array.getElem?_setIfInBounds_ne hj.symm] at hy
    rw [Array.getElem?_pop] at hx hy
    refine h i j hij x y ?_ ?_
    · grind
    · grind
  · intro i j hi
    unfold IsChild at hi
    omega

/-- The elements after the last one has taken the place of the root. -/
theorem cons_setIfInBounds_pop {highest last : T} (hhead : heap[0]? = some highest)
    (hlast : heap.back? = some last) (hne : heap.pop.isEmpty = false) :
    (highest :: (heap.pop.setIfInBounds 0 last).toList).Perm heap.toList := by
  obtain ⟨list⟩ := heap
  cases list with
  | nil => cases hhead
  | cons a tail =>
    obtain rfl := Option.some.inj hhead
    cases List.eq_nil_or_concat tail with
    | inl hnil =>
      subst hnil
      cases hne
    | inr hconcat =>
      obtain ⟨mid, b, rfl⟩ := hconcat
      rw [List.concat_eq_append] at hlast hne ⊢
      have hb : b = last := by
        rw [← List.cons_append, List.back?_toArray, List.getLast?_concat] at hlast
        exact Option.some.inj hlast
      subst hb
      have hset : (((⟨a :: (mid ++ [b])⟩ : Array T).pop).setIfInBounds 0 b).toList = b :: mid := by
        rw [Array.toList_setIfInBounds, Array.toList_pop]
        change (List.dropLast ((a :: mid) ++ [b])).set 0 b = b :: mid
        rw [List.dropLast_concat, List.set_cons_zero]
      rw [hset]
      exact (List.perm_append_singleton b mid).symm.cons a

/-- `removeHighest` takes a highest element away. -/
theorem removeHighest_spec (h : Ordered priority heap) (hpos : 0 < heap.size) :
    ∃ highest heap', removeHighest priority heap = some (highest, heap') ∧ Ordered priority heap' ∧
      (heap.toList : Multiset T) = highest ::ₘ (heap'.toList : Multiset T) ∧
      ∀ x ∈ heap, priority x ≤ priority highest := by
  obtain ⟨highest, hhead⟩ : ∃ highest, heap[0]? = some highest := ⟨_, Array.getElem?_eq_getElem hpos⟩
  obtain ⟨last, hlast⟩ : ∃ last, heap.back? = some last := by
    rw [Array.back?]
    exact ⟨_, Array.getElem?_eq_getElem (by omega)⟩
  have hmax : ∀ x ∈ heap, priority x ≤ priority highest := by
    intro x hx
    obtain ⟨i, hi⟩ := Array.mem_iff_getElem?.mp hx
    exact h.root i highest x hhead hi
  refine ⟨highest, _, by rw [removeHighest, hhead, hlast], ?_, ?_, hmax⟩
  · split
    next hempty =>
      intro i j _
      refine above_of_size_le ?_
      rw [Array.isEmpty_iff.mp hempty]
      exact Nat.zero_le j
    next => exact ordered_siftDown (h.sinking_pop last)
  · split
    next hempty =>
      have hsize : heap.size = 1 := by
        have hpop : heap.pop.size = heap.size - 1 := Array.size_pop
        rw [Array.isEmpty_iff.mp hempty] at hpop
        simp only [List.size_toArray, List.length_nil] at hpop
        omega
      obtain ⟨list⟩ := heap
      obtain ⟨a, rfl⟩ := List.length_eq_one_iff.mp hsize
      obtain rfl := Option.some.inj hhead
      rfl
    next hne =>
      rw [Multiset.cons_coe, Multiset.coe_eq_coe]
      have hperm := perm_siftDown priority (heap.pop.setIfInBounds 0 last) 0
      exact ((hperm.cons highest).trans
        (cons_setIfInBounds_pop hhead hlast (Bool.eq_false_iff.mpr hne))).symm

/-- Every sequence of operations serves a multiset. -/
theorem Ordered.run_serves (h : Ordered priority heap) (ops : List (Op T)) (henough : Enough heap.size ops) :
    ∃ removed heap', run priority heap ops = some (removed, heap') ∧
      Serves priority heap.toList ops removed heap'.toList := by
  induction ops generalizing heap with
  | nil => exact ⟨[], heap, rfl, rfl, rfl⟩
  | cons op ops ih =>
    cases op with
    | insert v =>
      obtain ⟨hordered, hcons⟩ := insert_spec h v
      have hsize : (PriorityQueue.insert priority heap v).size = heap.size + 1 := by
        have hcard := congrArg Multiset.card hcons
        simpa using hcard
      obtain ⟨removed, heap', hrun, hserves⟩ := ih hordered (by rw [hsize]; exact henough)
      rw [hcons] at hserves
      exact ⟨removed, heap', hrun, hserves⟩
    | removeHighest =>
      obtain ⟨highest, rest, heq, hordered, hcons, hmax⟩ := removeHighest_spec h henough.1
      have hsize : rest.size = heap.size - 1 := by
        have hcard := congrArg Multiset.card hcons
        simp only [Multiset.coe_card, Multiset.card_cons, Array.length_toList] at hcard
        omega
      obtain ⟨removed, heap', hrun, hserves⟩ := ih hordered (by rw [hsize]; exact henough.2)
      refine ⟨highest :: removed, heap', ?_, highest, removed, rest.toList, rfl, hcons, ?_, hserves⟩
      · rw [run, heq]
        simp only [Option.bind_eq_bind, Option.bind_some, hrun]
      · intro x hx
        exact hmax x (Array.mem_toList_iff.mp (Multiset.mem_coe.mp hx))

/-- For every sequence of insertions and removals, each removal returns an element of the highest priority among
those that were inserted and not yet removed, and the remaining elements are exactly the others. -/
theorem run_empty (priority : T → P) (ops : List (Op T)) (henough : Enough 0 ops) :
    ∃ removed heap, run priority #[] ops = some (removed, heap) ∧
      Serves priority 0 ops removed heap.toList ∧ inserted ops = (removed : Multiset T) + heap.toList := by
  have hordered : Ordered priority (#[] : Array T) := fun i j _ => above_of_size_le (Nat.zero_le j)
  obtain ⟨removed, heap, hrun, hserves⟩ := hordered.run_serves ops henough
  refine ⟨removed, heap, hrun, hserves, ?_⟩
  rw [← hserves.add_eq]
  exact (Multiset.zero_add _).symm

/-- Three insertions and two removals. -/
theorem run_empty_three : ∃ removed heap,
    run id #[] [.insert 2, .insert 5, .removeHighest, .insert 3, .removeHighest] = some (removed, heap) ∧
      Serves id 0 [.insert 2, .insert 5, .removeHighest, .insert 3, .removeHighest] removed heap.toList ∧
      inserted [.insert 2, .insert 5, .removeHighest, .insert 3, .removeHighest] =
        (removed : Multiset ℕ) + (heap.toList : Multiset ℕ) :=
  run_empty id [.insert 2, .insert 5, .removeHighest, .insert 3, .removeHighest] (by simp [Enough])
end SpiderMonkey.Ds.PriorityQueue
