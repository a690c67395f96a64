import Mathlib.Data.List.Basic

/-!
# Worklists

Items are visited once each. A visit checks an item, and gives the items that are to be visited because
of it. When nothing is left to visit, the items that were seen are closed under visits.
-/

namespace SpiderMonkey

variable {ι : Type*}

/-- The items that were seen, and those of them that are yet to be visited. -/
structure Worklist (ι : Type*) where
  seen : List ι
  work : List ι

namespace Worklist

/-- An item was visited, and what is due because of it was seen. -/
def Visited (visit : ι → Option (List ι)) (seen : List ι) (i : ι) : Prop :=
  ∃ items, visit i = some items ∧ ∀ j ∈ items, j ∈ seen

/-- Each item was visited or is left. -/
def Pending (visit : ι → Option (List ι)) (w : Worklist ι) : Prop :=
  ∀ i ∈ w.seen, Visited visit w.seen i ∨ i ∈ w.work

/-- Each item was visited. -/
def Closed (visit : ι → Option (List ι)) (seen : List ι) : Prop :=
  ∀ i ∈ seen, Visited visit seen i

variable {visit : ι → Option (List ι)}

/-- What is due stays seen when more is seen. -/
theorem Visited.mono {seen seen' : List ι} {i : ι} (h : Visited visit seen i) (hsub : seen ⊆ seen') :
    Visited visit seen' i := by
  obtain ⟨items, hvisit, hitems⟩ := h
  exact ⟨items, hvisit, fun j hj => hsub (hitems j hj)⟩

/-- A closed list has nothing left. -/
theorem Closed.pending {seen : List ι} (h : Closed visit seen) : Pending visit ⟨seen, []⟩ :=
  fun i hi => .inl (h i hi)

variable [DecidableEq ι]

/-- See an item, if it was not seen before. -/
def add (w : Worklist ι) (i : ι) : Worklist ι :=
  if i ∈ w.seen then w else ⟨i :: w.seen, i :: w.work⟩

/-- See items. -/
def addAll (w : Worklist ι) (items : List ι) : Worklist ι :=
  items.foldl add w

/-- Visit what is left, the last item first. A visit fails if its check does. -/
def drain (visit : ι → Option (List ι)) : ℕ → Worklist ι → Option (Worklist ι)
  | _, ⟨seen, []⟩ => some ⟨seen, []⟩
  | 0, ⟨_, _ :: _⟩ => none
  | fuel + 1, ⟨seen, i :: work⟩ =>
    match visit i with
    | none => none
    | some items => drain visit fuel (addAll ⟨seen, work⟩ items)

variable {w w' : Worklist ι}

/-- Nothing is unseen. -/
theorem seen_subset_add (w : Worklist ι) (i : ι) : w.seen ⊆ (w.add i).seen := by
  unfold add
  split_ifs
  · exact List.Subset.refl _
  · exact List.subset_cons_self _ _

/-- The item is seen. -/
theorem mem_seen_add (w : Worklist ι) (i : ι) : i ∈ (w.add i).seen := by
  unfold add
  split_ifs with h
  · exact h
  · exact List.mem_cons_self

/-- Nothing is taken off the list. -/
theorem work_subset_add (w : Worklist ι) (i : ι) : w.work ⊆ (w.add i).work := by
  unfold add
  split_ifs
  · exact List.Subset.refl _
  · exact List.subset_cons_self _ _

/-- What is newly seen is left to visit. -/
theorem mem_work_of_mem_seen_add {i j : ι} (hj : j ∈ (w.add i).seen) :
    j ∈ w.seen ∨ j ∈ (w.add i).work := by
  unfold add at hj ⊢
  split_ifs at hj ⊢ with h
  · exact .inl hj
  · cases List.mem_cons.mp hj with
    | inl heq => exact .inr (heq ▸ List.mem_cons_self)
    | inr hold => exact .inl hold

/-- Nothing is unseen. -/
theorem seen_subset_addAll (w : Worklist ι) (items : List ι) : w.seen ⊆ (w.addAll items).seen := by
  induction items generalizing w with
  | nil => exact List.Subset.refl _
  | cons i rest ih => exact List.Subset.trans (seen_subset_add w i) (ih (w.add i))

/-- All items are seen. -/
theorem mem_seen_addAll (w : Worklist ι) {items : List ι} {i : ι} (hi : i ∈ items) :
    i ∈ (w.addAll items).seen := by
  induction items generalizing w with
  | nil => exact absurd hi List.not_mem_nil
  | cons j rest ih =>
    cases List.mem_cons.mp hi with
    | inl heq => exact seen_subset_addAll (w.add j) rest (heq ▸ mem_seen_add w j)
    | inr hrest => exact ih (w.add j) hrest

/-- Nothing is taken off the list. -/
theorem work_subset_addAll (w : Worklist ι) (items : List ι) : w.work ⊆ (w.addAll items).work := by
  induction items generalizing w with
  | nil => exact List.Subset.refl _
  | cons i rest ih => exact List.Subset.trans (work_subset_add w i) (ih (w.add i))

/-- What is newly seen is left to visit. -/
theorem mem_work_of_mem_seen_addAll {items : List ι} {i : ι} (hi : i ∈ (w.addAll items).seen) :
    i ∈ w.seen ∨ i ∈ (w.addAll items).work := by
  induction items generalizing w with
  | nil => exact .inl hi
  | cons j rest ih =>
    cases ih hi with
    | inl hadd =>
      cases mem_work_of_mem_seen_add hadd with
      | inl hseen => exact .inl hseen
      | inr hwork => exact .inr (work_subset_addAll (w.add j) rest hwork)
    | inr hwork => exact .inr hwork

/-- Items stay visited or left when more are seen. -/
theorem Pending.addAll (h : Pending visit w) (items : List ι) : Pending visit (w.addAll items) := by
  intro i hi
  cases mem_work_of_mem_seen_addAll hi with
  | inl hseen =>
    cases h i hseen with
    | inl hvisited => exact .inl (hvisited.mono (seen_subset_addAll w items))
    | inr hwork => exact .inr (work_subset_addAll w items hwork)
  | inr hwork => exact .inr hwork

/-- A visit of the next item leaves each item visited or left. -/
theorem Pending.next {seen work items : List ι} {i : ι} (h : Pending visit ⟨seen, i :: work⟩)
    (hi : visit i = some items) : Pending visit (Worklist.addAll ⟨seen, work⟩ items) := by
  intro j hj
  have hsub := seen_subset_addAll ⟨seen, work⟩ items
  cases mem_work_of_mem_seen_addAll hj with
  | inr hwork => exact .inr hwork
  | inl hseen =>
    cases h j hseen with
    | inl hvisited => exact .inl (hvisited.mono hsub)
    | inr hwork =>
      cases List.mem_cons.mp hwork with
      | inl heq => exact .inl ⟨items, heq ▸ hi, fun k hk => mem_seen_addAll _ hk⟩
      | inr hrest => exact .inr (work_subset_addAll ⟨seen, work⟩ items hrest)

/-- When nothing is left, what was seen is closed, and nothing was unseen. -/
theorem drain_closed {fuel : ℕ} (hdrain : drain visit fuel w = some w') (h : Pending visit w) :
    Closed visit w'.seen ∧ w'.work = [] ∧ w.seen ⊆ w'.seen := by
  induction fuel generalizing w with
  | zero =>
    obtain ⟨seen, work⟩ := w
    cases work with
    | nil =>
      cases hdrain
      exact ⟨fun i hi => (h i hi).resolve_right List.not_mem_nil, rfl, List.Subset.refl _⟩
    | cons i work => cases hdrain
  | succ fuel ih =>
    obtain ⟨seen, work⟩ := w
    cases work with
    | nil =>
      cases hdrain
      exact ⟨fun i hi => (h i hi).resolve_right List.not_mem_nil, rfl, List.Subset.refl _⟩
    | cons i work =>
      unfold drain at hdrain
      cases hvisit : visit i with
      | none => simp only [hvisit, reduceCtorEq] at hdrain
      | some items =>
        simp only [hvisit] at hdrain
        have hrest := ih hdrain (h.next hvisit)
        exact ⟨hrest.1, hrest.2.1, 
          List.Subset.trans (seen_subset_addAll ⟨seen, work⟩ items) hrest.2.2⟩

end Worklist

end SpiderMonkey
