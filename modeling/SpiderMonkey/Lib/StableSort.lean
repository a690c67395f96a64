import Mathlib.Tactic.Common
import Mathlib.Data.List.Perm.Basic

/-!
# Stable sorts

A list in another order, with tied items in the order they had. For a total preorder there is one such
list that is sorted. Inserting an item behind those that are not after it, and merging two sorted lists,
are stable.
-/

namespace SpiderMonkey.Lib

variable {α : Type*} {le : α → α → Bool} {xs ys zs xs' ys' : List α} {a b x y : α}

/-- Neither item is before the other. -/
def tied (le : α → α → Bool) (a b : α) : Bool := le a b && le b a

/-- The items of a list in another order, but for those that are tied. -/
structure StableOf (le : α → α → Bool) (xs ys : List α) : Prop where
  perm : ys.Perm xs
  filter_eq : ∀ a, ys.filter (tied le a) = xs.filter (tied le a)

/-- The items of a list in order, tied ones as they were. -/
structure IsStableSort (le : α → α → Bool) (xs ys : List α) : Prop where
  stable : StableOf le xs ys
  sorted : ys.Pairwise (le · ·)

/-- Any two items are in order, and the order is transitive. -/
structure IsTotalPreorder (le : α → α → Bool) : Prop where
  total : ∀ a b, le a b = true ∨ le b a = true
  trans : ∀ a b c, le a b = true → le b c = true → le a c = true

/-- Tied items. -/
theorem tied_iff : tied le a b = true ↔ le a b = true ∧ le b a = true := Bool.and_eq_true_iff

namespace StableOf

/-- A list is in its order. -/
theorem refl (le : α → α → Bool) (xs : List α) : StableOf le xs xs := ⟨List.Perm.refl xs, fun _ => rfl⟩

/-- Two changes of the order one after the other. -/
theorem trans (h : StableOf le xs ys) (h' : StableOf le ys zs) : StableOf le xs zs :=
  ⟨h'.perm.trans h.perm, fun a => (h'.filter_eq a).trans (h.filter_eq a)⟩

/-- Changes of the order of two parts. -/
theorem append (h : StableOf le xs ys) (h' : StableOf le xs' ys') :
    StableOf le (xs ++ xs') (ys ++ ys') := by
  apply StableOf.mk (h.perm.append h'.perm)
  intro a
  rw [List.filter_append, List.filter_append, h.filter_eq a, h'.filter_eq a]

/-- Two neighbours change places if they are not tied, and neither is tied with what the other is. -/
theorem swap (h : ∀ a, tied le a x = true → tied le a y = true → False) :
    StableOf le [x, y] [y, x] := by
  apply StableOf.mk (List.Perm.swap x y [])
  intro a
  have hxy := h a
  by_cases hx : tied le a x = true
  · have hy : ¬tied le a y = true := fun hy => hxy hx hy
    rw [List.filter_cons_of_neg hy, List.filter_cons_of_pos hx, List.filter_cons_of_pos hx,
      List.filter_cons_of_neg hy]
  · by_cases hy : tied le a y = true
    · rw [List.filter_cons_of_pos hy, List.filter_cons_of_neg hx, List.filter_cons_of_neg hx,
        List.filter_cons_of_pos hy]
    · rw [List.filter_cons_of_neg hy, List.filter_cons_of_neg hx, List.filter_cons_of_neg hx,
        List.filter_cons_of_neg hy]

end StableOf

namespace IsTotalPreorder

variable (h : IsTotalPreorder le)
include h

/-- Each item is in order with itself. -/
theorem refl (a : α) : le a a = true := or_self_iff.mp (h.total a a)

/-- What is not in order one way is the other way. -/
theorem of_not (hle : ¬le a b = true) : le b a = true := (h.total a b).resolve_left hle

/-- Items that are not in order are not both tied with another. -/
theorem not_tied (hle : ¬le x y = true) (a : α) (hx : tied le a x = true) (hy : tied le a y = true) :
    False :=
  hle (h.trans x a y (tied_iff.mp hx).2 (tied_iff.mp hy).1)

/-- There is one stable sort. -/
theorem unique (hys : IsStableSort le xs ys) (hzs : IsStableSort le xs zs) : ys = zs := by
  induction ys generalizing xs zs with
  | nil =>
    have hnil : zs = [] := List.Perm.eq_nil (hzs.stable.perm.trans hys.stable.perm.symm)
    exact hnil.symm
  | cons y ys ih =>
    have hperm : zs.Perm (y :: ys) := hzs.stable.perm.trans hys.stable.perm.symm
    cases zs with
    | nil => exact absurd hperm.symm.eq_nil (List.cons_ne_nil y ys)
    | cons z zs =>
      have hfilter (a : α) := (hys.stable.filter_eq a).trans (hzs.stable.filter_eq a).symm
      have hy := List.pairwise_cons.mp hys.sorted
      have hz := List.pairwise_cons.mp hzs.sorted
      -- the first items are tied, so that they are the first among those tied with one of them
      have hyz : le y z = true := by
        rcases List.mem_cons.mp (hperm.mem_iff.mp List.mem_cons_self) with heq | hmem
        · rw [heq]
          exact h.refl y
        · exact hy.1 z hmem
      have hzy : le z y = true := by
        rcases List.mem_cons.mp (hperm.mem_iff.mpr List.mem_cons_self) with heq | hmem
        · rw [heq]
          exact h.refl z
        · exact hz.1 y hmem
      have hhead : y = z := by
        have heq := hfilter y
        rw [List.filter_cons_of_pos (tied_iff.mpr ⟨h.refl y, h.refl y⟩),
          List.filter_cons_of_pos (tied_iff.mpr ⟨hyz, hzy⟩)] at heq
        exact (List.cons_eq_cons.mp heq).1
      subst hhead
      congr 1
      apply ih ⟨StableOf.refl le ys, hy.2⟩
      refine ⟨⟨hperm.cons_inv, ?_⟩, hz.2⟩
      intro a
      have heq := hfilter a
      rw [List.filter_cons, List.filter_cons] at heq
      split_ifs at heq
      · exact (List.cons_eq_cons.mp heq).2.symm
      · exact heq.symm

/-- Merging sorted lists is stable. -/
theorem stableOf_merge (hxs : xs.Pairwise (le · ·)) (hys : ys.Pairwise (le · ·)) :
    StableOf le (xs ++ ys) (xs.merge ys le) := by
  refine ⟨List.merge_perm_append le, ?_⟩
  intro a
  induction xs generalizing ys with
  | nil => rw [List.nil_merge, List.nil_append]
  | cons x xs ihx =>
    induction ys with
    | nil => rw [List.merge_right, List.append_nil]
    | cons y ys ihy =>
      by_cases hle : le x y = true
      · rw [List.cons_merge_cons_pos le xs ys hle, List.cons_append, List.filter_cons,
          List.filter_cons, ihx (List.pairwise_cons.mp hxs).2 hys]
      · rw [List.cons_merge_cons_neg le xs ys hle, List.filter_append, List.filter_cons,
          ihy (List.pairwise_cons.mp hys).2, List.filter_append]
        split_ifs with hy
        · -- what is tied with the item is not in the first list
          have hnil : (x :: xs).filter (tied le a) = [] := by
            rw [List.filter_eq_nil_iff]
            intro x' hx' htied
            have hxx' : le x x' = true := by
              rcases List.mem_cons.mp hx' with rfl | hmem
              · exact h.refl x'
              · exact (List.pairwise_cons.mp hxs).1 x' hmem
            have hx'y := h.trans x' a y (tied_iff.mp htied).2 (tied_iff.mp hy).1
            exact hle (h.trans x x' y hxx' hx'y)
          rw [hnil, List.filter_cons_of_pos hy]
          rfl
        · rw [List.filter_cons_of_neg hy]

/-- Merging sorted lists makes their stable sort. -/
theorem isStableSort_merge (hxs : xs.Pairwise (le · ·)) (hys : ys.Pairwise (le · ·)) :
    IsStableSort le (xs ++ ys) (xs.merge ys le) := by
  refine ⟨h.stableOf_merge hxs hys, List.pairwise_merge h.trans ?_ xs ys hxs hys⟩
  intro a b
  rw [Bool.or_eq_true]
  exact h.total a b

end IsTotalPreorder

end SpiderMonkey.Lib
