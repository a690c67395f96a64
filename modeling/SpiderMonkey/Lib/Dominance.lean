import Mathlib.Data.List.Infix
import Mathlib.Data.List.Nodup

/-!
# Dominance in a directed graph with several roots

A path runs from some root to its end point and is listed from the end point backwards.
A vertex dominates another when it lies on every path to it; with several roots a reachable
vertex may have no dominator but itself.
-/

namespace SpiderMonkey

variable {V : Type*} (edge : V → V → Prop) (root : V → Prop)

/-- A path from a root, listed backwards from its last vertex. -/
inductive RootPath : V → List V → Prop
  | root {r : V} : root r → RootPath r [r]
  | step {u v : V} {p : List V} : RootPath u p → edge u v → RootPath v (v :: p)

/-- A vertex is reachable when some path from a root ends in it. -/
def RootReachable (v : V) : Prop := ∃ p, RootPath edge root v p

/-- A vertex dominates another when every path from a root to the other goes through it. -/
def Dominates (a b : V) : Prop := ∀ p, RootPath edge root b p → a ∈ p

/-- The closest strict dominator: every other strict dominator dominates it. -/
structure IsImmediateDominator (d b : V) : Prop where
  ne : d ≠ b
  dominates : Dominates edge root d b
  closest : ∀ a, a ≠ b → Dominates edge root a b → Dominates edge root a d

variable {edge root}

namespace RootPath

/-- A path ends in its last vertex. -/
theorem mem_last {v : V} {p : List V} (h : RootPath edge root v p) : v ∈ p := by
  cases h <;> simp

/-- Each vertex of a path ends an initial part of it. -/
theorem exists_suffix {v a : V} {p : List V} (h : RootPath edge root v p) (ha : a ∈ p) :
    ∃ q, q <:+ p ∧ RootPath edge root a q := by
  induction h with
  | @root r hr =>
    obtain rfl : a = r := by simpa using ha
    exact ⟨[a], List.suffix_refl _, .root hr⟩
  | @step u v p hp hedge ih =>
    rcases List.mem_cons.mp ha with rfl | ha
    · exact ⟨a :: p, List.suffix_refl _, .step hp hedge⟩
    · obtain ⟨q, hq, hroot⟩ := ih ha
      exact ⟨q, hq.trans (List.suffix_cons _ _), hroot⟩

/-- A path can be shortened to one that visits no vertex twice. -/
theorem exists_nodup {v : V} {p : List V} (h : RootPath edge root v p) :
    ∃ q, q ⊆ p ∧ q.Nodup ∧ RootPath edge root v q := by
  induction h with
  | @root r hr => exact ⟨[r], List.Subset.refl _, List.nodup_singleton r, .root hr⟩
  | @step u v p hp hedge ih =>
    obtain ⟨q, hqp, hnodup, hq⟩ := ih
    by_cases hv : v ∈ q
    · obtain ⟨q', hsuffix, hq'⟩ := hq.exists_suffix hv
      refine ⟨q', ?_, hnodup.sublist hsuffix.sublist, hq'⟩
      exact List.Subset.trans hsuffix.subset (List.Subset.trans hqp (List.subset_cons_self _ _))
    · exact ⟨v :: q, List.cons_subset_cons _ hqp, List.nodup_cons.mpr ⟨hv, hnodup⟩, .step hq hedge⟩

end RootPath

/-- Every vertex dominates itself. -/
theorem Dominates.refl (a : V) : Dominates edge root a a := fun _ hp => hp.mem_last

/-- Dominance is transitive. -/
theorem Dominates.trans {a b c : V} (hab : Dominates edge root a b) (hbc : Dominates edge root b c) :
    Dominates edge root a c := by
  intro p hp
  obtain ⟨q, hq, hroot⟩ := hp.exists_suffix (hbc p hp)
  exact hq.subset (hab q hroot)

/-- A strict dominator of a vertex dominates all its predecessors. -/
theorem Dominates.of_edge {a u v : V} (h : Dominates edge root a v) (hne : a ≠ v)
    (hedge : edge u v) : Dominates edge root a u := by
  intro p hp
  exact (List.mem_cons.mp (h _ (.step hp hedge))).resolve_left hne

/-- A dominator of all predecessors of a vertex that is no root dominates the vertex. -/
theorem Dominates.of_predecessors {a v : V} (hroot : ¬ root v)
    (h : ∀ u, edge u v → Dominates edge root a u) : Dominates edge root a v := by
  intro p hp
  cases hp with
  | root hr => exact absurd hr hroot
  | step hp hedge => exact List.mem_cons_of_mem _ (h _ hedge _ hp)

/-- A root is dominated by itself alone. -/
theorem Dominates.eq_of_root {a r : V} (h : Dominates edge root a r) (hr : root r) : a = r := by
  simpa using h [r] (.root hr)

/-- A reachable vertex that is no root has a predecessor it does not dominate. -/
theorem exists_predecessor_not_dominated {v : V} (hreach : RootReachable edge root v)
    (hroot : ¬ root v) : ∃ u, edge u v ∧ ¬ Dominates edge root v u := by
  obtain ⟨p, hp⟩ := hreach
  obtain ⟨q, -, hnodup, hq⟩ := hp.exists_nodup
  cases hq with
  | root hr => exact absurd hr hroot
  | step hq hedge => exact ⟨_, hedge, fun h => (List.nodup_cons.mp hnodup).1 (h _ hq)⟩

end SpiderMonkey
