import Mathlib.Logic.Relation
import Mathlib.Data.List.Nodup

/-!
# Groups of vertices in topological order

A list of disjoint groups in which every edge leads to the same or a later group. Such groups never
split a strongly connected component; if each is strongly connected they are the components.
-/

namespace SpiderMonkey

open Relation

variable {V : Type*}

/-- Each group only has edges to itself and to later groups. -/
def ForwardGroups (edge : V → V → Prop) : List (List V) → Prop
  | [] => True
  | g :: groups =>
    (∀ v ∈ g, ∀ w, edge v w → w ∈ g ∨ w ∈ groups.flatten) ∧ ForwardGroups edge groups

/-- The edges between vertices of a set. -/
def InducedEdge (edge : V → V → Prop) (s : Set V) (v w : V) : Prop := edge v w ∧ v ∈ s ∧ w ∈ s

variable {edge edge' : V → V → Prop} {groups : List (List V)}

/-- Fewer edges keep groups in order. -/
theorem ForwardGroups.mono (h : ForwardGroups edge groups) (hsub : ∀ v w, edge' v w → edge v w) :
    ForwardGroups edge' groups := by
  induction groups with
  | nil => trivial
  | cons g groups ih => exact ⟨fun v hv w hedge => h.1 v hv w (hsub v w hedge), ih h.2⟩

/-- The last groups are in order themselves. -/
theorem ForwardGroups.of_append {pre : List (List V)} (h : ForwardGroups edge (pre ++ groups)) :
    ForwardGroups edge groups := by
  induction pre with
  | nil => exact h
  | cons g pre ih => exact ih h.2

/-- No edge leaves the groups. -/
theorem ForwardGroups.closed (h : ForwardGroups edge groups) {v w : V} (hv : v ∈ groups.flatten)
    (hedge : edge v w) : w ∈ groups.flatten := by
  induction groups with
  | nil => simp at hv
  | cons g groups ih =>
    rw [List.flatten_cons, List.mem_append] at hv ⊢
    exact hv.elim (fun hv => h.1 v hv w hedge) fun hv => Or.inr (ih h.2 hv)

/-- What the groups reach is in the groups. -/
theorem ForwardGroups.reach (h : ForwardGroups edge groups) {v w : V} (hv : v ∈ groups.flatten)
    (hreach : ReflTransGen edge v w) : w ∈ groups.flatten := by
  induction hreach with
  | refl => exact hv
  | tail _ hedge ih => exact h.closed ih hedge

/-- Vertices that reach each other are in one group. -/
theorem ForwardGroups.mem_of_mutual (h : ForwardGroups edge groups) (hnodup : groups.flatten.Nodup)
    {g : List V} (hg : g ∈ groups) {v w : V} (hv : v ∈ g) (hvw : ReflTransGen edge v w)
    (hwv : ReflTransGen edge w v) : w ∈ g := by
  induction groups with
  | nil => simp at hg
  | cons g' groups ih =>
    rw [List.flatten_cons, List.nodup_append] at hnodup
    rcases List.mem_cons.mp hg with rfl | hg
    · have hw : w ∈ (g :: groups).flatten := h.reach (by simp [hv]) hvw
      rw [List.flatten_cons, List.mem_append] at hw
      refine hw.resolve_right fun hw => ?_
      exact hnodup.2.2 v hv v (h.2.reach hw hwv) rfl
    · exact ih h.2 hnodup.2.1 hg

/-- Mutually connected groups in order are the strongly connected components. -/
theorem ForwardGroups.mem_iff_mutual (h : ForwardGroups edge groups)
    (hnodup : groups.flatten.Nodup)
    (hconnected : ∀ g ∈ groups, ∀ v ∈ g, ∀ w ∈ g, ReflTransGen edge v w) {g : List V}
    (hg : g ∈ groups) {v w : V} (hv : v ∈ g) :
    w ∈ g ↔ ReflTransGen edge v w ∧ ReflTransGen edge w v :=
  ⟨fun hw => ⟨hconnected g hg v hv w hw, hconnected g hg w hw v hv⟩,
    fun hmutual => h.mem_of_mutual hnodup hg hv hmutual.1 hmutual.2⟩

end SpiderMonkey
