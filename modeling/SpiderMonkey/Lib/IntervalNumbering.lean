import Mathlib.Logic.Relation
import Mathlib.Data.List.Basic

/-!
# Interval numbering of a forest

A preorder numbering gives each tree of a forest a contiguous range of numbers, starting at its
root. With the number of vertices below each vertex at hand, membership in a tree is a comparison
of numbers.
-/

namespace SpiderMonkey

open Relation

variable {V : Type*}

/-- One vertex is another or lies below it. -/
def Below (children : V → List V) : V → V → Prop := ReflTransGen fun p c => c ∈ children p

/-- A vertex lies in one of the trees with the given roots. -/
def InForest (children : V → List V) (roots : List V) (a : V) : Prop :=
  ∃ r ∈ roots, Below children r a

/-- Two trees share no vertex. -/
def Apart (children : V → List V) (v w : V) : Prop :=
  ∀ a, Below children v a → ¬ Below children w a

/-- The numbers of a forest fill the range from `first` to before `last`, and those of each tree
fill a range that starts at its root. -/
structure IntervalNumbering (children : V → List V) (count : V → ℕ) (roots : List V)
    (first last : ℕ) (index : V → ℕ) : Prop where
  bounds : ∀ a, InForest children roots a → first ≤ index a ∧ index a + count a < last
  interval : ∀ a b, InForest children roots a → InForest children roots b →
    (Below children a b ↔ index a ≤ index b ∧ index b ≤ index a + count a)

variable {children : V → List V} {count : V → ℕ} {roots : List V} {first mid last : ℕ}
  {index : V → ℕ} {v : V}

/-- Being apart is symmetric. -/
theorem Apart.symm {v w : V} (h : Apart children v w) : Apart children w v :=
  fun a hw hv => h a hv hw

/-- A forest is its first tree and the rest. -/
theorem inForest_cons {a : V} :
    InForest children (v :: roots) a ↔ Below children v a ∨ InForest children roots a := by
  simp [InForest]

/-- A tree is its root and the forest of its children. -/
theorem below_iff {a : V} : Below children v a ↔ a = v ∨ InForest children (children v) a := by
  constructor
  · intro h
    rcases ReflTransGen.cases_head h with rfl | ⟨c, hc, hrest⟩
    · exact Or.inl rfl
    · exact Or.inr ⟨c, hc, hrest⟩
  · rintro (rfl | ⟨c, hc, hrest⟩)
    · exact .refl
    · exact .head hc hrest

/-- The order of the roots is irrelevant. -/
theorem inForest_reverse {a : V} :
    InForest children roots.reverse a ↔ InForest children roots a := by
  simp [InForest]

namespace IntervalNumbering

/-- An empty forest is numbered. -/
theorem nil : IntervalNumbering children count [] first last index :=
  ⟨by simp [InForest], by simp [InForest]⟩

/-- Only the numbers of the forest matter. -/
theorem congr (h : IntervalNumbering children count roots first last index) {index' : V → ℕ}
    (heq : ∀ a, InForest children roots a → index' a = index a) :
    IntervalNumbering children count roots first last index' := by
  refine ⟨fun a ha => ?_, fun a b ha hb => ?_⟩
  · rw [heq a ha]
    exact h.bounds a ha
  · rw [heq a ha, heq b hb]
    exact h.interval a b ha hb

/-- A root in front of the forest of its children. -/
theorem node (h : IntervalNumbering children count (children v).reverse (first + 1) last index)
    (hroot : index v = first) (hcount : first + 1 + count v = last)
    (hacyclic : ¬ InForest children (children v) v) :
    IntervalNumbering children count [v] first last index := by
  have hcases (a : V) (ha : InForest children [v] a) :
      a = v ∨ InForest children (children v).reverse a := by
    rw [inForest_reverse, ← below_iff]
    simpa [InForest] using ha
  refine ⟨fun a ha => ?_, fun a b ha hb => ?_⟩
  · rcases hcases a ha with rfl | ha
    · omega
    · have hbounds := h.bounds a ha
      omega
  · rcases hcases a ha with rfl | ha
    · have hbelow : Below children a b := by simpa [InForest] using hb
      refine iff_of_true hbelow ?_
      rcases hcases b hb with rfl | hb
      · omega
      · have hbounds := h.bounds b hb
        omega
    · rcases hcases b hb with rfl | hb
      · refine iff_of_false (fun hbelow => hacyclic ?_) ?_
        · obtain ⟨c, hc, hca⟩ := inForest_reverse.mp ha
          exact ⟨c, hc, hca.trans hbelow⟩
        · have hbounds := h.bounds a ha
          omega
      · exact h.interval a b ha hb

/-- A tree in front of a forest it is apart from. -/
theorem cons (hv : IntervalNumbering children count [v] first mid index)
    (hroots : IntervalNumbering children count roots mid last index)
    (hle : first ≤ mid ∧ mid ≤ last) (hapart : ∀ r ∈ roots, Apart children v r) :
    IntervalNumbering children count (v :: roots) first last index := by
  have hsingle (a : V) (ha : Below children v a) : InForest children [v] a := ⟨v, by simp, ha⟩
  have hdisjoint (a : V) (ha : Below children v a) : ¬ InForest children roots a :=
    fun ⟨r, hr, hra⟩ => hapart r hr a ha hra
  refine ⟨fun a ha => ?_, fun a b ha hb => ?_⟩
  · rcases inForest_cons.mp ha with ha | ha
    · have hbounds := hv.bounds a (hsingle a ha)
      omega
    · have hbounds := hroots.bounds a ha
      omega
  · rcases inForest_cons.mp ha with ha | ha <;> rcases inForest_cons.mp hb with hb | hb
    · exact hv.interval a b (hsingle a ha) (hsingle b hb)
    · refine iff_of_false (fun hab => hdisjoint b (ha.trans hab) hb) ?_
      have hbounds := hv.bounds a (hsingle a ha)
      have hbounds' := hroots.bounds b hb
      omega
    · refine iff_of_false (fun hab => hdisjoint b hb ?_) ?_
      · obtain ⟨r, hr, hra⟩ := ha
        exact ⟨r, hr, hra.trans hab⟩
      · have hbounds := hv.bounds b (hsingle b hb)
        have hbounds' := hroots.bounds a ha
        omega
    · exact hroots.interval a b ha hb

end IntervalNumbering

end SpiderMonkey
