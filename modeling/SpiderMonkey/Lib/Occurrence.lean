import Mathlib.Tactic.Common
import Mathlib.Data.List.Basic

/-!
# Occurrences of a list in another

Where a pattern occurs in a text, and what it means for the result of a search to be the first
occurrence in a range of positions.
-/

namespace SpiderMonkey.Lib

variable {α : Type*} {p t u : List α} {a : α} {k lo mid hi : ℕ}

/-- A pattern occurs at a position. -/
def OccursAt (p t : List α) (k : ℕ) : Prop := p <+: t.drop k

/-- A result is the first occurrence in a range, or there is none. -/
def FirstIn (p t : List α) (lo hi : ℕ) : Option ℕ → Prop
  | some m => lo ≤ m ∧ m < hi ∧ OccursAt p t m ∧ ∀ k, lo ≤ k → k < m → ¬ OccursAt p t k
  | none => ∀ k, lo ≤ k → k < hi → ¬ OccursAt p t k

/-- A result is the first occurrence, or there is none. -/
def IsFirst (p t : List α) : Option ℕ → Prop
  | some m => OccursAt p t m ∧ ∀ k < m, ¬ OccursAt p t k
  | none => ∀ k, ¬ OccursAt p t k

instance [DecidableEq α] : Decidable (OccursAt p t k) :=
  inferInstanceAs (Decidable (_ <+: _))

/-- The empty pattern occurs everywhere. -/
theorem occursAt_nil : OccursAt [] t k := List.nil_prefix

/-- A pattern that is not empty occurs within the text. -/
theorem OccursAt.le_length (h : OccursAt p t k) (hp : p ≠ []) : k + p.length ≤ t.length := by
  have hle := List.IsPrefix.length_le h
  have hpos := List.length_pos_iff.mpr hp
  rw [List.length_drop] at hle
  omega

/-- A pattern occurs where its first item is and the others follow. -/
theorem occursAt_cons : OccursAt (a :: p) t k ↔ t[k]? = some a ∧ p <+: t.drop (k + 1) := by
  rw [OccursAt, List.drop_add_one_eq_tail_drop, ← List.head?_drop]
  cases t.drop k with
  | nil => simp
  | cons b rest => simp [eq_comm]

/-- What occurs is the same items. -/
theorem occursAt_iff : OccursAt p t k ↔ ∀ j < p.length, t[k + j]? = p[j]? := by
  rw [OccursAt, List.prefix_iff_getElem?]
  apply forall_congr'
  intro j
  apply forall_congr'
  intro hj
  rw [List.getElem?_drop, List.getElem?_eq_getElem hj]

/-- A position in the second part of a text. -/
theorem occursAt_append_add : OccursAt p (u ++ t) (u.length + k) ↔ OccursAt p t k := by
  rw [OccursAt, OccursAt, ← List.drop_drop, List.drop_left]

/-- An occurrence within the first part of a text. -/
theorem occursAt_append (hk : k + p.length ≤ t.length) :
    OccursAt p (t ++ u) k ↔ OccursAt p t k := by
  have hsplit : (t ++ u).drop k = t.drop k ++ u := List.drop_append_of_le_length (by omega)
  rw [OccursAt, OccursAt, hsplit]
  apply Iff.intro
  · intro h
    exact List.prefix_of_prefix_length_le h (List.prefix_append _ _) (by rw [List.length_drop]; omega)
  · intro h
    exact h.trans (List.prefix_append _ _)

/-- The first occurrence in an empty range. -/
theorem firstIn_self : FirstIn p t lo lo none := by
  intro k hlo hhi
  omega

/-- A range that starts with an occurrence. -/
theorem firstIn_of_occursAt (h : OccursAt p t lo) (hlt : lo < hi) : FirstIn p t lo hi (some lo) := by
  refine ⟨Nat.le_refl _, hlt, h, ?_⟩
  intro k hlo hk
  omega

/-- The first occurrence in a range, after a part where there is none. -/
theorem FirstIn.append (h : FirstIn p t lo mid none) {r : Option ℕ} (h' : FirstIn p t mid hi r)
    (hle : lo ≤ mid) : FirstIn p t lo hi r := by
  cases r with
  | none =>
    intro k hlo hhi
    rcases Nat.lt_or_ge k mid with hlt | hge
    · exact h k hlo hlt
    · exact h' k hge hhi
  | some m =>
    obtain ⟨hmid, hhi, hoccurs, hbefore⟩ := h'
    refine ⟨Nat.le_trans hle hmid, hhi, hoccurs, ?_⟩
    intro k hlo hk
    rcases Nat.lt_or_ge k mid with hlt | hge
    · exact h k hlo hlt
    · exact hbefore k hge hk

/-- The first occurrence in a part of a range is the first one in the range. -/
theorem FirstIn.of_some {m : ℕ} (h : FirstIn p t lo mid (some m)) (hle : mid ≤ hi) :
    FirstIn p t lo hi (some m) :=
  ⟨h.1, Nat.lt_of_lt_of_le h.2.1 hle, h.2.2⟩

/-- The first occurrence in the range of all positions. -/
theorem FirstIn.isFirst {r : Option ℕ} (h : FirstIn p t 0 hi r)
    (hhi : ∀ k, OccursAt p t k → k < hi) : IsFirst p t r := by
  cases r with
  | none =>
    intro k hk
    exact h k (Nat.zero_le k) (hhi k hk) hk
  | some m => exact ⟨h.2.2.1, fun k hk => h.2.2.2 k (Nat.zero_le k) hk⟩

/-- The first occurrence in the second part of a text, if there is none from the first part on. -/
theorem IsFirst.append {r : Option ℕ} (h : IsFirst p t r)
    (hnone : ∀ k < u.length, ¬ OccursAt p (u ++ t) k) : IsFirst p (u ++ t) (r.map (u.length + ·)) := by
  cases r with
  | none =>
    intro k hk
    rcases Nat.lt_or_ge k u.length with hlt | hge
    · exact hnone k hlt hk
    · rw [← Nat.add_sub_of_le hge, occursAt_append_add] at hk
      exact h _ hk
  | some m =>
    apply And.intro
    · exact occursAt_append_add.mpr h.1
    · intro k hkm hk
      have hkm' : k < u.length + m := hkm
      rcases Nat.lt_or_ge k u.length with hlt | hge
      · exact hnone k hlt hk
      · rw [← Nat.add_sub_of_le hge, occursAt_append_add] at hk
        exact h.2 (k - u.length) (by omega) hk

/-- There is one first occurrence. -/
theorem IsFirst.unique {r r' : Option ℕ} (h : IsFirst p t r) (h' : IsFirst p t r') : r = r' := by
  cases r with
  | none =>
    cases r' with
    | none => rfl
    | some m' => exact absurd h'.1 (h m')
  | some m =>
    cases r' with
    | none => exact absurd h.1 (h' m)
    | some m' =>
      congr 1
      rcases Nat.lt_trichotomy m m' with hlt | heq | hgt
      · exact absurd h.1 (h'.2 m hlt)
      · exact heq
      · exact absurd h'.1 (h.2 m' hgt)

end SpiderMonkey.Lib
