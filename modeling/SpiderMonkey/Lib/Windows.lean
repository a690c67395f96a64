import Mathlib.Algebra.Order.Group.Int
import Mathlib.Order.Interval.Set.Basic
import Mathlib.Tactic.Common

/-!
# Functions that rarely change

A function on the integers that changes its value at most once between two points is constant between
them if it agrees there. If it does not agree there, then it is constant on one side of any point
between, and the value at the point says on which.
-/

namespace SpiderMonkey

variable {α : Type*} {f : ℤ → α} {v : α} {a b c m : ℤ}

/-- The function has one value between two points, both included. -/
def HasValueOn (f : ℤ → α) (v : α) (a b : ℤ) : Prop :=
  ∀ t, a ≤ t → t ≤ b → f t = v

/-- The function changes its value after a point. -/
def ChangesAt (f : ℤ → α) (s : ℤ) : Prop :=
  f s ≠ f (s + 1)

/-- The function changes its value at most once between two points. -/
def ChangesAtMostOnce (f : ℤ → α) (a b : ℤ) : Prop :=
  ∀ s t, a ≤ s → s < b → a ≤ t → t < b → ChangesAt f s → ChangesAt f t → s = t

/-- The function changes its value at most once in each window of a width between two points. -/
def ChangesOncePer (f : ℤ → α) (width lo hi : ℤ) : Prop :=
  ∀ a, lo ≤ a → a + width ≤ hi → ChangesAtMostOnce f a (a + width)

/-- A single point. -/
theorem hasValueOn_self (f : ℤ → α) (a : ℤ) : HasValueOn f (f a) a a := by
  intro t hat hta
  rw [le_antisymm hta hat]

/-- Two stretches that meet. -/
theorem HasValueOn.append (hab : HasValueOn f v a b) (hbc : HasValueOn f v b c) :
    HasValueOn f v a c := by
  intro t hat htc
  cases le_total t b with
  | inl htb => exact hab t hat htb
  | inr hbt => exact hbc t hbt htc

/-- A window within one with at most one change. -/
theorem ChangesAtMostOnce.mono (h : ChangesAtMostOnce f a b) {a' b' : ℤ} (ha : a ≤ a') (hb : b' ≤ b) :
    ChangesAtMostOnce f a' b' :=
  fun s t has hsb hat htb => h s t (ha.trans has) (hsb.trans_le hb) (ha.trans hat) (htb.trans_le hb)

/-- No window is too close to an end, as a window of the full width can be moved inwards. -/
theorem ChangesOncePer.atMostOnce {width lo hi : ℤ} (h : ChangesOncePer f width lo hi)
    (hwide : lo + width ≤ hi) (ha : lo ≤ a) (hb : b ≤ hi) (hab : b ≤ a + width) :
    ChangesAtMostOnce f a b := by
  cases le_total (a + width) hi with
  | inl hin => exact (h a ha hin).mono le_rfl hab
  | inr hout =>
    have hlo : lo ≤ hi - width := by omega
    exact (h (hi - width) hlo (by omega)).mono (by omega) (by omega)

/-- A function that differs at two points changes between them. -/
theorem exists_changesAt (hab : a ≤ b) (hne : f a ≠ f b) : ∃ s, a ≤ s ∧ s < b ∧ ChangesAt f s := by
  induction b, hab using Int.leInduction with
  | base => exact absurd rfl hne
  | succ b hab ih =>
    by_cases hb : f a = f b
    · exact ⟨b, hab, Int.lt_succ b, fun h => hne (hb.trans h)⟩
    · obtain ⟨s, has, hsb, hs⟩ := ih hb
      exact ⟨s, has, hsb.trans (Int.lt_succ b), hs⟩

/-- The function agrees at the ends. -/
theorem ChangesAtMostOnce.hasValueOn (h : ChangesAtMostOnce f a b) (hends : f a = f b) :
    HasValueOn f (f a) a b := by
  intro t hat htb
  by_contra hne
  obtain ⟨s, has, hst, hs⟩ := exists_changesAt hat (Ne.symm hne)
  obtain ⟨u, htu, hub, hu⟩ := exists_changesAt htb fun ht => hne (ht.trans hends.symm)
  have hsu := h s u has (by omega) (by omega) hub hs hu
  omega

/-- The function changes after a point, so not before it. -/
theorem ChangesAtMostOnce.hasValueOn_left (h : ChangesAtMostOnce f a b) (ham : a ≤ m) (hmb : m ≤ b)
    (hne : f m ≠ f b) : HasValueOn f (f a) a m := by
  intro t hat htm
  by_contra hnt
  obtain ⟨s, has, hst, hs⟩ := exists_changesAt hat (Ne.symm hnt)
  obtain ⟨u, hmu, hub, hu⟩ := exists_changesAt hmb hne
  have hsu := h s u has (by omega) (by omega) hub hs hu
  omega

/-- The function changes before a point, so not after it. -/
theorem ChangesAtMostOnce.hasValueOn_right (h : ChangesAtMostOnce f a b) (ham : a ≤ m) (hmb : m ≤ b)
    (hne : f m ≠ f a) : HasValueOn f (f m) m b := by
  intro t hmt htb
  by_contra hnt
  obtain ⟨s, has, hsm, hs⟩ := exists_changesAt ham (Ne.symm hne)
  obtain ⟨u, hmu, hut, hu⟩ := exists_changesAt hmt (Ne.symm hnt)
  have hsu := h s u has (by omega) (by omega) (by omega) hs hu
  omega

end SpiderMonkey
