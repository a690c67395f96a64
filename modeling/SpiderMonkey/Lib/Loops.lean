import Mathlib.Tactic.Common

/-!
# Invariants of loops over indices

A loop that may fail runs to its end if each step, from where the invariant holds, gets to where it
holds for the next index.
-/

namespace SpiderMonkey.Lib

variable {α : Type*} {P : ℕ → α → Prop} {n : ℕ} {a : α}

/-- A loop whose steps may fail. -/
theorem exists_foldlM_range {f : α → ℕ → Option α} (hstart : P 0 a)
    (hstep : ∀ i < n, ∀ b, P i b → ∃ b', f b i = some b' ∧ P (i + 1) b') :
    ∃ b, (List.range n).foldlM f a = some b ∧ P n b := by
  induction n with
  | zero => exact ⟨a, rfl, hstart⟩
  | succ n ih =>
    obtain ⟨b, hb, hP⟩ := ih fun i hi => hstep i (Nat.lt_succ_of_lt hi)
    obtain ⟨b', hb', hP'⟩ := hstep n (Nat.lt_succ_self n) b hP
    refine ⟨b', ?_, hP'⟩
    rw [List.range_succ, List.foldlM_append, hb]
    simp only [Option.bind_eq_bind, Option.bind_some, List.foldlM_cons, hb', List.foldlM_nil]
    rfl

/-- A loop that did not fail. -/
theorem foldlM_range {f : α → ℕ → Option α} {a' : α} (hstart : P 0 a)
    (hstep : ∀ i < n, ∀ b b', P i b → f b i = some b' → P (i + 1) b')
    (h : (List.range n).foldlM f a = some a') : P n a' := by
  induction n generalizing a' with
  | zero =>
    rw [← Option.some_inj.mp h]
    exact hstart
  | succ n ih =>
    rw [List.range_succ, List.foldlM_append] at h
    obtain ⟨b, hb, h⟩ := Option.bind_eq_some_iff.mp h
    obtain ⟨b', hb', h⟩ := Option.bind_eq_some_iff.mp h
    rw [← Option.some_inj.mp h]
    have hP := ih (fun i hi => hstep i (Nat.lt_succ_of_lt hi)) hb
    exact hstep n (Nat.lt_succ_self n) b b' hP hb'

/-- A loop over a list that did not fail, whose invariant is about what was gone through. -/
theorem foldlM_list {β : Type*} {Q : List β → α → Prop} {f : α → β → Option α} {a' : α}
    (bs pre : List β) (hstart : Q pre a)
    (hstep : ∀ pre' b post, pre ++ bs = pre' ++ b :: post →
      ∀ a a', Q pre' a → f a b = some a' → Q (pre' ++ [b]) a')
    (h : bs.foldlM f a = some a') : Q (pre ++ bs) a' := by
  induction bs generalizing pre a with
  | nil =>
    rw [← Option.some_inj.mp h, List.append_nil]
    exact hstart
  | cons b rest ih =>
    rw [List.foldlM_cons] at h
    obtain ⟨a₁, ha₁, h⟩ := Option.bind_eq_some_iff.mp h
    have hQ := hstep pre b rest rfl a a₁ hstart ha₁
    rw [List.append_cons] at hstep ⊢
    exact ih (pre ++ [b]) hQ hstep h

/-- A loop over a list whose steps may fail. -/
theorem exists_foldlM_list {β : Type*} {Q : α → Prop} {f : α → β → Option α} (bs : List β)
    (hstart : Q a) (hstep : ∀ b ∈ bs, ∀ a, Q a → ∃ a', f a b = some a' ∧ Q a') :
    ∃ a', bs.foldlM f a = some a' ∧ Q a' := by
  induction bs generalizing a with
  | nil => exact ⟨a, rfl, hstart⟩
  | cons b rest ih =>
    obtain ⟨a₁, ha₁, hQ⟩ := hstep b List.mem_cons_self a hstart
    obtain ⟨a', ha', hQ'⟩ := ih hQ fun b' hb' => hstep b' (List.mem_cons_of_mem b hb')
    refine ⟨a', ?_, hQ'⟩
    rw [List.foldlM_cons, ha₁]
    exact ha'

/-- A loop whose steps do not fail. -/
theorem foldl_range {f : α → ℕ → α} (hstart : P 0 a) (hstep : ∀ i < n, ∀ b, P i b → P (i + 1) (f b i)) :
    P n ((List.range n).foldl f a) := by
  induction n with
  | zero => exact hstart
  | succ n ih =>
    rw [List.range_succ, List.foldl_append]
    exact hstep n (Nat.lt_succ_self n) _ (ih fun i hi => hstep i (Nat.lt_succ_of_lt hi))

/-- A loop over a list, whose invariant does not depend on how far it is. -/
theorem foldl_invariant {β : Type*} {Q : α → Prop} {f : α → β → α} (bs : List β) (hstart : Q a)
    (hstep : ∀ b ∈ bs, ∀ a, Q a → Q (f a b)) : Q (bs.foldl f a) := by
  induction bs generalizing a with
  | nil => exact hstart
  | cons b rest ih =>
    exact ih (hstep b List.mem_cons_self a hstart) fun b' hb' => hstep b' (List.mem_cons_of_mem b hb')

/-- A loop that makes a list. -/
theorem exists_mapM_range {β : Type*} {f : ℕ → Option β} {Q : ℕ → β → Prop}
    (h : ∀ i < n, ∃ b, f i = some b ∧ Q i b) :
    ∃ bs, (List.range n).mapM f = some bs ∧ bs.length = n ∧ ∀ i b, bs[i]? = some b → Q i b := by
  induction n with
  | zero => exact ⟨[], rfl, rfl, nofun⟩
  | succ n ih =>
    obtain ⟨bs, hbs, hlength, hQ⟩ := ih fun i hi => h i (Nat.lt_succ_of_lt hi)
    obtain ⟨b, hb, hQb⟩ := h n (Nat.lt_succ_self n)
    refine ⟨bs ++ [b], ?_, ?_, fun i b' hi => ?_⟩
    · rw [List.range_succ, List.mapM_append, hbs]
      simp only [Option.bind_eq_bind, Option.bind_some, List.mapM_cons, hb, List.mapM_nil]
      rfl
    · rw [List.length_append, hlength]
      rfl
    · rw [List.getElem?_append] at hi
      split_ifs at hi with hlt
      · exact hQ i b' hi
      · rw [List.getElem?_singleton] at hi
        split_ifs at hi with hzero
        cases hi
        have heq : i = n := by omega
        exact heq ▸ hQb

end SpiderMonkey.Lib
