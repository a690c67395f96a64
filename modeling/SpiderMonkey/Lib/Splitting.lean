import Mathlib.Tactic.Common

/-!
# Splitting a list at separators

What a separator matches at each position of a list is given, with the end of the match and some
values that come with it. The list is split from left to right: a match ends a piece unless it ends
where the last one did. There is one result, and what is matched puts the pieces together again.
-/

namespace SpiderMonkey.Lib

variable {α : Type*}

/-- The pieces of a list from a position on where the last match ended, tried from another position
on. A match gives the piece before it, and what comes with the match. -/
inductive Pieces (f : ℕ → Option (ℕ × List (Option (List α)))) (t : List α) :
    ℕ → ℕ → List (Option (List α)) → Prop
  | stop {p : ℕ} : Pieces f t p t.length [some (t.drop p)]
  | noMatch {p q : ℕ} {ps : List (Option (List α))} (hq : q < t.length) (hf : f q = none)
    (h : Pieces f t p (q + 1) ps) : Pieces f t p q ps
  | sameEnd {p q : ℕ} {caps ps : List (Option (List α))} (hq : q < t.length) (hf : f q = some (p, caps))
    (h : Pieces f t p (q + 1) ps) : Pieces f t p q ps
  | found {p q e : ℕ} {caps ps : List (Option (List α))} (hq : q < t.length) (hf : f q = some (e, caps))
    (he : e ≠ p) (h : Pieces f t e e ps) :
    Pieces f t p q (some ((t.drop p).take (q - p)) :: (caps ++ ps))

/-- The result of splitting a list. The empty list has one piece, or none if it is matched itself. -/
def IsSplit (f : ℕ → Option (ℕ × List (Option (List α)))) (t : List α)
    (ps : List (Option (List α))) : Prop :=
  if t = [] then ps = if (f 0).isSome then [] else [some []] else Pieces f t 0 0 ps

/-- Matches are where they are tried, or go on from there within a length. -/
def MatchesWithin (f : ℕ → Option (ℕ × List (Option (List α)))) (n : ℕ) : Prop :=
  ∀ {q e caps}, f q = some (e, caps) → q ≤ e ∧ e ≤ n

variable {t : List α} {f : ℕ → Option (ℕ × List (Option (List α)))} {p q k e : ℕ}
  {caps ps ps' : List (Option (List α))}

/-- There is one list of pieces. -/
theorem Pieces.unique (h : Pieces f t p q ps) (h' : Pieces f t p q ps') : ps = ps' := by
  induction h generalizing ps' with
  | stop =>
    cases h' with
    | stop => rfl
    | noMatch hq => exact absurd hq (Nat.lt_irrefl _)
    | sameEnd hq => exact absurd hq (Nat.lt_irrefl _)
    | found hq => exact absurd hq (Nat.lt_irrefl _)
  | noMatch hq hf _ ih =>
    cases h' with
    | stop => exact absurd hq (Nat.lt_irrefl _)
    | noMatch _ _ h' => exact ih h'
    | sameEnd _ hf' => cases hf.symm.trans hf'
    | found _ hf' => cases hf.symm.trans hf'
  | sameEnd hq hf _ ih =>
    cases h' with
    | stop => exact absurd hq (Nat.lt_irrefl _)
    | noMatch _ hf' => cases hf.symm.trans hf'
    | sameEnd _ _ h' => exact ih h'
    | found _ hf' he =>
      cases hf.symm.trans hf'
      exact absurd rfl he
  | found hq hf he _ ih =>
    cases h' with
    | stop => exact absurd hq (Nat.lt_irrefl _)
    | noMatch _ hf' => cases hf.symm.trans hf'
    | sameEnd _ hf' =>
      cases hf.symm.trans hf'
      exact absurd rfl he
    | found _ hf' _ h' =>
      cases hf.symm.trans hf'
      rw [ih h']

/-- There is a list of pieces. -/
theorem exists_pieces (hf : MatchesWithin f t.length) (hpq : p ≤ q) (hq : q ≤ t.length) :
    ∃ ps, Pieces f t p q ps := by
  induction hn : (t.length - p) + (t.length - q) using Nat.strongRecOn generalizing p q with
  | ind n ih =>
    rcases Nat.lt_or_eq_of_le hq with hlt | rfl
    · cases hm : f q with
      | none =>
        obtain ⟨ps, hps⟩ := ih _ (by omega) (Nat.le_succ_of_le hpq) hlt rfl
        exact ⟨ps, .noMatch hlt hm hps⟩
      | some m =>
        obtain ⟨e, caps⟩ := m
        obtain ⟨hle, hend⟩ := hf hm
        by_cases he : e = p
        · obtain ⟨ps, hps⟩ := ih _ (by omega) (Nat.le_succ_of_le hpq) hlt rfl
          exact ⟨ps, .sameEnd hlt (he ▸ hm) hps⟩
        · obtain ⟨ps, hps⟩ := ih _ (by omega) (Nat.le_refl e) hend rfl
          exact ⟨_, .found hlt hm he hps⟩
    · exact ⟨_, .stop⟩

/-- There is one result of splitting a list. -/
theorem exists_unique_isSplit (hf : MatchesWithin f t.length) :
    ∃ ps, IsSplit f t ps ∧ ∀ ps', IsSplit f t ps' → ps' = ps := by
  by_cases ht : t = []
  · simp only [IsSplit, if_pos ht]
    exact ⟨_, rfl, fun ps' h => h⟩
  · simp only [IsSplit, if_neg ht]
    obtain ⟨ps, hps⟩ := exists_pieces hf (Nat.le_refl 0) (Nat.zero_le t.length)
    exact ⟨ps, hps, fun ps' hps' => hps'.unique hps⟩

/-- Positions where nothing matches are passed over. -/
theorem Pieces.skip (hpos : q ≤ k) (hk : k ≤ t.length) (hnone : ∀ j, q ≤ j → j < k → f j = none)
    (h : Pieces f t p k ps) : Pieces f t p q ps := by
  induction hn : k - q generalizing q with
  | zero =>
    rw [show q = k by omega]
    exact h
  | succ n ih =>
    apply Pieces.noMatch (by omega) (hnone q (Nat.le_refl q) (by omega))
    exact ih (by omega) (fun j hj hlt => hnone j (Nat.le_of_succ_le hj) hlt) (by omega)

/-- The pieces between separators of which nothing else comes are put together again by what the
separator matches. -/
theorem Pieces.intercalate {sep : List α} (hpq : p ≤ q)
    (hf : ∀ {q e caps}, f q = some (e, caps) → caps = [] ∧ t.drop q = sep ++ t.drop e)
    (h : Pieces f t p q ps) :
    ∃ parts, ps = List.map some parts ∧ parts ≠ [] ∧ sep.intercalate parts = t.drop p := by
  induction h with
  | @stop p =>
    refine ⟨[t.drop p], rfl, List.cons_ne_nil _ _, ?_⟩
    exact List.intercalate_singleton
  | noMatch _ _ _ ih => exact ih (Nat.le_succ_of_le hpq)
  | sameEnd _ _ _ ih => exact ih (Nat.le_succ_of_le hpq)
  | @found p q e caps ps _ hm _ _ ih =>
    obtain ⟨rfl, hsep⟩ := hf hm
    obtain ⟨parts, rfl, hne, hparts⟩ := ih (Nat.le_refl e)
    obtain ⟨part, parts, rfl⟩ := List.exists_cons_of_ne_nil hne
    refine ⟨(t.drop p).take (q - p) :: part :: parts, rfl, List.cons_ne_nil _ _, ?_⟩
    rw [List.intercalate_cons_cons, hparts, List.append_assoc, ← hsep]
    conv_rhs => rw [← List.take_append_drop (q - p) (t.drop p)]
    rw [List.drop_drop, Nat.add_sub_cancel' hpq]

/-- There are not more pieces than items from the last match on, and one, when nothing else comes of
a match. -/
theorem Pieces.length_le (hpq : p ≤ q) (hf : ∀ {q e caps}, f q = some (e, caps) → caps = [])
    (hwithin : MatchesWithin f t.length) (h : Pieces f t p q ps) :
    ps.length ≤ t.length - p + 1 := by
  induction h with
  | stop => exact Nat.le_add_left 1 _
  | noMatch _ _ _ ih => exact ih (Nat.le_succ_of_le hpq)
  | sameEnd _ _ _ ih => exact ih (Nat.le_succ_of_le hpq)
  | found _ hm he _ ih =>
    obtain rfl := hf hm
    obtain ⟨hle, hend⟩ := hwithin hm
    have hrest := ih (Nat.le_refl _)
    rw [List.nil_append, List.length_cons]
    omega

end SpiderMonkey.Lib
