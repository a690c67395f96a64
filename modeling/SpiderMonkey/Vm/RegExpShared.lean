import Mathlib.Tactic.Common
import Mathlib.Data.List.Range

/-!
# Regular expressions as matchers

A regular expression is what it matches at each position of a text. Executing it from an index on
gives the leftmost match; the matches one after the other are those of a global expression.
-/

namespace SpiderMonkey.Vm

/-- A match: its start and limit, and those of the groups that took part. -/
structure Match where
  start : ℕ
  limit : ℕ
  parens : List (Option (ℕ × ℕ))
deriving DecidableEq, Repr

/-- Whether there is nothing in a match. -/
def Match.isEmpty (m : Match) : Bool := m.limit == m.start

/-- A regular expression. The match at a position lies in the text from there on, as do its groups. -/
structure RegExpShared where
  parenCount : ℕ
  global : Bool
  matchAt : List UInt16 → ℕ → Option Match
  start_eq : ∀ {text i m}, matchAt text i = some m → m.start = i
  le_limit : ∀ {text i m}, matchAt text i = some m → i ≤ m.limit
  limit_le : ∀ {text i m}, matchAt text i = some m → m.limit ≤ text.length
  length_parens : ∀ {text i m}, matchAt text i = some m → m.parens.length = parenCount
  parens_le : ∀ {text i m}, matchAt text i = some m → ∀ {a b}, some (a, b) ∈ m.parens →
    a ≤ b ∧ b ≤ text.length

namespace RegExpShared

variable {re : RegExpShared} {text : List UInt16} {i j : ℕ} {m : Match}

/-- The leftmost match from an index on. -/
def execute (re : RegExpShared) (text : List UInt16) (i : ℕ) : Option Match :=
  (List.range' i (text.length + 1 - i)).findSome? (re.matchAt text)

/-- The matches one after the other, from an index on. An empty match moves the index by one. -/
def matchesFrom (re : RegExpShared) (text : List UInt16) : ℕ → ℕ → List Match
  | 0, _ => []
  | fuel + 1, i =>
    match re.execute text i with
    | none => []
    | some m => m :: matchesFrom re text fuel (if m.isEmpty then m.limit + 1 else m.limit)

/-- The matches that a replacement is about. -/
def matchesOf (re : RegExpShared) (text : List UInt16) : List Match :=
  if re.global then re.matchesFrom text (text.length + 1) 0 else (re.execute text 0).toList

/-- What is left of a range after its first item. -/
theorem range'_of_le (hi : i ≤ text.length) :
    List.range' i (text.length + 1 - i) = i :: List.range' (i + 1) (text.length + 1 - (i + 1)) := by
  rw [show text.length + 1 - i = text.length + 1 - (i + 1) + 1 by omega, List.range'_succ]

/-- There is no match behind the text. -/
theorem execute_of_lt (hi : text.length < i) : re.execute text i = none := by
  rw [execute, show text.length + 1 - i = 0 by omega]
  rfl

/-- An execution takes the match at its index, or goes on behind it. -/
theorem execute_of_le (hi : i ≤ text.length) :
    re.execute text i = (re.matchAt text i).or (re.execute text (i + 1)) := by
  rw [execute, range'_of_le hi, List.findSome?_cons]
  cases re.matchAt text i with
  | some m => rfl
  | none => rfl

/-- What an execution finds is a match at its start, and there is none before. -/
theorem execute_eq_some (h : re.execute text i = some m) :
    i ≤ m.start ∧ re.matchAt text m.start = some m ∧
      ∀ j, i ≤ j → j < m.start → re.matchAt text j = none := by
  induction hn : text.length + 1 - i generalizing i with
  | zero =>
    rw [execute_of_lt (by omega)] at h
    cases h
  | succ n ih =>
    rw [execute_of_le (by omega)] at h
    cases hat : re.matchAt text i with
    | some m' =>
      rw [hat] at h
      obtain rfl : m' = m := Option.some_inj.mp h
      have hstart := re.start_eq hat
      rw [hstart]
      refine ⟨Nat.le_refl i, hat, ?_⟩
      intro j hij hj
      omega
    | none =>
      rw [hat] at h
      obtain ⟨hle, hstart, hbefore⟩ := ih h (by omega)
      refine ⟨Nat.le_of_succ_le hle, hstart, ?_⟩
      intro j hij hj
      rcases Nat.lt_or_eq_of_le hij with hlt | rfl
      · exact hbefore j hlt hj
      · exact hat

/-- Nothing matches where an execution finds nothing. -/
theorem execute_eq_none : re.execute text i = none ↔
    ∀ j, i ≤ j → j ≤ text.length → re.matchAt text j = none := by
  rw [execute, List.findSome?_eq_none_iff]
  apply forall_congr'
  intro j
  rw [List.mem_range'_1]
  apply Iff.intro
  · intro h hij hj
    exact h ⟨hij, by omega⟩
  · intro h hj
    exact h hj.1 (by omega)

/-- Where a match lies. -/
theorem execute_bounds (h : re.execute text i = some m) :
    i ≤ m.start ∧ m.start ≤ m.limit ∧ m.limit ≤ text.length := by
  obtain ⟨hle, hat, _⟩ := execute_eq_some h
  exact ⟨hle, re.le_limit hat, re.limit_le hat⟩

/-- Matches in order: each is in the text, and behind the one before. -/
def Ordered (text : List UInt16) : ℕ → List Match → Prop
  | _, [] => True
  | i, m :: ms => i ≤ m.start ∧ m.start ≤ m.limit ∧ m.limit ≤ text.length ∧ Ordered text m.limit ms

/-- The matches one after the other are in order. -/
theorem ordered_matchesFrom (fuel : ℕ) (hij : j ≤ i) :
    Ordered text j (re.matchesFrom text fuel i) := by
  induction fuel generalizing i j with
  | zero => exact trivial
  | succ fuel ih =>
    rw [matchesFrom]
    cases h : re.execute text i with
    | none => exact trivial
    | some m =>
      obtain ⟨hle, hlimit, htext⟩ := execute_bounds h
      refine ⟨Nat.le_trans hij hle, hlimit, htext, ih ?_⟩
      split_ifs
      · exact Nat.le_succ m.limit
      · exact Nat.le_refl m.limit

/-- The matches that a replacement is about are in order. -/
theorem ordered_matchesOf (re : RegExpShared) (text : List UInt16) :
    Ordered text 0 (re.matchesOf text) := by
  rw [matchesOf]
  split_ifs
  · exact ordered_matchesFrom (text.length + 1) (Nat.le_refl 0)
  · cases h : re.execute text 0 with
    | none => exact trivial
    | some m =>
      obtain ⟨hle, hlimit, htext⟩ := execute_bounds h
      exact ⟨hle, hlimit, htext, trivial⟩

/-- Whether a match is empty. -/
theorem isEmpty_iff : m.isEmpty = true ↔ m.limit = m.start := beq_iff_eq

end RegExpShared

end SpiderMonkey.Vm
