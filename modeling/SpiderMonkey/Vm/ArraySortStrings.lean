import Mathlib.Data.Nat.Log
import SpiderMonkey.Lib.StableSort
import SpiderMonkey.Vm.ArraySort

/-!
# The order of strings

Strings are in the order of their units, a string before those that it is the start of. Two decimal
representations compare as the numbers do when the shorter one is filled up with zeros, and if nothing
but zeros was missing the shorter one is first.
-/

namespace SpiderMonkey.Vm.ArraySort

open Lib

variable {a b r s t : List UInt16} {k m n : ℕ}

/-! ## Units -/

/-- Strings in the order of their units. -/
def unitLE : List UInt16 → List UInt16 → Bool
  | [], _ => true
  | _ :: _, [] => false
  | a :: s, b :: t => if a = b then unitLE s t else a < b

/-- Comparing strings decides their order. -/
theorem compareChars_le (s t : List UInt16) : decide (compareChars s t ≤ 0) = unitLE s t := by
  induction s generalizing t with
  | nil =>
    simp [compareChars, unitLE]
  | cons a s ih =>
    cases t with
    | nil =>
      rw [compareChars, unitLE, decide_eq_false_iff_not, List.length_cons, List.length_nil]
      · omega
      · simp
    | cons b t =>
      rw [compareChars, unitLE]
      by_cases hab : a = b
      · rw [if_pos hab, hab, if_neg (by simp), ih]
      · have hne : a.toNat ≠ b.toNat := fun h => hab (UInt16.toNat_inj.mp h)
        rw [if_neg hab, if_pos (by omega)]
        rw [decide_eq_decide, UInt16.lt_iff_toNat_lt]
        omega

/-- Any two strings are in order. -/
theorem unitLE_total (s t : List UInt16) : unitLE s t = true ∨ unitLE t s = true := by
  induction s generalizing t with
  | nil => exact Or.inl rfl
  | cons a s ih =>
    cases t with
    | nil => exact Or.inr rfl
    | cons b t =>
      simp only [unitLE]
      by_cases hab : a = b
      · rw [if_pos hab, if_pos hab.symm]
        exact ih t
      · rw [if_neg hab, if_neg (Ne.symm hab), decide_eq_true_eq, decide_eq_true_eq]
        exact UInt16.lt_or_lt_of_ne hab

/-- The order of strings is transitive. -/
theorem unitLE_trans (r s t : List UInt16) (hrs : unitLE r s = true) (hst : unitLE s t = true) :
    unitLE r t = true := by
  induction r generalizing s t with
  | nil => rfl
  | cons a r ih =>
    cases s with
    | nil => cases hrs
    | cons b s =>
      cases t with
      | nil => cases hst
      | cons c t =>
        simp only [unitLE] at hrs hst ⊢
        by_cases hab : a = b
        · rw [if_pos hab] at hrs
          subst hab
          by_cases hac : a = c
          · rw [if_pos hac] at hst ⊢
            exact ih s t hrs hst
          · rw [if_neg hac] at hst ⊢
            exact hst
        · rw [if_neg hab, decide_eq_true_eq] at hrs
          by_cases hbc : b = c
          · rw [← hbc, if_neg hab, decide_eq_true_eq]
            exact hrs
          · rw [if_neg hbc, decide_eq_true_eq] at hst
            have hac := UInt16.lt_trans hrs hst
            rw [if_neg (UInt16.ne_of_lt hac), decide_eq_true_eq]
            exact hac

/-- Each string is in order with itself. -/
theorem unitLE_refl (s : List UInt16) : unitLE s s = true := or_self_iff.mp (unitLE_total s s)

/-- The order of values by their strings. -/
theorem unitLE_isTotalPreorder {α : Type} (str : α → List UInt16) :
    IsTotalPreorder fun a b => unitLE (str a) (str b) :=
  ⟨fun _ _ => unitLE_total _ _, fun _ _ _ => unitLE_trans _ _ _⟩

/-! ## Decimal representations -/

/-- The last digits of a number, filled up with zeros. -/
def lastDigits : ℕ → ℕ → List UInt16
  | 0, _ => []
  | k + 1, n => lastDigits k (n / 10) ++ [UInt16.ofNat (0x30 + n % 10)]

/-- A number in decimal. -/
def decimal (n : ℕ) : List UInt16 := lastDigits (Nat.log 10 n + 1) n

/-- The unit of a digit. -/
theorem toNat_digit (hn : n < 10) : (UInt16.ofNat (0x30 + n)).toNat = 0x30 + n := by
  rw [UInt16.toNat_ofNat', Nat.mod_eq_of_lt]
  omega

/-- Digits in front of the last ones. -/
theorem lastDigits_add (k m n : ℕ) :
    lastDigits (k + m) n = lastDigits k (n / 10 ^ m) ++ lastDigits m n := by
  induction m generalizing n with
  | zero => rw [Nat.pow_zero, Nat.div_one, lastDigits, List.append_nil, Nat.add_zero]
  | succ m ih =>
    rw [← Nat.add_assoc, lastDigits, lastDigits, ih, Nat.div_div_eq_div_mul, Nat.pow_succ',
      List.append_assoc]

/-- The digits are not empty, and come behind a sign. -/
theorem lastDigits_succ (k n : ℕ) :
    ∃ c rest, lastDigits (k + 1) n = c :: rest ∧ 0x2D < c := by
  induction k generalizing n with
  | zero =>
    refine ⟨_, [], rfl, ?_⟩
    rw [UInt16.lt_iff_toNat_lt, toNat_digit (Nat.mod_lt n (by decide))]
    change 0x2D < 0x30 + n % 10
    omega
  | succ k ih =>
    obtain ⟨c, rest, hdigits, hc⟩ := ih (n / 10)
    rw [lastDigits, hdigits]
    exact ⟨c, _, rfl, hc⟩

/-- As many digits of two numbers compare as the numbers, and what is behind them if they are the
same. -/
theorem unitLE_lastDigits (hm : m < 10 ^ k) (hn : n < 10 ^ k) :
    unitLE (lastDigits k m ++ s) (lastDigits k n ++ t) =
      if m = n then unitLE s t else decide (m < n) := by
  induction k generalizing m n s t with
  | zero =>
    rw [Nat.pow_zero, Nat.lt_one_iff] at hm hn
    rw [hm, hn, if_pos rfl]
    rfl
  | succ k ih =>
    rw [Nat.pow_succ] at hm hn
    have hdigit := toNat_digit (Nat.mod_lt m (by decide : 10 > 0))
    have hdigit' := toNat_digit (Nat.mod_lt n (by decide : 10 > 0))
    rw [lastDigits, lastDigits, List.append_assoc, List.append_assoc,
      ih (Nat.div_lt_of_lt_mul (by omega)) (Nat.div_lt_of_lt_mul (by omega))]
    simp only [List.singleton_append, unitLE]
    by_cases hmn : m = n
    · rw [hmn, if_pos rfl, if_pos rfl, if_pos rfl]
    · rw [if_neg hmn]
      by_cases hdiv : m / 10 = n / 10
      · -- the numbers differ in the last digit only
        have hne : UInt16.ofNat (0x30 + m % 10) ≠ UInt16.ofNat (0x30 + n % 10) := by
          intro heq
          rw [heq] at hdigit
          omega
        rw [if_pos hdiv, if_neg hne, decide_eq_decide, UInt16.lt_iff_toNat_lt, hdigit, hdigit']
        omega
      · rw [if_neg hdiv, decide_eq_decide]
        omega

/-- Decimal representations compare as the numbers when the shorter one is filled up with zeros. -/
theorem unitLE_decimal (m n : ℕ) :
    unitLE (decimal m) (decimal n) =
      if Nat.log 10 n < Nat.log 10 m then decide (m < n * 10 ^ (Nat.log 10 m - Nat.log 10 n))
      else decide (m * 10 ^ (Nat.log 10 n - Nat.log 10 m) ≤ n) := by
  have hm : m < 10 ^ (Nat.log 10 m + 1) := Nat.lt_pow_succ_log_self (by decide) m
  have hn : n < 10 ^ (Nat.log 10 n + 1) := Nat.lt_pow_succ_log_self (by decide) n
  rw [decimal, decimal]
  split_ifs with hlog
  · obtain ⟨d, hd⟩ := Nat.exists_eq_add_of_lt hlog
    have hpow : 0 < 10 ^ (d + 1) := Nat.pow_pos (by decide)
    have hdiv : m / 10 ^ (d + 1) < 10 ^ (Nat.log 10 n + 1) := by
      rw [Nat.div_lt_iff_lt_mul hpow, ← Nat.pow_add]
      rw [show Nat.log 10 n + 1 + (d + 1) = Nat.log 10 m + 1 by omega]
      exact hm
    obtain ⟨c, rest, hdigits, _⟩ := lastDigits_succ d m
    rw [show Nat.log 10 m + 1 = Nat.log 10 n + 1 + (d + 1) by omega, lastDigits_add,
      ← List.append_nil (lastDigits _ n), unitLE_lastDigits hdiv hn, hdigits, unitLE,
      show Nat.log 10 m - Nat.log 10 n = d + 1 by omega]
    have hlt := Nat.div_lt_iff_lt_mul (x := m) (y := n) hpow
    split_ifs with heq
    · rw [eq_comm, decide_eq_false_iff_not, ← hlt, heq]
      exact Nat.lt_irrefl n
    · exact decide_eq_decide.mpr hlt
  · obtain ⟨d, hd⟩ := Nat.exists_eq_add_of_le (Nat.le_of_not_lt hlog)
    have hpow : 0 < 10 ^ d := Nat.pow_pos (by decide)
    have hdiv : n / 10 ^ d < 10 ^ (Nat.log 10 m + 1) := by
      rw [Nat.div_lt_iff_lt_mul hpow, ← Nat.pow_add]
      rw [show Nat.log 10 m + 1 + d = Nat.log 10 n + 1 by omega]
      exact hn
    rw [show Nat.log 10 n + 1 = Nat.log 10 m + 1 + d by omega,
      lastDigits_add (Nat.log 10 m + 1) d n, ← List.append_nil (lastDigits _ m), unitLE_lastDigits hm hdiv, unitLE,
      show Nat.log 10 n - Nat.log 10 m = d by omega]
    have hle := Nat.le_div_iff_mul_le (x := m) (y := n) hpow
    split_ifs with heq
    · rw [eq_comm, decide_eq_true_eq, ← hle, heq]
    · rw [decide_eq_decide, ← hle]
      omega

end SpiderMonkey.Vm.ArraySort
