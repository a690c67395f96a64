import SpiderMonkey.Vm.ArraySortStrings

/-!
# Comparing integers by their digits

The number of digits comes from the logarithm to base two, rounded up, so that one power of ten
decides between two numbers of digits. It is too small for zero alone, which is before every other
number all the same.
-/

namespace SpiderMonkey.Vm.ArraySort

variable {d m n k : ℕ} {a b : Int32}

/-! ## The number of digits -/

/-- A number is at most the power of two of its logarithm, rounded up. -/
theorem le_two_pow_ceilingLog2 (n : ℕ) : n ≤ 2 ^ ceilingLog2 n := by
  rw [ceilingLog2]
  split_ifs with hn
  · exact hn
  · have hlt := Nat.lt_log2_self (n := n - 1)
    omega

/-- A number is more than half of the power of two of its logarithm, rounded up. -/
theorem two_pow_ceilingLog2_lt (hn : 0 < n) : 2 ^ ceilingLog2 n < 2 * n := by
  rw [ceilingLog2]
  split_ifs with hone
  · omega
  · have hle := Nat.log2_self_le (n := n - 1) (by omega)
    rw [Nat.pow_succ]
    omega

/-- The logarithm of a number of 32 bits. -/
theorem ceilingLog2_le (hn : n < 2 ^ 32) : ceilingLog2 n ≤ 32 := by
  by_contra hlog
  have hpos : 0 < n := by
    by_contra hzero
    rw [show n = 0 by omega] at hlog
    exact hlog (by decide)
  have hlt := two_pow_ceilingLog2_lt hpos
  have hle : 2 ^ 33 ≤ 2 ^ ceilingLog2 n := Nat.pow_le_pow_right (by decide) (by omega)
  omega

/-- The power of ten that is looked at has the most digits that a power of two can have, and no number
above half of that power of two has fewer by more than one. -/
theorem powersOf10_log2 (hk : k ≤ 32) :
    (k * 1233) >>> 12 ≤ 9 ∧ powersOf10[(k * 1233) >>> 12]? = some (10 ^ ((k * 1233) >>> 12)) ∧
      2 ^ k < 10 ^ ((k * 1233) >>> 12 + 1) ∧ 10 ^ ((k * 1233) >>> 12) ≤ 5 * 2 ^ k := by
  have hall : ∀ k < 33, (k * 1233) >>> 12 ≤ 9 ∧
      powersOf10[(k * 1233) >>> 12]? = some (10 ^ ((k * 1233) >>> 12)) ∧
      2 ^ k < 10 ^ ((k * 1233) >>> 12 + 1) ∧ 10 ^ ((k * 1233) >>> 12) ≤ 5 * 2 ^ k := by
    decide
  exact hall k (Nat.lt_succ_of_le hk)

/-- The number of digits. -/
theorem numDigitsBase10_eq (hpos : 0 < n) (hn : n < 2 ^ 32) :
    numDigitsBase10 n = some (Nat.log 10 n + 1) := by
  obtain ⟨_, hpower, hlt, hle⟩ := powersOf10_log2 (ceilingLog2_le hn)
  have hupper := le_two_pow_ceilingLog2 n
  have hlower := two_pow_ceilingLog2_lt hpos
  simp only [numDigitsBase10, hpower, Option.bind_eq_bind, Option.bind_some, Option.some_inj]
  generalize (ceilingLog2 n * 1233) >>> 12 = t at hpower hlt hle
  by_cases hfewer : n < 10 ^ t
  · rw [if_pos hfewer]
    cases t with
    | zero => omega
    | succ t =>
      rw [Nat.pow_succ] at hle
      rw [Nat.log_eq_of_pow_le_of_lt_pow (by omega) hfewer]
      rfl
  · rw [if_neg hfewer, Nat.log_eq_of_pow_le_of_lt_pow (by omega) (Nat.lt_of_le_of_lt hupper hlt)]
    rfl

/-- Zero has no digits. -/
theorem numDigitsBase10_zero : numDigitsBase10 0 = some 0 := rfl

/-- A number of 32 bits has at most ten digits. -/
theorem log_le (hn : n < 2 ^ 32) : Nat.log 10 n ≤ 9 :=
  Nat.le_of_lt_succ (Nat.log_lt_of_lt_pow' (by decide) (Nat.lt_of_lt_of_le hn (by decide)))

/-- The power of ten for as many digits as one number has more than another one. -/
theorem powersOf10_eq (hd : d ≤ 9) : powersOf10[d]? = some (10 ^ d) := by
  have hall : ∀ d < 10, powersOf10[d]? = some (10 ^ d) := by decide
  exact hall d (Nat.lt_succ_of_le hd)

/-! ## Integers -/

/-- The digits of a number are those of its decimal representation. -/
theorem backfillDigits_reverse (fuel n : ℕ) (hfuel : Nat.log 10 n < fuel) :
    (backfillDigits fuel n).reverse = decimal n := by
  induction fuel generalizing n with
  | zero => omega
  | succ fuel ih =>
    rw [backfillDigits, List.reverse_cons, decimal, lastDigits]
    split_ifs with hsmall
    · rw [Nat.log_of_lt (by omega), lastDigits]
      rfl
    · have hlog : Nat.log 10 n = Nat.log 10 (n / 10) + 1 := by
        rw [Nat.log_div_base, Nat.sub_add_cancel]
        exact Nat.log_pos (by decide) (by omega)
      rw [ih (n / 10) (by omega), decimal, hlog]

/-- The magnitude of an integer of 32 bits. -/
theorem natAbs_toInt_lt (a : Int32) : a.toInt.natAbs < 2 ^ 32 := by
  have hle := a.le_toInt
  have hlt := a.toInt_lt
  omega

/-- An integer in decimal, behind a sign if it is negative. -/
theorem int32ToString_eq (a : Int32) :
    int32ToString a =
      if a.toInt < 0 then 0x2D :: decimal a.toInt.natAbs else decimal a.toInt.natAbs := by
  rw [int32ToString, backfillDigits_reverse]
  exact Nat.lt_succ_of_le (log_le (natAbs_toInt_lt a))

/-- A sign is before all digits. -/
theorem unitLE_sign (s : List UInt16) (n : ℕ) :
    unitLE (0x2D :: s) (decimal n) = true ∧ unitLE (decimal n) (0x2D :: s) = false := by
  obtain ⟨c, rest, hdigits, hc⟩ := lastDigits_succ (Nat.log 10 n) n
  rw [decimal, hdigits, unitLE, unitLE, if_neg (UInt16.ne_of_lt hc), if_neg (UInt16.ne_of_lt hc).symm,
    decide_eq_true_eq, decide_eq_false_iff_not]
  exact ⟨hc, UInt16.lt_asymm hc⟩

/-- The power of ten for the difference of two numbers of digits, and the product with it. -/
theorem scaled_eq (hm : m < 2 ^ 32) (hn : n < 2 ^ 32) (hlog : Nat.log 10 n < Nat.log 10 m) :
    mul64 n (10 ^ (Nat.log 10 m - Nat.log 10 n)) =
      some (n * 10 ^ (Nat.log 10 m - Nat.log 10 n)) := by
  have hpow : n * 10 ^ (Nat.log 10 m - Nat.log 10 n) < 2 ^ 64 := by
    calc n * 10 ^ (Nat.log 10 m - Nat.log 10 n)
        ≤ n * 10 ^ 9 :=
          Nat.mul_le_mul_left n (Nat.pow_le_pow_right (by decide) (by have := log_le hm; omega))
      _ < 2 ^ 32 * 10 ^ 9 := Nat.mul_lt_mul_of_pos_right hn (by decide)
      _ ≤ 2 ^ 64 := by decide
  rw [mul64, if_pos hpow]

/-- There is a power of ten for any number of digits, and its product with zero fits. -/
theorem scaled_zero (hd : d ≤ 10) : ∃ power, powersOf10[d]? = some power ∧ mul64 0 power = some 0 := by
  have hlength : d < powersOf10.length := Nat.lt_succ_of_le hd
  refine ⟨_, List.getElem?_eq_getElem hlength, ?_⟩
  rw [mul64, Nat.zero_mul, if_pos (by decide)]

/-- Zero is before any other number. -/
theorem unitLE_decimal_zero (hn : 0 < n) :
    unitLE (decimal 0) (decimal n) = true ∧ unitLE (decimal n) (decimal 0) = false := by
  rw [unitLE_decimal, unitLE_decimal, Nat.log_zero_right, if_neg (Nat.not_lt_zero _), Nat.zero_mul,
    decide_eq_true_eq]
  refine ⟨Nat.zero_le n, ?_⟩
  split_ifs
  · exact decide_eq_false (Nat.not_lt_zero n)
  · apply decide_eq_false
    rw [Nat.not_le]
    exact Nat.mul_pos hn (Nat.pow_pos (by decide))

/-- Magnitudes are compared as their decimal representations. -/
theorem digits_decide (hm : m < 2 ^ 32) (hn : n < 2 ^ 32) (hne : m ≠ n) :
    (do
      let digitsa ← numDigitsBase10 m
      let digitsb ← numDigitsBase10 n
      if digitsa = digitsb then some (decide (m ≤ n))
      else if digitsb < digitsa then do
        let power ← powersOf10[digitsa - digitsb]?
        let scaled ← mul64 n power
        some (decide (m < scaled))
      else do
        let power ← powersOf10[digitsb - digitsa]?
        let scaled ← mul64 m power
        some (decide (scaled ≤ n))) = some (unitLE (decimal m) (decimal n)) := by
  rcases Nat.eq_zero_or_pos m with rfl | hmpos
  · have hnpos : 0 < n := by omega
    obtain ⟨power, hpower, hscaled⟩ := scaled_zero (Nat.succ_le_succ (log_le hn))
    simp only [numDigitsBase10_zero, numDigitsBase10_eq hnpos hn, Option.bind_eq_bind,
      Option.bind_some, if_neg (Nat.zero_ne_add_one _), if_neg (Nat.not_lt_zero _), Nat.sub_zero,
      hpower, hscaled, (unitLE_decimal_zero hnpos).1, Nat.zero_le, decide_true]
  rcases Nat.eq_zero_or_pos n with rfl | hnpos
  · obtain ⟨power, hpower, hscaled⟩ := scaled_zero (Nat.succ_le_succ (log_le hm))
    simp only [numDigitsBase10_zero, numDigitsBase10_eq hmpos hm, Option.bind_eq_bind,
      Option.bind_some, if_neg (Nat.add_one_ne_zero _), if_pos (Nat.succ_pos _), Nat.sub_zero,
      hpower, hscaled, (unitLE_decimal_zero hmpos).2, Nat.not_lt_zero, decide_false]
  simp only [numDigitsBase10_eq hmpos hm, numDigitsBase10_eq hnpos hn, Option.bind_eq_bind,
    Option.bind_some, Nat.add_right_cancel_iff, Nat.add_lt_add_iff_right, Nat.add_sub_add_right,
    unitLE_decimal]
  rcases Nat.lt_trichotomy (Nat.log 10 n) (Nat.log 10 m) with hlt | heq | hgt
  · rw [if_neg (Nat.ne_of_gt hlt), if_pos hlt, if_pos hlt,
      powersOf10_eq (by have := log_le hm; omega)]
    simp only [Option.bind_some, scaled_eq hm hn hlt]
  · rw [if_pos heq.symm, if_neg (by omega), heq, Nat.sub_self, Nat.pow_zero, Nat.mul_one]
  · rw [if_neg (Nat.ne_of_lt hgt), if_neg (Nat.not_lt_of_gt hgt), if_neg (Nat.not_lt_of_gt hgt),
      powersOf10_eq (by have := log_le hn; omega)]
    simp only [Option.bind_some, scaled_eq hn hm hgt]

/-- Integers are compared as their strings, with no read out of bounds and no product that does not
fit. -/
theorem compareLexicographicInt32_eq (a b : Int32) :
    compareLexicographicInt32 a b = some (unitLE (int32ToString a) (int32ToString b)) := by
  rw [compareLexicographicInt32, int32ToString_eq, int32ToString_eq]
  by_cases heq : a.toInt = b.toInt
  · rw [if_pos heq, heq, unitLE_refl]
  rw [if_neg heq]
  rcases Int.lt_or_le a.toInt 0 with ha | ha
  · rcases Int.lt_or_le b.toInt 0 with hb | hb
    · rw [if_neg (by omega), if_neg (by omega), if_pos ha, if_pos hb, unitLE, if_pos rfl]
      exact digits_decide (natAbs_toInt_lt a) (natAbs_toInt_lt b) (by omega)
    · rw [if_pos ⟨ha, hb⟩, if_pos ha, if_neg (by omega), (unitLE_sign _ _).1]
  · rcases Int.lt_or_le b.toInt 0 with hb | hb
    · rw [if_neg (by omega), if_pos ⟨ha, hb⟩, if_neg (by omega), if_pos hb, (unitLE_sign _ _).2]
    · rw [if_neg (by omega), if_neg (by omega), if_neg (by omega), if_neg (by omega)]
      exact digits_decide (natAbs_toInt_lt a) (natAbs_toInt_lt b) (by omega)

end SpiderMonkey.Vm.ArraySort
