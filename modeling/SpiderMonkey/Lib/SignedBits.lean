import Mathlib

/-!
# Bounds of bitwise operators in two's complement

The operators on bit vectors and the numbers the vectors stand for, signed and unsigned.
-/

namespace SpiderMonkey.SignedBits

variable {w k : ℕ} {x y b mask : BitVec w}

/-- The signed number of a vector is the unsigned one, or that number less the modulus. -/
theorem toInt_cases (x : BitVec w) : 2 * x.toNat < 2 ^ w ∧ x.toInt = x.toNat ∨
    2 ^ w ≤ 2 * x.toNat ∧ x.toInt = (x.toNat : ℤ) - (2 ^ w : ℕ) := by
  rw [BitVec.toInt_eq_toNat_cond]
  split_ifs with h
  · exact Or.inl ⟨h, rfl⟩
  · exact Or.inr ⟨by omega, rfl⟩

/-- The unsigned number of a vector that is not negative. -/
theorem toNat_of_nonneg (h : 0 ≤ x.toInt) : 2 * x.toNat < 2 ^ w ∧ x.toInt = x.toNat := by
  have hlt := x.isLt
  rcases toInt_cases x with hx | ⟨hle, hx⟩
  · exact hx
  · omega

/-- The unsigned number of a vector that is negative. -/
theorem toNat_of_neg (h : x.toInt < 0) : 2 ^ w ≤ 2 * x.toNat ∧ x.toInt = (x.toNat : ℤ) - (2 ^ w : ℕ) := by
  rcases toInt_cases x with ⟨-, hx⟩ | hx
  · omega
  · exact hx

/-- The signed order of two vectors of one sign is the unsigned one. -/
theorem toInt_le_iff (h : 0 ≤ x.toInt ∧ 0 ≤ y.toInt ∨ x.toInt < 0 ∧ y.toInt < 0) :
    x.toInt ≤ y.toInt ↔ x.toNat ≤ y.toNat := by
  rcases h with ⟨hx, hy⟩ | ⟨hx, hy⟩
  · rw [(toNat_of_nonneg hx).2, (toNat_of_nonneg hy).2, Int.ofNat_le]
  · rw [(toNat_of_neg hx).2, (toNat_of_neg hy).2]
    omega

/-- The complement of a vector. -/
theorem toInt_complement (x : BitVec (w + 1)) : (~~~x).toInt = -x.toInt - 1 := by
  have hlt := x.isLt
  have htwo : 2 ^ (w + 1) = 2 * 2 ^ w := Nat.pow_succ'
  have hnot : (~~~x).toNat = 2 ^ (w + 1) - 1 - x.toNat := BitVec.toNat_not
  rcases toInt_cases x with ⟨hx, hxi⟩ | ⟨hx, hxi⟩ <;>
    rcases toInt_cases (~~~x) with ⟨hn, hni⟩ | ⟨hn, hni⟩ <;>
    omega

/-- The bits two vectors share are no more than a vector that is not negative. -/
theorem and_of_nonneg (y : BitVec w) (hx : 0 ≤ x.toInt) :
    0 ≤ (x &&& y).toInt ∧ (x &&& y).toInt ≤ x.toInt := by
  obtain ⟨hlt, hxi⟩ := toNat_of_nonneg hx
  have hle : (x &&& y).toNat ≤ x.toNat := by
    rw [BitVec.toNat_and]
    exact Nat.and_le_left
  rcases toInt_cases (x &&& y) with ⟨-, h⟩ | ⟨h, -⟩
  · rw [h, hxi]
    omega
  · omega

/-- The bits two negative vectors share are no more than each of them. -/
theorem and_of_neg (hx : x.toInt < 0) (hy : y.toInt < 0) : (x &&& y).toInt ≤ x.toInt := by
  have hneg : (x &&& y).toInt < 0 := by
    have hmsb : (x &&& y).msb = true := by
      rw [BitVec.msb_and, BitVec.msb_eq_toInt, BitVec.msb_eq_toInt, decide_eq_true hx, decide_eq_true hy]
      rfl
    rwa [BitVec.msb_eq_toInt, decide_eq_true_eq] at hmsb
  rw [toInt_le_iff (Or.inr ⟨hneg, hx⟩), BitVec.toNat_and]
  exact Nat.and_le_left

/-- More bits make a negative vector larger, and it stays negative. -/
theorem or_of_neg (y : BitVec w) (hx : x.toInt < 0) :
    x.toInt ≤ (x ||| y).toInt ∧ (x ||| y).toInt < 0 := by
  have hneg : (x ||| y).toInt < 0 := by
    have hmsb : (x ||| y).msb = true := by
      rw [BitVec.msb_or, BitVec.msb_eq_toInt, decide_eq_true hx, Bool.true_or]
    rwa [BitVec.msb_eq_toInt, decide_eq_true_eq] at hmsb
  refine ⟨?_, hneg⟩
  rw [toInt_le_iff (Or.inr ⟨hx, hneg⟩), BitVec.toNat_or]
  exact Nat.left_le_or

/-- More bits make a vector that is not negative larger. -/
theorem or_of_nonneg (hx : 0 ≤ x.toInt) (hy : 0 ≤ y.toInt) :
    x.toInt ≤ (x ||| y).toInt ∧ y.toInt ≤ (x ||| y).toInt := by
  have hor : 0 ≤ (x ||| y).toInt := by
    have hmsb : (x ||| y).msb = false := by
      rw [BitVec.msb_or, BitVec.msb_eq_toInt, BitVec.msb_eq_toInt, decide_eq_false (by omega),
        decide_eq_false (by omega)]
      rfl
    rw [BitVec.msb_eq_toInt, decide_eq_false_iff_not] at hmsb
    omega
  rw [toInt_le_iff (Or.inl ⟨hx, hor⟩), toInt_le_iff (Or.inl ⟨hy, hor⟩), BitVec.toNat_or]
  exact ⟨Nat.left_le_or, Nat.right_le_or⟩

/-- The bits of two vectors lie below a power of two that is above both. -/
theorem or_lt_two_pow (hx : 0 ≤ x.toInt) (hy : 0 ≤ y.toInt) (hxk : x.toInt < (2 ^ k : ℕ))
    (hyk : y.toInt < (2 ^ k : ℕ)) : (x ||| y).toInt < (2 ^ k : ℕ) := by
  have hor := (or_of_nonneg hx hy).1
  rw [(toNat_of_nonneg (Int.le_trans hx hor)).2, BitVec.toNat_or, Int.ofNat_lt]
  rw [(toNat_of_nonneg hx).2, Int.ofNat_lt] at hxk
  rw [(toNat_of_nonneg hy).2, Int.ofNat_lt] at hyk
  exact Nat.or_lt_two_pow hxk hyk

/-- The bits in which numbers differ, above those of a power of two that is above one of them. -/
theorem xor_le_or_mask {m n c : ℕ} (hm : m < 2 ^ k) (hn : n ≤ c) : m ^^^ n ≤ c ||| (2 ^ k - 1) := by
  have hmask : 2 ^ k - 1 < 2 ^ k := Nat.sub_one_lt (Nat.ne_of_gt (Nat.two_pow_pos k))
  have hxor : (m ^^^ n) / 2 ^ k = n / 2 ^ k := by
    rw [← Nat.shiftRight_eq_div_pow, ← Nat.shiftRight_eq_div_pow, Nat.shiftRight_xor_distrib,
      Nat.shiftRight_eq_div_pow m, Nat.div_eq_of_lt hm, Nat.zero_xor]
  have hor : (c ||| (2 ^ k - 1)) / 2 ^ k = c / 2 ^ k := by
    rw [← Nat.shiftRight_eq_div_pow, ← Nat.shiftRight_eq_div_pow, Nat.shiftRight_or_distrib,
      Nat.shiftRight_eq_div_pow (2 ^ k - 1), Nat.div_eq_of_lt hmask, Nat.or_zero]
  have hlow : 2 ^ k - 1 ≤ (c ||| (2 ^ k - 1)) % 2 ^ k := by
    rw [Nat.or_mod_two_pow, Nat.mod_eq_of_lt (a := 2 ^ k - 1) hmask]
    exact Nat.right_le_or
  have hdiv := Nat.div_le_div_right (c := 2 ^ k) hn
  calc m ^^^ n = 2 ^ k * ((m ^^^ n) / 2 ^ k) + (m ^^^ n) % 2 ^ k := (Nat.div_add_mod _ _).symm
    _ ≤ 2 ^ k * (c / 2 ^ k) + (2 ^ k - 1) := by
      rw [hxor]
      apply Nat.add_le_add (Nat.mul_le_mul_left _ hdiv)
      exact Nat.le_sub_one_of_lt (Nat.mod_lt _ (Nat.two_pow_pos k))
    _ ≤ 2 ^ k * ((c ||| (2 ^ k - 1)) / 2 ^ k) + (c ||| (2 ^ k - 1)) % 2 ^ k := by
      rw [hor]
      exact Nat.add_le_add_left hlow _
    _ = c ||| (2 ^ k - 1) := Nat.div_add_mod _ _

/-- The bits in which vectors that are not negative differ. -/
theorem xor_of_nonneg (hx : 0 ≤ x.toInt) (hy : 0 ≤ y.toInt) : 0 ≤ (x ^^^ y).toInt := by
  have hmsb : (x ^^^ y).msb = false := by
    rw [BitVec.msb_xor, BitVec.msb_eq_toInt, BitVec.msb_eq_toInt, decide_eq_false (by omega),
      decide_eq_false (by omega)]
    rfl
  rw [BitVec.msb_eq_toInt, decide_eq_false_iff_not] at hmsb
  omega

/-- They are at most those of a bound of one of them and all below a power of two above the other. -/
theorem xor_le_or (hx : 0 ≤ x.toInt) (hy : 0 ≤ y.toInt) (hxk : x.toInt < (2 ^ k : ℕ))
    (hyb : y.toInt ≤ b.toInt) (hmask : mask.toInt = (2 ^ k - 1 : ℕ)) :
    (x ^^^ y).toInt ≤ (b ||| mask).toInt := by
  have hb := Int.le_trans hy hyb
  have hmask0 : 0 ≤ mask.toInt := by omega
  have hor := (or_of_nonneg hb hmask0).1
  rw [(toNat_of_nonneg hx).2, Int.ofNat_lt] at hxk
  rw [toInt_le_iff (Or.inl ⟨hy, hb⟩)] at hyb
  rw [(toNat_of_nonneg hmask0).2, Int.ofNat_inj] at hmask
  rw [toInt_le_iff (Or.inl ⟨xor_of_nonneg hx hy, Int.le_trans hb hor⟩), BitVec.toNat_xor, BitVec.toNat_or, hmask]
  exact xor_le_or_mask hxk hyb

end SpiderMonkey.SignedBits
