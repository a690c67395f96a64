import SpiderMonkey.Lib.Binary64

/-!
# Integers as doubles

An integer of more than 53 bits is rounded at its 53rd bit. What is below decides the direction, and halves go to
the even significand. Products with powers of two are exact up to the overflow.
-/

namespace SpiderMonkey

/-- An integer with a significand of 53 bits and `k + 1` bits below. -/
theorem ulpExponent_natCast {m low k : ℕ} (hm : 2 ^ 52 ≤ m) (hm' : m < 2 ^ 53) (hlow : low < 2 ^ (k + 1)) :
    ulpExponent ((m * 2 ^ (k + 1) + low : ℕ) : ℚ) = (k + 1 : ℕ) := by
  have hlog : Nat.log 2 (m * 2 ^ (k + 1) + low) = 53 + k := by
    refine Nat.log_eq_of_pow_le_of_lt_pow ?_ ?_
    · calc 2 ^ (53 + k) = 2 ^ 52 * 2 ^ (k + 1) := by ring
        _ ≤ m * 2 ^ (k + 1) := Nat.mul_le_mul_right _ hm
        _ ≤ m * 2 ^ (k + 1) + low := Nat.le_add_right _ _
    · calc m * 2 ^ (k + 1) + low < (m + 1) * 2 ^ (k + 1) := by
            rw [Nat.succ_mul]
            exact Nat.add_lt_add_left hlow _
        _ ≤ 2 ^ 53 * 2 ^ (k + 1) := Nat.mul_le_mul_right _ hm'
        _ = 2 ^ (53 + k + 1) := by ring
  unfold ulpExponent
  rw [Int.log_natCast, hlog]
  omega

/-- An integer is rounded by what is below its significand. -/
theorem roundMagnitude_natCast {m low k : ℕ} (hm : 2 ^ 52 ≤ m) (hm' : m < 2 ^ 53) (hlow : low < 2 ^ (k + 1)) :
    roundMagnitude ((m * 2 ^ (k + 1) + low : ℕ) : ℚ) =
      ((m + if 2 ^ k < low ∨ low = 2 ^ k ∧ m % 2 = 1 then 1 else 0) * 2 ^ (k + 1) : ℕ) := by
  have hpos : (0 : ℚ) < 2 ^ (k + 1) := by positivity
  have hquotient : ((m * 2 ^ (k + 1) + low : ℕ) : ℚ) / 2 ^ (k + 1) = m + low / 2 ^ (k + 1) := by
    push_cast
    field_simp
  have hsmall : (low : ℚ) / 2 ^ (k + 1) < 1 := by
    rw [div_lt_one hpos]
    exact_mod_cast hlow
  have hfloor : ⌊(m : ℚ) + low / 2 ^ (k + 1)⌋ = m := by
    rw [Int.floor_natCast_add, Int.floor_eq_zero_iff.mpr ⟨by positivity, hsmall⟩, add_zero]
  have hlt : (low : ℚ) / 2 ^ (k + 1) < 1 / 2 ↔ low < 2 ^ k := by
    rw [div_lt_iff₀ hpos, show (1 : ℚ) / 2 * 2 ^ (k + 1) = 2 ^ k by ring]
    exact_mod_cast Iff.rfl
  have hgt : (1 : ℚ) / 2 < low / 2 ^ (k + 1) ↔ 2 ^ k < low := by
    rw [lt_div_iff₀ hpos, show (1 : ℚ) / 2 * 2 ^ (k + 1) = 2 ^ k by ring]
    exact_mod_cast Iff.rfl
  have hround : roundHalfEven ((m : ℚ) + low / 2 ^ (k + 1)) =
      (m + if 2 ^ k < low ∨ low = 2 ^ k ∧ m % 2 = 1 then 1 else 0 : ℕ) := by
    rw [roundHalfEven, hfloor]
    simp only [Int.cast_natCast, add_sub_cancel_left, hlt, hgt]
    split_ifs <;> push_cast <;> omega
  rw [roundMagnitude, ulpExponent_natCast hm hm' hlow, zpow_natCast, hquotient, hround]
  push_cast
  rfl

namespace Binary64

/-- A power of two below the overflow is a double. -/
theorem isMagnitude_two_pow {j : ℕ} (h : j < 1024) : IsMagnitude ((2 ^ j : ℕ) : ℚ) := by
  refine ⟨⟨1, j, by norm_num, by omega, by simp⟩, ?_⟩
  push_cast
  exact pow_lt_pow_right₀ (by norm_num) h

/-- What is rounded to the overflow or beyond is infinite. -/
theorem ofMagnitude_of_le (s : Bool) {q : ℚ} (h : 0 ≤ q) (hle : 2 ^ 1024 ≤ roundMagnitude q) :
    ofMagnitude s q h = infinity s := dif_neg (not_lt.mpr hle)

/-- A large integer is infinite. -/
theorem ofNat_of_large {n : ℕ} (h : 2 ^ 1024 ≤ n) : ofNat n = infinity false := by
  have hcast : (2 : ℚ) ^ (1024 : ℤ) ≤ n := by exact_mod_cast h
  refine ofMagnitude_of_le false n.cast_nonneg ?_
  exact_mod_cast le_roundMagnitude (by norm_num) hcast

/-- The product of two integers that are doubles is their rounded product. -/
theorem ofNat_mul_of_isMagnitude {a b : ℕ} (ha : IsMagnitude a) (hb : IsMagnitude b) :
    ofNat a * ofNat b = ofNat (a * b) := by
  have ha' : ofNat a = finite false ⟨a, ha⟩ := ofMagnitude_of_isMagnitude false ha
  have hb' : ofNat b = finite false ⟨b, hb⟩ := ofMagnitude_of_isMagnitude false hb
  rw [ha', hb', mul_def]
  simp only [Binary64.mul, Bool.xor_false, ofNat, Nat.cast_mul]

/-- An infinite product. -/
theorem ofNat_mul_infinity {a : ℕ} (ha : IsMagnitude a) (hpos : 0 < a) :
    ofNat a * infinity false = infinity false := by
  have ha' : ofNat a = finite false ⟨a, ha⟩ := ofMagnitude_of_isMagnitude false ha
  have hne : (a : ℚ) ≠ 0 := by positivity
  rw [ha', mul_def]
  simp [Binary64.mul, hne]

/-- A power of two is doubled. -/
theorem ofNat_two_pow_mul_two (j : ℕ) : ofNat (2 ^ j) * ofNat 2 = ofNat (2 ^ (j + 1)) := by
  have htwo : IsMagnitude ((2 : ℕ) : ℚ) := isMagnitude_natCast (by norm_num)
  rcases lt_or_ge j 1024 with hlt | hge
  · rw [ofNat_mul_of_isMagnitude (isMagnitude_two_pow hlt) htwo, pow_succ]
  · have hle : 2 ^ 1024 ≤ 2 ^ j := Nat.pow_le_pow_right (by norm_num) hge
    have hle' : 2 ^ 1024 ≤ 2 ^ (j + 1) := hle.trans (Nat.pow_le_pow_right (by norm_num) (Nat.le_succ j))
    rw [ofNat_of_large hle, ofNat_of_large hle', ← ofNat_mul_infinity htwo (by norm_num), mul_def, mul_def,
      ofNat_of_le (by norm_num)]
    simp [Binary64.mul]

/-- A rounded significand is scaled to the rounded integer. -/
theorem ofNat_mul_two_pow {m low k : ℕ} (hm : 2 ^ 52 ≤ m) (hm' : m < 2 ^ 53) (hlow : low < 2 ^ (k + 1)) :
    (ofNat (m + if 2 ^ k < low ∨ low = 2 ^ k ∧ m % 2 = 1 then 1 else 0)) * ofNat (2 ^ (k + 1)) =
      ofNat (m * 2 ^ (k + 1) + low) := by
  have hround := roundMagnitude_natCast hm hm' hlow
  generalize hn : (m + if 2 ^ k < low ∨ low = 2 ^ k ∧ m % 2 = 1 then 1 else 0) = n at hround ⊢
  have hle : m ≤ n := by omega
  have hn53 : n ≤ 2 ^ 53 := by
    split_ifs at hn <;> omega
  have hmagnitude : IsMagnitude n := isMagnitude_natCast hn53
  rcases lt_or_ge (k + 1) 1024 with hlt | hge
  · rw [ofNat_mul_of_isMagnitude hmagnitude (isMagnitude_two_pow hlt)]
    by_cases hfinite : ((n * 2 ^ (k + 1) : ℕ) : ℚ) < 2 ^ 1024
    · have hexact : IsMagnitude ((n * 2 ^ (k + 1) : ℕ) : ℚ) :=
        ⟨⟨n, (k + 1 : ℕ), hn53, by omega, by push_cast; rfl⟩, hfinite⟩
      have hself := roundMagnitude_of_isMagnitude hexact
      simp only [ofNat, ofMagnitude, hround, hself]
    · have hlarge : 2 ^ 1024 ≤ n * 2 ^ (k + 1) := by exact_mod_cast not_lt.mp hfinite
      rw [ofNat_of_large hlarge]
      exact (ofMagnitude_of_le false (Nat.cast_nonneg _) (by rw [hround]; exact not_lt.mp hfinite)).symm
  · have hpow : 2 ^ 1024 ≤ 2 ^ (k + 1) := Nat.pow_le_pow_right (by norm_num) hge
    have hpos : 0 < m := lt_of_lt_of_le (by norm_num) hm
    have hsum : 2 ^ 1024 ≤ m * 2 ^ (k + 1) + low :=
      hpow.trans ((Nat.le_mul_of_pos_left _ hpos).trans (Nat.le_add_right _ _))
    rw [ofNat_of_large hpow, ofNat_of_large hsum, ofNat_mul_infinity hmagnitude (hpos.trans_le hle)]

end Binary64

end SpiderMonkey
