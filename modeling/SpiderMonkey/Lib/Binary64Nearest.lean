import SpiderMonkey.Lib.Binary64Bits
import SpiderMonkey.Lib.Binary64Int32
import SpiderMonkey.Lib.Binary64Integers

/-!
# How far doubles are off

A rounded number is as near as any double below it, and half a unit of the last place away at most. Scaling by a
power of two commutes with rounding away from the subnormal numbers, which makes rounding a computation on
integers.
-/

namespace SpiderMonkey

/-! ## Bounds on the error -/

/-- No integer is nearer than the rounded one. -/
theorem abs_roundHalfEven_sub_le_abs (q : ℚ) (k : ℤ) : |(roundHalfEven q : ℚ) - q| ≤ |k - q| := by
  have hfloor := Int.floor_le q
  have hlt := Int.lt_floor_add_one q
  -- The integer is at most the floor, or above it.
  rcases le_or_gt k ⌊q⌋ with hk | hk
  · have hcast : (k : ℚ) ≤ ⌊q⌋ := by exact_mod_cast hk
    rw [abs_of_nonpos (show (k : ℚ) - q ≤ 0 by linarith), abs_le]
    unfold roundHalfEven
    split_ifs <;> push_cast <;> constructor <;> linarith
  · have hcast : (⌊q⌋ : ℚ) + 1 ≤ k := by exact_mod_cast hk
    rw [abs_of_nonneg (show 0 ≤ (k : ℚ) - q by linarith), abs_le]
    unfold roundHalfEven
    split_ifs <;> push_cast <;> constructor <;> linarith

/-- No multiple of the unit of the last place is nearer than the rounded number. -/
theorem abs_roundMagnitude_sub_le_of_multiple {q m : ℚ} {k : ℤ} (hm : m = k * 2 ^ ulpExponent q) (hle : m ≤ q) :
    |roundMagnitude q - q| ≤ q - m := by
  have hpos : (0 : ℚ) < 2 ^ ulpExponent q := by positivity
  have hnear := abs_roundHalfEven_sub_le_abs (q / 2 ^ ulpExponent q) k
  have hround : roundMagnitude q - q =
      (roundHalfEven (q / 2 ^ ulpExponent q) - q / 2 ^ ulpExponent q) * 2 ^ ulpExponent q := by
    rw [roundMagnitude, sub_mul, div_mul_cancel₀ _ hpos.ne']
  have hsub : m - q = (k - q / 2 ^ ulpExponent q) * 2 ^ ulpExponent q := by
    rw [hm, sub_mul, div_mul_cancel₀ _ hpos.ne']
  rw [← abs_of_nonneg (sub_nonneg.mpr hle), abs_sub_comm q m, hsub, hround, abs_mul, abs_mul]
  exact mul_le_mul_of_nonneg_right hnear (abs_nonneg _)

/-- A magnitude of the format is a multiple of its unit of the last place. -/
theorem IsMagnitude.multiple {m : ℚ} (h : IsMagnitude m) : ∃ k : ℤ, m = k * 2 ^ ulpExponent m :=
  ⟨_, (roundMagnitude_of_isMagnitude h).symm⟩

/-- No magnitude below a number is nearer than the rounded number. -/
theorem abs_roundMagnitude_sub_le_sub {q m : ℚ} (hm : IsMagnitude m) (hle : m ≤ q) :
    |roundMagnitude q - q| ≤ q - m := by
  rcases hm.nonneg.eq_or_lt with hzero | hmpos
  · exact abs_roundMagnitude_sub_le_of_multiple (k := 0) (by rw [← hzero]; simp) hle
  have hq : 0 < q := hmpos.trans_le hle
  have hmono : Int.log 2 m ≤ Int.log 2 q := Int.log_mono_right hmpos hle
  -- In one binade, the magnitude is itself a multiple of the unit. Else the start of the binade of `q` is between.
  by_cases hbinade : ulpExponent m = ulpExponent q
  · obtain ⟨k, hk⟩ := hm.multiple
    exact abs_roundMagnitude_sub_le_of_multiple (hbinade ▸ hk) hle
  · have hlog : -1022 ≤ Int.log 2 q := by
      unfold ulpExponent at hbinade
      omega
    have hlt : Int.log 2 m < Int.log 2 q := by
      unfold ulpExponent at hbinade
      omega
    have hstart := two_zpow_ulp_le hq hlog
    have hexp : 52 + ulpExponent q = Int.log 2 q := by
      unfold ulpExponent
      omega
    have hbelow : m ≤ 2 ^ (52 + ulpExponent q) :=
      calc m ≤ 2 ^ (Int.log 2 m + 1) := (lt_two_zpow_log m).le
        _ ≤ 2 ^ (52 + ulpExponent q) := zpow_le_zpow_right₀ (by norm_num) (by omega)
    have hmultiple : (2 : ℚ) ^ (52 + ulpExponent q) = (2 ^ 52 : ℤ) * 2 ^ ulpExponent q := by
      rw [zpow_add₀ (by norm_num)]
      norm_num
    exact (abs_roundMagnitude_sub_le_of_multiple hmultiple hstart).trans (by linarith)

/-- A number that is not negative is at most doubled. -/
theorem abs_roundMagnitude_sub_le_self {q : ℚ} (h : 0 ≤ q) : |roundMagnitude q - q| ≤ q := by
  have hzero : IsMagnitude 0 := by simpa using isMagnitude_natCast (Nat.zero_le _)
  simpa using abs_roundMagnitude_sub_le_sub hzero h

/-- The error of rounding a number below a power of two. -/
theorem abs_roundMagnitude_sub_le_of_lt {q : ℚ} (h : 0 ≤ q) {k : ℤ} (hk : -1021 ≤ k) (hlt : q < 2 ^ k) :
    |roundMagnitude q - q| ≤ 2 ^ (k - 54) := by
  rcases h.eq_or_lt with rfl | hpos
  · refine (abs_roundMagnitude_sub_le_self le_rfl).trans ?_
    positivity
  · have hlog : Int.log 2 q < k := (Int.lt_zpow_iff_log_lt (by norm_num) hpos).mp (by simpa using hlt)
    have hexp : ulpExponent q ≤ k - 53 := by
      unfold ulpExponent
      omega
    calc |roundMagnitude q - q| ≤ 2 ^ ulpExponent q / 2 := abs_roundMagnitude_sub_le q
      _ ≤ 2 ^ (k - 53) / 2 := by
          have hmono : (2 : ℚ) ^ ulpExponent q ≤ 2 ^ (k - 53) := zpow_le_zpow_right₀ (by norm_num) hexp
          linarith
      _ = 2 ^ (k - 54) := by
          rw [show k - 53 = k - 54 + 1 by ring, zpow_add₀ (by norm_num)]
          ring

/-! ## Rounding as a computation on integers -/

/-- Scaling by a power of two moves the last place. -/
theorem ulpExponent_mul_two_zpow {q : ℚ} (hq : 0 < q) {j : ℤ} (h : -1022 ≤ Int.log 2 q)
    (hj : -1022 ≤ Int.log 2 q + j) : ulpExponent (q * 2 ^ j) = ulpExponent q + j := by
  have hpos : (0 : ℚ) < q * 2 ^ j := by positivity
  have hlow : Int.log 2 q + j ≤ Int.log 2 (q * 2 ^ j) := by
    refine (Int.zpow_le_iff_le_log (by norm_num) hpos).mp ?_
    have hle := mul_le_mul_of_nonneg_right (two_zpow_log_le hq) (show (0 : ℚ) ≤ 2 ^ j by positivity)
    rw [← zpow_add₀ (by norm_num)] at hle
    simpa using hle
  have hhigh : Int.log 2 (q * 2 ^ j) < Int.log 2 q + 1 + j := by
    refine (Int.lt_zpow_iff_log_lt (by norm_num) hpos).mp ?_
    have hlt := mul_lt_mul_of_pos_right (lt_two_zpow_log q) (show (0 : ℚ) < 2 ^ j by positivity)
    rw [← zpow_add₀ (by norm_num)] at hlt
    simpa using hlt
  unfold ulpExponent
  omega

/-- Rounding commutes with scaling by a power of two, unless that makes the number subnormal. -/
theorem roundMagnitude_mul_two_zpow {q : ℚ} (hq : 0 < q) {j : ℤ} (h : -1022 ≤ Int.log 2 q)
    (hj : -1022 ≤ Int.log 2 q + j) : roundMagnitude (q * 2 ^ j) = roundMagnitude q * 2 ^ j := by
  have hne : (2 : ℚ) ^ j ≠ 0 := by positivity
  rw [roundMagnitude, roundMagnitude, ulpExponent_mul_two_zpow hq h hj, zpow_add₀ (by norm_num),
    mul_div_mul_right _ _ hne, mul_assoc]

/-- An integer rounded to 53 significant bits, halves to the even significand. -/
def roundNat (n : ℕ) : ℕ :=
  if n < 2 ^ 53 then n
  else
    let k := n.log2 - 53
    let m := n / 2 ^ (k + 1)
    let low := n % 2 ^ (k + 1)
    (m + if 2 ^ k < low ∨ low = 2 ^ k ∧ m % 2 = 1 then 1 else 0) * 2 ^ (k + 1)

/-- Rounding an integer is a computation on integers. -/
theorem roundMagnitude_natCast_eq (n : ℕ) : roundMagnitude n = roundNat n := by
  unfold roundNat
  split
  next hlt => exact roundMagnitude_of_isMagnitude (isMagnitude_natCast hlt.le)
  next hge =>
    have hne : n ≠ 0 := by omega
    have hlog : 53 ≤ n.log2 := (Nat.le_log2 hne).mpr (not_lt.mp hge)
    obtain ⟨k, hk⟩ := Nat.exists_eq_add_of_le hlog
    have hfirst : 2 ^ (53 + k) ≤ n := (Nat.le_log2 hne).mp hk.ge
    have hlast : n < 2 ^ (53 + k + 1) := (Nat.log2_lt hne).mp (by omega)
    have hpos : 0 < 2 ^ (k + 1) := by positivity
    have hm : 2 ^ 52 ≤ n / 2 ^ (k + 1) := by
      rw [Nat.le_div_iff_mul_le hpos, ← pow_add]
      exact (Nat.pow_le_pow_right (by norm_num) (by omega)).trans hfirst
    have hm' : n / 2 ^ (k + 1) < 2 ^ 53 := by
      rw [Nat.div_lt_iff_lt_mul hpos, ← pow_add]
      exact hlast.trans_le (Nat.pow_le_pow_right (by norm_num) (by omega))
    have hround := roundMagnitude_natCast hm hm' (Nat.mod_lt n hpos)
    rw [Nat.div_add_mod'] at hround
    rw [hround, hk, Nat.add_sub_cancel_left]

/-- A fraction with a power of two below it is rounded like its numerator. -/
theorem roundMagnitude_div_two_pow (n : ℕ) {s : ℕ} (hs : s ≤ 1022) :
    roundMagnitude ((n : ℚ) / 2 ^ s) = roundNat n / 2 ^ s := by
  rcases Nat.eq_zero_or_pos n with rfl | hpos
  · have hzero : roundMagnitude 0 = 0 := by
      simpa using roundMagnitude_of_isMagnitude (isMagnitude_natCast (Nat.zero_le _))
    simp [hzero, roundNat]
  · have hq : (0 : ℚ) < n := by exact_mod_cast hpos
    have hlog : 0 ≤ Int.log 2 (n : ℚ) := by
      rw [Int.log_natCast]
      exact Int.natCast_nonneg _
    have hscale : (n : ℚ) / 2 ^ s = n * 2 ^ (-(s : ℤ)) := by
      rw [zpow_neg, zpow_natCast, div_eq_mul_inv]
    rw [hscale, roundMagnitude_mul_two_zpow hq (by omega) (by omega), roundMagnitude_natCast_eq, zpow_neg,
      zpow_natCast, div_eq_mul_inv]

/-! ## Doubles that are not negative -/

namespace Binary64

/-- A positive double, or the positive zero, with its number. -/
def Denotes (x : Binary64) (q : ℚ) : Prop := ∃ h : IsMagnitude q, x = finite false ⟨q, h⟩

theorem Denotes.isMagnitude {x : Binary64} {q : ℚ} (h : Denotes x q) : IsMagnitude q := h.1

/-- A number that is far from overflow, rounded. -/
theorem denotes_ofMagnitude {q : ℚ} (h : 0 ≤ q) (hle : q ≤ 2 ^ 60) :
    Denotes (ofMagnitude false q h) (roundMagnitude q) := by
  have herror := abs_roundMagnitude_sub_le_self h
  have hround : roundMagnitude q < 2 ^ 1024 :=
    calc roundMagnitude q ≤ 2 * q := by
          have hself := (abs_le.mp herror).2
          linarith
      _ ≤ 2 * 2 ^ 60 := mul_le_mul_of_nonneg_left hle (by norm_num)
      _ = 2 ^ 61 := (pow_succ' 2 60).symm
      _ < 2 ^ 1024 := pow_lt_pow_right₀ (by norm_num) (by norm_num)
  exact ⟨isMagnitude_roundMagnitude h hround, dif_pos hround⟩

/-- The double nearest to a number. -/
theorem denotes_ofRat {q : ℚ} (h : 0 ≤ q) (hle : q ≤ 2 ^ 60) : Denotes (ofRat q) (roundMagnitude q) := by
  have hofRat : ofRat q = ofMagnitude false q h := by
    simp only [ofRat, not_lt.mpr h, decide_false, abs_of_nonneg h]
  exact hofRat ▸ denotes_ofMagnitude h hle

/-- An integer of at most 53 bits. -/
theorem denotes_ofNat {n : ℕ} (h : n ≤ 2 ^ 53) : Denotes (ofNat n) n := ⟨isMagnitude_natCast h, ofNat_of_le h⟩

/-- The rounded product. -/
theorem Denotes.mul {x y : Binary64} {p q : ℚ} (hx : Denotes x p) (hy : Denotes y q) (hle : p * q ≤ 2 ^ 60) :
    Denotes (x * y) (roundMagnitude (p * q)) := by
  obtain ⟨hp, rfl⟩ := hx
  obtain ⟨hq, rfl⟩ := hy
  exact denotes_ofMagnitude (mul_nonneg hp.nonneg hq.nonneg) hle

/-- The rounded sum. -/
theorem Denotes.add {x y : Binary64} {p q : ℚ} (hx : Denotes x p) (hy : Denotes y q) (hle : p + q ≤ 2 ^ 60) :
    Denotes (x + y) (roundMagnitude (p + q)) := by
  obtain ⟨hp, rfl⟩ := hx
  obtain ⟨hq, rfl⟩ := hy
  have hsum : 0 ≤ p + q := add_nonneg hp.nonneg hq.nonneg
  have hadd : (finite false ⟨p, hp⟩ : Binary64) + finite false ⟨q, hq⟩ = ofRat (p + q) := by
    rw [add_def]
    simp only [Binary64.add, signed, Bool.false_eq_true, ↓reduceIte, Bool.and_self]
    split
    next hzero => simp [hzero, ofRat]
    next => rfl
  exact hadd ▸ denotes_ofRat hsum hle

/-- What is truncated away from a number that is not negative. -/
theorem Denotes.truncated {x : Binary64} {q : ℚ} (hx : Denotes x q) : truncated x = ⌊q⌋ := by
  obtain ⟨hq, rfl⟩ := hx
  rfl

end Binary64

end SpiderMonkey
