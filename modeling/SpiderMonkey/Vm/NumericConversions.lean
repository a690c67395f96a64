import SpiderMonkey.Lib.Binary64Bits
import Mathlib.Data.BitVec
import Mathlib.Tactic.LinearCombination

/-!
# Conversions of doubles to integers

`ToUintWidth` and `ToIntWidth` work on the bits of a double. The significand is shifted into its place in the
result, and what is above it there is the exponent, the sign, and a leading one that is not in the bits.
-/

namespace SpiderMonkey.Vm.NumericConversions

/-- `x << n`, which is undefined unless the operand is wider than `n`. -/
def shiftLeft {w : ℕ} (x : BitVec w) (n : ℕ) : Option (BitVec w) := if n < w then some (x <<< n) else none

/-- `x >> n`, which is undefined unless the operand is wider than `n`. -/
def shiftRight {w : ℕ} (x : BitVec w) (n : ℕ) : Option (BitVec w) := if n < w then some (x >>> n) else none

/-- `mozilla::DoubleExponentBits`. -/
def doubleExponentBits : BitVec 64 := 0x7ff0000000000000#64

/-- `mozilla::DoubleSignBit`. -/
def doubleSignBit : BitVec 64 := 0x8000000000000000#64

/-- `mozilla::DoubleExponentShift`. -/
def doubleExponentShift : ℕ := 52

/-- `mozilla::DoubleExponentBias`. -/
def doubleExponentBias : ℕ := 1023

/-- The significand, shifted according to the exponent. -/
def shiftSignificand (bits : BitVec 64) (exponent : ℕ) : Option (BitVec 64) :=
  if exponent > doubleExponentShift then shiftLeft bits (exponent - doubleExponentShift)
  else shiftRight bits (doubleExponentShift - exponent)

/-- The result without the bits above the significand, and with the implicit one. -/
def insertImplicitOne {w : ℕ} (result : BitVec w) (exponent : ℕ) : Option (BitVec w) :=
  if exponent < w then do
    let implicitOne ← shiftLeft 1#w exponent
    some ((result &&& (implicitOne - 1)) + implicitOne)
  else some result

/-- `ToUintWidth`, for a result of `w` bits. -/
def toUintWidth (w : ℕ) (bits : BitVec 64) : Option (BitVec w) := do
  let field ← shiftRight (bits &&& doubleExponentBits) doubleExponentShift
  let exp : ℤ := field.toNat - doubleExponentBias
  if exp < 0 then some 0
  else
    let exponent := exp.toNat
    if exponent ≥ doubleExponentShift + w then some 0
    else
      let shifted ← shiftSignificand bits exponent
      let result ← insertImplicitOne (shifted.setWidth w) exponent
      some (if bits &&& doubleSignBit ≠ 0 then ~~~result + 1 else result)

/-- `MaxValue` of `ToIntWidth`. -/
def maxValue (w : ℕ) : BitVec w := ((1#64 <<< (w - 1)) - 1).setWidth w

/-- `MinValue` of `ToIntWidth`. -/
def minValue (w : ℕ) : BitVec w := -maxValue w - 1

/-- `ToIntWidth`, in two's complement. -/
def toIntWidth (w : ℕ) (bits : BitVec 64) : Option (BitVec w) := do
  let u ← toUintWidth w bits
  some (if u ≤ maxValue w then u else (minValue w + (u - maxValue w)) - 1)

/-- `ToInt32`. -/
def toInt32 (bits : BitVec 64) : Option (BitVec 32) := toIntWidth 32 bits

/-- `ToUint32`. -/
def toUint32 (bits : BitVec 64) : Option (BitVec 32) := toUintWidth 32 bits

/-- `ToInt64`. -/
def toInt64 (bits : BitVec 64) : Option (BitVec 64) := toIntWidth 64 bits

/-- `ToUint64`. -/
def toUint64 (bits : BitVec 64) : Option (BitVec 64) := toUintWidth 64 bits

open Binary64

variable {w : ℕ} {bits : BitVec 64}

/-- The exponent field is masked and shifted out. -/
theorem toNat_exponent (bits : BitVec 64) :
    ((bits &&& doubleExponentBits) >>> doubleExponentShift).toNat = exponentField bits := by
  have hmask : doubleExponentBits.toNat >>> doubleExponentShift = 2 ^ 11 - 1 := by decide
  rw [BitVec.toNat_ushiftRight, BitVec.toNat_and, Nat.shiftRight_and_distrib, hmask,
    Nat.and_two_pow_sub_one_eq_mod, Nat.shiftRight_eq_div_pow]
  rfl

/-- The sign bit is masked. -/
theorem and_signBit_ne_zero (bits : BitVec 64) : bits &&& doubleSignBit ≠ 0 ↔ bits.msb = true := by
  have hmask : doubleSignBit = BitVec.twoPow 64 63 := by decide
  rw [hmask, BitVec.and_twoPow, BitVec.msb_eq_getLsbD_last]
  cases bits.getLsbD 63 <;> simp

/-! ## The significand in its place -/

/-- The fraction, shifted to the place that the exponent gives it. -/
def shiftedFraction (e m : ℕ) : ℕ := if 52 < e then m * 2 ^ (e - 52) else m / 2 ^ (52 - e)

/-- The fraction stays below the leading one. -/
theorem shiftedFraction_lt {e m : ℕ} (hm : m < 2 ^ 52) : shiftedFraction e m < 2 ^ e := by
  unfold shiftedFraction
  split
  next he =>
    calc m * 2 ^ (e - 52) < 2 ^ 52 * 2 ^ (e - 52) := Nat.mul_lt_mul_of_pos_right hm (by positivity)
      _ = 2 ^ e := by rw [← pow_add, Nat.add_sub_cancel' he.le]
  next he =>
    refine Nat.div_lt_of_lt_mul ?_
    rwa [← pow_add, Nat.sub_add_cancel (not_lt.mp he)]

/-- What is above the fraction in the bits is above the leading one after the shift. -/
theorem shiftedFraction_add (e m x : ℕ) :
    shiftedFraction e (2 ^ 52 * x + m) = 2 ^ e * x + shiftedFraction e m := by
  unfold shiftedFraction
  split
  next he =>
    rw [add_mul, mul_right_comm, ← pow_add, Nat.add_sub_cancel' he.le]
  next he =>
    have hpow : 2 ^ 52 = 2 ^ (52 - e) * 2 ^ e := by rw [← pow_add, Nat.sub_add_cancel (not_lt.mp he)]
    rw [hpow, mul_assoc, Nat.mul_add_div (by positivity)]

/-- The bits are shifted by less than their width, and what remains of them is exact. -/
theorem exists_shiftSignificand (bits : BitVec 64) {e : ℕ} (he : e < 52 + w) (hw : w ≤ 64) :
    ∃ shifted : BitVec 64,
      shiftSignificand bits e = some shifted ∧ (shifted.setWidth w).toNat = shiftedFraction e bits.toNat % 2 ^ w := by
  unfold shiftSignificand doubleExponentShift shiftLeft shiftRight shiftedFraction
  by_cases hlt : 52 < e
  · refine ⟨bits <<< (e - 52), by rw [if_pos hlt, if_pos (by omega)], ?_⟩
    rw [if_pos hlt, BitVec.toNat_setWidth, BitVec.toNat_shiftLeft, Nat.shiftLeft_eq]
    exact Nat.mod_mod_of_dvd _ (pow_dvd_pow 2 hw)
  · refine ⟨bits >>> (52 - e), by rw [if_neg hlt, if_pos (by omega)], ?_⟩
    rw [if_neg hlt, BitVec.toNat_setWidth, BitVec.toNat_ushiftRight, Nat.shiftRight_eq_div_pow]

/-- The implicit leading one replaces what is in its place and above it, unless it is shifted out. -/
theorem insertImplicitOne_eq {e m x : ℕ} {result : BitVec w} (hm : m < 2 ^ 52)
    (hresult : result.toNat = shiftedFraction e (2 ^ 52 * x + m) % 2 ^ w) :
    insertImplicitOne result e = some (BitVec.ofNat w (2 ^ e + shiftedFraction e m)) := by
  rw [shiftedFraction_add] at hresult
  have hlt := shiftedFraction_lt (e := e) hm
  by_cases he : e < w
  · rw [insertImplicitOne, if_pos he, shiftLeft, if_pos he, Option.bind_eq_bind, Option.bind_some]
    congr 1
    refine BitVec.eq_of_toNat_eq ?_
    have hpow : 2 ^ e < 2 ^ w := Nat.pow_lt_pow_right (by norm_num) he
    have hone : (1#w).toNat = 1 := by
      rw [BitVec.toNat_ofNat, Nat.mod_eq_of_lt (Nat.one_lt_two_pow (Nat.ne_of_gt (Nat.zero_lt_of_lt he)))]
    have himplicit : (1#w <<< e).toNat = 2 ^ e := by
      rw [BitVec.toNat_shiftLeft, hone, Nat.one_shiftLeft, Nat.mod_eq_of_lt hpow]
    have hmask : (1#w <<< e - 1).toNat = 2 ^ e - 1 := by
      rw [BitVec.toNat_sub_of_le, himplicit]
      · exact congrArg (2 ^ e - ·) hone
      · rw [BitVec.le_def, himplicit]
        exact hone.le.trans Nat.one_le_two_pow
    have hand : (result &&& (1#w <<< e - 1)).toNat = shiftedFraction e m := by
      rw [BitVec.toNat_and, hmask, Nat.and_two_pow_sub_one_eq_mod, hresult,
        Nat.mod_mod_of_dvd _ (pow_dvd_pow 2 he.le), Nat.mul_add_mod, Nat.mod_eq_of_lt hlt]
    rw [BitVec.toNat_add, hand, himplicit, BitVec.toNat_ofNat, add_comm (shiftedFraction e m) (2 ^ e)]
  · rw [insertImplicitOne, if_neg he]
    congr 1
    refine BitVec.eq_of_toNat_eq ?_
    rw [BitVec.toNat_ofNat, hresult]
    obtain ⟨c, hc⟩ := pow_dvd_pow 2 (not_lt.mp he)
    rw [hc, mul_assoc, Nat.mul_add_mod, Nat.mul_add_mod]

/-! ## The residue -/

/-- The integer part of a double that is not below one. -/
theorem floor_significand {e : ℕ} (he : exponentField bits = e + 1023) :
    ⌊(significand bits : ℚ) * 2 ^ lastPlace bits⌋ = (2 ^ e + shiftedFraction e (fractionField bits) : ℕ) := by
  have hsum : significand bits = 2 ^ 52 + fractionField bits := by
    rw [significand, if_neg (by omega)]
  have hadd := shiftedFraction_add e (fractionField bits) 1
  rw [mul_one, mul_one, ← hsum] at hadd
  have hplace : lastPlace bits = e - 52 := by
    unfold lastPlace
    omega
  rw [← hadd, hplace, shiftedFraction]
  split
  next hlt =>
    have hcast : ((significand bits : ℚ)) * 2 ^ ((e : ℤ) - 52) = (significand bits * 2 ^ (e - 52) : ℕ) := by
      have hexp : (e : ℤ) - 52 = (e - 52 : ℕ) := by omega
      rw [hexp, zpow_natCast]
      push_cast
      rfl
    rw [hcast, Int.floor_natCast]
  next hle =>
    have hcast : ((significand bits : ℚ)) * 2 ^ ((e : ℤ) - 52) = (significand bits : ℚ) / (2 ^ (52 - e) : ℕ) := by
      have hexp : (e : ℤ) - 52 = -(52 - e : ℕ) := by omega
      rw [hexp, zpow_neg, zpow_natCast, div_eq_mul_inv]
      push_cast
      rfl
    rw [hcast, Rat.floor_natCast_div_natCast]
    exact (Int.natCast_div _ _).symm

/-- The integer part of a double that is below one. -/
theorem floor_significand_of_lt (hexponent : exponentField bits < 1023) :
    ⌊(significand bits : ℚ) * 2 ^ lastPlace bits⌋ = 0 := by
  have hsignificand : significand bits < 2 ^ 53 := by
    have hfraction : fractionField bits < 2 ^ 52 := Nat.mod_lt _ (by norm_num)
    unfold significand
    split <;> omega
  have hplace : lastPlace bits ≤ -53 := by
    unfold lastPlace
    omega
  refine Int.floor_eq_zero_iff.mpr ⟨by positivity, ?_⟩
  calc (significand bits : ℚ) * 2 ^ lastPlace bits < 2 ^ (53 : ℤ) * 2 ^ lastPlace bits := by
        have hcast : (significand bits : ℚ) < 2 ^ (53 : ℤ) := by exact_mod_cast hsignificand
        exact mul_lt_mul_of_pos_right hcast (by positivity)
    _ = 2 ^ (53 + lastPlace bits) := (zpow_add₀ (by norm_num) _ _).symm
    _ ≤ 2 ^ (0 : ℤ) := zpow_le_zpow_right₀ (by norm_num) (by omega)
    _ = 1 := zpow_zero 2

/-- A double with an integer part, truncated. -/
theorem ofInt_truncated {n : ℕ} (hexponent : exponentField bits ≠ 2047)
    (hfloor : ⌊(significand bits : ℚ) * 2 ^ lastPlace bits⌋ = n) :
    BitVec.ofInt w (truncated (ofBits bits)) =
      if bits.msb then -BitVec.ofNat w n else BitVec.ofNat w n := by
  rw [ofBits, dif_neg hexponent, truncated, hfloor]
  split
  · rw [BitVec.ofInt_neg, BitVec.ofInt_natCast]
  · rw [BitVec.ofInt_natCast]

/-- `ToUintWidth` is the residue of the truncated double. -/
theorem toUintWidth_eq (bits : BitVec 64) (hpos : 0 < w) (hw : w ≤ 64) :
    toUintWidth w bits = some (BitVec.ofInt w (truncated (ofBits bits))) := by
  have hfield : shiftRight (bits &&& doubleExponentBits) doubleExponentShift =
      some ((bits &&& doubleExponentBits) >>> doubleExponentShift) := if_pos (by decide)
  rw [toUintWidth, hfield]
  simp only [Option.bind_eq_bind, Option.bind_some, toNat_exponent]
  have hbias : doubleExponentBias = 1023 := rfl
  have hshift : doubleExponentShift = 52 := rfl
  by_cases hneg : exponentField bits < 1023
  · rw [if_pos (by omega), ofInt_truncated (by omega) (floor_significand_of_lt hneg)]
    simp
  rw [if_neg (by omega)]
  obtain ⟨e, he⟩ : ∃ e, exponentField bits = e + 1023 := ⟨_, (Nat.sub_add_cancel (not_lt.mp hneg)).symm⟩
  have hexp : ((exponentField bits : ℤ) - doubleExponentBias).toNat = e := by omega
  rw [hexp]
  by_cases hlarge : e ≥ doubleExponentShift + w
  · rw [if_pos hlarge]
    by_cases hall : exponentField bits = 2047
    · have hzero : truncated (ofBits bits) = 0 := by
        rw [ofBits, dif_pos hall]
        split <;> rfl
      rw [hzero]
      rfl
    · rw [ofInt_truncated hall (floor_significand he)]
      have hmod : BitVec.ofNat w (2 ^ e + shiftedFraction e (fractionField bits)) = 0#w := by
        refine BitVec.eq_of_toNat_eq ?_
        rw [BitVec.toNat_ofNat, shiftedFraction, if_pos (by omega)]
        have hone := pow_dvd_pow 2 (show w ≤ e by omega)
        have htwo := pow_dvd_pow 2 (show w ≤ e - 52 by omega)
        rw [Nat.mod_eq_zero_of_dvd (dvd_add hone (htwo.mul_left _))]
        simp
      rw [hmod]
      simp
  rw [if_neg hlarge]
  obtain ⟨shifted, hshifted, hresult⟩ := exists_shiftSignificand bits (not_le.mp hlarge) hw
  have hbits : bits.toNat = 2 ^ 52 * (bits.toNat / 2 ^ 52) + fractionField bits := (Nat.div_add_mod _ _).symm
  rw [hbits] at hresult
  rw [hshifted]
  simp only [Option.bind_some]
  rw [insertImplicitOne_eq (Nat.mod_lt _ (by norm_num)) hresult, Option.bind_some,
    ofInt_truncated (by omega) (floor_significand he)]
  congr 1
  by_cases hmsb : bits.msb = true
  · rw [if_pos ((and_signBit_ne_zero bits).mpr hmsb), if_pos hmsb, BitVec.neg_eq_not_add]
    rfl
  · rw [if_neg (mt (and_signBit_ne_zero bits).mp hmsb), if_neg hmsb]
    rfl

/-- Twice the sign bit is zero. -/
theorem maxValue_add_one (hpos : 0 < w) (hw : w ≤ 64) : (maxValue w + 1) + (maxValue w + 1) = 0 := by
  have hlt : 2 ^ (w - 1) < 2 ^ 64 := Nat.pow_lt_pow_right (by norm_num) (by omega)
  have hone : 1 ≤ 2 ^ (w - 1) := Nat.one_le_two_pow
  have hmax : (maxValue w).toNat = (2 ^ (w - 1) - 1) % 2 ^ w := by
    have himplicit : (1#64 <<< (w - 1)).toNat = 2 ^ (w - 1) := by
      rw [BitVec.toNat_shiftLeft, BitVec.toNat_one (by norm_num), Nat.one_shiftLeft, Nat.mod_eq_of_lt hlt]
    rw [maxValue, BitVec.toNat_setWidth, BitVec.toNat_sub_of_le, himplicit]
    · rfl
    · rw [BitVec.le_def, himplicit]
      exact hone
  have hsucc : 2 ^ (w - 1) + 2 ^ (w - 1) = 2 ^ w := by
    rw [← two_mul, ← pow_succ', Nat.sub_add_cancel hpos]
  refine BitVec.eq_of_toNat_eq ?_
  have hsum : (maxValue w + 1).toNat = 2 ^ (w - 1) := by
    have htwo : (1 : BitVec w).toNat = 1 := BitVec.toNat_one hpos
    have hlow : 2 ^ (w - 1) - 1 < 2 ^ w := by omega
    have hhigh : 2 ^ (w - 1) < 2 ^ w := by omega
    rw [BitVec.toNat_add, hmax, htwo, Nat.mod_eq_of_lt hlow, Nat.sub_add_cancel hone, Nat.mod_eq_of_lt hhigh]
  rw [BitVec.toNat_add, hsum, hsucc, Nat.mod_self]
  rfl

/-- `ToIntWidth` reads the residue as a signed number. -/
theorem toIntWidth_eq (bits : BitVec 64) (hpos : 0 < w) (hw : w ≤ 64) :
    toIntWidth w bits = toUintWidth w bits := by
  rw [toIntWidth, toUintWidth_eq bits hpos hw]
  simp only [Option.bind_eq_bind, Option.bind_some]
  congr 1
  split
  · rfl
  · have hmax := maxValue_add_one hpos hw
    rw [minValue]
    linear_combination -hmax

/-- The conversions return the residue of the truncated double, unsigned or as its signed representative, and that
of zero if the double is not finite. They shift by less than the width of what they shift. -/
theorem exists_residues (bits : BitVec 64) (hpos : 0 < w) (hw : w ≤ 64) :
    ∃ u i : BitVec w, toUintWidth w bits = some u ∧ toIntWidth w bits = some i ∧
      (u.toNat : ℤ) = truncated (ofBits bits) % 2 ^ w ∧
      i.toInt = (truncated (ofBits bits)).bmod (2 ^ w) := by
  have hu := toUintWidth_eq bits hpos hw
  refine ⟨_, _, hu, (toIntWidth_eq bits hpos hw).trans hu, ?_, BitVec.toInt_ofInt _⟩
  rw [BitVec.toNat_ofInt, Int.toNat_of_nonneg (Int.emod_nonneg _ (by positivity))]
  push_cast
  rfl

/-- The four conversions. -/
theorem conversions_modular (bits : BitVec 64) :
    (∃ i, toInt32 bits = some i ∧ i.toInt = (truncated (ofBits bits)).bmod (2 ^ 32)) ∧
    (∃ u, toUint32 bits = some u ∧ (u.toNat : ℤ) = truncated (ofBits bits) % 2 ^ 32) ∧
    (∃ i, toInt64 bits = some i ∧ i.toInt = (truncated (ofBits bits)).bmod (2 ^ 64)) ∧
    ∃ u, toUint64 bits = some u ∧ (u.toNat : ℤ) = truncated (ofBits bits) % 2 ^ 64 := by
  obtain ⟨u, i, hu, hi, hunsigned, hsigned⟩ :=
    exists_residues (w := 32) bits (by norm_num) (by norm_num)
  obtain ⟨u', i', hu', hi', hunsigned', hsigned'⟩ :=
    exists_residues (w := 64) bits (by norm_num) (by norm_num)
  exact ⟨⟨i, hi, hsigned⟩, ⟨u, hu, hunsigned⟩, ⟨i', hi', hsigned'⟩, ⟨u', hu', hunsigned'⟩⟩

end SpiderMonkey.Vm.NumericConversions
