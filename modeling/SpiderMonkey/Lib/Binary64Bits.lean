import SpiderMonkey.Lib.Binary64

/-!
# The bits of a double

A double is a sign bit, 11 exponent bits and 52 fraction bits. The exponent field is biased by 1023. Zero there
stands for the subnormal numbers, which have no implicit leading one, and all ones for infinities and NaN.
-/

namespace SpiderMonkey.Binary64

/-- The exponent field. -/
def exponentField (bits : BitVec 64) : ℕ := bits.toNat / 2 ^ 52 % 2 ^ 11

/-- The fraction field. -/
def fractionField (bits : BitVec 64) : ℕ := bits.toNat % 2 ^ 52

/-- The significand of a finite double. -/
def significand (bits : BitVec 64) : ℕ :=
  if exponentField bits = 0 then fractionField bits else 2 ^ 52 + fractionField bits

/-- The exponent of the last place of a finite double. -/
def lastPlace (bits : BitVec 64) : ℤ := max (exponentField bits) 1 - 1075

/-- Every pattern without all exponent bits has a magnitude. -/
theorem isMagnitude_significand {bits : BitVec 64} (h : exponentField bits ≠ 2047) :
    IsMagnitude (significand bits * 2 ^ lastPlace bits) := by
  have hfraction : fractionField bits < 2 ^ 52 := Nat.mod_lt _ (by norm_num)
  have hexponent : exponentField bits < 2 ^ 11 := Nat.mod_lt _ (by norm_num)
  have hsignificand : significand bits < 2 ^ 53 := by
    unfold significand
    split <;> omega
  have hplace : lastPlace bits ≤ 971 := by
    unfold lastPlace
    omega
  refine ⟨⟨significand bits, lastPlace bits, hsignificand.le, ?_, rfl⟩, ?_⟩
  · unfold lastPlace
    omega
  · calc (significand bits : ℚ) * 2 ^ lastPlace bits < 2 ^ (53 : ℤ) * 2 ^ lastPlace bits := by
          have hcast : (significand bits : ℚ) < 2 ^ (53 : ℤ) := by exact_mod_cast hsignificand
          exact mul_lt_mul_of_pos_right hcast (by positivity)
      _ = 2 ^ (53 + lastPlace bits) := (zpow_add₀ (by norm_num) _ _).symm
      _ ≤ 2 ^ (1024 : ℤ) := zpow_le_zpow_right₀ (by norm_num) (by omega)
      _ = 2 ^ 1024 := by norm_num

/-- The double of a pattern. -/
def ofBits (bits : BitVec 64) : Binary64 :=
  if h : exponentField bits = 2047 then
    if fractionField bits = 0 then infinity bits.msb else nan
  else finite bits.msb ⟨_, isMagnitude_significand h⟩

/-- A double truncated toward zero, and zero if it is not finite. -/
def truncated : Binary64 → ℤ
  | finite negative m => if negative then -⌊m.1⌋ else ⌊m.1⌋
  | infinity _ => 0
  | nan => 0

end SpiderMonkey.Binary64
