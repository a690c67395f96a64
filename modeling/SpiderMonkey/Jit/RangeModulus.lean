import SpiderMonkey.Jit.MIR
import SpiderMonkey.Jit.RangeBitsSound

/-!
# Ranges of divisions and remainders

`computeRange` of `MMod` and `MDiv`. A node that is marked unsigned takes its int32 operands for uint32 values, so
that a range that crosses -1 stands for the largest of them. An unsigned division returns a uint32 value.
-/

namespace SpiderMonkey.Jit.Range

open MIR (MIRType)

open SignedBits

/-- The largest uint32 value of an operand. -/
def uint32Bound (r : Range) : BitVec 32 :=
  if r.lower ≤ -1 ∧ r.upper ≥ -1 then BitVec.allOnes 32
  else if bits r.lower < bits r.upper then bits r.upper else bits r.lower

/-- The largest magnitude of an operand. -/
def absBound (r : Range) : ℤ := max |r.lower| |r.upper|

/-- `MMod::computeRange`: whether the node is unsigned from now on, and the range that is set, if one is. -/
def modComputeRange (specialization : MIRType) (unsigned_ : Bool) (lhs rhs : Range) : Bool × Option Range :=
  if specialization ≠ .int32 ∧ specialization ≠ .double then (unsigned_, none)
  else if !lhs.hasInt32Bounds || !rhs.hasInt32Bounds then (unsigned_, none)
  else if rhs.lower ≤ 0 ∧ rhs.upper ≥ 0 then (unsigned_, none)
  else
    let unsigned_ := unsigned_ || (specialization = .int32 ∧ lhs.lower ≥ 0 ∧ rhs.lower > 0 ∧
      !lhs.canHaveFractionalPart ∧ !rhs.canHaveFractionalPart)
    if unsigned_ then
      let lhsBound := lhs.uint32Bound
      -- the result is never equal to the divisor
      let rhsBound := rhs.uint32Bound - 1
      (unsigned_, some (newUInt32Range 0 (if rhsBound < lhsBound then rhsBound else lhsBound)))
    else if |rhs.lower| = 0 ∧ |rhs.upper| = 0 then (unsigned_, none)
    else
      let rhsAbsBound :=
        if !lhs.canHaveFractionalPart && !rhs.canHaveFractionalPart then rhs.absBound - 1 else rhs.absBound
      let absBound := min lhs.absBound rhsAbsBound
      let lower := if lhs.lower ≥ 0 then 0 else -absBound
      let upper := if lhs.upper ≤ 0 then 0 else absBound
      (unsigned_, some (set lower upper (lhs.canHaveFractionalPart || rhs.canHaveFractionalPart)
        (min lhs.maxExponent rhs.maxExponent)))

/-- `MDiv::computeRange`: the range that is set, if one is. -/
def divComputeRange (specialization : MIRType) (unsigned_ : Bool) (lhs rhs : Range) : Option Range :=
  if specialization ≠ .int32 ∧ specialization ≠ .double then none
  else if !lhs.hasInt32Bounds || !rhs.hasInt32Bounds then none
  else if lhs.lower ≥ 0 ∧ rhs.lower ≥ 1 then some (set 0 lhs.upper true lhs.maxExponent)
  else if unsigned_ ∧ rhs.lower ≥ 1 then some (newUInt32Range 0 (BitVec.allOnes 32))
  else none

/-! ## The remainder -/

/-- A rational without its fraction. -/
def truncate (q : ℚ) : ℤ := if 0 ≤ q then ⌊q⌋ else ⌈q⌉

/-- The remainder of a division that is truncated toward zero. -/
def jsRemainder (p q : ℚ) : ℚ := p - q * truncate (p / q)

/-- The fraction that is cut off is below one, and has the sign of the number. -/
theorem truncate_spec (u : ℚ) :
    |u - truncate u| < 1 ∧ |u - truncate u| ≤ |u| ∧ 0 ≤ u * (u - truncate u) := by
  unfold truncate
  split
  next h =>
    have hfloor : (0 : ℚ) ≤ (⌊u⌋ : ℚ) := by exact_mod_cast Int.floor_nonneg.mpr h
    have hle := Int.floor_le u
    have hlt := Int.lt_floor_add_one u
    have hnonneg : 0 ≤ u - (⌊u⌋ : ℚ) := by linarith
    rw [abs_of_nonneg hnonneg, abs_of_nonneg h]
    exact ⟨by linarith, by linarith, mul_nonneg h hnonneg⟩
  next h =>
    have hneg := not_le.mp h
    have hceil : (⌈u⌉ : ℚ) ≤ 0 := by exact_mod_cast Int.ceil_le.mpr (by exact_mod_cast hneg.le)
    have hle := Int.le_ceil u
    have hlt := Int.ceil_lt_add_one u
    have hnonpos : u - (⌈u⌉ : ℚ) ≤ 0 := by linarith
    rw [abs_of_nonpos hnonpos, abs_of_neg hneg]
    exact ⟨by linarith, by linarith, mul_nonneg_of_nonpos_of_nonpos hneg.le hnonpos⟩

/-- The remainder is smaller than the divisor, not larger than the dividend, and has its sign. -/
theorem jsRemainder_spec (p : ℚ) {q : ℚ} (hq : q ≠ 0) :
    |jsRemainder p q| < |q| ∧ |jsRemainder p q| ≤ |p| ∧ 0 ≤ p * jsRemainder p q := by
  obtain ⟨hlt, hle, hsign⟩ := truncate_spec (p / q)
  have hp : q * (p / q) = p := mul_div_cancel₀ p hq
  have hr : jsRemainder p q = q * (p / q - truncate (p / q)) := by rw [mul_sub, hp, jsRemainder]
  have hpos : 0 < |q| := abs_pos.mpr hq
  refine ⟨?_, ?_, ?_⟩
  · rw [hr, abs_mul]
    exact mul_lt_of_lt_one_right hpos hlt
  · rw [hr, abs_mul]
    calc |q| * |p / q - truncate (p / q)| ≤ |q| * |p / q| := mul_le_mul_of_nonneg_left hle hpos.le
      _ = |p| := by rw [← abs_mul, hp]
  · have hsquare : p * jsRemainder p q = q * q * (p / q * (p / q - truncate (p / q))) := by
      rw [hr]
      field_simp
    rw [hsquare]
    exact mul_nonneg (mul_self_nonneg q) hsign

/-- The remainder of a dividend that is not negative. -/
theorem jsRemainder_nonneg {p q : ℚ} (hp : 0 ≤ p) (hq : q ≠ 0) : 0 ≤ jsRemainder p q := by
  obtain ⟨-, hle, hsign⟩ := jsRemainder_spec p hq
  rcases hp.eq_or_lt with rfl | hpos
  · rw [abs_zero, abs_nonpos_iff] at hle
    exact hle.ge
  · exact nonneg_of_mul_nonneg_right hsign hpos

/-- The remainder of a dividend that is not positive. -/
theorem jsRemainder_nonpos {p q : ℚ} (hp : p ≤ 0) (hq : q ≠ 0) : jsRemainder p q ≤ 0 := by
  obtain ⟨-, hle, hsign⟩ := jsRemainder_spec p hq
  rcases hp.eq_or_lt with rfl | hneg
  · rw [abs_zero, abs_nonpos_iff] at hle
    exact hle.le
  · by_contra hpos
    exact (mul_neg_of_neg_of_pos hneg (not_le.mp hpos)).not_ge hsign

/-- The remainder of integers is an integer. -/
theorem jsRemainder_intCast (a b : ℤ) : ∃ z : ℤ, jsRemainder a b = z :=
  ⟨a - b * truncate (a / b), by unfold jsRemainder; push_cast; rfl⟩

/-- The remainder of natural numbers is the usual one. -/
theorem jsRemainder_natCast (a b : ℕ) : jsRemainder a b = (a % b : ℕ) := by
  have hfloor : truncate ((a : ℚ) / b) = (a / b : ℕ) := by
    rw [truncate, if_pos (by positivity), Rat.floor_natCast_div_natCast]
    rfl
  have hsum : (a : ℚ) = b * (a / b : ℕ) + (a % b : ℕ) := by exact_mod_cast (Nat.div_add_mod a b).symm
  rw [jsRemainder, hfloor, Int.cast_natCast]
  linarith

/-! ## Soundness -/

variable {lhs rhs r : Range} {p q : ℚ} {x y : BitVec 32}

/-- The bounds are int32 values, as the types of the fields say. -/
def Int32Fields (r : Range) : Prop :=
  (jsvalIntMin ≤ r.lower ∧ r.lower ≤ jsvalIntMax) ∧ jsvalIntMin ≤ r.upper ∧ r.upper ≤ jsvalIntMax

/-- Values between two bounds have no larger magnitude. -/
theorem HoldsFinite.abs_le_absBound (hr : r.hasInt32Bounds = true) (hp : r.HoldsFinite p) :
    |p| ≤ r.absBound := by
  rw [hasInt32Bounds, Bool.and_eq_true] at hr
  have hlower := hp.lower_le hr.1
  have hupper := hp.le_upper hr.2
  rw [absBound]
  push_cast
  rcases abs_cases p with ⟨h, -⟩ | ⟨h, -⟩
  · rw [h]
    exact hupper.trans ((le_abs_self _).trans (le_max_right _ _))
  · rw [h]
    exact (neg_le_neg hlower).trans ((neg_le_abs _).trans (le_max_left _ _))

/-- The unsigned value of an operand is not above its bound. -/
theorem toNat_le_uint32Bound (hfields : Int32Fields r) (hr : r.hasInt32Bounds = true)
    (hx : r.Holds (.finite x.toInt)) : x.toNat ≤ r.uint32Bound.toNat := by
  rw [hasInt32Bounds, Bool.and_eq_true] at hr
  have hlower : r.lower ≤ x.toInt := by exact_mod_cast hx.lower_le hr.1
  have hupper : x.toInt ≤ r.upper := by exact_mod_cast hx.le_upper hr.2
  have hbits := toInt_bits hfields.2.1 hfields.2.2
  unfold uint32Bound
  split
  next => exact toNat_le_allOnes x
  next hcross =>
    have hle : x.toNat ≤ (bits r.upper).toNat := by
      rcases toInt_cases x with ⟨h, hx⟩ | ⟨h, hx⟩ <;>
        rcases toInt_cases (bits r.upper) with ⟨h', hu⟩ | ⟨h', hu⟩ <;> omega
    split
    next => exact hle
    next hlt => exact hle.trans (not_lt.mp hlt)

/-- The range of a remainder holds it. -/
theorem holds_remainder (hlhs : lhs.hasInt32Bounds = true) (hrhs : rhs.hasInt32Bounds = true)
    (hp : lhs.HoldsFinite p) (hq : rhs.HoldsFinite q) (hne : q ≠ 0) {rhsAbsBound : ℤ}
    (hbound : rhsAbsBound = if !lhs.canHaveFractionalPart && !rhs.canHaveFractionalPart then rhs.absBound - 1
      else rhs.absBound) :
    (set (if lhs.lower ≥ 0 then 0 else -min lhs.absBound rhsAbsBound)
      (if lhs.upper ≤ 0 then 0 else min lhs.absBound rhsAbsBound)
      (lhs.canHaveFractionalPart || rhs.canHaveFractionalPart)
      (min lhs.maxExponent rhs.maxExponent)).Holds (.finite (jsRemainder p q)) := by
  obtain ⟨hlt, hle, hsign⟩ := jsRemainder_spec p hne
  have hintegral (h : (lhs.canHaveFractionalPart || rhs.canHaveFractionalPart) = false) :
      ∃ a b : ℤ, p = a ∧ q = b := by
    rw [Bool.or_eq_false_iff] at h
    obtain ⟨a, ha⟩ := hp.integral h.1
    obtain ⟨b, hb⟩ := hq.integral h.2
    exact ⟨a, b, ha, hb⟩
  have hdividend : |jsRemainder p q| ≤ lhs.absBound := hle.trans (hp.abs_le_absBound hlhs)
  have hdivisor : |jsRemainder p q| ≤ rhsAbsBound := by
    have habs := hq.abs_le_absBound hrhs
    rw [hbound]
    split
    next hint =>
      rw [← Bool.not_or, Bool.not_eq_true'] at hint
      obtain ⟨a, b, rfl, rfl⟩ := hintegral hint
      obtain ⟨z, hz⟩ := jsRemainder_intCast a b
      rw [hz] at hlt ⊢
      have hstrict : |z| < |b| := by exact_mod_cast hlt
      have hb : |b| ≤ rhs.absBound := by exact_mod_cast habs
      exact_mod_cast (show |z| ≤ rhs.absBound - 1 by omega)
    next => exact hlt.le.trans habs
  have hmin : |jsRemainder p q| ≤ (min lhs.absBound rhsAbsBound : ℤ) := by
    push_cast
    exact le_min hdividend hdivisor
  rw [hasInt32Bounds, Bool.and_eq_true] at hlhs
  have hlower := hp.lower_le hlhs.1
  have hupper := hp.le_upper hlhs.2
  refine RawHolds.holds_set ⟨fun _ => ?_, fun _ => ?_, fun hexponent => ?_, fun hfraction => ?_⟩
  · split
    next hnonneg =>
      have hcast : (0 : ℚ) ≤ lhs.lower := by exact_mod_cast hnonneg
      exact_mod_cast jsRemainder_nonneg (hcast.trans hlower) hne
    next =>
      rw [Int.cast_neg]
      exact (neg_le_neg hmin).trans (neg_abs_le _)
  · split
    next hnonpos =>
      have hcast : (lhs.upper : ℚ) ≤ 0 := by exact_mod_cast hnonpos
      exact_mod_cast jsRemainder_nonpos (hupper.trans hcast) hne
    next => exact (le_abs_self _).trans hmin
  · rcases le_total lhs.maxExponent rhs.maxExponent with h | h
    · rw [min_eq_left h] at hexponent ⊢
      exact hle.trans_lt (hp.lt_pow hexponent)
    · rw [min_eq_right h] at hexponent ⊢
      exact hlt.trans (hq.lt_pow hexponent)
  · obtain ⟨a, b, rfl, rfl⟩ := hintegral hfraction
    exact jsRemainder_intCast a b

/-- The range of an unsigned remainder holds it. -/
theorem holds_unsignedRemainder (hx : x.toNat ≤ lhs.uint32Bound.toNat) (hy : y.toNat ≤ rhs.uint32Bound.toNat)
    (hne : y ≠ 0) :
    (newUInt32Range 0 (if rhs.uint32Bound - 1 < lhs.uint32Bound then rhs.uint32Bound - 1
      else lhs.uint32Bound)).Holds (.finite ((x % y).toNat : ℤ)) := by
  have hpos : 0 < y.toNat := Nat.pos_of_ne_zero fun h => hne (BitVec.eq_of_toNat_eq h)
  have hmod : (x % y).toNat = x.toNat % y.toNat := BitVec.toNat_umod
  have hlt := Nat.mod_lt x.toNat hpos
  have hle := Nat.mod_le x.toNat y.toNat
  have hpred : (rhs.uint32Bound - 1).toNat = rhs.uint32Bound.toNat - 1 :=
    BitVec.toNat_sub_of_le (by rw [BitVec.le_def]; exact hpos.trans_le hy)
  refine holds_newUInt32Range (Nat.zero_le _) ?_
  rw [hmod]
  split
  · omega
  · omega

/-- An operand of int32 type without a sign. -/
theorem exists_nonneg_int32 (hfields : Int32Fields r) (hr : r.hasInt32Bounds = true) (hlower : 0 ≤ r.lower)
    (hfraction : r.canHaveFractionalPart = false) (hp : r.HoldsFinite p) :
    ∃ x : BitVec 32, p = x.toInt ∧ p = x.toNat := by
  rw [hasInt32Bounds, Bool.and_eq_true] at hr
  obtain ⟨z, rfl⟩ := hp.integral hfraction
  have hmin : r.lower ≤ z := by exact_mod_cast hp.lower_le hr.1
  have hmax : z ≤ r.upper := by exact_mod_cast hp.le_upper hr.2
  have hz : (bits z).toInt = z :=
    toInt_bits (hfields.1.1.trans hmin) (hmax.trans hfields.2.2)
  have hnat : (z : ℤ) = (bits z).toNat := by
    rw [← (toNat_of_nonneg (x := bits z) (by omega)).2, hz]
  refine ⟨bits z, by rw [hz], ?_⟩
  exact_mod_cast hnat

/-- What `MMod::computeRange` sets, and when. -/
theorem modComputeRange_cases {specialization : MIRType} {unsigned_ : Bool}
    (h : (modComputeRange specialization unsigned_ lhs rhs).2 = some r) :
    lhs.hasInt32Bounds = true ∧ rhs.hasInt32Bounds = true ∧ ¬ (rhs.lower ≤ 0 ∧ rhs.upper ≥ 0) ∧
      ((modComputeRange specialization unsigned_ lhs rhs).1 = true ∧
          r = newUInt32Range 0 (if rhs.uint32Bound - 1 < lhs.uint32Bound then rhs.uint32Bound - 1
            else lhs.uint32Bound) ∨
        (modComputeRange specialization unsigned_ lhs rhs).1 = false ∧
          ∃ rhsAbsBound, rhsAbsBound =
              (if !lhs.canHaveFractionalPart && !rhs.canHaveFractionalPart then rhs.absBound - 1
                else rhs.absBound) ∧
            r = set (if lhs.lower ≥ 0 then 0 else -min lhs.absBound rhsAbsBound)
              (if lhs.upper ≤ 0 then 0 else min lhs.absBound rhsAbsBound)
              (lhs.canHaveFractionalPart || rhs.canHaveFractionalPart)
              (min lhs.maxExponent rhs.maxExponent)) := by
  unfold modComputeRange at h ⊢
  split at h
  next => cases h
  next hspecialization =>
    rw [if_neg hspecialization]
    split at h
    next => cases h
    next hbounds =>
      rw [if_neg hbounds]
      rw [Bool.not_eq_true, Bool.or_eq_false_iff, Bool.not_eq_false', Bool.not_eq_false'] at hbounds
      split at h
      next => cases h
      next hzero =>
        rw [if_neg hzero]
        refine ⟨hbounds.1, hbounds.2, hzero, ?_⟩
        simp only at h ⊢
        split at h
        next hunsigned =>
          rw [if_pos hunsigned]
          exact .inl ⟨hunsigned, (Option.some.inj h).symm⟩
        next hsigned =>
          rw [if_neg hsigned]
          split at h
          next => cases h
          next hnonzero =>
            rw [if_neg hnonzero]
            exact .inr ⟨Bool.eq_false_iff.mpr hsigned, _, rfl, (Option.some.inj h).symm⟩

/-- When `MMod::computeRange` makes a node unsigned. -/
theorem modComputeRange_unsigned {specialization : MIRType}
    (h : (modComputeRange specialization false lhs rhs).1 = true) :
    lhs.hasInt32Bounds = true ∧ rhs.hasInt32Bounds = true ∧ 0 ≤ lhs.lower ∧ 0 < rhs.lower ∧
      lhs.canHaveFractionalPart = false ∧ rhs.canHaveFractionalPart = false := by
  unfold modComputeRange at h
  split at h
  next => cases h
  next =>
    split at h
    next => cases h
    next hbounds =>
      rw [Bool.not_eq_true, Bool.or_eq_false_iff, Bool.not_eq_false', Bool.not_eq_false'] at hbounds
      split at h
      next => cases h
      next =>
        have hcondition : specialization = .int32 ∧ lhs.lower ≥ 0 ∧ rhs.lower > 0 ∧
            !lhs.canHaveFractionalPart ∧ !rhs.canHaveFractionalPart := by
          simp only [Bool.false_or] at h
          split at h
          next hunsigned => exact of_decide_eq_true hunsigned
          next hsigned =>
            split at h
            · exact of_decide_eq_true h
            · exact of_decide_eq_true h
        obtain ⟨-, hlower, hpos, hlhs, hrhs⟩ := hcondition
        exact ⟨hbounds.1, hbounds.2, hlower, hpos, by simpa using hlhs, by simpa using hrhs⟩

/-- A quotient that is not further from zero than the dividend is in its range. -/
theorem holds_quotient {u : ℚ} (hr : r.hasInt32Bounds = true) (hp : r.HoldsFinite p) (hu : 0 ≤ u) (hle : u ≤ p) :
    (set 0 r.upper true r.maxExponent).Holds (.finite u) := by
  rw [hasInt32Bounds, Bool.and_eq_true] at hr
  refine RawHolds.holds_set ⟨fun _ => by exact_mod_cast hu, fun _ => hle.trans (hp.le_upper hr.2),
    fun hexponent => ?_, fun hfraction => by cases hfraction⟩
  have hlt := hp.lt_pow hexponent
  rw [abs_of_nonneg (hu.trans hle)] at hlt
  rw [abs_of_nonneg hu]
  exact hle.trans_lt hlt

/-- What `MDiv::computeRange` sets, and when. -/
theorem divComputeRange_cases {specialization : MIRType} {unsigned_ : Bool}
    (h : divComputeRange specialization unsigned_ lhs rhs = some r) :
    (lhs.hasInt32Bounds = true ∧ rhs.hasInt32Bounds = true) ∧
      (0 ≤ lhs.lower ∧ 1 ≤ rhs.lower ∧ r = set 0 lhs.upper true lhs.maxExponent ∨
        unsigned_ = true ∧ r = newUInt32Range 0 (BitVec.allOnes 32)) := by
  unfold divComputeRange at h
  split at h
  next => cases h
  next =>
    split at h
    next => cases h
    next hbounds =>
      rw [Bool.not_eq_true, Bool.or_eq_false_iff, Bool.not_eq_false', Bool.not_eq_false'] at hbounds
      refine ⟨hbounds, ?_⟩
      split at h
      next hsigned => exact .inl ⟨hsigned.1, hsigned.2, (Option.some.inj h).symm⟩
      next =>
        split at h
        next hunsigned => exact .inr ⟨hunsigned.1, (Option.some.inj h).symm⟩
        next => cases h

/-- The ranges of remainders and divisions are sound. An unsigned node takes its operands for uint32 values, and its
division returns one. A remainder becomes unsigned only where that makes no difference. -/
theorem modulus_division_sound (specialization : MIRType) (unsigned_ : Bool) (lhs rhs : Range)
    (hlhs : Int32Fields lhs) (hrhs : Int32Fields rhs) :
    (∀ r, (modComputeRange specialization unsigned_ lhs rhs).2 = some r →
      ((modComputeRange specialization unsigned_ lhs rhs).1 = false → ∀ p q : ℚ, lhs.Holds (.finite p) →
        rhs.Holds (.finite q) → r.Holds (.finite (jsRemainder p q)) ∧ |jsRemainder p q| < |q| ∧
          |jsRemainder p q| ≤ |p| ∧ 0 ≤ p * jsRemainder p q) ∧
      ((modComputeRange specialization unsigned_ lhs rhs).1 = true → ∀ x y : BitVec 32,
        lhs.Holds (.finite x.toInt) → rhs.Holds (.finite y.toInt) → r.Holds (.finite ((x % y).toNat : ℤ)))) ∧
    (unsigned_ = false → (modComputeRange specialization unsigned_ lhs rhs).1 = true → ∀ p q : ℚ,
      lhs.Holds (.finite p) → rhs.Holds (.finite q) → ∃ x y : BitVec 32, p = x.toInt ∧ q = y.toInt ∧
        jsRemainder p q = (x % y).toNat) ∧
    ∀ r, divComputeRange specialization unsigned_ lhs rhs = some r →
      (unsigned_ = false → ∀ p q : ℚ, lhs.Holds (.finite p) → rhs.Holds (.finite q) →
        r.Holds (.finite (p / q))) ∧
      (unsigned_ = true → ∀ x y : BitVec 32, lhs.Holds (.finite x.toInt) → rhs.Holds (.finite y.toInt) →
        r.Holds (.finite ((x / y).toNat : ℤ))) := by
  refine ⟨fun r hr => ?_, ?_, fun r hr => ?_⟩
  · obtain ⟨hleft, hright, hzero, hcases⟩ := modComputeRange_cases hr
    have hne {q : ℚ} (hq : rhs.Holds (.finite q)) : q ≠ 0 := by
      rintro rfl
      rw [hasInt32Bounds, Bool.and_eq_true] at hright
      exact hzero ⟨by exact_mod_cast hq.lower_le hright.1, by exact_mod_cast hq.le_upper hright.2⟩
    refine ⟨fun hsigned p q hp hq => ?_, fun hunsigned x y hx hy => ?_⟩
    · rcases hcases with ⟨hunsigned, -⟩ | ⟨-, rhsAbsBound, hbound, rfl⟩
      · cases hunsigned.symm.trans hsigned
      · exact ⟨holds_remainder hleft hright hp hq (hne hq) hbound, jsRemainder_spec p (hne hq)⟩
    · rcases hcases with ⟨-, rfl⟩ | ⟨hsigned, -⟩
      · refine holds_unsignedRemainder (toNat_le_uint32Bound hlhs hleft hx)
          (toNat_le_uint32Bound hrhs hright hy) ?_
        rintro rfl
        exact hne hy (by simp)
      · cases hunsigned.symm.trans hsigned
  · rintro rfl hunsigned p q hp hq
    obtain ⟨hleft, hright, hlower, hpos, hfraction, hfraction'⟩ := modComputeRange_unsigned hunsigned
    obtain ⟨x, hx, hx'⟩ := exists_nonneg_int32 hlhs hleft hlower hfraction hp
    obtain ⟨y, hy, hy'⟩ := exists_nonneg_int32 hrhs hright hpos.le hfraction' hq
    refine ⟨x, y, hx, hy, ?_⟩
    rw [hx', hy', jsRemainder_natCast, BitVec.toNat_umod]
  · obtain ⟨⟨hleft, hright⟩, hcases⟩ := divComputeRange_cases hr
    rw [hasInt32Bounds, Bool.and_eq_true] at hright
    refine ⟨fun hsigned p q hp hq => ?_, fun hunsigned x y hx hy => ?_⟩
    · rcases hcases with ⟨hlower, hone, rfl⟩ | ⟨hunsigned, -⟩
      · have hp0 : 0 ≤ p := by
          rw [hasInt32Bounds, Bool.and_eq_true] at hleft
          have hcast : (0 : ℚ) ≤ lhs.lower := by exact_mod_cast hlower
          exact hcast.trans (hp.lower_le hleft.1)
        have hq1 : 1 ≤ q := by
          have hcast : (1 : ℚ) ≤ rhs.lower := by exact_mod_cast hone
          exact hcast.trans (hq.lower_le hright.1)
        exact holds_quotient hleft hp (div_nonneg hp0 (zero_le_one.trans hq1)) (div_le_self hp0 hq1)
      · cases hunsigned.symm.trans hsigned
    · rcases hcases with ⟨hlower, hone, rfl⟩ | ⟨-, rfl⟩
      · have hx0 : 0 ≤ x.toInt := by
          rw [hasInt32Bounds, Bool.and_eq_true] at hleft
          have hcast : (lhs.lower : ℚ) ≤ x.toInt := hx.lower_le hleft.1
          exact hlower.trans (by exact_mod_cast hcast)
        refine holds_quotient hleft hx (by positivity) ?_
        rw [BitVec.toNat_udiv, (toNat_of_nonneg hx0).2]
        exact_mod_cast Nat.div_le_self x.toNat y.toNat
      · exact holds_newUInt32Range (Nat.zero_le _) (toNat_le_allOnes _)

/-- A remainder by a power of two. -/
theorem modulus_division_sound_eight :
    (set (-7) 7 false 3).Holds (.finite (jsRemainder (-9) 8)) := by
  have hlhs : (set (-9) 100 false 6).Holds (.finite (-9)) :=
    RawHolds.holds_set ⟨fun _ => by norm_num, fun _ => by norm_num, fun _ => by norm_num, fun _ => ⟨-9, by norm_num⟩⟩
  have hrhs : (set 8 8 false 3).Holds (.finite 8) :=
    RawHolds.holds_set ⟨fun _ => by norm_num, fun _ => by norm_num, fun _ => by norm_num, fun _ => ⟨8, by norm_num⟩⟩
  exact (((modulus_division_sound .int32 false (set (-9) 100 false 6) (set 8 8 false 3)
    ⟨⟨by decide, by decide⟩, by decide, by decide⟩ ⟨⟨by decide, by decide⟩, by decide, by decide⟩).1 _
    (by decide)).1 (by decide) (-9) 8 hlhs hrhs).1

/-- An unsigned quotient that is not rounded is not in the range of the node. -/
theorem not_holds_unsignedQuotient :
    divComputeRange .int32 true (set (-5) (-5) false 2) (set 2 2 false 1) =
        some (newUInt32Range 0 (BitVec.allOnes 32)) ∧
      (set (-5) (-5) false 2).Holds (.finite (-5)) ∧ (set 2 2 false 1).Holds (.finite 2) ∧
      ¬ (newUInt32Range 0 (BitVec.allOnes 32)).Holds (.finite ((BitVec.ofInt 32 (-5)).toNat / 2)) := by
  refine ⟨by decide, ?_, ?_, ?_⟩
  · exact RawHolds.holds_set
      ⟨fun _ => by norm_num, fun _ => by norm_num, fun _ => by norm_num, fun _ => ⟨-5, by norm_num⟩⟩
  · exact RawHolds.holds_set
      ⟨fun _ => by norm_num, fun _ => by norm_num, fun _ => by norm_num, fun _ => ⟨2, by norm_num⟩⟩
  · intro hholds
    obtain ⟨z, hz⟩ := hholds.integral (by decide)
    have hnat : (BitVec.ofInt 32 (-5)).toNat = 4294967291 := by decide
    rw [hnat, div_eq_iff (by norm_num)] at hz
    have hint : (4294967291 : ℤ) = z * 2 := by exact_mod_cast hz
    omega

end SpiderMonkey.Jit.Range
