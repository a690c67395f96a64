import SpiderMonkey.Jit.Range
import SpiderMonkey.Lib.ExtRat
import Mathlib.Tactic.NormNum
import Mathlib.Tactic.Positivity
import Mathlib.Tactic.GCongr
import Mathlib.Tactic.Ring

/-!
# Soundness of range arithmetic

The set of values a range stands for, and the proof that each operation keeps the exact
result of its operands. The special exponent codes put no bound on finite values, and a
range with both int32 bounds holds no infinity and no NaN whatever its exponent says.

Each operation first meets `rawInitialize` or `set`, so the optimizer is handled once: it
never removes a value.
-/

namespace SpiderMonkey.Jit

namespace Range

/-- The finite values allowed by the fields of a range. -/
structure HoldsFinite (r : Range) (q : ℚ) : Prop where
  lower_le : r.hasInt32LowerBound = true → (r.lower : ℚ) ≤ q
  le_upper : r.hasInt32UpperBound = true → q ≤ r.upper
  lt_pow : r.maxExponent ≤ maxFiniteExponent → |q| < 2 ^ (r.maxExponent + 1)
  integral : r.canHaveFractionalPart = false → ∃ z : ℤ, q = z

/-- The values a range stands for. -/
def Holds (r : Range) : ExtRat → Prop
  | .finite q => r.HoldsFinite q
  | .posInf => r.hasInt32UpperBound = false ∧ r.canBeInfiniteOrNaN = true
  | .negInf => r.hasInt32LowerBound = false ∧ r.canBeInfiniteOrNaN = true
  | .nan => r.hasInt32Bounds = false ∧ r.canBeNaN = true

/-- The NaN code also admits the infinities. -/
theorem canBeInfiniteOrNaN_of_canBeNaN {r : Range} (h : r.canBeNaN = true) :
    r.canBeInfiniteOrNaN = true := by
  simp only [canBeNaN, beq_iff_eq] at h
  simp [canBeInfiniteOrNaN, h, includesInfinity, includesInfinityAndNaN, maxFiniteExponent]

/-- Any stored lower bound is a bound on the int32 values. -/
theorem AssertInvariants.lower_le_zero {r : Range} (h : r.AssertInvariants)
    (hzero : r.Holds (.finite 0)) : r.lower ≤ 0 := by
  by_cases hl : r.hasInt32LowerBound = true
  · exact_mod_cast hzero.lower_le hl
  · rw [h.lower_eq (by simpa using hl)]
    decide

/-- Any stored upper bound is a bound on the int32 values. -/
theorem AssertInvariants.zero_le_upper {r : Range} (h : r.AssertInvariants)
    (hzero : r.Holds (.finite 0)) : 0 ≤ r.upper := by
  by_cases hu : r.hasInt32UpperBound = true
  · exact_mod_cast hzero.le_upper hu
  · rw [h.upper_eq (by simpa using hu)]
    decide

/-- A range holding zero admits it by its stored bounds. -/
theorem AssertInvariants.canBeZero {r : Range} (h : r.AssertInvariants)
    (hzero : r.Holds (.finite 0)) : r.canBeZero = true := by
  simp [Range.canBeZero, h.lower_le_zero hzero, h.zero_le_upper hzero]

/-- The magnitude of a value between two integers is at most the larger endpoint magnitude. -/
theorem abs_le_max_natAbs {l u : ℤ} {q : ℚ} (hl : (l : ℚ) ≤ q) (hu : q ≤ u) :
    |q| ≤ ((max l.natAbs u.natAbs : ℕ) : ℚ) := by
  have hcast (z : ℤ) : ((z.natAbs : ℕ) : ℚ) = |(z : ℚ)| := by
    rw [Nat.cast_natAbs, Int.cast_abs]
  rw [Nat.cast_max, hcast, hcast]
  rcases abs_cases q with ⟨heq, hq⟩ | ⟨heq, hq⟩
  · rw [heq]
    exact (hu.trans (le_abs_self _)).trans (le_max_right _ _)
  · rw [heq]
    exact ((neg_le_neg hl).trans (neg_le_abs _)).trans (le_max_left _ _)

/-- The exponent implied by the bounds bounds every value between them. -/
theorem abs_lt_of_bounds {r : Range} {q : ℚ} (hl : (r.lower : ℚ) ≤ q) (hu : q ≤ r.upper) :
    |q| < 2 ^ (r.exponentImpliedByInt32Bounds + 1) := by
  have hlog : max r.lower.natAbs r.upper.natAbs < 2 ^ (r.exponentImpliedByInt32Bounds + 1) :=
    Nat.lt_log2_self
  calc |q| ≤ ((max r.lower.natAbs r.upper.natAbs : ℕ) : ℚ) := abs_le_max_natAbs hl hu
    _ < ((2 ^ (r.exponentImpliedByInt32Bounds + 1) : ℕ) : ℚ) := by exact_mod_cast hlog
    _ = 2 ^ (r.exponentImpliedByInt32Bounds + 1) := by push_cast; rfl

/-- A range with both bounds holds finite values only. -/
theorem Holds.exists_finite {r : Range} {x : ExtRat} (h : r.Holds x)
    (hb : r.hasInt32Bounds = true) : ∃ q, x = .finite q := by
  simp only [hasInt32Bounds, Bool.and_eq_true] at hb
  cases x with
  | finite q => exact ⟨q, rfl⟩
  | posInf => simp [Holds, hb.2] at h
  | negInf => simp [Holds, hb.1] at h
  | nan => simp [Holds, hasInt32Bounds, hb.1, hb.2] at h

/-- The optimizer removes no value. -/
theorem Holds.optimize {r : Range} {x : ExtRat} (h : r.Holds x) : r.optimize.Holds x := by
  unfold Range.optimize
  split
  next hb =>
    obtain ⟨q, rfl⟩ := h.exists_finite hb
    simp only [hasInt32Bounds, Bool.and_eq_true] at hb
    have hexp : r.optimizeExponent.HoldsFinite q := by
      unfold optimizeExponent
      split
      · exact ⟨h.lower_le, h.le_upper, fun _ => abs_lt_of_bounds (h.lower_le hb.1) (h.le_upper hb.2),
          h.integral⟩
      · exact h
    have hflags : r.optimizeExponent.hasInt32LowerBound = true ∧
        r.optimizeExponent.hasInt32UpperBound = true := by
      unfold optimizeExponent
      split <;> exact hb
    change (r.optimizeExponent.optimizeFraction).HoldsFinite q
    unfold optimizeFraction
    split
    next hf =>
      simp only [Bool.and_eq_true, beq_iff_eq] at hf
      refine ⟨hexp.lower_le, hexp.le_upper, hexp.lt_pow, fun _ => ⟨r.optimizeExponent.lower, ?_⟩⟩
      exact le_antisymm (hf.2 ▸ hexp.le_upper hflags.2) (hexp.lower_le hflags.1)
    next => exact hexp
  next => exact h

/-- The values allowed by sixty-four-bit bounds, a fraction flag and an exponent, where a bound
outside int32 on its own side is no bound. -/
def RawHolds (l h : ℤ) (f : Bool) (e : ℕ) : ExtRat → Prop
  | .finite q => (jsvalIntMin ≤ l → (l : ℚ) ≤ q) ∧ (h ≤ jsvalIntMax → q ≤ h) ∧
      (e ≤ maxFiniteExponent → |q| < 2 ^ (e + 1)) ∧ (f = false → ∃ z : ℤ, q = z)
  | .posInf => jsvalIntMax < h ∧ includesInfinity ≤ e
  | .negInf => l < jsvalIntMin ∧ includesInfinity ≤ e
  | .nan => (l < jsvalIntMin ∨ jsvalIntMax < h) ∧ e = includesInfinityAndNaN

/-- The clamped lower bound, its flag and the untouched fields. -/
theorem setLowerInit_cases (r : Range) (x : ℤ) :
    (x < jsvalIntMin ∧ r.setLowerInit x =
      { r with lower := jsvalIntMin, hasInt32LowerBound := false }) ∨
    (jsvalIntMin ≤ x ∧ r.setLowerInit x =
      { r with lower := min x jsvalIntMax, hasInt32LowerBound := true }) := by
  unfold setLowerInit
  rcases lt_or_ge x jsvalIntMin with hx | hx
  · have hmax : ¬ jsvalIntMax < x := not_lt.mpr (hx.le.trans (by decide))
    exact Or.inl ⟨hx, by simp [hmax, hx]⟩
  · refine Or.inr ⟨hx, ?_⟩
    rcases lt_or_ge jsvalIntMax x with hmax | hmax
    · simp [hmax, hmax.le]
    · simp [not_lt.mpr hmax, not_lt.mpr hx, hmax]

/-- The clamped upper bound, its flag and the untouched fields. -/
theorem setUpperInit_cases (r : Range) (x : ℤ) :
    (jsvalIntMax < x ∧ r.setUpperInit x =
      { r with upper := jsvalIntMax, hasInt32UpperBound := false }) ∨
    (x ≤ jsvalIntMax ∧ r.setUpperInit x =
      { r with upper := max x jsvalIntMin, hasInt32UpperBound := true }) := by
  unfold setUpperInit
  rcases lt_or_ge jsvalIntMax x with hmax | hmax
  · exact Or.inl ⟨hmax, by simp [hmax]⟩
  · refine Or.inr ⟨hmax, ?_⟩
    rcases lt_or_ge x jsvalIntMin with hx | hx
    · simp [not_lt.mpr hmax, hx, hx.le]
    · simp [not_lt.mpr hmax, not_lt.mpr hx, hx]

/-- A value the raw bounds allow is held by the range built from them. -/
theorem RawHolds.holds_set {l h : ℤ} {f : Bool} {e : ℕ} {x : ExtRat} (hx : RawHolds l h f e x) :
    (set l h f e).Holds x := by
  apply Holds.optimize
  rcases setLowerInit_cases ⟨0, false, 0, false, f, e⟩ l with ⟨hl, heq⟩ | ⟨hl, heq⟩ <;> rw [heq] <;>
  rcases setUpperInit_cases _ h with ⟨hh, heq'⟩ | ⟨hh, heq'⟩ <;> rw [heq'] <;>
  cases x with
  | finite q =>
    obtain ⟨hlower, hupper, hexp, hint⟩ := hx
    refine ⟨fun hflag => ?_, fun hflag => ?_, hexp, hint⟩ <;> simp at hflag
    all_goals
      first
        | exact le_trans (by exact_mod_cast min_le_left _ _) (hlower hl)
        | exact le_trans (hupper hh) (by exact_mod_cast le_max_left _ _)
  | _ => simp_all [RawHolds, Holds, hasInt32Bounds, canBeInfiniteOrNaN, canBeNaN]; try omega

/-- A value allowed by raw fields is held by the range initialized with them. -/
theorem holds_rawInitialize {l h : ℤ} {lb hb f : Bool} {e : ℕ} {x : ExtRat}
    (hx : (⟨l, lb, h, hb, f, e⟩ : Range).Holds x) : (rawInitialize l lb h hb f e).Holds x :=
  Holds.optimize hx

/-- The mirror image of a range, which turns a difference into a sum. -/
def negated (r : Range) : Range :=
  ⟨-r.upper, r.hasInt32UpperBound, -r.lower, r.hasInt32LowerBound, r.canHaveFractionalPart,
    r.maxExponent⟩

/-- A range holds a value exactly as its mirror image holds the negation. -/
theorem Holds.negated {r : Range} {x : ExtRat} (h : r.Holds x) : r.negated.Holds x.neg := by
  cases x with
  | finite q =>
    refine ⟨fun hb => ?_, fun hb => ?_, fun he => ?_, fun hf => ?_⟩
    · simpa [Range.negated] using h.le_upper hb
    · simpa [Range.negated] using h.lower_le hb
    · simpa [Range.negated] using h.lt_pow he
    · obtain ⟨z, hz⟩ := h.integral hf
      exact ⟨-z, by simp [hz]⟩
  | posInf => exact h
  | negInf => exact h
  | nan =>
    refine ⟨?_, h.2⟩
    have hb := h.1
    simp only [hasInt32Bounds, Range.negated] at hb ⊢
    rwa [Bool.and_comm]

/-- The mirror image of a range holds the negations of its finite values. -/
theorem HoldsFinite.negated {r : Range} {q : ℚ} (h : r.HoldsFinite q) :
    r.negated.HoldsFinite (-q) := by
  have hq : r.Holds (.finite q) := h
  exact hq.negated

/-- A difference is the sum with the mirrored subtrahend. -/
theorem sub_eq_add_negated (lhs rhs : Range) : lhs.sub rhs = lhs.add rhs.negated := by
  simp only [Range.sub, Range.add, negated, addExponent, canBeInfiniteOrNaN, sub_eq_add_neg]
  rfl

/-- The exponent of a sum bounds the magnitude of a finite sum. -/
theorem abs_add_lt_addExponent {lhs rhs : Range} {p q : ℚ} (hp : lhs.HoldsFinite p)
    (hq : rhs.HoldsFinite q) (he : addExponent lhs rhs ≤ maxFiniteExponent) :
    |p + q| < 2 ^ (addExponent lhs rhs + 1) := by
  have hcode : ¬ (lhs.canBeInfiniteOrNaN && rhs.canBeInfiniteOrNaN) = true := by
    intro hboth
    rw [addExponent, if_pos hboth] at he
    exact absurd he (by decide)
  rw [addExponent, if_neg hcode] at he ⊢
  dsimp only at he ⊢
  split at he
  · rename_i hmax
    rw [if_pos hmax]
    have hlhs : |p| < 2 ^ (max lhs.maxExponent rhs.maxExponent + 1) :=
      (hp.lt_pow ((le_max_left _ _).trans hmax)).trans_le
        (pow_le_pow_right₀ one_le_two (Nat.succ_le_succ (le_max_left _ _)))
    have hrhs : |q| < 2 ^ (max lhs.maxExponent rhs.maxExponent + 1) :=
      (hq.lt_pow ((le_max_right _ _).trans hmax)).trans_le
        (pow_le_pow_right₀ one_le_two (Nat.succ_le_succ (le_max_right _ _)))
    calc |p + q| ≤ |p| + |q| := abs_add_le p q
      _ < 2 ^ (max lhs.maxExponent rhs.maxExponent + 1) +
          2 ^ (max lhs.maxExponent rhs.maxExponent + 1) := add_lt_add hlhs hrhs
      _ = 2 ^ (max lhs.maxExponent rhs.maxExponent + 1 + 1) := by ring
  · rename_i hmax
    exact absurd he hmax

/-- An infinite operand makes the exponent of a sum an infinity code. -/
theorem includesInfinity_le_addExponent (lhs rhs : Range)
    (h : lhs.canBeInfiniteOrNaN = true ∨ rhs.canBeInfiniteOrNaN = true) :
    includesInfinity ≤ addExponent lhs rhs := by
  have hmax : includesInfinity ≤ max lhs.maxExponent rhs.maxExponent := by
    simpa [canBeInfiniteOrNaN] using h
  unfold addExponent
  split
  · decide
  · dsimp only
    split <;> omega

/-- Two infinite operands, or a NaN operand, make the exponent of a sum the NaN code. -/
theorem addExponent_eq_nan {lhs rhs : Range} (hlhs : ExponentCode lhs.maxExponent)
    (hrhs : ExponentCode rhs.maxExponent)
    (h : lhs.canBeNaN = true ∨ rhs.canBeNaN = true ∨
      lhs.canBeInfiniteOrNaN = true ∧ rhs.canBeInfiniteOrNaN = true) :
    addExponent lhs rhs = includesInfinityAndNaN := by
  unfold addExponent
  split
  · rfl
  · rename_i hnot
    have hl := hlhs.le
    have hr := hrhs.le
    have hmax : max lhs.maxExponent rhs.maxExponent = includesInfinityAndNaN := by
      simp only [canBeNaN_iff, Bool.and_eq_true] at h hnot
      rcases h with h | h | h
      · omega
      · omega
      · exact absurd h hnot
    rw [hmax]
    rfl

/-- The exact sum of values of two ranges is in the range `add` computes. -/
theorem Holds.add {lhs rhs : Range} (hlhs : ExponentCode lhs.maxExponent)
    (hrhs : ExponentCode rhs.maxExponent) {x y : ExtRat} (hx : lhs.Holds x) (hy : rhs.Holds y) :
    (lhs.add rhs).Holds (x.add y) := by
  apply RawHolds.holds_set
  have hlower (h : lhs.hasInt32LowerBound = false ∨ rhs.hasInt32LowerBound = false) :
      (if (!lhs.hasInt32LowerBound || !rhs.hasInt32LowerBound) = true then noInt32LowerBound
        else lhs.lower + rhs.lower) < jsvalIntMin := by
    rw [if_pos (by simpa using h)]
    decide
  have hupper (h : lhs.hasInt32UpperBound = false ∨ rhs.hasInt32UpperBound = false) :
      jsvalIntMax < (if (!lhs.hasInt32UpperBound || !rhs.hasInt32UpperBound) = true then
        noInt32UpperBound else lhs.upper + rhs.upper) := by
    rw [if_pos (by simpa using h)]
    decide
  have hinf := includesInfinity_le_addExponent lhs rhs
  have hnan := addExponent_eq_nan hlhs hrhs
  have hmissing (r : Range) (h : r.hasInt32Bounds = false) :
      r.hasInt32LowerBound = false ∨ r.hasInt32UpperBound = false := by
    rwa [hasInt32Bounds, Bool.and_eq_false_iff] at h
  have hnanBounds (h : lhs.hasInt32Bounds = false ∨ rhs.hasInt32Bounds = false) :
      _ < jsvalIntMin ∨ jsvalIntMax < _ :=
    (h.elim (fun h => (hmissing _ h).imp (Or.inl ·) (Or.inl ·))
      (fun h => (hmissing _ h).imp (Or.inr ·) (Or.inr ·))).imp hlower hupper
  cases x with
  | finite p =>
    cases y with
    | finite q =>
      refine ⟨fun h => ?_, fun h => ?_, abs_add_lt_addExponent hx hy, fun hf => ?_⟩
      · have hl : ¬ (lhs.hasInt32LowerBound = false ∨ rhs.hasInt32LowerBound = false) :=
          fun hno => absurd (hlower hno) (not_lt.mpr h)
        simp only [not_or, Bool.not_eq_false] at hl
        simpa [hl.1, hl.2] using add_le_add (hx.lower_le hl.1) (hy.lower_le hl.2)
      · have hu : ¬ (lhs.hasInt32UpperBound = false ∨ rhs.hasInt32UpperBound = false) :=
          fun hno => absurd (hupper hno) (not_lt.mpr h)
        simp only [not_or, Bool.not_eq_false] at hu
        simpa [hu.1, hu.2] using add_le_add (hx.le_upper hu.1) (hy.le_upper hu.2)
      · simp only [Bool.or_eq_false_iff] at hf
        obtain ⟨a, ha⟩ := hx.integral hf.1
        obtain ⟨b, hb⟩ := hy.integral hf.2
        exact ⟨a + b, by simp [ha, hb]⟩
    | posInf => exact ⟨hupper (Or.inr hy.1), hinf (Or.inr hy.2)⟩
    | negInf => exact ⟨hlower (Or.inr hy.1), hinf (Or.inr hy.2)⟩
    | nan => exact ⟨hnanBounds (Or.inr hy.1), hnan (Or.inr (Or.inl hy.2))⟩
  | posInf =>
    cases y with
    | finite q => exact ⟨hupper (Or.inl hx.1), hinf (Or.inl hx.2)⟩
    | posInf => exact ⟨hupper (Or.inl hx.1), hinf (Or.inl hx.2)⟩
    | negInf => exact ⟨Or.inr (hupper (Or.inl hx.1)), hnan (Or.inr (Or.inr ⟨hx.2, hy.2⟩))⟩
    | nan => exact ⟨hnanBounds (Or.inr hy.1), hnan (Or.inr (Or.inl hy.2))⟩
  | negInf =>
    cases y with
    | finite q => exact ⟨hlower (Or.inl hx.1), hinf (Or.inl hx.2)⟩
    | posInf => exact ⟨Or.inl (hlower (Or.inl hx.1)), hnan (Or.inr (Or.inr ⟨hx.2, hy.2⟩))⟩
    | negInf => exact ⟨hlower (Or.inl hx.1), hinf (Or.inl hx.2)⟩
    | nan => exact ⟨hnanBounds (Or.inr hy.1), hnan (Or.inr (Or.inl hy.2))⟩
  | nan =>
    cases y <;> exact ⟨hnanBounds (Or.inl hx.1), hnan (Or.inl hx.2)⟩

/-- The exact difference of values of two ranges is in the range `sub` computes. -/
theorem Holds.sub {lhs rhs : Range} (hlhs : ExponentCode lhs.maxExponent)
    (hrhs : ExponentCode rhs.maxExponent) {x y : ExtRat} (hx : lhs.Holds x) (hy : rhs.Holds y) :
    (lhs.sub rhs).Holds (x.sub y) := by
  rw [sub_eq_add_negated]
  have hrhs' : ExponentCode rhs.negated.maxExponent := hrhs
  exact Holds.add hlhs hrhs' hx hy.negated

/-- Two finite operands: the exponent of a product bounds its magnitude. -/
theorem abs_mul_lt_mulExponent {lhs rhs : Range} {p q : ℚ} (hp : lhs.HoldsFinite p)
    (hq : rhs.HoldsFinite q) (he : mulExponent lhs rhs ≤ maxFiniteExponent) :
    |p * q| < 2 ^ (mulExponent lhs rhs + 1) := by
  unfold mulExponent at he ⊢
  split at he
  · rename_i hfinite
    rw [if_pos hfinite]
    simp only [Bool.and_eq_true, Bool.not_eq_true', ← Bool.not_eq_true, canBeInfiniteOrNaN_iff,
      not_le] at hfinite
    obtain ⟨hl, hr⟩ := hfinite
    dsimp only at he ⊢
    split at he
    · exact absurd he (by decide)
    · rename_i hle
      rw [if_neg hle, abs_mul]
      calc |p| * |q| < 2 ^ (lhs.maxExponent + 1) * 2 ^ (rhs.maxExponent + 1) :=
            mul_lt_mul'' (hp.lt_pow (Nat.le_of_lt_succ hl)) (hq.lt_pow (Nat.le_of_lt_succ hr))
              (abs_nonneg p) (abs_nonneg q)
        _ = 2 ^ (lhs.numBits + rhs.numBits - 1 + 1) := by
            rw [← pow_add]
            congr 1
  · split at he <;> exact absurd he (by decide)

/-- An infinite operand makes the exponent of a product an infinity code. -/
theorem includesInfinity_le_mulExponent (lhs rhs : Range)
    (h : lhs.canBeInfiniteOrNaN = true ∨ rhs.canBeInfiniteOrNaN = true) :
    includesInfinity ≤ mulExponent lhs rhs := by
  unfold mulExponent
  split
  · rename_i hfinite
    rcases h with h | h <;> simp [h] at hfinite
  · split <;> decide

/-- A NaN operand, or zero times an infinity, makes the exponent of a product the NaN code. -/
theorem mulExponent_eq_nan (lhs rhs : Range)
    (h : lhs.canBeNaN = true ∨ rhs.canBeNaN = true ∨
      lhs.canBeZero = true ∧ rhs.canBeInfiniteOrNaN = true ∨
      rhs.canBeZero = true ∧ lhs.canBeInfiniteOrNaN = true) :
    mulExponent lhs rhs = includesInfinityAndNaN := by
  unfold mulExponent
  split
  · rename_i hfinite
    simp only [Bool.and_eq_true, Bool.not_eq_true'] at hfinite
    rcases h with h | h | h | h
    · simp [canBeInfiniteOrNaN_of_canBeNaN h] at hfinite
    · simp [canBeInfiniteOrNaN_of_canBeNaN h] at hfinite
    · simp [h.2] at hfinite
    · simp [h.2] at hfinite
  · split
    · rename_i hno
      rcases h with h | h | h | h <;> simp [h] at hno
    · rfl

/-- A range built without bounds holds both infinities once its exponent admits them. -/
theorem rawHolds_infOfSign {f : Bool} {e : ℕ} {q : ℚ} (he : includesInfinity ≤ e)
    (hnan : q = 0 → e = includesInfinityAndNaN) :
    RawHolds noInt32LowerBound noInt32UpperBound f e (ExtRat.infOfSign q) := by
  rcases ExtRat.infOfSign_cases q with h | h | ⟨hq, h⟩ <;> rw [h]
  · exact ⟨by decide, he⟩
  · exact ⟨by decide, he⟩
  · exact ⟨Or.inl (by decide), hnan hq⟩

/-- Without bounds, the exponent and the fraction flag of a product account for every case. -/
theorem rawHolds_mul_unbounded {lhs rhs : Range} (hlhs : lhs.AssertInvariants)
    (hrhs : rhs.AssertInvariants) {x y : ExtRat} (hx : lhs.Holds x) (hy : rhs.Holds y) :
    RawHolds noInt32LowerBound noInt32UpperBound
      (lhs.canHaveFractionalPart || rhs.canHaveFractionalPart) (mulExponent lhs rhs) (x.mul y) := by
  have hinf := includesInfinity_le_mulExponent lhs rhs
  have hnan := mulExponent_eq_nan lhs rhs
  have hnanCase (h : mulExponent lhs rhs = includesInfinityAndNaN) :
      RawHolds noInt32LowerBound noInt32UpperBound
        (lhs.canHaveFractionalPart || rhs.canHaveFractionalPart) (mulExponent lhs rhs) .nan :=
    ⟨Or.inl (by decide), h⟩
  have hleft (q : ℚ) (h : lhs.Holds (.finite q)) (hq : q = 0) : lhs.canBeZero = true :=
    hlhs.canBeZero (hq ▸ h)
  have hright (q : ℚ) (h : rhs.Holds (.finite q)) (hq : q = 0) : rhs.canBeZero = true :=
    hrhs.canBeZero (hq ▸ h)
  cases x with
  | finite p =>
    cases y with
    | finite q =>
      refine ⟨fun h => absurd h (by decide), fun h => absurd h (by decide),
        abs_mul_lt_mulExponent hx hy, fun hf => ?_⟩
      simp only [Bool.or_eq_false_iff] at hf
      obtain ⟨a, ha⟩ := hx.integral hf.1
      obtain ⟨b, hb⟩ := hy.integral hf.2
      exact ⟨a * b, by simp [ha, hb]⟩
    | posInf =>
      exact rawHolds_infOfSign (hinf (Or.inr hy.2)) fun hq =>
        hnan (Or.inr (Or.inr (Or.inl ⟨hleft p hx hq, hy.2⟩)))
    | negInf =>
      exact rawHolds_infOfSign (hinf (Or.inr hy.2)) fun hq =>
        hnan (Or.inr (Or.inr (Or.inl ⟨hleft p hx (neg_eq_zero.mp hq), hy.2⟩)))
    | nan => exact hnanCase (hnan (Or.inr (Or.inl hy.2)))
  | posInf =>
    cases y with
    | finite q =>
      exact rawHolds_infOfSign (hinf (Or.inl hx.2)) fun hq =>
        hnan (Or.inr (Or.inr (Or.inr ⟨hright q hy hq, hx.2⟩)))
    | posInf => exact ⟨by decide, hinf (Or.inl hx.2)⟩
    | negInf => exact ⟨by decide, hinf (Or.inl hx.2)⟩
    | nan => exact hnanCase (hnan (Or.inr (Or.inl hy.2)))
  | negInf =>
    cases y with
    | finite q =>
      exact rawHolds_infOfSign (hinf (Or.inl hx.2)) fun hq =>
        hnan (Or.inr (Or.inr (Or.inr ⟨hright q hy (neg_eq_zero.mp hq), hx.2⟩)))
    | posInf => exact ⟨by decide, hinf (Or.inl hx.2)⟩
    | negInf => exact ⟨by decide, hinf (Or.inl hx.2)⟩
    | nan => exact hnanCase (hnan (Or.inr (Or.inl hy.2)))
  | nan => cases y <;> exact hnanCase (hnan (Or.inl hx.2))

/-- The exact product of values of two ranges is in the range `mul` computes. -/
theorem Holds.mul {lhs rhs : Range} (hlhs : lhs.AssertInvariants) (hrhs : rhs.AssertInvariants)
    {x y : ExtRat} (hx : lhs.Holds x) (hy : rhs.Holds y) : (lhs.mul rhs).Holds (x.mul y) := by
  unfold Range.mul
  dsimp only
  split
  · exact (rawHolds_mul_unbounded hlhs hrhs hx hy).holds_set
  · rename_i hbounds
    simp only [missingAnyInt32Bounds, Bool.or_eq_true, Bool.not_eq_true', not_or,
      Bool.not_eq_false] at hbounds
    obtain ⟨⟨⟨hll, hlu⟩, hrl⟩, hru⟩ := hbounds
    obtain ⟨p, rfl⟩ := hx.exists_finite (by simp [hasInt32Bounds, hll, hlu])
    obtain ⟨q, rfl⟩ := hy.exists_finite (by simp [hasInt32Bounds, hrl, hru])
    obtain ⟨-, -, hexp, hint⟩ := rawHolds_mul_unbounded hlhs hrhs hx hy
    apply RawHolds.holds_set
    refine ⟨fun _ => ?_, fun _ => ?_, hexp, hint⟩
    · push_cast
      exact min_corner_le_mul (hx.lower_le hll) (hx.le_upper hlu) (hy.lower_le hrl) (hy.le_upper hru)
    · push_cast
      exact mul_le_max_corner (hx.lower_le hll) (hx.le_upper hlu) (hy.lower_le hrl) (hy.le_upper hru)

/-- The absolute value of a value of a range is in the range `abs` computes. -/
theorem Holds.abs {op : Range} (hop : op.AssertInvariants) {x : ExtRat} (hx : op.Holds x) :
    op.abs.Holds x.abs := by
  apply holds_rawInitialize
  have hupper (h : op.hasInt32LowerBound = false ∨ op.hasInt32UpperBound = false) :
      (op.hasInt32LowerBound && op.hasInt32UpperBound && op.lower != jsvalIntMin) = false := by
    rcases h with h | h <;> simp [h]
  cases x with
  | finite q =>
    refine ⟨fun _ => ?_, fun hb => ?_, fun he => ?_, fun hf => ?_⟩
    · have hl : (op.lower : ℚ) ≤ |q| := by
        by_cases hlb : op.hasInt32LowerBound = true
        · exact (hx.lower_le hlb).trans (le_abs_self q)
        · rw [hop.lower_eq (by simpa using hlb)]
          exact le_trans (by norm_num [jsvalIntMin]) (abs_nonneg q)
      have hu : ((if op.upper = jsvalIntMin then jsvalIntMax else -op.upper : ℤ) : ℚ) ≤ |q| := by
        by_cases hub : op.hasInt32UpperBound = true
        · have hneg : -(op.upper : ℚ) ≤ |q| := (neg_le_neg (hx.le_upper hub)).trans (neg_le_abs q)
          split
          · rename_i heq
            rw [heq] at hneg
            exact le_trans (by norm_num [jsvalIntMin, jsvalIntMax]) hneg
          · exact_mod_cast hneg
        · rw [hop.upper_eq (by simpa using hub)]
          exact le_trans (by norm_num [jsvalIntMin, jsvalIntMax]) (abs_nonneg q)
      push_cast at hu ⊢
      exact max_le (max_le (abs_nonneg q) hl) hu
    · simp only [Bool.and_eq_true, bne_iff_ne, ne_eq] at hb
      obtain ⟨⟨hlb, hub⟩, hne⟩ := hb
      rw [if_neg hne]
      push_cast
      refine abs_le'.mpr ⟨?_, ?_⟩
      · exact (hx.le_upper hub).trans ((le_max_right _ _).trans (le_max_left _ _))
      · exact (neg_le_neg (hx.lower_le hlb)).trans (le_max_right _ _)
    · simpa using hx.lt_pow he
    · obtain ⟨z, hz⟩ := hx.integral hf
      exact ⟨|z|, by simp [hz]⟩
  | posInf => exact ⟨hupper (Or.inr hx.1), hx.2⟩
  | negInf => exact ⟨hupper (Or.inl hx.1), hx.2⟩
  | nan =>
    have hb := hx.1
    simp only [hasInt32Bounds, Bool.and_eq_false_iff] at hb
    exact ⟨by simp [hasInt32Bounds, hupper hb], hx.2⟩

/-- Raising the exponent keeps the magnitude bound of a finite value. -/
theorem HoldsFinite.lt_pow_of_le {r : Range} {q : ℚ} (h : r.HoldsFinite q) {e : ℕ}
    (hr : r.maxExponent ≤ e) (he : e ≤ maxFiniteExponent) : |q| < 2 ^ (e + 1) :=
  (h.lt_pow (hr.trans he)).trans_le (pow_le_pow_right₀ one_le_two (Nat.succ_le_succ hr))

/-- A range whose fields are all weaker holds every value. -/
theorem Holds.mono {r s : Range} {x : ExtRat} (hx : r.Holds x)
    (hlower : s.hasInt32LowerBound = true → r.hasInt32LowerBound = true ∧ s.lower ≤ r.lower)
    (hupper : s.hasInt32UpperBound = true → r.hasInt32UpperBound = true ∧ r.upper ≤ s.upper)
    (hfrac : s.canHaveFractionalPart = false → r.canHaveFractionalPart = false)
    (hexp : r.maxExponent ≤ s.maxExponent) (hcode : s.maxExponent ≤ includesInfinityAndNaN) :
    s.Holds x := by
  have hnoLower (h : r.hasInt32LowerBound = false) : s.hasInt32LowerBound = false :=
    Bool.eq_false_iff.mpr fun hs => by simp [(hlower hs).1] at h
  have hnoUpper (h : r.hasInt32UpperBound = false) : s.hasInt32UpperBound = false :=
    Bool.eq_false_iff.mpr fun hs => by simp [(hupper hs).1] at h
  have hinf (h : r.canBeInfiniteOrNaN = true) : s.canBeInfiniteOrNaN = true :=
    (canBeInfiniteOrNaN_iff s).mpr (((canBeInfiniteOrNaN_iff r).mp h).trans hexp)
  cases x with
  | finite q =>
    refine ⟨fun hb => ?_, fun hb => ?_, hx.lt_pow_of_le hexp, fun hf => hx.integral (hfrac hf)⟩
    · exact le_trans (by exact_mod_cast (hlower hb).2) (hx.lower_le (hlower hb).1)
    · exact (hx.le_upper (hupper hb).1).trans (by exact_mod_cast (hupper hb).2)
  | posInf => exact ⟨hnoUpper hx.1, hinf hx.2⟩
  | negInf => exact ⟨hnoLower hx.1, hinf hx.2⟩
  | nan =>
    refine ⟨?_, (canBeNaN_iff s).mpr (hcode.antisymm ?_)⟩
    · have hb := hx.1
      simp only [hasInt32Bounds, Bool.and_eq_false_iff] at hb ⊢
      exact hb.imp hnoLower hnoUpper
    · exact ((canBeNaN_iff r).mp hx.2).symm.le.trans hexp

/-- A value of a range is in its union with another. -/
theorem Holds.unionWith_left {r other : Range} (hr : ExponentCode r.maxExponent)
    (hother : ExponentCode other.maxExponent) {x : ExtRat} (hx : r.Holds x) :
    (r.unionWith other).Holds x := by
  refine holds_rawInitialize (hx.mono (fun hb => ?_) (fun hb => ?_) (fun hf => ?_)
    (le_max_left _ _) (max_le hr.le hother.le))
  · exact ⟨(Bool.and_eq_true_iff.mp hb).1, min_le_left _ _⟩
  · exact ⟨(Bool.and_eq_true_iff.mp hb).1, le_max_left _ _⟩
  · exact (Bool.or_eq_false_iff.mp hf).1

/-- The union does not depend on which range is widened. -/
theorem unionWith_comm (r other : Range) : r.unionWith other = other.unionWith r := by
  simp only [unionWith, min_comm r.lower, max_comm r.upper, max_comm r.maxExponent, Bool.and_comm,
    Bool.or_comm]

/-- The fields of a minimum, before they are optimized. -/
def rawMin (lhs rhs : Range) : Range where
  lower := min lhs.lower rhs.lower
  hasInt32LowerBound := lhs.hasInt32LowerBound && rhs.hasInt32LowerBound
  upper := min lhs.upper rhs.upper
  hasInt32UpperBound := lhs.hasInt32UpperBound || rhs.hasInt32UpperBound
  canHaveFractionalPart := lhs.canHaveFractionalPart || rhs.canHaveFractionalPart
  maxExponent := max lhs.maxExponent rhs.maxExponent

/-- Exchanging the operands exchanges nothing in the fields of a minimum. -/
theorem rawMin_comm (lhs rhs : Range) : rawMin lhs rhs = rawMin rhs lhs := by
  simp only [rawMin, min_comm lhs.lower, min_comm lhs.upper, max_comm lhs.maxExponent,
    Bool.and_comm, Bool.or_comm]

/-- The mirror image of a minimum of mirror images has the fields of a maximum. -/
theorem negated_rawMin_negated (lhs rhs : Range) :
    (rawMin lhs.negated rhs.negated).negated =
      ⟨max lhs.lower rhs.lower, lhs.hasInt32LowerBound || rhs.hasInt32LowerBound,
        max lhs.upper rhs.upper, lhs.hasInt32UpperBound && rhs.hasInt32UpperBound,
        lhs.canHaveFractionalPart || rhs.canHaveFractionalPart,
        max lhs.maxExponent rhs.maxExponent⟩ := by
  simp [rawMin, negated, min_neg_neg]

/-- A value below everything the other operand can be has the bounds of a minimum. -/
theorem HoldsFinite.rawMin {lhs rhs : Range} {q : ℚ} (hq : lhs.HoldsFinite q)
    (hupper : rhs.hasInt32UpperBound = true → q ≤ rhs.upper)
    (hl : lhs.hasInt32UpperBound = false → rhs.upper ≤ lhs.upper)
    (hr : rhs.hasInt32UpperBound = false → lhs.upper ≤ rhs.upper) :
    (rawMin lhs rhs).HoldsFinite q := by
  refine ⟨fun hb => ?_, fun hb => ?_, hq.lt_pow_of_le (le_max_left _ _), fun hf => ?_⟩
  · exact le_trans (by exact_mod_cast min_le_left _ _) (hq.lower_le (Bool.and_eq_true_iff.mp hb).1)
  · change q ≤ ((min lhs.upper rhs.upper : ℤ) : ℚ)
    by_cases hlu : lhs.hasInt32UpperBound = true
    · by_cases hru : rhs.hasInt32UpperBound = true
      · push_cast
        exact le_min (hq.le_upper hlu) (hupper hru)
      · rw [min_eq_left (hr (by simpa using hru))]
        exact hq.le_upper hlu
    · rw [min_eq_right (hl (by simpa using hlu))]
      exact hupper ((Bool.or_eq_true_iff.mp hb).resolve_left hlu)
  · exact hq.integral (Bool.or_eq_false_iff.mp hf).1

/-- The minimum of values of two ranges that cannot be NaN has the fields of a minimum. -/
theorem Holds.rawMin {lhs rhs : Range} {x y : ExtRat} (hx : lhs.Holds x) (hy : rhs.Holds y)
    (hxn : x ≠ .nan) (hyn : y ≠ .nan)
    (hl : lhs.hasInt32UpperBound = false → rhs.upper ≤ lhs.upper)
    (hr : rhs.hasInt32UpperBound = false → lhs.upper ≤ rhs.upper) :
    (rawMin lhs rhs).Holds (x.min y) := by
  have hinf (h : lhs.canBeInfiniteOrNaN = true ∨ rhs.canBeInfiniteOrNaN = true) :
      (Range.rawMin lhs rhs).canBeInfiniteOrNaN = true := by
    simpa [canBeInfiniteOrNaN, Range.rawMin] using h
  cases x with
  | nan => exact absurd rfl hxn
  | finite p =>
    cases y with
    | nan => exact absurd rfl hyn
    | finite q =>
      change (Range.rawMin lhs rhs).HoldsFinite (min p q)
      rcases le_total p q with hpq | hpq
      · rw [min_eq_left hpq]
        exact HoldsFinite.rawMin hx (fun h => hpq.trans (hy.le_upper h)) hl hr
      · rw [min_eq_right hpq, rawMin_comm]
        exact HoldsFinite.rawMin hy (fun h => hpq.trans (hx.le_upper h)) hr hl
    | posInf => exact HoldsFinite.rawMin hx (fun h => by simp [hy.1] at h) hl hr
    | negInf => exact ⟨by simp [Range.rawMin, hy.1], hinf (Or.inr hy.2)⟩
  | posInf =>
    cases y with
    | nan => exact absurd rfl hyn
    | finite q =>
      rw [rawMin_comm]
      exact HoldsFinite.rawMin hy (fun h => by simp [hx.1] at h) hr hl
    | posInf => exact ⟨by simp [Range.rawMin, hx.1, hy.1], hinf (Or.inl hx.2)⟩
    | negInf => exact ⟨by simp [Range.rawMin, hy.1], hinf (Or.inr hy.2)⟩
  | negInf =>
    cases y with
    | nan => exact absurd rfl hyn
    | _ => exact ⟨by simp [Range.rawMin, hx.1], hinf (Or.inl hx.2)⟩

/-- The minimum of values of two ranges is in the range `min` computes. -/
theorem Holds.min {lhs rhs r : Range} (hlhs : lhs.AssertInvariants) (hrhs : rhs.AssertInvariants)
    {x y : ExtRat} (hx : lhs.Holds x) (hy : rhs.Holds y) (hr : lhs.min rhs = some r) :
    r.Holds (x.min y) := by
  unfold Range.min at hr
  split at hr
  · cases hr
  · rename_i hnan
    cases hr
    simp only [Bool.or_eq_true, not_or] at hnan
    exact Holds.optimize (Holds.rawMin hx hy (fun h => hnan.1 (h ▸ hx).2) (fun h => hnan.2 (h ▸ hy).2)
      (fun h => hlhs.upper_eq h ▸ hrhs.upper_int32) (fun h => hrhs.upper_eq h ▸ hlhs.upper_int32))

/-- The maximum of values of two ranges is in the range `max` computes. -/
theorem Holds.max {lhs rhs r : Range} (hlhs : lhs.AssertInvariants) (hrhs : rhs.AssertInvariants)
    {x y : ExtRat} (hx : lhs.Holds x) (hy : rhs.Holds y) (hr : lhs.max rhs = some r) :
    r.Holds (x.max y) := by
  unfold Range.max at hr
  split at hr
  · cases hr
  · rename_i hnan
    cases hr
    simp only [Bool.or_eq_true, not_or] at hnan
    rw [ExtRat.max_eq_neg_min]
    -- A maximum is the mirror image of the minimum of the mirror images.
    have hmin := Holds.rawMin hx.negated hy.negated
      (fun h => hnan.1 (ExtRat.neg_eq_nan h ▸ hx).2) (fun h => hnan.2 (ExtRat.neg_eq_nan h ▸ hy).2)
      (fun h => neg_le_neg (hlhs.lower_eq h ▸ hrhs.lower_int32))
      (fun h => neg_le_neg (hrhs.lower_eq h ▸ hlhs.lower_int32))
    exact holds_rawInitialize (negated_rawMin_negated lhs rhs ▸ hmin.negated)

/-- The fields of an intersection, before any refinement. -/
def rawIntersect (lhs rhs : Range) : Range where
  lower := max lhs.lower rhs.lower
  hasInt32LowerBound := lhs.hasInt32LowerBound || rhs.hasInt32LowerBound
  upper := min lhs.upper rhs.upper
  hasInt32UpperBound := lhs.hasInt32UpperBound || rhs.hasInt32UpperBound
  canHaveFractionalPart := lhs.canHaveFractionalPart && rhs.canHaveFractionalPart
  maxExponent := min lhs.maxExponent rhs.maxExponent

/-- A finite value of two ranges is at most the smaller of their upper bounds, when it is real. -/
theorem HoldsFinite.le_rawIntersect_upper {lhs rhs : Range} (hlhs : lhs.AssertInvariants)
    (hrhs : rhs.AssertInvariants) {q : ℚ} (hp : lhs.HoldsFinite q) (hq : rhs.HoldsFinite q)
    (hb : (rawIntersect lhs rhs).hasInt32UpperBound = true) :
    q ≤ (rawIntersect lhs rhs).upper :=
  (HoldsFinite.rawMin hp hq.le_upper (fun h => hlhs.upper_eq h ▸ hrhs.upper_int32)
    (fun h => hrhs.upper_eq h ▸ hlhs.upper_int32)).le_upper hb

/-- A finite value of two ranges is at least the larger of their lower bounds, when it is real. -/
theorem HoldsFinite.rawIntersect_lower_le {lhs rhs : Range} (hlhs : lhs.AssertInvariants)
    (hrhs : rhs.AssertInvariants) {q : ℚ} (hp : lhs.HoldsFinite q) (hq : rhs.HoldsFinite q)
    (hb : (rawIntersect lhs rhs).hasInt32LowerBound = true) :
    ((rawIntersect lhs rhs).lower : ℚ) ≤ q := by
  have hpn : lhs.negated.HoldsFinite (-q) := hp.negated
  have hqn : rhs.negated.HoldsFinite (-q) := hq.negated
  have hmin : -q ≤ ((min (-lhs.lower) (-rhs.lower) : ℤ) : ℚ) :=
    (HoldsFinite.rawMin hpn hqn.le_upper
      (fun h => neg_le_neg (hlhs.lower_eq h ▸ hrhs.lower_int32))
      (fun h => neg_le_neg (hrhs.lower_eq h ▸ hlhs.lower_int32))).le_upper hb
  rw [min_neg_neg, Int.cast_neg] at hmin
  exact neg_le_neg_iff.mp hmin

/-- The stored bounds of ranges with a common non-NaN value do not conflict. -/
theorem rawIntersect_lower_le_upper {lhs rhs : Range} (hlhs : lhs.AssertInvariants)
    (hrhs : rhs.AssertInvariants) {x : ExtRat} (hx : lhs.Holds x) (hy : rhs.Holds x)
    (hxn : x ≠ .nan) : (rawIntersect lhs rhs).lower ≤ (rawIntersect lhs rhs).upper := by
  have hlowerMax : (rawIntersect lhs rhs).lower ≤ jsvalIntMax :=
    max_le (hlhs.lower_le_upper.trans hlhs.upper_int32) (hrhs.lower_le_upper.trans hrhs.upper_int32)
  have hupperMin : jsvalIntMin ≤ (rawIntersect lhs rhs).upper :=
    le_min (hlhs.lower_int32.trans hlhs.lower_le_upper) (hrhs.lower_int32.trans hrhs.lower_le_upper)
  have hnoUpper (hl : lhs.hasInt32UpperBound = false) (hr : rhs.hasInt32UpperBound = false) :
      (rawIntersect lhs rhs).upper = jsvalIntMax := by
    simp [rawIntersect, hlhs.upper_eq hl, hrhs.upper_eq hr]
  have hnoLower (hl : lhs.hasInt32LowerBound = false) (hr : rhs.hasInt32LowerBound = false) :
      (rawIntersect lhs rhs).lower = jsvalIntMin := by
    simp [rawIntersect, hlhs.lower_eq hl, hrhs.lower_eq hr]
  cases x with
  | nan => exact absurd rfl hxn
  | posInf => exact hnoUpper hx.1 hy.1 ▸ hlowerMax
  | negInf => exact hnoLower hx.1 hy.1 ▸ hupperMin
  | finite q =>
    by_cases hl : (rawIntersect lhs rhs).hasInt32LowerBound = true
    · by_cases hu : (rawIntersect lhs rhs).hasInt32UpperBound = true
      · exact_mod_cast (HoldsFinite.rawIntersect_lower_le hlhs hrhs hx hy hl).trans
          (HoldsFinite.le_rawIntersect_upper hlhs hrhs hx hy hu)
      · simp only [rawIntersect, Bool.or_eq_true, not_or, Bool.not_eq_true] at hu
        exact hnoUpper hu.1 hu.2 ▸ hlowerMax
    · simp only [rawIntersect, Bool.or_eq_true, not_or, Bool.not_eq_true] at hl
      exact hnoLower hl.1 hl.2 ▸ hupperMin

/-- A common value satisfies the unrefined fields of an intersection, unless it is NaN and both
bounds became real. -/
theorem Holds.rawIntersect {lhs rhs : Range} (hlhs : lhs.AssertInvariants)
    (hrhs : rhs.AssertInvariants) {x : ExtRat} (hx : lhs.Holds x) (hy : rhs.Holds x)
    (hnan : x = .nan → (rawIntersect lhs rhs).hasInt32Bounds = false) :
    (rawIntersect lhs rhs).Holds x := by
  have hinf (hl : lhs.canBeInfiniteOrNaN = true) (hr : rhs.canBeInfiniteOrNaN = true) :
      (Range.rawIntersect lhs rhs).canBeInfiniteOrNaN = true := by
    rw [canBeInfiniteOrNaN_iff] at *
    exact le_min hl hr
  cases x with
  | finite q =>
    refine ⟨HoldsFinite.rawIntersect_lower_le hlhs hrhs hx hy,
      HoldsFinite.le_rawIntersect_upper hlhs hrhs hx hy, fun he => ?_, fun hf => ?_⟩
    · simp only [Range.rawIntersect] at he ⊢
      rcases min_choice lhs.maxExponent rhs.maxExponent with h | h <;> rw [h] at he ⊢
      · exact hx.lt_pow he
      · exact hy.lt_pow he
    · simp only [Range.rawIntersect, Bool.and_eq_false_iff] at hf
      exact hf.elim hx.integral hy.integral
  | posInf => exact ⟨by simp [Range.rawIntersect, hx.1, hy.1], hinf hx.2 hy.2⟩
  | negInf => exact ⟨by simp [Range.rawIntersect, hx.1, hy.1], hinf hx.2 hy.2⟩
  | nan =>
    refine ⟨hnan rfl, ?_⟩
    rw [canBeNaN_iff] at *
    simp [Range.rawIntersect, (canBeNaN_iff _).mp hx.2, (canBeNaN_iff _).mp hy.2]

/-- Refining by an exponent of thirty-one or more changes nothing. -/
theorem refineInt32BoundsByExponent_of_le {e : ℕ} (he : maxInt32Exponent ≤ e) (l h : ℤ) :
    refineInt32BoundsByExponent e l h = (l, h) := by
  simp [refineInt32BoundsByExponent, not_lt.mpr he]

/-- An integer within the magnitude a small exponent allows meets the refined bounds as soon as
it meets the bounds it started from. -/
theorem refineInt32BoundsByExponent_spec {e : ℕ} (l h : ℤ) {z : ℤ} (he : e < maxInt32Exponent)
    (hz : |z| < 2 ^ (e + 1)) :
    (l ≤ z → (refineInt32BoundsByExponent e l h).1 ≤ z) ∧
      (z ≤ h → z ≤ (refineInt32BoundsByExponent e l h).2) := by
  rw [abs_lt] at hz
  simp only [refineInt32BoundsByExponent, if_pos he]
  exact ⟨fun hl => max_le hl (by omega), fun hh => le_min hh (by omega)⟩

/-- An integer within the magnitude a small exponent allows is an int32. -/
theorem int32_of_abs_lt {e : ℕ} {z : ℤ} (he : e < maxInt32Exponent) (hz : |z| < 2 ^ (e + 1)) :
    jsvalIntMin ≤ z ∧ z ≤ jsvalIntMax := by
  have hpow : (2 : ℤ) ^ (e + 1) ≤ 2 ^ 31 := pow_le_pow_right₀ (by norm_num) he
  rw [abs_lt] at hz
  simp only [jsvalIntMin, jsvalIntMax]
  omega

/-- The bounds of an intersection refined by its exponent still admit a common integer value. -/
theorem Holds.refine_rawIntersect {lhs rhs : Range} (hlhs : lhs.AssertInvariants)
    (hrhs : rhs.AssertInvariants) {x : ExtRat} (hx : (Range.rawIntersect lhs rhs).Holds x)
    (hle : (Range.rawIntersect lhs rhs).lower ≤ (Range.rawIntersect lhs rhs).upper)
    (hint : ∀ q, x = .finite q → ∃ z : ℤ, q = z) :
    let raw := Range.rawIntersect lhs rhs
    let refined := refineInt32BoundsByExponent raw.maxExponent raw.lower raw.upper
    refined.1 ≤ refined.2 ∧
      ({ raw with lower := refined.1, upper := refined.2 } : Range).Holds x := by
  intro raw refined
  rcases le_or_gt maxInt32Exponent raw.maxExponent with he | he
  · have heq : refined = (raw.lower, raw.upper) := refineInt32BoundsByExponent_of_le he _ _
    rw [heq]
    exact ⟨hle, hx⟩
  · have hfin : raw.maxExponent ≤ maxFiniteExponent := he.le.trans (by decide)
    have hnotInf : raw.canBeInfiniteOrNaN ≠ true := fun h =>
      absurd ((canBeInfiniteOrNaN_iff raw).mp h) (not_le.mpr (Nat.lt_succ_of_le hfin))
    cases x with
    | posInf => exact absurd hx.2 hnotInf
    | negInf => exact absurd hx.2 hnotInf
    | nan => exact absurd (canBeInfiniteOrNaN_of_canBeNaN hx.2) hnotInf
    | finite q =>
      obtain ⟨z, rfl⟩ := hint q rfl
      have hz : |z| < 2 ^ (raw.maxExponent + 1) := by exact_mod_cast hx.lt_pow hfin
      obtain ⟨hlo, hhi⟩ := int32_of_abs_lt he hz
      obtain ⟨hlower, hupper⟩ := refineInt32BoundsByExponent_spec raw.lower raw.upper he hz
      -- A bound that is not real is the int32 extreme, so the value meets it as well.
      have hl : raw.lower ≤ z := by
        by_cases hb : raw.hasInt32LowerBound = true
        · exact_mod_cast hx.lower_le hb
        · simp only [raw, Range.rawIntersect, Bool.or_eq_true, not_or, Bool.not_eq_true] at hb ⊢
          exact max_le ((hlhs.lower_eq hb.1).trans_le hlo) ((hrhs.lower_eq hb.2).trans_le hlo)
      have hu : z ≤ raw.upper := by
        by_cases hb : raw.hasInt32UpperBound = true
        · exact_mod_cast hx.le_upper hb
        · simp only [raw, Range.rawIntersect, Bool.or_eq_true, not_or, Bool.not_eq_true] at hb ⊢
          exact le_min (hhi.trans (hlhs.upper_eq hb.1).ge) (hhi.trans (hrhs.upper_eq hb.2).ge)
      exact ⟨(hlower hl).trans (hupper hu), fun _ => by exact_mod_cast hlower hl,
        fun _ => by exact_mod_cast hupper hu, hx.lt_pow, hx.integral⟩

/-- A value of both ranges is never reported as absent, and is in the intersection returned. -/
theorem Holds.intersect {lhs rhs : Range} (hlhs : lhs.AssertInvariants)
    (hrhs : rhs.AssertInvariants) {x : ExtRat} (hx : lhs.Holds x) (hy : rhs.Holds x) :
    (Range.intersect (some lhs) (some rhs)).1 = false ∧
      ∀ r, (Range.intersect (some lhs) (some rhs)).2 = some r → r.Holds x := by
  have hconflict := rawIntersect_lower_le_upper hlhs hrhs hx hy
  unfold Range.intersect
  dsimp only
  split
  · rename_i hlt
    have hxn : x = .nan := by_contra fun hne => absurd (hconflict hne) (not_le.mpr hlt)
    subst hxn
    exact ⟨by simp [hx.2, hy.2], fun r hr => by cases hr⟩
  · rename_i hle
    rw [not_lt] at hle
    split
    · exact ⟨rfl, fun r hr => by cases hr⟩
    · rename_i hnan
      have hraw := Holds.rawIntersect hlhs hrhs hx hy fun hxn => by
        subst hxn
        have hexp : (lhs.rawIntersect rhs).maxExponent = includesInfinityAndNaN := by
          simp [Range.rawIntersect, (canBeNaN_iff _).mp hx.2, (canBeNaN_iff _).mp hy.2]
        simp only [Range.rawIntersect] at hexp
        simpa [hasInt32Bounds, Range.rawIntersect, hexp] using hnan
      split
      · rename_i hrefine
        have hint (q : ℚ) (hq : x = .finite q) : ∃ z : ℤ, q = z := by
          subst hq
          simp only [Bool.or_eq_true, Bool.and_eq_true, bne_iff_ne, beq_iff_eq] at hrefine
          rcases hrefine with hne | ⟨⟨⟨hf, hl⟩, hu⟩, heq⟩
          · cases hlf : lhs.canHaveFractionalPart
            · exact hx.integral hlf
            · exact hy.integral (by simpa [hlf] using hne)
          · refine ⟨(lhs.rawIntersect rhs).lower, le_antisymm ?_ (hraw.lower_le ?_)⟩
            · have hq := hraw.le_upper (by simpa [Range.rawIntersect] using hu)
              exact hq.trans_eq (by exact_mod_cast heq.symm)
            · simpa [Range.rawIntersect] using hl
        obtain ⟨hnoconflict, hrefined⟩ := Holds.refine_rawIntersect hlhs hrhs hraw hle hint
        split
        · rename_i hlt
          exact absurd hnoconflict (not_le.mpr hlt)
        · refine ⟨rfl, fun r hr => ?_⟩
          cases hr
          exact holds_rawInitialize hrefined
      · refine ⟨rfl, fun r hr => ?_⟩
        cases hr
        exact holds_rawInitialize hraw

/-- The values an optional constraint admits; a missing one admits everything. -/
def HoldsConstraint (r : Option Range) (x : ExtRat) : Prop := ∀ s ∈ r, s.Holds x

/-- Every range operation keeps the exact results of its operands' values. -/
theorem arithmetic_sound (lhs rhs : Range) (hlhs : lhs.AssertInvariants)
    (hrhs : rhs.AssertInvariants) (x y : ExtRat) (hx : lhs.Holds x) (hy : rhs.Holds y) :
    (lhs.add rhs).Holds (x.add y) ∧ (lhs.sub rhs).Holds (x.sub y) ∧
      (lhs.mul rhs).Holds (x.mul y) ∧ lhs.abs.Holds x.abs ∧
      HoldsConstraint (lhs.min rhs) (x.min y) ∧ HoldsConstraint (lhs.max rhs) (x.max y) ∧
      (lhs.unionWith rhs).Holds x ∧ (lhs.unionWith rhs).Holds y ∧
      (rhs.Holds x → (Range.intersect (some lhs) (some rhs)).1 = false ∧
        HoldsConstraint (Range.intersect (some lhs) (some rhs)).2 x) :=
  ⟨Holds.add hlhs.exponent_code hrhs.exponent_code hx hy,
    Holds.sub hlhs.exponent_code hrhs.exponent_code hx hy,
    Holds.mul hlhs hrhs hx hy, Holds.abs hlhs hx,
    fun _ hr => Holds.min hlhs hrhs hx hy hr, fun _ hr => Holds.max hlhs hrhs hx hy hr,
    Holds.unionWith_left hlhs.exponent_code hrhs.exponent_code hx,
    unionWith_comm rhs lhs ▸ Holds.unionWith_left hrhs.exponent_code hlhs.exponent_code hy,
    fun hxr => ⟨(Holds.intersect hlhs hrhs hx hxr).1, (Holds.intersect hlhs hrhs hx hxr).2⟩⟩

/-- The operations at the value five of an int32 range and NaN of the unknown range. -/
theorem arithmetic_sound_five_nan :
    let lhs : Range := ⟨0, true, 10, true, false, 3⟩
    (lhs.add unknown).Holds ((ExtRat.finite 5).add .nan) ∧
      (lhs.unionWith unknown).Holds (.finite 5) ∧ (lhs.unionWith unknown).Holds .nan := by
  have hfive : (⟨0, true, 10, true, false, 3⟩ : Range).Holds (.finite 5) :=
    ⟨fun _ => by norm_num, fun _ => by norm_num, fun _ => by norm_num, fun _ => ⟨5, by norm_num⟩⟩
  obtain ⟨hadd, -, -, -, -, -, hleft, hright, -⟩ :=
    arithmetic_sound ⟨0, true, 10, true, false, 3⟩ unknown (by decide) (by decide) (.finite 5) .nan
      hfive ⟨by decide, by decide⟩
  exact ⟨hadd, hleft, hright⟩

/-- Each field read on its own: the exponent bounds finite values even when it is a special code,
and the NaN code admits NaN whatever the bounds are. -/
def HoldsFieldwise (r : Range) : ExtRat → Prop
  | .finite q => (r.hasInt32LowerBound = true → (r.lower : ℚ) ≤ q) ∧
      (r.hasInt32UpperBound = true → q ≤ r.upper) ∧ |q| < 2 ^ (r.maxExponent + 1) ∧
      (r.canHaveFractionalPart = false → ∃ z : ℤ, q = z)
  | .posInf => r.hasInt32UpperBound = false ∧ r.canBeInfiniteOrNaN = true
  | .negInf => r.hasInt32LowerBound = false ∧ r.canBeInfiniteOrNaN = true
  | .nan => r.canBeNaN = true

/-- The integers below two to the thousand and first. -/
def wideIntegers : Range := ⟨jsvalIntMin, false, jsvalIntMax, false, false, 1000⟩

/-- A range with both bounds whose exponent is still the NaN code. -/
def boundedWithNaN : Range := ⟨0, true, 10, true, false, includesInfinityAndNaN⟩

/-- Read field by field, multiplication loses the product of two large finite values, and the
optimizer loses the NaN of a range with both bounds. -/
theorem not_arithmetic_sound_fieldwise :
    (wideIntegers.AssertInvariants ∧ wideIntegers.HoldsFieldwise (.finite (2 ^ 1000)) ∧
      ¬ (wideIntegers.mul wideIntegers).HoldsFieldwise
        ((ExtRat.finite (2 ^ 1000)).mul (.finite (2 ^ 1000)))) ∧
      boundedWithNaN.AssertInvariants ∧ boundedWithNaN.HoldsFieldwise .nan ∧
        ¬ (boundedWithNaN.add boundedWithNaN).HoldsFieldwise (ExtRat.nan.add .nan) := by
  have hwide : wideIntegers.HoldsFieldwise (.finite (2 ^ 1000)) := by
    unfold HoldsFieldwise
    refine ⟨nofun, nofun, ?_, fun _ => ⟨2 ^ 1000, by rw [Int.cast_pow, Int.cast_ofNat]⟩⟩
    rw [abs_of_pos (by positivity)]
    exact pow_lt_pow_right₀ (by norm_num) (by decide)
  refine ⟨⟨by decide, hwide, fun h => ?_⟩, by decide, rfl, fun h => ?_⟩
  · have hlt : |(2 : ℚ) ^ 1000 * 2 ^ 1000| < 2 ^ (1024 + 1) := h.2.2.1
    rw [abs_of_pos (by positivity), ← pow_add] at hlt
    exact absurd ((pow_lt_pow_iff_right₀ (by norm_num)).mp hlt) (by norm_num)
  · have hnan : (boundedWithNaN.add boundedWithNaN).canBeNaN = true := h
    exact absurd hnan (by decide)

end Range

end SpiderMonkey.Jit
