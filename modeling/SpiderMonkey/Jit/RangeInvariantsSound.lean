import SpiderMonkey.Jit.RangeInvariantsArithmetic

/-!
# The representation invariant of ranges

`setDouble` gives a valid range for every two doubles in order: an end point that is no int32 has at least
the exponent of one, and one that is leaves room for fractions, so the bounds may be rounded outwards.
-/

namespace SpiderMonkey.Jit.Range

variable {r lhs rhs : Range} {l h z : ℤ} {e k : ℕ} {f : Bool}

/-- What is known of a conversion to int32. -/
theorem int32OfDouble_cases (convert : ℚ → ℤ) (d : ExtRat) :
    (∃ q, d = .finite q ∧ (jsvalIntMin : ℚ) ≤ q ∧ q ≤ jsvalIntMax ∧
        int32OfDouble convert d = some (convert q)) ∨
      (int32OfDouble convert d = none ∧ ∀ q, d = .finite q → q < jsvalIntMin ∨ (jsvalIntMax : ℚ) < q) := by
  cases d with
  | finite q =>
    by_cases h : (jsvalIntMin : ℚ) ≤ q ∧ q ≤ jsvalIntMax
    · exact Or.inl ⟨q, rfl, h.1, h.2, by simp [int32OfDouble, h]⟩
    · refine Or.inr ⟨by simp [int32OfDouble, h], fun q' hq' => ?_⟩
      cases hq'
      rw [not_and_or, not_le, not_le] at h
      exact h
  | posInf => exact Or.inr ⟨rfl, fun q hq => by cases hq⟩
  | negInf => exact Or.inr ⟨rfl, fun q hq => by cases hq⟩
  | nan => exact Or.inr ⟨rfl, fun q hq => by cases hq⟩

/-- A number is below the power of two behind its exponent. -/
theorem abs_lt_exponentImplied (q : ℚ) : |q| < 2 ^ (exponentImpliedByDouble (.finite q) + 1) := by
  have hlog : |q| < (2 : ℚ) ^ (Int.log 2 |q| + 1) := Int.lt_zpow_succ_log_self (by decide) _
  refine hlog.trans_le ?_
  rw [← zpow_natCast]
  apply zpow_le_zpow_right₀ (by norm_num)
  simp only [exponentImpliedByDouble]
  push_cast
  exact add_le_add_left (Int.self_le_toNat _) 1

/-- A number of at least a power of two has at least its exponent. -/
theorem le_exponentImplied {q : ℚ} {n : ℕ} (h : (2 : ℚ) ^ n ≤ |q|) :
    n ≤ exponentImpliedByDouble (.finite q) := by
  have hpos : 0 < |q| := lt_of_lt_of_le (by positivity) h
  have hlog : (n : ℤ) ≤ Int.log 2 |q| := (Int.zpow_le_iff_le_log (by decide) hpos).mp (by exact_mod_cast h)
  simp only [exponentImpliedByDouble]
  omega

/-- A number below a power of two has a smaller exponent. -/
theorem exponentImplied_lt {q : ℚ} {n : ℕ} (hn : 0 < n) (h : |q| < (2 : ℚ) ^ n) :
    exponentImpliedByDouble (.finite q) < n := by
  simp only [exponentImpliedByDouble]
  by_cases hq : |q| = 0
  · rw [hq]
    simpa using hn
  · have hpos : 0 < |q| := lt_of_le_of_ne (abs_nonneg q) (Ne.symm hq)
    have hlog : Int.log 2 |q| < n := (Int.lt_zpow_iff_log_lt (by decide) hpos).mp (by exact_mod_cast h)
    omega

/-- The exponent of a double is a code. -/
theorem exponentCode_implied (d : Binary64) : ExponentCode (exponentImpliedByDouble d.value) := by
  cases d with
  | finite s m =>
    have hval : |Binary64.signed s m.1| = m.1 := by
      have := m.2.nonneg
      cases s <;> simp [Binary64.signed, abs_of_nonneg this]
    have := exponentImplied_lt (q := Binary64.signed s m.1) (n := 1024) (by decide) (by rw [hval]; exact m.2.2)
    exact Or.inl (Nat.le_of_lt_succ this)
  | infinity s => cases s <;> exact Or.inr (Or.inl rfl)
  | nan => exact Or.inr (Or.inr rfl)

/-- An end point that is no int32 has at least the exponent of the largest int32, and a fraction if it has
no larger one. -/
theorem exponentImplied_of_none {convert : ℚ → ℤ} {d : ExtRat} (h : int32OfDouble convert d = none) :
    30 ≤ exponentImpliedByDouble d := by
  rcases int32OfDouble_cases convert d with ⟨q, -, -, -, hsome⟩ | ⟨-, hout⟩
  · rw [h] at hsome
    cases hsome
  · cases d with
    | finite q =>
      apply le_exponentImplied
      rcases hout q rfl with hq | hq <;> simp only [jsvalIntMin, jsvalIntMax] at hq <;> push_cast at hq
      · exact le_trans (by norm_num at hq ⊢; linarith) (neg_le_abs q)
      · exact le_trans (by norm_num at hq ⊢; linarith) (le_abs_self q)
    | posInf => exact (by decide : 30 ≤ includesInfinity)
    | negInf => exact (by decide : 30 ≤ includesInfinity)
    | nan => exact (by decide : 30 ≤ includesInfinityAndNaN)

/-- An int32 end point has an exponent that leaves room for fractions. -/
theorem exponentImplied_of_int32 {q : ℚ} (hl : (jsvalIntMin : ℚ) ≤ q) (hh : q ≤ jsvalIntMax) :
    exponentImpliedByDouble (.finite q) < maxTruncatableExponent := by
  have habs : |q| < (2 : ℚ) ^ 32 := by
    rw [abs_lt]
    simp only [jsvalIntMin, jsvalIntMax] at hl hh
    push_cast at hl hh
    constructor <;> norm_num <;> linarith
  exact (exponentImplied_lt (by decide) habs).trans (by decide)

/-- Rounding an end point outwards. -/
theorem within_floor (q : ℚ) : Within ⌊q⌋ (exponentImpliedByDouble (.finite q) + 1) := by
  have h := abs_lt.mp (abs_lt_exponentImplied q)
  have hcast : (((2 ^ (exponentImpliedByDouble (.finite q) + 1) : ℕ) : ℤ) : ℚ) =
      2 ^ (exponentImpliedByDouble (.finite q) + 1) := by push_cast; rfl
  rw [← hcast] at h
  have hlow : -((2 ^ (exponentImpliedByDouble (.finite q) + 1) : ℕ) : ℤ) ≤ ⌊q⌋ :=
    Int.le_floor.mpr (by push_cast at h ⊢; exact h.1.le)
  have hupp : ⌊q⌋ < ((2 ^ (exponentImpliedByDouble (.finite q) + 1) : ℕ) : ℤ) := Int.floor_lt.mpr h.2
  unfold Within
  rw [Nat.pow_succ]
  have hpos := Nat.two_pow_pos (exponentImpliedByDouble (.finite q) + 1)
  omega

theorem within_ceil (q : ℚ) : Within ⌈q⌉ (exponentImpliedByDouble (.finite q) + 1) := by
  have h := within_floor (-q)
  have hexp : exponentImpliedByDouble (.finite (-q)) = exponentImpliedByDouble (.finite q) := by
    simp [exponentImpliedByDouble]
  rw [hexp, Int.floor_neg] at h
  simpa using h.neg

/-- An end point that is an integer. -/
theorem within_of_eq_intCast {q : ℚ} {z : ℤ} (h : q = z) : Within z (exponentImpliedByDouble (.finite q)) := by
  have hlt := abs_lt_exponentImplied q
  have hcast : |q| = ((z.natAbs : ℕ) : ℚ) := by
    rw [h, Nat.cast_natAbs, Int.cast_abs]
  rw [hcast] at hlt
  exact_mod_cast hlt

/-- `setDouble` gives a valid range for every two doubles in order, and if one of them is NaN. -/
theorem setDouble_invariants (l h : Binary64)
    (hle : l.value = .nan ∨ h.value = .nan ∨ l.value.le h.value = true) :
    (setDouble l.value h.value).AssertInvariants := by
  have hcode := (exponentCode_implied l).max (exponentCode_implied h)
  have hminmax : jsvalIntMin ≤ jsvalIntMax := by decide
  unfold setDouble
  simp only
  refine (optimize_invariants_iff (by exact hcode)).mpr ?_
  -- the exponent is that of int32 where an end point is not one
  have hnone (d d' : ExtRat) {convert : ℚ → ℤ} (b : Bool) (hd : int32OfDouble convert d = none) :
      maxInt32Exponent ≤ max (exponentImpliedByDouble d) (exponentImpliedByDouble d') +
        (b || decide (min (exponentImpliedByDouble d) (exponentImpliedByDouble d') <
          maxTruncatableExponent)).toNat := by
    have hexp := exponentImplied_of_none hd
    by_cases h30 : exponentImpliedByDouble d = 30
    · have hfrac : min (exponentImpliedByDouble d) (exponentImpliedByDouble d') < maxTruncatableExponent :=
        lt_of_le_of_lt (min_le_left _ _) (by rw [h30]; decide)
      rw [decide_eq_true hfrac, Bool.or_true, Bool.toNat_true, h30, maxInt32Exponent]
      omega
    · rw [maxInt32Exponent]
      omega
  rcases int32OfDouble_cases Int.floor l.value with ⟨p, hl, hpl, hph, hlo⟩ | ⟨hlo, -⟩
  · have hfl : jsvalIntMin ≤ ⌊p⌋ := Int.le_floor.mpr hpl
    have hfh : ⌊p⌋ ≤ jsvalIntMax := by exact_mod_cast (Int.floor_le p).trans hph
    rcases int32OfDouble_cases Int.ceil h.value with ⟨q, hh, hql, hqh, hup⟩ | ⟨hup, -⟩
    · -- both end points are int32
      have hcl : jsvalIntMin ≤ ⌈q⌉ := by exact_mod_cast hql.trans (Int.le_ceil q)
      have hch : ⌈q⌉ ≤ jsvalIntMax := Int.ceil_le.mpr hqh
      have hpq : p ≤ q := by
        rw [hl, hh] at hle
        rcases hle with hle | hle | hle
        · cases hle
        · cases hle
        · exact of_decide_eq_true hle
      have hfrac : min (exponentImpliedByDouble l.value) (exponentImpliedByDouble h.value) <
          maxTruncatableExponent :=
        lt_of_le_of_lt (min_le_left _ _) (hl ▸ exponentImplied_of_int32 hpl hph)
      rw [hlo, hup, decide_eq_true hfrac, Bool.or_true, hl, hh]
      have hbounds : ⌊p⌋ ≤ ⌈q⌉ := (Int.floor_mono hpq).trans (Int.floor_le_ceil q)
      refine ⟨assertInvariants_iff.mpr ⟨⟨hfl, hch, hbounds⟩, by rintro ⟨⟩, by rintro ⟨⟩, hl ▸ hh ▸ hcode, by rintro ⟨⟩, ?_, ?_⟩, ?_⟩
      · exact (within_floor p).mono (by simp only [exponentSlack, Bool.toNat_true]; omega)
      · exact (within_ceil q).mono (by simp only [exponentSlack, Bool.toNat_true]; omega)
      · rintro ⟨-, -, heq, hno⟩
        simp only [Option.getD_some] at heq hno
        have hint : p = ⌊p⌋ := le_antisymm
          (hpq.trans ((Int.le_ceil q).trans_eq (by rw [← heq]))) (Int.floor_le p)
        exact hno ((within_of_eq_intCast hint).mono (le_max_left _ _))
    · have hslack := hnone h.value l.value
        (isNaNOrNegative l.value && isNaNOrPositive h.value) hup
      rw [max_comm, min_comm] at hslack
      rw [hlo, hup]
      refine ⟨assertInvariants_iff.mpr ⟨⟨hfl, le_refl _, hfh⟩, by rintro ⟨⟩, fun _ => rfl, hcode, fun _ => hslack,
        within_of_int32 hfl hfh hslack, within_of_int32 hminmax (le_refl _) hslack⟩, ?_⟩
      rintro ⟨hb, -⟩
      simp [hasInt32Bounds] at hb
  · have hslack := hnone l.value h.value
      (isNaNOrNegative l.value && isNaNOrPositive h.value) hlo
    rcases int32OfDouble_cases Int.ceil h.value with ⟨q, hh, hql, hqh, hup⟩ | ⟨hup, -⟩
    · have hcl : jsvalIntMin ≤ ⌈q⌉ := by exact_mod_cast hql.trans (Int.le_ceil q)
      have hch : ⌈q⌉ ≤ jsvalIntMax := Int.ceil_le.mpr hqh
      rw [hlo, hup]
      refine ⟨assertInvariants_iff.mpr ⟨⟨le_refl _, hch, hcl⟩, fun _ => rfl, by rintro ⟨⟩, hcode, fun _ => hslack,
        within_of_int32 (le_refl _) hminmax hslack, within_of_int32 hcl hch hslack⟩, ?_⟩
      rintro ⟨hb, -⟩
      simp [hasInt32Bounds] at hb
    · rw [hlo, hup]
      refine ⟨assertInvariants_iff.mpr ⟨⟨le_refl _, le_refl _, hminmax⟩, fun _ => rfl, fun _ => rfl, hcode,
        fun _ => hslack, within_of_int32 (le_refl _) hminmax hslack, within_of_int32 hminmax (le_refl _) hslack⟩, ?_⟩
      rintro ⟨hb, -⟩
      simp [hasInt32Bounds] at hb

/-! ## All operations -/

/-- What the operations make of two ranges is valid. -/
structure Preserved (lhs rhs : Range) : Prop where
  intersect : ∀ r, (Range.intersect (some lhs) (some rhs)).2 = some r → r.AssertInvariants
  intersect_one : ∀ r, (Range.intersect (some lhs) none).2 = some r ∨
    (Range.intersect none (some lhs)).2 = some r → r.AssertInvariants
  unionWith : (lhs.unionWith rhs).AssertInvariants
  add : (lhs.add rhs).AssertInvariants
  sub : (lhs.sub rhs).AssertInvariants
  mul : (lhs.mul rhs).AssertInvariants
  abs : lhs.abs.AssertInvariants
  min : ∀ r, Range.min lhs rhs = some r → r.AssertInvariants
  max : ∀ r, Range.max lhs rhs = some r → r.AssertInvariants
  wrapAroundToInt32 : lhs.wrapAroundToInt32.AssertInvariants
  clampToInt32 : lhs.clampToInt32.AssertInvariants

/-- Valid ranges stay valid under every operation on any two of them, and `setDouble` gives valid ranges, if
and only if no bounds contradict the exponent, no factors are loose, and no intersection loses a fraction
flag. -/
theorem preserved_iff (S : Set Range) (hS : ∀ r ∈ S, r.AssertInvariants) :
    ((∀ lhs ∈ S, ∀ rhs ∈ S, Preserved lhs rhs) ∧
        ∀ l h : Binary64, l.value = .nan ∨ h.value = .nan ∨ l.value.le h.value = true →
          (setDouble l.value h.value).AssertInvariants) ↔
      (∀ r ∈ S, ¬r.Vacant) ∧ ∀ lhs ∈ S, ∀ rhs ∈ S, ¬MulLoose lhs rhs ∧ ¬FractionLost lhs rhs := by
  apply Iff.intro
  · rintro ⟨hall, -⟩
    have hvacant (r : Range) (hr : r ∈ S) : ¬r.Vacant :=
      (wrapAroundToInt32_invariants_iff (hS r hr)).mp (hall r hr r hr).wrapAroundToInt32
    refine ⟨hvacant, fun lhs hl rhs hr => ⟨?_, ?_⟩⟩
    · exact (mul_invariants_iff (hS lhs hl) (hS rhs hr) (hvacant lhs hl) (hvacant rhs hr)).mp
        (hall lhs hl rhs hr).mul
    · exact (intersect_invariants_iff (hS lhs hl) (hS rhs hr)).mp (hall lhs hl rhs hr).intersect
  · rintro ⟨hvacant, hpairs⟩
    refine ⟨fun lhs hl rhs hr => ?_, setDouble_invariants⟩
    obtain ⟨hloose, hlost⟩ := hpairs lhs hl rhs hr
    have hil := hS lhs hl
    have hir := hS rhs hr
    have hvl := hvacant lhs hl
    have hvr := hvacant rhs hr
    exact {
      intersect := (intersect_invariants_iff hil hir).mpr hlost
      intersect_one := fun r h => by
        rcases h with h | h <;> cases h <;> exact hil
      unionWith := unionWith_invariants hil hir hvl hvr
      add := add_invariants hil hir hvl hvr
      sub := sub_invariants hil hir hvl hvr
      mul := (mul_invariants_iff hil hir hvl hvr).mpr hloose
      abs := abs_invariants hil hvl
      min := fun r => min_invariants hil hir hvl hvr
      max := fun r => max_invariants hil hir hvl hvr
      wrapAroundToInt32 := (wrapAroundToInt32_invariants_iff hil).mpr hvl
      clampToInt32 := clampToInt32_invariants hil }

/-- The ranges of two int32 constants. -/
theorem preserved_iff_constants :
    ((∀ lhs ∈ ({setInt32 3 3, setInt32 (-5) 7} : Set Range), ∀ rhs ∈ ({setInt32 3 3, setInt32 (-5) 7} : Set Range),
        Preserved lhs rhs) ∧
        ∀ l h : Binary64, l.value = .nan ∨ h.value = .nan ∨ l.value.le h.value = true →
          (setDouble l.value h.value).AssertInvariants) ↔
      (∀ r ∈ ({setInt32 3 3, setInt32 (-5) 7} : Set Range), ¬r.Vacant) ∧
        ∀ lhs ∈ ({setInt32 3 3, setInt32 (-5) 7} : Set Range), ∀ rhs ∈ ({setInt32 3 3, setInt32 (-5) 7} : Set Range),
          ¬MulLoose lhs rhs ∧ ¬FractionLost lhs rhs :=
  preserved_iff {setInt32 3 3, setInt32 (-5) 7} (by
    rintro r (rfl | rfl)
    · exact setInt32_invariants (by decide) (by decide) (by decide)
    · exact setInt32_invariants (by decide) (by decide) (by decide))

/-- The range of the constant 2147483647.5, which is beyond int32 but has the exponent of the largest int32,
and that of the numbers above the integers a double holds exactly. -/
theorem not_intersect_invariants :
    (⟨jsvalIntMin, false, jsvalIntMax, false, true, 30⟩ : Range) =
        setDouble (.finite (4294967295 / 2)) (.finite (4294967295 / 2)) ∧
      (⟨jsvalIntMin, false, jsvalIntMax, false, false, 1024⟩ : Range) =
        setDouble (.finite (2 ^ 53)) .posInf ∧
      (⟨jsvalIntMin, false, jsvalIntMax, false, true, 30⟩ : Range).AssertInvariants ∧
      (⟨jsvalIntMin, false, jsvalIntMax, false, false, 1024⟩ : Range).AssertInvariants ∧
      ∃ r, (Range.intersect (some ⟨jsvalIntMin, false, jsvalIntMax, false, true, 30⟩)
        (some ⟨jsvalIntMin, false, jsvalIntMax, false, false, 1024⟩)).2 = some r ∧ ¬r.AssertInvariants := by
  refine ⟨?_, ?_, by decide, by decide, _, rfl, by decide⟩
  · have hexp : exponentImpliedByDouble (.finite (4294967295 / 2)) = 30 := by
      apply le_antisymm
      · exact Nat.lt_succ_iff.mp (exponentImplied_lt (by decide) (by norm_num))
      · exact le_exponentImplied (by norm_num)
    have hout (convert : ℚ → ℤ) : int32OfDouble convert (.finite (4294967295 / 2)) = none := by
      simp only [int32OfDouble, jsvalIntMin, jsvalIntMax]
      norm_num
    have hfrac : decide (min 30 30 < maxTruncatableExponent) = true := by decide
    simp only [setDouble, hexp, hout, hfrac, Bool.or_true]
    decide
  · have hexp : exponentImpliedByDouble (.finite (2 ^ 53)) = 53 := by
      apply le_antisymm
      · exact Nat.lt_succ_iff.mp (exponentImplied_lt (by decide) (by norm_num))
      · exact le_exponentImplied (by norm_num)
    have hout : int32OfDouble Int.floor (.finite (2 ^ 53)) = none := by
      simp only [int32OfDouble, jsvalIntMin, jsvalIntMax]
      norm_num
    have hneg : isNaNOrNegative (.finite (2 ^ 53)) = false := by
      simp only [isNaNOrNegative]
      norm_num
    simp only [setDouble, hexp, hout, hneg]
    decide

end SpiderMonkey.Jit.Range
