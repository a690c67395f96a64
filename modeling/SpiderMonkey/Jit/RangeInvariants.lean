import SpiderMonkey.Jit.RangeDouble
import Mathlib.Tactic.Linarith

/-!
# What the optimizer needs of a range

Every operation on ranges ends in `optimize`, which gives a valid range if it gets one, unless it drops the
fraction flag of a range whose exponent relied on it. So each operation is one look at the fields it builds:
the bounds have to be in the reach of the exponent, and the fraction flag gives one exponent of slack.
-/

namespace SpiderMonkey.Jit.Range

variable {r lhs rhs : Range} {l h z : ℤ} {e k : ℕ} {f : Bool}

/-! ## Magnitudes -/

/-- The magnitude of an integer is in the reach of an exponent. -/
def Within (z : ℤ) (e : ℕ) : Prop := z.natAbs < 2 ^ (e + 1)

instance (z : ℤ) (e : ℕ) : Decidable (Within z e) := inferInstanceAs (Decidable (_ < _))

theorem log2_le_iff : z.natAbs.log2 ≤ e ↔ Within z e := by
  unfold Within
  by_cases hz : z.natAbs = 0
  · simp [hz]
  · rw [← Nat.log2_lt hz, Nat.lt_succ_iff]

theorem Within.mono (hz : Within z e) (hle : e ≤ k) : Within z k :=
  lt_of_lt_of_le hz (Nat.pow_le_pow_right (by decide) (by omega))

/-- What is between two integers in reach is in reach. -/
theorem Within.between (hl : Within l e) (hh : Within h e) (hlz : l ≤ z) (hzh : z ≤ h) : Within z e := by
  unfold Within at *
  omega

theorem Within.neg (hz : Within z e) : Within (-z) e := by
  rwa [Within, Int.natAbs_neg]

theorem Within.min (hl : Within l e) (hh : Within h e) : Within (min l h) e := by
  rcases min_choice l h with hm | hm <;> rw [hm] <;> assumption

theorem Within.max (hl : Within l e) (hh : Within h e) : Within (max l h) e := by
  rcases max_choice l h with hm | hm <;> rw [hm] <;> assumption

theorem within_zero : Within 0 e := Nat.two_pow_pos _

/-- A sum reaches one exponent further. -/
theorem Within.add (hl : Within l e) (hh : Within h e) : Within (l + h) (e + 1) := by
  unfold Within at *
  rw [Nat.pow_succ]
  omega

/-- An int32 is in the reach of 31. -/
theorem within_of_int32 (hl : jsvalIntMin ≤ z) (hh : z ≤ jsvalIntMax) (he : maxInt32Exponent ≤ e) :
    Within z e := by
  have hz : Within z maxInt32Exponent := by
    simp only [Within, jsvalIntMin, jsvalIntMax, maxInt32Exponent] at *
    omega
  exact hz.mono he

/-! ## The optimizer -/

/-- A range with a single value whose exponent relies on the fraction flag. -/
def Pinched (r : Range) : Prop :=
  r.hasInt32Bounds = true ∧ r.canHaveFractionalPart = true ∧ r.lower = r.upper ∧
    ¬Within r.lower r.maxExponent

/-- What the fields of a range have to satisfy. -/
theorem assertInvariants_iff :
    r.AssertInvariants ↔ (jsvalIntMin ≤ r.lower ∧ r.upper ≤ jsvalIntMax ∧ r.lower ≤ r.upper) ∧
      (r.hasInt32LowerBound = false → r.lower = jsvalIntMin) ∧
      (r.hasInt32UpperBound = false → r.upper = jsvalIntMax) ∧ ExponentCode r.maxExponent ∧
      (r.hasInt32Bounds = false → maxInt32Exponent ≤ r.exponentSlack) ∧
      Within r.lower r.exponentSlack ∧ Within r.upper r.exponentSlack := by
  rw [← log2_le_iff, ← log2_le_iff, hasInt32Bounds, Bool.and_eq_false_iff]
  refine ⟨fun h => ⟨⟨h.1, h.2, h.3⟩, h.4, h.5, h.6, h.7, h.9, h.8⟩, ?_⟩
  rintro ⟨⟨h1, h2, h3⟩, h4, h5, h6, h7, h9, h8⟩
  exact ⟨h1, h2, h3, h4, h5, h6, h7, h8, h9⟩

theorem exponentSlack_eq_true (hf : r.canHaveFractionalPart = true) :
    r.exponentSlack = r.maxExponent + 1 := by
  simp [exponentSlack, hf]

theorem exponentSlack_eq_false (hf : r.canHaveFractionalPart = false) :
    r.exponentSlack = r.maxExponent := by
  simp [exponentSlack, hf]

/-- The implied exponent reaches both bounds, and no smaller one does. -/
theorem exponentImpliedByInt32Bounds_le_iff :
    r.exponentImpliedByInt32Bounds ≤ e ↔ Within r.lower e ∧ Within r.upper e := by
  have hmax : ((max r.lower.natAbs r.upper.natAbs : ℕ) : ℤ).natAbs = max r.lower.natAbs r.upper.natAbs :=
    Int.natAbs_natCast _
  rw [exponentImpliedByInt32Bounds, ← hmax, log2_le_iff, Within, hmax, max_lt_iff]
  rfl

/-- The implied exponent of int32 bounds is 31 at most. -/
theorem exponentImplied_le (hl : jsvalIntMin ≤ r.lower) (hh : r.upper ≤ jsvalIntMax)
    (hle : r.lower ≤ r.upper) : r.exponentImpliedByInt32Bounds ≤ maxInt32Exponent :=
  exponentImpliedByInt32Bounds_le_iff.mpr
    ⟨within_of_int32 hl (hle.trans hh) (le_refl _), within_of_int32 (hl.trans hle) hh (le_refl _)⟩

/-- The optimizer gives a valid range if and only if it gets one that is not pinched. -/
theorem optimize_invariants_iff (hcode : ExponentCode r.maxExponent) :
    r.optimize.AssertInvariants ↔ r.AssertInvariants ∧ ¬r.Pinched := by
  obtain ⟨lower, lb, upper, hb, f, e⟩ := r
  unfold optimize Pinched
  by_cases hbounds : (⟨lower, lb, upper, hb, f, e⟩ : Range).hasInt32Bounds = true
  · rw [if_pos hbounds]
    have hflags : lb = true ∧ hb = true := by simpa [hasInt32Bounds] using hbounds
    obtain ⟨rfl, rfl⟩ := hflags
    set implied := (⟨lower, true, upper, true, f, e⟩ : Range).exponentImpliedByInt32Bounds with himplied
    have hreach (k : ℕ) : implied ≤ k ↔ Within lower k ∧ Within upper k :=
      exponentImpliedByInt32Bounds_le_iff
    -- the exponent is the smaller of the two
    have hexp : (⟨lower, true, upper, true, f, e⟩ : Range).optimizeExponent =
        ⟨lower, true, upper, true, f, min implied e⟩ := by
      unfold optimizeExponent
      rw [← himplied]
      split
      · next hlt => rw [min_eq_left (le_of_lt hlt)]
      · next hge => rw [min_eq_right (not_lt.mp hge)]
    have hcode' (hint32 : implied ≤ maxInt32Exponent) : ExponentCode (min implied e) := by
      rcases min_choice implied e with hm | hm <;> rw [hm]
      · exact Or.inl (hint32.trans (by decide))
      · exact hcode
    rw [hexp]
    unfold optimizeFraction
    cases f with
    | false =>
      simp only [Bool.false_and, Bool.false_eq_true, if_false, assertInvariants_iff, hasInt32Bounds,
        Bool.and_self, Bool.true_eq_false, false_implies, true_and, exponentSlack, Bool.toNat_false,
        Nat.add_zero, false_and, and_false, not_false_eq_true, and_true]
      rw [← hreach, ← hreach]
      apply Iff.intro
      · rintro ⟨hint32, -, hmin⟩
        exact ⟨hint32, hcode, hmin.trans (min_le_right _ _)⟩
      · rintro ⟨hint32, -, hle⟩
        refine ⟨hint32, hcode' ?_, by rw [min_eq_left hle]⟩
        exact exponentImplied_le (r := ⟨lower, true, upper, true, false, e⟩) hint32.1 hint32.2.1 hint32.2.2
    | true =>
      by_cases heq : lower = upper
      · subst heq
        simp only [Bool.true_and, beq_self_eq_true, if_true, assertInvariants_iff, hasInt32Bounds,
          Bool.and_self, Bool.true_eq_false, false_implies, true_and, exponentSlack, Bool.toNat_false,
          Bool.toNat_true, Nat.add_zero, and_self, not_not]
        have hreach' (k : ℕ) : implied ≤ k ↔ Within lower k := by simpa using hreach k
        rw [← hreach', ← hreach', ← hreach']
        apply Iff.intro
        · rintro ⟨hint32, -, hmin⟩
          have hle := hmin.trans (min_le_right _ _)
          exact ⟨⟨hint32, hcode, by omega⟩, hle⟩
        · rintro ⟨⟨hint32, -, -⟩, hle⟩
          refine ⟨hint32, hcode' ?_, by rw [min_eq_left hle]⟩
          exact exponentImplied_le (r := ⟨lower, true, lower, true, true, e⟩) hint32.1 hint32.2.1 hint32.2.2
      · have hne : (lower == upper) = false := beq_eq_false_iff_ne.mpr heq
        simp only [Bool.true_and, hne, Bool.false_eq_true, if_false, assertInvariants_iff, hasInt32Bounds,
          Bool.and_self, Bool.true_eq_false, false_implies, true_and, exponentSlack, Bool.toNat_true, heq,
          false_and, not_false_eq_true, and_true]
        rw [← hreach, ← hreach]
        apply Iff.intro
        · rintro ⟨hint32, -, hmin⟩
          exact ⟨hint32, hcode, by omega⟩
        · rintro ⟨hint32, -, hle⟩
          refine ⟨hint32, hcode' ?_, by omega⟩
          exact exponentImplied_le (r := ⟨lower, true, upper, true, true, e⟩) hint32.1 hint32.2.1 hint32.2.2
  · rw [if_neg hbounds]
    simp [hbounds]

/-! ## Ranges set from sixty-four-bit bounds -/

/-- A bound that is out of int32 is in the reach of the exponent, and one that is not needs 31. -/
def Fits (z : ℤ) (e : ℕ) : Prop := Within z e ∨ maxInt32Exponent ≤ e

theorem Fits.le_of_lt (hz : Fits z e) (hlt : z < jsvalIntMin) : maxInt32Exponent ≤ e := by
  by_contra hne
  have hpow : 2 ^ (e + 1) ≤ 2 ^ 31 :=
    Nat.pow_le_pow_right (by decide) (by simp only [maxInt32Exponent] at hne; omega)
  have hw := hz.resolve_right hne
  simp only [Within, jsvalIntMin] at hw hlt
  omega

theorem Fits.le_of_gt (hz : Fits z e) (hlt : jsvalIntMax < z) : maxInt32Exponent ≤ e := by
  by_contra hne
  have hpow : 2 ^ (e + 1) ≤ 2 ^ 31 :=
    Nat.pow_le_pow_right (by decide) (by simp only [maxInt32Exponent] at hne; omega)
  have hw := hz.resolve_right hne
  simp only [Within, jsvalIntMax] at hw hlt
  omega

theorem Fits.within (hz : Fits z e) (hl : jsvalIntMin ≤ z) (hh : z ≤ jsvalIntMax) : Within z e :=
  hz.elim id fun he => within_of_int32 hl hh he

/-- A range set from bounds is valid if and only if the exponent reaches them, and also without the slack
of the fraction flag if there is only one value. -/
theorem set_invariants_iff (hle : jsvalIntMin ≤ l → h ≤ jsvalIntMax → l ≤ h) (hcode : ExponentCode e) :
    (set l h f e).AssertInvariants ↔
      Fits l (e + f.toNat) ∧ Fits h (e + f.toNat) ∧
        (f = true → l = h → jsvalIntMin ≤ l → h ≤ jsvalIntMax → Within l e) := by
  have hminmax : jsvalIntMin ≤ jsvalIntMax := by decide
  have hcases : ∃ r : Range, set l h f e = r.optimize ∧ r.canHaveFractionalPart = f ∧ r.maxExponent = e ∧
      ((l < jsvalIntMin ∧ r.lower = jsvalIntMin ∧ r.hasInt32LowerBound = false) ∨
        (jsvalIntMin ≤ l ∧ r.lower = min l jsvalIntMax ∧ r.hasInt32LowerBound = true)) ∧
      ((jsvalIntMax < h ∧ r.upper = jsvalIntMax ∧ r.hasInt32UpperBound = false) ∨
        (h ≤ jsvalIntMax ∧ r.upper = max h jsvalIntMin ∧ r.hasInt32UpperBound = true)) := by
    unfold set
    rcases setLowerInit_cases ⟨0, false, 0, false, f, e⟩ l with ⟨hl, heq⟩ | ⟨hl, heq⟩ <;> rw [heq] <;>
      rcases setUpperInit_cases _ h with ⟨hh, heq'⟩ | ⟨hh, heq'⟩ <;> rw [heq'] <;>
      refine ⟨_, rfl, rfl, rfl, ?_, ?_⟩ <;> simp [hl, hh]
  obtain ⟨r, hr, hrf, hre, hlow, hup⟩ := hcases
  have hslack : r.exponentSlack = e + f.toNat := by rw [exponentSlack, hrf, hre]
  rw [hr, optimize_invariants_iff (hre ▸ hcode), assertInvariants_iff, Pinched, hslack, hrf, hre,
    hasInt32Bounds]
  rcases hlow with ⟨hl, hrl, hlb⟩ | ⟨hl, hrl, hlb⟩ <;> rcases hup with ⟨hh, hrh, hhb⟩ | ⟨hh, hrh, hhb⟩ <;>
    rw [hrl, hrh, hlb, hhb]
  · -- both bounds are missing
    simp only [Bool.and_self, Bool.false_eq_true, false_and, not_false_eq_true, and_true, true_implies]
    apply Iff.intro
    · rintro ⟨-, -, -, -, hslack, -, -⟩
      exact ⟨Or.inr hslack, Or.inr hslack, fun _ _ hl' => by omega⟩
    · rintro ⟨hfl, -, -⟩
      have hslack := hfl.le_of_lt hl
      exact ⟨⟨le_refl _, le_refl _, hminmax⟩, trivial, trivial, hcode, hslack,
        within_of_int32 (le_refl _) hminmax hslack, within_of_int32 hminmax (le_refl _) hslack⟩
  · simp only [Bool.and_true, Bool.false_eq_true, false_and, not_false_eq_true, and_true, true_implies,
      Bool.true_eq_false, false_implies, true_and]
    apply Iff.intro
    · rintro ⟨-, -, hslack, -, -⟩
      exact ⟨Or.inr hslack, Or.inr hslack, fun _ _ hl' => by omega⟩
    · rintro ⟨hfl, -, -⟩
      have hslack := hfl.le_of_lt hl
      have hmax : jsvalIntMin ≤ max h jsvalIntMin := le_max_right _ _
      have hmax' : max h jsvalIntMin ≤ jsvalIntMax := max_le hh hminmax
      exact ⟨⟨le_refl _, hmax', hmax⟩, hcode, hslack, within_of_int32 (le_refl _) hminmax hslack,
        within_of_int32 hmax hmax' hslack⟩
  · simp only [Bool.true_and, Bool.false_eq_true, false_and, not_false_eq_true, and_true, true_implies,
      Bool.true_eq_false, false_implies, true_and]
    apply Iff.intro
    · rintro ⟨-, -, hslack, -, -⟩
      exact ⟨Or.inr hslack, Or.inr hslack, fun _ _ _ hh' => by omega⟩
    · rintro ⟨-, hfh, -⟩
      have hslack := hfh.le_of_gt hh
      have hmin : min l jsvalIntMax ≤ jsvalIntMax := min_le_right _ _
      have hmin' : jsvalIntMin ≤ min l jsvalIntMax := le_min hl hminmax
      exact ⟨⟨hmin', le_refl _, hmin⟩, hcode, hslack, within_of_int32 hmin' hmin hslack,
        within_of_int32 hminmax (le_refl _) hslack⟩
  · have hle := hle hl hh
    have hll : min l jsvalIntMax = l := min_eq_left (hle.trans hh)
    have hhh : max h jsvalIntMin = h := max_eq_left (hl.trans hle)
    simp only [hll, hhh, Bool.and_self, Bool.true_eq_false, false_implies, true_and, not_and, not_not]
    apply Iff.intro
    · rintro ⟨⟨-, -, hwl, hwh⟩, hpinch⟩
      exact ⟨Or.inl hwl, Or.inl hwh, fun hf heq _ _ => hpinch hf heq⟩
    · rintro ⟨hfl, hfh, hpinch⟩
      exact ⟨⟨⟨hl, hh, hle⟩, hcode, hfl.within hl (hle.trans hh), hfh.within (hl.trans hle) hh⟩,
        fun hf heq => hpinch hf heq hl hh⟩

end SpiderMonkey.Jit.Range
