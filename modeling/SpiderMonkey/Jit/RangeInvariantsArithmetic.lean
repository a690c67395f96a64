import SpiderMonkey.Jit.RangeInvariants

/-!
# Which ranges the operations keep valid

Three kinds of operands give an invalid range: bounds that contradict the exponent, fractional factors whose
bounds use the slack of both fraction flags, and an intersection that loses the fraction flag on which a
missing bound relies. All others give a valid one.
-/

namespace SpiderMonkey.Jit.Range

variable {r lhs rhs : Range} {l h z : ℤ} {e k : ℕ} {f : Bool}

/-- Bounds that contradict the exponent: no value is both between them and of that magnitude. -/
def Vacant (r : Range) : Prop :=
  r.hasInt32Bounds = true ∧ r.canHaveFractionalPart = true ∧ r.maxExponent < maxInt32Exponent ∧
    (2 ^ (r.maxExponent + 1) ≤ r.lower ∨ r.upper ≤ -2 ^ (r.maxExponent + 1))

/-- Fractional factors with bounds so far beyond the exponents that both flags are needed to reach the
product. -/
def MulLoose (lhs rhs : Range) : Prop :=
  lhs.hasInt32Bounds = true ∧ rhs.hasInt32Bounds = true ∧
    lhs.canHaveFractionalPart = true ∧ rhs.canHaveFractionalPart = true ∧
    lhs.maxExponent + rhs.maxExponent + 2 < maxInt32Exponent ∧
    2 ^ (lhs.maxExponent + rhs.maxExponent + 3) ≤
      max lhs.lower.natAbs lhs.upper.natAbs * max rhs.lower.natAbs rhs.upper.natAbs

/-- Ranges of which one alone is fractional, that share a missing bound, and of which the smaller exponent
is that of the largest int32. -/
def FractionLost (lhs rhs : Range) : Prop :=
  lhs.canHaveFractionalPart ≠ rhs.canHaveFractionalPart ∧ min lhs.maxExponent rhs.maxExponent = 30 ∧
    ((lhs.hasInt32LowerBound = false ∧ rhs.hasInt32LowerBound = false) ∨
      (lhs.hasInt32UpperBound = false ∧ rhs.hasInt32UpperBound = false)) ∧
    jsvalIntMin < min lhs.upper rhs.upper

theorem AssertInvariants.within_lower (hr : r.AssertInvariants) : Within r.lower r.exponentSlack :=
  log2_le_iff.mp hr.lower_exponent

theorem AssertInvariants.within_upper (hr : r.AssertInvariants) : Within r.upper r.exponentSlack :=
  log2_le_iff.mp hr.upper_exponent

/-- The one value of a range that is not vacant is in the reach of the exponent. -/
theorem AssertInvariants.within_of_eq (hr : r.AssertInvariants) (hv : ¬r.Vacant)
    (hb : r.hasInt32Bounds = true) (heq : r.lower = r.upper) : Within r.lower r.maxExponent := by
  cases hf : r.canHaveFractionalPart with
  | false => exact exponentSlack_eq_false hf ▸ hr.within_lower
  | true =>
    by_cases he : maxInt32Exponent ≤ r.maxExponent
    · exact within_of_int32 hr.lower_int32 (hr.lower_le_upper.trans hr.upper_int32) he
    · have hno : ¬(2 ^ (r.maxExponent + 1) ≤ r.lower ∨ r.upper ≤ -2 ^ (r.maxExponent + 1)) :=
        fun h => hv ⟨hb, hf, not_le.mp he, h⟩
      have hcast : ((2 ^ (r.maxExponent + 1) : ℕ) : ℤ) = 2 ^ (r.maxExponent + 1) := by push_cast; rfl
      unfold Within
      omega

/-- The range of int32 values between two bounds is valid. -/
theorem setInt32_invariants (hl : jsvalIntMin ≤ l) (hh : h ≤ jsvalIntMax) (hle : l ≤ h) :
    (setInt32 l h).AssertInvariants := by
  have hreach := (exponentImpliedByInt32Bounds_le_iff (r := ⟨l, true, h, true, false, 0⟩)).mp (le_refl _)
  have hle31 := exponentImplied_le (r := ⟨l, true, h, true, false, 0⟩) hl hh hle
  rw [assertInvariants_iff]
  exact ⟨⟨hl, hh, hle⟩, by simp [setInt32], by simp [setInt32], Or.inl (hle31.trans (by decide)),
    by simp [setInt32, hasInt32Bounds], hreach.1, hreach.2⟩

/-- `clampToInt32`. -/
theorem clampToInt32_invariants (hr : r.AssertInvariants) : r.clampToInt32.AssertInvariants := by
  have hmin : jsvalIntMin ≤ r.upper := hr.lower_int32.trans hr.lower_le_upper
  have hmax : r.lower ≤ jsvalIntMax := hr.lower_le_upper.trans hr.upper_int32
  unfold clampToInt32
  split
  · exact hr
  · apply setInt32_invariants
    · split
      · exact hr.lower_int32
      · exact le_refl _
    · split
      · exact hr.upper_int32
      · exact le_refl _
    · split <;> split
      · exact hr.lower_le_upper
      · exact hmax
      · exact hmin
      · decide

/-- `wrapAroundToInt32` gives a valid range if and only if the bounds do not contradict the exponent. -/
theorem wrapAroundToInt32_invariants_iff (hr : r.AssertInvariants) :
    r.wrapAroundToInt32.AssertInvariants ↔ ¬r.Vacant := by
  unfold wrapAroundToInt32
  by_cases hb : r.hasInt32Bounds = true
  · rw [if_neg (by simp [hb])]
    cases hf : r.canHaveFractionalPart with
    | false =>
      rw [if_neg Bool.false_ne_true]
      simp [hr, Vacant, hf]
    | true =>
      rw [if_pos rfl]
      by_cases he : maxInt32Exponent ≤ r.maxExponent
      · have hv : ¬r.Vacant := fun hv => absurd he (not_le.mpr hv.2.2.1)
        simp only [hv, not_false_eq_true, iff_true]
        rw [refineInt32BoundsByExponent_of_le he, assertInvariants_iff]
        have hall := assertInvariants_iff.mp hr
        refine ⟨hall.1, hall.2.1, hall.2.2.1, hall.2.2.2.1, fun hb' => ?_, ?_, ?_⟩
        · simp only [hasInt32Bounds] at hb hb'
          rw [hb] at hb'
          cases hb'
        · exact within_of_int32 hr.lower_int32 (hr.lower_le_upper.trans hr.upper_int32) he
        · exact within_of_int32 (hr.lower_int32.trans hr.lower_le_upper) hr.upper_int32 he
      · rw [not_le] at he
        have hcast : ((2 ^ (r.maxExponent + 1) : ℕ) : ℤ) = 2 ^ (r.maxExponent + 1) := by push_cast; rfl
        have hpos : 0 < 2 ^ (r.maxExponent + 1) := Nat.two_pow_pos _
        have hle := hr.lower_le_upper
        simp only [refineInt32BoundsByExponent, if_pos he]
        apply Iff.intro
        · rintro hinv ⟨-, -, -, hout⟩
          have hle' := hinv.lower_le_upper
          simp only at hle'
          rcases hout with hout | hout <;> omega
        · intro hv
          have hno : ¬(2 ^ (r.maxExponent + 1) ≤ r.lower ∨ r.upper ≤ -2 ^ (r.maxExponent + 1)) :=
            fun h => hv ⟨hb, hf, he, h⟩
          have hbs : r.hasInt32LowerBound = true ∧ r.hasInt32UpperBound = true := by
            simpa [hasInt32Bounds] using hb
          have hl32 := hr.lower_int32
          have hh32 := hr.upper_int32
          rw [assertInvariants_iff]
          refine ⟨⟨?_, ?_, ?_⟩, by simp [hbs], by simp [hbs], hr.exponent_code, by simp [hasInt32Bounds, hbs], ?_, ?_⟩
          · exact le_trans hl32 (le_max_left _ _)
          · exact le_trans (min_le_left _ _) hh32
          · simp only
            omega
          · simp only [exponentSlack, Bool.toNat_false, Nat.add_zero, Within]
            omega
          · simp only [exponentSlack, Bool.toNat_false, Nat.add_zero, Within]
            omega
  · have hb' : r.hasInt32Bounds = false := Bool.not_eq_true _ ▸ hb
    rw [if_pos (by simp [hb'])]
    have hv : ¬r.Vacant := fun hv => hb hv.1
    simp only [hv, not_false_eq_true, iff_true]
    exact setInt32_invariants (le_refl _) (le_refl _) (by decide)

/-- The larger of two exponents. -/
theorem ExponentCode.max (hl : ExponentCode e) (hr : ExponentCode k) : ExponentCode (max e k) := by
  rcases max_choice e k with hm | hm <;> rw [hm] <;> assumption

/-- The smaller of two exponents. -/
theorem ExponentCode.min (hl : ExponentCode e) (hr : ExponentCode k) : ExponentCode (min e k) := by
  rcases min_choice e k with hm | hm <;> rw [hm] <;> assumption

/-- The slack of the larger exponent and of either fraction flag. -/
theorem exponentSlack_le_left (lhs rhs : Range) :
    lhs.exponentSlack ≤ max lhs.maxExponent rhs.maxExponent +
      (lhs.canHaveFractionalPart || rhs.canHaveFractionalPart).toNat := by
  unfold exponentSlack
  cases lhs.canHaveFractionalPart <;> simp <;> omega

theorem exponentSlack_le_right (lhs rhs : Range) :
    rhs.exponentSlack ≤ max lhs.maxExponent rhs.maxExponent +
      (lhs.canHaveFractionalPart || rhs.canHaveFractionalPart).toNat := by
  rw [max_comm, Bool.or_comm]
  exact exponentSlack_le_left rhs lhs

/-- `abs`. -/
theorem abs_invariants (hr : r.AssertInvariants) (hv : ¬r.Vacant) : r.abs.AssertInvariants := by
  have h1 := hr.lower_int32
  have h2 := hr.upper_int32
  have h3 := hr.lower_le_upper
  have hwl := hr.within_lower
  have hwu := hr.within_upper
  have hmax {z : ℤ} (hz : Within z r.exponentSlack) :
      Within (if z = jsvalIntMin then jsvalIntMax else -z) r.exponentSlack := by
    split
    · next heq =>
      rw [heq] at hz
      simp only [Within, jsvalIntMin, jsvalIntMax] at hz ⊢
      omega
    · exact hz.neg
  have hlow : (if r.lower = jsvalIntMin then jsvalIntMax else -r.lower) ≤ jsvalIntMax := by
    split
    · exact le_refl _
    · simp only [jsvalIntMin, jsvalIntMax] at *
      omega
  have hupp : (if r.upper = jsvalIntMin then jsvalIntMax else -r.upper) ≤ jsvalIntMax := by
    split
    · exact le_refl _
    · simp only [jsvalIntMin, jsvalIntMax] at *
      omega
  have hanti : (if r.upper = jsvalIntMin then jsvalIntMax else -r.upper) ≤
      if r.lower = jsvalIntMin then jsvalIntMax else -r.lower := by
    split <;> split <;> simp only [jsvalIntMin, jsvalIntMax] at * <;> omega
  unfold Range.abs
  refine (optimize_invariants_iff (by exact hr.exponent_code)).mpr
    ⟨assertInvariants_iff.mpr ⟨⟨?_, ?_, ?_⟩, by rintro ⟨⟩, ?_, hr.exponent_code, ?_, ?_, ?_⟩, ?_⟩
  · exact le_trans (by decide) (le_trans (le_max_left 0 r.lower) (le_max_left _ _))
  · exact max_le (max_le (by decide) h2) hlow
  · exact max_le (max_le ((le_max_left _ _).trans (le_max_left _ _))
      (h3.trans ((le_max_right _ _).trans (le_max_left _ _)))) (hanti.trans (le_max_right _ _))
  · simp only [Bool.and_eq_false_iff, bne_eq_false_iff_eq]
    rintro ((h | h) | h)
    · rw [hr.lower_eq h, if_pos rfl]
      exact max_eq_right (max_le (by decide) h2)
    · rw [hr.upper_eq h]
      exact le_antisymm (max_le (max_le (by decide) (le_refl _)) hlow)
        ((le_max_right _ _).trans (le_max_left _ _))
    · rw [if_pos h]
      exact max_eq_right (max_le (by decide) h2)
  · simp only [hasInt32Bounds, Bool.true_and, Bool.and_eq_false_iff, bne_eq_false_iff_eq]
    rintro ((h | h) | h)
    · exact hr.missing_bound (Or.inl h)
    · exact hr.missing_bound (Or.inr h)
    · have hlog : maxInt32Exponent ≤ r.lower.natAbs.log2 := by rw [h]; decide
      exact hlog.trans hr.lower_exponent
  · exact (within_zero.max hwl).max (hmax hwu)
  · exact (within_zero.max hwu).max (hmax hwl)
  · rintro ⟨hb, hf, heq, hno⟩
    simp only [hasInt32Bounds, Bool.true_and, Bool.and_eq_true, bne_iff_ne] at hb
    obtain ⟨hbounds, hne⟩ := hb
    have hune : r.upper ≠ jsvalIntMin := fun h => hne (le_antisymm (h ▸ h3) h1)
    simp only [if_neg hne, if_neg hune] at heq hno
    have hbs : r.hasInt32Bounds = true := by simpa [hasInt32Bounds] using hbounds
    by_cases hcross : r.lower ≤ 0 ∧ 0 ≤ r.upper
    · have hzero : max (max 0 r.lower) (-r.upper) = 0 := by omega
      rw [hzero] at hno
      exact hno within_zero
    · have hll : r.lower = r.upper := by omega
      have hw := hr.within_of_eq hv hbs hll
      have hval : max (max 0 r.lower) (-r.upper) = r.lower ∨ max (max 0 r.lower) (-r.upper) = -r.lower := by
        omega
      rcases hval with hval | hval <;> rw [hval] at hno
      · exact hno hw
      · exact hno hw.neg

/-- A range whose bounds are those of two operands, with the larger exponent and either fraction flag. One
value of it is the one value of an operand. -/
theorem combine_invariants (hl : lhs.AssertInvariants) (hr : rhs.AssertInvariants) (hvl : ¬lhs.Vacant)
    (hvr : ¬rhs.Vacant) {lower upper : ℤ} {lb hb : Bool} (hle : lower ≤ upper)
    (hlow : lower = lhs.lower ∨ lower = rhs.lower) (hupp : upper = lhs.upper ∨ upper = rhs.upper)
    (hlb : lb = false →
      lower = jsvalIntMin ∧ (lhs.hasInt32LowerBound = false ∨ rhs.hasInt32LowerBound = false))
    (hhb : hb = false →
      upper = jsvalIntMax ∧ (lhs.hasInt32UpperBound = false ∨ rhs.hasInt32UpperBound = false))
    (hone : lb = true → hb = true → lower = upper →
      (lhs.hasInt32Bounds = true ∧ lhs.lower = lhs.upper ∧ lhs.lower = lower) ∨
        (rhs.hasInt32Bounds = true ∧ rhs.lower = rhs.upper ∧ rhs.lower = lower)) :
    (rawInitialize lower lb upper hb (lhs.canHaveFractionalPart || rhs.canHaveFractionalPart)
      (max lhs.maxExponent rhs.maxExponent)).AssertInvariants := by
  have hcode := hl.exponent_code.max hr.exponent_code
  have hsl := exponentSlack_le_left lhs rhs
  have hsr := exponentSlack_le_right lhs rhs
  refine (optimize_invariants_iff hcode).mpr
    ⟨assertInvariants_iff.mpr ⟨⟨?_, ?_, hle⟩, fun h => (hlb h).1, fun h => (hhb h).1, hcode, ?_, ?_, ?_⟩, ?_⟩
  · rcases hlow with h | h <;> simp only [h]
    · exact hl.lower_int32
    · exact hr.lower_int32
  · rcases hupp with h | h <;> simp only [h]
    · exact hl.upper_int32
    · exact hr.upper_int32
  · simp only [hasInt32Bounds, Bool.and_eq_false_iff]
    rintro (h | h)
    · rcases (hlb h).2 with h | h
      · exact (hl.missing_bound (Or.inl h)).trans hsl
      · exact (hr.missing_bound (Or.inl h)).trans hsr
    · rcases (hhb h).2 with h | h
      · exact (hl.missing_bound (Or.inr h)).trans hsl
      · exact (hr.missing_bound (Or.inr h)).trans hsr
  · rcases hlow with h | h <;> simp only [h]
    · exact hl.within_lower.mono hsl
    · exact hr.within_lower.mono hsr
  · rcases hupp with h | h <;> simp only [h]
    · exact hl.within_upper.mono hsl
    · exact hr.within_upper.mono hsr
  · rintro ⟨hb, -, heq, hno⟩
    simp only [hasInt32Bounds, Bool.and_eq_true] at hb
    simp only at heq hno
    rcases hone hb.1 hb.2 heq with ⟨hbs, hsame, hval⟩ | ⟨hbs, hsame, hval⟩ <;> rw [← hval] at hno
    · exact hno ((hl.within_of_eq hvl hbs hsame).mono (le_max_left _ _))
    · exact hno ((hr.within_of_eq hvr hbs hsame).mono (le_max_right _ _))

/-- `unionWith`. -/
theorem unionWith_invariants (hl : lhs.AssertInvariants) (hr : rhs.AssertInvariants) (hvl : ¬lhs.Vacant)
    (hvr : ¬rhs.Vacant) : (lhs.unionWith rhs).AssertInvariants := by
  have hl1 := hl.lower_int32
  have hl2 := hl.upper_int32
  have hl3 := hl.lower_le_upper
  have hr1 := hr.lower_int32
  have hr2 := hr.upper_int32
  apply combine_invariants hl hr hvl hvr (by omega) (min_choice _ _) (max_choice _ _)
  · rw [Bool.and_eq_false_iff]
    rintro (h | h)
    · have := hl.lower_eq h
      exact ⟨by omega, Or.inl h⟩
    · have := hr.lower_eq h
      exact ⟨by omega, Or.inr h⟩
  · rw [Bool.and_eq_false_iff]
    rintro (h | h)
    · have := hl.upper_eq h
      exact ⟨by omega, Or.inl h⟩
    · have := hr.upper_eq h
      exact ⟨by omega, Or.inr h⟩
  · simp only [Bool.and_eq_true]
    intro hlb hhb heq
    exact Or.inl ⟨by simp [hasInt32Bounds, hlb.1, hhb.1], by omega, by omega⟩

/-- `min`. -/
theorem min_invariants (hl : lhs.AssertInvariants) (hr : rhs.AssertInvariants) (hvl : ¬lhs.Vacant)
    (hvr : ¬rhs.Vacant) (hm : Range.min lhs rhs = some r) : r.AssertInvariants := by
  have hl1 := hl.lower_int32
  have hl2 := hl.upper_int32
  have hl3 := hl.lower_le_upper
  have hr1 := hr.lower_int32
  have hr2 := hr.upper_int32
  have hr3 := hr.lower_le_upper
  unfold Range.min at hm
  split at hm
  · cases hm
  · obtain rfl := Option.some.inj hm
    apply combine_invariants hl hr hvl hvr (by omega) (min_choice _ _) (min_choice _ _)
    · rw [Bool.and_eq_false_iff]
      rintro (h | h)
      · have := hl.lower_eq h
        exact ⟨by omega, Or.inl h⟩
      · have := hr.lower_eq h
        exact ⟨by omega, Or.inr h⟩
    · rw [Bool.or_eq_false_iff]
      rintro ⟨h, h'⟩
      have := hl.upper_eq h
      have := hr.upper_eq h'
      exact ⟨by omega, Or.inl h⟩
    · simp only [Bool.and_eq_true, Bool.or_eq_true]
      intro hlb hhb heq
      -- the smaller upper bound is a real one
      by_cases hside : lhs.hasInt32UpperBound = true ∧ lhs.upper ≤ rhs.upper
      · exact Or.inl ⟨by simp [hasInt32Bounds, hlb.1, hside.1], by omega, by omega⟩
      · have hru : rhs.hasInt32UpperBound = true ∧ rhs.upper ≤ lhs.upper := by
          cases hlu : lhs.hasInt32UpperBound with
          | false =>
            have := hl.upper_eq hlu
            exact ⟨hhb.resolve_left (by simp [hlu]), by omega⟩
          | true =>
            have hlt : rhs.upper < lhs.upper := not_le.mp fun hle => hside ⟨hlu, hle⟩
            refine ⟨?_, hlt.le⟩
            by_contra hno
            have := hr.upper_eq (Bool.not_eq_true _ ▸ hno)
            omega
        exact Or.inr ⟨by simp [hasInt32Bounds, hlb.2, hru.1], by omega, by omega⟩

/-- `max`. -/
theorem max_invariants (hl : lhs.AssertInvariants) (hr : rhs.AssertInvariants) (hvl : ¬lhs.Vacant)
    (hvr : ¬rhs.Vacant) (hm : Range.max lhs rhs = some r) : r.AssertInvariants := by
  have hl1 := hl.lower_int32
  have hl2 := hl.upper_int32
  have hl3 := hl.lower_le_upper
  have hr1 := hr.lower_int32
  have hr2 := hr.upper_int32
  have hr3 := hr.lower_le_upper
  unfold Range.max at hm
  split at hm
  · cases hm
  · obtain rfl := Option.some.inj hm
    apply combine_invariants hl hr hvl hvr (by omega) (max_choice _ _) (max_choice _ _)
    · rw [Bool.or_eq_false_iff]
      rintro ⟨h, h'⟩
      have := hl.lower_eq h
      have := hr.lower_eq h'
      exact ⟨by omega, Or.inl h⟩
    · rw [Bool.and_eq_false_iff]
      rintro (h | h)
      · have := hl.upper_eq h
        exact ⟨by omega, Or.inl h⟩
      · have := hr.upper_eq h
        exact ⟨by omega, Or.inr h⟩
    · simp only [Bool.and_eq_true, Bool.or_eq_true]
      intro hlb hhb heq
      -- the larger lower bound is a real one
      by_cases hside : lhs.hasInt32LowerBound = true ∧ rhs.lower ≤ lhs.lower
      · exact Or.inl ⟨by simp [hasInt32Bounds, hhb.1, hside.1], by omega, by omega⟩
      · have hrl : rhs.hasInt32LowerBound = true ∧ lhs.lower ≤ rhs.lower := by
          cases hll : lhs.hasInt32LowerBound with
          | false =>
            have := hl.lower_eq hll
            exact ⟨hlb.resolve_left (by simp [hll]), by omega⟩
          | true =>
            have hlt : lhs.lower < rhs.lower := not_le.mp fun hle => hside ⟨hll, hle⟩
            refine ⟨?_, hlt.le⟩
            by_contra hno
            have := hr.lower_eq (Bool.not_eq_true _ ▸ hno)
            omega
        exact Or.inr ⟨by simp [hasInt32Bounds, hhb.2, hrl.1], by omega, by omega⟩

/-- The exponent of a sum. -/
theorem addExponent_spec (hl : lhs.AssertInvariants) (hr : rhs.AssertInvariants) :
    ExponentCode (addExponent lhs rhs) ∧
      (max lhs.maxExponent rhs.maxExponent + 1 ≤ addExponent lhs rhs ∨ 33 ≤ addExponent lhs rhs) := by
  have hcode := hl.exponent_code.max hr.exponent_code
  unfold addExponent
  split
  · exact ⟨Or.inr (Or.inr rfl), Or.inr (by decide)⟩
  · by_cases hfinite : max lhs.maxExponent rhs.maxExponent ≤ maxFiniteExponent
    · simp only [if_pos hfinite]
      refine ⟨?_, Or.inl (le_refl _)⟩
      rcases hfinite.lt_or_eq with hlt | heq
      · exact Or.inl hlt
      · exact Or.inr (Or.inl (by rw [heq]; rfl))
    · simp only [if_neg hfinite]
      refine ⟨hcode, Or.inr ?_⟩
      simp only [maxFiniteExponent] at hfinite
      omega

/-- A sum of two bounds is in the reach of the exponent of a sum. -/
theorem within_addExponent (hl : lhs.AssertInvariants) (hr : rhs.AssertInvariants) {a b : ℤ} {s : ℕ}
    (ha : Within a (max lhs.maxExponent rhs.maxExponent + s))
    (hb : Within b (max lhs.maxExponent rhs.maxExponent + s))
    (ha32 : Within a maxInt32Exponent) (hb32 : Within b maxInt32Exponent) :
    Within (a + b) (addExponent lhs rhs + s) := by
  rcases (addExponent_spec hl hr).2 with he | he
  · exact (ha.add hb).mono (by omega)
  · exact (ha32.add hb32).mono (by simp only [maxInt32Exponent]; omega)

/-- Bounds of int32 ranges are in the reach of 31. -/
theorem AssertInvariants.int32_lower (hr : r.AssertInvariants) : Within r.lower maxInt32Exponent :=
  within_of_int32 hr.lower_int32 (hr.lower_le_upper.trans hr.upper_int32) (le_refl _)

theorem AssertInvariants.int32_upper (hr : r.AssertInvariants) : Within r.upper maxInt32Exponent :=
  within_of_int32 (hr.lower_int32.trans hr.lower_le_upper) hr.upper_int32 (le_refl _)

/-- The slack of a sum is that of int32 where a bound is missing. -/
theorem slack_of_missing_add (hl : lhs.AssertInvariants) (hr : rhs.AssertInvariants)
    (h : lhs.hasInt32Bounds = false ∨ rhs.hasInt32Bounds = false) :
    maxInt32Exponent ≤
      addExponent lhs rhs + (lhs.canHaveFractionalPart || rhs.canHaveFractionalPart).toNat := by
  have hsl := exponentSlack_le_left lhs rhs
  have hsr := exponentSlack_le_right lhs rhs
  have hbound : maxInt32Exponent ≤ max lhs.maxExponent rhs.maxExponent +
      (lhs.canHaveFractionalPart || rhs.canHaveFractionalPart).toNat := by
    rcases h with h | h
    · exact (hl.missing_bound (Bool.and_eq_false_iff.mp h)).trans hsl
    · exact (hr.missing_bound (Bool.and_eq_false_iff.mp h)).trans hsr
  simp only [maxInt32Exponent] at hbound ⊢
  rcases (addExponent_spec hl hr).2 with he | he <;> omega

/-- `add`. -/
theorem add_invariants (hl : lhs.AssertInvariants) (hr : rhs.AssertInvariants) (hvl : ¬lhs.Vacant)
    (hvr : ¬rhs.Vacant) : (lhs.add rhs).AssertInvariants := by
  have hsl := exponentSlack_le_left lhs rhs
  have hsr := exponentSlack_le_right lhs rhs
  have hl1 := hl.lower_int32
  have hl2 := hl.upper_int32
  have hl3 := hl.lower_le_upper
  have hr1 := hr.lower_int32
  have hr2 := hr.upper_int32
  have hr3 := hr.lower_le_upper
  have hmiss := slack_of_missing_add hl hr
  have hlow := within_addExponent hl hr (hl.within_lower.mono hsl) (hr.within_lower.mono hsr) hl.int32_lower
    hr.int32_lower
  have hupp := within_addExponent hl hr (hl.within_upper.mono hsl) (hr.within_upper.mono hsr) hl.int32_upper
    hr.int32_upper
  unfold Range.add
  refine (set_invariants_iff ?_ (addExponent_spec hl hr).1).mpr ⟨?_, ?_, ?_⟩
  · intro hlo hhi
    split at hlo
    · exact absurd hlo (by decide)
    · next h =>
      split at hhi
      · exact absurd hhi (by decide)
      · next h' =>
        rw [if_neg h, if_neg h']
        omega
  · split
    · next h =>
      apply Or.inr
      apply hmiss
      simp only [hasInt32Bounds, Bool.and_eq_false_iff]
      rcases Bool.or_eq_true_iff.mp h with h | h <;> simp only [Bool.not_eq_true'] at h <;> simp [h]
    · exact Or.inl hlow
  · split
    · next h =>
      apply Or.inr
      apply hmiss
      simp only [hasInt32Bounds, Bool.and_eq_false_iff]
      rcases Bool.or_eq_true_iff.mp h with h | h <;> simp only [Bool.not_eq_true'] at h <;> simp [h]
    · exact Or.inl hupp
  · intro _ heq hlo hhi
    split at heq
    · next h =>
      rw [if_pos h] at hlo
      exact absurd hlo (by decide)
    · next h =>
      split at heq
      · next h' =>
        rw [if_pos h'] at hhi
        exact absurd hhi (by decide)
      · next h' =>
        rw [if_neg h]
        simp only [Bool.or_eq_true, Bool.not_eq_true', not_or, Bool.not_eq_false] at h h'
        have hwl := hl.within_of_eq hvl (by simp [hasInt32Bounds, h.1, h'.1]) (by omega)
        have hwr := hr.within_of_eq hvr (by simp [hasInt32Bounds, h.2, h'.2]) (by omega)
        exact within_addExponent (s := 0) hl hr (hwl.mono (le_max_left _ _)) (hwr.mono (le_max_right _ _))
          hl.int32_lower hr.int32_lower

/-- `sub`. -/
theorem sub_invariants (hl : lhs.AssertInvariants) (hr : rhs.AssertInvariants) (hvl : ¬lhs.Vacant)
    (hvr : ¬rhs.Vacant) : (lhs.sub rhs).AssertInvariants := by
  have hsl := exponentSlack_le_left lhs rhs
  have hsr := exponentSlack_le_right lhs rhs
  have hl1 := hl.lower_int32
  have hl2 := hl.upper_int32
  have hl3 := hl.lower_le_upper
  have hr1 := hr.lower_int32
  have hr2 := hr.upper_int32
  have hr3 := hr.lower_le_upper
  have hmiss := slack_of_missing_add hl hr
  have hlow := within_addExponent hl hr (hl.within_lower.mono hsl) (hr.within_upper.mono hsr).neg
    hl.int32_lower hr.int32_upper.neg
  have hupp := within_addExponent hl hr (hl.within_upper.mono hsl) (hr.within_lower.mono hsr).neg
    hl.int32_upper hr.int32_lower.neg
  rw [← sub_eq_add_neg] at hlow hupp
  unfold Range.sub
  refine (set_invariants_iff ?_ (addExponent_spec hl hr).1).mpr ⟨?_, ?_, ?_⟩
  · intro hlo hhi
    split at hlo
    · exact absurd hlo (by decide)
    · next h =>
      split at hhi
      · exact absurd hhi (by decide)
      · next h' =>
        rw [if_neg h, if_neg h']
        omega
  · split
    · next h =>
      apply Or.inr
      apply hmiss
      simp only [hasInt32Bounds, Bool.and_eq_false_iff]
      rcases Bool.or_eq_true_iff.mp h with h | h <;> simp only [Bool.not_eq_true'] at h <;> simp [h]
    · exact Or.inl hlow
  · split
    · next h =>
      apply Or.inr
      apply hmiss
      simp only [hasInt32Bounds, Bool.and_eq_false_iff]
      rcases Bool.or_eq_true_iff.mp h with h | h <;> simp only [Bool.not_eq_true'] at h <;> simp [h]
    · exact Or.inl hupp
  · intro _ heq hlo hhi
    split at heq
    · next h =>
      rw [if_pos h] at hlo
      exact absurd hlo (by decide)
    · next h =>
      split at heq
      · next h' =>
        rw [if_pos h'] at hhi
        exact absurd hhi (by decide)
      · next h' =>
        rw [if_neg h]
        simp only [Bool.or_eq_true, Bool.not_eq_true', not_or, Bool.not_eq_false] at h h'
        have hwl := hl.within_of_eq hvl (by simp [hasInt32Bounds, h.1, h'.1]) (by omega)
        have hsame : rhs.lower = rhs.upper := by omega
        have hwr := hr.within_of_eq hvr (by simp [hasInt32Bounds, h.2, h'.2]) hsame
        rw [hsame] at hwr
        exact within_addExponent (s := 0) hl hr (hwl.mono (le_max_left _ _)) (hwr.neg.mono (le_max_right _ _))
          hl.int32_lower hr.int32_upper.neg

/-- Products reach as far as the exponents together. -/
theorem Within.mul (hl : Within l e) (hh : Within h k) : Within (l * h) (e + k + 1) := by
  unfold Within at *
  rw [Int.natAbs_mul]
  calc l.natAbs * h.natAbs < 2 ^ (e + 1) * 2 ^ (k + 1) := Nat.mul_lt_mul'' hl hh
    _ = 2 ^ (e + k + 1 + 1) := by rw [← Nat.pow_add]; congr 1; omega

/-- The exponent of a product. -/
theorem mulExponent_spec (lhs rhs : Range) :
    ExponentCode (mulExponent lhs rhs) ∧
      (mulExponent lhs rhs = lhs.maxExponent + rhs.maxExponent + 1 ∨ 1024 ≤ mulExponent lhs rhs) := by
  unfold mulExponent
  split
  · have hbits : lhs.numBits + rhs.numBits - 1 = lhs.maxExponent + rhs.maxExponent + 1 := by
      simp only [numBits]
      omega
    rw [hbits]
    by_cases hbig : maxFiniteExponent < lhs.maxExponent + rhs.maxExponent + 1
    · simp only [hbig, if_true]
      exact ⟨Or.inr (Or.inl rfl), Or.inr (by decide)⟩
    · simp only [hbig, if_false]
      exact ⟨Or.inl (not_lt.mp hbig), Or.inl trivial⟩
  · split
    · exact ⟨Or.inr (Or.inl rfl), Or.inr (by decide)⟩
    · exact ⟨Or.inr (Or.inr rfl), Or.inr (by decide)⟩

/-- The exponent is the sum of small exponents, and one more. -/
theorem mulExponent_of_lt (h : lhs.maxExponent + rhs.maxExponent < maxInt32Exponent) :
    mulExponent lhs rhs = lhs.maxExponent + rhs.maxExponent + 1 := by
  simp only [maxInt32Exponent] at h
  have hl : lhs.canBeInfiniteOrNaN = false := by
    rw [← Bool.not_eq_true, canBeInfiniteOrNaN_iff, includesInfinity, maxFiniteExponent]
    omega
  have hr : rhs.canBeInfiniteOrNaN = false := by
    rw [← Bool.not_eq_true, canBeInfiniteOrNaN_iff, includesInfinity, maxFiniteExponent]
    omega
  have hbits : lhs.numBits + rhs.numBits - 1 = lhs.maxExponent + rhs.maxExponent + 1 := by
    simp only [numBits]
    omega
  have hsmall : ¬maxFiniteExponent < lhs.maxExponent + rhs.maxExponent + 1 := by
    rw [maxFiniteExponent]
    omega
  simp only [mulExponent, hl, hr, hbits, hsmall, Bool.not_false, Bool.and_self, if_true, if_false]

/-- A bound of a product is a product of bounds. -/
theorem min_four (a b c d : ℤ) : min (min a b) (min c d) = a ∨ min (min a b) (min c d) = b ∨
    min (min a b) (min c d) = c ∨ min (min a b) (min c d) = d := by
  omega

theorem max_four (a b c d : ℤ) : max (max a b) (max c d) = a ∨ max (max a b) (max c d) = b ∨
    max (max a b) (max c d) = c ∨ max (max a b) (max c d) = d := by
  omega

/-- Products with the same value everywhere on a box have single factors, or the value is zero. -/
theorem eq_of_products_eq {a b c d : ℤ} (h1 : a * c = a * d) (h2 : a * c = b * c) :
    a * c = 0 ∨ (a = b ∧ c = d) := by
  by_cases hz : a * c = 0
  · exact Or.inl hz
  · obtain ⟨ha, hc⟩ := mul_ne_zero_iff.mp hz
    exact Or.inr ⟨mul_right_cancel₀ hc h2, mul_left_cancel₀ ha h1⟩

/-- The products of bounds that are not loose are in the reach of the exponent of a product, or out of
int32 with an exponent that says so. -/
theorem fits_product (hl : lhs.AssertInvariants) (hr : rhs.AssertInvariants)
    (hbl : lhs.hasInt32Bounds = true) (hbr : rhs.hasInt32Bounds = true) (hloose : ¬MulLoose lhs rhs)
    {a b : ℤ} (ha : a = lhs.lower ∨ a = lhs.upper) (hb : b = rhs.lower ∨ b = rhs.upper) :
    Fits (a * b)
      (mulExponent lhs rhs + (lhs.canHaveFractionalPart || rhs.canHaveFractionalPart).toNat) := by
  have hwa : Within a lhs.exponentSlack := by
    rcases ha with rfl | rfl
    · exact hl.within_lower
    · exact hl.within_upper
  have hwb : Within b rhs.exponentSlack := by
    rcases hb with rfl | rfl
    · exact hr.within_lower
    · exact hr.within_upper
  rcases (mulExponent_spec lhs rhs).2 with he | he
  · rw [he]
    by_cases hboth : lhs.canHaveFractionalPart = true ∧ rhs.canHaveFractionalPart = true
    · by_cases hsmall : lhs.maxExponent + rhs.maxExponent + 2 < maxInt32Exponent
      · have hle : ¬2 ^ (lhs.maxExponent + rhs.maxExponent + 3) ≤
            max lhs.lower.natAbs lhs.upper.natAbs * max rhs.lower.natAbs rhs.upper.natAbs :=
          fun h => hloose ⟨hbl, hbr, hboth.1, hboth.2, hsmall, h⟩
        apply Or.inl
        rw [hboth.1, hboth.2]
        unfold Within
        rw [Int.natAbs_mul]
        refine lt_of_le_of_lt (Nat.mul_le_mul ?_ ?_) (not_le.mp hle)
        · rcases ha with rfl | rfl
          · exact le_max_left _ _
          · exact le_max_right _ _
        · rcases hb with rfl | rfl
          · exact le_max_left _ _
          · exact le_max_right _ _
      · apply Or.inr
        rw [hboth.1, hboth.2]
        simp only [maxInt32Exponent] at hsmall ⊢
        simp only [Bool.or_true, Bool.toNat_true]
        omega
    · apply Or.inl
      refine (hwa.mul hwb).mono ?_
      unfold exponentSlack
      cases hlf : lhs.canHaveFractionalPart <;> cases hrf : rhs.canHaveFractionalPart <;>
        simp only [hlf, hrf, Bool.or_false, Bool.or_true, Bool.toNat_true, Bool.toNat_false, and_self,
          not_true_eq_false] at hboth ⊢ <;> omega
  · exact Or.inr (le_trans (by decide) (he.trans (Nat.le_add_right _ _)))

/-- `mul` gives a valid range if and only if the factors are not loose. -/
theorem mul_invariants_iff (hl : lhs.AssertInvariants) (hr : rhs.AssertInvariants) (hvl : ¬lhs.Vacant)
    (hvr : ¬rhs.Vacant) : (lhs.mul rhs).AssertInvariants ↔ ¬MulLoose lhs rhs := by
  have hcode := (mulExponent_spec lhs rhs).1
  have hl3 := hl.lower_le_upper
  have hr3 := hr.lower_le_upper
  unfold Range.mul
  by_cases hmiss : missingAnyInt32Bounds lhs rhs = true
  · have hsome : lhs.hasInt32Bounds = false ∨ rhs.hasInt32Bounds = false := by
      simp only [missingAnyInt32Bounds, Bool.or_eq_true, Bool.not_eq_true'] at hmiss
      simp only [hasInt32Bounds, Bool.and_eq_false_iff]
      tauto
    have hno : ¬MulLoose lhs rhs := by
      rintro ⟨hbl, hbr, -⟩
      rcases hsome with h | h
      · rw [hbl] at h
        cases h
      · rw [hbr] at h
        cases h
    have hslack : maxInt32Exponent ≤
        mulExponent lhs rhs + (lhs.canHaveFractionalPart || rhs.canHaveFractionalPart).toNat := by
      have hone : maxInt32Exponent ≤ lhs.exponentSlack ∨ maxInt32Exponent ≤ rhs.exponentSlack := by
        rcases hsome with h | h
        · exact Or.inl (hl.missing_bound (Bool.and_eq_false_iff.mp h))
        · exact Or.inr (hr.missing_bound (Bool.and_eq_false_iff.mp h))
      have hsl := exponentSlack_le_left lhs rhs
      have hsr := exponentSlack_le_right lhs rhs
      simp only [maxInt32Exponent] at hone ⊢
      rcases (mulExponent_spec lhs rhs).2 with he | he <;> omega
    simp only [hmiss, if_true, hno, not_false_eq_true, iff_true]
    rw [set_invariants_iff (by decide) hcode]
    exact ⟨Or.inr hslack, Or.inr hslack, fun _ h => absurd h (by decide)⟩
  · have hbl : lhs.hasInt32Bounds = true := by
      simp only [missingAnyInt32Bounds, Bool.or_eq_true, Bool.not_eq_true', not_or, Bool.not_eq_false] at hmiss
      simp [hasInt32Bounds, hmiss]
    have hbr : rhs.hasInt32Bounds = true := by
      simp only [missingAnyInt32Bounds, Bool.or_eq_true, Bool.not_eq_true', not_or, Bool.not_eq_false] at hmiss
      simp [hasInt32Bounds, hmiss]
    simp only [hmiss, Bool.false_eq_true, if_false]
    set a := lhs.lower * rhs.lower with ha
    set b := lhs.lower * rhs.upper with hb
    set c := lhs.upper * rhs.lower with hc
    set d := lhs.upper * rhs.upper with hd
    rw [set_invariants_iff (fun _ _ => by omega) hcode]
    apply Iff.intro
    · -- a loose product is out of the reach of the exponent
      rintro ⟨hfl, hfh, -⟩ ⟨-, -, hlf, hrf, hsmall, hloose⟩
      have he : mulExponent lhs rhs = lhs.maxExponent + rhs.maxExponent + 1 :=
        mulExponent_of_lt (by simp only [maxInt32Exponent] at hsmall ⊢; omega)
      have hnot : ¬maxInt32Exponent ≤ mulExponent lhs rhs + (lhs.canHaveFractionalPart ||
          rhs.canHaveFractionalPart).toNat := by
        rw [he, hlf, hrf]
        simp only [Bool.or_self, Bool.toNat_true]
        omega
      have hwl := hfl.resolve_right hnot
      have hwh := hfh.resolve_right hnot
      have hexp : mulExponent lhs rhs + (lhs.canHaveFractionalPart || rhs.canHaveFractionalPart).toNat + 1 =
          lhs.maxExponent + rhs.maxExponent + 3 := by
        rw [he, hlf, hrf]
        simp only [Bool.or_self, Bool.toNat_true]
      simp only [Within, hexp] at hwl hwh
      have habs : ∀ p ∈ [a, b, c, d], p.natAbs < 2 ^ (lhs.maxExponent + rhs.maxExponent + 3) := by
        intro p hp
        simp only [List.mem_cons, List.not_mem_nil, or_false] at hp
        omega
      have hmax : max lhs.lower.natAbs lhs.upper.natAbs * max rhs.lower.natAbs rhs.upper.natAbs <
          2 ^ (lhs.maxExponent + rhs.maxExponent + 3) := by
        rcases max_choice lhs.lower.natAbs lhs.upper.natAbs with h | h <;>
          rcases max_choice rhs.lower.natAbs rhs.upper.natAbs with h' | h' <;>
          rw [h, h', ← Int.natAbs_mul] <;> apply habs <;> simp [ha, hb, hc, hd]
      exact absurd hloose (not_le.mpr hmax)
    · intro hloose
      have hfa := fits_product hl hr hbl hbr hloose (Or.inl rfl) (Or.inl rfl)
      have hfb := fits_product hl hr hbl hbr hloose (Or.inl rfl) (Or.inr rfl)
      have hfc := fits_product hl hr hbl hbr hloose (Or.inr rfl) (Or.inl rfl)
      have hfd := fits_product hl hr hbl hbr hloose (Or.inr rfl) (Or.inr rfl)
      refine ⟨?_, ?_, fun _ heq _ _ => ?_⟩
      · rcases min_four a b c d with h | h | h | h <;> rw [h] <;> assumption
      · rcases max_four a b c d with h | h | h | h <;> rw [h] <;> assumption
      · have hmin : min (min a b) (min c d) = a := by omega
        rw [hmin, ha]
        rcases eq_of_products_eq (by omega : lhs.lower * rhs.lower = lhs.lower * rhs.upper)
          (by omega : lhs.lower * rhs.lower = lhs.upper * rhs.lower) with hz | ⟨hll, hrr⟩
        · rw [hz]
          exact within_zero
        · have hwl := hl.within_of_eq hvl hbl hll
          have hwr := hr.within_of_eq hvr hbr hrr
          rcases (mulExponent_spec lhs rhs).2 with he | he
          · exact (hwl.mul hwr).mono he.ge
          · exact (hl.int32_lower.mul hr.int32_lower).mono (by simp only [maxInt32Exponent]; omega)

/-- The refined bounds are in the reach of a small exponent, if they do not cross. -/
theorem within_refined (he : e < maxInt32Exponent)
    (hle : (refineInt32BoundsByExponent e l h).1 ≤ (refineInt32BoundsByExponent e l h).2) :
    Within (refineInt32BoundsByExponent e l h).1 e ∧ Within (refineInt32BoundsByExponent e l h).2 e := by
  have hcast : ((2 ^ (e + 1) : ℕ) : ℤ) = 2 ^ (e + 1) := by push_cast; rfl
  simp only [refineInt32BoundsByExponent, if_pos he, Within] at hle ⊢
  omega

/-- Refining moves bounds inwards. -/
theorem refined_le : l ≤ (refineInt32BoundsByExponent e l h).1 ∧
    (refineInt32BoundsByExponent e l h).2 ≤ h := by
  unfold refineInt32BoundsByExponent
  split
  · exact ⟨le_max_left _ _, min_le_left _ _⟩
  · exact ⟨le_refl _, le_refl _⟩

/-- An intersection is in the reach of both operands. -/
theorem within_intersection (hl : lhs.AssertInvariants) (hr : rhs.AssertInvariants)
    (hle : max lhs.lower rhs.lower ≤ min lhs.upper rhs.upper)
    (hf : lhs.canHaveFractionalPart = rhs.canHaveFractionalPart) :
    Within (max lhs.lower rhs.lower)
        (min lhs.maxExponent rhs.maxExponent + lhs.canHaveFractionalPart.toNat) ∧
      Within (min lhs.upper rhs.upper)
        (min lhs.maxExponent rhs.maxExponent + lhs.canHaveFractionalPart.toNat) := by
  have hwl1 := hl.within_lower
  have hwl2 := hl.within_upper
  have hwr1 := hr.within_lower
  have hwr2 := hr.within_upper
  unfold exponentSlack at hwl1 hwl2 hwr1 hwr2
  rw [← hf] at hwr1 hwr2
  rcases min_choice lhs.maxExponent rhs.maxExponent with hm | hm <;> rw [hm]
  · exact ⟨hwl1.between hwl2 (by omega) (by omega), hwl1.between hwl2 (by omega) (by omega)⟩
  · exact ⟨hwr1.between hwr2 (by omega) (by omega), hwr1.between hwr2 (by omega) (by omega)⟩

/-- `intersect` gives a valid range if and only if it does not lose the fraction flag that an exponent of 30
relies on for a missing bound. -/
theorem intersect_invariants_iff (hl : lhs.AssertInvariants) (hr : rhs.AssertInvariants) :
    (∀ r, (Range.intersect (some lhs) (some rhs)).2 = some r → r.AssertInvariants) ↔
      ¬FractionLost lhs rhs := by
  have hl1 := hl.lower_int32
  have hl2 := hl.upper_int32
  have hl3 := hl.lower_le_upper
  have hr1 := hr.lower_int32
  have hr2 := hr.upper_int32
  have hr3 := hr.lower_le_upper
  have hcode := hl.exponent_code.min hr.exponent_code
  -- the exponents where a bound is missing in both
  have hmissing (hmiss : (lhs.hasInt32LowerBound = false ∧ rhs.hasInt32LowerBound = false) ∨
      (lhs.hasInt32UpperBound = false ∧ rhs.hasInt32UpperBound = false)) :
      maxInt32Exponent ≤ lhs.exponentSlack ∧ maxInt32Exponent ≤ rhs.exponentSlack := by
    rcases hmiss with ⟨h, h'⟩ | ⟨h, h'⟩
    · exact ⟨hl.missing_bound (Or.inl h), hr.missing_bound (Or.inl h')⟩
    · exact ⟨hl.missing_bound (Or.inr h), hr.missing_bound (Or.inr h')⟩
  unfold Range.intersect
  simp only
  apply Iff.intro
  · rintro hall ⟨hfrac, hexp, hmiss, hupper⟩
    have hle : ¬min lhs.upper rhs.upper < max lhs.lower rhs.lower := by
      rcases hmiss with ⟨h, h'⟩ | ⟨h, h'⟩
      · have := hl.lower_eq h
        have := hr.lower_eq h'
        omega
      · have := hl.upper_eq h
        have := hr.upper_eq h'
        omega
    have hnan : (min lhs.maxExponent rhs.maxExponent == includesInfinityAndNaN) = false := by
      rw [hexp]
      decide
    have hne : (lhs.canHaveFractionalPart != rhs.canHaveFractionalPart) = true := bne_iff_ne.mpr hfrac
    have hnofrac : (lhs.canHaveFractionalPart && rhs.canHaveFractionalPart) = false := by
      cases hlf : lhs.canHaveFractionalPart <;> cases hrf : rhs.canHaveFractionalPart <;> simp [hlf, hrf] at hfrac ⊢
    set refined := refineInt32BoundsByExponent (min lhs.maxExponent rhs.maxExponent)
      (max lhs.lower rhs.lower) (min lhs.upper rhs.upper) with hrefined
    have hnoempty : ¬refined.2 < refined.1 := by
      rw [hrefined, hexp, refineInt32BoundsByExponent, if_pos (by decide)]
      simp only [jsvalIntMin, jsvalIntMax] at *
      rcases hmiss with ⟨h, h'⟩ | ⟨h, h'⟩
      · have := hl.lower_eq h
        have := hr.lower_eq h'
        omega
      · have := hl.upper_eq h
        have := hr.upper_eq h'
        omega
    have hinv := hall _ (by rw [if_neg hle, hnan, Bool.and_false, if_neg Bool.false_ne_true, hne, Bool.true_or, if_pos rfl, if_neg hnoempty])
    rw [rawInitialize, optimize_invariants_iff (by exact hcode)] at hinv
    have hslack := hinv.1.missing_bound (by
      simp only [Bool.or_eq_false_iff]
      exact hmiss)
    rw [exponentSlack_eq_false hnofrac] at hslack
    simp only [hexp] at hslack
    exact absurd hslack (by decide)
  · intro hlost r hr'
    split at hr'
    · cases hr'
    · next hle =>
      split at hr'
      · cases hr'
      · rw [not_lt] at hle
        split at hr'
        · -- the bounds are refined
          next hcond =>
          split at hr'
          · cases hr'
          · next hcross =>
            obtain rfl := Option.some.inj hr'
            rw [not_lt] at hcross
            obtain ⟨hin, hin'⟩ := refined_le (e := min lhs.maxExponent rhs.maxExponent)
              (l := max lhs.lower rhs.lower) (h := min lhs.upper rhs.upper)
            -- where a bound is missing, the exponent is 31 or more, and nothing is refined
            have hexp31 (hmiss : (lhs.hasInt32LowerBound = false ∧ rhs.hasInt32LowerBound = false) ∨
                (lhs.hasInt32UpperBound = false ∧ rhs.hasInt32UpperBound = false)) :
                maxInt32Exponent ≤ min lhs.maxExponent rhs.maxExponent := by
              obtain ⟨hsl, hsr⟩ := hmissing hmiss
              have hne : lhs.canHaveFractionalPart ≠ rhs.canHaveFractionalPart := by
                simp only [Bool.or_eq_true, Bool.and_eq_true, bne_iff_ne] at hcond
                rcases hcond with hne | ⟨⟨⟨-, hlb⟩, hhb⟩, -⟩
                · exact hne
                · rcases hmiss with ⟨h, h'⟩ | ⟨h, h'⟩ <;> simp [h, h'] at hlb hhb
              have hupper (h30 : min lhs.maxExponent rhs.maxExponent = 30) :
                  jsvalIntMin < min lhs.upper rhs.upper := by
                rw [h30] at hin' hcross
                have hcut : -jsvalIntMax ≤ (refineInt32BoundsByExponent 30 (max lhs.lower rhs.lower)
                    (min lhs.upper rhs.upper)).1 := by
                  rw [refineInt32BoundsByExponent, if_pos (by decide)]
                  exact le_max_right _ _
                simp only [jsvalIntMin, jsvalIntMax] at *
                omega
              have h30 : min lhs.maxExponent rhs.maxExponent ≠ 30 := fun h30 =>
                hlost ⟨hne, h30, hmiss, hupper h30⟩
              have hflags := Bool.toNat_le lhs.canHaveFractionalPart
              have hflags' := Bool.toNat_le rhs.canHaveFractionalPart
              simp only [exponentSlack, maxInt32Exponent] at hsl hsr ⊢
              omega
            have hsame (hmiss : (lhs.hasInt32LowerBound = false ∧ rhs.hasInt32LowerBound = false) ∨
                (lhs.hasInt32UpperBound = false ∧ rhs.hasInt32UpperBound = false)) :=
              refineInt32BoundsByExponent_of_le (hexp31 hmiss) (max lhs.lower rhs.lower)
                (min lhs.upper rhs.upper)
            have hwithin : Within (refineInt32BoundsByExponent (min lhs.maxExponent rhs.maxExponent)
                  (max lhs.lower rhs.lower) (min lhs.upper rhs.upper)).1 (min lhs.maxExponent rhs.maxExponent) ∧
                Within (refineInt32BoundsByExponent (min lhs.maxExponent rhs.maxExponent)
                  (max lhs.lower rhs.lower) (min lhs.upper rhs.upper)).2 (min lhs.maxExponent rhs.maxExponent) := by
              by_cases he : min lhs.maxExponent rhs.maxExponent < maxInt32Exponent
              · exact within_refined he hcross
              · exact ⟨within_of_int32 (by omega) (by omega) (not_lt.mp he),
                  within_of_int32 (by omega) (by omega) (not_lt.mp he)⟩
            refine (optimize_invariants_iff (by exact hcode)).mpr
              ⟨assertInvariants_iff.mpr ⟨⟨?_, ?_, hcross⟩, ?_, ?_, hcode, ?_, ?_, ?_⟩, ?_⟩
            · exact le_trans (by omega) hin
            · exact le_trans hin' (by omega)
            · simp only [Bool.or_eq_false_iff]
              intro h
              have := hl.lower_eq h.1
              have := hr.lower_eq h.2
              rw [hsame (Or.inl h)]
              simp only
              omega
            · simp only [Bool.or_eq_false_iff]
              intro h
              have := hl.upper_eq h.1
              have := hr.upper_eq h.2
              rw [hsame (Or.inr h)]
              simp only
              omega
            · simp only [hasInt32Bounds, Bool.and_eq_false_iff, Bool.or_eq_false_iff]
              exact fun h => (hexp31 h).trans (Nat.le_add_right _ _)
            · exact hwithin.1.mono (Nat.le_add_right _ _)
            · exact hwithin.2.mono (Nat.le_add_right _ _)
            · exact fun hp => hp.2.2.2 hwithin.1
        · -- nothing is lost, the operands agree on fractions
          next hcond =>
          obtain rfl := Option.some.inj hr'
          simp only [Bool.or_eq_true, Bool.and_eq_true, bne_iff_ne, beq_iff_eq, not_or, not_not] at hcond
          obtain ⟨hfrac, hone⟩ := hcond
          have hand : (lhs.canHaveFractionalPart && rhs.canHaveFractionalPart) = lhs.canHaveFractionalPart := by
            rw [← hfrac, Bool.and_self]
          obtain ⟨hwl, hwu⟩ := within_intersection hl hr hle hfrac
          refine (optimize_invariants_iff (by exact hcode)).mpr
            ⟨assertInvariants_iff.mpr ⟨⟨?_, ?_, hle⟩, ?_, ?_, hcode, ?_, ?_, ?_⟩, ?_⟩
          · simp only
            omega
          · simp only
            omega
          · simp only [Bool.or_eq_false_iff]
            intro h
            have := hl.lower_eq h.1
            have := hr.lower_eq h.2
            omega
          · simp only [Bool.or_eq_false_iff]
            intro h
            have := hl.upper_eq h.1
            have := hr.upper_eq h.2
            omega
          · simp only [hasInt32Bounds, Bool.and_eq_false_iff, Bool.or_eq_false_iff]
            intro h
            obtain ⟨hsl, hsr⟩ := hmissing h
            simp only [exponentSlack, hand] at hsl hsr ⊢
            rw [← hfrac] at hsr
            omega
          · simpa only [exponentSlack, hand] using hwl
          · simpa only [exponentSlack, hand] using hwu
          · rintro ⟨hb, hf, heq, -⟩
            simp only [hasInt32Bounds, Bool.and_eq_true] at hb hf
            exact hone ⟨⟨⟨hf.1, by simpa using hb.1⟩, by simpa using hb.2⟩, heq⟩

end SpiderMonkey.Jit.Range
