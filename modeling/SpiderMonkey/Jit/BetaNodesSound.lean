import SpiderMonkey.Jit.BetaNodes
import SpiderMonkey.Jit.RangeBitsSound
import SpiderMonkey.Jit.RangeInvariantsSound

/-!
# What beta nodes are implied by

The range of a beta node holds every number for which its branch is taken. `setDouble` keeps every double
between its end points, and an end point that is NaN keeps all of them.
-/

namespace SpiderMonkey

namespace Binary64

/-- An int32 denotes itself. -/
theorem value_ofInt32 (i : BitVec 32) : (ofInt32 i).value = .finite i.toInt := by
  rw [ofInt32_eq, value, signed_natAbs]

/-- Only NaN denotes NaN. -/
theorem value_eq_nan_iff {d : Binary64} : d.value = .nan ↔ d = nan := by
  cases d with
  | finite s m => simp [value]
  | infinity s => cases s <;> simp [value]
  | nan => simp [value]

/-- Large doubles are integers. -/
theorem exists_int_of_le_abs {d : Binary64} {q : ℚ} (hd : d.value = .finite q) (hq : (2 : ℚ) ^ 52 ≤ |q|) :
    ∃ z : ℤ, q = z := by
  cases d with
  | infinity s => cases s <;> cases hd
  | nan => cases hd
  | finite s m =>
    obtain ⟨n, e, hn, he, hm⟩ := m.2.1
    have hsigned : signed s (n * 2 ^ e) = q := hm ▸ ExtRat.finite.inj hd
    have hpos : (0 : ℚ) ≤ n * 2 ^ e := by positivity
    have habs : |q| = n * 2 ^ e := by
      rw [← hsigned, signed]
      split <;> simp [abs_of_nonneg hpos]
    -- it is enough to look at the magnitude
    suffices hint : ∃ k : ℕ, (n : ℚ) * 2 ^ e = k by
      obtain ⟨k, hk⟩ := hint
      rw [← hsigned, signed, hk]
      split
      · exact ⟨-k, by push_cast; rfl⟩
      · exact ⟨k, by push_cast; rfl⟩
    rcases le_or_gt 0 e with hnonneg | hneg
    · obtain ⟨k, rfl⟩ := Int.eq_ofNat_of_zero_le hnonneg
      exact ⟨n * 2 ^ k, by push_cast; rw [zpow_natCast]⟩
    · -- a scale below one leaves only the significand 2 ^ 53
      rw [habs] at hq
      have hcast : (n : ℚ) ≤ 2 ^ 53 := by exact_mod_cast hn
      have hexp : e = -1 := by
        by_contra hne
        have hle : (2 : ℚ) ^ e ≤ 2 ^ (-2 : ℤ) := zpow_le_zpow_right₀ (by norm_num) (by omega)
        have hmul : (n : ℚ) * 2 ^ e ≤ 2 ^ 53 * 2 ^ (-2 : ℤ) :=
          mul_le_mul hcast hle (by positivity) (by positivity)
        have hlt' : (2 : ℚ) ^ 53 * 2 ^ (-2 : ℤ) < 2 ^ 52 := by norm_num
        linarith
      subst hexp
      refine ⟨2 ^ 52, ?_⟩
      have hn' : (n : ℚ) = 2 ^ 53 := by
        refine le_antisymm hcast ?_
        rw [zpow_neg_one] at hq
        linarith
      rw [hn']
      norm_num

end Binary64

namespace Jit.Range

/-- The exponent of a finite code is that of a number. -/
theorem exists_of_exponentImplied_le {d : ExtRat} (h : exponentImpliedByDouble d ≤ maxFiniteExponent) :
    ∃ q, d = .finite q := by
  cases d with
  | finite q => exact ⟨q, rfl⟩
  | posInf => exact absurd h (by decide)
  | negInf => exact absurd h (by decide)
  | nan => exact absurd h (by decide)

/-- A number whose exponent is at least 52 has a magnitude of that power of two. -/
theorem le_abs_of_le_exponentImplied {q : ℚ} {n : ℕ} (hn : 0 < n)
    (h : n ≤ exponentImpliedByDouble (.finite q)) : (2 : ℚ) ^ n ≤ |q| := by
  by_contra hlt
  exact absurd (exponentImplied_lt hn (not_le.mp hlt)) (not_lt.mpr h)

/-- `setDouble` keeps a double between its end points. An end point that is NaN is no bound, and keeps NaN. -/
theorem holds_setDouble {l h x : Binary64} (hl : l = .nan ∨ x = .nan ∨ l.value.le x.value = true)
    (hh : h = .nan ∨ x = .nan ∨ x.value.le h.value = true) (hnan : x = .nan → l = .nan ∨ h = .nan) :
    (setDouble l.value h.value).Holds x.value := by
  unfold setDouble
  apply Holds.optimize
  cases hx : x.value with
  | finite q =>
    have hne : x ≠ .nan := fun heq => by rw [heq] at hx; cases hx
    have hlow : l.value = .nan ∨ l.value = .negInf ∨ ∃ p, l.value = .finite p ∧ p ≤ q := by
      rcases hl with rfl | rfl | hle
      · exact Or.inl rfl
      · exact absurd rfl hne
      · rw [hx] at hle
        cases hlv : l.value with
        | finite p => exact Or.inr (Or.inr ⟨p, rfl, by simpa [hlv, ExtRat.le] using hle⟩)
        | posInf => simp [hlv, ExtRat.le] at hle
        | negInf => exact Or.inr (Or.inl rfl)
        | nan => exact Or.inl rfl
    have hupp : h.value = .nan ∨ h.value = .posInf ∨ ∃ p, h.value = .finite p ∧ q ≤ p := by
      rcases hh with rfl | rfl | hle
      · exact Or.inl rfl
      · exact absurd rfl hne
      · rw [hx] at hle
        cases hhv : h.value with
        | finite p => exact Or.inr (Or.inr ⟨p, rfl, by simpa [hhv, ExtRat.le] using hle⟩)
        | posInf => exact Or.inr (Or.inl rfl)
        | negInf => simp [hhv, ExtRat.le] at hle
        | nan => exact Or.inl rfl
    refine { lower_le := ?_, le_upper := ?_, lt_pow := ?_, integral := ?_ }
    · intro hsome
      rcases int32OfDouble_cases Int.floor l.value with ⟨p, hlv, -, -, hint⟩ | ⟨hint, -⟩
      · rw [hint, Option.getD_some]
        rcases hlow with hlow | hlow | ⟨p', hlow, hle⟩ <;> rw [hlv] at hlow <;> cases hlow
        exact (Int.floor_le p).trans hle
      · rw [hint] at hsome
        cases hsome
    · intro hsome
      rcases int32OfDouble_cases Int.ceil h.value with ⟨p, hhv, -, -, hint⟩ | ⟨hint, -⟩
      · rw [hint, Option.getD_some]
        rcases hupp with hupp | hupp | ⟨p', hupp, hle⟩ <;> rw [hhv] at hupp <;> cases hupp
        exact hle.trans (Int.le_ceil p)
      · rw [hint] at hsome
        cases hsome
    · intro hexp
      obtain ⟨p, hlv⟩ := exists_of_exponentImplied_le ((le_max_left _ _).trans hexp)
      obtain ⟨p', hhv⟩ := exists_of_exponentImplied_le ((le_max_right _ _).trans hexp)
      rcases hlow with hlow | hlow | ⟨_, hlow, hle⟩ <;> rw [hlv] at hlow <;> cases hlow
      rcases hupp with hupp | hupp | ⟨_, hupp, hge⟩ <;> rw [hhv] at hupp <;> cases hupp
      have hmono {d : ExtRat} {r : ℚ} (hd : d = .finite r)
          (hle : exponentImpliedByDouble d ≤
            max (exponentImpliedByDouble l.value) (exponentImpliedByDouble h.value)) :
          |r| < 2 ^ (max (exponentImpliedByDouble l.value) (exponentImpliedByDouble h.value) + 1) :=
        (hd ▸ abs_lt_exponentImplied r).trans_le (pow_le_pow_right₀ (by norm_num) (by omega))
      have hlt := abs_lt.mp (hmono hlv (le_max_left _ _))
      have hlt' := abs_lt.mp (hmono hhv (le_max_right _ _))
      exact abs_lt.mpr ⟨hlt.1.trans_le hle, hge.trans_lt hlt'.2⟩
    · intro hfrac
      rw [Bool.or_eq_false_iff, decide_eq_false_iff_not, not_lt, le_min_iff] at hfrac
      obtain ⟨hcross, hlexp, hhexp⟩ := hfrac
      -- one of the end points is on the side of zero of the number, and large
      apply Binary64.exists_int_of_le_abs hx
      have hnegative (hneg : isNaNOrNegative l.value = true) : (2 : ℚ) ^ 52 ≤ |q| := by
        rw [hneg, Bool.true_and] at hcross
        rcases hupp with hupp | hupp | ⟨p, hupp, hge⟩
        · simp [hupp, isNaNOrPositive] at hcross
        · simp [hupp, isNaNOrPositive] at hcross
        · rw [hupp] at hcross hhexp
          have hp : p ≤ 0 := not_lt.mp (of_decide_eq_false hcross)
          have habs := le_abs_of_le_exponentImplied (by decide) hhexp
          rw [abs_of_nonpos hp, maxTruncatableExponent] at habs
          rw [abs_of_nonpos (hge.trans hp)]
          linarith
      rcases hlow with hlow | hlow | ⟨p, hlow, hle⟩
      · exact hnegative (by rw [hlow]; rfl)
      · exact hnegative (by rw [hlow]; rfl)
      · by_cases hp : p < 0
        · exact hnegative (by rw [hlow]; exact decide_eq_true hp)
        · rw [hlow] at hlexp
          have habs := le_abs_of_le_exponentImplied (by decide) hlexp
          have hnonneg := not_lt.mp hp
          rw [abs_of_nonneg hnonneg, maxTruncatableExponent] at habs
          rw [abs_of_nonneg (hnonneg.trans hle)]
          linarith
  | posInf =>
    have hupp : h.value = .nan ∨ h.value = .posInf := by
      rcases hh with rfl | rfl | hle
      · exact Or.inl rfl
      · cases hx
      · rw [hx] at hle
        cases hhv : h.value <;> simp [hhv, ExtRat.le] at hle ⊢
    have hexp : includesInfinity ≤ exponentImpliedByDouble h.value := by
      rcases hupp with hupp | hupp <;> rw [hupp] <;> decide
    refine ⟨?_, (canBeInfiniteOrNaN_iff _).mpr (hexp.trans (le_max_right _ _))⟩
    rcases hupp with hupp | hupp <;> rw [hupp] <;> rfl
  | negInf =>
    have hlow : l.value = .nan ∨ l.value = .negInf := by
      rcases hl with rfl | rfl | hle
      · exact Or.inl rfl
      · cases hx
      · rw [hx] at hle
        cases hlv : l.value <;> simp [hlv, ExtRat.le] at hle ⊢
    have hexp : includesInfinity ≤ exponentImpliedByDouble l.value := by
      rcases hlow with hlow | hlow <;> rw [hlow] <;> decide
    refine ⟨?_, (canBeInfiniteOrNaN_iff _).mpr (hexp.trans (le_max_left _ _))⟩
    rcases hlow with hlow | hlow <;> rw [hlow] <;> rfl
  | nan =>
    have hends := hnan (Binary64.value_eq_nan_iff.mp hx)
    have hlcode := (exponentCode_implied l).le
    have hhcode := (exponentCode_implied h).le
    rcases hends with rfl | rfl
    · refine ⟨?_, (canBeNaN_iff _).mpr (max_eq_left hhcode)⟩
      rfl
    · refine ⟨?_, (canBeNaN_iff _).mpr (max_eq_right hlcode)⟩
      exact Bool.and_false _

end Jit.Range

namespace Jit.MIR

/-! ## Comparisons -/

/-- Two numbers of which one is NaN. -/
def Unordered (x y : ExtRat) : Prop := x = .nan ∨ y = .nan

/-- Reversing an operator exchanges its operands. -/
theorem holds_reverseCompareOp (op : CompareOp) (x y : ExtRat) :
    (reverseCompareOp op).holds y x = op.holds x y := by
  have heq : y.eq x = x.eq y := by
    cases x <;> cases y <;> simp [ExtRat.eq, eq_comm]
  cases op <;> simp only [reverseCompareOp, CompareOp.holds, heq]

/-- If an operator does not hold, its negation does, unless it orders its operands and NaN is compared. -/
theorem holds_negateCompareOp {op : CompareOp} {x y : ExtRat} (h : op.holds x y = false) :
    (negateCompareOp op).holds x y = true ∨ negateCompareOp op ≠ .eq ∧ Unordered x y := by
  cases op with
  | lt => cases x <;> cases y <;> simp_all [negateCompareOp, CompareOp.holds, ExtRat.lt, ExtRat.le, Unordered]
  | le => cases x <;> cases y <;> simp_all [negateCompareOp, CompareOp.holds, ExtRat.lt, ExtRat.le, Unordered]
  | gt => cases x <;> cases y <;> simp_all [negateCompareOp, CompareOp.holds, ExtRat.lt, ExtRat.le, Unordered]
  | ge => cases x <;> cases y <;> simp_all [negateCompareOp, CompareOp.holds, ExtRat.lt, ExtRat.le, Unordered]
  | eq => exact Or.inl (by simpa [negateCompareOp, CompareOp.holds] using h)
  | ne => exact Or.inl (by simpa [negateCompareOp, CompareOp.holds] using h)
  | strictEq => exact Or.inl (by simpa [negateCompareOp, CompareOp.holds] using h)
  | strictNe => exact Or.inl (by simpa [negateCompareOp, CompareOp.holds] using h)

/-! ## The ranges of comparisons with constants -/

/-- A number that a definition can have: its own if it is a constant, and an int32 if it is of that type. -/
def MDefinition.CanBe (d : MDefinition) (x : Binary64) : Prop :=
  (∀ c, d.constantNumber = some c → x = c) ∧ (d.type = .int32 → ∃ i, x = .ofInt32 i)

/-- The range below a bound. -/
theorem holds_setDouble_below {x bound lower : Binary64} (hlower : lower = .nan ∨ lower = .infinity true)
    (h : x.value.le bound.value = true ∨ lower = .nan ∧ Unordered x.value bound.value) :
    (Range.setDouble lower.value bound.value).Holds x.value := by
  apply Range.holds_setDouble
  · rcases hlower with rfl | rfl
    · exact Or.inl rfl
    · cases hx : x.value with
      | nan => exact Or.inr (Or.inl (Binary64.value_eq_nan_iff.mp hx))
      | _ => exact Or.inr (Or.inr rfl)
  · rcases h with h | ⟨-, hx | hbound⟩
    · exact Or.inr (Or.inr h)
    · exact Or.inr (Or.inl (Binary64.value_eq_nan_iff.mp hx))
    · exact Or.inl (Binary64.value_eq_nan_iff.mp hbound)
  · rintro rfl
    rcases h with h | ⟨h, -⟩
    · cases h
    · exact Or.inl h

/-- The range above a bound. -/
theorem holds_setDouble_above {x bound upper : Binary64} (hupper : upper = .nan ∨ upper = .infinity false)
    (h : bound.value.le x.value = true ∨ upper = .nan ∧ Unordered x.value bound.value) :
    (Range.setDouble bound.value upper.value).Holds x.value := by
  apply Range.holds_setDouble
  · rcases h with h | ⟨-, hx | hbound⟩
    · exact Or.inr (Or.inr h)
    · exact Or.inr (Or.inl (Binary64.value_eq_nan_iff.mp hx))
    · exact Or.inl (Binary64.value_eq_nan_iff.mp hbound)
  · rcases hupper with rfl | rfl
    · exact Or.inl rfl
    · cases hx : x.value with
      | nan => exact Or.inr (Or.inl (Binary64.value_eq_nan_iff.mp hx))
      | _ => exact Or.inr (Or.inr rfl)
  · rintro rfl
    rcases h with h | ⟨h, -⟩
    · cases hb : bound.value <;> rw [hb] at h <;> cases h
    · exact Or.inr h

/-- What is below is not above. -/
theorem le_of_extRat_lt {x y : ExtRat} (h : x.lt y = true) : x.le y = true := by
  cases x <;> cases y <;> simp_all [ExtRat.lt, ExtRat.le, le_of_lt]

/-- What compares equal is the same number, and not NaN. -/
theorem eq_of_extRat_eq {x y : ExtRat} (h : x.eq y = true) : x = y ∧ x.le x = true ∧ x ≠ .nan := by
  cases x <;> cases y <;> simp_all [ExtRat.eq, ExtRat.le]

/-- A bound is moved only if it is an int32 and the compared definition is of that type. -/
theorem adjustBound_cases (type : MIRType) (safe : ℤ → ℤ → Option ℤ) (bound : Binary64) :
    adjustBound type safe bound = bound ∨ type = .int32 ∧ ∃ z w : ℤ, bound.value = .finite z ∧
      safe z 1 = some w ∧ adjustBound type safe bound = .ofInt32 (Range.bits w) := by
  unfold adjustBound
  split
  · next htype =>
    cases hadjust : (doubleEqualsInt32 bound).bind (safe · 1) with
    | none => exact Or.inl rfl
    | some w =>
      obtain ⟨z, hz, hw⟩ := Option.bind_eq_some_iff.mp hadjust
      refine Or.inr ⟨htype, z, w, ?_, hw, rfl⟩
      unfold doubleEqualsInt32 at hz
      split at hz
      · next q hq =>
        split at hz
        · next hint =>
          cases hz
          rw [hq, (Rat.den_eq_one_iff q).mp hint.1]
        · cases hz
      · cases hz
  · exact Or.inl rfl

/-- The sum or difference of int32, if it is one. -/
theorem safeInt32_eq_some {z w : ℤ} (h : safeInt32 z = some w) :
    w = z ∧ jsvalIntMin ≤ z ∧ z ≤ jsvalIntMax := by
  unfold safeInt32 at h
  split at h
  · next hz =>
    cases h
    exact ⟨rfl, hz⟩
  · cases h

/-- A moved bound of an unordered comparison is still unordered. -/
theorem Unordered.adjustBound {x bound : Binary64} (h : Unordered x.value bound.value) (type : MIRType)
    (safe : ℤ → ℤ → Option ℤ) : Unordered x.value (MIR.adjustBound type safe bound).value := by
  rcases adjustBound_cases type safe bound with heq | ⟨-, z, w, hz, -, -⟩
  · rwa [heq]
  · refine h.imp_right fun hnan => ?_
    rw [hz] at hnan
    cases hnan

/-- An integer below a bound is at most the bound moved down. -/
theorem le_adjustBound {type : MIRType} {x bound : Binary64} (htype : type = .int32 → ∃ i, x = .ofInt32 i)
    (h : x.value.lt bound.value = true) : x.value.le (adjustBound type safeSub bound).value = true := by
  rcases adjustBound_cases type safeSub bound with heq | ⟨hint, z, w, hz, hw, heq⟩
  · rw [heq]
    exact le_of_extRat_lt h
  · obtain ⟨i, rfl⟩ := htype hint
    obtain ⟨rfl, hlow, hupp⟩ := safeInt32_eq_some hw
    rw [heq, Binary64.value_ofInt32, Binary64.value_ofInt32, Range.toInt_bits hlow hupp]
    rw [Binary64.value_ofInt32, hz] at h
    have hlt : i.toInt < z := by exact_mod_cast of_decide_eq_true h
    exact decide_eq_true (by exact_mod_cast Int.le_sub_one_of_lt hlt)

/-- An integer above a bound is at least the bound moved up. -/
theorem adjustBound_le {type : MIRType} {x bound : Binary64} (htype : type = .int32 → ∃ i, x = .ofInt32 i)
    (h : bound.value.lt x.value = true) : (adjustBound type safeAdd bound).value.le x.value = true := by
  rcases adjustBound_cases type safeAdd bound with heq | ⟨hint, z, w, hz, hw, heq⟩
  · rw [heq]
    exact le_of_extRat_lt h
  · obtain ⟨i, rfl⟩ := htype hint
    obtain ⟨rfl, hlow, hupp⟩ := safeInt32_eq_some hw
    rw [heq, Binary64.value_ofInt32, Binary64.value_ofInt32, Range.toInt_bits hlow hupp]
    rw [Binary64.value_ofInt32, hz] at h
    have hlt : z < i.toInt := by exact_mod_cast of_decide_eq_true h
    exact decide_eq_true (by exact_mod_cast Int.add_one_le_of_lt hlt)

/-- The range of a comparison with a bound holds what compares so. If the conservative bounds are NaN, it
also holds what is unordered, unless it is that of an equality. -/
theorem holds_comparisonRange {op : CompareOp} {type : MIRType} {x bound lower upper : Binary64} {r : Range}
    (hr : comparisonRange op type lower upper bound = some r)
    (hcons : lower = .nan ∧ upper = .nan ∨ lower = .infinity true ∧ upper = .infinity false)
    (htype : type = .int32 → ∃ i, x = .ofInt32 i)
    (h : op.holds x.value bound.value = true ∨
      (lower = .nan ∧ upper = .nan) ∧ op ≠ .eq ∧ Unordered x.value bound.value) :
    r.Holds x.value := by
  have hlower := hcons.imp And.left And.left
  have hupper := hcons.imp And.right And.right
  cases op with
  | lt =>
    cases hr
    exact holds_setDouble_below hlower
      (h.imp (le_adjustBound htype) fun ⟨hnan, _, hun⟩ => ⟨hnan.1, hun.adjustBound _ _⟩)
  | le =>
    cases hr
    exact holds_setDouble_below hlower (h.imp (fun hle => hle) fun ⟨hnan, _, hun⟩ => ⟨hnan.1, hun⟩)
  | gt =>
    cases hr
    exact holds_setDouble_above hupper
      (h.imp (adjustBound_le htype) fun ⟨hnan, _, hun⟩ => ⟨hnan.2, hun.adjustBound _ _⟩)
  | ge =>
    cases hr
    exact holds_setDouble_above hupper (h.imp (fun hle => hle) fun ⟨hnan, _, hun⟩ => ⟨hnan.2, hun⟩)
  | eq =>
    cases hr
    have heq : x.value.eq bound.value = true := h.resolve_right fun ⟨_, hne, _⟩ => hne rfl
    obtain ⟨hvalue, hle, hne⟩ := eq_of_extRat_eq heq
    rw [← hvalue]
    exact Range.holds_setDouble (Or.inr (Or.inr hle)) (Or.inr (Or.inr hle)) fun hnan =>
      absurd (Binary64.value_eq_nan_iff.mpr hnan) hne
  | ne => cases hr
  | strictEq => cases hr
  | strictNe => cases hr

/-- The ranges of two int32 definitions of which one is smaller. -/
theorem holds_int32BetaNodes {i j : BitVec 32} {op : CompareOp}
    (h : op.holds (.finite i.toInt) (.finite j.toInt) = true) (beta : MBeta) (hbeta : beta ∈ int32BetaNodes op) :
    beta.comparison.Holds (match beta.val with | .left => .finite i.toInt | .right => .finite j.toInt) := by
  have hi := Range.toInt_range i
  have hj := Range.toInt_range j
  cases op with
  | lt =>
    have hlt : i.toInt < j.toInt := by exact_mod_cast of_decide_eq_true h
    rcases List.mem_pair.mp hbeta with rfl | rfl
    · exact Range.holds_newInt32Range hi.1 (Int.le_sub_one_of_lt (hlt.trans_le hj.2))
    · exact Range.holds_newInt32Range (Int.add_one_le_of_lt (hi.1.trans_lt hlt)) hj.2
  | gt =>
    have hlt : j.toInt < i.toInt := by exact_mod_cast of_decide_eq_true h
    rcases List.mem_pair.mp hbeta with rfl | rfl
    · exact Range.holds_newInt32Range hj.1 (Int.le_sub_one_of_lt (hlt.trans_le hi.2))
    · exact Range.holds_newInt32Range (Int.add_one_le_of_lt (hj.1.trans_lt hlt)) hi.2
  | _ => cases hbeta

/-! ## Beta nodes -/

/-- Whether a comparison goes in the direction of a branch. -/
def Takes (branchDir : BranchDirection) (op : CompareOp) (x y : Binary64) : Prop :=
  op.holds x.value y.value = true ↔ branchDir = .trueBranch

/-- A beta node's range holds the number of its operand, for all numbers for which the branch is taken. -/
theorem addBetaNodes_holds (branchDir : BranchDirection) (compare : MCompare) (x y : Binary64)
    (hx : compare.left.CanBe x) (hy : compare.right.CanBe y) (htaken : Takes branchDir compare.jsop x y)
    (beta : MBeta) (hbeta : beta ∈ addBetaNodes branchDir compare) :
    beta.comparison.Holds (match beta.val with | .left => x.value | .right => y.value) := by
  unfold addBetaNodes at hbeta
  split at hbeta
  · cases hbeta
  · -- the operator of the direction holds, or the numbers are unordered and NaN is let through
    obtain ⟨op, lower, upper, heq, hcons, h⟩ : ∃ (op : CompareOp) (lower upper : Binary64),
        directed branchDir compare.jsop = (op, lower, upper) ∧
        (lower = .nan ∧ upper = .nan ∨ lower = .infinity true ∧ upper = .infinity false) ∧
        (op.holds x.value y.value = true ∨
          (lower = .nan ∧ upper = .nan) ∧ op ≠ .eq ∧ Unordered x.value y.value) := by
      cases branchDir with
      | falseBranch =>
        have hfalse : compare.jsop.holds x.value y.value = false :=
          Bool.eq_false_iff.mpr fun htrue => by cases htaken.mp htrue
        exact ⟨_, _, _, rfl, Or.inl ⟨rfl, rfl⟩,
          (holds_negateCompareOp hfalse).imp_right fun hun => ⟨⟨rfl, rfl⟩, hun⟩⟩
      | trueBranch => exact ⟨_, _, _, rfl, Or.inr ⟨rfl, rfl⟩, Or.inl (htaken.mpr rfl)⟩
    rw [heq] at hbeta
    cases hleft : compare.left.constantNumber with
    | some bound =>
      rw [hleft] at hbeta
      obtain ⟨r, hr, rfl⟩ := Option.map_eq_some_iff.mp (Option.mem_toList.mp hbeta)
      have hbound := hx.1 bound hleft
      subst hbound
      refine holds_comparisonRange hr hcons hy.2 ?_
      rw [holds_reverseCompareOp]
      exact h.imp_right fun ⟨hnan, hne, hun⟩ => ⟨hnan, by cases op <;> simp_all [reverseCompareOp], hun.symm⟩
    | none =>
      rw [hleft] at hbeta
      cases hright : compare.right.constantNumber with
      | some bound =>
        rw [hright] at hbeta
        obtain ⟨r, hr, rfl⟩ := Option.map_eq_some_iff.mp (Option.mem_toList.mp hbeta)
        have hbound := hy.1 bound hright
        subst hbound
        exact holds_comparisonRange hr hcons hx.2 h
      | none =>
        rw [hright] at hbeta
        simp only at hbeta
        split at hbeta
        · next hint =>
          obtain ⟨i, rfl⟩ := hx.2 hint.1
          obtain ⟨j, rfl⟩ := hy.2 hint.2
          rw [Binary64.value_ofInt32, Binary64.value_ofInt32] at h ⊢
          have hholds := h.resolve_right fun ⟨_, _, hun⟩ => by rcases hun with hun | hun <;> cases hun
          exact holds_int32BetaNodes hholds beta hbeta
        · cases hbeta

/-- An int32 that is not below ten. -/
theorem addBetaNodes_holds_int32 :
    (Range.setDouble (Binary64.ofInt32 10).value .nan).Holds (Binary64.ofInt32 12).value :=
  addBetaNodes_holds .falseBranch ⟨.other 0 .int32, .constant 1 (.int32 10), .boolean, .int32, .lt, true⟩
    (.ofInt32 12) (.ofInt32 10) ⟨fun c hc => (Option.some_ne_none c hc.symm).elim, fun _ => ⟨12, rfl⟩⟩
    ⟨fun c hc => Option.some.inj hc, fun _ => ⟨10, rfl⟩⟩
    (by
      rw [Takes, Binary64.value_ofInt32, Binary64.value_ofInt32]
      decide)
    ⟨.left, Range.setDouble (Binary64.ofInt32 10).value .nan⟩ (List.mem_singleton.mpr rfl)

end Jit.MIR

end SpiderMonkey
