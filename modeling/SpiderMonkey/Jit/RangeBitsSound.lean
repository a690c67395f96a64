import SpiderMonkey.Jit.RangeBits
import SpiderMonkey.Jit.RangeSound
import SpiderMonkey.Lib.SignedBits

/-!
# Soundness of the bitwise range operations

Each operation keeps the results of the int32 values of its operands, and none of them counts the leading
zeros of zero. The bounds an operation builds from masks are powers of two, less one.
-/

namespace SpiderMonkey.Jit

namespace Range

open SignedBits

variable {lhs rhs : Range} {l h z : ℤ} {x y : BitVec 32}

/-! ## Int32 values in a range -/

/-- The bounds of a range of int32 values. -/
structure Int32Bounds (r : Range) (z : ℤ) : Prop where
  lower_le : r.lower ≤ z
  le_upper : z ≤ r.upper

/-- An int32 value in a range of int32 values lies between its bounds. -/
theorem Holds.int32Bounds {r : Range} (hr : r.isInt32 = true) (hz : r.Holds (.finite z)) :
    r.Int32Bounds z := by
  simp only [isInt32, hasInt32Bounds, Bool.and_eq_true] at hr
  exact ⟨by exact_mod_cast hz.lower_le hr.1.1, by exact_mod_cast hz.le_upper hr.1.2⟩

/-- An integer between bounds is in the range with these bounds, and an exponent it does not exceed. -/
theorem holds_set_int (hl : jsvalIntMin ≤ l → l ≤ z) (hh : h ≤ jsvalIntMax → z ≤ h)
    (hz : |z| < 2 ^ 32) : (set l h false 31).Holds (.finite z) := by
  apply RawHolds.holds_set
  refine ⟨fun hle => by exact_mod_cast hl hle, fun hle => by exact_mod_cast hh hle, fun _ => ?_,
    fun _ => ⟨z, rfl⟩⟩
  exact_mod_cast hz

/-- The numbers of 32 bits. -/
theorem toInt_range (x : BitVec 32) : jsvalIntMin ≤ x.toInt ∧ x.toInt ≤ jsvalIntMax := by
  have hlt := x.isLt
  simp only [jsvalIntMin, jsvalIntMax]
  rcases toInt_cases x with ⟨h, hx⟩ | ⟨h, hx⟩ <;> omega

/-- A result between bounds is in the new range. -/
theorem holds_newInt32Range (hl : l ≤ x.toInt) (hh : x.toInt ≤ h) :
    (newInt32Range l h).Holds (.finite x.toInt) := by
  obtain ⟨hmin, hmax⟩ := toInt_range x
  apply holds_set_int (fun _ => hl) fun _ => hh
  simp only [jsvalIntMin, jsvalIntMax] at hmin hmax
  rw [abs_lt]
  omega

/-- An unsigned result between bounds is in the new range. -/
theorem holds_newUInt32Range {l h : BitVec 32} (hl : l.toNat ≤ x.toNat) (hh : x.toNat ≤ h.toNat) :
    (newUInt32Range l h).Holds (.finite (x.toNat : ℤ)) := by
  have hlt := x.isLt
  apply holds_set_int (fun _ => by omega) fun _ => by omega
  rw [abs_lt]
  omega

/-- All int32 values are in the range of all of them. -/
theorem holds_newInt32Range_all (x : BitVec 32) :
    (newInt32Range jsvalIntMin jsvalIntMax).Holds (.finite x.toInt) :=
  holds_newInt32Range (toInt_range x).1 (toInt_range x).2

/-- The bits of an int32 give it back. -/
theorem toInt_bits (hl : jsvalIntMin ≤ z) (hh : z ≤ jsvalIntMax) : (bits z).toInt = z := by
  simp only [jsvalIntMin, jsvalIntMax] at hl hh
  rw [bits, BitVec.toInt_ofInt, Int.bmod_eq_of_le] <;> omega

/-- The complement of an int32. -/
theorem int32Not_eq (hl : jsvalIntMin ≤ z) (hh : z ≤ jsvalIntMax) : int32Not z = -z - 1 := by
  rw [int32Not, toInt_complement, toInt_bits hl hh]

/-! ## Leading zeros -/

/-- The maximum, shifted by one bit at least, is a power of two less one. -/
theorem shiftedMax_eq : ∀ n < 33, 1 ≤ n → shiftedMax n = 2 ^ (32 - n) - 1 := by
  decide

/-- The leading zeros of a positive int32, and the power of two they leave above it. -/
theorem countLeadingZeroes32_pos (hpos : 0 < z) (hh : z ≤ jsvalIntMax) :
    ∃ n, countLeadingZeroes32 (bits z) = some n ∧ 1 ≤ n ∧ n < 32 ∧ z < (2 ^ (32 - n) : ℕ) := by
  have hbits := toInt_bits (z := z) (by simp only [jsvalIntMin]; omega) hh
  obtain ⟨hlt, hnat⟩ := toNat_of_nonneg (x := bits z) (by omega)
  have hne : (bits z).toNat ≠ 0 := by omega
  have hlog : (bits z).toNat.log2 < 31 := by
    rw [Nat.log2_lt hne]
    simp only [jsvalIntMax] at hh
    omega
  refine ⟨31 - (bits z).toNat.log2, ?_, by omega, by omega, ?_⟩
  · rw [countLeadingZeroes32, if_neg fun h => hne (by rw [h]; rfl)]
  · have hself : (bits z).toNat < 2 ^ ((bits z).toNat.log2 + 1) := Nat.lt_log2_self
    rw [show 32 - (31 - (bits z).toNat.log2) = (bits z).toNat.log2 + 1 by omega]
    omega

/-! ## The bitwise operators -/

/-- `and_` keeps the bits that two values share. -/
theorem holds_and (hx : lhs.Int32Bounds x.toInt) (hy : rhs.Int32Bounds y.toInt) :
    (and_ lhs rhs).Holds (.finite (x &&& y).toInt) := by
  have hx1 := hx.lower_le
  have hx2 := hx.le_upper
  have hy1 := hy.lower_le
  have hy2 := hy.le_upper
  have hcomm : y &&& x = x &&& y := BitVec.and_comm y x
  have hleft := fun h => and_of_nonneg (x := x) y h
  have hright := fun h => and_of_nonneg (x := y) x h
  rw [hcomm] at hright
  have hneg := fun h h' => and_of_neg (x := x) (y := y) h h'
  simp only [and_, Bool.and_eq_true, decide_eq_true_eq]
  by_cases hboth : lhs.lower < 0 ∧ rhs.lower < 0
  · rw [if_pos hboth]
    apply holds_newInt32Range (toInt_range _).1
    rw [le_max_iff]
    by_cases hxs : 0 ≤ x.toInt
    · exact Or.inl ((hleft hxs).2.trans hx2)
    · by_cases hys : 0 ≤ y.toInt
      · exact Or.inr ((hright hys).2.trans hy2)
      · exact Or.inl ((hneg (by omega) (by omega)).trans hx2)
  · rw [if_neg hboth]
    apply holds_newInt32Range
    · by_cases hxs : 0 ≤ x.toInt
      · exact (hleft hxs).1
      · exact (hright (by omega)).1
    · split_ifs with hr hl
      · exact (hleft (by omega)).2.trans hx2
      · exact (hright (by omega)).2.trans hy2
      · exact le_min ((hleft (by omega)).2.trans hx2) ((hright (by omega)).2.trans hy2)

/-- The bounds of a negative operand of `or_` are tightened to bounds of the result. -/
theorem exists_orNegative {r : Range} (bounds : ℤ × ℤ) (hinv : r.AssertInvariants)
    (hone : ¬ (r.lower = r.upper ∧ r.lower = -1)) :
    ∃ bounds', orNegative r bounds = some bounds' ∧ ∀ v w : BitVec 32, r.Int32Bounds v.toInt →
      (v.toInt < 0 → v.toInt ≤ w.toInt ∧ w.toInt < 0) → bounds.1 ≤ w.toInt → w.toInt ≤ bounds.2 →
      bounds'.1 ≤ w.toInt ∧ w.toInt ≤ bounds'.2 := by
  have hmin := hinv.lower_int32
  have hle := hinv.lower_le_upper
  rw [orNegative]
  by_cases hneg : r.upper < 0
  · have hnot : int32Not r.lower = -r.lower - 1 :=
      int32Not_eq hmin (by simp only [jsvalIntMax]; omega)
    obtain ⟨n, hcount, hpos, hlt, hpow⟩ := countLeadingZeroes32_pos (z := int32Not r.lower)
      (by rw [hnot]; omega) (by rw [hnot]; simp only [jsvalIntMin] at hmin; simp only [jsvalIntMax]; omega)
    rw [if_pos hneg, hcount]
    refine ⟨_, rfl, fun v w hbounds hv hlower _ => ?_⟩
    have hlow := hbounds.lower_le
    have hupp := hbounds.le_upper
    obtain ⟨hvw, hwneg⟩ := hv (by omega)
    have hones : int32Not (shiftedMax n) = -shiftedMax n - 1 :=
      int32Not_eq (toInt_range _).1 (toInt_range _).2
    rw [hones, shiftedMax_eq n (by omega) hpos]
    push_cast at hpow
    exact ⟨max_le hlower (by omega), by dsimp only; omega⟩
  · rw [if_neg hneg]
    exact ⟨bounds, rfl, fun _ _ _ _ hlower hupper => ⟨hlower, hupper⟩⟩

/-- `or_` does not count the leading zeros of zero, and keeps the bits that two values have. -/
theorem exists_or (hlhs : lhs.AssertInvariants) (hrhs : rhs.AssertInvariants) :
    ∃ r, or_ lhs rhs = some r ∧ ∀ x y : BitVec 32, lhs.Holds (.finite x.toInt) →
      rhs.Holds (.finite y.toInt) → lhs.Int32Bounds x.toInt → rhs.Int32Bounds y.toInt →
      r.Holds (.finite (x ||| y).toInt) := by
  have hl := hlhs.lower_le_upper
  have hr := hrhs.lower_le_upper
  have hzero : ∀ {v : BitVec 32} {r : Range}, r.lower = r.upper → r.lower = 0 →
      r.Int32Bounds v.toInt → v = 0#32 := by
    intro v r heq hnull hv
    have h1 := hv.lower_le
    have h2 := hv.le_upper
    exact BitVec.eq_of_toInt_eq (by change v.toInt = 0; omega)
  have hones : ∀ {v : BitVec 32} {r : Range}, r.lower = r.upper → r.lower = -1 →
      r.Int32Bounds v.toInt → v = BitVec.allOnes 32 := by
    intro v r heq hnull hv
    have h1 := hv.lower_le
    have h2 := hv.le_upper
    exact BitVec.eq_of_toInt_eq (by change v.toInt = -1; omega)
  simp only [or_, Bool.and_eq_true, beq_iff_eq, decide_eq_true_eq]
  by_cases h1 : lhs.lower = lhs.upper ∧ lhs.lower = 0
  · rw [if_pos h1]
    refine ⟨rhs, rfl, fun x y _ hy hxb _ => ?_⟩
    rw [hzero h1.1 h1.2 hxb, BitVec.zero_or]
    exact hy
  rw [if_neg h1]
  by_cases h2 : lhs.lower = lhs.upper ∧ lhs.lower = -1
  · rw [if_pos h2]
    refine ⟨lhs, rfl, fun x y hx _ hxb _ => ?_⟩
    rw [hones h2.1 h2.2 hxb] at hx ⊢
    rwa [BitVec.allOnes_or]
  rw [if_neg h2]
  by_cases h3 : rhs.lower = rhs.upper ∧ rhs.lower = 0
  · rw [if_pos h3]
    refine ⟨lhs, rfl, fun x y hx _ _ hyb => ?_⟩
    rw [hzero h3.1 h3.2 hyb, BitVec.or_zero]
    exact hx
  rw [if_neg h3]
  by_cases h4 : rhs.lower = rhs.upper ∧ rhs.lower = -1
  · rw [if_pos h4]
    refine ⟨rhs, rfl, fun x y _ hy _ hyb => ?_⟩
    rw [hones h4.1 h4.2 hyb] at hy ⊢
    rwa [BitVec.or_allOnes]
  rw [if_neg h4]
  by_cases hboth : 0 ≤ lhs.lower ∧ 0 ≤ rhs.lower
  · rw [if_pos hboth]
    obtain ⟨m, hm, hmpos, hmlt, hmpow⟩ := countLeadingZeroes32_pos (z := lhs.upper) (by omega)
      hlhs.upper_int32
    obtain ⟨n, hn, hnpos, hnlt, hnpow⟩ := countLeadingZeroes32_pos (z := rhs.upper) (by omega)
      hrhs.upper_int32
    rw [hm, hn]
    refine ⟨_, rfl, fun x y _ _ hx hy => ?_⟩
    have hx1 := hx.lower_le
    have hx2 := hx.le_upper
    have hy1 := hy.lower_le
    have hy2 := hy.le_upper
    obtain ⟨hxor, hyor⟩ := or_of_nonneg (x := x) (y := y) (by omega) (by omega)
    apply holds_newInt32Range (max_le (by omega) (by omega))
    have hmono : ∀ a, min m n ≤ a → a < 32 → 2 ^ (32 - a) ≤ 2 ^ (32 - min m n) := fun a ha _ =>
      Nat.pow_le_pow_right (by decide) (by omega)
    have hmle := hmono m (min_le_left _ _) hmlt
    have hnle := hmono n (min_le_right _ _) hnlt
    have hlt := or_lt_two_pow (x := x) (y := y) (k := 32 - min m n) (by omega) (by omega) (by omega)
      (by omega)
    rw [shiftedMax_eq _ (by omega) (by omega)]
    push_cast at hlt
    omega
  · rw [if_neg hboth]
    obtain ⟨bounds, hbounds, hkeeps⟩ := exists_orNegative (jsvalIntMin, jsvalIntMax) hlhs h2
    obtain ⟨bounds', hbounds', hkeeps'⟩ := exists_orNegative bounds hrhs h4
    rw [hbounds]
    dsimp only [bind, Option.bind]
    rw [hbounds']
    refine ⟨_, rfl, fun x y _ _ hx hy => ?_⟩
    have hcomm : y ||| x = x ||| y := BitVec.or_comm y x
    obtain ⟨hlow, hupp⟩ := hkeeps x (x ||| y) hx (or_of_neg y) (toInt_range _).1 (toInt_range _).2
    obtain ⟨hlow', hupp'⟩ := hkeeps' y (x ||| y) hy (by rw [← hcomm]; exact or_of_neg x) hlow hupp
    exact holds_newInt32Range hlow' hupp'

/-- A value, complemented where the bounds of its range are. -/
def complementIf (inverted : Bool) (x : BitVec 32) : BitVec 32 := if inverted then ~~~x else x

/-- Complemented bounds hold the complemented values. -/
theorem complementNegative_spec {r : Range} (hinv : r.AssertInvariants) :
    r.complementNegative.1.1 ≤ r.complementNegative.1.2 ∧
      jsvalIntMin ≤ r.complementNegative.1.1 ∧ r.complementNegative.1.2 ≤ jsvalIntMax ∧
      ∀ x : BitVec 32, r.Int32Bounds x.toInt →
        r.complementNegative.1.1 ≤ (complementIf r.complementNegative.2 x).toInt ∧
          (complementIf r.complementNegative.2 x).toInt ≤ r.complementNegative.1.2 := by
  have hmin := hinv.lower_int32
  have hmax := hinv.upper_int32
  have hle := hinv.lower_le_upper
  rw [complementNegative]
  split_ifs with hneg
  · have hlower : int32Not r.lower = -r.lower - 1 := int32Not_eq hmin (by omega)
    have hupper : int32Not r.upper = -r.upper - 1 := int32Not_eq (by omega) hmax
    dsimp only
    rw [hlower, hupper]
    simp only [jsvalIntMin, jsvalIntMax] at hmin ⊢
    refine ⟨by omega, by omega, by omega, fun x hx => ?_⟩
    have h1 := hx.lower_le
    have h2 := hx.le_upper
    rw [complementIf, if_pos rfl, toInt_complement]
    omega
  · exact ⟨hle, hmin, hmax, fun x hx => ⟨hx.lower_le, hx.le_upper⟩⟩

/-- The bounds of `xor_` hold the bits in which two values differ. -/
theorem exists_xorBounds {a b : ℤ × ℤ} (ha : a.1 ≤ a.2) (hb : b.1 ≤ b.2) (ha1 : jsvalIntMin ≤ a.1)
    (ha2 : a.2 ≤ jsvalIntMax) (hb1 : jsvalIntMin ≤ b.1) (hb2 : b.2 ≤ jsvalIntMax) :
    ∃ bounds, xorBounds a b = some bounds ∧ jsvalIntMin ≤ bounds.1 ∧ bounds.2 ≤ jsvalIntMax ∧ ∀ x y : BitVec 32, a.1 ≤ x.toInt ∧ x.toInt ≤ a.2 →
      b.1 ≤ y.toInt ∧ y.toInt ≤ b.2 → bounds.1 ≤ (x ^^^ y).toInt ∧ (x ^^^ y).toInt ≤ bounds.2 := by
  have hzero : ∀ {v : BitVec 32} {c : ℤ × ℤ}, c.1 = 0 ∧ c.2 = 0 → c.1 ≤ v.toInt ∧ v.toInt ≤ c.2 →
      v = 0#32 := fun hc hv => BitVec.eq_of_toInt_eq (by change _ = (0 : ℤ); omega)
  simp only [xorBounds, Bool.and_eq_true, beq_iff_eq, decide_eq_true_eq]
  by_cases h1 : a.1 = 0 ∧ a.2 = 0
  · rw [if_pos h1]
    refine ⟨b, rfl, hb1, hb2, fun x y hx hy => ?_⟩
    rwa [hzero h1 hx, BitVec.zero_xor]
  rw [if_neg h1]
  by_cases h2 : b.1 = 0 ∧ b.2 = 0
  · rw [if_pos h2]
    refine ⟨a, rfl, ha1, ha2, fun x y hx hy => ?_⟩
    rwa [hzero h2 hy, BitVec.xor_zero]
  rw [if_neg h2]
  by_cases h3 : 0 ≤ a.1 ∧ 0 ≤ b.1
  · rw [if_pos h3]
    obtain ⟨m, hm, hmpos, hmlt, hmpow⟩ := countLeadingZeroes32_pos (z := a.2) (by omega) ha2
    obtain ⟨n, hn, hnpos, hnlt, hnpow⟩ := countLeadingZeroes32_pos (z := b.2) (by omega) hb2
    rw [hm, hn]
    refine ⟨_, rfl, (by decide : jsvalIntMin ≤ 0), (min_le_left _ _).trans (toInt_range _).2,
      fun x y hx hy => ?_⟩
    have hbits : ∀ {c : ℤ}, 0 ≤ c → c ≤ jsvalIntMax → (bits c).toInt = c := fun hc hc' =>
      toInt_bits (by simp only [jsvalIntMin]; omega) hc'
    have hmask : ∀ k < 33, 1 ≤ k → (bits (shiftedMax k)).toInt = ((2 ^ (32 - k) - 1 : ℕ) : ℤ) := by
      intro k hk hpos
      rw [toInt_bits (z := shiftedMax k) (toInt_range _).1 (toInt_range _).2, shiftedMax_eq k hk hpos]
      push_cast [Nat.one_le_two_pow]
      rfl
    have hright := xor_le_or (x := x) (y := y) (b := bits b.2) (by omega) (by omega)
      (by omega) (by rw [hbits (by omega) hb2]; exact hy.2) (hmask m (by omega) hmpos)
    have hleft := xor_le_or (x := y) (y := x) (b := bits a.2) (by omega) (by omega)
      (by omega) (by rw [hbits (by omega) ha2]; exact hx.2) (hmask n (by omega) hnpos)
    rw [BitVec.xor_comm] at hleft
    exact ⟨xor_of_nonneg (by omega) (by omega), le_min hright hleft⟩
  · rw [if_neg h3]
    exact ⟨_, rfl, le_rfl, le_rfl, fun x y _ _ => toInt_range _⟩

/-- Complementing the operands complements the bits in which they differ, as often. -/
theorem complementIf_xor (p q : Bool) (x y : BitVec 32) :
    complementIf p x ^^^ complementIf q y = complementIf (p != q) (x ^^^ y) := by
  cases p with
  | false =>
    cases q with
    | false => rfl
    | true => exact BitVec.not_xor_right.symm
  | true =>
    cases q with
    | false => exact BitVec.not_xor_left.symm
    | true =>
      change ~~~x ^^^ ~~~y = x ^^^ y
      rw [← BitVec.not_xor_left, ← BitVec.not_xor_right, BitVec.not_not]

/-- `xor_` does not count the leading zeros of zero, and keeps the bits in which two values differ. -/
theorem exists_xor (hlhs : lhs.AssertInvariants) (hrhs : rhs.AssertInvariants) :
    ∃ r, xor_ lhs rhs = some r ∧ ∀ x y : BitVec 32, lhs.Int32Bounds x.toInt →
      rhs.Int32Bounds y.toInt → r.Holds (.finite (x ^^^ y).toInt) := by
  obtain ⟨hl, hlmin, hlmax, hleft⟩ := complementNegative_spec hlhs
  obtain ⟨hr, hrmin, hrmax, hright⟩ := complementNegative_spec hrhs
  obtain ⟨bounds, hbounds, hmin, hmax, hkeeps⟩ := exists_xorBounds hl hr hlmin hlmax hrmin hrmax
  rw [xor_]
  dsimp only [bind, Option.bind]
  rw [hbounds]
  dsimp only
  have hvalue : ∀ x y : BitVec 32, lhs.Int32Bounds x.toInt → rhs.Int32Bounds y.toInt →
      bounds.1 ≤ (complementIf (lhs.complementNegative.2 != rhs.complementNegative.2) (x ^^^ y)).toInt ∧
        (complementIf (lhs.complementNegative.2 != rhs.complementNegative.2) (x ^^^ y)).toInt ≤
          bounds.2 := by
    intro x y hx hy
    rw [← complementIf_xor]
    exact hkeeps _ _ (hleft x hx) (hright y hy)
  by_cases hinvert : (lhs.complementNegative.2 != rhs.complementNegative.2) = true
  · rw [if_pos hinvert]
    refine ⟨_, rfl, fun x y hx hy => ?_⟩
    obtain ⟨hlow, hupp⟩ := hvalue x y hx hy
    rw [hinvert, complementIf, if_pos rfl, toInt_complement] at hlow hupp
    obtain ⟨h1, h2⟩ := toInt_range (x ^^^ y)
    have hneg : jsvalIntMin = -jsvalIntMax - 1 := rfl
    have hlower : int32Not bounds.1 = -bounds.1 - 1 := int32Not_eq hmin (by omega)
    have hupper : int32Not bounds.2 = -bounds.2 - 1 := int32Not_eq (by omega) hmax
    apply holds_newInt32Range
    · rw [hupper]
      omega
    · rw [hlower]
      omega
  · rw [if_neg hinvert]
    refine ⟨_, rfl, fun x y hx hy => ?_⟩
    obtain ⟨hlow, hupp⟩ := hvalue x y hx hy
    rw [complementIf, if_neg hinvert] at hlow hupp
    exact holds_newInt32Range hlow hupp

/-- `not_` keeps the complement of a value. -/
theorem holds_not (hinv : lhs.AssertInvariants) (hx : lhs.Int32Bounds x.toInt) :
    (not_ lhs).Holds (.finite (~~~x).toInt) := by
  have hmin := hinv.lower_int32
  have hmax := hinv.upper_int32
  have h1 := hx.lower_le
  have h2 := hx.le_upper
  have hlower : int32Not lhs.lower = -lhs.lower - 1 := int32Not_eq hmin (by omega)
  have hupper : int32Not lhs.upper = -lhs.upper - 1 := int32Not_eq (by omega) hmax
  apply holds_newInt32Range
  · rw [hupper, toInt_complement]
    omega
  · rw [hlower, toInt_complement]
    omega

/-! ## Shifts -/

/-- A bound that fits when it is shifted is not negative, and stays below the sign bit. -/
theorem fitsShifted_spec {shift : ℕ} (hmin : jsvalIntMin ≤ z) (hmax : z ≤ jsvalIntMax)
    (hfits : fitsShifted z shift = true) : 0 ≤ z ∧ z * (2 ^ shift : ℕ) < 2 ^ 31 := by
  have hbits := toInt_bits hmin hmax
  have hz : (bits z <<< shift <<< 1 >>> shift >>> 1).toInt = z := by
    rwa [fitsShifted, beq_iff_eq] at hfits
  have hnat : (bits z <<< shift <<< 1 >>> shift >>> 1).toNat =
      (bits z).toNat * (2 ^ shift * 2) % 2 ^ 32 / (2 ^ shift * 2) := by
    rw [BitVec.toNat_ushiftRight, BitVec.toNat_ushiftRight, BitVec.toNat_shiftLeft,
      BitVec.toNat_shiftLeft, Nat.shiftRight_eq_div_pow, Nat.shiftRight_eq_div_pow, Nat.shiftLeft_eq,
      Nat.shiftLeft_eq, Nat.mod_mul_mod, Nat.pow_one, Nat.div_div_eq_div_mul, Nat.mul_assoc]
  have hmod : (bits z).toNat * (2 ^ shift * 2) % 2 ^ 32 < 2 ^ 32 := Nat.mod_lt _ (by decide)
  have hle := Nat.div_mul_le_self ((bits z).toNat * (2 ^ shift * 2) % 2 ^ 32) (2 ^ shift * 2)
  have hpos : 1 ≤ 2 ^ shift := Nat.one_le_two_pow
  rw [← hnat] at hle
  -- the last shift leaves no sign bit
  have hsign : 0 ≤ (bits z <<< shift <<< 1 >>> shift >>> 1).toInt := by
    have hhalf : (bits z <<< shift <<< 1 >>> shift >>> 1).toNat * 2 < 2 ^ 32 := by
      calc (bits z <<< shift <<< 1 >>> shift >>> 1).toNat * 2
          ≤ (bits z <<< shift <<< 1 >>> shift >>> 1).toNat * (2 ^ shift * 2) :=
            Nat.mul_le_mul_left _ (by omega)
        _ < 2 ^ 32 := by omega
    rcases toInt_cases (bits z <<< shift <<< 1 >>> shift >>> 1) with ⟨-, h⟩ | ⟨h, -⟩ <;> omega
  have hvalue := (toNat_of_nonneg hsign).2
  refine ⟨by omega, ?_⟩
  have hdouble : z * (2 ^ shift * 2 : ℕ) < (2 ^ 32 : ℕ) := by
    rw [← hz, hvalue]
    exact_mod_cast Nat.lt_of_le_of_lt hle hmod
  push_cast at hdouble ⊢
  rw [← mul_assoc] at hdouble
  omega

/-- A shift to the left that stays below the sign bit multiplies. -/
theorem toInt_shiftLeft_of_lt {shift : ℕ} (hx : 0 ≤ x.toInt)
    (hlt : x.toInt * (2 ^ shift : ℕ) < 2 ^ 31) : (x <<< shift).toInt = x.toInt * (2 ^ shift : ℕ) := by
  have hnat := (toNat_of_nonneg hx).2
  rw [hnat] at hlt ⊢
  have hsmall : x.toNat * 2 ^ shift < 2 ^ 31 := by exact_mod_cast hlt
  have hshift : (x <<< shift).toNat = x.toNat * 2 ^ shift := by
    rw [BitVec.toNat_shiftLeft, Nat.shiftLeft_eq, Nat.mod_eq_of_lt (by omega)]
  rcases toInt_cases (x <<< shift) with ⟨-, h⟩ | ⟨h, -⟩
  · rw [h, hshift]
    push_cast
    rfl
  · omega

/-- `lsh` keeps the value shifted to the left. -/
theorem holds_lsh (hinv : lhs.AssertInvariants) (hx : lhs.Int32Bounds x.toInt) (c : BitVec 32) :
    (lsh lhs c).Holds (.finite (x <<< shiftAmount c).toInt) := by
  have hmin := hinv.lower_int32
  have hmax := hinv.upper_int32
  have hle := hinv.lower_le_upper
  have h1 := hx.lower_le
  have h2 := hx.le_upper
  rw [lsh]
  split_ifs with hfits
  · rw [Bool.and_eq_true] at hfits
    have hlbits := toInt_bits (z := lhs.lower) hmin (by omega)
    have hubits := toInt_bits (z := lhs.upper) (by omega) hmax
    obtain ⟨hl0, -⟩ := fitsShifted_spec hmin (by omega) hfits.1
    obtain ⟨hu0, hult⟩ := fitsShifted_spec (by omega) hmax hfits.2
    have hpos : (0 : ℤ) ≤ (2 ^ shiftAmount c : ℕ) := Int.natCast_nonneg _
    have hlow := Int.mul_le_mul_of_nonneg_right h1 hpos
    have hupp := Int.mul_le_mul_of_nonneg_right h2 hpos
    apply holds_newInt32Range
    · rw [toInt_shiftLeft_of_lt (by omega) (by rw [hlbits]; omega),
        toInt_shiftLeft_of_lt (by omega) (by omega), hlbits]
      exact hlow
    · rw [toInt_shiftLeft_of_lt (by omega) (by omega),
        toInt_shiftLeft_of_lt (by omega) (by rw [hubits]; omega), hubits]
      exact hupp
  · exact holds_newInt32Range_all _

/-- A shift to the right keeps the order. -/
theorem toInt_sshiftRight_le {v w : BitVec 32} (h : v.toInt ≤ w.toInt) (shift : ℕ) :
    (v.sshiftRight shift).toInt ≤ (w.sshiftRight shift).toInt := by
  rw [BitVec.toInt_sshiftRight, BitVec.toInt_sshiftRight, Int.shiftRight_eq_div_pow,
    Int.shiftRight_eq_div_pow]
  exact Int.ediv_le_ediv (by exact_mod_cast Nat.two_pow_pos shift) h

/-- `rsh` keeps the value shifted to the right. -/
theorem holds_rsh (hinv : lhs.AssertInvariants) (hx : lhs.Int32Bounds x.toInt) (c : BitVec 32) :
    (rsh lhs c).Holds (.finite (x.sshiftRight (shiftAmount c)).toInt) := by
  have hmin := hinv.lower_int32
  have hmax := hinv.upper_int32
  have hle := hinv.lower_le_upper
  apply holds_newInt32Range
  · apply toInt_sshiftRight_le
    rw [toInt_bits hmin (by omega)]
    exact hx.lower_le
  · apply toInt_sshiftRight_le
    rw [toInt_bits (by omega) hmax]
    exact hx.le_upper

/-- A logical shift to the right keeps the unsigned order. -/
theorem toNat_ushiftRight_le {v w : BitVec 32} (h : v.toNat ≤ w.toNat) (shift : ℕ) :
    (v >>> shift).toNat ≤ (w >>> shift).toNat := by
  rw [BitVec.toNat_ushiftRight, BitVec.toNat_ushiftRight, Nat.shiftRight_eq_div_pow,
    Nat.shiftRight_eq_div_pow]
  exact Nat.div_le_div_right h

/-- All bits are ones in the largest unsigned number. -/
theorem toNat_le_allOnes (x : BitVec 32) : x.toNat ≤ (BitVec.allOnes 32).toNat := by
  have hlt := x.isLt
  rw [BitVec.toNat_allOnes]
  omega

/-- `ursh` keeps the unsigned value shifted to the right. -/
theorem holds_ursh (hinv : lhs.AssertInvariants) (hx : lhs.Int32Bounds x.toInt) (c : BitVec 32) :
    (ursh lhs c).Holds (.finite ((x >>> shiftAmount c).toNat : ℤ)) := by
  have hmin := hinv.lower_int32
  have hmax := hinv.upper_int32
  have hle := hinv.lower_le_upper
  have h1 := hx.lower_le
  have h2 := hx.le_upper
  have hlbits := toInt_bits (z := lhs.lower) hmin (by omega)
  have hubits := toInt_bits (z := lhs.upper) (by omega) hmax
  rw [ursh]
  split_ifs with hsign
  · simp only [isFiniteNonNegative, isFiniteNegative, Bool.or_eq_true, Bool.and_eq_true,
      decide_eq_true_eq] at hsign
    apply holds_newUInt32Range
    · apply toNat_ushiftRight_le
      rw [← toInt_le_iff (by omega), hlbits]
      exact h1
    · apply toNat_ushiftRight_le
      rw [← toInt_le_iff (by omega), hubits]
      exact h2
  · exact holds_newUInt32Range (Nat.zero_le _) (toNat_ushiftRight_le (toNat_le_allOnes x) _)

/-- The variable form of `rsh` keeps the value shifted to the right by any amount. -/
theorem holds_rshVariable (hx : lhs.Int32Bounds x.toInt) (shift : ℕ) :
    (rshVariable lhs rhs).Holds (.finite (x.sshiftRight shift).toInt) := by
  have h1 := hx.lower_le
  have h2 := hx.le_upper
  have hpos : (0 : ℤ) < 2 ^ shift := by exact_mod_cast Nat.two_pow_pos shift
  have hshift : (x.sshiftRight shift).toInt = x.toInt / 2 ^ shift := by
    rw [BitVec.toInt_sshiftRight, Int.shiftRight_eq_div_pow]
    push_cast
    rfl
  apply holds_newInt32Range
  · rw [hshift]
    by_cases hsign : 0 ≤ x.toInt
    · exact (min_le_right _ _).trans (Int.ediv_nonneg hsign hpos.le)
    · apply (min_le_left _ _).trans
      rw [Int.le_ediv_iff_mul_le hpos]
      calc lhs.lower * 2 ^ shift ≤ lhs.lower * 1 :=
            Int.mul_le_mul_of_nonpos_left (by omega) (by omega)
        _ ≤ x.toInt := by omega
  · rw [hshift]
    by_cases hsign : 0 ≤ x.toInt
    · exact (Int.ediv_le_self _ hsign).trans (h2.trans (le_max_left _ _))
    · exact (Int.ediv_neg_of_neg_of_pos (by omega) hpos).le.trans (le_max_right _ _)

/-- The variable form of `ursh` keeps the unsigned value shifted to the right by any amount. -/
theorem holds_urshVariable (hinv : lhs.AssertInvariants) (hx : lhs.Int32Bounds x.toInt) (shift : ℕ) :
    (urshVariable lhs rhs).Holds (.finite ((x >>> shift).toNat : ℤ)) := by
  have hmin := hinv.lower_int32
  have hmax := hinv.upper_int32
  have hle := hinv.lower_le_upper
  have h1 := hx.lower_le
  have h2 := hx.le_upper
  have hubits := toInt_bits (z := lhs.upper) (by omega) hmax
  have hshift : (x >>> shift).toNat ≤ x.toNat := by
    rw [BitVec.toNat_ushiftRight, Nat.shiftRight_eq_div_pow]
    exact Nat.div_le_self _ _
  apply holds_newUInt32Range (Nat.zero_le _)
  apply hshift.trans
  split_ifs with hsign
  · simp only [isFiniteNonNegative, Bool.and_eq_true, decide_eq_true_eq] at hsign
    rw [← toInt_le_iff (by omega), hubits]
    exact h2
  · exact toNat_le_allOnes x

/-- The bitwise operations are sound: on all ranges of int32 values, none of them counts the leading zeros
of zero, and the results for all values in the ranges are in the ranges they return. -/
theorem bitwise_sound (lhs rhs : Range) (hlhs : lhs.AssertInvariants) (hrhs : rhs.AssertInvariants)
    (hl : lhs.isInt32 = true) (hr : rhs.isInt32 = true) :
    ∃ orRange xorRange, or_ lhs rhs = some orRange ∧ xor_ lhs rhs = some xorRange ∧
      ∀ x y c : BitVec 32, lhs.Holds (.finite x.toInt) → rhs.Holds (.finite y.toInt) →
        (and_ lhs rhs).Holds (.finite (x &&& y).toInt) ∧
        orRange.Holds (.finite (x ||| y).toInt) ∧
        xorRange.Holds (.finite (x ^^^ y).toInt) ∧
        (not_ lhs).Holds (.finite (~~~x).toInt) ∧
        (lsh lhs c).Holds (.finite (x <<< shiftAmount c).toInt) ∧
        (rsh lhs c).Holds (.finite (x.sshiftRight (shiftAmount c)).toInt) ∧
        (ursh lhs c).Holds (.finite ((x >>> shiftAmount c).toNat : ℤ)) ∧
        (lshVariable lhs rhs).Holds (.finite (x <<< shiftAmount y).toInt) ∧
        (rshVariable lhs rhs).Holds (.finite (x.sshiftRight (shiftAmount y)).toInt) ∧
        (urshVariable lhs rhs).Holds (.finite ((x >>> shiftAmount y).toNat : ℤ)) := by
  obtain ⟨orRange, hor, horHolds⟩ := exists_or hlhs hrhs
  obtain ⟨xorRange, hxor, hxorHolds⟩ := exists_xor hlhs hrhs
  refine ⟨orRange, xorRange, hor, hxor, fun x y c hx hy => ?_⟩
  have hxb := hx.int32Bounds hl
  have hyb := hy.int32Bounds hr
  exact ⟨holds_and hxb hyb, horHolds x y hx hy hxb hyb, hxorHolds x y hxb hyb, holds_not hlhs hxb,
    holds_lsh hlhs hxb c, holds_rsh hlhs hxb c, holds_ursh hlhs hxb c, holds_newInt32Range_all _,
    holds_rshVariable hxb _, holds_urshVariable hlhs hxb _⟩

/-- The operations at five in a range that crosses zero and minus two in one that is negative. -/
theorem bitwise_sound_crossing :
    (and_ (newInt32Range (-3) 5) (newInt32Range (-8) (-2))).Holds (.finite (5#32 &&& -2#32).toInt) ∧
      ∃ r, or_ (newInt32Range (-3) 5) (newInt32Range (-8) (-2)) = some r ∧
        r.Holds (.finite (5#32 ||| -2#32).toInt) := by
  have hx : (newInt32Range (-3) 5).Holds (.finite (5#32).toInt) :=
    holds_newInt32Range (by decide) (by decide)
  have hy : (newInt32Range (-8) (-2)).Holds (.finite (-2#32).toInt) :=
    holds_newInt32Range (by decide) (by decide)
  obtain ⟨r, _, hor, -, hsound⟩ := bitwise_sound (newInt32Range (-3) 5) (newInt32Range (-8) (-2))
    (by decide) (by decide) (by decide) (by decide)
  obtain ⟨hand, horHolds, -⟩ := hsound 5#32 (-2#32) 0 hx hy
  exact ⟨hand, r, hor, horHolds⟩

end Range

end SpiderMonkey.Jit
