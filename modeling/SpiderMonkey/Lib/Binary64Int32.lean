import SpiderMonkey.Lib.Binary64

/-!
# Doubles and int32

Subtraction and remainder of doubles, the conversions between doubles and int32, and what the
operations do on numbers converted from int32. A rounded quotient is an integer only if the quotient is one.
-/

namespace SpiderMonkey

/-! ## Rounding -/

/-- Rounding to an integer moves by at most one half. -/
theorem abs_roundHalfEven_sub_le (q : ℚ) : |(roundHalfEven q : ℚ) - q| ≤ 1 / 2 := by
  have hfloor := Int.floor_le q
  have hlt := Int.lt_floor_add_one q
  rw [abs_le]
  unfold roundHalfEven
  split_ifs with h1 h2 h3 <;> push_cast <;> constructor <;> linarith

/-- Rounding to the format moves by at most half a unit of the last place. -/
theorem abs_roundMagnitude_sub_le (q : ℚ) : |roundMagnitude q - q| ≤ 2 ^ ulpExponent q / 2 := by
  have hpos : (0 : ℚ) < 2 ^ ulpExponent q := by positivity
  have hround := abs_roundHalfEven_sub_le (q / 2 ^ ulpExponent q)
  have heq : roundMagnitude q - q =
      (roundHalfEven (q / 2 ^ ulpExponent q) - q / 2 ^ ulpExponent q) * 2 ^ ulpExponent q := by
    rw [roundMagnitude, sub_mul, div_mul_cancel₀ _ hpos.ne']
  rw [heq, abs_mul, abs_of_pos hpos]
  calc _ ≤ 1 / 2 * (2 : ℚ) ^ ulpExponent q := mul_le_mul_of_nonneg_right hround hpos.le
    _ = 2 ^ ulpExponent q / 2 := by ring

/-- A quotient of two integers that is rounded to an integer is that integer. -/
theorem eq_mul_of_roundMagnitude_div {m n k : ℕ} (hm : m ≤ 2 ^ 52) (hn : n ≤ 2 ^ 52) (hpos : 0 < n)
    (hk : roundMagnitude (m / n) = k) : m = k * n := by
  rcases Nat.eq_zero_or_pos m with rfl | hmpos
  · rw [Nat.cast_zero, zero_div] at hk
    have hzero : roundMagnitude 0 = 0 := by simpa using roundMagnitude_of_isMagnitude (isMagnitude_natCast (Nat.zero_le _))
    rw [hzero] at hk
    have hk' : k = 0 := by exact_mod_cast hk.symm
    rw [hk', Nat.zero_mul]
  · have hnq : (0 : ℚ) < n := by exact_mod_cast hpos
    have hmq : (0 : ℚ) < m := by exact_mod_cast hmpos
    have hq : (0 : ℚ) < m / n := div_pos hmq hnq
    have hbig : -1022 ≤ Int.log 2 ((m : ℚ) / n) := by
      apply (Int.zpow_le_iff_le_log (by decide) hq).mp
      rw [le_div_iff₀ hnq]
      have hncast : (n : ℚ) ≤ 2 ^ 52 := by exact_mod_cast hn
      have hone : (1 : ℚ) ≤ m := by exact_mod_cast hmpos
      calc ((2 : ℕ) : ℚ) ^ (-1022 : ℤ) * n ≤ 2 ^ (-52 : ℤ) * 2 ^ 52 := by
            push_cast
            exact mul_le_mul (zpow_le_zpow_right₀ (by norm_num) (by norm_num)) hncast hnq.le (by positivity)
        _ = 1 := by norm_num
        _ ≤ m := hone
    -- the error is a small part of the quotient, so it is less than a part of the divisor
    have hulp := two_zpow_ulp_le hq hbig
    rw [zpow_add₀ (by norm_num)] at hulp
    have herr := abs_roundMagnitude_sub_le ((m : ℚ) / n)
    rw [hk] at herr
    have hmul : |(k : ℚ) * n - m| < 1 := by
      have heq : (k : ℚ) * n - m = (k - m / n) * n := by
        field_simp
      rw [heq, abs_mul, abs_of_pos hnq]
      have hmcast : (m : ℚ) ≤ 2 ^ 52 := by exact_mod_cast hm
      calc |(k : ℚ) - m / n| * n ≤ m / n / 2 ^ 53 * n := by
            apply mul_le_mul_of_nonneg_right _ hnq.le
            refine herr.trans ?_
            norm_num at hulp ⊢
            linarith
        _ = m / 2 ^ 53 := by field_simp
        _ < 1 := by
            rw [div_lt_one (by positivity)]
            exact hmcast.trans_lt (by norm_num)
    have hcast : |((k * n : ℤ) - m : ℤ)| < 1 := by exact_mod_cast hmul
    have heq := sub_eq_zero.mp (Int.abs_lt_one_iff.mp hcast)
    exact_mod_cast heq.symm

namespace Binary64

/-! ## Operations -/

/-- Subtraction adds the negation. -/
protected def sub (x y : Binary64) : Binary64 := x + -y

/-- What is left of a nonnegative number after subtracting another one as often as it fits. -/
def remainder (m n : ℚ) : ℚ := m - n * ⌊m / n⌋

theorem remainder_nonneg {m n : ℚ} (hn : 0 ≤ n) : 0 ≤ remainder m n ∨ n = 0 := by
  rcases hn.eq_or_lt with hzero | hpos
  · exact Or.inr hzero.symm
  · have hfloor := (le_div_iff₀ hpos).mp (Int.floor_le (m / n))
    exact Or.inl (by unfold remainder; linarith)

/-- `fmod`: the remainder of a truncated division, with the sign of the dividend. -/
def fmod : Binary64 → Binary64 → Binary64
  | finite s m, finite _ n =>
      if h : n.1 = 0 then nan
      else ofMagnitude s (remainder m.1 n.1) ((remainder_nonneg n.2.nonneg).resolve_right h)
  | finite s m, infinity _ => finite s m
  | infinity _, _ => nan
  | nan, _ => nan
  | finite _ _, nan => nan

instance : Sub Binary64 := ⟨Binary64.sub⟩
instance : Div Binary64 := ⟨Binary64.div⟩

theorem sub_def (x y : Binary64) : x - y = x + -y := rfl

theorem div_def (x y : Binary64) : x / y = Binary64.div x y := rfl

/-- An int32 converted to a double. -/
def ofInt32 (i : BitVec 32) : Binary64 := ofRat i.toInt

/-- `DoubleIsInt32`: the int32 that a double is, which a negative zero is not. -/
def isInt32 : Binary64 → Option (BitVec 32)
  | finite s m =>
      let q := signed s m.1
      if s ∧ m.1 = 0 then none
      else if q.den = 1 ∧ -2 ^ 31 ≤ q.num ∧ q.num < 2 ^ 31 then some (BitVec.ofInt 32 q.num) else none
  | _ => none

/-! ## Integers -/

/-- An integer of at most 53 bits is represented exactly. -/
theorem ofRat_intCast {z : ℤ} (hz : z.natAbs ≤ 2 ^ 53) :
    ofRat z = finite (decide (z < 0)) ⟨z.natAbs, isMagnitude_natCast hz⟩ := by
  have habs : |(z : ℚ)| = (z.natAbs : ℕ) := by rw [Nat.cast_natAbs, Int.cast_abs]
  have hsign : decide ((z : ℚ) < 0) = decide (z < 0) := by simp
  have hmag : IsMagnitude |(z : ℚ)| := habs ▸ isMagnitude_natCast hz
  rw [ofRat, ofMagnitude_of_isMagnitude _ hmag, hsign]
  congr 1
  exact Subtype.ext habs

/-- The magnitude of an int32. -/
theorem natAbs_toInt_le (i : BitVec 32) : i.toInt.natAbs ≤ 2 ^ 31 := by
  have hl := BitVec.le_toInt i
  have hh := BitVec.toInt_lt (x := i)
  omega

/-- An int32 as a double. -/
theorem ofInt32_eq (i : BitVec 32) :
    ofInt32 i = finite (decide (i.toInt < 0))
      ⟨i.toInt.natAbs, isMagnitude_natCast ((natAbs_toInt_le i).trans (by decide))⟩ :=
  ofRat_intCast ((natAbs_toInt_le i).trans (by decide))

/-- A finite double with the exact number of an integer. -/
theorem signed_natAbs (z : ℤ) : signed (decide (z < 0)) z.natAbs = z := by
  rw [Nat.cast_natAbs, Int.cast_abs, signed]
  by_cases hz : z < 0
  · rw [decide_eq_true hz, if_pos rfl, abs_of_neg (by exact_mod_cast hz), neg_neg]
  · rw [decide_eq_false hz, if_neg Bool.false_ne_true, abs_of_nonneg (by exact_mod_cast not_lt.mp hz)]

/-- The doubles that an int32 is. -/
theorem finite_eq_ofInt32_iff {s : Bool} {n : ℕ} {h : IsMagnitude n} {i : BitVec 32} :
    finite s ⟨n, h⟩ = ofInt32 i ↔ s = decide (i.toInt < 0) ∧ n = i.toInt.natAbs := by
  rw [ofInt32_eq, finite.injEq, Subtype.mk.injEq, Nat.cast_inj]

/-- Different int32 are different doubles. -/
theorem ofInt32_injective : Function.Injective ofInt32 := by
  intro i j h
  rw [ofInt32_eq, finite_eq_ofInt32_iff] at h
  have hiff := decide_eq_decide.mp h.1
  exact BitVec.eq_of_toInt_eq (by omega)

/-- The doubles that are int32 are those converted from them. -/
theorem isInt32_eq_some_iff {d : Binary64} {i : BitVec 32} : d.isInt32 = some i ↔ d = ofInt32 i := by
  apply Iff.intro
  · intro h
    cases d with
    | infinity s => cases h
    | nan => cases h
    | finite s m =>
      simp only [isInt32] at h
      split at h
      · cases h
      · next hzero =>
        split at h
        · next hint =>
          obtain ⟨hden, hl, hh⟩ := hint
          have hi : i.toInt = (signed s m.1).num := by
            rw [← Option.some.inj h, BitVec.toInt_ofInt, Int.bmod_eq_of_le] <;> omega
          have hq : signed s m.1 = i.toInt := by
            rw [hi]
            exact ((Rat.den_eq_one_iff _).mp hden).symm
          have hnonneg := m.2.nonneg
          have habs : m.1 = (i.toInt.natAbs : ℕ) := by
            rw [Nat.cast_natAbs, Int.cast_abs, ← hq, signed]
            split <;> simp [abs_of_nonneg hnonneg]
          have hsign : s = decide (i.toInt < 0) := by
            have hlt : (i.toInt < 0) ↔ signed s m.1 < 0 := by rw [hq]; simp
            cases s with
            | false => simpa [hlt, signed] using hnonneg
            | true =>
              have hne : m.1 ≠ 0 := fun heq => hzero ⟨rfl, heq⟩
              have hpos := lt_of_le_of_ne hnonneg (Ne.symm hne)
              simpa [hlt, signed] using hpos
          rw [ofInt32_eq, finite.injEq]
          exact ⟨hsign, Subtype.ext habs⟩
        · cases h
  · rintro rfl
    rw [ofInt32_eq]
    simp only [isInt32, signed_natAbs]
    have hl := BitVec.le_toInt i
    have hh := BitVec.toInt_lt (x := i)
    rw [if_neg (by simp; omega), if_pos ⟨by simp, by simpa using hl, by simpa using hh⟩]
    simp

/-- An exact integer is represented with any sign. -/
theorem ofMagnitude_natCast (s : Bool) {n : ℕ} (hn : n ≤ 2 ^ 53) (h : (0 : ℚ) ≤ n) :
    ofMagnitude s n h = finite s ⟨n, isMagnitude_natCast hn⟩ :=
  ofMagnitude_of_isMagnitude s (isMagnitude_natCast hn)

/-- A large magnitude is not rounded to an int32. -/
theorem ofMagnitude_ne_ofInt32 (s : Bool) {q : ℚ} (h : 0 ≤ q) (hq : 2 ^ 53 ≤ q) (i : BitVec 32) :
    ofMagnitude s q h ≠ ofInt32 i := by
  rw [ofInt32_eq, ofMagnitude]
  split
  · intro heq
    have hround : ((2 : ℚ) ^ (53 : ℤ)) ≤ roundMagnitude q := le_roundMagnitude (by decide) (by exact_mod_cast hq)
    have hle : ((i.toInt.natAbs : ℕ) : ℚ) ≤ 2 ^ 31 := by exact_mod_cast natAbs_toInt_le i
    rw [finite.injEq, Subtype.mk.injEq] at heq
    rw [heq.2] at hround
    exact absurd (hround.trans hle) (by norm_num)
  · rintro ⟨⟩

/-- The opposite sign. -/
theorem signed_not (s : Bool) (q : ℚ) : signed (!s) q = -signed s q := by
  cases s <;> simp [signed]

/-- The sum of two doubles with the numbers of integers, if it is an int32. -/
theorem toInt_of_add {s t : Bool} {m n : {q : ℚ // IsMagnitude q}} {a b : ℤ} {i : BitVec 32}
    (ha : signed s m.1 = a) (hb : signed t n.1 = b) (hle : (a + b).natAbs ≤ 2 ^ 53)
    (h : finite s m + finite t n = ofInt32 i) : i.toInt = a + b := by
  rw [add_def] at h
  simp only [Binary64.add, ha, hb] at h
  split at h
  · next hzero =>
    have hcast : (0 : ℚ) = ((0 : ℕ) : ℚ) := Nat.cast_zero.symm
    have hsum : a + b = 0 := by exact_mod_cast hzero
    have hmag : ofMagnitude (s && t) 0 le_rfl = finite (s && t) ⟨(0 : ℕ), isMagnitude_natCast (Nat.zero_le _)⟩ := by
      rw [← ofMagnitude_natCast _ (Nat.zero_le _) (Nat.cast_nonneg _)]
      congr 1
    rw [hmag, finite_eq_ofInt32_iff] at h
    omega
  · rw [← Int.cast_add, ofRat_intCast hle, finite_eq_ofInt32_iff] at h
    have hiff := decide_eq_decide.mp h.1
    omega

/-- A sum of int32 that is an int32. -/
theorem toInt_of_ofInt32_add {a b i : BitVec 32} (h : ofInt32 a + ofInt32 b = ofInt32 i) :
    i.toInt = a.toInt + b.toInt := by
  have ha := natAbs_toInt_le a
  have hb := natAbs_toInt_le b
  rw [ofInt32_eq a, ofInt32_eq b] at h
  exact toInt_of_add (signed_natAbs _) (signed_natAbs _) (by omega) h

/-- A difference of int32 that is an int32. -/
theorem toInt_of_ofInt32_sub {a b i : BitVec 32} (h : ofInt32 a - ofInt32 b = ofInt32 i) :
    i.toInt = a.toInt - b.toInt := by
  have ha := natAbs_toInt_le a
  have hb := natAbs_toInt_le b
  rw [sub_def, ofInt32_eq a, ofInt32_eq b] at h
  refine toInt_of_add (b := -b.toInt) (signed_natAbs _) ?_ (by omega) h
  rw [signed_not, signed_natAbs, Int.cast_neg]

/-- An integer with the magnitude and the sign of a product is the product. -/
theorem eq_mul_of_natAbs {x y z : ℤ} (hmag : z.natAbs = x.natAbs * y.natAbs)
    (hsign : (decide (x < 0) ^^ decide (y < 0)) = decide (z < 0)) : z = x * y := by
  rw [← Int.natAbs_mul] at hmag
  rcases lt_or_ge x 0 with hx | hx <;> rcases lt_or_ge y 0 with hy | hy
  · have hpos := mul_pos_of_neg_of_neg hx hy
    simp [hx, hy] at hsign
    omega
  · have hneg := mul_nonpos_of_nonpos_of_nonneg hx.le hy
    simp [hx, not_lt.mpr hy] at hsign
    omega
  · have hneg := mul_nonpos_of_nonneg_of_nonpos hx hy.le
    simp [hy, not_lt.mpr hx] at hsign
    omega
  · have hpos := mul_nonneg hx hy
    simp [not_lt.mpr hx, not_lt.mpr hy] at hsign
    omega

/-- A product of int32 that is an int32. Its sign is that of the product, also if it is zero. -/
theorem toInt_of_ofInt32_mul {a b i : BitVec 32} (h : ofInt32 a * ofInt32 b = ofInt32 i) :
    i.toInt = a.toInt * b.toInt ∧
      (decide (a.toInt < 0) ^^ decide (b.toInt < 0)) = decide (i.toInt < 0) := by
  rw [ofInt32_eq a, ofInt32_eq b, mul_def] at h
  simp only [Binary64.mul, ← Nat.cast_mul] at h
  rcases le_or_gt (a.toInt.natAbs * b.toInt.natAbs) (2 ^ 53) with hle | hgt
  · rw [ofMagnitude_natCast _ hle, finite_eq_ofInt32_iff] at h
    exact ⟨eq_mul_of_natAbs h.2.symm h.1, h.1⟩
  · refine absurd h (ofMagnitude_ne_ofInt32 _ _ ?_ _)
    exact_mod_cast hgt.le

/-- A quotient of int32 is an int32 if and only if it is exact and no negative zero. -/
theorem ofInt32_div_eq_iff {a b i : BitVec 32} :
    ofInt32 a / ofInt32 b = ofInt32 i ↔ b.toInt ≠ 0 ∧ a.toInt = i.toInt * b.toInt ∧
      (decide (a.toInt < 0) ^^ decide (b.toInt < 0)) = decide (i.toInt < 0) := by
  have ha := natAbs_toInt_le a
  have hb := natAbs_toInt_le b
  have hi := natAbs_toInt_le i
  rw [ofInt32_eq a, ofInt32_eq b, div_def]
  simp only [Binary64.div, Nat.cast_eq_zero, Int.natAbs_eq_zero]
  by_cases hzero : b.toInt = 0
  · rw [if_pos hzero, ofInt32_eq]
    apply Iff.intro
    · intro h
      split at h <;> cases h
    · exact fun h => absurd hzero h.1
  · rw [if_neg hzero]
    have hpos : 0 < b.toInt.natAbs := Int.natAbs_pos.mpr hzero
    apply Iff.intro
    · intro h
      unfold ofMagnitude at h
      split at h
      · rw [ofInt32_eq, finite.injEq, Subtype.mk.injEq] at h
        have hmag := eq_mul_of_roundMagnitude_div (ha.trans (by decide)) (hb.trans (by decide)) hpos h.2
        refine ⟨hzero, eq_mul_of_natAbs hmag ?_, h.1⟩
        rw [← h.1, Bool.xor_assoc, Bool.xor_self, Bool.xor_false]
      · rw [ofInt32_eq] at h
        cases h
    · rintro ⟨-, hmul, hsign⟩
      have hq : ((a.toInt.natAbs : ℕ) : ℚ) / (b.toInt.natAbs : ℕ) = (i.toInt.natAbs : ℕ) := by
        rw [hmul, Int.natAbs_mul, Nat.cast_mul, mul_div_cancel_right₀]
        exact Nat.cast_ne_zero.mpr hpos.ne'
      rw [hsign]
      simp only [hq]
      rw [ofMagnitude_natCast _ (hi.trans (by decide)), ofInt32_eq]

/-- The remainder of integers. -/
theorem remainder_natCast (m n : ℕ) : remainder m n = (m % n : ℕ) := by
  have hfloor : ⌊(m : ℚ) / n⌋ = ((m / n : ℕ) : ℤ) := by
    exact (Rat.floor_natCast_div_natCast m n).trans (Int.natCast_div m n).symm
  rw [remainder, hfloor]
  have hdiv := Nat.div_add_mod m n
  have hcast : (m : ℚ) = n * (m / n : ℕ) + (m % n : ℕ) := by exact_mod_cast hdiv.symm
  rw [Int.cast_natCast]
  linarith

/-- A remainder of int32 is an int32 if and only if it is no negative zero. -/
theorem ofInt32_fmod_eq_iff {a b i : BitVec 32} :
    fmod (ofInt32 a) (ofInt32 b) = ofInt32 i ↔ b.toInt ≠ 0 ∧ i.toInt = a.toInt.tmod b.toInt ∧
      decide (a.toInt < 0) = decide (i.toInt < 0) := by
  have ha := natAbs_toInt_le a
  rw [ofInt32_eq a, ofInt32_eq b]
  simp only [fmod, Nat.cast_eq_zero, Int.natAbs_eq_zero]
  by_cases hzero : b.toInt = 0
  · rw [dif_pos hzero, ofInt32_eq]
    exact ⟨by rintro ⟨⟩, fun h => absurd hzero h.1⟩
  · rw [dif_neg hzero]
    simp only [remainder_natCast]
    have hle : a.toInt.natAbs % b.toInt.natAbs ≤ a.toInt.natAbs := Nat.mod_le _ _
    have hmag : (a.toInt.tmod b.toInt).natAbs = a.toInt.natAbs % b.toInt.natAbs := Int.natAbs_tmod _ _
    have hnonneg : 0 ≤ a.toInt → 0 ≤ a.toInt.tmod b.toInt := Int.tmod_nonneg _
    have hnonpos : a.toInt < 0 → a.toInt.tmod b.toInt ≤ 0 := fun hneg => by
      have h := Int.tmod_nonneg b.toInt (show 0 ≤ -a.toInt by omega)
      rw [Int.neg_tmod] at h
      omega
    rw [ofMagnitude_natCast _ (hle.trans (ha.trans (by decide))), finite_eq_ofInt32_iff, ← hmag]
    apply Iff.intro
    · rintro ⟨hsign, hnat⟩
      have hiff := decide_eq_decide.mp hsign
      exact ⟨hzero, by omega, hsign⟩
    · rintro ⟨-, heq, hsign⟩
      exact ⟨hsign, by rw [heq]⟩

/-! ## Identities -/

/-- Zero. -/
def zero : Binary64 := ofInt32 0

/-- One. -/
def one : Binary64 := ofInt32 1

theorem zero_eq : zero = finite false ⟨(0 : ℕ), isMagnitude_natCast (Nat.zero_le _)⟩ := ofInt32_eq 0

theorem one_eq : one = finite false ⟨(1 : ℕ), isMagnitude_natCast (by decide)⟩ := ofInt32_eq 1

/-- Subtracting zero changes no number, and no sign of a zero. -/
theorem sub_zero_eq (x : Binary64) : x - zero = x := by
  rw [sub_def, zero_eq, add_def]
  cases x with
  | infinity s => rfl
  | nan => rfl
  | finite s m =>
    have hneg : (-finite false ⟨((0 : ℕ) : ℚ), isMagnitude_natCast (Nat.zero_le _)⟩ : Binary64) =
        finite true ⟨((0 : ℕ) : ℚ), isMagnitude_natCast (Nat.zero_le _)⟩ := rfl
    have hsigned : signed true ((0 : ℕ) : ℚ) = 0 := by simp [signed]
    simp only [hneg, Binary64.add, hsigned, add_zero, Bool.and_true]
    have hnonneg := m.2.nonneg
    split
    · next hzero =>
      have hm : m.1 = 0 := by cases s <;> simpa [signed] using hzero
      have heq : m = ⟨0, hm ▸ m.2⟩ := Subtype.ext hm
      rw [heq]
      exact ofMagnitude_of_isMagnitude s _
    · next hne =>
      have hm : 0 < m.1 := lt_of_le_of_ne hnonneg fun h => hne (by simp [signed, ← h])
      have habs : |signed s m.1| = m.1 := by cases s <;> simp [signed, abs_of_nonneg hnonneg]
      have hsign : decide (signed s m.1 < 0) = s := by cases s <;> simp [signed, hm, hnonneg]
      have hmag : IsMagnitude |signed s m.1| := habs.symm ▸ m.2
      rw [ofRat, ofMagnitude_of_isMagnitude _ hmag, hsign]
      congr 1
      exact Subtype.ext habs

/-- Multiplying by one changes no number. -/
theorem mul_one_eq (x : Binary64) : x * one = x := by
  rw [one_eq, mul_def]
  cases x with
  | infinity s => simp [Binary64.mul]
  | nan => rfl
  | finite s m =>
    simp only [Binary64.mul, Nat.cast_one, mul_one, Bool.xor_false]
    exact ofMagnitude_of_isMagnitude s m.2

/-- Multiplication does not depend on the order. -/
theorem mul_comm_eq (x y : Binary64) : x * y = y * x := by
  rw [mul_def, mul_def]
  cases x <;> cases y <;> simp [Binary64.mul, Bool.xor_comm, mul_comm]

end Binary64

end SpiderMonkey
