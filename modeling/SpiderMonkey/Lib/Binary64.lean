import Mathlib.Data.Int.Log
import Mathlib.Data.Rat.Floor
import Mathlib.Algebra.Order.Field.Power
import Mathlib.Tactic.Ring
import Mathlib.Tactic.Linarith
import Mathlib.Tactic.FieldSimp
import Mathlib.Tactic.NormNum

/-!
# Binary64 numbers

A double is the exact number it denotes: a sign with a rational magnitude of the format, an
infinity, or NaN. The operations are computed exactly and rounded to nearest, halves to even.
-/

namespace SpiderMonkey

/-- `q` rounded to a neighbouring integer, halves to the even one. -/
def roundHalfEven (q : ℚ) : ℤ :=
  if q - ⌊q⌋ < 1 / 2 then ⌊q⌋
  else if 1 / 2 < q - ⌊q⌋ then ⌊q⌋ + 1
  else if ⌊q⌋ % 2 = 0 then ⌊q⌋ else ⌊q⌋ + 1

/-- An integer is its own rounding. -/
@[simp] theorem roundHalfEven_intCast (n : ℤ) : roundHalfEven n = n := by
  simp [roundHalfEven]

/-- Rounding never goes below an integer that is below. -/
theorem le_roundHalfEven {n : ℤ} {q : ℚ} (h : (n : ℚ) ≤ q) : n ≤ roundHalfEven q := by
  have hfloor : n ≤ ⌊q⌋ := Int.le_floor.mpr h
  unfold roundHalfEven
  split_ifs <;> omega

/-- Rounding never goes above an integer that is above. -/
theorem roundHalfEven_le {n : ℤ} {q : ℚ} (h : q ≤ n) : roundHalfEven q ≤ n := by
  rcases h.lt_or_eq with hlt | heq
  · have hfloor : ⌊q⌋ < n := Int.floor_lt.mpr hlt
    unfold roundHalfEven
    split_ifs <;> omega
  · rw [heq, roundHalfEven_intCast]

/-- The exponent of the last place of `q`: 52 below that of its leading bit, and no lower than
that of the subnormal numbers. -/
def ulpExponent (q : ℚ) : ℤ := max (Int.log 2 q) (-1022) - 52

/-- The magnitude nearest to a nonnegative `q`, before the overflow test. -/
def roundMagnitude (q : ℚ) : ℚ := roundHalfEven (q / 2 ^ ulpExponent q) * 2 ^ ulpExponent q

/-- The magnitudes of finite doubles: significands of at most 53 bits, scaled. -/
def IsMagnitude (q : ℚ) : Prop :=
  (∃ (n : ℕ) (e : ℤ), n ≤ 2 ^ 53 ∧ -1074 ≤ e ∧ q = n * 2 ^ e) ∧ q < 2 ^ 1024

/-- A magnitude is nonnegative. -/
theorem IsMagnitude.nonneg {q : ℚ} (h : IsMagnitude q) : 0 ≤ q := by
  obtain ⟨⟨n, e, -, -, rfl⟩, -⟩ := h
  positivity

/-- The leading bit of a positive `q` is below it. -/
theorem two_zpow_log_le {q : ℚ} (h : 0 < q) : (2 : ℚ) ^ Int.log 2 q ≤ q := by
  have := Int.zpow_log_le_self (b := 2) (by norm_num) h
  simpa using this

/-- The next power of two is above `q`. -/
theorem lt_two_zpow_log (q : ℚ) : q < (2 : ℚ) ^ (Int.log 2 q + 1) := by
  have := Int.lt_zpow_succ_log_self (b := 2) (by norm_num) q
  simpa using this

/-- A number in units of its last place has at most 53 bits. -/
theorem div_ulp_le (q : ℚ) : q / 2 ^ ulpExponent q ≤ ((2 ^ 53 : ℤ) : ℚ) := by
  have hpos : (0 : ℚ) < 2 ^ ulpExponent q := by positivity
  rw [div_le_iff₀ hpos]
  have hexp : Int.log 2 q + 1 ≤ 53 + ulpExponent q := by
    have := le_max_left (Int.log 2 q) (-1022)
    unfold ulpExponent
    omega
  calc q ≤ 2 ^ (Int.log 2 q + 1) := (lt_two_zpow_log q).le
    _ ≤ 2 ^ (53 + ulpExponent q) := zpow_le_zpow_right₀ (by norm_num) hexp
    _ = ((2 ^ 53 : ℤ) : ℚ) * 2 ^ ulpExponent q := by
        rw [zpow_add₀ (by norm_num)]
        norm_num

/-- A rounded magnitude without overflow is a magnitude of the format. -/
theorem isMagnitude_roundMagnitude {q : ℚ} (h : 0 ≤ q) (hlt : roundMagnitude q < 2 ^ 1024) :
    IsMagnitude (roundMagnitude q) := by
  have hpos : (0 : ℚ) < 2 ^ ulpExponent q := by positivity
  have hlow : 0 ≤ roundHalfEven (q / 2 ^ ulpExponent q) :=
    le_roundHalfEven (by simpa using div_nonneg h hpos.le)
  have hhigh : roundHalfEven (q / 2 ^ ulpExponent q) ≤ 2 ^ 53 :=
    roundHalfEven_le (div_ulp_le q)
  obtain ⟨n, hn⟩ := Int.eq_ofNat_of_zero_le hlow
  have hexp : -1074 ≤ ulpExponent q := by
    have := le_max_right (Int.log 2 q) (-1022)
    unfold ulpExponent
    omega
  have hnle : n ≤ 2 ^ 53 := by
    rw [hn] at hhigh
    exact_mod_cast hhigh
  refine ⟨⟨n, ulpExponent q, hnle, hexp, ?_⟩, hlt⟩
  rw [roundMagnitude, hn]
  simp

/-- The last place of a positive number of the format is at most one above its scale. -/
theorem ulpExponent_le {n : ℕ} {e : ℤ} (hpos : 0 < n) (hn : n ≤ 2 ^ 53) (he : -1074 ≤ e) :
    ulpExponent (n * 2 ^ e) ≤ e + 1 := by
  have hnpos : (0 : ℚ) < n := by exact_mod_cast hpos
  have hq : (0 : ℚ) < n * 2 ^ e := by positivity
  have hle : (2 : ℚ) ^ Int.log 2 ((n : ℚ) * 2 ^ e) ≤ 2 ^ (53 + e) := by
    calc (2 : ℚ) ^ Int.log 2 ((n : ℚ) * 2 ^ e) ≤ n * 2 ^ e := two_zpow_log_le hq
      _ ≤ 2 ^ 53 * 2 ^ e := by
          have hcast : (n : ℚ) ≤ 2 ^ 53 := by exact_mod_cast hn
          exact mul_le_mul_of_nonneg_right hcast (by positivity)
      _ = 2 ^ (53 + e) := by
          rw [zpow_add₀ (by norm_num)]
          norm_num
  have hlog : Int.log 2 ((n : ℚ) * 2 ^ e) ≤ 53 + e :=
    (zpow_le_zpow_iff_right₀ (by norm_num)).mp hle
  unfold ulpExponent
  omega

/-- The leading bit of a positive `q` is at most 53 places above its last one. -/
theorem two_zpow_ulp_le {q : ℚ} (h : 0 < q) (hbig : -1022 ≤ Int.log 2 q) :
    (2 : ℚ) ^ (52 + ulpExponent q) ≤ q := by
  have hexp : 52 + ulpExponent q = Int.log 2 q := by
    unfold ulpExponent
    omega
  rw [hexp]
  exact two_zpow_log_le h

/-- The numbers of the format are not rounded. -/
theorem roundMagnitude_of_isMagnitude {q : ℚ} (h : IsMagnitude q) : roundMagnitude q = q := by
  have hne : (2 : ℚ) ^ ulpExponent q ≠ 0 := by positivity
  -- It is enough that `q` is a whole number of units in the last place.
  suffices hint : ∃ k : ℤ, q = k * 2 ^ ulpExponent q by
    obtain ⟨k, hk⟩ := hint
    have hdiv : q / 2 ^ ulpExponent q = k := (div_eq_iff hne).mpr hk
    rw [roundMagnitude, hdiv, roundHalfEven_intCast, ← hk]
  obtain ⟨⟨n, e, hn, he, rfl⟩, -⟩ := h
  rcases Nat.eq_zero_or_pos n with rfl | hpos
  · exact ⟨0, by simp⟩
  rcases (ulpExponent_le hpos hn he).lt_or_eq with hlt | heq
  · obtain ⟨d, hd⟩ := Int.eq_ofNat_of_zero_le (show 0 ≤ e - ulpExponent (n * 2 ^ e) by omega)
    have hsplit : e = d + ulpExponent (n * 2 ^ e) := by omega
    refine ⟨n * 2 ^ d, ?_⟩
    generalize ulpExponent (n * 2 ^ e) = u at hsplit
    rw [hsplit, zpow_add₀ (by norm_num), zpow_natCast]
    push_cast
    ring
  · -- Only the significand `2 ^ 53` carries into the next binade.
    have hq : (0 : ℚ) < n * 2 ^ e := by positivity
    have hlog : -1022 ≤ Int.log 2 ((n : ℚ) * 2 ^ e) := by
      unfold ulpExponent at heq
      omega
    have hlow := two_zpow_ulp_le hq hlog
    rw [heq, show 52 + (e + 1) = 53 + e by ring, zpow_add₀ (by norm_num)] at hlow
    have hge : (2 : ℚ) ^ (53 : ℤ) ≤ n := le_of_mul_le_mul_right hlow (by positivity)
    have hnge : 2 ^ 53 ≤ n := by exact_mod_cast hge
    obtain rfl : n = 2 ^ 53 := le_antisymm hn hnge
    refine ⟨2 ^ 52, ?_⟩
    rw [heq, zpow_add₀ (by norm_num)]
    push_cast
    ring

/-- Rounding never goes below a power of two that is below. -/
theorem le_roundMagnitude {q : ℚ} {k : ℤ} (hk : -1022 ≤ k) (h : (2 : ℚ) ^ k ≤ q) :
    (2 : ℚ) ^ k ≤ roundMagnitude q := by
  have hq : 0 < q := lt_of_lt_of_le (by positivity) h
  have hlog : k ≤ Int.log 2 q := (Int.zpow_le_iff_le_log (by norm_num) hq).mp (by simpa using h)
  have hunit : ((2 ^ 52 : ℤ) : ℚ) ≤ q / 2 ^ ulpExponent q := by
    rw [le_div_iff₀ (by positivity)]
    have hlow := two_zpow_ulp_le hq (by omega)
    rw [zpow_add₀ (by norm_num)] at hlow
    exact_mod_cast hlow
  have hround : ((2 ^ 52 : ℤ) : ℚ) ≤ roundHalfEven (q / 2 ^ ulpExponent q) := by
    exact_mod_cast le_roundHalfEven hunit
  calc (2 : ℚ) ^ k ≤ 2 ^ (52 + ulpExponent q) := by
        apply zpow_le_zpow_right₀ (by norm_num)
        unfold ulpExponent
        omega
    _ = ((2 ^ 52 : ℤ) : ℚ) * 2 ^ ulpExponent q := by
        rw [zpow_add₀ (by norm_num)]
        norm_num
    _ ≤ roundMagnitude q := mul_le_mul_of_nonneg_right hround (by positivity)

/-- Rounding a nonnegative number gives a nonnegative one. -/
theorem roundMagnitude_nonneg {q : ℚ} (h : 0 ≤ q) : 0 ≤ roundMagnitude q := by
  have hlow : 0 ≤ roundHalfEven (q / 2 ^ ulpExponent q) :=
    le_roundHalfEven (by simpa using div_nonneg h (by positivity))
  have hcast : (0 : ℚ) ≤ roundHalfEven (q / 2 ^ ulpExponent q) := by exact_mod_cast hlow
  exact mul_nonneg hcast (by positivity)

/-- Every integer of at most 53 bits is a magnitude of the format. -/
theorem isMagnitude_natCast {n : ℕ} (h : n ≤ 2 ^ 53) : IsMagnitude n := by
  refine ⟨⟨n, 0, h, by norm_num, by simp⟩, ?_⟩
  calc (n : ℚ) ≤ 2 ^ 53 := by exact_mod_cast h
    _ < 2 ^ 1024 := pow_lt_pow_right₀ (by norm_num) (by norm_num)

/-- A double: a signed magnitude of the format, an infinity, or NaN. -/
inductive Binary64 where
  | finite (negative : Bool) (magnitude : {q : ℚ // IsMagnitude q})
  | infinity (negative : Bool)
  | nan
  deriving DecidableEq

namespace Binary64

/-- The double nearest to the nonnegative `q` with the given sign. -/
def ofMagnitude (negative : Bool) (q : ℚ) (h : 0 ≤ q) : Binary64 :=
  if hlt : roundMagnitude q < 2 ^ 1024 then
    finite negative ⟨roundMagnitude q, isMagnitude_roundMagnitude h hlt⟩
  else infinity negative

/-- The double nearest to `q`. A zero is positive. -/
def ofRat (q : ℚ) : Binary64 := ofMagnitude (decide (q < 0)) |q| (abs_nonneg q)

/-- An integer converted to a double. -/
def ofNat (n : ℕ) : Binary64 := ofMagnitude false n n.cast_nonneg

/-- The exact number with the given sign and magnitude. -/
def signed (negative : Bool) (q : ℚ) : ℚ := if negative then -q else q

/-- Negation flips the sign, that of a zero included. -/
protected def neg : Binary64 → Binary64
  | finite s m => finite (!s) m
  | infinity s => infinity !s
  | nan => nan

/-- Multiplication; an infinity times zero is NaN. -/
protected def mul : Binary64 → Binary64 → Binary64
  | finite s m, finite t n =>
      ofMagnitude (s ^^ t) (m.1 * n.1) (mul_nonneg m.2.nonneg n.2.nonneg)
  | nan, _ => nan
  | _, nan => nan
  | finite s m, infinity t => if m.1 = 0 then nan else infinity (s ^^ t)
  | infinity s, finite t n => if n.1 = 0 then nan else infinity (s ^^ t)
  | infinity s, infinity t => infinity (s ^^ t)

/-- Addition; an exact zero sum is negative only for two negative zeros. -/
protected def add : Binary64 → Binary64 → Binary64
  | finite s m, finite t n =>
      if signed s m.1 + signed t n.1 = 0 then ofMagnitude (s && t) 0 le_rfl
      else ofRat (signed s m.1 + signed t n.1)
  | nan, _ => nan
  | _, nan => nan
  | infinity s, infinity t => if s = t then infinity s else nan
  | infinity s, finite _ _ => infinity s
  | finite _ _, infinity t => infinity t

/-- Division; a quotient of two zeros or two infinities is NaN. -/
protected def div : Binary64 → Binary64 → Binary64
  | finite s m, finite t n =>
      if n.1 = 0 then if m.1 = 0 then nan else infinity (s ^^ t)
      else ofMagnitude (s ^^ t) (m.1 / n.1) (div_nonneg m.2.nonneg n.2.nonneg)
  | nan, _ => nan
  | _, nan => nan
  | finite s _, infinity t => ofMagnitude (s ^^ t) 0 le_rfl
  | infinity s, finite t _ => infinity (s ^^ t)
  | infinity _, infinity _ => nan

/-- The strict order; NaN is unordered. -/
protected def lt : Binary64 → Binary64 → Bool
  | finite s m, finite t n => signed s m.1 < signed t n.1
  | finite _ _, infinity t => !t
  | infinity s, finite _ _ => s
  | infinity s, infinity t => s && !t
  | _, _ => false

instance : Neg Binary64 := ⟨Binary64.neg⟩
instance : Mul Binary64 := ⟨Binary64.mul⟩
instance : Add Binary64 := ⟨Binary64.add⟩

theorem mul_def (x y : Binary64) : x * y = Binary64.mul x y := rfl

theorem add_def (x y : Binary64) : x + y = Binary64.add x y := rfl

/-- `x` is a positive double, possibly infinite, that is at least `q`. -/
def AtLeast (q : ℚ) : Binary64 → Prop
  | finite false m => q ≤ m.1
  | infinity false => True
  | _ => False

/-- A magnitude of the format is represented exactly. -/
theorem ofMagnitude_of_isMagnitude (s : Bool) {q : ℚ} (h : IsMagnitude q) :
    ofMagnitude s q h.nonneg = finite s ⟨q, h⟩ := by
  have hround := roundMagnitude_of_isMagnitude h
  simp only [ofMagnitude, hround, h.2, ↓reduceDIte]

/-- An integer of at most 53 bits is represented exactly. -/
theorem ofNat_of_le {n : ℕ} (h : n ≤ 2 ^ 53) :
    ofNat n = finite false ⟨n, isMagnitude_natCast h⟩ :=
  ofMagnitude_of_isMagnitude false (isMagnitude_natCast h)

/-- Converting an integer is rounding it as a number. -/
theorem ofRat_natCast (n : ℕ) : ofRat n = ofNat n := by
  have hn : (0 : ℚ) ≤ n := n.cast_nonneg
  simp only [ofRat, ofNat, not_lt.mpr hn, decide_false, abs_of_nonneg hn]

/-- What is at least a power of two is still so after rounding. -/
theorem atLeast_ofMagnitude {q : ℚ} (hq : 0 ≤ q) {k : ℤ} (hk : -1022 ≤ k) (h : 2 ^ k ≤ q) :
    AtLeast (2 ^ k) (ofMagnitude false q hq) := by
  unfold ofMagnitude
  split
  · exact le_roundMagnitude hk h
  · trivial

/-- The product of two exactly represented integers is their rounded product. -/
theorem ofNat_mul_ofNat {m n : ℕ} (hm : m ≤ 2 ^ 53) (hn : n ≤ 2 ^ 53) :
    ofNat m * ofNat n = ofNat (m * n) := by
  rw [ofNat_of_le hm, ofNat_of_le hn, mul_def]
  simp only [Binary64.mul, Bool.xor_false, ofNat, Nat.cast_mul]

/-- The sum of two exactly represented integers is their rounded sum. -/
theorem ofNat_add_ofNat {m n : ℕ} (hm : m ≤ 2 ^ 53) (hn : n ≤ 2 ^ 53) :
    ofNat m + ofNat n = ofNat (m + n) := by
  rw [ofNat_of_le hm, ofNat_of_le hn, add_def]
  have hsum : (0 : ℚ) ≤ (m : ℚ) + n := by positivity
  simp only [Binary64.add, signed, Bool.false_eq_true, ↓reduceIte, Bool.and_self, ofNat,
    Nat.cast_add]
  split
  · next hzero => simp only [hzero]
  · simp only [ofRat, not_lt.mpr hsum, decide_false, abs_of_nonneg hsum]

/-- Multiplying by a positive integer keeps a lower bound. -/
theorem AtLeast.mul_ofNat {x : Binary64} {k : ℤ} (hx : AtLeast (2 ^ k) x) (hk : -1022 ≤ k)
    {n : ℕ} (hpos : 0 < n) (hn : n ≤ 2 ^ 53) : AtLeast (2 ^ k) (x * ofNat n) := by
  rw [ofNat_of_le hn, mul_def]
  rcases x with ⟨_ | _, m⟩ | (_ | _) | _
  · have hm : (2 : ℚ) ^ k ≤ m.1 := hx
    have hone : (1 : ℚ) ≤ n := by exact_mod_cast hpos
    have hprod : (2 : ℚ) ^ k ≤ m.1 * n :=
      calc (2 : ℚ) ^ k ≤ m.1 := hm
        _ = m.1 * 1 := (mul_one _).symm
        _ ≤ m.1 * n := mul_le_mul_of_nonneg_left hone m.2.nonneg
    exact atLeast_ofMagnitude (mul_nonneg m.2.nonneg n.cast_nonneg) hk hprod
  · exact hx.elim
  · have hne : (n : ℚ) ≠ 0 := by positivity
    simp only [Binary64.mul, hne, ↓reduceIte, Bool.xor_false]
    trivial
  · exact hx.elim
  · exact hx.elim

/-- Adding an integer keeps a lower bound. -/
theorem AtLeast.add_ofNat {x : Binary64} {k : ℤ} (hx : AtLeast (2 ^ k) x) (hk : -1022 ≤ k)
    {n : ℕ} (hn : n ≤ 2 ^ 53) : AtLeast (2 ^ k) (x + ofNat n) := by
  rw [ofNat_of_le hn, add_def]
  rcases x with ⟨_ | _, m⟩ | (_ | _) | _
  · have hm : (2 : ℚ) ^ k ≤ m.1 := hx
    have hsum : (2 : ℚ) ^ k ≤ m.1 + n := le_add_of_le_of_nonneg hm n.cast_nonneg
    have hpos : 0 < m.1 + (n : ℚ) := lt_of_lt_of_le (by positivity) hsum
    simp only [Binary64.add, signed, Bool.false_eq_true, ↓reduceIte, hpos.ne', ofRat,
      not_lt.mpr hpos.le, decide_false, abs_of_pos hpos]
    exact atLeast_ofMagnitude _ hk hsum
  · exact hx.elim
  · trivial
  · exact hx.elim
  · exact hx.elim

/-- The order on exactly represented integers is that of the integers. -/
theorem lt_ofNat {m n : ℕ} (hm : m ≤ 2 ^ 53) (hn : n ≤ 2 ^ 53) :
    (ofNat m).lt (ofNat n) = decide (m < n) := by
  rw [ofNat_of_le hm, ofNat_of_le hn]
  simp [Binary64.lt, signed]

/-- What is at least `n` is not below it. -/
theorem AtLeast.not_lt {x : Binary64} {n : ℕ} (hn : n ≤ 2 ^ 53) (hx : AtLeast n x) :
    x.lt (ofNat n) = false := by
  rw [ofNat_of_le hn]
  rcases x with ⟨_ | _, m⟩ | (_ | _) | _
  · have hm : (n : ℚ) ≤ m.1 := hx
    simpa [Binary64.lt, signed] using hm
  · exact hx.elim
  · rfl
  · exact hx.elim
  · exact hx.elim

end Binary64

end SpiderMonkey
