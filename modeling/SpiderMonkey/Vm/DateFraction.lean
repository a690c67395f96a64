import SpiderMonkey.Lib.Binary64Nearest
import SpiderMonkey.Vm.DateISO

/-!
# The fraction of a second

The digits of a fraction are added up in doubles, each with a power of the double nearest to one tenth. The sum is
off by a few units of the last place however many digits there are, since a digit that is far behind moves it no
more than by its own size. Of up to three digits come the milliseconds they are.
-/

namespace SpiderMonkey.Vm.Date

open Binary64 (Denotes denotes_ofRat denotes_ofNat)

/-- The fraction that digits behind the point are. -/
def decimalFraction : List (Fin 10) → ℚ
  | [] => 0
  | d :: ds => (d.val + decimalFraction ds) / 10

/-- The number that digits are. -/
def digitsValue (ds : List (Fin 10)) : ℕ := ds.foldl (fun v d => 10 * v + d.val) 0

/-- A fraction is less than one. -/
theorem decimalFraction_bounds (ds : List (Fin 10)) : 0 ≤ decimalFraction ds ∧ decimalFraction ds < 1 := by
  induction ds with
  | nil => exact ⟨le_rfl, zero_lt_one⟩
  | cons d ds ih =>
    have hd : (d.val : ℚ) ≤ 9 := by exact_mod_cast Nat.le_of_lt_succ d.isLt
    have hd' : (0 : ℚ) ≤ d.val := d.val.cast_nonneg
    unfold decimalFraction
    constructor <;> linarith

/-- The loop of `fractional` on the digits. -/
def accumulate (result factor : Binary64) : List (Fin 10) → Binary64
  | [] => result
  | d :: ds => accumulate (result + .ofNat d.val * factor) (factor * oneTenth) ds

/-! ## The error -/

/-- The number of the literal. -/
def tenth : ℚ := roundMagnitude (1 / 10)

theorem denotes_oneTenth : Denotes oneTenth tenth := denotes_ofRat (by norm_num) (by norm_num)

theorem abs_tenth_sub_le : |tenth - 1 / 10| ≤ 1 / 2 ^ 57 := by
  have h := abs_roundMagnitude_sub_le_of_lt (q := 1 / 10) (by norm_num) (k := -3) (by norm_num) (by norm_num)
  exact h.trans (by norm_num)

/-- The next factor is off by no more than the one before, and at most a quarter of it. -/
theorem factor_step {f : ℚ} {j : ℕ} (hf : 0 ≤ f) (herror : |f - (1 / 10) ^ (j + 1)| ≤ 1 / 2 ^ 57)
    (hle : f ≤ (1 / 4) ^ j / 8) :
    |roundMagnitude (f * tenth) - (1 / 10) ^ (j + 2)| ≤ 1 / 2 ^ 57 ∧
      roundMagnitude (f * tenth) ≤ (1 / 4) ^ (j + 1) / 8 := by
  have htenth := abs_le.mp abs_tenth_sub_le
  have hsmall : tenth ≤ 1 / 8 := by linarith
  have hpos : 0 ≤ tenth := by linarith
  have hproduct : 0 ≤ f * tenth := mul_nonneg hf hpos
  have hquarter : ((1 : ℚ) / 4) ^ j ≤ 1 := pow_le_one₀ (by norm_num) (by norm_num)
  have hpower : ((1 : ℚ) / 10) ^ (j + 1) ≤ 1 / 10 := by
    rw [pow_succ]
    have hone : ((1 : ℚ) / 10) ^ j ≤ 1 := pow_le_one₀ (by norm_num) (by norm_num)
    linarith
  have hpowerPos : (0 : ℚ) < (1 / 10) ^ (j + 1) := by positivity
  have hscaled : f * tenth ≤ (1 / 4) ^ j / 8 * (1 / 8) := mul_le_mul hle hsmall hpos (by positivity)
  constructor
  · have hround := abs_roundMagnitude_sub_le_of_lt hproduct (k := -5) (by norm_num) (by norm_num; linarith)
    have hfactor : |f * tenth - (1 / 10) ^ (j + 1) * tenth| ≤ 1 / 2 ^ 57 * (1 / 8) := by
      rw [← sub_mul, abs_mul, abs_of_nonneg hpos]
      exact mul_le_mul herror hsmall hpos (by norm_num)
    have hliteral : |(1 / 10) ^ (j + 1) * tenth - (1 / 10) ^ (j + 2)| ≤ 1 / 10 * (1 / 2 ^ 57) := by
      rw [pow_succ _ (j + 1), ← mul_sub, abs_mul, abs_of_pos hpowerPos]
      exact mul_le_mul hpower abs_tenth_sub_le (abs_nonneg _) (by norm_num)
    have hsum := (abs_sub_le _ (f * tenth) _).trans
      (add_le_add hround ((abs_sub_le _ ((1 / 10) ^ (j + 1) * tenth) _).trans (add_le_add hfactor hliteral)))
    exact hsum.trans (by norm_num)
  · have hself := (abs_le.mp (abs_roundMagnitude_sub_le_self hproduct)).2
    rw [pow_succ]
    linarith

/-- How far the sum moves away when digit `j` is added. -/
def stepError (j : ℕ) : ℚ := if j < 30 then 1 / 2 ^ 51 else 6 * (1 / 4) ^ j

/-- How far the sum moves away from digit `j` on. -/
def totalError (j : ℕ) : ℚ := (30 - j : ℕ) * (1 / 2 ^ 51) + 8 * (1 / 4) ^ max j 30

theorem totalError_nonneg (j : ℕ) : 0 ≤ totalError j := by
  unfold totalError
  positivity

theorem totalError_succ (j : ℕ) : stepError j + totalError (j + 1) = totalError j := by
  unfold stepError totalError
  split
  next hlt =>
    obtain ⟨k, hk⟩ : ∃ k, 30 - j = k + 1 := ⟨29 - j, by omega⟩
    rw [max_eq_right hlt.le, max_eq_right hlt, hk, show 30 - (j + 1) = k by omega]
    push_cast
    ring
  next hge =>
    rw [max_eq_left (not_lt.mp hge), max_eq_left (by omega), show 30 - j = 0 by omega,
      show 30 - (j + 1) = 0 by omega, pow_succ]
    push_cast
    ring

theorem totalError_zero_le : totalError 0 ≤ 1 / 2 ^ 46 := by
  unfold totalError
  norm_num

/-- Adding a digit moves the sum away by little. -/
theorem sum_step {r f : ℚ} {d j : ℕ} (hr : IsMagnitude r) (hf : 0 ≤ f) (hd : d ≤ 9)
    (herror : |f - (1 / 10) ^ (j + 1)| ≤ 1 / 2 ^ 57) (hle : f ≤ (1 / 4) ^ j / 8)
    (hbound : r + (1 / 10) ^ j ≤ 1 + (totalError 0 - totalError j)) :
    |roundMagnitude (r + roundMagnitude (d * f)) - (r + d * (1 / 10) ^ (j + 1))| ≤ stepError j := by
  have hd' : (d : ℚ) ≤ 9 := by exact_mod_cast hd
  have hdpos : (0 : ℚ) ≤ d := d.cast_nonneg
  have hproduct : 0 ≤ d * f := mul_nonneg hdpos hf
  have hself := abs_roundMagnitude_sub_le_self hproduct
  have hnonneg : 0 ≤ roundMagnitude (d * f) := roundMagnitude_nonneg hproduct
  have htenths : (d : ℚ) * (1 / 10) ^ (j + 1) ≤ 9 / 10 * (1 / 10) ^ j := by
    rw [pow_succ]
    have hpow : (0 : ℚ) ≤ (1 / 10) ^ j := by positivity
    nlinarith
  have hdigit : |d * f - d * (1 / 10) ^ (j + 1)| ≤ 9 * (1 / 2 ^ 57) := by
    rw [← mul_sub, abs_mul, abs_of_nonneg hdpos]
    exact mul_le_mul hd' herror (abs_nonneg _) (by norm_num)
  have hproductLe : d * f ≤ 9 * ((1 / 4) ^ j / 8) := mul_le_mul hd' hle hf (by norm_num)
  unfold stepError
  split
  next hlt =>
    have hquarter : ((1 : ℚ) / 4) ^ j ≤ 1 := pow_le_one₀ (by norm_num) (by norm_num)
    have hround := abs_roundMagnitude_sub_le_of_lt hproduct (k := 1) (by norm_num) (by norm_num; linarith)
    have hsumLt : r + roundMagnitude (d * f) < 2 ^ (1 : ℤ) := by
      have hzero := totalError_zero_le
      have hrest := totalError_nonneg j
      have hpow : (0 : ℚ) ≤ (1 / 10) ^ j := by positivity
      have hup := (abs_le.mp hround).2
      have hdown := (abs_le.mp hdigit).2
      norm_num at hup hdown hzero ⊢
      norm_num at hbound htenths
      linarith
    have hsum := abs_roundMagnitude_sub_le_of_lt (add_nonneg hr.nonneg hnonneg) (k := 1) (by norm_num) hsumLt
    rw [abs_le] at hround hsum hdigit ⊢
    norm_num at hround hsum hdigit ⊢
    constructor <;> linarith
  next hge =>
    have hpow : ((1 : ℚ) / 10) ^ j ≤ (1 / 4) ^ j := pow_le_pow_left₀ (by norm_num) (by norm_num) j
    have htenthsPos : (0 : ℚ) ≤ d * (1 / 10) ^ (j + 1) := by positivity
    have hsum := abs_roundMagnitude_sub_le_sub hr (le_add_of_nonneg_right hnonneg)
    rw [abs_le] at hself hsum ⊢
    constructor <;> linarith

/-- The sum of all digits is off by little. -/
theorem accumulate_error {result factor : Binary64} {r f : ℚ} {j : ℕ} (ds : List (Fin 10))
    (hr : Denotes result r) (hf : Denotes factor f) (herror : |f - (1 / 10) ^ (j + 1)| ≤ 1 / 2 ^ 57)
    (hle : f ≤ (1 / 4) ^ j / 8) (hbound : r + (1 / 10) ^ j ≤ 1 + (totalError 0 - totalError j)) :
    ∃ q, Denotes (accumulate result factor ds) q ∧
      |q - (r + (1 / 10) ^ j * decimalFraction ds)| ≤ totalError j := by
  induction ds generalizing result factor r f j with
  | nil =>
    refine ⟨r, hr, ?_⟩
    simpa [decimalFraction] using totalError_nonneg j
  | cons d ds ih =>
    have hd : d.val ≤ 9 := Nat.le_of_lt_succ d.isLt
    have hd' : (d.val : ℚ) ≤ 9 := by exact_mod_cast hd
    have hf0 := hf.isMagnitude.nonneg
    have hr0 := hr.isMagnitude.nonneg
    have hsum := sum_step hr.isMagnitude hf0 hd herror hle hbound
    obtain ⟨herror', hle'⟩ := factor_step hf0 herror hle
    have hstep := totalError_succ j
    have hpow : ((1 : ℚ) / 10) ^ j = 10 * (1 / 10) ^ (j + 1) := by
      rw [pow_succ]
      ring
    have hpowPos : (0 : ℚ) < (1 / 10) ^ (j + 1) := by positivity
    have hbound' : roundMagnitude (r + roundMagnitude (d.val * f)) + (1 / 10) ^ (j + 1) ≤
        1 + (totalError 0 - totalError (j + 1)) := by
      have hup := (abs_le.mp hsum).2
      have hnine : (d.val : ℚ) * (1 / 10) ^ (j + 1) ≤ 9 * (1 / 10) ^ (j + 1) :=
        mul_le_mul_of_nonneg_right hd' hpowPos.le
      linarith
    -- Nothing overflows.
    have hquarter : ((1 : ℚ) / 4) ^ j ≤ 1 := pow_le_one₀ (by norm_num) (by norm_num)
    have hsmall : f ≤ 1 / 8 := by linarith
    have hproduct : (d.val : ℚ) * f ≤ 9 * (1 / 8) := mul_le_mul hd' hsmall hf0 (by norm_num)
    have hproduct0 : 0 ≤ (d.val : ℚ) * f := by positivity
    have hself := (abs_le.mp (abs_roundMagnitude_sub_le_self hproduct0)).2
    have hrle : r ≤ 2 := by
      have hzero := totalError_zero_le
      have hrest := totalError_nonneg j
      norm_num at hzero
      linarith
    have htenth := abs_le.mp abs_tenth_sub_le
    have hnextLe : f * tenth ≤ 1 / 8 * 1 := mul_le_mul hsmall (by linarith) (by linarith) (by norm_num)
    have hdigit := (denotes_ofNat (hd.trans (by norm_num))).mul hf (by linarith)
    have hnext := hf.mul denotes_oneTenth (by linarith)
    obtain ⟨q, hq, hclose⟩ := ih (hr.add hdigit (by linarith)) hnext herror' hle' hbound'
    refine ⟨q, hq, ?_⟩
    have hexact : r + (1 / 10) ^ j * decimalFraction (d :: ds) =
        r + d.val * (1 / 10) ^ (j + 1) + (1 / 10) ^ (j + 1) * decimalFraction ds := by
      rw [decimalFraction, hpow]
      ring
    rw [hexact]
    rw [abs_le] at hclose hsum ⊢
    constructor <;> linarith

/-! ## Three digits -/

/-- A number of 62 binary places. -/
def scaled (n : ℕ) : ℚ := n / 2 ^ 62

/-- The first three powers of the literal. -/
def factors : List ℕ := [461168601842738816, 46116860184273888, 4611686018427389]

/-- The sum of digits with their factors. -/
def scaledSum (result : ℕ) : List (Fin 10 × ℕ) → ℕ
  | [] => result
  | (d, factor) :: rest => scaledSum (roundNat (result + roundNat (d.val * factor))) rest

theorem tenth_eq : tenth = scaled 461168601842738816 := by
  have hlow : -4 ≤ Int.log 2 (1 / 10 : ℚ) := (Int.zpow_le_iff_le_log (by norm_num) (by norm_num)).mp (by norm_num)
  have hhigh : Int.log 2 (1 / 10 : ℚ) < -3 := (Int.lt_zpow_iff_log_lt (by norm_num) (by norm_num)).mp (by norm_num)
  have hplace : ulpExponent (1 / 10) = -56 := by
    unfold ulpExponent
    omega
  have hfloor : ⌊(1 / 10 / 2 ^ (-56 : ℤ) : ℚ)⌋ = 7205759403792793 := by
    rw [Int.floor_eq_iff]
    norm_num
  rw [tenth, roundMagnitude, hplace, roundHalfEven, hfloor, scaled]
  norm_num

/-- A product with an integer. -/
theorem roundMagnitude_mul_scaled (d n : ℕ) : roundMagnitude (d * scaled n) = scaled (roundNat (d * n)) := by
  have heq : (d : ℚ) * scaled n = (d * n : ℕ) / 2 ^ 62 := by
    rw [scaled]
    push_cast
    ring
  rw [heq, roundMagnitude_div_two_pow _ (by norm_num), scaled]

/-- A sum. -/
theorem roundMagnitude_scaled_add (m n : ℕ) :
    roundMagnitude (scaled m + scaled n) = scaled (roundNat (m + n)) := by
  have heq : scaled m + scaled n = (m + n : ℕ) / 2 ^ 62 := by
    rw [scaled, scaled]
    push_cast
    ring
  rw [heq, roundMagnitude_div_two_pow _ (by norm_num), scaled]

/-- A product with the literal, which has 56 binary places. -/
theorem roundMagnitude_scaled_mul_tenth {m n : ℕ} (h : roundNat (m * 7205759403792794) = n * 2 ^ 56) :
    roundMagnitude (scaled m * tenth) = scaled n := by
  have heq : scaled m * tenth = (m * 7205759403792794 : ℕ) / 2 ^ 118 := by
    rw [tenth_eq, scaled, scaled]
    push_cast
    ring
  rw [heq, roundMagnitude_div_two_pow _ (by norm_num), h, scaled]
  push_cast
  ring

/-- The milliseconds of up to three digits. -/
theorem scaledSum_exact {ds : List (Fin 10)} (h : ds.length ≤ 3) :
    roundNat (scaledSum 0 (ds.zip factors) * 1000) / 2 ^ 62 * 10 ^ ds.length =
      1000 * digitsValue ds := by
  match ds, h with
  | [], _ => decide +kernel
  | [a], _ =>
    revert a
    decide +kernel
  | [a, b], _ =>
    revert a b
    decide +kernel
  | [a, b, c], _ =>
    revert a b c
    decide +kernel

/-- The factors of the loop are among the powers of the literal. -/
def FactorsFrom (factor : Binary64) : List ℕ → Prop
  | [] => True
  | n :: ns => Denotes factor (scaled n) ∧ scaled n ≤ 1 ∧ FactorsFrom (factor * oneTenth) ns

theorem factorsFrom_oneTenth : FactorsFrom oneTenth factors := by
  have hone : Denotes oneTenth (scaled 461168601842738816) := tenth_eq ▸ denotes_oneTenth
  have hle : scaled 461168601842738816 ≤ 1 := by norm_num [scaled]
  have hle' : scaled 46116860184273888 ≤ 1 := by norm_num [scaled]
  have htwo := hone.mul denotes_oneTenth (by norm_num [tenth_eq, scaled])
  rw [roundMagnitude_scaled_mul_tenth (n := 46116860184273888) (by decide +kernel)] at htwo
  have hthree := htwo.mul denotes_oneTenth (by norm_num [tenth_eq, scaled])
  rw [roundMagnitude_scaled_mul_tenth (n := 4611686018427389) (by decide +kernel)] at hthree
  exact ⟨hone, hle, htwo, hle', hthree, by norm_num [scaled], trivial⟩

/-- The loop computes with integers as long as there are factors. -/
theorem accumulate_scaled {result factor : Binary64} {m : ℕ} {ns : List ℕ} (ds : List (Fin 10))
    (hlength : ds.length ≤ ns.length) (hfactor : FactorsFrom factor ns) (hresult : Denotes result (scaled m))
    (hm : (scaled m + 36) * 2 ^ ds.length ≤ 2 ^ 60) :
    Denotes (accumulate result factor ds) (scaled (scaledSum m (ds.zip ns))) := by
  induction ds generalizing result factor m ns with
  | nil => exact hresult
  | cons d ds ih =>
    cases ns with
    | nil => exact absurd hlength (Nat.not_succ_le_zero _)
    | cons n ns =>
      obtain ⟨hf, hn, hrest⟩ := hfactor
      have hd : d.val ≤ 9 := Nat.le_of_lt_succ d.isLt
      have hd' : (d.val : ℚ) ≤ 9 := by exact_mod_cast hd
      have hm0 := hresult.isMagnitude.nonneg
      have hproduct : (d.val : ℚ) * scaled n ≤ 9 * 1 := mul_le_mul hd' hn hf.isMagnitude.nonneg (by norm_num)
      have hproduct0 : (0 : ℚ) ≤ d.val * scaled n := mul_nonneg d.val.cast_nonneg hf.isMagnitude.nonneg
      have hself := (abs_le.mp (abs_roundMagnitude_sub_le_self hproduct0)).2
      have hdigit := (denotes_ofNat (hd.trans (by norm_num))).mul hf (by linarith)
      rw [roundMagnitude_mul_scaled] at hdigit hself
      have hdouble : (scaled m + 36) * 2 * 2 ^ ds.length ≤ 2 ^ 60 := by
        rw [mul_assoc, ← pow_succ']
        exact hm
      have hone : (1 : ℚ) ≤ 2 ^ ds.length := one_le_pow₀ (by norm_num)
      have hle : (scaled m + 36) * 2 ≤ 2 ^ 60 := (le_mul_of_one_le_right (by linarith) hone).trans hdouble
      have hsum0 := add_nonneg hm0 hdigit.isMagnitude.nonneg
      have hsumSelf := (abs_le.mp (abs_roundMagnitude_sub_le_self hsum0)).2
      have hsum := hresult.add hdigit (by linarith)
      rw [roundMagnitude_scaled_add] at hsum hsumSelf
      refine ih (Nat.le_of_succ_le_succ hlength) hrest hsum (le_trans ?_ hdouble)
      exact mul_le_mul_of_nonneg_right (by linarith) (by positivity)

/-- Digits behind a number are their fraction of it, scaled. -/
theorem foldl_eq (ds : List (Fin 10)) (v : ℕ) :
    ((ds.foldl (fun v d => 10 * v + d.val) v : ℕ) : ℚ) = (v + decimalFraction ds) * 10 ^ ds.length := by
  induction ds generalizing v with
  | nil => simp [decimalFraction]
  | cons d ds ih =>
    rw [List.foldl_cons, ih, decimalFraction, List.length_cons, pow_succ']
    push_cast
    ring

/-- The number that digits are is their fraction, scaled. -/
theorem digitsValue_eq (ds : List (Fin 10)) : (digitsValue ds : ℚ) = decimalFraction ds * 10 ^ ds.length := by
  rw [digitsValue, foldl_eq, Nat.cast_zero, zero_add]

/-! ## Milliseconds -/

/-- What a fraction is in milliseconds: up to three digits exactly, and more with the error of a double. -/
def Milliseconds (ds : List (Fin 10)) (m : ℤ) : Prop :=
  (ds.length ≤ 3 → m = 1000 * decimalFraction ds) ∧
    m ≤ 1000 * decimalFraction ds + 1 / 2 ^ 36 ∧ 1000 * decimalFraction ds - 1 / 2 ^ 36 < m + 1

/-- What the loop adds up is the fraction in milliseconds. -/
theorem milliseconds_accumulate (ds : List (Fin 10)) :
    Milliseconds ds (accumulate (.ofNat 0) oneTenth ds * .ofNat 1000).truncated := by
  have hzero : Denotes (.ofNat 0) 0 := by simpa using denotes_ofNat (Nat.zero_le _)
  have hthousand : Denotes (.ofNat 1000) 1000 := by simpa using denotes_ofNat (n := 1000) (by norm_num)
  obtain ⟨hlow, hhigh⟩ := decimalFraction_bounds ds
  have htenth := abs_le.mp abs_tenth_sub_le
  have htotal := totalError_zero_le
  obtain ⟨q, hq, hclose⟩ := accumulate_error (j := 0) ds hzero denotes_oneTenth (by simpa using abs_tenth_sub_le)
    (by norm_num at htenth ⊢; linarith) (by norm_num)
  rw [pow_zero, one_mul, zero_add] at hclose
  have hclose' := abs_le.mp (hclose.trans htotal)
  have hproduct0 : 0 ≤ q * 1000 := mul_nonneg hq.isMagnitude.nonneg (by norm_num)
  have hlt : q * 1000 < 2 ^ (10 : ℤ) := by
    norm_num at hclose' ⊢
    linarith
  have hround := abs_le.mp (abs_roundMagnitude_sub_le_of_lt hproduct0 (by norm_num) hlt)
  have hms := hq.mul hthousand (by norm_num at hlt ⊢; linarith)
  have hfloor := Int.floor_le (roundMagnitude (q * 1000))
  have hfloor' := Int.lt_floor_add_one (roundMagnitude (q * 1000))
  rw [hms.truncated]
  norm_num at hround hclose' htotal
  refine ⟨fun hlength => ?_, by norm_num; linarith, by norm_num; linarith⟩
  -- Up to three digits, the sum is one of integers.
  have hpower : (2 : ℚ) ^ ds.length ≤ 2 ^ 3 := pow_le_pow_right₀ (by norm_num) hlength
  have hfactors : ds.length ≤ factors.length := hlength
  have hscaled := accumulate_scaled (m := 0) ds hfactors factorsFrom_oneTenth (by simpa [scaled] using hzero)
    (by norm_num [scaled] at hpower ⊢; linarith)
  obtain ⟨_, hfirst⟩ := hq
  obtain ⟨_, hsecond⟩ := hscaled
  have hvalue : q = scaled (scaledSum 0 (ds.zip factors)) :=
    congrArg Subtype.val (Binary64.finite.inj (hfirst.symm.trans hsecond)).2
  have hfloorEq : ⌊roundMagnitude (q * 1000)⌋ =
      ((roundNat (scaledSum 0 (ds.zip factors) * 1000) / 2 ^ 62 : ℕ) : ℤ) := by
    have hthousands := roundMagnitude_mul_scaled 1000 (scaledSum 0 (ds.zip factors))
    rw [mul_comm 1000, mul_comm, ← hvalue] at hthousands
    rw [Nat.cast_ofNat] at hthousands
    rw [hthousands, scaled, Int.natCast_div]
    exact_mod_cast Rat.floor_natCast_div_natCast _ (2 ^ 62)
  have hexact := scaledSum_exact hlength
  have hpos : (0 : ℚ) < 10 ^ ds.length := by positivity
  rw [hfloorEq]
  refine mul_right_cancel₀ hpos.ne' ?_
  calc _ = ((roundNat (scaledSum 0 (ds.zip factors) * 1000) / 2 ^ 62 * 10 ^ ds.length : ℕ) : ℚ) := by
          push_cast
          rfl
    _ = 1000 * (digitsValue ds : ℕ) := by
          rw [hexact]
          push_cast
          rfl
    _ = 1000 * decimalFraction ds * 10 ^ ds.length := by
          rw [digitsValue_eq]
          ring

end SpiderMonkey.Vm.Date
