import Mathlib.Data.Rat.Cast.Order
import Mathlib.Algebra.Order.Ring.Rat
import Mathlib.Algebra.Order.Group.MinMax

/-!
# Exact rationals with infinities and NaN

The values of IEEE arithmetic with rounding removed: a finite value is an exact
rational, and the special values follow the usual rules (`∞ - ∞` and `0 * ∞` are NaN).
Signed zeros are identified.
-/

namespace SpiderMonkey

/-- An exact rational, an infinity, or NaN. -/
inductive ExtRat where
  | finite (q : ℚ)
  | posInf
  | negInf
  | nan
  deriving DecidableEq

namespace ExtRat

/-- Negation exchanges the infinities. -/
protected def neg : ExtRat → ExtRat
  | finite q => finite (-q)
  | posInf => negInf
  | negInf => posInf
  | nan => nan

/-- Addition; opposite infinities give NaN. -/
protected def add : ExtRat → ExtRat → ExtRat
  | finite p, finite q => finite (p + q)
  | nan, _ => nan
  | _, nan => nan
  | posInf, negInf => nan
  | negInf, posInf => nan
  | posInf, _ => posInf
  | _, posInf => posInf
  | negInf, _ => negInf
  | _, negInf => negInf

/-- Subtraction adds the negated right operand. -/
protected def sub (x y : ExtRat) : ExtRat := ExtRat.add x (ExtRat.neg y)

/-- An infinity of the given sign, or NaN for sign zero. -/
def infOfSign (q : ℚ) : ExtRat :=
  if 0 < q then posInf else if q < 0 then negInf else nan

/-- Multiplication; an infinity times zero is NaN. -/
protected def mul : ExtRat → ExtRat → ExtRat
  | finite p, finite q => finite (p * q)
  | nan, _ => nan
  | _, nan => nan
  | finite p, posInf => infOfSign p
  | finite p, negInf => infOfSign (-p)
  | posInf, finite q => infOfSign q
  | negInf, finite q => infOfSign (-q)
  | posInf, posInf => posInf
  | posInf, negInf => negInf
  | negInf, posInf => negInf
  | negInf, negInf => posInf

/-- Absolute value. -/
protected def abs : ExtRat → ExtRat
  | finite q => finite |q|
  | posInf => posInf
  | negInf => posInf
  | nan => nan

/-- The smaller operand, or NaN when either operand is NaN. -/
protected def min : ExtRat → ExtRat → ExtRat
  | nan, _ => nan
  | _, nan => nan
  | negInf, _ => negInf
  | _, negInf => negInf
  | posInf, y => y
  | x, posInf => x
  | finite p, finite q => finite (min p q)

/-- The larger operand, or NaN when either operand is NaN. -/
protected def max : ExtRat → ExtRat → ExtRat
  | nan, _ => nan
  | _, nan => nan
  | posInf, _ => posInf
  | _, posInf => posInf
  | negInf, y => y
  | x, negInf => x
  | finite p, finite q => finite (max p q)

/-- The strict order; NaN is unordered. -/
protected def lt : ExtRat → ExtRat → Bool
  | finite p, finite q => p < q
  | nan, _ => false
  | _, nan => false
  | negInf, negInf => false
  | negInf, _ => true
  | finite _, posInf => true
  | _, _ => false

/-- The order; NaN is unordered. -/
protected def le : ExtRat → ExtRat → Bool
  | finite p, finite q => p ≤ q
  | nan, _ => false
  | _, nan => false
  | negInf, _ => true
  | _, posInf => true
  | _, _ => false

/-- Equality of numbers; NaN is not equal to anything. -/
protected def eq : ExtRat → ExtRat → Bool
  | nan, _ => false
  | x, y => x = y

/-- A product of an infinity with a nonzero value is an infinity. -/
theorem infOfSign_of_ne_zero {q : ℚ} (hq : q ≠ 0) : infOfSign q = posInf ∨ infOfSign q = negInf := by
  unfold infOfSign
  rcases lt_trichotomy q 0 with h | h | h
  · exact Or.inr (by simp [h, h.le])
  · exact absurd h hq
  · exact Or.inl (by simp [h])

/-- A product of an infinity with a finite value is never finite. -/
theorem infOfSign_cases (q : ℚ) : infOfSign q = posInf ∨ infOfSign q = negInf ∨ q = 0 ∧ infOfSign q = nan := by
  by_cases hq : q = 0
  · exact Or.inr (Or.inr ⟨hq, by simp [infOfSign, hq]⟩)
  · exact (infOfSign_of_ne_zero hq).imp id Or.inl

/-- Negation is an involution. -/
@[simp] theorem neg_neg (x : ExtRat) : x.neg.neg = x := by
  cases x <;> simp [ExtRat.neg]

/-- Only NaN negates to NaN. -/
theorem neg_eq_nan {x : ExtRat} (h : x.neg = nan) : x = nan := by
  cases x <;> simp_all [ExtRat.neg]

/-- Negation turns a maximum into a minimum. -/
theorem max_eq_neg_min (x y : ExtRat) : x.max y = (x.neg.min y.neg).neg := by
  cases x <;> cases y <;> simp [ExtRat.max, ExtRat.min, ExtRat.neg, min_neg_neg]

end ExtRat

/-- Over a box, a product is at least the smallest corner product. -/
theorem min_corner_le_mul {a b c d x y : ℚ} (hax : a ≤ x) (hxb : x ≤ b) (hcy : c ≤ y) (hyd : y ≤ d) :
    min (min (a * c) (a * d)) (min (b * c) (b * d)) ≤ x * y := by
  have hinner (t : ℚ) : min (t * c) (t * d) ≤ t * y := by
    rcases le_total 0 t with ht | ht
    · exact (min_le_left _ _).trans (mul_le_mul_of_nonneg_left hcy ht)
    · exact (min_le_right _ _).trans (mul_le_mul_of_nonpos_left hyd ht)
  have houter : min (a * y) (b * y) ≤ x * y := by
    rcases le_total 0 y with hy | hy
    · exact (min_le_left _ _).trans (mul_le_mul_of_nonneg_right hax hy)
    · exact (min_le_right _ _).trans (mul_le_mul_of_nonpos_right hxb hy)
  exact (min_le_min (hinner a) (hinner b)).trans houter

/-- Over a box, a product is at most the largest corner product. -/
theorem mul_le_max_corner {a b c d x y : ℚ} (hax : a ≤ x) (hxb : x ≤ b) (hcy : c ≤ y) (hyd : y ≤ d) :
    x * y ≤ max (max (a * c) (a * d)) (max (b * c) (b * d)) := by
  have hinner (t : ℚ) : t * y ≤ max (t * c) (t * d) := by
    rcases le_total 0 t with ht | ht
    · exact (mul_le_mul_of_nonneg_left hyd ht).trans (le_max_right _ _)
    · exact (mul_le_mul_of_nonpos_left hcy ht).trans (le_max_left _ _)
  have houter : x * y ≤ max (a * y) (b * y) := by
    rcases le_total 0 y with hy | hy
    · exact (mul_le_mul_of_nonneg_right hxb hy).trans (le_max_right _ _)
    · exact (mul_le_mul_of_nonpos_right hax hy).trans (le_max_left _ _)
  exact houter.trans (max_le_max (hinner a) (hinner b))

end SpiderMonkey
