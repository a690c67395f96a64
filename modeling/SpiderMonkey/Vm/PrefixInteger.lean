import SpiderMonkey.Json.ReadNumber
import SpiderMonkey.Lib.Binary64Integers

/-!
# Integers in other bases

`GetPrefixInteger` accumulates the digits of a base in a double. From 2^53 on a sum may have been rounded, and
in a base that is a power of two the bits of the digits are read again, one by one, for the significand, the bit to
round by, and whether any bit below is set.
-/

namespace SpiderMonkey.Vm

open Json (Chars Conversions prefixDigit getPrefixIntegerLoop textBetween)

/-- `BinaryDigitReader`: the current digit with a mask for its next bit, and the remaining digits. -/
structure BinaryDigitReader where
  base : ℕ
  digit : ℕ
  digitMask : ℕ
  chars : Chars

namespace BinaryDigitReader

/-- A reader that has read nothing. -/
def new (base : ℕ) (chars : Chars) : BinaryDigitReader := ⟨base, 0, 0, chars⟩

/-- The value of a digit, for a character that is one. -/
def digitOf (c : UInt16) : ℕ :=
  if 0x30 ≤ c.toNat ∧ c.toNat ≤ 0x39 then c.toNat - 0x30
  else if 0x61 ≤ c.toNat ∧ c.toNat ≤ 0x7A then c.toNat - 0x61 + 10
  else c.toNat - 0x41 + 10

/-- The bit under the mask. -/
def takeBit (r : BinaryDigitReader) : Bool × BinaryDigitReader :=
  (r.digit &&& r.digitMask != 0, { r with digitMask := r.digitMask >>> 1 })

/-- `nextDigit`. It is `none` where the source returns -1. -/
def nextDigit (r : BinaryDigitReader) : Option (Bool × BinaryDigitReader) :=
  if r.digitMask = 0 then
    match r.chars with
    | [] => none
    | c :: chars => some (takeBit { r with digit := digitOf c, digitMask := r.base >>> 1, chars := chars })
  else some (takeBit r)

/-- Each bit is one of fewer. -/
theorem nextDigit_decreases {r r' : BinaryDigitReader} {bit : Bool} (h : nextDigit r = some (bit, r')) :
    Prod.Lex (· < ·) (· < ·) (r'.chars.length, r'.digitMask) (r.chars.length, r.digitMask) := by
  unfold nextDigit at h
  split at h
  next =>
    split at h
    next => cases h
    next c chars heq =>
      obtain ⟨-, rfl⟩ := Prod.mk.inj (Option.some.inj h)
      rw [heq]
      exact .left _ _ (Nat.lt_succ_self _)
  next hmask =>
    obtain ⟨-, rfl⟩ := Prod.mk.inj (Option.some.inj h)
    refine .right _ ?_
    exact Nat.div_lt_self (Nat.pos_of_ne_zero hmask) (by decide)

/-- The first loop: leading zeroes are skipped, and the next bit is taken. -/
def skipLeadingZeroes (r : BinaryDigitReader) : Option (Bool × BinaryDigitReader) :=
  match _h : r.nextDigit with
  | some (false, r') => skipLeadingZeroes r'
  | some (true, r') => some (true, r')
  | none => none
termination_by (r.chars.length, r.digitMask)
decreasing_by exact nextDigit_decreases ‹_›

/-- The second loop, with the last bit: `j` more significant bits, unless there are fewer. -/
def gather : ℕ → Binary64 → Bool → BinaryDigitReader → Binary64 × Option (Bool × BinaryDigitReader)
  | 0, value, bit, r => (value, some (bit, r))
  | j + 1, value, _, r =>
    match r.nextDigit with
    | none => (value, none)
    | some (bit, r') => gather j (value * .ofNat 2 + .ofNat bit.toNat) bit r'

/-- The third loop: the remaining bits scale the value, and the sticky bit tells whether one is set. -/
def stickyLoop (factor : Binary64) (sticky : Bool) (r : BinaryDigitReader) : Binary64 × Bool :=
  match _h : r.nextDigit with
  | some (bit3, r') => stickyLoop (factor * .ofNat 2) (sticky || bit3) r'
  | none => (factor, sticky)
termination_by (r.chars.length, r.digitMask)
decreasing_by exact nextDigit_decreases ‹_›

end BinaryDigitReader

open BinaryDigitReader

/-- `ComputeAccurateBinaryBaseInteger`. It is `none` if no bit is set, which the source asserts not to be so. -/
def computeAccurateBinaryBaseInteger (chars : Chars) (base : ℕ) : Option Binary64 := do
  let (_, r) ← skipLeadingZeroes (new base chars)
  match gather 52 (.ofNat 1) true r with
  | (value, none) => some value
  | (value, some (bit, r)) =>
    match r.nextDigit with
    | none => some value
    | some (bit2, r) =>
      let (factor, sticky) := stickyLoop (.ofNat 2) false r
      some ((value + .ofNat (bit2 && (bit || sticky)).toNat) * factor)

/-- `GetPrefixInteger`, with the characters that are left. -/
def getPrefixInteger (conversions : Conversions) (start : Chars) (base : ℕ) : Option (Binary64 × Chars) :=
  let (d, s) := getPrefixIntegerLoop base (.ofNat 0) start
  if d.lt (.ofNat (2 ^ 53)) then some (d, s)
  else if base = 10 then some (conversions.jsStrtodHarder (textBetween start s), s)
  else if base &&& (base - 1) = 0 then
    (computeAccurateBinaryBaseInteger (textBetween start s) base).map (·, s)
  else some (d, s)

end SpiderMonkey.Vm
