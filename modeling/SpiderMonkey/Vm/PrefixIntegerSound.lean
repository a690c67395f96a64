import SpiderMonkey.Vm.PrefixInteger
import Mathlib.Data.Nat.Bitwise

/-!
# Integers in other bases are rounded once

A reader stands for the bits that it has not returned. The first loop finds the leading one, the second the
significand, and the rest is rounded as the bits below a significand are. Before 2^53 the sums are exact.
-/

namespace SpiderMonkey.Vm

open Json (Chars Conversions prefixDigit getPrefixIntegerLoop textBetween Tracks)

open BinaryDigitReader

variable {k : ℕ} {r : BinaryDigitReader} {bits : List Bool}

/-! ## Bits of integers -/

/-- The `j` lowest bits of a digit, from the highest of them. -/
def bitsBelow (digit : ℕ) : ℕ → List Bool
  | 0 => []
  | j + 1 => digit.testBit j :: bitsBelow digit j

/-- An integer, continued with bits. -/
def appendBits (n : ℕ) (bits : List Bool) : ℕ := bits.foldl (fun n bit => 2 * n + bit.toNat) n

/-- The bits of a digit are the digit. -/
theorem appendBits_bitsBelow (n digit j : ℕ) :
    appendBits n (bitsBelow digit j) = n * 2 ^ j + digit % 2 ^ j := by
  induction j generalizing n with
  | zero => simp [bitsBelow, appendBits, Nat.mod_one]
  | succ j ih =>
    rw [bitsBelow, appendBits, List.foldl_cons, ← appendBits, ih, Nat.mod_pow_succ, Nat.toNat_testBit]
    ring

/-- More bits shift what comes before them. -/
theorem appendBits_eq (n : ℕ) (bits : List Bool) :
    appendBits n bits = n * 2 ^ bits.length + appendBits 0 bits := by
  induction bits generalizing n with
  | nil => simp [appendBits]
  | cons bit bits ih =>
    have hcons (m : ℕ) : appendBits m (bit :: bits) = appendBits (2 * m + bit.toNat) bits := rfl
    rw [hcons, hcons, ih, ih (2 * 0 + bit.toNat), List.length_cons, pow_succ]
    ring

/-- The value of bits is below the power of two of their number. -/
theorem appendBits_lt (bits : List Bool) : appendBits 0 bits < 2 ^ bits.length := by
  induction bits with
  | nil => simp [appendBits]
  | cons bit bits ih =>
    have hcons : appendBits 0 (bit :: bits) = appendBits bit.toNat bits := by simp [appendBits]
    have hle := bit.toNat_le
    rw [hcons, appendBits_eq, List.length_cons, pow_succ]
    nlinarith

/-- The value of bits is zero if none is set. -/
theorem appendBits_eq_zero_iff (bits : List Bool) : appendBits 0 bits = 0 ↔ bits.any id = false := by
  induction bits with
  | nil => simp [appendBits]
  | cons bit bits ih =>
    have hcons : appendBits 0 (bit :: bits) = appendBits bit.toNat bits := by simp [appendBits]
    rw [hcons, appendBits_eq, List.any_cons, Bool.or_eq_false_iff, ← ih]
    cases bit <;> simp

/-! ## The reader -/

/-- The bits that a reader has not returned. -/
def Reads (k : ℕ) (r : BinaryDigitReader) (bits : List Bool) : Prop :=
  r.base = 2 ^ k ∧ ∃ j, r.digitMask = 2 ^ j >>> 1 ∧
    bits = bitsBelow r.digit j ++ r.chars.flatMap fun c => bitsBelow (digitOf c) k

/-- A bit of the current digit is returned. -/
theorem takeBit_eq {j : ℕ} (hbase : r.base = 2 ^ k) (hmask : r.digitMask = 2 ^ j) :
    (takeBit r).1 = r.digit.testBit j ∧
      Reads k (takeBit r).2 (bitsBelow r.digit j ++ r.chars.flatMap fun c => bitsBelow (digitOf c) k) := by
  refine ⟨?_, hbase, j, congrArg (· >>> 1) hmask, rfl⟩
  have hand : r.digit &&& r.digitMask = (r.digit.testBit j).toNat * 2 ^ j := by
    rw [hmask, Nat.and_two_pow]
  have hpos : 2 ^ j ≠ 0 := by positivity
  simp only [takeBit, hand]
  cases r.digit.testBit j <;> simp

/-- Half of a power of two. -/
theorem two_pow_succ_shiftRight (j : ℕ) : 2 ^ (j + 1) >>> 1 = 2 ^ j := by
  rw [Nat.shiftRight_one, pow_succ, Nat.mul_div_cancel _ (by decide)]

/-- `nextDigit` returns the bits in turn. -/
theorem Reads.nextDigit_cons {bit : Bool} (h : Reads k r (bit :: bits)) (hk : 0 < k) :
    ∃ r', nextDigit r = some (bit, r') ∧ Reads k r' bits := by
  obtain ⟨hbase, j, hmask, hbits⟩ := h
  cases j with
  | succ j =>
    rw [two_pow_succ_shiftRight] at hmask
    obtain ⟨htake, hreads⟩ := takeBit_eq hbase hmask
    obtain ⟨rfl, rfl⟩ := List.cons.inj hbits
    refine ⟨_, ?_, hreads⟩
    rw [nextDigit, if_neg (by rw [hmask]; positivity), ← htake]
  | zero =>
    obtain ⟨k, rfl⟩ := Nat.exists_eq_succ_of_ne_zero hk.ne'
    obtain ⟨base, digit, digitMask, chars⟩ := r
    cases chars with
    | nil => cases hbits
    | cons c chars =>
      obtain ⟨rfl, rfl⟩ := List.cons.inj hbits
      have hhalf : base >>> 1 = 2 ^ k := (congrArg (· >>> 1) hbase).trans (two_pow_succ_shiftRight k)
      obtain ⟨htake, hreads⟩ := takeBit_eq (r := ⟨base, digitOf c, base >>> 1, chars⟩) hbase hhalf
      refine ⟨_, ?_, hreads⟩
      have hzero : digitMask = 0 := hmask
      rw [nextDigit, if_pos hzero]
      exact congrArg some (Prod.ext htake rfl)

/-- `nextDigit` ends after the last bit. -/
theorem Reads.nextDigit_nil (h : Reads k r []) (hk : 0 < k) : nextDigit r = none := by
  obtain ⟨hbase, j, hmask, hbits⟩ := h
  obtain ⟨k, rfl⟩ := Nat.exists_eq_succ_of_ne_zero hk.ne'
  obtain ⟨base, digit, digitMask, chars⟩ := r
  cases j with
  | succ j => cases hbits
  | zero =>
    cases chars with
    | cons c chars => cases hbits
    | nil =>
      have hzero : digitMask = 0 := hmask
      rw [nextDigit, if_pos hzero]

/-! ## The loops -/

/-- The first loop finds the leading one. -/
theorem Reads.skipLeadingZeroes {z : ℕ} (h : Reads k r (List.replicate z false ++ true :: bits)) (hk : 0 < k) :
    ∃ r', skipLeadingZeroes r = some (true, r') ∧ Reads k r' bits := by
  induction z generalizing r with
  | zero =>
    obtain ⟨r', hnext, hreads⟩ := h.nextDigit_cons hk
    refine ⟨r', ?_, hreads⟩
    rw [BinaryDigitReader.skipLeadingZeroes]
    split <;> simp_all
  | succ z ih =>
    obtain ⟨r', hnext, hreads⟩ := h.nextDigit_cons hk
    obtain ⟨r'', hskip, hrest⟩ := ih hreads
    refine ⟨r'', ?_, hrest⟩
    rw [BinaryDigitReader.skipLeadingZeroes]
    split <;> simp_all

/-- One more significant bit is exact. -/
theorem ofNat_mul_two_add {n : ℕ} (h : 2 * (n + 1) ≤ 2 ^ 53) (bit : Bool) :
    Binary64.ofNat n * .ofNat 2 + .ofNat bit.toNat = .ofNat (2 * n + bit.toNat) := by
  have hle := bit.toNat_le
  rw [Binary64.ofNat_mul_ofNat (by omega) (by norm_num), Binary64.ofNat_add_ofNat (by omega) (by omega),
    mul_comm n 2]

/-- The second loop gathers the significand, if there are bits enough. -/
theorem Reads.gather (h : Reads k r bits) (hk : 0 < k) {j n : ℕ} (hn : (n + 1) * 2 ^ j ≤ 2 ^ 53) (bit : Bool)
    (hbit : bit = decide (n % 2 = 1)) :
    (bits.length < j ∧ gather j (.ofNat n) bit r = (.ofNat (appendBits n bits), none)) ∨
      ∃ r' front back, bits = front ++ back ∧ front.length = j ∧ Reads k r' back ∧
        gather j (.ofNat n) bit r =
          (.ofNat (appendBits n front), some (decide (appendBits n front % 2 = 1), r')) := by
  induction j generalizing n bit r bits with
  | zero =>
    subst hbit
    exact .inr ⟨r, [], bits, rfl, rfl, h, rfl⟩
  | succ j ih =>
    cases bits with
    | nil =>
      refine .inl ⟨Nat.succ_pos j, ?_⟩
      rw [BinaryDigitReader.gather, h.nextDigit_nil hk]
      rfl
    | cons b bits =>
      obtain ⟨r', hnext, hreads⟩ := h.nextDigit_cons hk
      have hle := b.toNat_le
      have hpow : 0 < 2 ^ j := by positivity
      rw [pow_succ'] at hn
      have hstep : (2 * n + b.toNat + 1) * 2 ^ j ≤ 2 ^ 53 := by
        rw [← Nat.mul_assoc] at hn
        exact (Nat.mul_le_mul_right _ (by omega)).trans hn
      have hsmall : 2 * (n + 1) ≤ 2 ^ 53 := by
        rw [Nat.mul_comm]
        exact (Nat.mul_le_mul_left _ (Nat.le_mul_of_pos_right 2 hpow)).trans hn
      have hlast : b = decide ((2 * n + b.toNat) % 2 = 1) := by
        cases b <;> simp [Nat.add_mod]
      rw [BinaryDigitReader.gather, hnext]
      simp only [ofNat_mul_two_add hsmall]
      rcases ih hreads hstep b hlast with ⟨hlt, heq⟩ | ⟨r'', front, back, rfl, hlength, hback, heq⟩
      · exact .inl ⟨Nat.succ_lt_succ hlt, heq⟩
      · exact .inr ⟨r'', b :: front, back, rfl, congrArg (· + 1) hlength, hback, heq⟩

/-- The third loop counts the remaining bits, and finds one that is set. -/
theorem Reads.stickyLoop (h : Reads k r bits) (hk : 0 < k) (j : ℕ) (sticky : Bool) :
    stickyLoop (.ofNat (2 ^ j)) sticky r = (.ofNat (2 ^ (j + bits.length)), sticky || bits.any id) := by
  induction bits generalizing r j sticky with
  | nil =>
    have hnext := h.nextDigit_nil hk
    rw [BinaryDigitReader.stickyLoop]
    split <;> simp_all
  | cons b bits ih =>
    obtain ⟨r', hnext, hreads⟩ := h.nextDigit_cons hk
    have hrest := ih hreads (j + 1) (sticky || b)
    rw [BinaryDigitReader.stickyLoop]
    split
    next bit3 r'' heq =>
      obtain ⟨rfl, rfl⟩ := Prod.mk.inj (Option.some.inj (hnext.symm.trans heq))
      rw [Binary64.ofNat_two_pow_mul_two, hrest, List.length_cons, List.any_cons, Bool.or_assoc,
        Nat.add_right_comm, Nat.add_assoc]
      rfl
    next heq => cases hnext.symm.trans heq

/-! ## The rounded integer -/

/-- What decides the rounding, as a bit and as a comparison with one half. -/
theorem roundUp_eq (m : ℕ) (bit2 : Bool) (bits : List Bool) :
    (bit2 && (decide (m % 2 = 1) || bits.any id)).toNat =
      if 2 ^ bits.length < appendBits 0 (bit2 :: bits) ∨
        appendBits 0 (bit2 :: bits) = 2 ^ bits.length ∧ m % 2 = 1 then 1 else 0 := by
  have hcons : appendBits 0 (bit2 :: bits) = bit2.toNat * 2 ^ bits.length + appendBits 0 bits := by
    rw [← appendBits_eq]
    simp [appendBits]
  have hlt := appendBits_lt bits
  have hany := appendBits_eq_zero_iff bits
  rw [hcons]
  cases bit2 with
  | false =>
    rw [if_neg (by simp; omega)]
    rfl
  | true =>
    cases hbits : bits.any id with
    | false =>
      rw [hany.mpr hbits]
      by_cases hm : m % 2 = 1 <;> simp [hm]
    | true =>
      have hne : appendBits 0 bits ≠ 0 := by
        rw [Ne, hany, hbits]
        decide
      rw [if_pos (.inl (by simp; omega))]
      simp

/-- The bits of an integer that is not zero give its rounded double. -/
theorem computeAccurateBinaryBaseInteger_eq {chars : Chars} {z : ℕ} (hk : 0 < k)
    (hbits : chars.flatMap (fun c => bitsBelow (digitOf c) k) = List.replicate z false ++ true :: bits) :
    computeAccurateBinaryBaseInteger chars (2 ^ k) = some (.ofNat (appendBits 1 bits)) := by
  have hnew : Reads k (new (2 ^ k) chars) (List.replicate z false ++ true :: bits) :=
    ⟨rfl, 0, rfl, hbits.symm⟩
  obtain ⟨r, hskip, hreads⟩ := hnew.skipLeadingZeroes hk
  simp only [computeAccurateBinaryBaseInteger, hskip, Option.bind_eq_bind, Option.bind_some]
  rcases hreads.gather hk (j := 52) (n := 1) (by norm_num) true (by decide) with
    ⟨-, heq⟩ | ⟨r', front, back, rfl, hlength, hback, heq⟩
  · rw [heq]
  rw [heq]
  have happend : appendBits 1 (front ++ back) = appendBits (appendBits 1 front) back := List.foldl_append
  cases back with
  | nil =>
    simp only [hback.nextDigit_nil hk]
    rw [happend]
    rfl
  | cons bit2 bits =>
    obtain ⟨r'', hnext, hrest⟩ := hback.nextDigit_cons hk
    have hm : appendBits 1 front = 2 ^ 52 + appendBits 0 front := by
      rw [appendBits_eq, hlength, one_mul]
    have hfront := appendBits_lt front
    rw [hlength] at hfront
    have hsticky := hrest.stickyLoop hk 1 false
    rw [pow_one] at hsticky
    have hlow := appendBits_lt (bit2 :: bits)
    rw [List.length_cons] at hlow
    simp only [hnext, hsticky]
    rw [Bool.false_or, roundUp_eq, Binary64.ofNat_add_ofNat (by omega) (by split_ifs <;> norm_num),
      add_comm 1 bits.length, Binary64.ofNat_mul_two_pow (by omega) (by omega) hlow, happend,
      appendBits_eq (appendBits 1 front), List.length_cons]

/-! ## The digits -/

/-- A digit of the base. -/
def isDigitOf (base : ℕ) (c : UInt16) : Bool :=
  match prefixDigit c with
  | some digit => digit < base
  | none => false

/-- An integer, continued with digits. -/
def appendDigits (base n : ℕ) (chars : Chars) : ℕ := chars.foldl (fun n c => n * base + digitOf c) n

/-- A digit has the value that the reader gives it. -/
theorem prefixDigit_of_isDigitOf {base : ℕ} {c : UInt16} (h : isDigitOf base c) :
    prefixDigit c = some (digitOf c) ∧ digitOf c < base := by
  unfold isDigitOf at h
  split at h
  next digit heq =>
    have hdigit : digitOf c = digit := by
      unfold prefixDigit at heq
      unfold digitOf
      split_ifs at heq ⊢ <;> simp_all
    rw [hdigit]
    exact ⟨heq, of_decide_eq_true h⟩
  next => cases h

/-- The bits of digits are the integer. -/
theorem appendBits_flatMap {chars : Chars} (hdigits : ∀ c ∈ chars, isDigitOf (2 ^ k) c) (n : ℕ) :
    appendBits n (chars.flatMap fun c => bitsBelow (digitOf c) k) = appendDigits (2 ^ k) n chars := by
  induction chars generalizing n with
  | nil => rfl
  | cons c chars ih =>
    have hlt := (prefixDigit_of_isDigitOf (hdigits c List.mem_cons_self)).2
    have hrest := ih (fun d hd => hdigits d (List.mem_cons_of_mem c hd)) (n * 2 ^ k + digitOf c)
    rw [List.flatMap_cons, appendBits, List.foldl_append, ← appendBits, ← appendBits, appendBits_bitsBelow,
      Nat.mod_eq_of_lt hlt, hrest]
    rfl

/-- Bits of an integer that is not zero have a leading one. -/
theorem exists_leading {bits : List Bool} (h : appendBits 0 bits ≠ 0) :
    ∃ z rest, bits = List.replicate z false ++ true :: rest := by
  induction bits with
  | nil => exact absurd rfl h
  | cons bit bits ih =>
    cases bit with
    | true => exact ⟨0, bits, rfl⟩
    | false =>
      obtain ⟨z, rest, rfl⟩ := ih h
      exact ⟨z + 1, rest, rfl⟩

/-- Leading zeroes do not count. -/
theorem appendBits_replicate (z : ℕ) (bits : List Bool) :
    appendBits 0 (List.replicate z false ++ true :: bits) = appendBits 1 bits := by
  induction z with
  | zero => rfl
  | succ z ih => exact ih

/-- The loop takes all digits, and tracks the integer that they write. -/
theorem getPrefixIntegerLoop_spec {base : ℕ} (hbase : base ≤ 2 ^ 53) (chars : Chars) {d : Binary64} {n : ℕ}
    (h : Tracks d n) :
    Tracks (getPrefixIntegerLoop base d chars).1 (appendDigits base n (chars.takeWhile (isDigitOf base))) ∧
      (getPrefixIntegerLoop base d chars).2 = chars.dropWhile (isDigitOf base) := by
  induction chars generalizing d n with
  | nil => exact ⟨h, rfl⟩
  | cons c chars ih =>
    by_cases hc : isDigitOf base c = true
    · obtain ⟨hdigit, hlt⟩ := prefixDigit_of_isDigitOf hc
      rw [List.takeWhile_cons_of_pos hc, List.dropWhile_cons_of_pos hc]
      simp only [getPrefixIntegerLoop, hdigit, ge_iff_le, not_le.mpr hlt, ↓reduceIte]
      have hstep := h.step hbase hlt
      rw [mul_comm base n] at hstep
      exact ih hstep
    · rw [List.takeWhile_cons_of_neg hc, List.dropWhile_cons_of_neg hc, getPrefixIntegerLoop]
      split
      next => exact ⟨h, rfl⟩
      next digit hdigit =>
        have hge : digit ≥ base := by
          simp only [isDigitOf, hdigit, decide_eq_true_eq] at hc
          exact not_lt.mp hc
        rw [if_pos hge]
        exact ⟨h, rfl⟩

/-- The digits of a base that is a power of two are rounded once. -/
theorem getPrefixInteger_eq_ofNat (conversions : Conversions) (chars : Chars) {base : ℕ}
    (hbase : base ∈ [2, 4, 8, 16, 32]) :
    getPrefixInteger conversions chars base =
      some (.ofNat (appendDigits base 0 (chars.takeWhile (isDigitOf base))),
        chars.dropWhile (isDigitOf base)) := by
  obtain ⟨k, hk, hten, hpower, hle, rfl⟩ : ∃ k, 0 < k ∧ 2 ^ k ≠ 10 ∧ 2 ^ k &&& (2 ^ k - 1) = 0 ∧
      2 ^ k ≤ 2 ^ 53 ∧ base = 2 ^ k := by
    simp only [List.mem_cons, List.not_mem_nil, or_false] at hbase
    rcases hbase with rfl | rfl | rfl | rfl | rfl
    · exact ⟨1, by decide⟩
    · exact ⟨2, by decide⟩
    · exact ⟨3, by decide⟩
    · exact ⟨4, by decide⟩
    · exact ⟨5, by decide⟩
  have hzero : Tracks (.ofNat 0) 0 := .inl ⟨by norm_num, rfl⟩
  obtain ⟨htracks, hrest⟩ := getPrefixIntegerLoop_spec hle chars hzero
  have htext : textBetween chars (chars.dropWhile (isDigitOf (2 ^ k))) =
      chars.takeWhile (isDigitOf (2 ^ k)) := by
    have happend := Json.textBetween_append (chars.takeWhile (isDigitOf (2 ^ k)))
      (chars.dropWhile (isDigitOf (2 ^ k)))
    rwa [List.takeWhile_append_dropWhile] at happend
  simp only [getPrefixInteger, hrest, htext, if_neg hten, if_pos hpower]
  rcases htracks with ⟨hlt, heq⟩ | ⟨hge, hlow⟩
  · rw [heq, Binary64.lt_ofNat hlt.le le_rfl, decide_eq_true hlt, if_pos rfl]
  · have hcast : ((2 : ℚ) ^ (53 : ℤ)) = ((2 ^ 53 : ℕ) : ℚ) := by norm_num
    rw [hcast] at hlow
    have hdigits : ∀ c ∈ chars.takeWhile (isDigitOf (2 ^ k)), isDigitOf (2 ^ k) c :=
      fun c hc => List.all_eq_true.mp List.all_takeWhile c hc
    rw [← appendBits_flatMap hdigits] at hge ⊢
    obtain ⟨z, bits, hbits⟩ := exists_leading (Nat.ne_of_gt (lt_of_lt_of_le (by norm_num) hge))
    rw [if_neg (by rw [hlow.not_lt le_rfl]; decide), computeAccurateBinaryBaseInteger_eq hk hbits, hbits,
      appendBits_replicate]
    rfl

/-- In a base that is a power of two the digits are read up to the first character that is none, and their integer is
rounded once: to nearest, with halves to the even significand of 53 bits. Below 2^53 it is exact. -/
theorem getPrefixInteger_binary (conversions : Conversions) (chars : Chars) (base : ℕ)
    (hbase : base ∈ [2, 4, 8, 16, 32]) :
    let n := appendDigits base 0 (chars.takeWhile (isDigitOf base))
    getPrefixInteger conversions chars base = some (.ofNat n, chars.dropWhile (isDigitOf base)) ∧
      ∀ h : n < 2 ^ 53, Binary64.ofNat n = .finite false ⟨n, isMagnitude_natCast h.le⟩ :=
  ⟨getPrefixInteger_eq_ofNat conversions chars hbase, fun h => Binary64.ofNat_of_le h.le⟩

/-- A half that is not exact, before a character that is no digit. -/
theorem getPrefixInteger_binary_sixteen :
    getPrefixInteger ⟨fun ds => .ofRat (Json.digitsValue ds), fun ds => .ofRat (Json.digitsValue ds)⟩
      [0x31, 0x30, 0x30, 0x30, 0x30, 0x30, 0x30, 0x30, 0x30, 0x30, 0x30, 0x30, 0x30, 0x30, 0x38, 0x31, 0x2E] 16 =
        some (.ofNat 0x1000000000000081, [0x2E]) :=
  (getPrefixInteger_binary _ [0x31, 0x30, 0x30, 0x30, 0x30, 0x30, 0x30, 0x30, 0x30, 0x30, 0x30, 0x30, 0x30,
    0x30, 0x38, 0x31, 0x2E] 16 (by decide)).1

end SpiderMonkey.Vm
