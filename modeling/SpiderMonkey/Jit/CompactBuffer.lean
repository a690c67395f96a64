import SpiderMonkey.Lib.Codec
import Mathlib.Algebra.Order.Group.Nat
import Mathlib.Data.Nat.Bitwise

/-!
# Compact buffers

Byte streams of integers of variable length: seven bits a byte, least significant first, with a bit
that tells whether another byte follows. A signed integer's first byte holds six bits of its
absolute value and the sign.

Writers give the bytes they append. The flag that records allocation failure is left out.
-/

namespace SpiderMonkey.Jit.CompactBuffer

open Reader

/-- A compact buffer's reader. It fails at the end of the buffer. -/
abbrev CompactBufferReader (A : Type) := Reader UInt8 A

/-- Append a byte. -/
def writeByte (byte : UInt32) : List UInt8 := [byte.toUInt8]

/-- Append an unsigned integer. -/
def writeUnsigned (value : UInt32) : List UInt8 :=
  let byte := ((value &&& 0x7F) <<< 1) ||| (if value > 0x7F then 1 else 0)
  let rest := value >>> 7
  if rest = 0 then writeByte byte else writeByte byte ++ writeUnsigned rest
termination_by value.toNat
decreasing_by
  rename_i hrest
  have hne : (value >>> 7).toNat ≠ 0 := fun h => hrest (UInt32.toNat_inj.mp h)
  simp only [UInt32.toNat_shiftRight, Nat.shiftRight_eq_div_pow] at hne ⊢
  have hshift : (7 : UInt32).toNat % 32 = 7 := rfl
  rw [hshift] at hne ⊢
  omega

/-- Append a signed integer. The most negative one is its own negation. -/
def writeSigned (v : Int32) : List UInt8 :=
  let isNegative := v < 0
  let value := (if isNegative then -v else v).toUInt32
  let byte := ((value &&& 0x3F) <<< 2) ||| ((if value > 0x3F then (1 : UInt32) else 0) <<< 1) |||
    (if isNegative then 1 else 0)
  let rest := value >>> 6
  if rest = 0 then writeByte byte else writeByte byte ++ writeUnsigned rest

/-- Append a 16-bit integer. -/
def writeFixedUint16 (value : UInt16) : List UInt8 :=
  writeByte (value &&& 0xFF).toUInt32 ++ writeByte (value >>> 8).toUInt32

/-- Read a byte. -/
def readByte : CompactBufferReader UInt8 := next

/-- Read an integer of variable length, from a shift on. -/
def readVariableLength (val shift : UInt32) : CompactBufferReader UInt32
  | [] => none
  | byte :: rest =>
    if shift < 32 then
      let val := val ||| ((byte.toUInt32 >>> 1) <<< shift)
      if byte &&& 1 = 0 then some (val, rest) else readVariableLength val (shift + 7) rest
    else none

/-- Read an unsigned integer. -/
def readUnsigned : CompactBufferReader UInt32 := readVariableLength 0 0

/-- Read a signed integer. -/
def readSigned : CompactBufferReader Int32 := do
  let b ← readByte
  let isNegative := b &&& 1 ≠ 0
  let more := b &&& 2 ≠ 0
  let result := (b >>> 2).toUInt32
  let result ← if more then do
      let rest ← readUnsigned
      pure (result ||| (rest <<< 6))
    else pure result
  pure (if isNegative then -result.toInt32 else result.toInt32)

/-- Read a 16-bit integer. -/
def readFixedUint16 : CompactBufferReader UInt16 := do
  let b0 ← readByte
  let b1 ← readByte
  pure (b0.toUInt16 ||| (b1.toUInt16 <<< 8))

/-- The byte that holds the low seven bits of an integer. -/
theorem toNat_unsignedByte (value : UInt32) :
    (((value &&& 0x7F) <<< 1) ||| (if value > 0x7F then 1 else 0)).toUInt8.toNat =
      2 * (value.toNat % 128) + if 127 < value.toNat then 1 else 0 := by
  have hlow : (value &&& 0x7F).toNat = value.toNat % 128 := by
    rw [UInt32.toNat_and]
    exact Nat.and_two_pow_sub_one_eq_mod value.toNat 7
  have hflag : (if value > 0x7F then 1 else 0 : UInt32).toNat =
      if 127 < value.toNat then 1 else 0 := by
    have hlt : value > 0x7F ↔ 127 < value.toNat := UInt32.lt_iff_toNat_lt
    by_cases h : 127 < value.toNat
    · rw [if_pos (hlt.mpr h), if_pos h]; rfl
    · rw [if_neg (mt hlt.mp h), if_neg h]; rfl
  have hshift : ((value &&& 0x7F) <<< 1).toNat = 2 * (value.toNat % 128) := by
    rw [UInt32.toNat_shiftLeft, hlow]
    change (value.toNat % 128) <<< 1 % 2 ^ 32 = _
    rw [Nat.shiftLeft_eq]
    omega
  have hor := Nat.two_pow_add_eq_or_of_lt (i := 1)
    (b := if 127 < value.toNat then 1 else 0) (by split <;> omega) (value.toNat % 128)
  rw [UInt32.toNat_toUInt8, UInt32.toNat_or, hshift, hflag]
  rw [pow_one] at hor
  rw [← hor]
  split <;> omega

/-- One step of the writer. -/
theorem writeUnsigned_eq (value : UInt32) :
    writeUnsigned value =
      if value.toNat / 128 = 0 then
        [(((value &&& 0x7F) <<< 1) ||| (if value > 0x7F then 1 else 0)).toUInt8]
      else
        (((value &&& 0x7F) <<< 1) ||| (if value > 0x7F then 1 else 0)).toUInt8 ::
          writeUnsigned (value >>> 7) := by
  have hrest : (value >>> 7).toNat = value.toNat / 128 := by
    rw [UInt32.toNat_shiftRight]
    exact Nat.shiftRight_eq_div_pow value.toNat 7
  have hzero : value >>> 7 = 0 ↔ value.toNat / 128 = 0 := by
    rw [← UInt32.toNat_inj, hrest]
    rfl
  rw [writeUnsigned]
  by_cases h : value.toNat / 128 = 0
  · rw [if_pos h]
    simp only [hzero, h, if_true, writeByte]
  · rw [if_neg h]
    simp only [hzero, h, if_false, writeByte, List.singleton_append]

/-- The bits of a byte, put above the bits that are already there. -/
theorem toNat_placeBits {byte : UInt8} {val shift : UInt32} {x f : ℕ} (hf : f ≤ 1)
    (hbyte : byte.toNat = 2 * x + f) (hshift : shift.toNat < 32)
    (hval : val.toNat < 2 ^ shift.toNat) (hbound : x * 2 ^ shift.toNat < 2 ^ 32) :
    (val ||| ((byte.toUInt32 >>> 1) <<< shift)).toNat = val.toNat + x * 2 ^ shift.toNat := by
  have hbits : (byte.toUInt32 >>> 1).toNat = x := by
    rw [UInt32.toNat_shiftRight, UInt8.toNat_toUInt32, hbyte]
    change (2 * x + f) >>> 1 = x
    rw [Nat.shiftRight_eq_div_pow]
    omega
  have hplaced : ((byte.toUInt32 >>> 1) <<< shift).toNat = x * 2 ^ shift.toNat := by
    rw [UInt32.toNat_shiftLeft, hbits, Nat.mod_eq_of_lt hshift, Nat.shiftLeft_eq,
      Nat.mod_eq_of_lt hbound]
  have hor := Nat.two_pow_add_eq_or_of_lt hval x
  rw [UInt32.toNat_or, hplaced, Nat.or_comm, Nat.mul_comm, ← hor]
  omega

/-- The last bit of a byte. -/
theorem lastBit_eq_zero_iff {byte : UInt8} {x f : ℕ} (hf : f ≤ 1) (hbyte : byte.toNat = 2 * x + f) :
    byte &&& 1 = 0 ↔ f = 0 := by
  have hbit : (byte &&& 1).toNat = byte.toNat % 2 := by
    rw [UInt8.toNat_and]
    exact Nat.and_two_pow_sub_one_eq_mod byte.toNat 1
  rw [← UInt8.toNat_inj, hbit, hbyte]
  change (2 * x + f) % 2 = 0 ↔ f = 0
  omega

/-- The reader adds the rest of an integer above the bits it has. -/
theorem readVariableLength_writeUnsigned (n : ℕ) : ∀ (value val shift : UInt32) (rest : List UInt8),
    value.toNat = n → shift.toNat < 32 → val.toNat < 2 ^ shift.toNat →
      n * 2 ^ shift.toNat < 2 ^ 32 →
        ∃ r : UInt32, readVariableLength val shift (writeUnsigned value ++ rest) = some (r, rest) ∧
          r.toNat = val.toNat + n * 2 ^ shift.toNat := by
  induction n using Nat.strongRecOn with
  | ind n ih =>
    intro value val shift rest hvalue hshift hval hbound
    have hbyte := toNat_unsignedByte value
    rw [hvalue] at hbyte
    have hlow : n % 128 * 2 ^ shift.toNat ≤ n * 2 ^ shift.toNat :=
      Nat.mul_le_mul_right _ (Nat.mod_le n 128)
    have hplaced := toNat_placeBits (by split <;> omega) hbyte hshift hval (by omega)
    have hlast := lastBit_eq_zero_iff (by split <;> omega) hbyte
    have hlt : shift < 32 := UInt32.lt_iff_toNat_lt.mpr hshift
    rw [writeUnsigned_eq, hvalue]
    by_cases hmore : n / 128 = 0
    · have hsmall : ¬ 127 < n := by omega
      rw [if_neg hsmall, eq_self, iff_true] at hlast
      rw [if_pos hmore, List.singleton_append]
      simp only [readVariableLength, if_pos hlt, if_pos hlast]
      refine ⟨_, rfl, ?_⟩
      rw [hplaced, Nat.mod_eq_of_lt (by omega)]
    · have hlarge : 127 < n := by omega
      rw [if_pos hlarge] at hlast
      have hpow : 2 ^ (shift.toNat + 7) = 128 * 2 ^ shift.toNat := by
        rw [pow_add]
        omega
      have hdiv : n / 128 * 128 * 2 ^ shift.toNat ≤ n * 2 ^ shift.toNat :=
        Nat.mul_le_mul_right _ (Nat.div_mul_le_self n 128)
      have hsplit : n * 2 ^ shift.toNat =
          n % 128 * 2 ^ shift.toNat + n / 128 * (128 * 2 ^ shift.toNat) := by
        conv_lhs => rw [← Nat.mod_add_div n 128]
        rw [Nat.add_mul, Nat.mul_comm 128, Nat.mul_assoc]
      have hshift' : shift.toNat + 7 < 32 := by
        by_contra hge
        have hpow' : 2 ^ 32 ≤ 2 ^ (shift.toNat + 7) := Nat.pow_le_pow_right (by omega) (by omega)
        have hmul : 128 * 2 ^ shift.toNat ≤ n * 2 ^ shift.toNat :=
          Nat.mul_le_mul_right _ (by omega)
        omega
      have hnext : (shift + 7).toNat = shift.toNat + 7 := by
        rw [UInt32.toNat_add]
        exact Nat.mod_eq_of_lt (by omega : shift.toNat + 7 < 2 ^ 32)
      have hrest : (value >>> 7).toNat = n / 128 := by
        rw [UInt32.toNat_shiftRight, hvalue]
        exact Nat.shiftRight_eq_div_pow n 7
      have hval' : val.toNat + n % 128 * 2 ^ shift.toNat < 2 ^ (shift.toNat + 7) := by
        have hmod : n % 128 * 2 ^ shift.toNat ≤ 127 * 2 ^ shift.toNat :=
          Nat.mul_le_mul_right _ (by omega)
        omega
      obtain ⟨r, hr, htoNat⟩ := ih (n / 128) (by omega) (value >>> 7) _ (shift + 7) rest hrest
        (hnext ▸ hshift') (by rw [hplaced, hnext]; exact hval') (by rw [hnext, hpow]; omega)
      rw [if_neg hmore, List.cons_append]
      refine ⟨r, ?_, ?_⟩
      · simp only [readVariableLength, if_pos hlt, if_neg (mt hlast.mp (by omega))]
        exact hr
      · rw [htoNat, hplaced, hnext, hpow, hsplit]
        omega

/-- An unsigned integer is read back. -/
theorem reads_writeUnsigned (value : UInt32) : Reads readUnsigned (writeUnsigned value) value := by
  intro rest
  obtain ⟨r, hr, htoNat⟩ := readVariableLength_writeUnsigned _ value 0 0 rest rfl (by decide)
    (by decide) (by simpa using value.toNat_lt)
  have hvalue : r = value := by
    rw [← UInt32.toNat_inj, htoNat]
    simp
  rw [readUnsigned, hr, hvalue]

/-- The first byte of a signed integer holds the low six bits of its absolute value and two flags. -/
theorem toNat_signedByte (value : UInt32) (isNegative : Prop) [Decidable isNegative] :
    (((value &&& 0x3F) <<< 2) ||| ((if value > 0x3F then (1 : UInt32) else 0) <<< 1) |||
      (if isNegative then 1 else 0)).toUInt8.toNat =
        4 * (value.toNat % 64) + 2 * (if 63 < value.toNat then 1 else 0) +
          if isNegative then 1 else 0 := by
  have hlow : (value &&& 0x3F).toNat = value.toNat % 64 := by
    rw [UInt32.toNat_and]
    exact Nat.and_two_pow_sub_one_eq_mod value.toNat 6
  have hshift : ((value &&& 0x3F) <<< 2).toNat = 4 * (value.toNat % 64) := by
    rw [UInt32.toNat_shiftLeft, hlow]
    change (value.toNat % 64) <<< 2 % 2 ^ 32 = _
    rw [Nat.shiftLeft_eq]
    omega
  have hmore : ((if value > 0x3F then (1 : UInt32) else 0) <<< 1).toNat =
      2 * (if 63 < value.toNat then 1 else 0) := by
    have hlt : value > 0x3F ↔ 63 < value.toNat := UInt32.lt_iff_toNat_lt
    by_cases h : 63 < value.toNat
    · rw [if_pos (hlt.mpr h), if_pos h]; rfl
    · rw [if_neg (mt hlt.mp h), if_neg h]; rfl
  have hsign : (if isNegative then 1 else 0 : UInt32).toNat = if isNegative then 1 else 0 := by
    split <;> rfl
  have hor := Nat.two_pow_add_eq_or_of_lt (i := 2)
    (b := 2 * (if 63 < value.toNat then 1 else 0)) (by split <;> omega) (value.toNat % 64)
  have hor' := Nat.two_pow_add_eq_or_of_lt (i := 1) (b := if isNegative then 1 else 0)
    (by split <;> omega) (2 * (value.toNat % 64) + if 63 < value.toNat then 1 else 0)
  rw [UInt32.toNat_toUInt8, UInt32.toNat_or, UInt32.toNat_or, hshift, hmore, hsign]
  rw [show 2 ^ 2 = 4 from rfl] at hor
  rw [pow_one, Nat.mul_add, ← Nat.mul_assoc, show 2 * 2 = 4 from rfl] at hor'
  rw [← hor, ← hor']
  split <;> split <;> omega

/-- A flag in a byte. -/
theorem flag_eq_zero_iff (byte : UInt8) (i : ℕ) (hi : i < 8) :
    byte &&& UInt8.ofNat (2 ^ i) = 0 ↔ byte.toNat / 2 ^ i % 2 = 0 := by
  have hpow : 2 ^ i < 2 ^ 8 := Nat.pow_lt_pow_right (by omega) hi
  have hbit : (byte &&& UInt8.ofNat (2 ^ i)).toNat = (byte.toNat.testBit i).toNat * 2 ^ i := by
    rw [UInt8.toNat_and, UInt8.toNat_ofNat', Nat.mod_eq_of_lt hpow, Nat.and_two_pow]
  rw [← UInt8.toNat_inj, hbit, Nat.testBit_eq_decide_div_mod_eq]
  change _ = 0 ↔ _
  by_cases h : byte.toNat / 2 ^ i % 2 = 1
  · simp [h]
  · simp only [h, decide_false, Bool.toNat_false, Nat.zero_mul, true_iff]
    omega

/-- A byte is read back. -/
theorem reads_writeByte (byte : UInt32) : Reads readByte (writeByte byte) byte.toUInt8 := reads_next _

/-- A signed integer is read back. -/
theorem reads_writeSigned (v : Int32) : Reads readSigned (writeSigned v) v := by
  have hvalue : (if v < 0 then -(if v < 0 then -v else v) else if v < 0 then -v else v) = v := by
    split <;> simp
  generalize habs : (if v < 0 then -v else v) = a at hvalue
  have hbyte := toNat_signedByte a.toUInt32 (v < 0)
  have hrest : (a.toUInt32 >>> 6).toNat = a.toUInt32.toNat / 64 := by
    rw [UInt32.toNat_shiftRight]
    exact Nat.shiftRight_eq_div_pow _ 6
  have hzero : a.toUInt32 >>> 6 = 0 ↔ a.toUInt32.toNat / 64 = 0 := by
    rw [← UInt32.toNat_inj, hrest]
    rfl
  simp only [writeSigned, habs]
  generalize ((a.toUInt32 &&& 0x3F) <<< 2 ||| (if a.toUInt32 > 0x3F then (1 : UInt32) else 0) <<< 1 |||
      if v < 0 then 1 else 0) = byte at hbyte
  have hsign : byte.toUInt8 &&& 1 ≠ 0 ↔ v < 0 := by
    have hflag := flag_eq_zero_iff byte.toUInt8 0 (by omega)
    rw [pow_zero, Nat.div_one] at hflag
    change byte.toUInt8 &&& 1 = 0 ↔ _ at hflag
    rw [ne_eq, hflag, hbyte]
    by_cases hneg : v < 0
    · simp only [hneg, if_true, iff_true]
      omega
    · simp only [hneg, if_false, iff_false]
      omega
  have hmore : byte.toUInt8 &&& 2 ≠ 0 ↔ a.toUInt32.toNat / 64 ≠ 0 := by
    have hflag := flag_eq_zero_iff byte.toUInt8 1 (by omega)
    rw [pow_one] at hflag
    change byte.toUInt8 &&& 2 = 0 ↔ _ at hflag
    rw [ne_eq, hflag, hbyte]
    split <;> split <;> omega
  have hbits : (byte.toUInt8 >>> 2).toUInt32.toNat = a.toUInt32.toNat % 64 := by
    rw [UInt8.toNat_toUInt32, UInt8.toNat_shiftRight, hbyte]
    change _ >>> 2 = _
    rw [Nat.shiftRight_eq_div_pow]
    split <;> split <;> omega
  have hresult (r : UInt32) (hr : r = a.toUInt32) :
      (if byte.toUInt8 &&& 1 ≠ 0 then -r.toInt32 else r.toInt32) = v := by
    rw [hr, Int32.toInt32_toUInt32]
    simp only [hsign]
    exact hvalue
  by_cases hlarge : a.toUInt32.toNat / 64 = 0
  · rw [if_pos (hzero.mpr hlarge)]
    refine (reads_writeByte byte).bind_pure ?_
    simp only [hmore, hlarge, ne_eq, not_true_eq_false, if_false]
    refine (reads_pure _).bind_nil ?_
    rw [← hresult (byte.toUInt8 >>> 2).toUInt32
      (UInt32.toNat_inj.mp (by rw [hbits]; omega))]
    exact reads_pure _
  · rw [if_neg (mt hzero.mp hlarge)]
    refine (reads_writeByte byte).bind ?_
    simp only [hmore, hlarge, ne_eq, not_false_eq_true, if_true]
    refine (reads_writeUnsigned _).bind_pure ((reads_pure _).bind_nil ?_)
    rw [← hresult ((byte.toUInt8 >>> 2).toUInt32 ||| ((a.toUInt32 >>> 6) <<< 6)) ?_]
    · exact reads_pure _
    · have hor := Nat.two_pow_add_eq_or_of_lt (i := 6) (b := a.toUInt32.toNat % 64) (by omega)
        (a.toUInt32.toNat / 64)
      have hplaced : ((a.toUInt32 >>> 6) <<< 6).toNat = 2 ^ 6 * (a.toUInt32.toNat / 64) := by
        have hlt := a.toUInt32.toNat_lt
        rw [UInt32.toNat_shiftLeft, hrest]
        change _ <<< 6 % 2 ^ 32 = _
        rw [Nat.shiftLeft_eq]
        omega
      rw [← UInt32.toNat_inj, UInt32.toNat_or, hbits, hplaced, Nat.or_comm, ← hor]
      omega

/-- A 16-bit integer is read back. -/
theorem reads_writeFixedUint16 (value : UInt16) :
    Reads readFixedUint16 (writeFixedUint16 value) value := by
  refine (reads_writeByte _).bind ((reads_writeByte _).bind_pure ?_)
  have hlow : (value &&& 0xFF).toNat = value.toNat % 256 := by
    rw [UInt16.toNat_and]
    exact Nat.and_two_pow_sub_one_eq_mod value.toNat 8
  have hhigh : (value >>> 8).toNat = value.toNat / 256 := by
    rw [UInt16.toNat_shiftRight]
    exact Nat.shiftRight_eq_div_pow value.toNat 8
  have hor := Nat.two_pow_add_eq_or_of_lt (i := 8) (b := value.toNat % 256) (by omega)
    (value.toNat / 256)
  have hvalue : (value &&& 0xFF).toUInt32.toUInt8.toUInt16 |||
      ((value >>> 8).toUInt32.toUInt8.toUInt16 <<< 8) = value := by
    have hlt := value.toNat_lt
    have hplaced : ((value >>> 8).toUInt32.toUInt8.toUInt16 <<< 8).toNat =
        2 ^ 8 * (value.toNat / 256) := by
      rw [UInt16.toNat_shiftLeft, UInt8.toNat_toUInt16, UInt32.toNat_toUInt8, UInt16.toNat_toUInt32,
        hhigh]
      change _ <<< 8 % 2 ^ 16 = _
      rw [Nat.shiftLeft_eq]
      omega
    rw [← UInt16.toNat_inj, UInt16.toNat_or, hplaced, UInt8.toNat_toUInt16, UInt32.toNat_toUInt8,
      UInt16.toNat_toUInt32, hlow, Nat.or_comm, Nat.mod_eq_of_lt (by omega), ← hor]
    omega
  rw [hvalue]
  exact reads_pure value

end SpiderMonkey.Jit.CompactBuffer
