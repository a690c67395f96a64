import Mathlib.Data.Nat.Bitwise
import Mathlib.Algebra.Order.Group.Nat

/-!
# Words of structured clones

Structured clone data is a sequence of words of 64 bits. Most words are pairs of a tag and data. A
word is given by its value; how it is laid out in memory is left out.
-/

namespace SpiderMonkey.Vm.StructuredClone

/-- The greatest tag that is the upper half of a number. -/
def sctagFloatMax : UInt32 := 0xFFF00000

/-- The tag of null, which also ends an object. -/
def sctagNull : UInt32 := 0xFFFF0000

/-- The tag of undefined. -/
def sctagUndefined : UInt32 := 0xFFFF0001

/-- The tag of a boolean. -/
def sctagBoolean : UInt32 := 0xFFFF0002

/-- The tag of an index. -/
def sctagIndex : UInt32 := 0xFFFF0003

/-- The tag of a string. -/
def sctagString : UInt32 := 0xFFFF0004

/-- The tag of a date. -/
def sctagDateObject : UInt32 := 0xFFFF0005

/-- The tag of a regular expression. -/
def sctagRegexpObject : UInt32 := 0xFFFF0006

/-- The tag of an array. -/
def sctagArrayObject : UInt32 := 0xFFFF0007

/-- The tag of a plain object. -/
def sctagObjectObject : UInt32 := 0xFFFF0008

/-- The tag of an array buffer. -/
def sctagArrayBufferObject : UInt32 := 0xFFFF0009

/-- The tag of a boolean's wrapper object. -/
def sctagBooleanObject : UInt32 := 0xFFFF000A

/-- The tag of a string's wrapper object. -/
def sctagStringObject : UInt32 := 0xFFFF000B

/-- The tag of a number's wrapper object. -/
def sctagNumberObject : UInt32 := 0xFFFF000C

/-- The tag of a reference to an earlier object. -/
def sctagBackReferenceObject : UInt32 := 0xFFFF000D

/-- The tag of a typed array. -/
def sctagTypedArrayObject : UInt32 := 0xFFFF0010

/-- The first tag of typed arrays in the format of version 1. -/
def sctagTypedArrayV1Min : UInt32 := 0xFFFF0100

/-- The last tag of typed arrays in the format of version 1. -/
def sctagTypedArrayV1Max : UInt32 := 0xFFFF0108

/-- The tag of a transfer map's header. -/
def sctagTransferMapHeader : UInt32 := 0xFFFF0200

/-- The tag of a transfer map's entry. -/
def sctagTransferMapEntry : UInt32 := 0xFFFF0201

/-- A word of a tag and data. -/
def pairToUInt64 (tag data : UInt32) : UInt64 := data.toUInt64 ||| (tag.toUInt64 <<< 32)

/-- The tag of a word. -/
def tagOf (u : UInt64) : UInt32 := (u >>> 32).toUInt32

/-- The data of a word. -/
def dataOf (u : UInt64) : UInt32 := u.toUInt32

/-- A pair as a number. -/
theorem toNat_pairToUInt64 (tag data : UInt32) :
    (pairToUInt64 tag data).toNat = 2 ^ 32 * tag.toNat + data.toNat := by
  have htag := tag.toNat_lt
  have hor := Nat.two_pow_add_eq_or_of_lt data.toNat_lt tag.toNat
  have hshift : (tag.toUInt64 <<< 32).toNat = 2 ^ 32 * tag.toNat := by
    rw [UInt64.toNat_shiftLeft, UInt32.toNat_toUInt64]
    change tag.toNat <<< 32 % 2 ^ 64 = _
    rw [Nat.shiftLeft_eq]
    omega
  rw [pairToUInt64, UInt64.toNat_or, UInt32.toNat_toUInt64, hshift, hor, Nat.or_comm]

/-- A pair's tag. -/
@[simp] theorem tagOf_pairToUInt64 (tag data : UInt32) : tagOf (pairToUInt64 tag data) = tag := by
  have htag := tag.toNat_lt
  have hdata := data.toNat_lt
  rw [← UInt32.toNat_inj, tagOf, UInt64.toNat_toUInt32, UInt64.toNat_shiftRight, toNat_pairToUInt64]
  change (2 ^ 32 * tag.toNat + data.toNat) >>> 32 % 2 ^ 32 = _
  rw [Nat.shiftRight_eq_div_pow]
  omega

/-- A pair's data. -/
@[simp] theorem dataOf_pairToUInt64 (tag data : UInt32) : dataOf (pairToUInt64 tag data) = data := by
  have hdata := data.toNat_lt
  rw [← UInt32.toNat_inj, dataOf, UInt64.toNat_toUInt32, toNat_pairToUInt64]
  omega

/-- A word is the pair of its tag and data. -/
theorem pairToUInt64_tagOf_dataOf (u : UInt64) : pairToUInt64 (tagOf u) (dataOf u) = u := by
  have hu := u.toNat_lt
  have htag : (tagOf u).toNat = u.toNat / 2 ^ 32 := by
    rw [tagOf, UInt64.toNat_toUInt32, UInt64.toNat_shiftRight]
    change u.toNat >>> 32 % 2 ^ 32 = _
    rw [Nat.shiftRight_eq_div_pow]
    omega
  have hdata : (dataOf u).toNat = u.toNat % 2 ^ 32 := UInt64.toNat_toUInt32 u
  rw [← UInt64.toNat_inj, toNat_pairToUInt64, htag, hdata]
  omega

end SpiderMonkey.Vm.StructuredClone
