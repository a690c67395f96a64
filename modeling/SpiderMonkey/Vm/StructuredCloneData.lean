import SpiderMonkey.Lib.Packing
import SpiderMonkey.Vm.StructuredCloneTags

/-!
# Values that are cloned

Values and objects, as far as structured clones tell them apart. An object is given by its address,
and a number by the bits of its double. Little-endian words hold bytes and characters.
-/

namespace SpiderMonkey.Vm.StructuredClone

open Packing

/-- A value. -/
inductive Value where
  | undefined
  | null
  | boolean (b : Bool)
  | number (d : UInt64)
  | string (chars : List UInt16)
  | object (obj : ℕ)
  deriving DecidableEq

namespace Value

/-- Whether a value is an object. -/
def isObject : Value → Bool
  | .object _ => true
  | _ => false

end Value

/-- The key of a property. -/
inductive PropertyId where
  | index (i : UInt32)
  | name (chars : List UInt16)
  deriving DecidableEq

/-- What a callback writes for an object. -/
inductive HostItem where
  | pair (tag data : UInt32)
  | bytes (bytes : List UInt8)
  | typedArray (obj : ℕ)
  deriving DecidableEq

/-- An object. Plain objects and arrays have own enumerable properties in order. Host objects are those
that callbacks write; the first item is a pair. -/
inductive Obj where
  | plain (isArray : Bool) (props : List (PropertyId × Value))
  | booleanObject (b : Bool)
  | numberObject (d : UInt64)
  | stringObject (chars : List UInt16)
  | date (d : UInt64)
  | regexp (flags : UInt32) (source : List UInt16)
  | arrayBuffer (bytes : List UInt8)
  | typedArray (type : UInt32) (buffer : ℕ) (byteOffset length : UInt32)
  | host (tag data : UInt32) (items : List HostItem)
  deriving DecidableEq

/-- Whether a double is not a number. -/
def isNaN (d : UInt64) : Bool := d &&& 0x7FFFFFFFFFFFFFFF > 0x7FF0000000000000

/-- All doubles that are not numbers become one. -/
def canonicalizeNaN (d : UInt64) : UInt64 := if isNaN d then 0x7FF8000000000000 else d

/-- Whether the bits of a double are those of a value that is a double. -/
def checkDouble (d : UInt64) : Bool := d ≤ 0xFFF80000FFFFFFFF

/-- The absolute value of a double that is an integer. -/
def integerOf (d : UInt64) : Option ℕ :=
  let exponent := (d >>> 52 &&& 0x7FF).toNat
  let fraction := (d &&& 0xFFFFFFFFFFFFF).toNat
  if exponent = 0x7FF then none
  else if exponent = 0 then if fraction = 0 then some 0 else none
  else
    let mantissa := 2 ^ 52 + fraction
    if exponent ≥ 1075 then some (mantissa <<< (exponent - 1075))
    else if mantissa % 2 ^ (1075 - exponent) = 0 then some (mantissa >>> (1075 - exponent))
    else none

/-- Whether clipping a time leaves it alone. -/
def isTimeClipped (d : UInt64) : Bool :=
  match integerOf d with
  | none => false
  | some n => n ≤ 8640000000000000

/-- The greatest length of a string. -/
def maxStringLength : ℕ := 2 ^ 28 - 1

/-- The last type of typed arrays. -/
def typeUint8Clamped : UInt32 := 8

/-- The number of bytes of an element: of 8, 16, 32 and 64 bits, and clamped. -/
def bytesPerTypedArrayElement (arrayType : UInt32) : ℕ :=
  if arrayType = 0 ∨ arrayType = 1 ∨ arrayType = typeUint8Clamped then 1
  else if arrayType = 2 ∨ arrayType = 3 then 2
  else if arrayType = 4 ∨ arrayType = 5 ∨ arrayType = 6 then 4
  else 8

/-- The greatest signed integer of 32 bits. -/
def int32Max : ℕ := 2 ^ 31 - 1

/-- The length of a typed array on part of a buffer, if there can be one. A length of `-1` asks for the
rest of the buffer. -/
def fromBuffer (size byteLength : ℕ) (byteOffset nelems : UInt32) : Option UInt32 :=
  let offset := byteOffset.toNat
  if offset > byteLength ∨ offset % size ≠ 0 then none
  else
    let rest := UInt32.ofNat ((byteLength - offset) / size)
    if nelems = 0xFFFFFFFF ∧ rest.toNat * size ≠ byteLength - offset then none
    else
      let len := if nelems = 0xFFFFFFFF then rest else nelems
      let arrayByteLength := len.toNat * size % 2 ^ 32
      if len.toNat ≥ int32Max / size ∨ offset ≥ int32Max - arrayByteLength then none
      else if (arrayByteLength + offset) % 2 ^ 32 > byteLength then none
      else some len

/-- The number of words that items need. -/
def howMany (n perWord : ℕ) : ℕ := (n + perWord - 1) / perWord

/-- The bytes of words. -/
def bytesOf (words : List UInt64) : List UInt8 :=
  (unpackWords 256 8 (words.map UInt64.toNat)).map UInt8.ofNat

/-- The characters of words. -/
def charsOf (words : List UInt64) : List UInt16 :=
  (unpackWords 65536 4 (words.map UInt64.toNat)).map UInt16.ofNat

/-- The words that bytes are written in. -/
def wordsOfBytes (bytes : List UInt8) : List UInt64 :=
  (packWords 256 8 (howMany bytes.length 8) (bytes.map UInt8.toNat)).map UInt64.ofNat

/-- The words that characters are written in. -/
def wordsOfChars (chars : List UInt16) : List UInt64 :=
  (packWords 65536 4 (howMany chars.length 4) (chars.map UInt16.toNat)).map UInt64.ofNat

end SpiderMonkey.Vm.StructuredClone
