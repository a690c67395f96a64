import SpiderMonkey.Ds.Sort
import SpiderMonkey.Lib.ExtRat

/-!
# Sorting an array

`Array.prototype.sort` for arrays of primitives. Undefined values and holes are counted and come last;
what is left is sorted by its strings, or by a function. The strings are compared themselves where all
elements are strings, and the digits of integers are compared by arithmetic. Functions that subtract
their arguments are recognised by their bytecode and not called.

Reads out of bounds, assertions that fail and products that do not fit have no result. Interrupts and
running out of memory are left out, and functions that are not made of the instructions below.
-/

namespace SpiderMonkey.Vm.ArraySort

open Ds.Sort (Comparator mergeSort)

/-- A primitive value. A double is its exact value, but for the zero with a sign. -/
inductive Value where
  | undefined
  | null
  | boolean (b : Bool)
  | int32 (i : Int32)
  | double (d : ExtRat)
  | negativeZero
  | string (chars : List UInt16)
deriving DecidableEq

namespace Value

/-- Whether a value is a string. -/
def isString : Value → Bool
  | string _ => true
  | _ => false

/-- Whether a value is an integer of 32 bits. -/
def isInt32 : Value → Bool
  | int32 _ => true
  | _ => false

/-- Whether a value is a number. -/
def isNumber : Value → Bool
  | int32 _ => true
  | double _ => true
  | negativeZero => true
  | _ => false

end Value

/-- The conversions between doubles and strings. -/
structure Conversions where
  numberToString : ExtRat → List UInt16
  stringToNumber : List UInt16 → ExtRat

/-! ## Strings -/

/-- Compare strings unit by unit, and then by their lengths. -/
def compareChars : List UInt16 → List UInt16 → ℤ
  | a :: s1, b :: s2 =>
    let cmp : ℤ := a.toNat - b.toNat
    if cmp ≠ 0 then cmp else compareChars s1 s2
  | s1, s2 => s1.length - s2.length

/-- The digits of a number, from the last one on. -/
def backfillDigits : ℕ → ℕ → List UInt16
  | 0, _ => []
  | fuel + 1, n =>
    UInt16.ofNat (0x30 + n % 10) :: if n / 10 = 0 then [] else backfillDigits fuel (n / 10)

/-- An integer in decimal. -/
def int32ToString (i : Int32) : List UInt16 :=
  let digits := (backfillDigits 10 i.toInt.natAbs).reverse
  if i.toInt < 0 then 0x2D :: digits else digits

/-- The string of a value. -/
def valueToString (conv : Conversions) : Value → List UInt16
  | .undefined => [0x75, 0x6E, 0x64, 0x65, 0x66, 0x69, 0x6E, 0x65, 0x64]
  | .null => [0x6E, 0x75, 0x6C, 0x6C]
  | .boolean true => [0x74, 0x72, 0x75, 0x65]
  | .boolean false => [0x66, 0x61, 0x6C, 0x73, 0x65]
  | .int32 i => int32ToString i
  | .double d => conv.numberToString d
  | .negativeZero => [0x30]
  | .string chars => chars

/-- Compare values that are strings. -/
def sortComparatorStrings : Comparator Value
  | .string a, .string b => some (compareChars a b ≤ 0)
  | _, _ => none

/-! ## Integers by their digits -/

/-- Powers of ten, but for the last one. -/
def powersOf10 : List ℕ :=
  [1, 10, 100, 1000, 10000, 100000, 1000000, 10000000, 100000000, 1000000000, 1000000000000]

/-- The logarithm to base two, rounded up. -/
def ceilingLog2 (n : ℕ) : ℕ := if n ≤ 1 then 0 else Nat.log2 (n - 1) + 1

/-- The number of digits. -/
def numDigitsBase10 (n : ℕ) : Option ℕ := do
  let log2 := ceilingLog2 n
  let t := (log2 * 1233) >>> 12
  let power ← powersOf10[t]?
  some (t + 1 - if n < power then 1 else 0)

/-- A product of 64 bits, if it fits. -/
def mul64 (a b : ℕ) : Option ℕ := if a * b < 2 ^ 64 then some (a * b) else none

/-- Whether an integer is before another one, or the same, in the order of their strings. -/
def compareLexicographicInt32 (aint bint : Int32) : Option Bool :=
  if aint.toInt = bint.toInt then some true
  else if aint.toInt < 0 ∧ 0 ≤ bint.toInt then some true
  else if 0 ≤ aint.toInt ∧ bint.toInt < 0 then some false
  else do
    let auint := aint.toInt.natAbs
    let buint := bint.toInt.natAbs
    let digitsa ← numDigitsBase10 auint
    let digitsb ← numDigitsBase10 buint
    if digitsa = digitsb then some (auint ≤ buint)
    else if digitsb < digitsa then do
      let power ← powersOf10[digitsa - digitsb]?
      let scaled ← mul64 buint power
      some (auint < scaled)
    else do
      let power ← powersOf10[digitsb - digitsa]?
      let scaled ← mul64 auint power
      some (scaled ≤ buint)

/-- Compare values that are integers. -/
def sortComparatorLexicographicInt32 : Comparator Value
  | .int32 a, .int32 b => compareLexicographicInt32 a b
  | _, _ => none

/-! ## Sorting by keys -/

/-- A key, with the index of the element that it belongs to. -/
structure Keyed (K : Type) where
  key : K
  elementIndex : ℕ

variable {K V : Type}

/-- Move elements to their positions, one after the other, until one has to move to the current
position. -/
def cycleLoop (i : ℕ) : ℕ → ℕ → List ℕ → List V → Option (List ℕ × List V)
  | 0, _, _, _ => none
  | fuel + 1, j, indices, vec => do
    let k ← indices[j]?
    let indices := indices.set j j
    let v ← vec[k]?
    let _ ← vec[j]?
    let vec := vec.set j v
    if k ≠ i then cycleLoop i fuel k indices vec else some (indices, vec)

/-- Bring the right element to a position. It is asserted that it comes from behind. -/
def reorderStep (s : List ℕ × List V) (i : ℕ) : Option (List ℕ × List V) := do
  let (indices, vec) := s
  let j ← indices[i]?
  if i = j then some s
  else do
    guard (i < j)
    let tv ← vec[j]?
    let (indices, vec) ← cycleLoop i indices.length j indices vec
    some (indices, vec.set i tv)

/-- Bring elements to the positions that the keys have, in place. -/
def reorder (indices : List ℕ) (vec : List V) : Option (List V) := do
  let (_, vec) ← (List.range indices.length).foldlM reorderStep (indices, vec)
  some vec

/-- Sort the keys, and then the elements as the keys. -/
def mergeSortByKey (comparator : Comparator (Keyed K)) (keys : List (Keyed K)) (vec : List V) :
    Option (List V) := do
  let keys ← mergeSort comparator keys
  reorder (keys.map Keyed.elementIndex) vec

/-- The strings of values, one behind the other, and where each one is. -/
def stringifyElements (conv : Conversions) :
    List Value → ℕ → List UInt16 → List (Keyed (ℕ × ℕ)) × List UInt16
  | [], _, sb => ([], sb)
  | v :: rest, i, sb =>
    let cursor := sb.length
    let sb := sb ++ valueToString conv v
    let (elements, all) := stringifyElements conv rest (i + 1) sb
    (⟨(cursor, sb.length), i⟩ :: elements, all)

/-- Compare elements by their strings. -/
def sortComparatorStringifiedElements (sb : List UInt16) : Comparator (Keyed (ℕ × ℕ)) :=
  fun a b => do
    guard (a.key.2 ≤ sb.length ∧ b.key.2 ≤ sb.length)
    let sub (key : ℕ × ℕ) := (sb.drop key.1).take (key.2 - key.1)
    some (compareChars (sub a.key) (sub b.key) ≤ 0)

/-- Sort values as strings. -/
def sortLexicographically (conv : Conversions) (vec : List Value) : Option (List Value) :=
  let (strElements, sb) := stringifyElements conv vec 0 []
  mergeSortByKey (sortComparatorStringifiedElements sb) strElements vec

/-! ## Numbers -/

/-- The number of a value. -/
def toNumber (conv : Conversions) : Value → ExtRat
  | .undefined => .nan
  | .null => .finite 0
  | .boolean b => .finite (if b then 1 else 0)
  | .int32 i => .finite i.toInt
  | .double d => d
  | .negativeZero => .finite 0
  | .string chars => conv.stringToNumber chars

/-- Whether a double is less than another one, or the same. It is not if one of them is not a
number. -/
def lessOrEqual : ExtRat → ExtRat → Bool
  | .nan, _ => false
  | _, .nan => false
  | .negInf, _ => true
  | _, .posInf => true
  | .finite p, .finite q => p ≤ q
  | _, _ => false

/-- What a function for comparing is found to do. -/
inductive ComparatorMatchResult where
  | none
  | leftMinusRight
  | rightMinusLeft
deriving DecidableEq

/-- Comparing two numbers, as the function would by subtraction. -/
def sortComparatorNumerics : ComparatorMatchResult → Comparator (Keyed ExtRat)
  | .none => fun _ _ => Option.none
  | .leftMinusRight => fun a b => some (lessOrEqual a.key b.key)
  | .rightMinusLeft => fun a b => some (lessOrEqual b.key a.key)

/-- Comparing two integers. -/
def sortComparatorInt32s : ComparatorMatchResult → Comparator Value
  | .leftMinusRight => fun
    | .int32 a, .int32 b => some (a.toInt ≤ b.toInt)
    | _, _ => Option.none
  | .rightMinusLeft => fun
    | .int32 a, .int32 b => some (b.toInt ≤ a.toInt)
    | _, _ => Option.none
  | .none => fun _ _ => Option.none

/-- Sort values as numbers. -/
def sortNumerically (conv : Conversions) (vec : List Value) (comp : ComparatorMatchResult) :
    Option (List Value) :=
  let numElements := vec.zipIdx.map fun (v, i) => (⟨toNumber conv v, i⟩ : Keyed ExtRat)
  mergeSortByKey (sortComparatorNumerics comp) numElements vec

/-! ## Functions -/

/-- The instructions that are looked for. -/
def JSOP_GETARG : UInt8 := 84
def JSOP_SUB : UInt8 := 28
def JSOP_RETURN : UInt8 := 5

/-- The argument of an instruction, of two bytes. -/
def getArgno (code : List UInt8) (pc : ℕ) : Option ℕ := do
  let high ← code[pc + 1]?
  let low ← code[pc + 2]?
  some (high.toNat * 256 + low.toNat)

/-- Recognise a function that subtracts its arguments. -/
def matchNumericComparator (code : List UInt8) : Option ComparatorMatchResult := do
  let op ← code[0]?
  if op ≠ JSOP_GETARG then some .none
  else do
    let arg0 ← getArgno code 0
    let op ← code[3]?
    if op ≠ JSOP_GETARG then some .none
    else do
      let arg1 ← getArgno code 3
      let op ← code[6]?
      if op ≠ JSOP_SUB then some .none
      else do
        let op ← code[7]?
        if op ≠ JSOP_RETURN then some .none
        else if arg0 = 0 ∧ arg1 = 1 then some .leftMinusRight
        else if arg0 = 1 ∧ arg1 = 0 then some .rightMinusLeft
        else some .none

/-- Run a function, from an instruction on. -/
def interpret (conv : Conversions) (code : List UInt8) (args : List Value) :
    ℕ → ℕ → List Value → Option Value
  | 0, _, _ => none
  | fuel + 1, pc, stack => do
    let op ← code[pc]?
    if op = JSOP_GETARG then do
      let i ← getArgno code pc
      interpret conv code args fuel (pc + 3) (args.getD i .undefined :: stack)
    else if op = JSOP_SUB then
      match stack with
      | rval :: lval :: stack =>
        let res := ExtRat.sub (toNumber conv lval) (toNumber conv rval)
        interpret conv code args fuel (pc + 1) (.double res :: stack)
      | _ => none
    else if op = JSOP_RETURN then stack.head?
    else none

/-- Call a function to compare two values. -/
def sortComparatorFunction (conv : Conversions) (code : List UInt8) : Comparator Value :=
  fun a b => do
    guard (a ≠ .undefined ∧ b ≠ .undefined)
    let rval ← interpret conv code [a, b] (code.length + 1) 0 []
    let cmp := toNumber conv rval
    some (cmp = .nan || lessOrEqual cmp (.finite 0))

/-! ## The array -/

/-- An array: the value at each index, or a hole. -/
abbrev Elements := List (Option Value)

/-- The values that are sorted. -/
def definedValues (obj : Elements) : List Value := obj.filterMap fun
  | some .undefined => none
  | v => v

/-- The number of undefined values. -/
def countUndefs (obj : Elements) : ℕ := obj.count (some .undefined)

/-- Sort the values by a function that was given, without calling it if it is recognised. -/
def sortByFunction (conv : Conversions) (code : List UInt8) (vec : List Value) :
    Option (List Value) := do
  let comp ← matchNumericComparator code
  if comp ≠ .none then
    if vec.all Value.isInt32 then mergeSort (sortComparatorInt32s comp) vec
    else sortNumerically conv vec comp
  else mergeSort (sortComparatorFunction conv code) vec

/-- Sort the values by their strings. -/
def sortByDefault (conv : Conversions) (vec : List Value) : Option (List Value) :=
  if vec.all Value.isString then mergeSort sortComparatorStrings vec
  else if vec.all Value.isInt32 then mergeSort sortComparatorLexicographicInt32 vec
  else sortLexicographically conv vec

/-- Set the elements from an index on to undefined. -/
def setUndefs (obj : Elements) (n undefs : ℕ) : Elements :=
  (List.range undefs).foldl (fun obj k => obj.set (n + k) (some .undefined)) obj

/-- Make holes of the elements from the last one down to an index. -/
def deleteElements : ℕ → ℕ → Elements → Elements
  | 0, _, obj => obj
  | len + 1, n, obj => if n < len + 1 then deleteElements len n (obj.set len none) else obj

/-- Sort an array, by a function if one is given. -/
def array_sort (conv : Conversions) (fval : Option (List UInt8)) (obj : Elements) :
    Option Elements :=
  let len := obj.length
  if len < 2 then some obj
  else
    let vec := definedValues obj
    let undefs := countUndefs obj
    let n := vec.length
    if n = 0 ∧ undefs = 0 then some obj
    else do
      let vec ← match fval with
        | none => sortByDefault conv vec
        | some code => sortByFunction conv code vec
      let obj := vec.map some ++ obj.drop n
      let obj := setUndefs obj n undefs
      some (deleteElements len (n + undefs) obj)

end SpiderMonkey.Vm.ArraySort
