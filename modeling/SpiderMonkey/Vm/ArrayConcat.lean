import Mathlib

/-!
# Concatenating arrays

`Array.prototype.concat` for arrays and values. An array is the properties it has under integers, of
which those up to the largest index are its elements; its length covers them. The running length is an
unsigned integer of 32 bits.

Whether there is room for dense elements, or for another property, is decided from outside, each time
anew. Getters, elements of prototypes, interrupts and running out of memory for the new array itself are
left out.
-/

namespace SpiderMonkey.Vm.ArrayConcat

variable {V : Type}

/-- The largest index. -/
def MAX_ARRAY_INDEX : ℕ := 4294967294

/-- An array: what it has under integers, all elements below its length. It is indexed if there is an
element that is not among the dense ones. -/
structure ArrayObject (V : Type) where
  length : UInt32
  lengthIsWritable : Bool
  isIndexed : Bool
  get : ℕ → Option V
  lt_length : ∀ k ≤ MAX_ARRAY_INDEX, (get k).isSome = true → k < length.toNat

/-- An array without elements. -/
def ArrayObject.empty : ArrayObject V where
  length := 0
  lengthIsWritable := true
  isIndexed := false
  get _ := none
  lt_length := nofun

/-- A copy of the elements of an array that is not indexed, of the same length. -/
def newDenseCopiedArray (aobj : ArrayObject V) : ArrayObject V where
  length := aobj.length
  lengthIsWritable := true
  isIndexed := false
  get k := if k ≤ MAX_ARRAY_INDEX then aobj.get k else none
  lt_length k hk h := by
    rw [if_pos hk] at h
    exact aobj.lt_length k hk h

/-- The length that covers an index besides what it covered. -/
def lengthWith (length index : UInt32) : UInt32 :=
  if index.toNat ≤ MAX_ARRAY_INDEX ∧ length ≤ index then index + 1 else length

/-- The length that covers an index is the larger one. -/
theorem toNat_lengthWith {length index : UInt32} (hindex : index.toNat ≤ MAX_ARRAY_INDEX) :
    (lengthWith length index).toNat = max length.toNat (index.toNat + 1) := by
  have hmax : MAX_ARRAY_INDEX = 4294967294 := rfl
  have hsucc : (index + 1).toNat = index.toNat + 1 := by
    rw [UInt32.toNat_add, UInt32.toNat_one, Nat.mod_eq_of_lt]
    omega
  rw [lengthWith]
  by_cases hle : length ≤ index
  · rw [if_pos ⟨hindex, hle⟩, hsucc, Nat.max_eq_right]
    have hle' := UInt32.le_iff_toNat_le.mp hle
    omega
  · rw [if_neg (fun h => hle h.2), Nat.max_eq_left]
    rw [UInt32.le_iff_toNat_le] at hle
    omega

/-- Put a property there. The length covers it if it is an element. -/
def ArrayObject.put (arr : ArrayObject V) (index : UInt32) (v : V) (indexed : Bool) :
    ArrayObject V where
  length := lengthWith arr.length index
  lengthIsWritable := arr.lengthIsWritable
  isIndexed := indexed
  get := Function.update arr.get index.toNat (some v)
  lt_length k hk h := by
    by_cases hkey : k = index.toNat
    · rw [toNat_lengthWith (hkey ▸ hk), hkey]
      omega
    · rw [Function.update_of_ne hkey] at h
      have hlt := arr.lt_length k hk h
      by_cases hindex : index.toNat ≤ MAX_ARRAY_INDEX
      · rw [toNat_lengthWith hindex]
        omega
      · rw [lengthWith, if_neg (fun hcover => hindex hcover.1)]
        exact hlt

/-- What comes of asking for room among the dense elements. -/
inductive EnsureDenseResult where
  | ED_OK
  | ED_FAILED
  | ED_SPARSE

/-- What is decided from outside: whether dense elements can grow, and whether there is room for another
property, after which the array may be indexed. -/
structure Room where
  extendDenseElements : EnsureDenseResult
  putProperty : Option Bool

/-- Ask for room for a dense element. -/
def ensureDenseElements (room : Room) (index : UInt32) : EnsureDenseResult :=
  if index + 1 = 0 then .ED_SPARSE else room.extendDenseElements

/-- Set a property by its name. -/
def setGeneric (room : Room) (arr : ArrayObject V) (index : UInt32) (v : V) :
    Option (ArrayObject V) :=
  if index.toNat ≤ MAX_ARRAY_INDEX ∧ arr.length ≤ index ∧ !arr.lengthIsWritable then none
  else do
    let indexed ← room.putProperty
    some (arr.put index v indexed)

/-- Set an element, or else a property. -/
def setArrayElement (room : Room) (arr : ArrayObject V) (index : UInt32) (v : V) :
    Option (ArrayObject V) :=
  if !arr.isIndexed then
    if arr.length ≤ index ∧ !arr.lengthIsWritable then none
    else match ensureDenseElements room index with
      | .ED_OK => some (arr.put index v false)
      | .ED_FAILED => none
      | .ED_SPARSE => setGeneric room arr index v
  else setGeneric room arr index v

/-- Set the length. Elements from there on are deleted. -/
def arraySetLength (arr : ArrayObject V) (newLen : UInt32) : Option (ArrayObject V) :=
  if !arr.lengthIsWritable then if newLen = arr.length then some arr else none
  else some {
    length := newLen
    lengthIsWritable := true
    isIndexed := arr.isIndexed
    get := fun k => if newLen.toNat ≤ k ∧ k < arr.length.toNat then none else arr.get k
    lt_length := by
      intro k hk h
      split_ifs at h with hrange
      · cases h
      · have hlt := arr.lt_length k hk h
        omega }

/-- What is concatenated. -/
inductive Item (V : Type) where
  | array (obj : ArrayObject V)
  | value (v : V)

/-- The state of the loops: the new array, and how often room was asked for. -/
structure State (V : Type) where
  narr : ArrayObject V
  steps : ℕ

/-- Set an element of the new array. -/
def State.setArrayElement (rooms : ℕ → Room) (s : State V) (index : UInt32) (v : V) :
    Option (State V) := do
  let narr ← ArrayConcat.setArrayElement (rooms s.steps) s.narr index v
  some ⟨narr, s.steps + 1⟩

/-- Copy an element of an array, unless it is a hole. -/
def concatSlot (rooms : ℕ → Room) (obj : ArrayObject V) (length : UInt32) (s : State V) (slot : ℕ) :
    Option (State V) :=
  match obj.get slot with
  | none => some s
  | some tmp => s.setArrayElement rooms (length + UInt32.ofNat slot) tmp

/-- Copy the elements of an array, or put a value behind what there is. -/
def concatItem (rooms : ℕ → Room) : State V × UInt32 → Item V → Option (State V × UInt32)
  | (s, length), .array obj => do
    let s ← (List.range obj.length.toNat).foldlM (concatSlot rooms obj length) s
    some (s, length + obj.length)
  | (s, length), .value v => do
    let s ← s.setArrayElement rooms length v
    some (s, length + 1)

/-- Concatenate an array and what else is given. -/
def array_concat (rooms : ℕ → Room) (aobj : ArrayObject V) (args : List (Item V)) :
    Option (ArrayObject V) :=
  if !aobj.isIndexed then
    let narr := newDenseCopiedArray aobj
    if args = [] then some narr
    else do
      let (s, length) ← args.foldlM (concatItem rooms) (⟨narr, 0⟩, aobj.length)
      arraySetLength s.narr length
  else do
    let (s, length) ← (Item.array aobj :: args).foldlM (concatItem rooms) (⟨.empty, 0⟩, 0)
    arraySetLength s.narr length

end SpiderMonkey.Vm.ArrayConcat
