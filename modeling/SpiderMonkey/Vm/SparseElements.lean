import Mathlib
import SpiderMonkey.Lib.BackLinked

/-!
# Dense and sparse elements

The elements of a native object are dense, or properties among its others. The properties are a lineage
of shapes that objects share, or a dictionary of the object's own: a list of shapes, the last property
first and an empty shape at the end, and a table that goes with the last property. Shapes are taken out
of a dictionary in place, and the last one is replaced by an equivalent one each time.

Allocations may fail, each time anew. What has no result is a failed assertion or a pointer to nothing.
The table is a map, the capacity of the elements and of the table are not rounded up, and shapes are not
collected. Base shapes are left out, but for the flag for indexed properties and who owns the table;
that fresh ones are needed and may not be there is not.
-/

namespace SpiderMonkey.Vm.SparseElements

open Lib

variable {V : Type}

/-! ## Objects -/

/-- The name of a property: an index, or anything else. -/
inductive PropId where
  | index (i : ℕ)
  | name (n : ℕ)
deriving DecidableEq

/-- A property that can be enumerated. -/
def JSPROP_ENUMERATE : ℕ := 0x01

/-- A property without a slot. -/
def JSPROP_SHARED : ℕ := 0x40

/-- No slot. -/
def SHAPE_INVALID_SLOT : ℕ := 2 ^ 24 - 1

/-- What a shape says of a property. The empty shape has no name. -/
structure Property where
  propid : Option PropId
  slot : ℕ
  attrs : ℕ
  hasDefaultGetter : Bool
  hasDefaultSetter : Bool
deriving DecidableEq

namespace Property

/-- Whether the shape is the empty one. -/
def isEmptyShape (p : Property) : Bool := p.propid.isNone

/-- Whether the property has a slot. -/
def hasSlot (p : Property) : Bool := p.attrs &&& JSPROP_SHARED = 0

end Property

/-- The index that a name is. -/
def js_IdIsIndex : Option PropId → Option ℕ
  | some (.index i) => some i
  | _ => none

/-- The shapes of an object's own: the list of them with `shape_` at its head, and the table with the
shape that owns it. -/
structure Dictionary where
  shapes : ℕ → Property
  list : Links ℕ
  table : PropId → Option ℕ
  owner : ℕ

/-- The properties of an object, from the last one on. -/
inductive Lineage where
  | tree (props : List Property)
  | dictionary (d : Dictionary)

/-- A native object. -/
structure NativeObject (V : Type) where
  lineage : Lineage
  nextShape : ℕ
  slots : ℕ → Option V
  slotSpan : ℕ
  dense : List (Option V)
  capacity : ℕ
  isIndexed : Bool
  extensible : Bool
  watched : Bool
  hadElementsAccess : Bool

/-- An object, and how often something was allocated. -/
structure State (V : Type) where
  obj : NativeObject V
  steps : ℕ

/-- An allocation happens. -/
def State.step (s : State V) : State V := { s with steps := s.steps + 1 }

/-! ## Dictionaries -/

namespace Dictionary

/-- The last property. -/
def lastProperty (d : Dictionary) : Option ℕ := d.list.head

/-- Take a shape out of the list. -/
def removeFromDictionary (d : Dictionary) (shape : ℕ) : Option Dictionary := do
  let last ← d.list.head
  guard (d.list.back last = some none)
  let list ← d.list.remove shape
  some { d with list }

/-- Put a shape into the list, at a place. -/
def initDictionaryShape (d : Dictionary) (shape : ℕ) (child : Property) (dictp : Option ℕ) :
    Dictionary :=
  { d with
    shapes := Function.update d.shapes shape child
    list := (d.list.setBack shape none).insert shape dictp }

/-- Hand the table over. -/
def handoffTableTo (d : Dictionary) (old shape : ℕ) : Option Dictionary :=
  if old = shape then some d
  else do
    guard (d.owner = old)
    some { d with owner := shape }

/-- Put a shape into the place of one that it is equivalent to. -/
def replaceWithNewEquivalentShape (d : Dictionary) (oldShape newShape : ℕ) : Option Dictionary := do
  guard (d.lastProperty = some d.owner)
  let old := d.shapes oldShape
  let listp ← d.list.back oldShape
  let d := d.initDictionaryShape newShape old listp
  guard (d.list.next newShape = some oldShape)
  let d ← d.removeFromDictionary oldShape
  let d ← if d.lastProperty = some newShape then d.handoffTableTo oldShape newShape else some d
  match old.propid with
  | none => some d
  | some id => some { d with table := Function.update d.table id (some newShape) }

/-- Take a property out, of which a shape is there, and replace the last one by a spare one. -/
def removeShape (d : Dictionary) (id : PropId) (shape spare : ℕ) : Option Dictionary := do
  let d := { d with table := Function.update d.table id none }
  let oldLastProp ← d.lastProperty
  let d ← d.removeFromDictionary shape
  let lastProp ← d.lastProperty
  let d ← d.handoffTableTo oldLastProp lastProp
  d.replaceWithNewEquivalentShape lastProp spare

/-- Add a shape as the last property. -/
def addShape (d : Dictionary) (id : PropId) (child : Property) (shape : ℕ) : Option Dictionary := do
  let d := d.initDictionaryShape shape child none
  let d := { d with table := Function.update d.table id (some shape) }
  let parent ← d.list.next shape
  d.handoffTableTo parent shape

end Dictionary

/-! ## Removing properties -/

/-- Remove a property of an object in dictionary mode. -/
def removeProperty (memory : ℕ → Bool) (s : State V) (id : PropId) : Option (Bool × State V) :=
  match s.obj.lineage with
  | .tree _ => none
  | .dictionary d => do
    guard (d.lastProperty = some d.owner)
    match d.table id with
    | none => some (true, s)
    | some shape =>
      let spare := s.obj.nextShape
      if !memory s.steps then some (false, s.step)
      else do
        let s := s.step
        let isLast := d.lastProperty = some shape
        if isLast ∧ (d.list.next shape).isNone then none
        else if isLast ∧ !memory s.steps then some (false, s.step)
        else do
          let p := d.shapes shape
          guard (p.hasSlot → p.slot < s.obj.slotSpan)
          let slots := if p.hasSlot then Function.update s.obj.slots p.slot none else s.obj.slots
          let d ← d.removeShape id shape spare
          some (true, { s.step with
            obj := { s.obj with lineage := .dictionary d, nextShape := spare + 1, slots } })

/-- The shapes that are cloned into a new list, and the last one of them. -/
structure Cloning where
  shapes : ℕ → Property
  list : Links ℕ
  nextShape : ℕ
  dictionaryShape : Option ℕ

/-- Clone a shape, to the end of the list. -/
def Cloning.clone (c : Cloning) (child : Property) : Cloning where
  shapes := Function.update c.shapes c.nextShape child
  list := (c.list.setBack c.nextShape none).insert c.nextShape c.dictionaryShape
  nextShape := c.nextShape + 1
  dictionaryShape := some c.nextShape

/-- Clone shapes, as long as they can be allocated. -/
def cloneShapes (memory : ℕ → Bool) : List Property → Cloning → ℕ → Option Cloning × ℕ
  | [], c, steps => (some c, steps)
  | child :: rest, c, steps =>
    if memory steps then cloneShapes memory rest (c.clone child) (steps + 1) else (none, steps + 1)

/-- A table of shapes, of which the youngest wins. -/
def hashify (shapes : ℕ → Property) (lineage : List ℕ) : PropId → Option ℕ :=
  lineage.foldl (fun table shape =>
    match (shapes shape).propid with
    | none => table
    | some id => if (table id).isNone then Function.update table id (some shape) else table)
    fun _ => none

/-- Make a dictionary of an object's shapes. -/
def toDictionaryMode (memory : ℕ → Bool) (s : State V) (props : List Property) :
    Option (Option Dictionary × State V) :=
  let first := s.obj.nextShape
  let c : Cloning := ⟨fun _ => ⟨none, SHAPE_INVALID_SLOT, 0, true, true⟩, ⟨none, fun _ => none,
    fun _ => none⟩, first, none⟩
  match cloneShapes memory props c s.steps with
  | (none, steps) => some (none, { s with steps })
  | (some c, steps) =>
    if !memory steps then some (none, { s with steps := steps + 1 })
    else do
      let root ← c.list.head
      let d : Dictionary := ⟨c.shapes, c.list, hashify c.shapes (List.range' first props.length), root⟩
      some (some d, ⟨{ s.obj with lineage := .dictionary d, nextShape := c.nextShape }, steps + 1⟩)

/-! ## Looking properties up -/

/-- A property as it is seen: its value, if it has one, and its attributes. -/
structure Own (V : Type) where
  value : Option V
  attrs : ℕ
  hasDefaultGetter : Bool
  hasDefaultSetter : Bool

/-- A dense element, as a property. -/
def denseOwn (dense : List (Option V)) : PropId → Option (Own V)
  | .index i => dense[i]?.join.map fun v => ⟨some v, JSPROP_ENUMERATE, true, true⟩
  | .name _ => none

/-- A property of a shape. -/
def shapeOwn (slots : ℕ → Option V) (p : Property) : Own V :=
  ⟨if p.hasSlot then slots p.slot else none, p.attrs, p.hasDefaultGetter, p.hasDefaultSetter⟩

/-- The first shape with a name. -/
def findProperty (props : List Property) (id : PropId) : Option Property :=
  props.find? fun p => p.propid = some id

/-- Search the shapes for a name. -/
def Lineage.search : Lineage → PropId → Option Property
  | .tree props, id => findProperty props id
  | .dictionary d, id => (d.table id).map d.shapes

/-- Look a property of an object's own up, among the dense elements first. -/
def NativeObject.getOwnProperty (obj : NativeObject V) (id : PropId) : Option (Own V) :=
  (denseOwn obj.dense id).or ((obj.lineage.search id).map (shapeOwn obj.slots))

/-! ## Adding properties -/

/-- The number of properties from which on an object is made a dictionary. -/
def maxHeight (obj : NativeObject V) : ℕ := if obj.hadElementsAccess then 128 else 512

/-- Add a property to a dictionary. -/
def addToDictionary (memory : ℕ → Bool) (s : State V) (d : Dictionary) (id : PropId)
    (child : Property) : Option (Bool × State V) :=
  -- a base shape, the shape, and slots
  if !memory s.steps then some (false, s.step)
  else if !memory (s.steps + 1) then some (false, s.step.step)
  else if s.obj.slotSpan ≤ child.slot ∧ !memory (s.steps + 2) then some (false, s.step.step.step)
  else do
    let shape := s.obj.nextShape
    let d ← d.addShape id child shape
    some (true, { s.step.step.step with
      obj := { s.obj with
        lineage := .dictionary d
        nextShape := shape + 1
        slotSpan := max s.obj.slotSpan (child.slot + 1)
        isIndexed := s.obj.isIndexed || (js_IdIsIndex id).isSome } })

/-- Add a property with a slot. -/
def addDataProperty (memory : ℕ → Bool) (s : State V) (id : PropId) (slot attrs : ℕ) :
    Option (Bool × State V) :=
  let child : Property := ⟨some id, slot, attrs, true, true⟩
  if !s.obj.extensible then some (false, s)
  else match s.obj.lineage with
    | .tree props => do
      let last ← props.head?
      let stableSlot := slot = SHAPE_INVALID_SLOT ∨ last.slot = SHAPE_INVALID_SLOT ∨
        slot = last.slot + 1
      if ¬stableSlot ∨ maxHeight s.obj ≤ props.length then do
        match ← toDictionaryMode memory s props with
        | (none, s) => some (false, s)
        | (some d, s) => addToDictionary memory s d id child
      -- a base shape, the shape, and slots
      else if !memory s.steps then some (false, s.step)
      else if !memory (s.steps + 1) then some (false, s.step.step)
      else if !memory (s.steps + 2) then some (false, s.step.step.step)
      else some (true, { s.step.step.step with
        obj := { s.obj with
          lineage := .tree (child :: props)
          slotSpan := max s.obj.slotSpan (slot + 1)
          isIndexed := s.obj.isIndexed || (js_IdIsIndex id).isSome } })
    | .dictionary d =>
      -- the table may have to grow
      if !memory s.steps then some (false, s.step) else addToDictionary memory s.step d id child

/-! ## Making elements sparse -/

/-- Set a dense element, or a hole. -/
def NativeObject.setDenseElement (obj : NativeObject V) (index : ℕ) (v : Option V) : NativeObject V :=
  { obj with dense := obj.dense.set index v }

/-- Make a property of a dense element. -/
def sparsifyDenseElement (memory : ℕ → Bool) (s : State V) (index : ℕ) : Option (Bool × State V) := do
  let element ← s.obj.dense[index]?
  let value ← element
  let slot := s.obj.slotSpan
  let s := { s with obj := s.obj.setDenseElement index none }
  let (ok, s) ← addDataProperty memory s (.index index) slot JSPROP_ENUMERATE
  if !ok then some (false, { s with obj := s.obj.setDenseElement index (some value) })
  else do
    guard (slot + 1 = s.obj.slotSpan)
    some (true,
      { s with obj := { s.obj with slots := Function.update s.obj.slots slot (some value) } })

/-- Make properties of dense elements, from an index on. -/
def sparsifyLoop (memory : ℕ → Bool) : ℕ → ℕ → State V → Option (Bool × State V)
  | 0, _, s => some (true, s)
  | n + 1, i, s => do
    let element ← s.obj.dense[i]?
    if element.isNone then sparsifyLoop memory n (i + 1) s
    else do
      let (ok, s) ← sparsifyDenseElement memory s i
      if !ok then some (false, s) else sparsifyLoop memory n (i + 1) s

/-- Make properties of all dense elements. -/
def sparsifyDenseElements (memory : ℕ → Bool) (s : State V) : Option (Bool × State V) := do
  let (ok, s) ← sparsifyLoop memory s.obj.dense.length 0 s
  if !ok then some (false, s)
  else some (true, { s with obj := { s.obj with dense := [], capacity := 0 } })

/-! ## Making elements dense -/

/-- What comes of making elements dense. -/
inductive EnsureDenseResult where
  | ED_OK
  | ED_FAILED
  | ED_SPARSE
deriving DecidableEq

/-- The limit for the number of elements. -/
def NELEMENTS_LIMIT : ℕ := 2 ^ 28

/-- One of so many elements has to be there. -/
def SPARSE_DENSITY_RATIO : ℕ := 8

/-- The least power of two that is not less. -/
def RoundUpPow2 (x : ℕ) : ℕ := 2 ^ Nat.clog 2 x

/-- Count the indexed properties, and how long dense elements would be, if all of them can be dense. -/
def countIndexed (d : Dictionary) : ℕ → ℕ → ℕ → ℕ → Option (Option (ℕ × ℕ))
  | 0, _, _, _ => none
  | fuel + 1, shape, numDenseElements, newInitializedLength =>
    let p := d.shapes shape
    if p.isEmptyShape then some (some (numDenseElements, newInitializedLength))
    else match js_IdIsIndex p.propid with
      | some index =>
        if p.attrs = JSPROP_ENUMERATE ∧ p.hasDefaultGetter ∧ p.hasDefaultSetter then do
          let shape ← d.list.next shape
          countIndexed d fuel shape (numDenseElements + 1) (max newInitializedLength (index + 1))
        else some none
      | none => do
        let shape ← d.list.next shape
        countIndexed d fuel shape numDenseElements newInitializedLength

/-- The last property and the shapes of an object in dictionary mode. -/
def NativeObject.dictionary? (obj : NativeObject V) : Option Dictionary :=
  match obj.lineage with
  | .tree _ => none
  | .dictionary d => some d

/-- Make dense elements of the indexed properties, from a shape on. The names that were come by are
given, too. -/
def densifyLoop (memory : ℕ → Bool) : ℕ → ℕ → State V → Option (Bool × State V × List PropId)
  | 0, _, _ => none
  | fuel + 1, shape, s => do
    let d ← s.obj.dictionary?
    let p := d.shapes shape
    match p.propid with
    | none => some (true, s, [])
    | some id =>
      match js_IdIsIndex p.propid with
      | some index =>
        let value ← s.obj.slots p.slot
        let parent ← d.list.next shape
        let (ok, s) ← removeProperty memory s id
        if !ok then some (false, s, [id])
        else do
          let d' ← s.obj.dictionary?
          let last ← d'.lastProperty
          let shape := if d.lastProperty ≠ some shape then parent else last
          guard (index < s.obj.dense.length)
          let s := { s with obj := s.obj.setDenseElement index (some value) }
          let (ok, s, visited) ← densifyLoop memory fuel shape s
          some (ok, s, id :: visited)
      | none =>
        let shape ← d.list.next shape
        let (ok, s, visited) ← densifyLoop memory fuel shape s
        some (ok, s, id :: visited)

/-- Grow the dense elements to a length, with holes. -/
def NativeObject.ensureDenseInitializedLength (obj : NativeObject V) (length : ℕ) : NativeObject V :=
  { obj with dense := obj.dense ++ List.replicate (length - obj.dense.length) none }

/-- Make dense elements of all indexed properties, if they are many enough. The names of the properties
that were come by are given, too. -/
def maybeDensifySparseElements (memory : ℕ → Bool) (s : State V) :
    Option (EnsureDenseResult × State V × List PropId) :=
  match s.obj.dictionary? with
  | none => some (.ED_SPARSE, s, [])
  | some d =>
    if s.obj.slotSpan ≠ RoundUpPow2 s.obj.slotSpan then some (.ED_SPARSE, s, [])
    else if !s.obj.extensible || s.obj.watched then some (.ED_SPARSE, s, [])
    else do
      let last ← d.lastProperty
      match ← countIndexed d (s.obj.nextShape + 1) last 0 0 with
      | none => some (.ED_SPARSE, s, [])
      | some (numDenseElements, newInitializedLength) =>
        if numDenseElements * SPARSE_DENSITY_RATIO % 2 ^ 32 < newInitializedLength then
          some (.ED_SPARSE, s, [])
        else if NELEMENTS_LIMIT ≤ newInitializedLength then some (.ED_SPARSE, s, [])
        else if s.obj.capacity < newInitializedLength ∧ !memory s.steps then
          some (.ED_FAILED, s.step, [])
        else do
          let s := if s.obj.capacity < newInitializedLength then s.step else s
          let obj := { s.obj with capacity := max s.obj.capacity newInitializedLength }
          let s : State V := { s with obj := obj.ensureDenseInitializedLength newInitializedLength }
          let (ok, s, visited) ← densifyLoop memory (s.obj.nextShape + 1) last s
          if !ok then some (.ED_FAILED, s, visited)
          else if !memory s.steps then some (.ED_FAILED, s.step, visited)
          else some (.ED_OK, { s.step with obj := { s.obj with isIndexed := false } }, visited)

end SpiderMonkey.Vm.SparseElements
