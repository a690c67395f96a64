import SpiderMonkey.Vm.StructuredCloneReader

/-!
# Writing structured clones

The writer of structured clone data. It walks a graph of objects with stacks of its own, and numbers
objects when it first meets them; an object that it meets again is written as a reference. Any
operation that it relies on, such as to append to the output, may fail.

Objects are given by their addresses, and do not change while they are written. Security wrappers and
compartments are left out, and so is the clearing of the memory of objects at the end.
-/

namespace SpiderMonkey.Vm.StructuredClone

/-- What the writer relies on: whether each operation succeeds, whether there is a callback, and where
the contents of array buffers are. -/
structure WriteEnvironment where
  succeeds : ℕ → Bool
  hasCallback : Bool
  pointers : ℕ → UInt64

/-- The number of objects that the memory has room for. Its table has a greatest capacity, of which
three quarters are used. -/
def maxMemory : ℕ := 2 ^ 24 * 3 / 4

/-- The writer's state: the output, the objects whose properties are written with the numbers of
properties that are left, their keys, and the objects that were met, each at its number. Where objects
are written, and when ends of objects are, is recorded. -/
structure WriterState where
  out : List UInt64
  objs : List ℕ
  counts : List ℕ
  ids : List PropertyId
  memory : List ℕ
  ticks : ℕ
  starts : List (ℕ × ℕ)
  ends : List ℕ

/-- A part of the writer. It may fail. -/
def CloneWriter (A : Type) : Type := WriterState → Option A × WriterState

namespace CloneWriter

variable {A B : Type}

/-- Return a value. -/
protected def pure (a : A) : CloneWriter A := fun s => (some a, s)

/-- Write one thing after another. -/
protected def bind (x : CloneWriter A) (f : A → CloneWriter B) : CloneWriter B := fun s =>
  match x s with
  | (some a, s') => f a s'
  | (none, s') => (none, s')

instance : Monad CloneWriter where
  pure := CloneWriter.pure
  bind := CloneWriter.bind

/-- Fail. -/
def fail : CloneWriter A := fun s => (none, s)

/-- Go on if something fails. -/
def ignore (x : CloneWriter Unit) : CloneWriter Unit := fun s => (some (), (x s).2)

/-- The writer's state. -/
def get : CloneWriter WriterState := fun s => (some s, s)

/-- Change the writer's state. -/
def modify (f : WriterState → WriterState) : CloneWriter Unit := fun s => (some (), f s)

variable (env : WriteEnvironment)

/-- Do something that may fail. -/
def external : CloneWriter Unit := fun s =>
  let s' := { s with ticks := s.ticks + 1 }
  if env.succeeds s.ticks then (some (), s') else (none, s')

/-- Append words to the output. -/
def append (words : List UInt64) : CloneWriter Unit := do
  external env
  modify fun s => { s with out := s.out ++ words }

/-- Write a word. -/
def write (u : UInt64) : CloneWriter Unit := append env [u]

/-- Write a pair of a tag and data. -/
def writePair (tag data : UInt32) : CloneWriter Unit := write env (pairToUInt64 tag data)

/-- Write a number. -/
def writeDouble (d : UInt64) : CloneWriter Unit := write env (canonicalizeNaN d)

/-- Write bytes. -/
def writeBytes (bytes : List UInt8) : CloneWriter Unit :=
  if bytes.length = 0 then pure () else append env (wordsOfBytes bytes)

/-- Write characters. -/
def writeChars (chars : List UInt16) : CloneWriter Unit :=
  if chars.length = 0 then pure () else append env (wordsOfChars chars)

/-- Write a string. Getting its characters may fail. -/
def writeString (tag : UInt32) (chars : List UInt16) : CloneWriter Unit := do
  external env
  writePair env tag (UInt32.ofNat chars.length)
  writeChars env chars

/-- Write the key of a property. -/
def writeId : PropertyId → CloneWriter Unit
  | .index i => writePair env sctagIndex i
  | .name chars => writeString env sctagString chars

/-- Give an object the next number, if the memory has room. What is written next is the object. -/
def addToMemory (obj : ℕ) : CloneWriter Unit := do
  let s ← get
  if s.memory.length ≥ maxMemory then fail
  else do
    external env
    modify fun s => { s with
      memory := s.memory ++ [obj]
      starts := s.starts ++ [(obj, s.out.length)] }

/-- Write a reference to an object that was met, or give the object a number. -/
def startObject (obj : ℕ) : CloneWriter Bool := do
  let s ← get
  match s.memory.idxOf? obj with
  | some i => do
    writePair env sctagBackReferenceObject (UInt32.ofNat i)
    pure true
  | none => do
    addToMemory env obj
    if s.memory.length + 1 = 2 ^ 32 - 1 then fail else pure false

variable (heap : ℕ → Obj)

/-- Write a typed array. What writes its buffer is given. -/
def writeTypedArray (startWrite : Value → CloneWriter Unit) (obj : ℕ) : CloneWriter Unit :=
  match heap obj with
  | .typedArray type buffer byteOffset length => do
    writePair env sctagTypedArrayObject length
    write env type.toUInt64
    startWrite (.object buffer)
    write env byteOffset.toUInt64
  | _ => fail

/-- Write an array buffer. -/
def writeArrayBuffer (bytes : List UInt8) : CloneWriter Unit := do
  writePair env sctagArrayBufferObject (UInt32.ofNat bytes.length)
  writeBytes env bytes

/-- Write the header of a plain object or an array, whose properties are written later. -/
def traverseObject (obj : ℕ) (isArray : Bool) (props : List (PropertyId × Value)) :
    CloneWriter Unit := do
  external env
  modify fun s => { s with ids := props.map Prod.fst ++ s.ids }
  external env
  modify fun s => { s with objs := obj :: s.objs, counts := props.length :: s.counts }
  writePair env (if isArray then sctagArrayObject else sctagObjectObject) 0

/-- Write an item for a callback. -/
def writeHostItem (startWrite : Value → CloneWriter Unit) : HostItem → CloneWriter Unit
  | .pair tag data => writePair env tag data
  | .bytes bytes => writeBytes env bytes
  | .typedArray obj => writeTypedArray env heap startWrite obj

/-- Write items for a callback, in order. -/
def writeHostItems (startWrite : Value → CloneWriter Unit) : List HostItem → CloneWriter Unit
  | [] => pure ()
  | item :: items => do
    writeHostItem env heap startWrite item
    writeHostItems startWrite items

/-- Let a callback write an object: a first pair, then other items. -/
def writeHost (startWrite : Value → CloneWriter Unit) (tag data : UInt32) (items : List HostItem) :
    CloneWriter Unit :=
  if env.hasCallback then do
    writePair env tag data
    writeHostItems env heap startWrite items
    external env
  else fail

/-- Write an object that is met for the first time. -/
def writeObject (startWrite : Value → CloneWriter Unit) (obj : ℕ) : CloneWriter Unit :=
  match heap obj with
  | .regexp flags source => do
    writePair env sctagRegexpObject flags
    writeString env sctagString source
  | .date d => do
    writePair env sctagDateObject 0
    writeDouble env d
  | .typedArray _ _ _ _ => writeTypedArray env heap startWrite obj
  | .arrayBuffer bytes => writeArrayBuffer env bytes
  | .plain isArray props => traverseObject env obj isArray props
  | .booleanObject b => writePair env sctagBooleanObject (if b then 1 else 0)
  | .numberObject d => do
    writePair env sctagNumberObject 0
    writeDouble env d
  | .stringObject chars => writeString env sctagStringObject chars
  | .host tag data items => writeHost env heap startWrite tag data items

/-- Start to write a value. A number bounds how deep typed arrays are nested. -/
def startWrite : ℕ → Value → CloneWriter Unit
  | 0, _ => fail
  | n + 1, v =>
    match v with
    | .string chars => writeString env sctagString chars
    | .number d => writeDouble env d
    | .boolean b => writePair env sctagBoolean (if b then 1 else 0)
    | .null => writePair env sctagNull 0
    | .undefined => writePair env sctagUndefined 0
    | .object obj => do
      let backref ← startObject env obj
      if backref then pure () else writeObject env heap (startWrite n) obj

/-- The value of an object's property, if there is one with a key. -/
def propertyOf (obj : ℕ) (id : PropertyId) : Option Value :=
  match heap obj with
  | .plain _ props => (props.find? fun p => p.1 = id).map Prod.snd
  | _ => none

/-- Write properties until all objects have theirs. Numbers bound the runs of the loop, and how deep
typed arrays are nested. -/
def writeProperties (depth : ℕ) : ℕ → CloneWriter Unit
  | 0 => fail
  | n + 1 => do
    let s ← get
    match s.objs, s.counts, s.ids with
    | obj :: _, (count + 1) :: counts, id :: ids => do
      modify fun s => { s with counts := count :: counts, ids }
      external env
      match propertyOf heap obj id with
      | some v => do
        writeId env id
        external env
        startWrite env heap depth v
        writeProperties depth n
      | none => writeProperties depth n
    | _ :: objs, 0 :: counts, _ => do
      modify fun s => { s with ends := s.ends ++ [s.ticks] }
      ignore (writePair env sctagNull 0)
      modify fun s => { s with objs, counts }
      writeProperties depth n
    | [], [], _ => pure ()
    | _, _, _ => fail

/-- Write entries of the transfer map. Their pointers are filled in later. -/
def writeTransferEntries : List ℕ → CloneWriter Unit
  | [] => pure ()
  | obj :: rest => do
    addToMemory env obj
    writePair env sctagTransferMapEntry sctagTmUnfilled
    write env 0
    write env 0
    writeTransferEntries rest

/-- Write the transfer map, if anything is transferred. -/
def writeMap (transferables : List ℕ) : CloneWriter Unit :=
  if transferables = [] then pure ()
  else do
    writePair env sctagTransferMapHeader sctagTmUnread
    write env (UInt64.ofNat transferables.length)
    writeTransferEntries env transferables

/-- Steal the contents of buffers and fill in entries of the transfer map from a position on. -/
def stealContents : List ℕ → ℕ → CloneWriter Unit
  | [], _ => pure ()
  | obj :: rest, point => do
    external env
    modify fun s => { s with
      out := ((s.out.set point (pairToUInt64 sctagTransferMapEntry sctagTmAllocData)).set (point + 1)
        (env.pointers obj)).set (point + 2) 0 }
    stealContents rest (point + 3)

/-- The objects that are transferred: array buffers, without duplicates. -/
def parseTransferable : List Value → List ℕ → CloneWriter (List ℕ)
  | [], transferables => pure transferables
  | v :: rest, transferables => do
    external env
    match v with
    | .object obj =>
      match heap obj with
      | .arrayBuffer _ =>
        if obj ∈ transferables then fail
        else do
          external env
          parseTransferable rest (transferables ++ [obj])
      | _ => fail
    | _ => fail

/-- Write a value and the properties of all its objects, and transfer buffers. -/
def writeWithin (n : ℕ) (transferable : List Value) (v : Value) : CloneWriter Unit := do
  let transferables ← parseTransferable env heap transferable []
  writeMap env transferables
  startWrite env heap n v
  writeProperties env heap n n
  stealContents env transferables 2

/-- The state in which writing starts. -/
def initial : WriterState := ⟨[], [], [], [], [], 0, [], []⟩

/-- Write structured clone data. A number bounds the run. -/
def writeClone (n : ℕ) (transferable : List Value) (v : Value) : Option Unit × WriterState :=
  writeWithin env heap n transferable v initial

end CloneWriter

end SpiderMonkey.Vm.StructuredClone
