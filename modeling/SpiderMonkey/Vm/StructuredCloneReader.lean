import SpiderMonkey.Lib.Segments
import SpiderMonkey.Vm.StructuredCloneData
import SpiderMonkey.Vm.TransferMap

/-!
# Reading structured clones

The reader of structured clone data. It takes words of 64 bits from the input and makes objects; a
number of them lets it refer to objects that it has read. Operations of the engine that it relies on
succeed or fail as an environment says.

A machine with values of 64 bits and little-endian words is modelled. The trace records what is
read, copied and accepted, and the sites where a typed array is about to be read; nothing looks at
them.
-/

namespace SpiderMonkey.Vm.StructuredClone

open Segments

/-- What a callback reads after the first pair. -/
inductive HostShape where
  | pair
  | bytes (n : ℕ)
  | typedArray
  deriving DecidableEq

/-- What the reader relies on: whether each operation of the engine succeeds, what the callback reads
if there is one, given the first pair and the position after it, and what lies behind a pointer. -/
structure Environment where
  succeeds : ℕ → Bool
  readHost : Option (UInt32 → UInt32 → ℕ → List HostShape)
  contents : UInt64 → List UInt8

/-- Why reading stops: with an error, with an access that is not allowed, or because the bound on the
run is reached. -/
inductive Stop where
  | error (text : String)
  | fault
  | unfinished
  deriving DecidableEq

/-- What the reader does. -/
inductive Event where
  | input (point n : ℕ)
  | toObject (v : Value)
  | copy (copied byteLength : ℕ)
  | arrayType (word : UInt64)
  | byteOffset (word : UInt64) (length : UInt32) (size byteLength : ℕ)
  | object (point obj : ℕ)
  | backReference (i : UInt32) (v : Value)
  deriving DecidableEq

/-- Where a part of a typed array is about to be read: its type; its buffer, when there are these
objects to refer to; its offset, when this buffer was read; or a buffer of version 1. -/
inductive Site where
  | arrayType (point : ℕ)
  | buffer (point : ℕ) (allObjs : List Value)
  | byteOffset (point size : ℕ) (nelems : UInt32) (buffer : Option Obj)
  | v1Buffer (point : ℕ) (arrayType nelems : UInt32)

/-- The reader's state: the input, the position in it, the objects whose properties are read, all
objects that were read, and the heap. -/
structure ReaderState where
  words : List UInt64
  point : ℕ
  objs : List Value
  allObjs : List Value
  heap : List Obj
  ticks : ℕ
  trace : List Event
  sites : List Site

/-- A part of the reader. -/
def CloneReader (A : Type) : Type := ReaderState → Except Stop A × ReaderState

namespace CloneReader

variable {A B : Type}

/-- Return a value. -/
protected def pure (a : A) : CloneReader A := fun s => (.ok a, s)

/-- Read one thing after another. -/
protected def bind (x : CloneReader A) (f : A → CloneReader B) : CloneReader B := fun s =>
  match x s with
  | (.ok a, s') => f a s'
  | (.error e, s') => (.error e, s')

instance : Monad CloneReader where
  pure := CloneReader.pure
  bind := CloneReader.bind

/-- Stop. -/
def stop (e : Stop) : CloneReader A := fun s => (.error e, s)

/-- Report bad data. -/
def badData (text : String) : CloneReader A := stop (.error text)

/-- Record what is done. -/
def record (e : Event) : CloneReader Unit := fun s => (.ok (), { s with trace := s.trace ++ [e] })

/-- Record a site. -/
def visit (site : ReaderState → Site) : CloneReader Unit := fun s =>
  (.ok (), { s with sites := s.sites ++ [site s] })

/-- The position in the input. -/
def tell : CloneReader ℕ := fun s => (.ok s.point, s)

/-- Take an object out of a value. -/
def toObject (v : Value) : CloneReader ℕ := do
  record (.toObject v)
  match v with
  | .object obj => pure obj
  | _ => stop .fault

/-- Read a word. -/
def readWord : CloneReader UInt64 := fun s =>
  if s.point = s.words.length then badData "truncated" s
  else
    let s' := { s with point := s.point + 1, trace := s.trace ++ [.input s.point 1] }
    match s.words[s.point]? with
    | some u => (.ok u, s')
    | none => (.error .fault, s')

/-- Read a pair of a tag and data. -/
def readPair : CloneReader (UInt32 × UInt32) := do
  let u ← readWord
  pure (tagOf u, dataOf u)

/-- Read a number, with one value for all that are no numbers. -/
def readDouble : CloneReader UInt64 := do
  let u ← readWord
  pure (canonicalizeNaN u)

/-- Read the words of an array of elements. This fails if there are too many. -/
def readArray (size nelems : ℕ) : CloneReader (List UInt64) := fun s =>
  let perWord := 8 / size
  let nwords := howMany nelems perWord
  if nelems + (perWord - 1) ≥ 2 ^ 64 ∨ nwords > s.words.length - s.point then badData "truncated" s
  else
    let s' := { s with point := s.point + nwords, trace := s.trace ++ [.input s.point nwords] }
    match segment s.words s.point nwords with
    | some words => (.ok words, s')
    | none => (.error .fault, s')

/-- Read bytes. -/
def readBytes (nbytes : ℕ) : CloneReader (List UInt8) := do
  let words ← readArray 1 nbytes
  pure ((bytesOf words).take nbytes)

/-- Read characters. -/
def readChars (nchars : ℕ) : CloneReader (List UInt16) := do
  let words ← readArray 2 nchars
  pure ((charsOf words).take nchars)

/-- Look at the next pair. -/
def getPair : CloneReader (UInt32 × UInt32) := fun s =>
  if s.point = s.words.length then badData "truncated" s
  else
    match s.words[s.point]? with
    | some u => (.ok (tagOf u, dataOf u), { s with trace := s.trace ++ [.input s.point 1] })
    | none => (.error .fault, s)

/-- Write over the pair at a position. -/
def replacePair (point : ℕ) (tag data : UInt32) : CloneReader Unit := fun s =>
  (.ok (), { s with words := s.words.set point (pairToUInt64 tag data) })

/-- Append an object to the list of all objects, which others can refer to. -/
def pushObject (v : Value) : CloneReader Unit := fun s =>
  (.ok (), { s with allObjs := s.allObjs ++ [v] })

/-- The number of all objects. -/
def countObjects : CloneReader ℕ := fun s => (.ok s.allObjs.length, s)

/-- Set an object in the list of all objects. -/
def setObject (i : ℕ) (v : Value) : CloneReader Unit := fun s =>
  (.ok (), { s with allObjs := s.allObjs.set i v })

/-- The objects whose properties are read. -/
def openObjects : CloneReader (List Value) := fun s => (.ok s.objs, s)

/-- Set the objects whose properties are read. -/
def setOpenObjects (objs : List Value) : CloneReader Unit := fun s => (.ok (), { s with objs })

/-- The object at an address. -/
def getObj (obj : ℕ) : CloneReader (Option Obj) := fun s => (.ok s.heap[obj]?, s)

/-- The object that a value is, if it is one. -/
def objectAt (heap : List Obj) : Value → Option Obj
  | .object obj => heap[obj]?
  | _ => none

/-- Refer to an object that was read. -/
def readBackReference (data : UInt32) : CloneReader Value := fun s =>
  match s.allObjs[data.toNat]? with
  | none => badData "invalid back reference in input" s
  | some v => (.ok v, { s with trace := s.trace ++ [.backReference data v] })

variable (env : Environment)

/-- Let the engine do something. -/
def external : CloneReader Unit := fun s =>
  let s' := { s with ticks := s.ticks + 1 }
  if env.succeeds s.ticks then (.ok (), s') else (.error (.error "external"), s')

/-- Make an object. -/
def newObject (o : Obj) : CloneReader ℕ := do
  external env
  fun s => (.ok s.heap.length, { s with heap := s.heap ++ [o] })

/-- Append to the list of all objects. Memory may run out. -/
def appendObject (v : Value) : CloneReader Unit := do
  external env
  pushObject v

/-- Read a string. Memory is allocated for its characters and for the string. -/
def readString (nchars : UInt32) : CloneReader (List UInt16) :=
  if nchars.toNat > maxStringLength then badData "string length"
  else do
    external env
    let chars ← readChars nchars.toNat
    external env
    pure chars

/-- Read an array buffer. -/
def readArrayBuffer (nbytes : UInt32) : CloneReader Value := do
  let obj ← newObject env (.arrayBuffer (List.replicate nbytes.toNat 0))
  let bytes ← readBytes nbytes.toNat
  record (.copy nbytes.toNat nbytes.toNat)
  fun s => (.ok (.object obj), { s with heap := s.heap.set obj (.arrayBuffer bytes) })

/-- Read an array buffer of version 1. -/
def readV1ArrayBuffer (arrayType nelems : UInt32) : CloneReader Value := do
  let size := bytesPerTypedArrayElement arrayType
  let nbytes := nelems.toNat * size % 2 ^ 32
  let obj ← newObject env (.arrayBuffer (List.replicate nbytes 0))
  let words ← readArray size nelems.toNat
  record (.copy (nelems.toNat * size) nbytes)
  if nelems.toNat * size > nbytes then stop .fault
  else fun s =>
    (.ok (.object obj), { s with heap := s.heap.set obj (.arrayBuffer ((bytesOf words).take nbytes)) })

/-- The buffer of a typed array and the word of its offset. What reads the buffer is given. -/
def readBuffer (startRead : CloneReader Value) (arrayType nelems : UInt32) (v1Read : Bool) :
    CloneReader (Value × UInt64) :=
  if v1Read then do
    visit fun s => .v1Buffer s.point arrayType nelems
    let v ← readV1ArrayBuffer env arrayType nelems
    pure (v, 0)
  else do
    visit fun s => .buffer s.point s.allObjs
    let v ← startRead
    visit fun s => .byteOffset s.point (bytesPerTypedArrayElement arrayType) nelems
      (objectAt s.heap v)
    let n ← readWord
    pure (v, n)

/-- Make a typed array. -/
def newTypedArray (arrayType : UInt32) (buffer : ℕ) (word : UInt64) (nelems : UInt32) :
    CloneReader ℕ := do
  let o ← getObj buffer
  match o with
  | some (.arrayBuffer bytes) =>
    let size := bytesPerTypedArrayElement arrayType
    match fromBuffer size bytes.length word.toUInt32 nelems with
    | none => badData "typed array arguments"
    | some len => do
      let obj ← newObject env (.typedArray arrayType buffer word.toUInt32 len)
      record (.byteOffset word len size bytes.length)
      pure obj
  | _ => badData "typed array arguments"

/-- Read a typed array. A placeholder stands for it until its buffer is read. -/
def readTypedArray (startRead : CloneReader Value) (point : ℕ) (arrayType nelems : UInt32)
    (v1Read : Bool) : CloneReader Value :=
  if arrayType > typeUint8Clamped then badData "unhandled typed array element type"
  else do
    let placeholderIndex ← countObjects
    appendObject env .null
    let (v, word) ← readBuffer env startRead arrayType nelems v1Read
    let buffer ← toObject v
    let obj ← newTypedArray env arrayType buffer word nelems
    record (.object point obj)
    setObject placeholderIndex (.object obj)
    pure (.object obj)

/-- Read the type of a typed array. Only its lower half is passed on, and accepted if it is a type. -/
def readArrayType : CloneReader UInt64 := do
  visit fun s => .arrayType s.point
  let word ← readWord
  if word.toUInt32 > typeUint8Clamped then pure word
  else do
    record (.arrayType word)
    pure word

/-- Read a typed array for a callback. -/
def jsReadTypedArray (startRead : CloneReader Value) : CloneReader Value := do
  let point ← tell
  let (tag, nelems) ← readPair
  if sctagTypedArrayV1Min ≤ tag ∧ tag ≤ sctagTypedArrayV1Max then
    readTypedArray env startRead point (tag - sctagTypedArrayV1Min) nelems true
  else if tag = sctagTypedArrayObject then do
    let arrayType ← readArrayType
    readTypedArray env startRead point arrayType.toUInt32 nelems false
  else badData "expected type array"

/-- Read an item for a callback. -/
def readHostItem (startRead : CloneReader Value) : HostShape → CloneReader HostItem
  | .pair => do
    let (tag, data) ← readPair
    pure (.pair tag data)
  | .bytes n => do
    let bytes ← readBytes n
    pure (.bytes bytes)
  | .typedArray => do
    let v ← jsReadTypedArray env startRead
    let obj ← toObject v
    pure (.typedArray obj)

/-- Read items for a callback, in order. -/
def readHostItems (startRead : CloneReader Value) : List HostShape → CloneReader (List HostItem)
  | [] => pure []
  | shape :: shapes => do
    let item ← readHostItem env startRead shape
    let items ← readHostItems startRead shapes
    pure (item :: items)

/-- Let a callback read an object. -/
def readHost (startRead : CloneReader Value) (tag data : UInt32) : CloneReader Value :=
  match env.readHost with
  | none => badData "unsupported type"
  | some shapes => do
    let point ← tell
    let items ← readHostItems env startRead (shapes tag data point)
    let obj ← newObject env (.host tag data items)
    pure (.object obj)

/-- Read a date. -/
def readDate : CloneReader Value := do
  let d ← readDouble
  if ¬ checkDouble d then badData "unrecognized NaN"
  else if ¬ isNaN d ∧ ¬ isTimeClipped d then badData "date"
  else do
    let obj ← newObject env (.date d)
    pure (.object obj)

/-- Read a regular expression. -/
def readRegExp (flags : UInt32) : CloneReader Value := do
  let (tag, nchars) ← readPair
  if tag ≠ sctagString then badData "regexp"
  else do
    let source ← readString env nchars
    external env
    let obj ← newObject env (.regexp flags source)
    pure (.object obj)

/-- Start to read a plain object or an array. Its properties are read later. -/
def readPlain (isArray : Bool) : CloneReader Value := do
  let obj ← newObject env (.plain isArray [])
  external env
  let objs ← openObjects
  setOpenObjects (.object obj :: objs)
  pure (.object obj)

/-- Read a value other than a typed array or a reference. -/
def readValue (startRead : CloneReader Value) (tag data : UInt32) : CloneReader Value :=
  if tag = sctagNull then pure .null
  else if tag = sctagUndefined then pure .undefined
  else if tag = sctagBoolean then pure (.boolean (data ≠ 0))
  else if tag = sctagBooleanObject then do
    let obj ← newObject env (.booleanObject (data ≠ 0))
    pure (.object obj)
  else if tag = sctagString then do
    let chars ← readString env data
    pure (.string chars)
  else if tag = sctagStringObject then do
    let chars ← readString env data
    let obj ← newObject env (.stringObject chars)
    pure (.object obj)
  else if tag = sctagNumberObject then do
    let d ← readDouble
    if ¬ checkDouble d then badData "unrecognized NaN"
    else do
      let obj ← newObject env (.numberObject d)
      pure (.object obj)
  else if tag = sctagDateObject then readDate env
  else if tag = sctagRegexpObject then readRegExp env data
  else if tag = sctagArrayObject then readPlain env true
  else if tag = sctagObjectObject then readPlain env false
  else if tag = sctagTransferMapHeader then badData "invalid input"
  else if tag = sctagTransferMapEntry then badData "invalid input"
  else if tag = sctagArrayBufferObject then readArrayBuffer env data
  else if tag ≤ sctagFloatMax then
    let d := pairToUInt64 tag data
    if ¬ checkDouble d then badData "unrecognized NaN" else pure (.number d)
  else readHost env startRead tag data

/-- Append a value to the list of all objects if it is one. -/
def appendIfObject (point : ℕ) (v : Value) : CloneReader Value :=
  match v with
  | .object obj => do
    appendObject env (.object obj)
    record (.object point obj)
    pure v
  | _ => pure v

/-- Start to read a value. A number bounds how deep typed arrays are nested. -/
def startRead : ℕ → CloneReader Value
  | 0 => stop .unfinished
  | n + 1 => do
    let point ← tell
    let (tag, data) ← readPair
    if tag = sctagBackReferenceObject then readBackReference data
    else if tag = sctagTypedArrayObject then do
      let arrayType ← readArrayType
      readTypedArray env (startRead n) point arrayType.toUInt32 data false
    else if sctagTypedArrayV1Min ≤ tag ∧ tag ≤ sctagTypedArrayV1Max then
      readTypedArray env (startRead n) point (tag - sctagTypedArrayV1Min) data true
    else do
      let v ← readValue env (startRead n) tag data
      appendIfObject env point v

/-- Read the key of a property, or null. -/
def readId : CloneReader (Option PropertyId) := do
  let (tag, data) ← readPair
  if tag = sctagIndex then pure (some (.index data))
  else if tag = sctagString then do
    let chars ← readString env data
    external env
    pure (some (.name chars))
  else if tag = sctagNull then pure none
  else badData "id"

/-- Define a property of an object: a new one is its last. -/
def defineProperty (props : List (PropertyId × Value)) (id : PropertyId) (v : Value) :
    List (PropertyId × Value) :=
  if id ∈ props.map Prod.fst then props.map fun p => if p.1 = id then (id, v) else p
  else props ++ [(id, v)]

/-- Define a property of an object on the heap. -/
def defineGeneric (obj : ℕ) (id : PropertyId) (v : Value) : CloneReader Unit := do
  external env
  let o ← getObj obj
  match o with
  | some (.plain isArray props) => fun s =>
    (.ok (), { s with heap := s.heap.set obj (.plain isArray (defineProperty props id v)) })
  | _ => pure ()

/-- Read properties until all objects have theirs. A number bounds the runs of the loop, another how
deep typed arrays are nested. -/
def readProperties (depth : ℕ) : ℕ → CloneReader Unit
  | 0 => stop .unfinished
  | n + 1 => do
    let objs ← openObjects
    match objs with
    | [] => pure ()
    | top :: rest => do
      let obj ← toObject top
      let id ← readId env
      match id with
      | none => do
        setOpenObjects rest
        readProperties depth n
      | some id => do
        let v ← startRead env depth
        defineGeneric env obj id v
        readProperties depth n

/-- Read entries of the transfer map. -/
def readTransferEntries : ℕ → CloneReader Unit
  | 0 => pure ()
  | n + 1 => do
    let pos ← tell
    let _ ← readPair
    let content ← readWord
    let _ ← readWord
    let obj ← newObject env (.arrayBuffer (env.contents content))
    replacePair pos sctagTransferMapEntry sctagTmUnowned
    appendObject env (.object obj)
    record (.object pos obj)
    readTransferEntries n

/-- Read the transfer map, if there is one that has not been read. -/
def readMap : CloneReader Unit := do
  let headerPos ← tell
  let (tag, data) ← getPair
  if tag ≠ sctagTransferMapHeader ∨ data = sctagTmTransferred then pure ()
  else do
    let _ ← readPair
    let numTransferables ← readWord
    readTransferEntries env numTransferables.toNat
    replacePair headerPos sctagTransferMapHeader sctagTmTransferred

/-- Read a value and the properties of all its objects. -/
def readWithin (n : ℕ) : CloneReader Value := do
  readMap env
  let v ← startRead env n
  readProperties env n n
  fun s => (.ok v, { s with allObjs := [] })

/-- The state in which reading starts. -/
def initial (words : List UInt64) : ReaderState := ⟨words, 0, [], [], [], 0, [], []⟩

/-- Read structured clone data. Each value and each property takes a word at least. -/
def read (words : List UInt64) : Except Stop Value × ReaderState :=
  readWithin env (words.length + 1) (initial words)

end CloneReader

end SpiderMonkey.Vm.StructuredClone
