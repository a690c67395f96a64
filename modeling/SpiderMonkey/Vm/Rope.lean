import Mathlib
import SpiderMonkey.Lib.Segments

/-!
# Ropes

Strings with their fields as they lie in memory: a word of length and flags, and unions whose
members depend on the flags. A rope is flattened without a stack: nodes in progress have their fields
overwritten with links to parents and with visit states. Reading the wrong member of a union, or
characters outside a buffer, has no result.

A string is given by its address, and a pointer to characters by a buffer and an offset. Barriers of
the garbage collector are left out.
-/

namespace SpiderMonkey.Vm.Rope

open Segments

/-- A pointer to characters. -/
structure CharPtr where
  buf : ℕ
  offset : ℕ
  deriving DecidableEq

/-- The first union of a string. -/
inductive U1 where
  | chars (p : CharPtr)
  | left (str : ℕ)

/-- The second union of a string. -/
inductive U2 where
  | base (str : ℕ)
  | right (str : ℕ)
  | capacity (n : ℕ)
  | other

/-- A string. -/
structure JSString where
  lengthAndFlags : ℕ
  u1 : U1
  u2 : U2
  parent : ℕ

/-- Bits of the flags. -/
def lengthShift : ℕ := 4

/-- The bits of the flags. -/
def flagsMask : ℕ := 2 ^ lengthShift - 1

/-- The flags of a rope. -/
def ropeFlags : ℕ := 0

/-- The flags of a dependent string. -/
def dependentFlags : ℕ := 1

/-- The flags of an extensible string. -/
def extensibleFlags : ℕ := 2

/-- The greatest length of a string. -/
def maxLength : ℕ := 2 ^ (32 - lengthShift) - 1

/-- Put a length and flags in a word. -/
def buildLengthAndFlags (length flags : ℕ) : ℕ := (length <<< lengthShift) ||| flags

namespace JSString

/-- A string's length. -/
def length (s : JSString) : ℕ := s.lengthAndFlags >>> lengthShift

/-- A string's flags. -/
def flags (s : JSString) : ℕ := s.lengthAndFlags &&& flagsMask

/-- Whether a string is a rope. -/
def isRope (s : JSString) : Bool := s.flags = ropeFlags

/-- Whether a string is dependent. -/
def isDependent (s : JSString) : Bool := s.flags = dependentFlags

/-- Whether a string is extensible. -/
def isExtensible (s : JSString) : Bool := s.flags = extensibleFlags

end JSString

/-- All strings, and all buffers of characters. -/
structure Heap where
  strings : ℕ → JSString
  buffers : ℕ → List UInt16

namespace Heap

/-- Change a string. -/
def modify (h : Heap) (str : ℕ) (f : JSString → JSString) : Heap :=
  { h with strings := fun a => if a = str then f (h.strings str) else h.strings a }

/-- Set a buffer. -/
def setBuffer (h : Heap) (buf : ℕ) (cs : List UInt16) : Heap :=
  { h with buffers := fun b => if b = buf then cs else h.buffers b }

/-- Write characters. -/
def write (h : Heap) (pos : CharPtr) (cs : List UInt16) : Option Heap :=
  (overwrite (h.buffers pos.buf) pos.offset cs).map (h.setBuffer pos.buf)

/-- Copy characters. Source and destination must not overlap. -/
def podCopy (h : Heap) (pos src : CharPtr) (len : ℕ) : Option Heap := do
  let cs ← segment (h.buffers src.buf) src.offset len
  if src.buf = pos.buf ∧ pos.offset < src.offset + len ∧ src.offset < pos.offset + len then none
  else h.write pos cs

end Heap

/-- Where the traversal of a node is. -/
inductive Label where
  | firstVisitNode | visitRightChild | finishNode
  deriving DecidableEq

/-- A traversal of ropes: the heap, the node and what is to be done with it, and where the next
character goes. -/
structure Traversal where
  heap : Heap
  label : Label
  str : ℕ
  pos : CharPtr

/-- The rope that is flattened: its length, and the buffer for its characters. -/
structure Whole where
  root : ℕ
  length : ℕ
  chars : CharPtr
  capacity : ℕ

/-- Visit a child. A rope is visited before its parent goes on; what the parent's visit state is then
tells how. Characters of any other string are copied. -/
def visitChild (h : Heap) (str child progress : ℕ) (next : Label) (pos : CharPtr) : Option Traversal :=
  let s := h.strings child
  if s.isRope then
    let h := h.modify child fun s => { s with parent := str, lengthAndFlags := progress }
    some ⟨h, .firstVisitNode, child, pos⟩
  else
    match s.u1 with
    | .left _ => none
    | .chars chars => do
      let h ← h.podCopy pos chars s.length
      some ⟨h, next, str, ⟨pos.buf, pos.offset + s.length⟩⟩

/-- The visit state of a node that is its parent's left child. -/
def visitingLeft : ℕ := 0x200

/-- The visit state of a node that is its parent's right child. -/
def visitingRight : ℕ := 0x300

/-- Visit a node for the first time. -/
def firstVisitNode (t : Traversal) : Option Traversal :=
  match (t.heap.strings t.str).u1 with
  | .chars _ => none
  | .left left =>
    let h := t.heap.modify t.str fun s => { s with u1 := .chars t.pos }
    visitChild h t.str left visitingLeft .visitRightChild t.pos

/-- Visit a node's right child. -/
def visitRightChild (t : Traversal) : Option Traversal :=
  match (t.heap.strings t.str).u2 with
  | .right right => visitChild t.heap t.str right visitingRight .finishNode t.pos
  | _ => none

/-- Make the root an extensible string. -/
def finishRoot (w : Whole) (t : Traversal) : Option Heap :=
  if t.pos = ⟨w.chars.buf, w.chars.offset + w.length⟩ then do
    let h ← t.heap.write t.pos [0]
    some (h.modify w.root fun s =>
      { s with
        lengthAndFlags := buildLengthAndFlags w.length extensibleFlags
        u1 := .chars w.chars
        u2 := .capacity w.capacity })
  else none

/-- Make a node a dependent string, and go on with its parent. -/
def finishNode (w : Whole) (t : Traversal) : Option Traversal :=
  let s := t.heap.strings t.str
  match s.u1 with
  | .left _ => none
  | .chars chars =>
    if chars.buf = t.pos.buf ∧ chars.offset ≤ t.pos.offset then
      let h := t.heap.modify t.str fun s =>
        { s with
          lengthAndFlags := buildLengthAndFlags (t.pos.offset - chars.offset) dependentFlags
          u2 := .base w.root }
      if s.lengthAndFlags = visitingLeft then some ⟨h, .visitRightChild, s.parent, t.pos⟩
      else if s.lengthAndFlags = visitingRight then some ⟨h, .finishNode, s.parent, t.pos⟩
      else none
    else none

/-- Run a traversal. A number bounds the visits. -/
def traverse (w : Whole) : ℕ → Traversal → Option Heap
  | 0, _ => none
  | n + 1, t =>
    match t.label with
    | .firstVisitNode => (firstVisitNode t).bind (traverse w n)
    | .visitRightChild => (visitRightChild t).bind (traverse w n)
    | .finishNode =>
      if t.str = w.root then finishRoot w t else (finishNode w t).bind (traverse w n)

/-- Find the leftmost rope. -/
def findLeftMostRope (h : Heap) : ℕ → ℕ → Option ℕ
  | 0, _ => none
  | n + 1, rope =>
    match (h.strings rope).u1 with
    | .chars _ => none
    | .left left => if (h.strings left).isRope then findLeftMostRope h n left else some rope

/-- Simulate first visits from a node down to the leftmost rope. -/
def simulateFirstVisits (leftMostRope : ℕ) (chars : CharPtr) : ℕ → ℕ → Heap → Option Heap
  | 0, _, _ => none
  | n + 1, str, h =>
    if str = leftMostRope then some (h.modify str fun s => { s with u1 := .chars chars })
    else
      match (h.strings str).u1 with
      | .chars _ => none
      | .left child =>
        let h := h.modify str fun s => { s with u1 := .chars chars }
        let h := h.modify child fun s => { s with parent := str, lengthAndFlags := visitingLeft }
        simulateFirstVisits leftMostRope chars n child h

/-- The number of characters to allocate for a string: very large buffers grow by an eighth, others to
a power of two. -/
def allocLength (length : ℕ) : ℕ :=
  let numChars := length + 1
  if numChars > 1024 * 1024 then numChars + numChars / 8 else 2 ^ Nat.clog 2 numChars

/-- A buffer that is allocated. No string points into it. Its contents are arbitrary. -/
structure Allocation (h : Heap) (numChars : ℕ) where
  buf : ℕ
  content : List UInt16
  length_eq : content.length = numChars
  fresh : ∀ str chars, (h.strings str).u1 = .chars chars → chars.buf ≠ buf

/-- Flatten into the buffer of the leftmost string, which becomes dependent. -/
def flattenReusing (fuel : ℕ) (h : Heap) (root leftMostRope left : ℕ) (chars : CharPtr)
    (capacity : ℕ) : Option Heap := do
  let w : Whole := ⟨root, (h.strings root).length, chars, capacity⟩
  let h ← simulateFirstVisits leftMostRope chars fuel root h
  let bits := (h.strings left).lengthAndFlags
  let pos : CharPtr := ⟨chars.buf, chars.offset + (bits >>> lengthShift)⟩
  let h := h.modify left fun s =>
    { s with lengthAndFlags := bits ^^^ (extensibleFlags ||| dependentFlags), u2 := .base root }
  traverse w fuel ⟨h, .visitRightChild, leftMostRope, pos⟩

/-- Flatten into a fresh buffer. -/
def flattenFresh (fuel : ℕ) (h : Heap) (root : ℕ)
    (alloc : Option (Allocation h (allocLength (h.strings root).length))) : Option (Bool × Heap) :=
  match alloc with
  | none => some (false, h)
  | some a => do
    let length := (h.strings root).length
    let w : Whole := ⟨root, length, ⟨a.buf, 0⟩, allocLength length - 1⟩
    let h ← traverse w fuel ⟨h.setBuffer a.buf a.content, .firstVisitNode, root, ⟨a.buf, 0⟩⟩
    some (true, h)

/-- Flatten a rope: whether this succeeds, and the heap that results. A number bounds the runs of its
loops. -/
def flattenInternal (fuel : ℕ) (h : Heap) (root : ℕ)
    (alloc : Option (Allocation h (allocLength (h.strings root).length))) : Option (Bool × Heap) := do
  let leftMostRope ← findLeftMostRope h fuel root
  match (h.strings leftMostRope).u1 with
  | .chars _ => none
  | .left left =>
    let s := h.strings left
    match s.isExtensible, s.u1, s.u2 with
    | true, .chars chars, .capacity capacity =>
      if capacity ≥ (h.strings root).length then do
        let h ← flattenReusing fuel h root leftMostRope left chars capacity
        some (true, h)
      else flattenFresh fuel h root alloc
    | true, _, _ => none
    | false, _, _ => flattenFresh fuel h root alloc

/-- What is left of a copy of characters: nothing if memory ran out, else the buffer and where the
next character would go. -/
abbrev Copied := Option (List UInt16 × ℕ)

/-- Copy the characters of a string and of those on the stack. The stack may fail to grow. A number
bounds the visits. -/
def copyLoop (canGrow : ℕ → Bool) (h : Heap) :
    ℕ → ℕ → List ℕ → List UInt16 → ℕ → Option Copied
  | 0, _, _, _, _ => none
  | n + 1, str, nodeStack, out, pos =>
    let s := h.strings str
    if s.isRope then
      match s.u1, s.u2 with
      | .left left, .right right =>
        if canGrow nodeStack.length then copyLoop canGrow h n left (right :: nodeStack) out pos
        else some none
      | _, _ => none
    else
      match s.u1 with
      | .left _ => none
      | .chars chars => do
        let cs ← segment (h.buffers chars.buf) chars.offset s.length
        let out ← overwrite out pos cs
        match nodeStack with
        | [] => some (some (out, pos + s.length))
        | next :: nodeStack => copyLoop canGrow h n next nodeStack out (pos + s.length)

/-- Copy the characters of a rope into a buffer that is allocated, whose contents are arbitrary. The
heap is only read. -/
def copyNonPureCharsInternal (canGrow : ℕ → Bool) (fuel : ℕ) (h : Heap) (root : ℕ)
    (alloc : Option (List UInt16)) (nullTerminate : Bool) : Option (Option (List UInt16)) :=
  match alloc with
  | none => some none
  | some out => do
    let copied ← copyLoop canGrow h fuel root [] out 0
    match copied with
    | none => some none
    | some (out, pos) =>
      if pos = (h.strings root).length then
        if nullTerminate then do
          let out ← overwrite out pos [0]
          some (some out)
        else some (some out)
      else none

end SpiderMonkey.Vm.Rope
