import Mathlib
import SpiderMonkey.Lib.NodeTree

/-!
# Splay trees

Binary search trees of nodes that point to their children and to their parent. A search moves the node it
ends at to the root. Removed nodes are kept in a list, linked through their left pointers, and used again.

Nodes are at addresses. A null pointer that is followed is a failure here, and so are an assertion that does
not hold and a loop that takes more steps than there are nodes. What the two sides of the tree have in
common is written once.
-/

namespace SpiderMonkey.Ds.Splay

open Lib

variable {T : Type}

/-- A node. -/
structure Node (T : Type) where
  item : T
  left : Option ℕ
  right : Option ℕ
  parent : Option ℕ

/-- The child of a node on a side. -/
def Node.child (n : Node T) : Side → Option ℕ
  | .left => n.left
  | .right => n.right

/-- Set the child of a node on a side. -/
def Node.setChild (n : Node T) (side : Side) (c : Option ℕ) : Node T :=
  match side with
  | .left => { n with left := c }
  | .right => { n with right := c }

/-- A tree: the nodes at their addresses, how many were allocated, the root, and the first of the nodes
that were removed. -/
structure SplayTree (T : Type) where
  nodes : ℕ → Option (Node T)
  allocated : ℕ
  root : Option ℕ
  freeList : Option ℕ

namespace SplayTree

/-- A tree before anything was inserted. -/
def empty : SplayTree T := ⟨fun _ => none, 0, none, none⟩

/-- Write a node at an address. -/
def put (t : SplayTree T) (id : ℕ) (n : Node T) : SplayTree T :=
  { t with nodes := Function.update t.nodes id (some n) }

/-- Change the node at an address. -/
def modify (t : SplayTree T) (id : ℕ) (f : Node T → Node T) : Option (SplayTree T) := do
  let n ← t.nodes id
  some (t.put id (f n))

/-- Set the parent of a node, if there is one. -/
def setParent (t : SplayTree T) (child : Option ℕ) (parent : Option ℕ) : Option (SplayTree T) :=
  match child with
  | none => some t
  | some child => t.modify child fun n => { n with parent := parent }

/-- `rotate`: a node becomes the parent of its parent. -/
def rotate (t : SplayTree T) (node : ℕ) : Option (SplayTree T) := do
  let n ← t.nodes node
  let parent ← n.parent
  let p ← t.nodes parent
  let side := if p.left = some node then Side.left else Side.right
  if p.child side ≠ some node then none
  else do
    -- the subtree between the two changes its parent
    let inner := n.child side.other
    let t ← t.modify parent (·.setChild side inner)
    let t ← t.setParent inner (some parent)
    let t ← t.modify node (·.setChild side.other (some parent))
    let p ← t.nodes parent
    let grandparent := p.parent
    let t ← t.modify node fun n => { n with parent := grandparent }
    let t ← t.modify parent fun p => { p with parent := some node }
    match grandparent with
    | some grandparent =>
      t.modify grandparent fun g =>
        if g.left = some parent then { g with left := some node } else { g with right := some node }
    | none => some { t with root := some node }

/-- The loop of `splay`. -/
def splayLoop (node : ℕ) : ℕ → SplayTree T → Option (SplayTree T)
  | 0, _ => none
  | fuel + 1, t =>
    if t.root = some node then some t
    else do
      let n ← t.nodes node
      let parent ← n.parent
      if t.root = some parent then do
        let t ← t.rotate node
        if t.root = some node then some t else none
      else do
        let p ← t.nodes parent
        let grandparent ← p.parent
        let g ← t.nodes grandparent
        if (p.left == some node) == (g.left == some parent) then do
          let t ← t.rotate parent
          let t ← t.rotate node
          splayLoop node fuel t
        else do
          let t ← t.rotate node
          let t ← t.rotate node
          splayLoop node fuel t

/-- `splay`. -/
def splay (t : SplayTree T) (node : ℕ) : Option (SplayTree T) := splayLoop node (t.allocated + 1) t

/-- `allocateNode`, which fails if the allocator does. -/
def allocateNode (t : SplayTree T) (v : T) (outOfMemory : Bool) : Option (Option (ℕ × SplayTree T)) :=
  match t.freeList with
  | some node => do
    let n ← t.nodes node
    some (some (node, { t with freeList := n.left }.put node ⟨v, none, none, none⟩))
  | none =>
    if outOfMemory then some none
    else
      some (some (t.allocated,
        { t with allocated := t.allocated + 1 }.put t.allocated ⟨v, none, none, none⟩))

/-- `freeNode`. -/
def freeNode (t : SplayTree T) (node : ℕ) : Option (SplayTree T) := do
  let t' ← t.modify node fun n => { n with left := t.freeList }
  some { t' with freeList := some node }

/-- Go to the last node on a side. -/
def lastLoop (t : SplayTree T) (side : Side) : ℕ → ℕ → Option ℕ
  | 0, _ => none
  | fuel + 1, node => do
    let n ← t.nodes node
    match n.child side with
    | some next => t.lastLoop side fuel next
    | none => some node

/-- What `remove` does when the root has a child on a side: the last node before the root is taken out,
and the root gets its item. -/
def replaceRoot (t : SplayTree T) (root child : ℕ) (side : Side) : Option (SplayTree T) := do
  let swap ← t.lastLoop side.other t.allocated child
  let s ← t.nodes swap
  let swapChild := s.child side
  let parent ← s.parent
  let t ← t.modify parent fun p =>
    if p.left = some swap then { p with left := swapChild } else { p with right := swapChild }
  let t ← t.setParent swapChild (some parent)
  let s ← t.nodes swap
  let t ← t.modify root fun r => { r with item := s.item }
  t.freeNode swap

/-- The loop of `forEachInner`, with the items it visits. -/
def forEachInner (t : SplayTree T) : ℕ → Option ℕ → Option (List T)
  | _, none => some []
  | 0, some _ => none
  | fuel + 1, some node => do
    let n ← t.nodes node
    let before ← t.forEachInner fuel n.left
    let after ← t.forEachInner fuel n.right
    some (before ++ n.item :: after)

/-- `forEach`. -/
def forEach (t : SplayTree T) : Option (List T) := t.forEachInner t.allocated t.root

variable [Ord T]

/-- The loop of `lookup`. -/
def lookupLoop (t : SplayTree T) (v : T) : ℕ → ℕ → Option ℕ
  | 0, _ => none
  | fuel + 1, node => do
    let n ← t.nodes node
    match compare v n.item with
    | .eq => some node
    | .lt =>
      match n.left with
      | some next => t.lookupLoop v fuel next
      | none => some node
    | .gt =>
      match n.right with
      | some next => t.lookupLoop v fuel next
      | none => some node

/-- `lookup`. -/
def lookup (t : SplayTree T) (v : T) : Option ℕ := do
  let root ← t.root
  t.lookupLoop v t.allocated root

/-- `contains`: the item that is found. -/
def contains (t : SplayTree T) (v : T) : Option (Option T × SplayTree T) :=
  if t.root = none then some (none, t)
  else do
    let last ← t.lookup v
    let t ← t.splay last
    let n ← t.nodes last
    some (if compare v n.item = .eq then some n.item else none, t)

/-- `insert`: whether it did. -/
def insert (t : SplayTree T) (v : T) (outOfMemory : Bool) : Option (Bool × SplayTree T) := do
  match ← t.allocateNode v outOfMemory with
  | none => some (false, t)
  | some (element, t) =>
    if t.root = none then some (true, { t with root := some element })
    else do
      let last ← t.lookup v
      let n ← t.nodes last
      let cmp := compare v n.item
      if cmp = .eq then none
      else do
        let side := if cmp = .lt then Side.left else Side.right
        if n.child side ≠ none then none
        else do
          let t ← t.modify last (·.setChild side (some element))
          let t ← t.modify element fun e => { e with parent := some last }
          let t ← t.splay element
          some (true, t)

/-- `remove`. -/
def remove (t : SplayTree T) (v : T) : Option (SplayTree T) := do
  let last ← t.lookup v
  let n ← t.nodes last
  if compare v n.item ≠ .eq then none
  else do
    let t ← t.splay last
    if t.root ≠ some last then none
    else do
      let r ← t.nodes last
      match r.left, r.right with
      | some child, _ => t.replaceRoot last child .left
      | none, some child => t.replaceRoot last child .right
      | none, none => do
        let t ← t.freeNode last
        some { t with root := none }

end SplayTree

end SpiderMonkey.Ds.Splay
