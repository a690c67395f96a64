import Mathlib
import SpiderMonkey.Lib.FiniteMap

/-!
# Maps that start out inline

A few entries are kept in an array and searched one after the other. An entry that is removed leaves a slot
with the key zero, which is not used again. When the array has no slot left, the entries move to a hash map.

The hash map is a parameter with what `js::HashMap` is documented to do. Its allocations may fail, each at
its own site. A failed assertion is a failure of the step here.
-/

namespace SpiderMonkey.Ds

open Lib

/-- A hash map: what its tables have, and what the operations make of it. Adding a key may fail for want of
memory; what is said here is about what it does if it does not, and if it does, the table stays as it was. -/
structure WordMap (K V : Type) [DecidableEq K] where
  Table : Type
  init : Table
  clear : Table → Table
  lookup : Table → K → Option V
  putNew : Table → K → V → Table
  assign : Table → K → V → Table
  remove : Table → K → Table
  count : Table → ℕ
  entries : Table → List (K × V)
  lookup_init : lookup init = fun _ => none
  lookup_clear : ∀ t, lookup (clear t) = fun _ => none
  lookup_putNew : ∀ t k v, lookup t k = none →
    lookup (putNew t k v) = Function.update (lookup t) k (some v)
  lookup_assign : ∀ t k v, lookup t k ≠ none →
    lookup (assign t k v) = Function.update (lookup t) k (some v)
  lookup_remove : ∀ t k, lookup t k ≠ none →
    lookup (remove t k) = Function.update (lookup t) k none
  lists : ∀ t, Lists (entries t) (lookup t)
  count_eq : ∀ t, count t = (entries t).length

/-- Where memory is allocated: when the hash map is made, when the entry of a slot is moved to it, and when
a new entry is added to it. -/
inductive AllocSite where
  | init
  | slot (i : ℕ)
  | add
  deriving DecidableEq, Repr

/-- An inline entry. -/
structure InlineElem (K V : Type) where
  key : K
  value : V

variable {K V : Type} [DecidableEq K] [Zero K]

/-- A map. The hash map is not initialized at first. -/
structure InlineMap (W : WordMap K V) (InlineElems : ℕ) where
  inlNext : ℕ
  inlCount : ℕ
  inl : Vector (InlineElem K V) InlineElems
  map : Option W.Table

namespace InlineMap

/-- What a lookup finds: an inline entry, or the entry of a key in the hash map. -/
inductive Ptr (K : Type) where
  | inline (p : Option ℕ)
  | map (key : K) (found : Bool)

/-- What a lookup for adding finds: an inline entry, or the slot to add to, or what the hash map says. -/
inductive AddPtr (K : Type) where
  | inline (p : ℕ) (found : Bool)
  | map (key : K) (found : Bool)

/-- `AddPtr::found`. -/
def AddPtr.found : AddPtr K → Bool
  | .inline _ found => found
  | .map _ found => found

/-- A range: inline entries from one slot to another, or what is left of the range of the hash map. -/
inductive Range (K V : Type) where
  | inline (cur stop : ℕ)
  | map (rest : List (K × V))

variable {W : WordMap K V} {InlineElems : ℕ}

/-- A map before anything is added. What the slots hold does not matter. -/
def start (inl : Vector (InlineElem K V) InlineElems) : InlineMap W InlineElems := ⟨0, 0, inl, none⟩

/-- The inline elements up to `inlNext`. -/
def used (m : InlineMap W InlineElems) : List (InlineElem K V) := m.inl.toList.take m.inlNext

/-- `usingMap`. -/
def usingMap (m : InlineMap W InlineElems) : Bool := InlineElems < m.inlNext

/-- The loop of `switchToMap`: from a slot on, entries are moved to the hash map. -/
def moveEntries (W : WordMap K V) (oom : AllocSite → Bool) :
    ℕ → List (InlineElem K V) → W.Table → Option (Bool × W.Table)
  | _, [], t => some (true, t)
  | i, e :: rest, t =>
    if e.key = 0 then moveEntries W oom (i + 1) rest t
    else if (W.lookup t e.key).isSome then none
    else if oom (.slot i) then some (false, t)
    else moveEntries W oom (i + 1) rest (W.putNew t e.key e.value)

/-- The table that `switchToMap` fills: the one there is, emptied, or a new one. -/
def tableToFill (m : InlineMap W InlineElems) (oom : AllocSite → Bool) : Option W.Table :=
  match m.map with
  | some t => some (W.clear t)
  | none => if oom .init then none else some W.init

/-- `switchToMap`. -/
def switchToMap (m : InlineMap W InlineElems) (oom : AllocSite → Bool) :
    Option (Bool × InlineMap W InlineElems) :=
  if m.inlNext ≠ InlineElems then none
  else
    match m.tableToFill oom with
    | none => some (false, m)
    | some t => do
      let (moved, t) ← moveEntries W oom 0 m.used t
      if !moved then some (false, { m with map := some t })
      else if W.count t ≠ m.inlCount then none
      else some (true, { m with map := some t, inlNext := InlineElems + 1 })

/-- `switchAndAdd`. -/
def switchAndAdd (m : InlineMap W InlineElems) (oom : AllocSite → Bool) (key : K) (value : V) :
    Option (Bool × InlineMap W InlineElems) := do
  let (switched, m) ← m.switchToMap oom
  if !switched then some (false, m)
  else do
    let t ← m.map
    if (W.lookup t key).isSome then none
    else if oom .add then some (false, m)
    else some (true, { m with map := some (W.putNew t key value) })

/-- `count`. -/
def count (m : InlineMap W InlineElems) : Option ℕ :=
  if m.usingMap then m.map.map W.count else some m.inlCount

/-- `empty`. -/
def empty (m : InlineMap W InlineElems) : Option Bool :=
  if m.usingMap then m.map.map fun t => decide (W.count t = 0) else some (decide (m.inlCount = 0))

/-- `clear`. The hash map stays as it is. -/
def clear (m : InlineMap W InlineElems) : InlineMap W InlineElems := { m with inlNext := 0, inlCount := 0 }

/-- `lookup`. -/
def lookup (m : InlineMap W InlineElems) (key : K) : Option (Ptr K) :=
  if m.usingMap then do
    let t ← m.map
    some (.map key (W.lookup t key).isSome)
  else some (.inline (m.used.findIdx? fun e => e.key = key))

/-- `Ptr::value`, where something was found. -/
def valueAt (m : InlineMap W InlineElems) : Ptr K → Option V
  | .inline (some i) => m.inl[i]?.map (·.value)
  | .inline none => none
  | .map _ false => none
  | .map key true => m.map.bind fun t => W.lookup t key

/-- `lookupForAdd`. -/
def lookupForAdd (m : InlineMap W InlineElems) (key : K) : Option (AddPtr K) :=
  if m.usingMap then do
    let t ← m.map
    some (.map key (W.lookup t key).isSome)
  else
    match m.used.findIdx? fun e => e.key = key with
    | some i => some (.inline i true)
    | none => some (.inline m.inlNext false)

/-- `AddPtr::value`, where something was found. -/
def addPtrValue (m : InlineMap W InlineElems) : AddPtr K → Option V
  | .inline i found => if found then m.inl[i]?.map (·.value) else none
  | .map key found => if found then m.map.bind fun t => W.lookup t key else none

/-- `add`. -/
def add (m : InlineMap W InlineElems) (oom : AllocSite → Bool) (p : AddPtr K) (key : K) (value : V) :
    Option (Bool × InlineMap W InlineElems) :=
  if p.found then none
  else
    match p with
    | .inline addPtr _ =>
      if addPtr ≠ m.inlNext then none
      else if addPtr = InlineElems then m.switchAndAdd oom key value
      else some (true,
        { m with
          inl := m.inl.setIfInBounds addPtr ⟨key, value⟩
          inlCount := m.inlCount + 1
          inlNext := m.inlNext + 1 })
    | .map _ _ => do
      let t ← m.map
      if oom .add then some (false, m)
      else some (true, { m with map := some (W.putNew t key value) })

/-- The assignment to the value that an `AddPtr` found. -/
def assign (m : InlineMap W InlineElems) (p : AddPtr K) (value : V) :
    Option (InlineMap W InlineElems) :=
  match p with
  | .inline i _ => do
    let e ← m.inl[i]?
    some { m with inl := m.inl.setIfInBounds i { e with value } }
  | .map key _ => do
    let t ← m.map
    some { m with map := some (W.assign t key value) }

/-- `put`. -/
def put (m : InlineMap W InlineElems) (oom : AllocSite → Bool) (key : K) (value : V) :
    Option (Bool × InlineMap W InlineElems) := do
  let p ← m.lookupForAdd key
  if p.found then do
    let m ← m.assign p value
    some (true, m)
  else m.add oom p key value

/-- `remove` of what a lookup found. -/
def removePtr (m : InlineMap W InlineElems) : Ptr K → Option (InlineMap W InlineElems)
  | .inline none => none
  | .inline (some i) => do
    let e ← m.inl[i]?
    if m.inlCount = 0 then none
    else if e.key = 0 then none
    else some { m with inl := m.inl.setIfInBounds i { e with key := 0 }, inlCount := m.inlCount - 1 }
  | .map key found => do
    let t ← m.map
    if !found then none
    else if !m.usingMap then none
    else some { m with map := some (W.remove t key) }

/-- `remove` of a key. -/
def remove (m : InlineMap W InlineElems) (key : K) : Option (InlineMap W InlineElems) := do
  let p ← m.lookup key
  match p with
  | .inline none => some m
  | .map _ false => some m
  | p => m.removePtr p

/-- `advancePastNulls`: the first slot from one on that is not a tombstone, or where the range stops. -/
def advancePastNulls (m : InlineMap W InlineElems) (stop : ℕ) : ℕ → ℕ → ℕ
  | 0, cur => cur
  | fuel + 1, cur =>
    if cur < stop ∧ (m.inl[cur]?.any fun e => e.key = 0) then m.advancePastNulls stop fuel (cur + 1)
    else cur

/-- `all`. -/
def all (m : InlineMap W InlineElems) : Option (Range K V) :=
  if m.usingMap then m.map.map fun t => .map (W.entries t)
  else some (.inline (m.advancePastNulls m.inlNext m.inlNext 0) m.inlNext)

/-- `Range::empty`. -/
def rangeEmpty : Range K V → Bool
  | .inline cur stop => cur = stop
  | .map rest => rest.isEmpty

/-- `Range::front`. -/
def front (m : InlineMap W InlineElems) : Range K V → Option (K × V)
  | .inline cur _ => m.inl[cur]?.map fun e => (e.key, e.value)
  | .map rest => rest.head?

/-- `Range::popFront`. -/
def popFront (m : InlineMap W InlineElems) : Range K V → Range K V
  | .inline cur stop => .inline (m.advancePastNulls stop (stop - (cur + 1)) (cur + 1)) stop
  | .map rest => .map rest.tail

/-- The entries of a range, read while it is not empty. -/
def readRange (m : InlineMap W InlineElems) : ℕ → Range K V → Option (List (K × V))
  | 0, _ => none
  | fuel + 1, r =>
    if rangeEmpty r then some []
    else do
      let e ← m.front r
      let rest ← m.readRange fuel (m.popFront r)
      some (e :: rest)

/-- What callers do with a map. -/
inductive Op (K V : Type) where
  | lookup (key : K)
  | add (key : K) (value : V)
  | put (key : K) (value : V)
  | remove (key : K)
  | clear
  | enumerate
  | count
  | empty

/-- The key that is asked about. -/
def Op.key? : Op K V → Option K
  | .lookup key | .add key _ | .put key _ | .remove key => some key
  | .clear | .enumerate | .count | .empty => none

/-- What callers see. -/
inductive Result (K V : Type) where
  | value (v : Option V)
  | added (ok : Bool)
  | entries (l : List (K × V))
  | count (n : ℕ)
  | flag (b : Bool)
  | done

/-- One operation. `lookupForAdd` and `add` are one step: what is found is read, and if nothing is, the entry
is added. -/
def step (m : InlineMap W InlineElems) (oom : AllocSite → Bool) :
    Op K V → Option (Result K V × InlineMap W InlineElems)
  | .lookup key => do
    let p ← m.lookup key
    some (.value (m.valueAt p), m)
  | .add key value => do
    let p ← m.lookupForAdd key
    if p.found then some (.value (m.addPtrValue p), m)
    else do
      let (ok, m) ← m.add oom p key value
      some (.added ok, m)
  | .put key value => do
    let (ok, m) ← m.put oom key value
    some (.added ok, m)
  | .remove key => do
    let m ← m.remove key
    some (.done, m)
  | .clear => some (.done, m.clear)
  | .enumerate => do
    let r ← m.all
    let fuel ← m.count
    let l ← m.readRange (fuel + 1) r
    some (.entries l, m)
  | .count => do
    let n ← m.count
    some (.count n, m)
  | .empty => do
    let b ← m.empty
    some (.flag b, m)

/-- A run, with what the allocator does at each step. -/
def run (m : InlineMap W InlineElems) :
    List (Op K V × (AllocSite → Bool)) → Option (List (Result K V) × InlineMap W InlineElems)
  | [] => some ([], m)
  | (op, oom) :: ops => do
    let (r, m) ← m.step oom op
    let (rs, m) ← m.run ops
    some (r :: rs, m)

end InlineMap

end SpiderMonkey.Ds
