import SpiderMonkey.Ds.Sort

/-!
# Merge sort in its two buffers

The merge sort as it works on the cells of the array and of the scratch buffer, which each have as many
cells as there are items. The comparator is a call of the program: it may change the program's state,
answer as it likes, and fail. A cell outside a buffer is a failure here, and so are an assertion that does
not hold and a loop that takes more steps than it is given.
-/

namespace SpiderMonkey.Ds.SortCells

open Ds.Sort (INS_SORT_LIMIT)

variable {T S : Type}

/-- Why a call does not return `true`. -/
inductive Failure where
  | comparator
  | outOfBounds
  | assertion
  | outOfFuel
  deriving DecidableEq

/-- A comparator: whether the first item may be before the second one, if it does not fail. -/
abbrev Comparator (T S : Type) := T → T → S → Option (Bool × S)

/-- Call the comparator. -/
def compare (c : Comparator T S) (a b : T) (s : S) : Except Failure (Bool × S) :=
  match c a b s with
  | some answer => .ok answer
  | none => .error .comparator

/-- Read a cell. -/
def read (vec : List T) (i : ℕ) : Except Failure T :=
  match vec[i]? with
  | some x => .ok x
  | none => .error .outOfBounds

/-- Write a cell. -/
def write (vec : List T) (i : ℕ) (x : T) : Except Failure (List T) :=
  if i < vec.length then .ok (vec.set i x) else .error .outOfBounds

/-- `CopyNonEmptyArray`, from `src[i]` on to `dst[k]` on. -/
def copyNonEmptyArray (src : List T) : ℕ → ℕ → ℕ → List T → Except Failure (List T)
  | _, _, 0, _ => .error .assertion
  | i, k, nelems + 1, dst => do
    let x ← read src i
    let dst ← write dst k x
    if nelems = 0 then .ok dst else copyNonEmptyArray src (i + 1) (k + 1) nelems dst

/-! ## Chunks -/

/-- Move the item at `j` down to its place. -/
def sinkLoop (c : Comparator T S) (lo : ℕ) : ℕ → List T → S → Except Failure (List T × S)
  | 0, _, _ => .error .outOfBounds
  | j + 1, array, s => do
    let tmp ← read array j
    let x ← read array (j + 1)
    let (lessOrEqual, s) ← compare c tmp x s
    if lessOrEqual then .ok (array, s)
    else do
      let array ← write array j x
      let array ← write array (j + 1) tmp
      if j = lo then .ok (array, s) else sinkLoop c lo j array s

/-- Sort a chunk by insertion, from the item at `i` on. -/
def insertLoop (c : Comparator T S) (lo hi : ℕ) : ℕ → ℕ → List T → S → Except Failure (List T × S)
  | 0, _, _, _ => .error .outOfFuel
  | fuel + 1, i, array, s =>
    if i = hi then .ok (array, s)
    else do
      let (array, s) ← sinkLoop c lo i array s
      insertLoop c lo hi fuel (i + 1) array s

/-- Sort the chunks, from the one at `lo` on. -/
def chunkLoop (c : Comparator T S) (nelems : ℕ) : ℕ → ℕ → List T → S → Except Failure (List T × S)
  | 0, _, _, _ => .error .outOfFuel
  | fuel + 1, lo, array, s =>
    if lo < nelems then do
      let hi := if lo + INS_SORT_LIMIT ≥ nelems then nelems else lo + INS_SORT_LIMIT
      let (array, s) ← insertLoop c lo hi (hi - lo) (lo + 1) array s
      chunkLoop c nelems fuel (lo + INS_SORT_LIMIT) array s
    else .ok (array, s)

/-! ## Runs -/

/-- The loop of `MergeArrayRuns` over the runs that are left at `a` and `b`. Gives the buffer and the
position in it, where the rest is that is copied, and its length. -/
def mergeLoop (c : Comparator T S) (src : List T) :
    ℕ → ℕ → ℕ → ℕ → ℕ → List T → S → Except Failure ((List T × ℕ × ℕ × ℕ) × S)
  | a, b, run1 + 1, run2 + 1, k, dst, s => do
    let x ← read src a
    let y ← read src b
    let (lessOrEqual, s) ← compare c x y s
    if lessOrEqual then do
      let dst ← write dst k x
      if run1 = 0 then .ok ((dst, k + 1, b, run1 + (run2 + 1)), s)
      else mergeLoop c src (a + 1) b run1 (run2 + 1) (k + 1) dst s
    else do
      let dst ← write dst k y
      if run2 = 0 then .ok ((dst, k + 1, a, run1 + 1 + run2), s)
      else mergeLoop c src a (b + 1) (run1 + 1) run2 (k + 1) dst s
  | _, _, _, _, _, _, _ => .error .assertion
termination_by _ _ run1 run2 => run1 + run2

/-- `MergeArrayRuns`, with the runs at `src[lo]` and the result at `dst[lo]`. -/
def mergeArrayRuns (c : Comparator T S) (src : List T) (lo run1 run2 : ℕ) (dst : List T) (s : S) :
    Except Failure (List T × S) :=
  if 1 ≤ run1 ∧ 1 ≤ run2 then do
    let x ← read src (lo + run1 - 1)
    let y ← read src (lo + run1)
    let (lessOrEqual, s) ← compare c x y s
    if lessOrEqual then do
      let dst ← copyNonEmptyArray src lo lo (run1 + run2) dst
      .ok (dst, s)
    else do
      let ((dst, k, i, rest), s) ← mergeLoop c src lo (lo + run1) run1 run2 lo dst s
      let dst ← copyNonEmptyArray src i k rest dst
      .ok (dst, s)
  else .error .assertion

/-- Merge runs from the one at `lo` on. -/
def passLoop (c : Comparator T S) (nelems run : ℕ) (vec1 : List T) :
    ℕ → ℕ → List T → S → Except Failure (List T × S)
  | 0, _, _, _ => .error .outOfFuel
  | fuel + 1, lo, vec2, s =>
    if lo < nelems then
      let hi := lo + run
      if hi ≥ nelems then do
        let vec2 ← copyNonEmptyArray vec1 lo lo (nelems - lo) vec2
        .ok (vec2, s)
      else do
        let run2 := if run ≤ nelems - hi then run else nelems - hi
        let (vec2, s) ← mergeArrayRuns c vec1 lo run run2 vec2 s
        passLoop c nelems run vec1 fuel (lo + 2 * run) vec2 s
    else .ok (vec2, s)

/-- The two buffers: which one the items are in, and whether that one is the array. -/
structure Buffers (T : Type) where
  vec1 : List T
  vec2 : List T
  inArray : Bool

/-- Merge runs until there is one. -/
def passesLoop (c : Comparator T S) (nelems : ℕ) :
    ℕ → ℕ → Buffers T → S → Except Failure (Buffers T × S)
  | 0, _, _, _ => .error .outOfFuel
  | fuel + 1, run, vecs, s =>
    if run < nelems then do
      let (vec2, s) ← passLoop c nelems run vecs.vec1 (nelems + 1) 0 vecs.vec2 s
      passesLoop c nelems fuel (run * 2) ⟨vec2, vecs.vec1, !vecs.inArray⟩ s
    else .ok (vecs, s)

/-- `MergeSort`: what is in the array when it returns `true`. -/
def mergeSort (c : Comparator T S) (array scratch : List T) (s : S) : Except Failure (List T × S) :=
  let nelems := array.length
  if nelems ≤ 1 then .ok (array, s)
  else do
    let (array, s) ← chunkLoop c nelems (nelems + 1) 0 array s
    let (vecs, s) ← passesLoop c nelems (nelems + 1) INS_SORT_LIMIT ⟨array, scratch, true⟩ s
    if vecs.inArray then .ok (vecs.vec1, s)
    else do
      let array ← copyNonEmptyArray vecs.vec1 0 0 nelems vecs.vec2
      .ok (array, s)

end SpiderMonkey.Ds.SortCells
