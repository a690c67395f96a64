import Mathlib
import SpiderMonkey.Lib.StableSort

/-!
# Merge sort

The merge sort of the engine: small chunks are sorted by insertion, and runs of twice the length are
merged until there is one. A comparator says whether an item may be before another one, or fails.
-/

namespace SpiderMonkey.Ds.Sort

variable {T : Type}

/-- A comparator: whether the first item may be before the second one, if it does not fail. -/
abbrev Comparator (T : Type) := T → T → Option Bool

/-- The length of the chunks that are sorted by insertion. -/
def INS_SORT_LIMIT : ℕ := 3

/-- Move an item to the front past those that it has to be before. What is before it is given from
the last item to the first, as is the result. -/
def sinkLoop (c : Comparator T) : List T → T → Option (List T)
  | [], x => some [x]
  | p :: before, x => do
    let lessOrEqual ← c p x
    if lessOrEqual then some (x :: p :: before)
    else do
      let before ← sinkLoop c before x
      some (p :: before)

/-- Sort a chunk by insertion. -/
def insertionSort (c : Comparator T) (chunk : List T) : Option (List T) := do
  let sorted ← chunk.foldlM (sinkLoop c) []
  some sorted.reverse

/-- Sort the chunks. -/
def sortChunks (c : Comparator T) : ℕ → List T → Option (List T)
  | 0, _ => none
  | fuel + 1, array =>
    if array.length = 0 then some []
    else do
      let chunk ← insertionSort c (array.take INS_SORT_LIMIT)
      let rest ← sortChunks c fuel (array.drop INS_SORT_LIMIT)
      some (chunk ++ rest)

/-- Take the items of two runs, until one of them is at its end. -/
def mergeLoop (c : Comparator T) : List T → List T → Option (List T)
  | [], run2 => some run2
  | a :: run1, [] => some (a :: run1)
  | a :: run1, b :: run2 => do
    let lessOrEqual ← c a b
    if lessOrEqual then do
      let rest ← mergeLoop c run1 (b :: run2)
      some (a :: rest)
    else do
      let rest ← mergeLoop c (a :: run1) run2
      some (b :: rest)
termination_by run1 run2 => run1.length + run2.length

/-- Merge two runs, unless they are in order already. It is asserted that there is something in both. -/
def mergeArrayRuns (c : Comparator T) (run1 run2 : List T) : Option (List T) := do
  let a ← run1.getLast?
  let b ← run2.head?
  let lessOrEqual ← c a b
  if lessOrEqual then some (run1 ++ run2) else mergeLoop c run1 run2

/-- Merge the runs of a length two by two. -/
def mergePass (c : Comparator T) (run : ℕ) : ℕ → List T → Option (List T)
  | 0, _ => none
  | fuel + 1, vec1 =>
    if vec1.length ≤ run then some vec1
    else do
      let merged ← mergeArrayRuns c (vec1.take run) ((vec1.drop run).take run)
      let rest ← mergePass c run fuel (vec1.drop (2 * run))
      some (merged ++ rest)

/-- Merge runs of a length, and then longer ones, until there is one run. -/
def mergePasses (c : Comparator T) : ℕ → ℕ → List T → Option (List T)
  | 0, _, _ => none
  | fuel + 1, run, vec1 =>
    if run < vec1.length then do
      let vec2 ← mergePass c run (vec1.length + 1) vec1
      mergePasses c fuel (run * 2) vec2
    else some vec1

/-- Sort the items of an array. -/
def mergeSort (c : Comparator T) (array : List T) : Option (List T) :=
  if array.length ≤ 1 then some array
  else do
    let vec1 ← sortChunks c (array.length + 1) array
    mergePasses c (array.length + 1) INS_SORT_LIMIT vec1

end SpiderMonkey.Ds.Sort
