import Mathlib
import SpiderMonkey.Vm.Rope
import SpiderMonkey.Vm.StringMatch

/-!
# Replacing a string pattern

The part of `String.prototype.replace` for patterns that are strings. The text may be a rope, which is
searched and copied leaf by leaf. A rope whose leaves are too small for that is flattened first, which
the code that comes after sees. There is no result when the string would be too long. Running out of
memory is left out, but for the list of leaves, where the text is flattened instead.
-/

namespace SpiderMonkey.Vm.StringReplace

open StringMatch
open Rope (maxLength)

/-- A string: linear, or a rope of two. -/
inductive JSString where
  | linear (chars : List UInt16)
  | rope (leftChild rightChild : JSString)
deriving DecidableEq

namespace JSString

/-- The characters of a string. -/
def chars : JSString → List UInt16
  | linear chars => chars
  | rope leftChild rightChild => leftChild.chars ++ rightChild.chars

/-- The length of a string. -/
def length (str : JSString) : ℕ := str.chars.length

/-- Whether a string is a rope. -/
def isRope : JSString → Bool
  | linear _ => false
  | rope _ _ => true

/-- The number of nodes of a string. -/
def size : JSString → ℕ
  | linear _ => 1
  | rope leftChild rightChild => leftChild.size + rightChild.size + 1

end JSString

/-- The length of the longest string that is kept in its cell. -/
def maxShortLength : ℕ := 19

/-- Join two strings. -/
def concatStrings (left right : JSString) : Option JSString :=
  if left.length = 0 then some right
  else if right.length = 0 then some left
  else if maxLength < left.length + right.length then none
  else if left.length + right.length ≤ maxShortLength then some (.linear (left.chars ++ right.chars))
  else some (.rope left right)

/-- A part of a string. -/
def newDependentString (base : JSString) (start length : ℕ) : JSString :=
  .linear ((base.chars.drop start).take length)

/-- The leaves of a rope, in order: the leaf at the front, and what is right of it. -/
structure StringSegmentRange where
  stack : List JSString
  cur : Option (List UInt16)

namespace StringSegmentRange

/-- Go down to the leftmost leaf. -/
def settle : JSString → List JSString → StringSegmentRange
  | .linear chars, stack => ⟨stack, some chars⟩
  | .rope leftChild rightChild, stack => settle leftChild (rightChild :: stack)

/-- Start at the first leaf. -/
def init (str : JSString) : StringSegmentRange := settle str []

/-- Go to the next leaf. -/
def popFront (r : StringSegmentRange) : StringSegmentRange :=
  match r.stack with
  | [] => ⟨[], none⟩
  | str :: stack => settle str stack

/-- The number of nodes still to come. -/
def size (r : StringSegmentRange) : ℕ :=
  (r.stack.map JSString.size).sum + if r.cur.isSome then 1 else 0

/-- Going down leaves fewer nodes. -/
theorem size_settle (str : JSString) (stack : List JSString) :
    (settle str stack).size ≤ str.size + (stack.map JSString.size).sum := by
  induction str generalizing stack with
  | linear chars =>
    rw [settle, size, JSString.size, Option.isSome_some, if_pos rfl]
    dsimp only
    omega
  | rope leftChild rightChild ihl _ =>
    have hle := ihl (rightChild :: stack)
    rw [List.map_cons, List.sum_cons] at hle
    rw [settle, JSString.size]
    omega

/-- The next leaf leaves fewer nodes. -/
theorem size_popFront {r : StringSegmentRange} (h : r.cur.isSome) : r.popFront.size < r.size := by
  rw [popFront, size.eq_def r, if_pos h]
  split
  · rename_i hnil
    rw [hnil]
    exact Nat.lt_succ_of_le (Nat.le_refl 0)
  · rename_i str stack hcons
    have hle := size_settle str stack
    rw [hcons, List.map_cons, List.sum_cons]
    omega

/-- The leaves in the order in which they are at the front. -/
def leaves (r : StringSegmentRange) : List (List UInt16) :=
  match _h : r.cur with
  | none => []
  | some cur => cur :: r.popFront.leaves
termination_by r.size
decreasing_by exact size_popFront (Option.isSome_of_eq_some _h)

end StringSegmentRange

/-- The list of leaves, unless there are more than a threshold or the list cannot grow. -/
def collectLeaves (appendFails : ℕ → Bool) : ℕ → ℕ → List (List UInt16) → Option (List (List UInt16))
  | _, _, [] => some []
  | threshold, n, str :: rest =>
    if threshold = 0 ∨ appendFails n = true then none
    else (collectLeaves appendFails (threshold - 1) (n + 1) rest).map (str :: ·)

/-- The next character, which may be in a later leaf. -/
def nextChar : List UInt16 → List (List UInt16) → Option (UInt16 × List UInt16 × List (List UInt16))
  | c :: tt, inner => some (c, tt, inner)
  | [], str :: inner => nextChar str inner
  | [], [] => none

/-- How a comparison ends. -/
inductive Comparison where
  | matched
  | mismatched
  /-- There are no more characters in the text. -/
  | ended

/-- Compare the rest of a pattern with what follows in this leaf and the later ones. -/
def compareRest : List UInt16 → List UInt16 → List (List UInt16) → Comparison
  | [], _, _ => .matched
  | p :: pp, tt, inner =>
    match nextChar tt inner with
    | none => .ended
    | some (c, tt', inner') => if p ≠ c then .mismatched else compareRest pp tt' inner'

/-- Look for a match that starts in a leaf and runs into others. The outer option says whether the
search is over. -/
def scanStarts (p₀ : UInt16) (p₁ : List UInt16) (rest : List (List UInt16)) :
    List UInt16 → ℕ → Option (Option ℕ)
  | [], _ => none
  | c :: tt, t =>
    if c ≠ p₀ then scanStarts p₀ p₁ rest tt (t + 1)
    else
      match compareRest p₁ tt rest with
      | .matched => some (some t)
      | .ended => some none
      | .mismatched => scanStarts p₀ p₁ rest tt (t + 1)

/-- Search the leaves, from a position in the text on. -/
def ropeLoop (p₀ : UInt16) (p₁ : List UInt16) : ℕ → List (List UInt16) → Option ℕ
  | _, [] => none
  | pos, outer :: rest =>
    let patlen := p₁.length + 1
    match stringMatch outer (p₀ :: p₁) with
    | some matchResult => some (pos + matchResult)
    | none =>
      let text := if outer.length < patlen then 0 else outer.length - patlen + 1
      match scanStarts p₀ p₁ rest (outer.drop text) text with
      | some result => result.map (pos + ·)
      | none => ropeLoop p₀ p₁ (pos + outer.length) rest

/-- The binary logarithm of the least number of characters for each leaf. -/
def sRopeMatchThresholdRatioLog2 : ℕ := 5

/-- Search a rope, which may be flattened. -/
def ropeMatch (appendFails : ℕ → Bool) (textstr : JSString) : List UInt16 → Option ℕ × JSString
  | [] => (some 0, textstr)
  | p₀ :: p₁ =>
    if textstr.length < p₁.length + 1 then (none, textstr)
    else
      let threshold := textstr.length >>> sRopeMatchThresholdRatioLog2
      match collectLeaves appendFails threshold 0 (StringSegmentRange.init textstr).leaves with
      | none => (stringMatch textstr.chars (p₀ :: p₁), .linear textstr.chars)
      | some strs => (ropeLoop p₀ p₁ 0 strs, textstr)

/-- Search a text for a pattern that is not a regular expression. -/
def tryFlatMatch (appendFails : ℕ → Bool) (textstr : JSString) (pat : List UInt16) :
    Option ℕ × JSString :=
  if textstr.isRope then ropeMatch appendFails textstr pat
  else (stringMatch textstr.chars pat, textstr)

/-- Put the replacement in place of the match, in one leaf of a rope. The state is the position of
the leaf and what was built. -/
def replaceInLeaf (repstr : JSString) (start limit : ℕ) (s : ℕ × JSString) (leaf : List UInt16) :
    Option (ℕ × JSString) := do
  let (pos, res) := s
  let str := JSString.linear leaf
  let strEnd := pos + str.length
  let res ←
    if pos < limit ∧ start < strEnd then do
      let res ←
        if pos ≤ start then do
          let res ← concatStrings res (newDependentString str 0 (start - pos))
          concatStrings res repstr
        else some res
      if limit < strEnd then
        concatStrings res (newDependentString str (limit - pos) (strEnd - limit))
      else some res
    else concatStrings res str
  some (pos + str.length, res)

/-- Put a replacement without dollars in place of the match. -/
def buildFlatReplacement (textstr repstr : JSString) (start patlen : ℕ) : Option JSString :=
  if textstr.isRope then do
    let (_, res) ← (StringSegmentRange.init textstr).leaves.foldlM
      (replaceInLeaf repstr start (start + patlen)) (0, .linear [])
    some res
  else do
    let leftSide := newDependentString textstr 0 start
    let rightSide := newDependentString textstr (start + patlen) (textstr.length - start - patlen)
    let res ← concatStrings (.linear []) leftSide
    let res ← concatStrings res repstr
    concatStrings res rightSide

/-- The units that a replacement may have after a dollar. -/
def dollar : UInt16 := 0x24
def ampersand : UInt16 := 0x26
def apostrophe : UInt16 := 0x27
def backquote : UInt16 := 0x60

/-- Interpret the dollars from the first one on. -/
def interpretDollars (text : List UInt16) (matchStart matchLimit : ℕ) : List UInt16 → List UInt16
  | [] => []
  | [c] => [c]
  | c :: d :: rest =>
    if c ≠ dollar then c :: interpretDollars text matchStart matchLimit (d :: rest)
    else if d = dollar then c :: interpretDollars text matchStart matchLimit rest
    else if d = ampersand then
      (text.drop matchStart).take (matchLimit - matchStart) ++
        interpretDollars text matchStart matchLimit rest
    else if d = backquote then
      text.take matchStart ++ interpretDollars text matchStart matchLimit rest
    else if d = apostrophe then
      text.drop matchLimit ++ interpretDollars text matchStart matchLimit rest
    else c :: interpretDollars text matchStart matchLimit (d :: rest)

/-- Put a replacement with dollars in place of the match. The first dollar is at a position. -/
def buildDollarReplacement (textstr : JSString) (repstr : List UInt16) (firstDollar start patlen : ℕ) :
    Option JSString := do
  let limit := start + patlen
  let text := textstr.chars
  let newReplaceChars :=
    repstr.take firstDollar ++ interpretDollars text start limit (repstr.drop firstDollar)
  let leftSide := newDependentString (.linear text) 0 start
  let newReplace ←
    if newReplaceChars.length ≤ maxLength then some (JSString.linear newReplaceChars) else none
  let rightSide := newDependentString (.linear text) limit (text.length - limit)
  let res ← concatStrings (.linear []) leftSide
  let res ← concatStrings res newReplace
  concatStrings res rightSide

/-- Replace the first match of a pattern. -/
def str_replace (appendFails : ℕ → Bool) (textstr : JSString) (pat repstr : List UInt16) :
    Option JSString :=
  let (fm, textstr') := tryFlatMatch appendFails textstr pat
  match fm with
  | none => some textstr'
  | some start =>
    match repstr.findIdx? (· = dollar) with
    | some firstDollar => buildDollarReplacement textstr' repstr firstDollar start pat.length
    | none => buildFlatReplacement textstr' (.linear repstr) start pat.length

end SpiderMonkey.Vm.StringReplace
