import SpiderMonkey.Lib.Occurrence
import Mathlib.Logic.Function.Basic

/-!
# Searching a text

The search for a pattern in a text of 16-bit units. Long texts are searched by the algorithm of
Boyer, Moore and Horspool, unless the pattern has a unit that its table of skips does not cover; all
others unit by unit, in a loop that is unrolled.
-/

namespace SpiderMonkey.Vm.StringMatch

/-- The number of units that the table of skips covers. -/
def sBMHCharSetSize : ℕ := 256

/-- The length of the longest pattern whose skips fit in the table. -/
def sBMHPatLenMax : ℕ := 255

/-- Set the skips of the first units of a pattern. This fails if one is not in the table. -/
def fillSkip (pat : List UInt16) (n : ℕ) : Option (ℕ → UInt8) :=
  let m := pat.length - 1
  (List.range n).foldlM
    (fun skip i =>
      let c := (pat.getD i 0).toNat
      if sBMHCharSetSize ≤ c then none
      else some (Function.update skip c (UInt8.ofNat (m - i))))
    fun _ => UInt8.ofNat pat.length

/-- Compare backwards, from a position in the text and one in the pattern. -/
def matchBackwards (text pat : List UInt16) : ℕ → ℕ → Option ℕ
  | i, 0 => if text.getD i 0 ≠ pat.getD 0 0 then none else some i
  | i, j + 1 =>
    if text.getD i 0 ≠ pat.getD (j + 1) 0 then none else matchBackwards text pat (i - 1) j

/-- The loop over the positions in the text of the last unit of the pattern. -/
def horspoolLoop (text pat : List UInt16) (skip : ℕ → UInt8) : ℕ → ℕ → Option ℕ
  | 0, _ => none
  | fuel + 1, k =>
    if k < text.length then
      match matchBackwards text pat k (pat.length - 1) with
      | some i => some i
      | none =>
        let c := (text.getD k 0).toNat
        horspoolLoop text pat skip fuel
          (k + if sBMHCharSetSize ≤ c then pat.length else (skip c).toNat)
    else none

/-- The search with a table of skips. There is no result if the pattern has a unit that is not in the
table. -/
def js_BoyerMooreHorspool (text pat : List UInt16) : Option (Option ℕ) := do
  let skip ← fillSkip pat (pat.length - 1)
  some (horspoolLoop text pat skip text.length (pat.length - 1))

/-- Compare the rest of a pattern. -/
def innerMatch : List UInt16 → List UInt16 → Bool
  | [], _ => true
  | _ :: _, [] => false
  | c :: p, d :: t => c == d && innerMatch p t

/-- Look for a match at some positions, one after the other. -/
def scanPositions (text : List UInt16) (p₀ : UInt16) (patNext : List UInt16) : ℕ → ℕ → Option ℕ
  | 0, _ => none
  | fixup + 1, t =>
    if text.getD t 0 = p₀ ∧ innerMatch patNext (text.drop (t + 1)) = true then some t
    else scanPositions text p₀ patNext fixup (t + 1)

/-- The unrolled loop: each round looks at eight positions. -/
def scanRounds (text : List UInt16) (p₀ : UInt16) (patNext : List UInt16) : ℕ → ℕ → Option ℕ
  | 0, _ => none
  | rounds + 1, t =>
    match scanPositions text p₀ patNext 8 t with
    | some r => some r
    | none => scanRounds text p₀ patNext rounds (t + 8)

/-- The search unit by unit. The switch before the loop looks at as many positions as leave a multiple
of eight. -/
def unrolledMatch (text : List UInt16) (p₀ : UInt16) (patNext : List UInt16) : Option ℕ :=
  let textend := text.length - patNext.length
  let fixup := if textend % 8 = 0 then 8 else textend % 8
  match scanPositions text p₀ patNext fixup 0 with
  | some r => some r
  | none => scanRounds text p₀ patNext ((textend - fixup) / 8) fixup

/-- Search a text for a pattern. -/
def stringMatch (text : List UInt16) : List UInt16 → Option ℕ
  | [] => some 0
  | p₀ :: patNext =>
    let pat := p₀ :: patNext
    if text.length < pat.length then none
    else
      let bmh :=
        if 512 ≤ text.length ∧ 11 ≤ pat.length ∧ pat.length ≤ sBMHPatLenMax then
          js_BoyerMooreHorspool text pat
        else none
      match bmh with
      | some index => index
      | none => unrolledMatch text p₀ patNext

end SpiderMonkey.Vm.StringMatch
