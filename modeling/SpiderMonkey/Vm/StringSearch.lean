import SpiderMonkey.Vm.StringMatchSound
import SpiderMonkey.Vm.StringReplaceLeaves

/-!
# Searches that read only what there is

The same searches as in `StringMatch`, step by step as the code jumps through its loops, with reads
that have no result outside of the text, the pattern and the table of skips. Indices come back as
integers, -1 for none. All lengths are those of strings, so that no index wraps.
-/

namespace SpiderMonkey.Vm.StringSearch

open StringMatch (sBMHCharSetSize sBMHPatLenMax)

/-- What differs between platforms. -/
structure Platform where
  /-- Whether `memcmp` is used for long patterns. -/
  memcmp : Bool
  /-- Whether patterns of one unit have a loop of their own. -/
  i386 : Bool

/-- The result for a pattern that the table of skips does not cover. -/
def sBMHBadPattern : ℤ := -2

/-- Set the skips of the units of a pattern from one on, as many as are left. -/
def fillSkip (pat : List UInt16) : ℕ → ℕ → List UInt8 → Option (Option (List UInt8))
  | 0, _, skip => some (some skip)
  | n + 1, i, skip => do
    let c ← pat[i]?
    if sBMHCharSetSize ≤ c.toNat then some none
    else do
      let _ ← skip[c.toNat]?
      fillSkip pat n (i + 1) (skip.set c.toNat (UInt8.ofNat (pat.length - 1 - i)))

/-- Compare backwards, from a position in the text and one in the pattern. -/
def matchBackwards (text pat : List UInt16) : ℕ → ℕ → Option (Option ℕ)
  | i, j => do
    let c ← text[i]?
    let d ← pat[j]?
    if c ≠ d then some none
    else
      match j with
      | 0 => some (some i)
      | j + 1 => matchBackwards text pat (i - 1) j

/-- The loop over the positions in the text of the last unit of the pattern. -/
def horspoolLoop (text pat : List UInt16) (skip : List UInt8) : ℕ → ℕ → Option ℤ
  | 0, k => if k < text.length then none else some (-1)
  | fuel + 1, k =>
    if k < text.length then do
      match ← matchBackwards text pat k (pat.length - 1) with
      | some i => some i
      | none => do
        let c ← text[k]?
        if sBMHCharSetSize ≤ c.toNat then horspoolLoop text pat skip fuel (k + pat.length)
        else do
          let s ← skip[c.toNat]?
          horspoolLoop text pat skip fuel (k + s.toNat)
    else some (-1)

/-- The search with a table of skips. -/
def js_BoyerMooreHorspool (text pat : List UInt16) : Option ℤ := do
  let m := pat.length - 1
  match ← fillSkip pat m 0 (List.replicate sBMHCharSetSize (UInt8.ofNat pat.length)) with
  | none => some sBMHBadPattern
  | some skip => horspoolLoop text pat skip text.length m

/-- Units one after the other. -/
def readUnits (units : List UInt16) : ℕ → ℕ → Option (List UInt16)
  | 0, _ => some []
  | n + 1, i => do
    let c ← units[i]?
    let rest ← readUnits units n (i + 1)
    some (c :: rest)

/-- The inner comparison by `memcmp`, which may read all units of both sides. -/
def memCmp (text pat : List UInt16) (t : ℕ) : Option Bool := do
  let ps ← readUnits pat (pat.length - 1) 1
  let ts ← readUnits text (pat.length - 1) t
  some (ps == ts)

/-- The inner comparison by a loop, which stops at the first difference. -/
def manualCmp (text pat : List UInt16) : ℕ → ℕ → ℕ → Option Bool
  | 0, _, _ => some true
  | n + 1, p, t => do
    let c ← pat[p]?
    let d ← text[t]?
    if c ≠ d then some false else manualCmp text pat n (p + 1) (t + 1)

/-- Where a part of the unrolled loop ends: with a match, or at a position to go on from. -/
inductive Progress where
  | found (index : ℕ)
  | at (t : ℕ)
deriving DecidableEq

/-- The `do` loop behind the label `match`, with the number of positions that it still looks at. -/
def fixupLoop (text : List UInt16) (p₀ : UInt16) (cmp : ℕ → Option Bool) : ℕ → ℕ → Option Progress
  | 0, t => some (.at t)
  | fixup + 1, t => do
    let c ← text[t]?
    if c = p₀ then do
      if ← cmp (t + 1) then some (.found t) else fixupLoop text p₀ cmp fixup (t + 1)
    else fixupLoop text p₀ cmp fixup (t + 1)

/-- The cases of the switch, from the one of a number on, and with eight the tests of a round. The
first unit that is equal goes to the label `match`. -/
def scanCases (text : List UInt16) (p₀ : UInt16) (cmp : ℕ → Option Bool) : ℕ → ℕ → Option Progress
  | 0, t => some (.at t)
  | fixup + 1, t => do
    let c ← text[t]?
    if c = p₀ then do
      if ← cmp (t + 1) then some (.found t) else fixupLoop text p₀ cmp fixup (t + 1)
    else scanCases text p₀ cmp fixup (t + 1)

/-- The rounds of the unrolled loop. -/
def scanRounds (text : List UInt16) (p₀ : UInt16) (cmp : ℕ → Option Bool) (textend : ℕ) :
    ℕ → ℕ → Option ℤ
  | 0, t => if t = textend then some (-1) else none
  | fuel + 1, t =>
    if t = textend then some (-1)
    else do
      match ← scanCases text p₀ cmp 8 t with
      | .found index => some index
      | .at t => scanRounds text p₀ cmp textend fuel t

/-- The search unit by unit, with an inner comparison. -/
def unrolledMatch (text pat : List UInt16) (cmp : ℕ → Option Bool) : Option ℤ := do
  let textend := text.length - (pat.length - 1)
  let p₀ ← pat[0]?
  let case := if textend % 8 = 0 then 8 else textend % 8
  match ← scanCases text p₀ cmp case 0 with
  | .found index => some index
  | .at t => scanRounds text p₀ cmp textend text.length t

/-- The search for one unit. -/
def singleLoop (text : List UInt16) (p₀ : UInt16) : ℕ → ℕ → Option ℤ
  | 0, _ => some (-1)
  | n + 1, i => do
    let c ← text[i]?
    if c = p₀ then some i else singleLoop text p₀ n (i + 1)

/-- The search unit by unit, with the inner comparison for the pattern. -/
def unrolledFor (platform : Platform) (text pat : List UInt16) : Option ℤ :=
  if platform.memcmp = true ∧ 128 < pat.length then unrolledMatch text pat (memCmp text pat)
  else unrolledMatch text pat (manualCmp text pat (pat.length - 1) 1)

/-- Search a text for a pattern. -/
def stringMatch (platform : Platform) (text pat : List UInt16) : Option ℤ :=
  if pat.length = 0 then some 0
  else if text.length < pat.length then some (-1)
  else if platform.i386 = true ∧ pat.length = 1 then do
    let p₀ ← pat[0]?
    singleLoop text p₀ text.length 0
  else if 512 ≤ text.length ∧ 11 ≤ pat.length ∧ pat.length ≤ sBMHPatLenMax then do
    let index ← js_BoyerMooreHorspool text pat
    if index ≠ sBMHBadPattern then some index else unrolledFor platform text pat
  else unrolledFor platform text pat

end SpiderMonkey.Vm.StringSearch
