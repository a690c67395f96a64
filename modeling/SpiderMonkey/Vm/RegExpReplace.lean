import Mathlib
import SpiderMonkey.Vm.RegExpShared
import SpiderMonkey.Vm.StringReplace

/-!
# Replacing the matches of a regular expression

The part of `String.prototype.replace` for regular expressions and replacements that are strings. The
replacement is scanned twice for each match: for the length of what it stands for, and to append that
without checks. Where the replacement is empty, what was not matched is collected instead.

An append without checks that does not fit has a failure of its own. Interrupts are left out, and
running out of memory but where the buffer grows.
-/

namespace SpiderMonkey.Vm.RegExpReplace

open StringReplace (JSString concatStrings newDependentString maxShortLength dollar ampersand
  apostrophe backquote)
open Rope (maxLength)

/-- What the properties of `RegExp` are computed from. -/
structure RegExpStatics where
  /-- The last match, if there was one. -/
  pairs : Option Match
  matchesInput : List UInt16
  pendingInput : List UInt16
  /-- The expression and the index to match again, when the evaluation is pending. -/
  pendingLazy : Option (RegExpShared × ℕ)

namespace RegExpStatics

/-- Keep what the last match is computed from. -/
def updateLazily (res : RegExpStatics) (input : List UInt16) (shared : RegExpShared)
    (lastIndex : ℕ) : RegExpStatics :=
  { res with pendingInput := input, matchesInput := input, pendingLazy := some (shared, lastIndex) }

/-- Keep the last match. -/
def updateFromMatchPairs (_res : RegExpStatics) (input : List UInt16) (newPairs : Match) :
    RegExpStatics where
  pairs := some newPairs
  matchesInput := input
  pendingInput := input
  pendingLazy := none

/-- Compute the last match, if that is pending. It is asserted that there is one. -/
def executeLazy (res : RegExpStatics) : Option RegExpStatics :=
  match res.pendingLazy with
  | none => some res
  | some (shared, lazyIndex) => do
    let m ← shared.execute res.matchesInput lazyIndex
    some { res with pairs := some m, pendingLazy := none }

/-- The number of groups. -/
def parenCount (res : RegExpStatics) : ℕ := (res.pairs.map fun m => m.parens.length).getD 0

/-- A part of the input. -/
def substring (res : RegExpStatics) (start limit : ℕ) : List UInt16 :=
  (res.matchesInput.drop start).take (limit - start)

/-- The text of a group, which is numbered from one on. -/
def getParen (res : RegExpStatics) (pairNum : ℕ) : List UInt16 :=
  match res.pairs with
  | none => []
  | some m =>
    match m.parens.getD (pairNum - 1) none with
    | none => []
    | some (start, limit) => res.substring start limit

/-- The text of the match. -/
def getLastMatch (res : RegExpStatics) : List UInt16 :=
  match res.pairs with
  | none => []
  | some m => res.substring m.start m.limit

/-- The text of the last group. -/
def getLastParen (res : RegExpStatics) : List UInt16 :=
  if res.parenCount = 0 then [] else res.getParen res.parenCount

/-- The text before the match. -/
def getLeftContext (res : RegExpStatics) : List UInt16 :=
  match res.pairs with
  | none => []
  | some m => res.matchesInput.take m.start

/-- The text behind the match. -/
def getRightContext (res : RegExpStatics) : List UInt16 :=
  match res.pairs with
  | none => []
  | some m => res.matchesInput.drop m.limit

end RegExpStatics

/-- Why there is no string. -/
inductive Failure where
  /-- An append without checks went past the capacity. -/
  | overrun
  | allocationOverflow
  | outOfMemory
  /-- The string would be too long. -/
  | validateLength
deriving DecidableEq

/-- A buffer with the units that it has space for. -/
structure StringBuffer where
  chars : List UInt16
  capacity : ℕ
deriving DecidableEq

namespace StringBuffer

/-- The buffer at the start, with its inline storage. -/
def empty : StringBuffer := ⟨[], 32⟩

/-- Get space for a number of units. -/
def reserve (sb : StringBuffer) (grows : ℕ → Bool) (len : ℕ) : Except Failure StringBuffer :=
  if len ≤ sb.capacity then .ok sb
  else if grows len then .ok { sb with capacity := len }
  else .error .outOfMemory

/-- Append what there is space for. -/
def infallibleAppend (sb : StringBuffer) (chars : List UInt16) : Except Failure StringBuffer :=
  if sb.chars.length + chars.length ≤ sb.capacity then .ok { sb with chars := sb.chars ++ chars }
  else .error .overrun

/-- Append, with more space if need be. -/
def append (sb : StringBuffer) (grows : ℕ → Bool) (chars : List UInt16) :
    Except Failure StringBuffer := do
  let sb ← sb.reserve grows (sb.chars.length + chars.length)
  sb.infallibleAppend chars

/-- The string of what was appended. -/
def finishString (sb : StringBuffer) : Except Failure JSString :=
  if sb.chars.length ≤ maxLength then .ok (.linear sb.chars) else .error .validateLength

end StringBuffer

/-! ## Numbers that are checked -/

/-- A number of 32 bits, if it is one. -/
def checkedInt (n : ℕ) : Option ℕ := if n < 2 ^ 32 then some n else none

/-- Add to a checked number. -/
def addChecked (r : Option ℕ) (n : ℕ) : Option ℕ := do
  let r ← r
  let n ← checkedInt n
  checkedInt (r + n)

/-- Subtract from a checked number. -/
def subChecked (r : Option ℕ) (n : ℕ) : Option ℕ := do
  let r ← r
  let n ← checkedInt n
  if n ≤ r then some (r - n) else none

/-! ## Dollars in the replacement -/

/-- `JS7_ISDEC`. -/
def isDec (c : UInt16) : Bool := 0x30 ≤ c.toNat && c.toNat ≤ 0x39

/-- `JS7_UNDEC`. -/
def unDec (c : UInt16) : ℕ := c.toNat - 0x30

/-- The unit after a dollar that stands for the last group. -/
def plus : UInt16 := 0x2B

/-- The next dollar from an index on. -/
def strchrDollar (repstr : List UInt16) (i : ℕ) : Option ℕ :=
  ((repstr.drop i).findIdx? (· = dollar)).map (i + ·)

/-- What a dollar at an index stands for, and how many units belong to it. -/
def interpretDollar (res : RegExpStatics) (repstr : List UInt16) (dp : ℕ) :
    Option (List UInt16 × ℕ) :=
  if repstr.length ≤ dp + 1 then none
  else
    let dc := repstr.getD (dp + 1) 0
    if isDec dc then
      let num := unDec dc
      if res.parenCount < num then none
      else
        let cp := dp + 2
        let dc := repstr.getD cp 0
        let tmp := 10 * num + unDec dc
        let (num, cp) :=
          if cp < repstr.length ∧ isDec dc = true ∧ tmp ≤ res.parenCount then (tmp, cp + 1)
          else (num, cp)
        if num = 0 then none else some (res.getParen num, cp - dp)
    else if dc = dollar then some ([dollar], 2)
    else if dc = ampersand then some (res.getLastMatch, 2)
    else if dc = plus then some (res.getLastParen, 2)
    else if dc = backquote then some (res.getLeftContext, 2)
    else if dc = apostrophe then some (res.getRightContext, 2)
    else none

/-- The dollars from one on change the length. -/
def lengthLoop (res : RegExpStatics) (repstr : List UInt16) : ℕ → Option ℕ → Option ℕ → Option ℕ
  | 0, _, replen => replen
  | _ + 1, none, replen => replen
  | fuel + 1, some dp, replen =>
    match interpretDollar res repstr dp with
    | some (sub, skip) =>
      let replen :=
        if skip < sub.length then addChecked replen (sub.length - skip)
        else subChecked replen (skip - sub.length)
      lengthLoop res repstr fuel (strchrDollar repstr (dp + skip)) replen
    | none => lengthLoop res repstr fuel (strchrDollar repstr (dp + 1)) replen

/-- The length of what a replacement stands for, if it fits. -/
def findReplaceLength (res : RegExpStatics) (repstr : List UInt16) : Option ℕ :=
  lengthLoop res repstr (repstr.length + 1) (strchrDollar repstr 0) (checkedInt repstr.length)

/-- Append what the dollars from one on stand for, and what is between them. -/
def replaceLoop (res : RegExpStatics) (repstr : List UInt16) :
    ℕ → Option ℕ → ℕ → StringBuffer → Except Failure StringBuffer
  | 0, _, cp, sb => sb.infallibleAppend (repstr.drop cp)
  | _ + 1, none, cp, sb => sb.infallibleAppend (repstr.drop cp)
  | fuel + 1, some dp, cp, sb => do
    let sb ← sb.infallibleAppend ((repstr.drop cp).take (dp - cp))
    match interpretDollar res repstr dp with
    | some (sub, skip) => do
      let sb ← sb.infallibleAppend sub
      replaceLoop res repstr fuel (strchrDollar repstr (dp + skip)) (dp + skip) sb
    | none => replaceLoop res repstr fuel (strchrDollar repstr (dp + 1)) dp sb

/-- Append what a replacement stands for. -/
def doReplace (res : RegExpStatics) (repstr : List UInt16) (sb : StringBuffer) :
    Except Failure StringBuffer :=
  replaceLoop res repstr (repstr.length + 1) (strchrDollar repstr 0) 0 sb

/-! ## The general path -/

/-- What is built while matches are replaced. -/
structure ReplaceData where
  leftIndex : ℕ
  calledBack : Bool
  sb : StringBuffer

/-- Append the text up to a match, and the replacement of the match. -/
def replaceRegExp (grows : ℕ → Bool) (text repstr : List UInt16) (res : RegExpStatics) (m : Match)
    (rdata : ReplaceData) : Except Failure ReplaceData := do
  let leftoff := rdata.leftIndex
  let leftlen := m.start - leftoff
  match findReplaceLength res repstr with
  | none => .error .allocationOverflow
  | some replen =>
    match addChecked (addChecked (checkedInt rdata.sb.chars.length) leftlen) replen with
    | none => .error .allocationOverflow
    | some newlen => do
      let sb ← rdata.sb.reserve grows newlen
      let sb ← sb.infallibleAppend ((text.drop leftoff).take leftlen)
      let sb ← doReplace res repstr sb
      .ok ⟨m.limit, true, sb⟩

/-- Replace the first match. -/
def doMatchForReplaceLocal (grows : ℕ → Bool) (text repstr : List UInt16) (re : RegExpShared)
    (res : RegExpStatics) (rdata : ReplaceData) : Except Failure (RegExpStatics × ReplaceData) :=
  match re.execute text 0 with
  | none => .ok (res, rdata)
  | some m => do
    let res := res.updateFromMatchPairs text m
    let rdata ← replaceRegExp grows text repstr res m rdata
    .ok (res, rdata)

/-- Replace the matches from an index on. -/
def doMatchForReplaceGlobal (grows : ℕ → Bool) (text repstr : List UInt16) (re : RegExpShared) :
    ℕ → ℕ → RegExpStatics → ReplaceData → Except Failure (RegExpStatics × ReplaceData)
  | 0, _, res, rdata => .ok (res, rdata)
  | fuel + 1, i, res, rdata =>
    if text.length < i then .ok (res, rdata)
    else
      match re.execute text i with
      | none => .ok (res, rdata)
      | some m => do
        let res := res.updateFromMatchPairs text m
        let rdata ← replaceRegExp grows text repstr res m rdata
        doMatchForReplaceGlobal grows text repstr re fuel
          (if m.isEmpty then m.limit + 1 else m.limit) res rdata

/-- Replace the matches of an expression, one after the other. -/
def strReplaceGeneral (grows : ℕ → Bool) (str : JSString) (re : RegExpShared)
    (repstr : List UInt16) (res : RegExpStatics) : Except Failure (JSString × RegExpStatics) := do
  let text := str.chars
  let rdata : ReplaceData := ⟨0, false, StringBuffer.empty⟩
  let (res, rdata) ←
    if re.global then doMatchForReplaceGlobal grows text repstr re (text.length + 1) 0 res rdata
    else doMatchForReplaceLocal grows text repstr re res rdata
  if rdata.calledBack = false then .ok (str, res)
  else do
    let sb ← rdata.sb.append grows res.getRightContext
    let retstr ← sb.finishString
    .ok (retstr, res)

/-! ## Removal -/

/-- A range of units that were not matched. -/
structure StringRange where
  start : ℕ
  length : ℕ
deriving DecidableEq, Repr

/-- The units of a range. -/
def StringRange.chars (text : List UInt16) (range : StringRange) : List UInt16 :=
  (text.drop range.start).take range.length

/-- Copy ranges into one short string. -/
def flattenSubstrings (text : List UInt16) (ranges : List StringRange) : JSString :=
  .linear (ranges.flatMap (StringRange.chars text))

/-- How many of the ranges fit in a short string, with what was taken before. -/
def rangesThatFit : ℕ → List StringRange → ℕ
  | _, [] => 0
  | substrLen, range :: rest =>
    if maxShortLength < substrLen + range.length then 0
    else rangesThatFit (substrLen + range.length) rest + 1

/-- Append ranges to a rope, as many together as fit in a short string. -/
def appendLoop (text : List UInt16) : ℕ → List StringRange → JSString → Option JSString
  | 0, _, rope => some rope
  | _ + 1, [], rope => some rope
  | fuel + 1, range :: rest, rope => do
    match rangesThatFit 0 (range :: rest) with
    | 0 => do
      let rope ← concatStrings rope (newDependentString (.linear text) range.start range.length)
      appendLoop text fuel rest rope
    | n + 1 => do
      let rope ← concatStrings rope (flattenSubstrings text ((range :: rest).take (n + 1)))
      appendLoop text fuel (rest.drop n) rope

/-- The string of some ranges. -/
def appendSubstrings (text : List UInt16) : List StringRange → Option JSString
  | [range] => some (newDependentString (.linear text) range.start range.length)
  | ranges => appendLoop text ranges.length ranges (.linear [])

/-- Where the loop over the matches is. -/
structure RemoveState where
  /-- The index for going through the text. -/
  startIndex : ℕ
  /-- The index after the last match. -/
  lastIndex : ℕ
  /-- The index before the last match. -/
  lazyIndex : ℕ
  ranges : List StringRange
deriving DecidableEq, Repr

/-- Collect what is not matched. -/
def removeLoop (text : List UInt16) (re : RegExpShared) : ℕ → RemoveState → RemoveState
  | 0, s => s
  | fuel + 1, s =>
    if text.length < s.startIndex then s
    else
      match re.execute text s.startIndex with
      | none => s
      | some m =>
        let s' : RemoveState :=
          { startIndex := if m.isEmpty then m.limit + 1 else m.limit
            lastIndex := m.limit
            lazyIndex := s.lastIndex
            ranges :=
              if s.lastIndex < m.start then
                s.ranges ++ [⟨s.lastIndex, m.start - s.lastIndex⟩]
              else s.ranges }
        if re.global then removeLoop text re fuel s' else s'

/-- Remove the matches of an expression. -/
def strReplaceRegexpRemove (str : JSString) (re : RegExpShared) (res : RegExpStatics) :
    Except Failure (JSString × RegExpStatics) :=
  let text := str.chars
  let s := removeLoop text re (text.length + 1) ⟨0, 0, 0, []⟩
  if s.lastIndex = 0 then
    .ok (str, if 0 < s.startIndex then res.updateLazily text re s.lazyIndex else res)
  else
    let res := res.updateLazily text re s.lazyIndex
    let ranges :=
      if s.lastIndex < text.length then s.ranges ++ [⟨s.lastIndex, text.length - s.lastIndex⟩]
      else s.ranges
    if ranges = [] then .ok (.linear [], res)
    else
      match appendSubstrings text ranges with
      | none => .error .validateLength
      | some result => .ok (result, res)

/-- Replace the matches of an expression. -/
def strReplaceRegExp (grows : ℕ → Bool) (str : JSString) (re : RegExpShared)
    (repstr : List UInt16) (res : RegExpStatics) : Except Failure (JSString × RegExpStatics) :=
  if repstr.length = 0 then strReplaceRegexpRemove str re res
  else strReplaceGeneral grows str re repstr res

end SpiderMonkey.Vm.RegExpReplace
