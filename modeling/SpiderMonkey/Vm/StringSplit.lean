import Mathlib
import SpiderMonkey.Vm.RegExpReplace
import SpiderMonkey.Vm.StringMatch

/-!
# Splitting a string

`String.prototype.split`. The loop looks for the next match from an index on, where the specification
tries each position. The elements of the array are strings or undefined. Assertions have no result,
and running out of memory is left out.
-/

namespace SpiderMonkey.Vm.StringSplit

open RegExpReplace (RegExpStatics)
open StringMatch (stringMatch)

/-- An element of the array: a string, or undefined. -/
abbrev Value := Option (List UInt16)

/-- The length of a separator that was found, and the index behind it. -/
structure SplitMatchResult where
  length : ℕ
  endIndex : ℕ
deriving DecidableEq, Repr

/-- How separators are found: the next one from an index on, with the statics after that. -/
structure Matcher where
  returnsCaptures : Bool
  splitMatch : RegExpStatics → List UInt16 → ℕ → Option (Option SplitMatchResult × RegExpStatics)

/-- Separators that an expression matches. -/
def splitRegExpMatcher (re : RegExpShared) : Matcher where
  returnsCaptures := true
  splitMatch res str index :=
    match re.execute str index with
    | none => some (none, res)
    | some m =>
      let res := res.updateFromMatchPairs str m
      some (some ⟨res.getLastMatch.length, m.limit⟩, res)

/-- Separators that are a string. It is asserted that the index is in the text or zero. -/
def splitStringMatcher (sep : List UInt16) : Matcher where
  returnsCaptures := false
  splitMatch res str index := do
    guard (index = 0 ∨ index < str.length)
    match stringMatch (str.drop index) sep with
    | none => some (none, res)
    | some k => some (some ⟨sep.length, index + k + sep.length⟩, res)

/-- The groups of the last match, from an index on, to be appended as far as the limit allows. Whether
the limit was reached is returned too. -/
def appendCaptures (res : RegExpStatics) (limit : ℕ) :
    List (Option (ℕ × ℕ)) → ℕ → List Value → List Value × Bool
  | [], _, splits => (splits, false)
  | pair :: rest, i, splits =>
    let splits := splits ++ [if pair.isSome then some (res.getParen (i + 1)) else none]
    if splits.length = limit then (splits, true) else appendCaptures res limit rest (i + 1) splits

/-- The pairs of the groups of the last match. -/
def groupPairs (res : RegExpStatics) : List (Option (ℕ × ℕ)) := (res.pairs.map Match.parens).getD []

/-- The loop over the separators. -/
def splitLoop (splitMatch : Matcher) (str : List UInt16) (limit : ℕ) :
    ℕ → RegExpStatics → ℕ → ℕ → List Value → Option (List Value × RegExpStatics)
  | 0, _, _, _, _ => none
  | fuel + 1, res, lastEndIndex, index, splits =>
    let rest := splits ++ [some ((str.drop lastEndIndex).take (str.length - lastEndIndex))]
    if index < str.length then do
      match ← splitMatch.splitMatch res str index with
      | (none, res) => some (rest, res)
      | (some result, res) =>
        if result.length = 0 ∧ result.endIndex = str.length then some (rest, res)
        else if result.endIndex = lastEndIndex then
          splitLoop splitMatch str limit fuel res lastEndIndex (index + 1) splits
        else do
          guard (lastEndIndex < result.endIndex ∧ result.length ≤ str.length ∧
            lastEndIndex + result.length ≤ result.endIndex)
          let subLength := result.endIndex - result.length - lastEndIndex
          let splits := splits ++ [some ((str.drop lastEndIndex).take subLength)]
          if splits.length = limit then some (splits, res)
          else
            let lastEndIndex := result.endIndex
            if splitMatch.returnsCaptures then
              match appendCaptures res limit (groupPairs res) 0 splits with
              | (splits, true) => some (splits, res)
              | (splits, false) =>
                splitLoop splitMatch str limit fuel res lastEndIndex lastEndIndex splits
            else splitLoop splitMatch str limit fuel res lastEndIndex lastEndIndex splits
    else some (rest, res)

/-- Split a text at the separators. -/
def splitHelper (splitMatch : Matcher) (res : RegExpStatics) (str : List UInt16) (limit : ℕ) :
    Option (List Value × RegExpStatics) :=
  if str.length = 0 then do
    match ← splitMatch.splitMatch res str 0 with
    | (none, res) => some ([some str], res)
    | (some _, res) => some ([], res)
  else splitLoop splitMatch str limit (2 * str.length + 1) res 0 0 []

/-- Split a text into its units. -/
def charSplitHelper (str : List UInt16) (limit : ℕ) : List Value :=
  let resultlen := if limit < str.length then limit else str.length
  (List.range resultlen).map fun i => some [str.getD i 0]

/-- A separator. -/
inductive Separator where
  | undefined
  | regExp (re : RegExpShared)
  | string (sep : List UInt16)

/-- Split a text at a separator, with a limit if one is given. -/
def str_split (res : RegExpStatics) (str : List UInt16) (separator : Separator)
    (limit : Option UInt32) : Option (List Value × RegExpStatics) :=
  let limit := (limit.getD (UInt32.ofNat (2 ^ 32 - 1))).toNat
  if limit = 0 then some ([], res)
  else
    match separator with
    | .undefined => some ([some str], res)
    | .regExp re => splitHelper (splitRegExpMatcher re) res str limit
    | .string sep =>
      if sep.length = 0 then some (charSplitHelper str limit, res)
      else splitHelper (splitStringMatcher sep) res str limit

end SpiderMonkey.Vm.StringSplit
