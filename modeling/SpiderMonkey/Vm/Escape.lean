import SpiderMonkey.Vm.Uri

/-!
# Escaping and unescaping

The functions `escape` and `unescape`. The length of an escaped string is counted before it is written.
Unescaping builds a string from the first escape on only, with room for as many units as there are.

Running out of memory is left out, but a result that is too long for a string is an error. A unit that is
read or written past the end is one, too.
-/

namespace SpiderMonkey.Vm.Escape

open Json (Chars isHex unhex)
open Uri (Failure JSLinearString finishString hexDigits percentSign readUnit)

/-! ## Escaping -/

/-- The units that are not escaped. -/
def shouldPassThrough : List Bool :=
  ([0, 0, 0, 0, 0, 0, 0, 0, 0, 0, 0, 0, 0, 0, 0, 0,
    0, 0, 0, 0, 0, 0, 0, 0, 0, 0, 0, 0, 0, 0, 0, 0,
    0, 0, 0, 0, 0, 0, 0, 0, 0, 0, 1, 1, 0, 1, 1, 1,
    1, 1, 1, 1, 1, 1, 1, 1, 1, 1, 0, 0, 0, 0, 0, 0,
    1, 1, 1, 1, 1, 1, 1, 1, 1, 1, 1, 1, 1, 1, 1, 1,
    1, 1, 1, 1, 1, 1, 1, 1, 1, 1, 1, 0, 0, 0, 0, 1,
    0, 1, 1, 1, 1, 1, 1, 1, 1, 1, 1, 1, 1, 1, 1, 1,
    1, 1, 1, 1, 1, 1, 1, 1, 1, 1, 1, 0, 0, 0, 0, 0, 0] : List ℕ).map (· = 1)

/-- Whether a unit is not escaped. -/
def passesThrough (ch : UInt16) : Bool := ch < 128 && shouldPassThrough.getD ch.toNat false

/-- The pass that counts. -/
def countLoop (length : ℕ) : Chars → ℕ → Except Failure ℕ
  | [], newlength => .ok newlength
  | ch :: chars, newlength =>
    if passesThrough ch then countLoop length chars newlength
    else
      let newlength := (newlength + if ch < 256 then 2 else 5) % 2 ^ 64
      if newlength < length then .error .allocOverflow else countLoop length chars newlength

/-- Write units into memory that was allocated, behind those that are there. -/
def write (capacity : ℕ) (newchars units : Chars) : Except Failure Chars :=
  if newchars.length + units.length ≤ capacity then .ok (newchars ++ units) else .error .pastEnd

/-- A digit of a unit. -/
def digit (n : ℕ) : UInt16 := hexDigits.getD n 0

/-- The units that are written for one. -/
def escapedUnit (ch : UInt16) : Chars :=
  if passesThrough ch then [ch]
  else if ch < 256 then [percentSign, digit (ch.toNat >>> 4), digit (ch.toNat &&& 0xF)]
  else
    [percentSign, 0x75, digit (ch.toNat >>> 12), digit ((ch.toNat &&& 0xF00) >>> 8),
      digit ((ch.toNat &&& 0xF0) >>> 4), digit (ch.toNat &&& 0xF)]

/-- The pass that writes. -/
def writeLoop (capacity : ℕ) : Chars → Chars → Except Failure Chars
  | [], newchars => .ok newchars
  | ch :: chars, newchars => do
    let newchars ← write capacity newchars (escapedUnit ch)
    writeLoop capacity chars newchars

/-- `str_escape`. -/
def escape (str : JSLinearString) : Except Failure JSLinearString := do
  let length := str.chars.length
  let newlength ← countLoop length str.chars length
  if newlength ≥ (2 ^ 64 - 1) / 2 then .error .allocOverflow
  else
    let newchars ← writeLoop (newlength + 1) str.chars []
    -- the units that were counted are written, and a terminator behind them
    if newchars.length ≠ newlength then .error .pastEnd
    else finishString newchars

/-! ## Unescaping -/

/-- `Unhex4`. -/
def unhex4 (chars : Chars) (k : ℕ) : Except Failure (Option UInt16) := do
  let a ← readUnit chars k
  let b ← readUnit chars (k + 1)
  let c ← readUnit chars (k + 2)
  let d ← readUnit chars (k + 3)
  if !(isHex a && isHex b && isHex c && isHex d) then .ok none
  else
    .ok (some (UInt16.ofNat
      ((((((unhex a <<< 4) + unhex b) <<< 4) + unhex c) <<< 4) + unhex d)))

/-- `Unhex2`. -/
def unhex2 (chars : Chars) (k : ℕ) : Except Failure (Option UInt16) := do
  let a ← readUnit chars k
  let b ← readUnit chars (k + 1)
  if !(isHex a && isHex b) then .ok none else .ok (some (UInt16.ofNat ((unhex a <<< 4) + unhex b)))

/-- The position, and what is built if something is. -/
structure Unescaping where
  k : ℕ
  sb : Option Chars

/-- Begin to build a string, with what there is before the position. -/
def ensureBuilding (chars : Chars) (l : Unescaping) : Except Failure Unescaping :=
  match l.sb with
  | some _ => .ok l
  | none => do
    let sb ← write chars.length [] (chars.take l.k)
    .ok { l with sb := some sb }

/-- The steps from the fourteenth on, for a unit that is the one itself so far. -/
def step14 (chars : Chars) (l : Unescaping) (c : UInt16) : Except Failure (UInt16 × Unescaping) :=
  if (l.k : ℤ) > chars.length - 3 then .ok (c, l)
  else do
    match ← unhex2 chars (l.k + 1) with
    | none => .ok (c, l)
    | some c =>
      let l ← ensureBuilding chars l
      .ok (c, { l with k := l.k + 2 })

/-- The steps from the sixth on, up to the eighteenth. -/
def step6 (chars : Chars) (l : Unescaping) : Except Failure (UInt16 × Unescaping) := do
  let c ← readUnit chars l.k
  if c ≠ percentSign then .ok (c, l)
  else if (l.k : ℤ) > chars.length - 6 then step14 chars l c
  else
    let next ← readUnit chars (l.k + 1)
    if next ≠ 0x75 then step14 chars l c
    else
      match ← unhex4 chars (l.k + 2) with
      | some c =>
        let l ← ensureBuilding chars l
        .ok (c, { l with k := l.k + 5 })
      | none => step14 chars l c

/-- The loop, which ends within as many turns as there are units left. -/
def unescapeLoop (chars : Chars) : ℕ → Unescaping → Except Failure (Option Chars)
  | 0, _ => .error .pastEnd
  | fuel + 1, l =>
    if l.k = chars.length then .ok l.sb
    else do
      let (c, l) ← step6 chars l
      match l.sb with
      | none => unescapeLoop chars fuel { l with k := l.k + 1 }
      | some sb =>
        let sb ← write chars.length sb [c]
        unescapeLoop chars fuel ⟨l.k + 1, some sb⟩

/-- `str_unescape`. -/
def unescape (str : JSLinearString) : Except Failure JSLinearString := do
  match ← unescapeLoop str.chars (str.chars.length + 1) ⟨0, none⟩ with
  | none => .ok str
  | some sb => finishString sb

/-! ## What the specification says -/

/-- The unit that four hexadecimal digits behind the letter u are. -/
def fourDigits : Chars → Option UInt16
  | 0x75 :: a :: b :: c :: d :: _ =>
    if isHex a ∧ isHex b ∧ isHex c ∧ isHex d then
      some (UInt16.ofNat (unhex a * 4096 + unhex b * 256 + unhex c * 16 + unhex d))
    else none
  | _ => none

/-- The unit that two hexadecimal digits are. -/
def twoDigits : Chars → Option UInt16
  | a :: b :: _ => if isHex a ∧ isHex b then some (UInt16.ofNat (unhex a * 16 + unhex b)) else none
  | _ => none

/-- What a unit and those behind it are, and how many of these it takes. -/
def unescapedUnit (c : UInt16) (rest : Chars) : UInt16 × ℕ :=
  if c = percentSign then
    match fourDigits rest with
    | some v => (v, 5)
    | none =>
      match twoDigits rest with
      | some v => (v, 2)
      | none => (c, 0)
  else (c, 0)

/-- The string without its escapes. -/
def unescaped : Chars → Chars
  | [] => []
  | c :: rest => (unescapedUnit c rest).1 :: unescaped (rest.drop (unescapedUnit c rest).2)
termination_by chars => chars.length
decreasing_by
  rw [List.length_drop, List.length_cons]
  omega

end SpiderMonkey.Vm.Escape
