import Mathlib

/-!
# Printing escaped strings

`PutEscapedStringImpl` writes a string into a buffer, with escapes for what is no printable ASCII, and
counts what it would have written. What cannot be written is counted all the same. Writing to a file is
left out. Writes out of bounds and assertions that fail have no result.
-/

namespace SpiderMonkey.Vm.EscapedString

/-! ## The machine -/

/-- The states of the machine. -/
inductive State where
  | STOP
  | FIRST_QUOTE
  | LAST_QUOTE
  | CHARS
  | ESCAPE_START
  | ESCAPE_MORE
deriving DecidableEq

/-- A state, the units that are left, and what an escape is made of. -/
structure Machine where
  state : State
  chars : List UInt16
  shift : ℕ
  hex : ℕ
  u : ℕ

/-- What comes of a turn of the machine: it stops, an assertion fails, or it goes on and perhaps has a
character. -/
inductive Turn where
  | stop
  | failed
  | next (m : Machine) (c : Option UInt8)

/-- The units that have escapes of one letter, with the letters. -/
def js_EscapeMap : List ℕ :=
  [0x08, 0x62, 0x0C, 0x66, 0x0A, 0x6E, 0x0D, 0x72, 0x09, 0x74, 0x0B, 0x76, 0x22, 0x22, 0x27, 0x27,
    0x5C, 0x5C]

/-- The part of a string from the first unit on that is the one that is searched for. -/
def strchr (s : List ℕ) (u : ℕ) : Option (List ℕ) :=
  match s.dropWhile (· ≠ u) with
  | [] => none
  | s => some s

/-- A quote, if there is to be one. -/
def doQuote (quote : ℕ) : Option UInt8 := if quote = 0 then none else some (UInt8.ofNat quote)

namespace Machine

/-- Start an escape. -/
def doEscape (m : Machine) (u : ℕ) : Turn := .next { m with u, state := .ESCAPE_START } (some 0x5C)

/-- Start an escape of two digits. -/
def doHexEscape (m : Machine) : Turn := { m with shift := 8, hex := m.u }.doEscape 0x78

/-- A turn of the machine. -/
def step (quote : ℕ) (m : Machine) : Turn :=
  match m.state with
  | .STOP => .stop
  | .FIRST_QUOTE => .next { m with state := .CHARS } (doQuote quote)
  | .LAST_QUOTE => .next { m with state := .STOP } (doQuote quote)
  | .CHARS =>
    match m.chars with
    | [] => .next { m with state := .LAST_QUOTE } none
    | unit :: chars =>
      let u := unit.toNat
      let m := { m with chars, u }
      if u < 0x20 then
        if u ≠ 0 then
          match strchr js_EscapeMap u with
          | some (_ :: letter :: _) => m.doEscape letter
          | some _ => .failed
          | none => m.doHexEscape
        else m.doHexEscape
      else if u < 127 then
        if u = quote ∨ u = 0x5C then m.doEscape u else .next m (some (UInt8.ofNat u))
      else if u < 0x100 then m.doHexEscape
      else { m with shift := 16, hex := u }.doEscape 0x75
  | .ESCAPE_START =>
    if 0x20 ≤ m.u ∧ m.u < 127 then .next { m with state := .ESCAPE_MORE } (some (UInt8.ofNat m.u))
    else .failed
  | .ESCAPE_MORE =>
    if m.shift = 0 then .next { m with state := .CHARS } none
    else
      let shift := m.shift - 4
      let u := 0xF &&& (m.hex >>> shift)
      .next { m with shift, u } (some (UInt8.ofNat (u + if u < 10 then 0x30 else 0x41 - 10)))

end Machine

/-! ## The buffer -/

/-- The memory of the buffer, whether there still is a buffer, how much of it can be written but for the
terminator, and the number of characters. -/
structure Sink where
  memory : List UInt8
  buffer : Bool
  bufferSize : ℕ
  n : ℕ

/-- Write into the buffer. -/
def Sink.write (s : Sink) (c : UInt8) : Option Sink :=
  if s.n < s.memory.length then some { s with memory := s.memory.set s.n c } else none

/-- A character of the output. -/
def Sink.put (s : Sink) (c : UInt8) : Option Sink := do
  let s ←
    if s.buffer then
      if s.bufferSize < s.n then none
      else if s.n ≠ s.bufferSize then s.write c
      else (s.write 0).map fun s => { s with buffer := false }
    else some s
  some { s with n := s.n + 1 }

/-- The loop. -/
def putLoop (quote : ℕ) : ℕ → Machine → Sink → Option Sink
  | 0, _, _ => none
  | fuel + 1, m, s =>
    match m.step quote with
    | .stop => some s
    | .failed => none
    | .next m none => putLoop quote fuel m s
    | .next m (some c) => do
      let s ← s.put c
      putLoop quote fuel m s

/-- `PutEscapedStringImpl`: the length of the output, and the memory of the buffer afterwards. -/
def putEscapedStringImpl (memory : List UInt8) (chars : List UInt16) (quote : ℕ) :
    Option (ℕ × List UInt8) := do
  guard (quote = 0 ∨ quote = 0x27 ∨ quote = 0x22)
  let s : Sink := ⟨memory, memory.length ≠ 0, memory.length - 1, 0⟩
  let s ← putLoop quote (7 * chars.length + 4) ⟨.FIRST_QUOTE, chars, 0, 0, 0⟩ s
  let s ← if s.buffer then s.write 0 else some s
  some (s.n, s.memory)

/-! ## String literals -/

/-- The value of a hexadecimal digit. -/
def hexDigitValue (c : UInt8) : Option ℕ :=
  if 0x30 ≤ c ∧ c ≤ 0x39 then some (c.toNat - 0x30)
  else if 0x41 ≤ c ∧ c ≤ 0x46 then some (c.toNat - 0x41 + 10)
  else if 0x61 ≤ c ∧ c ≤ 0x66 then some (c.toNat - 0x61 + 10)
  else none

/-- The value of hexadecimal digits. -/
def hexValue (cs : List UInt8) : Option ℕ :=
  cs.foldlM (fun v c => (hexDigitValue c).map (16 * v + ·)) 0

/-- The value of an escape of one character. -/
def singleEscapeValue (c : UInt8) : UInt16 :=
  if c = 0x62 then 0x08
  else if c = 0x74 then 0x09
  else if c = 0x6E then 0x0A
  else if c = 0x76 then 0x0B
  else if c = 0x66 then 0x0C
  else if c = 0x72 then 0x0D
  else c.toUInt16

/-- The value of what is left of a string literal in ASCII, up to the closing quote at the end. -/
def stringCharactersValue (quote : UInt8) : List UInt8 → Option (List UInt16)
  | [] => none
  | c :: cs =>
    if c = quote then if cs = [] then some [] else none
    else if c = 0x0A ∨ c = 0x0D ∨ 0x80 ≤ c then none
    else if c ≠ 0x5C then (stringCharactersValue quote cs).map (c.toUInt16 :: ·)
    else match cs with
      | [] => none
      | 0x78 :: d₁ :: d₀ :: cs => do
        let v ← hexValue [d₁, d₀]
        (stringCharactersValue quote cs).map (UInt16.ofNat v :: ·)
      | 0x75 :: d₃ :: d₂ :: d₁ :: d₀ :: cs => do
        let v ← hexValue [d₃, d₂, d₁, d₀]
        (stringCharactersValue quote cs).map (UInt16.ofNat v :: ·)
      -- a line that is continued
      | 0x0D :: 0x0A :: cs => stringCharactersValue quote cs
      | 0x0D :: cs => stringCharactersValue quote cs
      | 0x0A :: cs => stringCharactersValue quote cs
      | 0x30 :: cs =>
        if (cs.head?.any fun d => 0x30 ≤ d ∧ d ≤ 0x39) then none
        else (stringCharactersValue quote cs).map (0 :: ·)
      | c :: cs =>
        if c = 0x78 ∨ c = 0x75 ∨ (0x31 ≤ c ∧ c ≤ 0x39) ∨ 0x80 ≤ c then none
        else (stringCharactersValue quote cs).map (singleEscapeValue c :: ·)

/-- The value of a string literal in ASCII. -/
def stringLiteralValue : List UInt8 → Option (List UInt16)
  | [] => none
  | quote :: cs => if quote = 0x22 ∨ quote = 0x27 then stringCharactersValue quote cs else none

end SpiderMonkey.Vm.EscapedString
