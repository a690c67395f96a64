import SpiderMonkey.Vm.Uri

/-!
# Conversions between UTF-16 and UTF-8

Encoding counts the bytes in one loop and writes them in another. Decoding runs one loop up to twice, to
count the units and to copy them. Its positions are 32-bit numbers, while the length of the text is not.

Running out of memory is left out. A byte that is read, or a unit that is written, past the end is a
failure here, and so is a loop that takes more steps than it is given.
-/

namespace SpiderMonkey.Vm.CharacterEncoding

open Json (Chars)
open Uri (utf8LengthLoop oneUcs4ToUtf8Char leadingOnes utf8ToOneUcs4Char)

/-! ## Encoding -/

/-- The loop of `GetDeflatedUTF8StringLength`. -/
def deflatedLengthLoop : Chars → ℕ → ℕ
  | [], nbytes => nbytes
  | c :: chars, nbytes =>
    if c.toNat < 0x80 then deflatedLengthLoop chars nbytes
    else if 0xD800 ≤ c.toNat && c.toNat ≤ 0xDFFF then
      if c.toNat ≥ 0xDC00 then deflatedLengthLoop chars (nbytes + 2)
      else
        match chars with
        | [] => nbytes + 2
        | c2 :: chars =>
          if c2.toNat < 0xDC00 || c2.toNat > 0xDFFF then deflatedLengthLoop (c2 :: chars) (nbytes + 2)
          else
            let c := ((c.toNat - 0xD800) <<< 10) + (c2.toNat - 0xDC00) + 0x10000
            deflatedLengthLoop chars (utf8LengthLoop (c >>> 11) (nbytes - 1 + 1))
    else deflatedLengthLoop chars (utf8LengthLoop (c.toNat >>> 11) (nbytes + 1))

/-- `GetDeflatedUTF8StringLength`. -/
def getDeflatedUTF8StringLength (chars : Chars) : ℕ := deflatedLengthLoop chars chars.length

/-- The bytes that were written, and for how many more there is room. -/
structure Buffer where
  dst : List UInt8
  dstlen : ℕ
  deriving DecidableEq

/-- `PutUTF8ReplacementCharacter`. -/
def Buffer.putUTF8ReplacementCharacter (b : Buffer) : Option Buffer :=
  if b.dstlen < 3 then none else some ⟨b.dst ++ [0xEF, 0xBF, 0xBD], b.dstlen - 3⟩

/-- The end of the body of the loop, which writes one value. -/
def Buffer.putValue (b : Buffer) (v : ℕ) : Option Buffer :=
  if v < 0x80 then
    if b.dstlen = 0 then none else some ⟨b.dst ++ [UInt8.ofNat v], b.dstlen - 1⟩
  else
    let utf8buf := oneUcs4ToUtf8Char v
    if utf8buf.length > b.dstlen then none
    else some ⟨b.dst ++ utf8buf, b.dstlen - utf8buf.length⟩

/-- The loop of `DeflateStringToUTF8Buffer`. -/
def deflateLoop : Chars → Buffer → Bool × Buffer
  | [], b => (true, b)
  | c :: src, b =>
    if c.toNat ≥ 0xDC00 && c.toNat ≤ 0xDFFF then
      b.putUTF8ReplacementCharacter.elim (false, b) fun b => deflateLoop src b
    else if c.toNat < 0xD800 || c.toNat > 0xDBFF then
      (b.putValue c.toNat).elim (false, b) fun b => deflateLoop src b
    else
      match src with
      | [] => b.putUTF8ReplacementCharacter.elim (false, b) fun b => (true, b)
      | c2 :: src =>
        if c2.toNat < 0xDC00 || c2.toNat > 0xDFFF then
          b.putUTF8ReplacementCharacter.elim (false, b) fun b => deflateLoop (c2 :: src) b
        else
          (b.putValue (((c.toNat - 0xD800) <<< 10) + (c2.toNat - 0xDC00) + 0x10000)).elim (false, b)
            fun b => deflateLoop src b

/-- `DeflateStringToUTF8Buffer`: whether it succeeds, the bytes it writes, and what is in `dstlenp` after
it. -/
def deflateStringToUTF8Buffer (src : Chars) (dstlen : ℕ) : Bool × List UInt8 × ℕ :=
  let (ok, b) := deflateLoop src ⟨[], dstlen⟩
  (ok, b.dst, dstlen - b.dstlen)

/-- `TwoByteCharsToNewUTF8CharsZ`: the bytes up to the terminator, which is written at `len`, and the
size of the memory. -/
def twoByteCharsToNewUTF8CharsZ (tbchars : Chars) : List UInt8 × ℕ :=
  let len := getDeflatedUTF8StringLength tbchars
  let (_, utf8, written) := deflateStringToUTF8Buffer tbchars len
  (utf8.take written ++ [0], len + 1)

/-! ## Decoding -/

/-- What is reported to the context. -/
inductive Report where
  | invalidCharacter (offset : ℕ)
  | bufferTooSmall
  | tooBigCharacter (v : ℕ)
  deriving DecidableEq

/-- The reasons for a call not to return a result. -/
inductive Failure where
  | reported (report : Report)
  | pastEnd
  | outOfFuel
  deriving DecidableEq

/-- `InflateUTF8Action`. -/
inductive InflateUTF8Action where
  | countAndReportInvalids
  | countAndIgnoreInvalids
  | copy
  deriving DecidableEq

/-- Read `src[k]`. -/
def readByte (src : List UInt8) (k : ℕ) : Except Failure UInt8 :=
  match src[k]? with
  | some b => .ok b
  | none => .error .pastEnd

/-- Read `n` bytes from `src[k]` on. -/
def readBytes (src : List UInt8) (k n : ℕ) : Except Failure (List UInt8) :=
  if k + n ≤ src.length then .ok ((src.drop k).take n) else .error .pastEnd

/-- Write `dst[j]`. -/
def store (dst : Chars) (j : ℕ) (unit : UInt16) : Except Failure Chars :=
  if j < dst.length then .ok (dst.set j unit) else .error .pastEnd

/-- Write units from `dst[j]` on, in the pass that copies. -/
def storeUnits (action : InflateUTF8Action) : Chars → ℕ → Chars → Except Failure Chars
  | dst, _, [] => .ok dst
  | dst, j, unit :: units =>
    if action = .copy then do
      let dst ← store dst j unit
      storeUnits action dst ((j + 1) % 2 ^ 32) units
    else .ok dst

/-- The second bytes that are not allowed behind some first ones. It is only read for these. -/
def badSecondByte (src : List UInt8) (i v : ℕ) : Except Failure Bool :=
  if v = 0xE0 || v = 0xED || v = 0xF0 || v = 0xF4 then do
    let b ← readByte src ((i + 1) % 2 ^ 32)
    .ok ((v = 0xE0 && b.toNat &&& 0xE0 ≠ 0xA0) || (v = 0xED && b.toNat &&& 0xE0 ≠ 0x80) ||
      (v = 0xF0 && b.toNat &&& 0xF0 = 0x80) || (v = 0xF4 && b.toNat &&& 0xF0 ≠ 0x80))
  else .ok false

/-- The loop over the continuation bytes from the `m`-th one on. Returns the first wrong one. -/
def badContinuation (src : List UInt8) (i : ℕ) : ℕ → ℕ → Except Failure (Option ℕ)
  | 0, _ => .ok none
  | count + 1, m => do
    let b ← readByte src ((i + m) % 2 ^ 32)
    if b.toNat &&& 0xC0 ≠ 0x80 then .ok (some m) else badContinuation src i count (m + 1)

/-- What is found behind a byte outside ASCII: the units of a sequence of `n` bytes, or an error that
makes the loop go on `n2` bytes further. -/
inductive CodeUnit where
  | units (n : ℕ) (units : Chars)
  | invalid (report : Report) (n2 : ℕ)
  deriving DecidableEq

/-- The value of the `n` bytes from `src[i]` on, behind the checks of them, and its units. -/
def readSequence (src : List UInt8) (i n : ℕ) (first : UInt8) : Except Failure CodeUnit := do
  let rest ← readBytes src (i + 1) (n - 1)
  let v := utf8ToOneUcs4Char first rest
  if v < 0x10000 then .ok (.units n [UInt16.ofNat v])
  else
    let v := v - 0x10000
    if v ≤ 0xFFFFF then
      .ok (.units n ([UInt16.ofNat ((v >>> 10) + 0xD800)] ++ [UInt16.ofNat ((v &&& 0x3FF) + 0xDC00)]))
    else .ok (.invalid (.tooBigCharacter v) 1)

/-- The branch of the loop for a byte outside ASCII. -/
def codeUnit (src : List UInt8) (i : ℕ) (first : UInt8) : Except Failure CodeUnit :=
  let n := leadingOnes first.toNat 1
  if n < 2 || n > 4 then .ok (.invalid (.invalidCharacter i) 1)
  else if (i + n) % 2 ^ 32 > src.length then .ok (.invalid .bufferTooSmall 1)
  else do
    if ← badSecondByte src i first.toNat then .ok (.invalid (.invalidCharacter i) 1)
    else
      match ← badContinuation src i (n - 1) 1 with
      | some m => .ok (.invalid (.invalidCharacter i) m)
      | none => readSequence src i n first

/-- The variables of the loop of `InflateUTF8StringToBuffer`. -/
structure Inflation where
  i : ℕ
  j : ℕ
  isAscii : Bool
  dst : Chars
  deriving DecidableEq

/-- The body of the loop at a byte, with the increments behind it. -/
def Inflation.step (action : InflateUTF8Action) (src : List UInt8) (s : Inflation) (v : UInt8) :
    Except Failure Inflation :=
  if v.toNat &&& 0x80 = 0 then do
    let dst ← storeUnits action s.dst s.j [UInt16.ofNat v.toNat]
    .ok ⟨(s.i + 1) % 2 ^ 32, (s.j + 1) % 2 ^ 32, s.isAscii, dst⟩
  else do
    match ← codeUnit src s.i v with
    | .units n units =>
      let dst ← storeUnits action s.dst s.j units
      .ok ⟨(s.i + n) % 2 ^ 32, (s.j + units.length) % 2 ^ 32, false, dst⟩
    | .invalid report n2 =>
      if action = .countAndReportInvalids then .error (.reported report)
      else
        let dst ← storeUnits action s.dst s.j [0xFFFD]
        .ok ⟨(s.i + n2) % 2 ^ 32, (s.j + 1) % 2 ^ 32, false, dst⟩

/-- The loop of `InflateUTF8StringToBuffer`. -/
def inflateLoop (action : InflateUTF8Action) (src : List UInt8) : ℕ → Inflation → Except Failure Inflation
  | 0, _ => .error .outOfFuel
  | fuel + 1, s =>
    match src[s.i]? with
    | none => .ok s
    | some v => s.step action src v >>= inflateLoop action src fuel

/-- `InflateUTF8StringToBuffer`. -/
def inflateUTF8StringToBuffer (action : InflateUTF8Action) (src : List UInt8) (dst : Chars) (fuel : ℕ) :
    Except Failure Inflation :=
  inflateLoop action src fuel ⟨0, 0, true, dst⟩

/-- `InflateUTF8StringHelper`. The memory it allocates holds any units at first. Returns that memory and
`outlen`. -/
def inflateUTF8StringHelper (countAction : InflateUTF8Action) (src : List UInt8) (memory : ℕ → UInt16)
    (fuel : ℕ) : Except Failure (Chars × ℕ) := do
  let counted ← inflateUTF8StringToBuffer countAction src [] fuel
  let dst := (List.range (counted.j + 1)).map memory
  let (dst, outlen) ←
    if counted.isAscii then do
      let dst ← storeUnits .copy dst 0 (src.map fun b => UInt16.ofNat b.toNat)
      .ok (dst, counted.j)
    else do
      let copied ← inflateUTF8StringToBuffer .copy src dst fuel
      .ok (copied.dst, copied.j)
  let dst ← store dst outlen 0
  .ok (dst, outlen)

/-- `UTF8CharsToNewTwoByteCharsZ`. -/
def utf8CharsToNewTwoByteCharsZ : List UInt8 → (ℕ → UInt16) → ℕ → Except Failure (Chars × ℕ) :=
  inflateUTF8StringHelper .countAndReportInvalids

/-- `LossyUTF8CharsToNewTwoByteCharsZ`. -/
def lossyUTF8CharsToNewTwoByteCharsZ : List UInt8 → (ℕ → UInt16) → ℕ → Except Failure (Chars × ℕ) :=
  inflateUTF8StringHelper .countAndIgnoreInvalids

end SpiderMonkey.Vm.CharacterEncoding
