import SpiderMonkey.Json.ReadString
import SpiderMonkey.Lib.Unicode
import SpiderMonkey.Vm.Rope

/-!
# Encoding and decoding of URIs

The hidden functions `Encode` and `Decode` behind `encodeURI`, `encodeURIComponent`, `decodeURI` and
`decodeURIComponent`. Running out of memory is left out, but a result that is too long for a string
is an error.
-/

namespace SpiderMonkey.Vm.Uri

open Json (Chars isHex unhex IsHexDigit)
open Rope (maxLength)

/-- The reasons for a call to fail. Reading a unit past the end is not an error the code reports. -/
inductive Failure where
  | badUri
  | allocOverflow
  | pastEnd
  deriving DecidableEq

/-- A flat string. -/
structure JSLinearString where
  chars : Chars
  length_le : chars.length ≤ maxLength

/-- `StringBuffer::finishString`. -/
def finishString (sb : Chars) : Except Failure JSLinearString :=
  if h : sb.length ≤ maxLength then .ok ⟨sb, h⟩ else .error .allocOverflow

/-- What a computation that succeeds has computed. -/
theorem exists_of_bind_eq_ok {ε α β : Type} {x : Except ε α} {f : α → Except ε β} {b : β}
    (h : x >>= f = .ok b) : ∃ a, x = .ok a ∧ f a = .ok b := by
  cases x with
  | error e => cases h
  | ok a => exact ⟨a, rfl, h⟩

abbrev percentSign : UInt16 := 0x25

/-- The table `js_isUriReservedPlusPound`. -/
def isUriReservedPlusPound (c : ℕ) : Bool :=
  c ∈ [35, 36, 38, 43, 44, 47, 58, 59, 61, 63, 64]

/-- The table `js_isUriUnescaped`. -/
def isUriUnescaped (c : ℕ) : Bool :=
  c ∈ [33, 39, 40, 41, 42, 45, 46, 95, 126] ∨
    48 ≤ c ∧ c ≤ 57 ∨ 65 ≤ c ∧ c ≤ 90 ∨ 97 ≤ c ∧ c ≤ 122

/-! ## Encoding -/

/-- The digits that are written. -/
def hexDigits : Chars :=
  [0x30, 0x31, 0x32, 0x33, 0x34, 0x35, 0x36, 0x37, 0x38, 0x39, 0x41, 0x42, 0x43, 0x44, 0x45, 0x46]

/-- The loop that counts the octets. -/
def utf8LengthLoop (a utf8Length : ℕ) : ℕ :=
  if a = 0 then utf8Length else utf8LengthLoop (a >>> 5) (utf8Length + 1)
termination_by a
decreasing_by
  rw [Nat.shiftRight_eq_div_pow]
  exact Nat.div_lt_self (by omega) (by decide)

/-- The loop that writes the octets behind the first one, from the last one on. -/
def utf8BufferLoop : ℕ → ℕ → List UInt8 → ℕ × List UInt8
  | 0, ucs4Char, utf8Buffer => (ucs4Char, utf8Buffer)
  | i + 1, ucs4Char, utf8Buffer =>
      utf8BufferLoop i (ucs4Char >>> 6) (UInt8.ofNat ((ucs4Char &&& 0x3F) ||| 0x80) :: utf8Buffer)

/-- `js_OneUcs4ToUtf8Char`. -/
def oneUcs4ToUtf8Char (ucs4Char : ℕ) : List UInt8 :=
  if ucs4Char < 0x80 then [UInt8.ofNat ucs4Char]
  else
    let utf8Length := utf8LengthLoop (ucs4Char >>> 11) 2
    let (ucs4Char, utf8Buffer) := utf8BufferLoop (utf8Length - 1) ucs4Char []
    UInt8.ofNat (0x100 - (1 <<< (8 - utf8Length)) + ucs4Char) :: utf8Buffer

/-- The escape of an octet. -/
def hexBuf (octet : UInt8) : Chars :=
  [percentSign, hexDigits.getD (octet.toNat >>> 4) 0, hexDigits.getD (octet.toNat &&& 0xF) 0]

/-- The escapes of a scalar value. -/
def escape (v : ℕ) : Chars := (oneUcs4ToUtf8Char v).flatMap hexBuf

/-- The loop of `Encode` over the units that are left. -/
def encodeLoop (unescapedSet : ℕ → Bool) (unescapedSet2 : Option (ℕ → Bool)) :
    Chars → Chars → Except Failure Chars
  | [], sb => .ok sb
  | c :: chars, sb =>
    if c.toNat < 128 && (unescapedSet c.toNat || unescapedSet2.any (· c.toNat)) then
      encodeLoop unescapedSet unescapedSet2 chars (sb ++ [c])
    else if c.toNat ≥ 0xDC00 && c.toNat ≤ 0xDFFF then .error .badUri
    else if c.toNat < 0xD800 || c.toNat > 0xDBFF then
      encodeLoop unescapedSet unescapedSet2 chars (sb ++ escape c.toNat)
    else
      match chars with
      | [] => .error .badUri
      | c2 :: chars =>
        if c2.toNat < 0xDC00 || c2.toNat > 0xDFFF then .error .badUri
        else
          encodeLoop unescapedSet unescapedSet2 chars
            (sb ++ escape (((c.toNat - 0xD800) <<< 10) + (c2.toNat - 0xDC00) + 0x10000))

/-- `Encode`. The loop leaves an empty text empty. -/
def encode (unescapedSet : ℕ → Bool) (unescapedSet2 : Option (ℕ → Bool)) (str : JSLinearString) :
    Except Failure JSLinearString :=
  encodeLoop unescapedSet unescapedSet2 str.chars [] >>= finishString

/-- `str_encodeURI`. -/
def encodeURI (str : JSLinearString) : Except Failure JSLinearString :=
  encode isUriUnescaped (some isUriReservedPlusPound) str

/-- `str_encodeURI_Component`. -/
def encodeURIComponent (str : JSLinearString) : Except Failure JSLinearString :=
  encode isUriUnescaped none str

/-! ## Decoding -/

/-- What `Utf8ToOneUcs4Char` returns for octets that encode no scalar value. -/
def invalidUtf8 : ℕ := 2 ^ 32 - 1

/-- The least values that need two, three and four octets. -/
def minucs4Table : List ℕ := [0x80, 0x800, 0x10000]

/-- `Utf8ToOneUcs4Char`, on its first octet and the octets behind it. -/
def utf8ToOneUcs4Char (first : UInt8) (rest : List UInt8) : ℕ :=
  if rest.length + 1 = 1 then first.toNat
  else
    let ucs4Char := rest.foldl (fun v octet => (v <<< 6) ||| (octet.toNat &&& 0x3F))
      (first.toNat &&& ((1 <<< (7 - (rest.length + 1))) - 1))
    let minucs4Char := minucs4Table.getD (rest.length + 1 - 2) 0
    if ucs4Char < minucs4Char || (ucs4Char ≥ 0xD800 && ucs4Char ≤ 0xDFFF) then invalidUtf8
    else ucs4Char

/-- Read `chars[k]`. -/
def readUnit (chars : Chars) (k : ℕ) : Except Failure UInt16 :=
  match chars[k]? with
  | some c => .ok c
  | none => .error .pastEnd

/-- Read the octet written in `chars[k+1]` and `chars[k+2]`. -/
def readOctet (chars : Chars) (k : ℕ) : Except Failure ℕ := do
  let c1 ← readUnit chars (k + 1)
  if !isHex c1 then .error .badUri
  else
    let c2 ← readUnit chars (k + 2)
    if !isHex c2 then .error .badUri else .ok (unhex c1 * 16 + unhex c2)

/-- Count the bits in front of the first zero of an octet that starts with a one. -/
def leadingOnes (B n : ℕ) : ℕ :=
  if B &&& (0x80 >>> n) ≠ 0 then leadingOnes B (n + 1) else n
termination_by 8 - n
decreasing_by
  by_contra hn
  have hzero : 0x80 >>> n = 0 := by
    rw [Nat.shiftRight_eq_div_pow]
    apply Nat.div_eq_of_lt
    calc 0x80 < 2 ^ 8 := by decide
      _ ≤ 2 ^ n := Nat.pow_le_pow_right (by decide) (by omega)
  simp_all

/-- Read as many continuation octets behind `k`. Returns them and the position of the last unit. -/
def readContinuation (chars : Chars) : ℕ → ℕ → Except Failure (List UInt8 × ℕ)
  | 0, k => .ok ([], k)
  | n + 1, k => do
    let c ← readUnit chars (k + 1)
    if c ≠ percentSign then .error .badUri
    else
      let B ← readOctet chars (k + 1)
      if B &&& 0xC0 ≠ 0x80 then .error .badUri
      else
        let (octets, k) ← readContinuation chars n (k + 3)
        .ok (UInt8.ofNat B :: octets, k)

/-- The branch of `Decode` at a percent sign. Returns the units in front of the last one, the last
one, and the position of the last unit of the escapes. -/
def decodeEscape (chars : Chars) (k : ℕ) : Except Failure (Chars × UInt16 × ℕ) :=
  if k + 2 ≥ chars.length then .error .badUri
  else do
    let B ← readOctet chars k
    if B &&& 0x80 = 0 then .ok ([], UInt16.ofNat B, k + 2)
    else
      let n := leadingOnes B 1
      if n = 1 || n > 4 then .error .badUri
      else if k + 2 + 3 * (n - 1) ≥ chars.length then .error .badUri
      else
        let (octets, k) ← readContinuation chars (n - 1) (k + 2)
        let v := utf8ToOneUcs4Char (UInt8.ofNat B) octets
        if v ≥ 0x10000 then
          let v := v - 0x10000
          if v > 0xFFFFF then .error .badUri
          else .ok ([UInt16.ofNat ((v >>> 10) + 0xD800)], UInt16.ofNat ((v &&& 0x3FF) + 0xDC00), k)
        else .ok ([], UInt16.ofNat v, k)

/-- Reading continuation octets takes three units for each. -/
theorem readContinuation_eq_ok {chars : Chars} {n k k' : ℕ} {octets : List UInt8}
    (h : readContinuation chars n k = .ok (octets, k')) : k' = k + 3 * n ∧ octets.length = n := by
  induction n generalizing k octets with
  | zero =>
    cases h
    exact ⟨rfl, rfl⟩
  | succ n ih =>
    rw [readContinuation] at h
    obtain ⟨c, -, h⟩ := exists_of_bind_eq_ok h
    split_ifs at h
    obtain ⟨B, -, h⟩ := exists_of_bind_eq_ok h
    split_ifs at h
    obtain ⟨⟨octets', k''⟩, hrest, h⟩ := exists_of_bind_eq_ok h
    cases h
    obtain ⟨hk, hlen⟩ := ih hrest
    exact ⟨by omega, by rw [List.length_cons, hlen]⟩

/-- The escapes end behind their percent sign. -/
theorem lt_of_decodeEscape {chars high : Chars} {c : UInt16} {k k' : ℕ}
    (h : decodeEscape chars k = .ok (high, c, k')) : k < k' := by
  rw [decodeEscape] at h
  split_ifs at h
  obtain ⟨B, -, h⟩ := exists_of_bind_eq_ok h
  dsimp only at h
  split_ifs at h
  · cases h
    omega
  · obtain ⟨⟨octets, k''⟩, hrest, h⟩ := exists_of_bind_eq_ok h
    obtain ⟨hk, -⟩ := readContinuation_eq_ok hrest
    dsimp only at h
    split_ifs at h
    all_goals
      simp only [Except.ok.injEq, Prod.mk.injEq] at h
      omega

/-- Read the units from `start` on. -/
def readUnits (chars : Chars) (start length : ℕ) : Except Failure Chars :=
  if start + length ≤ chars.length then .ok ((chars.drop start).take length) else .error .pastEnd

/-- The loop of `Decode` from `k` on. -/
def decodeLoop (chars : Chars) (reservedSet : Option (ℕ → Bool)) (k : ℕ) (sb : Chars) :
    Except Failure Chars :=
  if k < chars.length then
    match readUnit chars k with
    | .error failure => .error failure
    | .ok c =>
      if c = percentSign then
        match _h : decodeEscape chars k with
        | .error failure => .error failure
        | .ok (high, c, k') =>
          if c.toNat < 128 && reservedSet.any (· c.toNat) then
            match readUnits chars k (k' - k + 1) with
            | .error failure => .error failure
            | .ok escapes => decodeLoop chars reservedSet (k' + 1) (sb ++ high ++ escapes)
          else decodeLoop chars reservedSet (k' + 1) (sb ++ high ++ [c])
      else decodeLoop chars reservedSet (k + 1) (sb ++ [c])
  else .ok sb
termination_by chars.length - k
decreasing_by
  · have := lt_of_decodeEscape _h
    omega
  · have := lt_of_decodeEscape _h
    omega
  · omega

/-- `Decode`. The loop leaves an empty text empty. -/
def decode (reservedSet : Option (ℕ → Bool)) (str : JSLinearString) :
    Except Failure JSLinearString :=
  decodeLoop str.chars reservedSet 0 [] >>= finishString

/-- `str_decodeURI`. -/
def decodeURI (str : JSLinearString) : Except Failure JSLinearString :=
  decode (some isUriReservedPlusPound) str

/-- `str_decodeURI_Component`. -/
def decodeURIComponent (str : JSLinearString) : Except Failure JSLinearString := decode none str

end SpiderMonkey.Vm.Uri
