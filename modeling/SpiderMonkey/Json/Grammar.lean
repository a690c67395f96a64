import Mathlib
import SpiderMonkey.Lib.Binary64

/-!
# JSON texts and the values they denote

The grammar of JSON over 16-bit units, with any value at top level. Every rule also gives the
denoted value: an array keeps the order of its elements, an object maps each name to its last
value, and a number is the double nearest to its decimal.
-/

namespace SpiderMonkey.Json

/-- A text as its 16-bit units. -/
abbrev Chars := List UInt16

/-- The values a parse can produce. An object is the map of its own properties. -/
inductive Value where
  | undefined
  | null
  | boolean (b : Bool)
  | number (d : Binary64)
  | string (chars : Chars)
  | array (elements : List Value)
  | object (properties : Chars → Option Value)

abbrev quotationMark : UInt16 := 0x22
abbrev reverseSolidus : UInt16 := 0x5C
abbrev plusSign : UInt16 := 0x2B
abbrev comma : UInt16 := 0x2C
abbrev hyphenMinus : UInt16 := 0x2D
abbrev fullStop : UInt16 := 0x2E
abbrev colon : UInt16 := 0x3A
abbrev leftSquareBracket : UInt16 := 0x5B
abbrev rightSquareBracket : UInt16 := 0x5D
abbrev leftCurlyBracket : UInt16 := 0x7B
abbrev rightCurlyBracket : UInt16 := 0x7D

/-- The units of `null`. -/
def nullLiteral : Chars := [0x6E, 0x75, 0x6C, 0x6C]

/-- The units of `true`. -/
def trueLiteral : Chars := [0x74, 0x72, 0x75, 0x65]

/-- The units of `false`. -/
def falseLiteral : Chars := [0x66, 0x61, 0x6C, 0x73, 0x65]

/-- Space, tab, line feed and carriage return separate tokens. -/
def IsWhitespace (w : Chars) : Prop := ∀ c ∈ w, c = 0x20 ∨ c = 0x09 ∨ c = 0x0A ∨ c = 0x0D

/-- A decimal digit. -/
def IsDigit (c : UInt16) : Prop := 0x30 ≤ c.toNat ∧ c.toNat ≤ 0x39

/-- The number written by a run of decimal digits. -/
def digitsValue (ds : Chars) : ℕ := ds.foldl (fun n c => 10 * n + (c.toNat - 0x30)) 0

/-- A nonempty run of decimal digits. -/
def IsDigits (ds : Chars) : Prop := ds ≠ [] ∧ ∀ c ∈ ds, IsDigit c

/-- The integer part of a number has no leading zero. -/
inductive IsInteger : Chars → Prop
  | zero : IsInteger [0x30]
  | nonzero {c : UInt16} {ds : Chars} : IsDigit c → c ≠ 0x30 → (∀ d ∈ ds, IsDigit d) →
      IsInteger (c :: ds)

/-- The fractional part of a number, which may be absent. -/
inductive IsFraction : Chars → ℚ → Prop
  | none : IsFraction [] 0
  | digits {ds : Chars} : IsDigits ds →
      IsFraction (fullStop :: ds) (digitsValue ds / 10 ^ ds.length)

/-- The exponent part of a number, which may be absent. -/
inductive IsExponent : Chars → ℤ → Prop
  | none : IsExponent [] 0
  | unsigned {e : UInt16} {ds : Chars} : e = 0x65 ∨ e = 0x45 → IsDigits ds →
      IsExponent (e :: ds) (digitsValue ds)
  | plus {e : UInt16} {ds : Chars} : e = 0x65 ∨ e = 0x45 → IsDigits ds →
      IsExponent (e :: plusSign :: ds) (digitsValue ds)
  | minus {e : UInt16} {ds : Chars} : e = 0x65 ∨ e = 0x45 → IsDigits ds →
      IsExponent (e :: hyphenMinus :: ds) (-digitsValue ds)

/-- A number without its sign, and the decimal it writes. -/
inductive IsUnsigned : Chars → ℚ → Prop
  | mk {i f e : Chars} {q : ℚ} {k : ℤ} : IsInteger i → IsFraction f q → IsExponent e k →
      IsUnsigned (i ++ f ++ e) ((digitsValue i + q) * 10 ^ k)

/-- A number and its double. A minus sign negates, so that `-0` is the negative zero. -/
inductive IsNumber : Chars → Binary64 → Prop
  | unsigned {cs : Chars} {q : ℚ} : IsUnsigned cs q → IsNumber cs (Binary64.ofRat q)
  | minus {cs : Chars} {q : ℚ} : IsUnsigned cs q →
      IsNumber (hyphenMinus :: cs) (-Binary64.ofRat q)

/-- A unit that stands for itself in a string: no quotation mark, reverse solidus or control
character. -/
def IsUnescaped (c : UInt16) : Prop := 0x20 ≤ c ∧ c ≠ quotationMark ∧ c ≠ reverseSolidus

/-- The one-letter escapes, and the units they stand for. -/
def escapes : List (UInt16 × UInt16) :=
  [(quotationMark, 0x22), (0x2F, 0x2F), (reverseSolidus, 0x5C), (0x62, 0x08), (0x66, 0x0C),
    (0x6E, 0x0A), (0x72, 0x0D), (0x74, 0x09)]

/-- A hexadecimal digit of either case, and its value. -/
def IsHexDigit (c : UInt16) (n : ℕ) : Prop :=
  n < 10 ∧ c.toNat = 0x30 + n ∨
    10 ≤ n ∧ n < 16 ∧ (c.toNat = 0x41 + (n - 10) ∨ c.toNat = 0x61 + (n - 10))

/-- The inside of a string literal, and the units it denotes. -/
inductive IsChars : Chars → Chars → Prop
  | nil : IsChars [] []
  | unescaped {c : UInt16} {cs s : Chars} : IsUnescaped c → IsChars cs s →
      IsChars (c :: cs) (c :: s)
  | escape {e c : UInt16} {cs s : Chars} : (e, c) ∈ escapes → IsChars cs s →
      IsChars (reverseSolidus :: e :: cs) (c :: s)
  | unicode {c₁ c₂ c₃ c₄ : UInt16} {n₁ n₂ n₃ n₄ : ℕ} {cs s : Chars} : IsHexDigit c₁ n₁ →
      IsHexDigit c₂ n₂ → IsHexDigit c₃ n₃ → IsHexDigit c₄ n₄ → IsChars cs s →
      IsChars (reverseSolidus :: 0x75 :: c₁ :: c₂ :: c₃ :: c₄ :: cs)
        (UInt16.ofNat (n₁ * 4096 + n₂ * 256 + n₃ * 16 + n₄) :: s)

/-- A string literal, and the units it denotes. -/
inductive IsString : Chars → Chars → Prop
  | mk {cs s : Chars} : IsChars cs s → IsString (quotationMark :: (cs ++ [quotationMark])) s

/-- A repeated name keeps its last value. -/
def lastValues (members : List (Chars × Value)) : Chars → Option Value := fun name =>
  members.reverse.lookup name

mutual

/-- A value without the whitespace around it. -/
inductive IsValue : Chars → Value → Prop
  | null : IsValue nullLiteral .null
  | true : IsValue trueLiteral (.boolean true)
  | false : IsValue falseLiteral (.boolean false)
  | number {cs : Chars} {d : Binary64} : IsNumber cs d → IsValue cs (.number d)
  | string {cs s : Chars} : IsString cs s → IsValue cs (.string s)
  | emptyArray {w : Chars} : IsWhitespace w →
      IsValue (leftSquareBracket :: (w ++ [rightSquareBracket])) (.array [])
  | array {cs : Chars} {vs : List Value} : IsElements cs vs →
      IsValue (leftSquareBracket :: (cs ++ [rightSquareBracket])) (.array vs)
  | emptyObject {w : Chars} : IsWhitespace w →
      IsValue (leftCurlyBracket :: (w ++ [rightCurlyBracket])) (.object (lastValues []))
  | object {cs : Chars} {ms : List (Chars × Value)} : IsMembers cs ms →
      IsValue (leftCurlyBracket :: (cs ++ [rightCurlyBracket])) (.object (lastValues ms))

/-- The elements of an array, separated by commas, with the whitespace around them. -/
inductive IsElements : Chars → List Value → Prop
  | last {w cs w' : Chars} {v : Value} : IsWhitespace w → IsValue cs v → IsWhitespace w' →
      IsElements (w ++ cs ++ w') [v]
  | more {w cs w' cs' : Chars} {v : Value} {vs : List Value} : IsWhitespace w → IsValue cs v →
      IsWhitespace w' → IsElements cs' vs → IsElements (w ++ cs ++ w' ++ comma :: cs') (v :: vs)

/-- The members of an object, separated by commas, with the whitespace around them. -/
inductive IsMembers : Chars → List (Chars × Value) → Prop
  | last {w name w₁ w₂ cs w' s : Chars} {v : Value} : IsWhitespace w → IsString name s →
      IsWhitespace w₁ → IsWhitespace w₂ → IsValue cs v → IsWhitespace w' →
      IsMembers (w ++ name ++ w₁ ++ colon :: (w₂ ++ cs ++ w')) [(s, v)]
  | more {w name w₁ w₂ cs w' cs' s : Chars} {v : Value} {ms : List (Chars × Value)} :
      IsWhitespace w → IsString name s → IsWhitespace w₁ → IsWhitespace w₂ → IsValue cs v →
      IsWhitespace w' → IsMembers cs' ms →
      IsMembers (w ++ name ++ w₁ ++ colon :: (w₂ ++ cs ++ w' ++ comma :: cs')) ((s, v) :: ms)

end

/-- A JSON text: one value with whitespace around it. -/
inductive IsText : Chars → Value → Prop
  | mk {w cs w' : Chars} {v : Value} : IsWhitespace w → IsValue cs v → IsWhitespace w' →
      IsText (w ++ cs ++ w') v

end SpiderMonkey.Json
