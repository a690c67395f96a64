import SpiderMonkey.Json.ReadNumber

/-!
# The next token

The `advance` functions of `JSONParser`: each skips whitespace and reads one token, and they
differ in the tokens that their place in the text allows.
-/

namespace SpiderMonkey.Json

/-- `IsJSONWhitespace`. -/
def isJSONWhitespace (c : UInt16) : Bool := c == 0x09 || c == 0x0D || c == 0x0A || c == 0x20

/-- The loop in front of every token. -/
def skipWhitespace (current : Chars) : Chars := current.dropWhile isJSONWhitespace

/-- A keyword is compared only when enough units are left. -/
def readKeyword (keyword : Chars) (t : Token) (current : Chars) : Scan :=
  if keyword.isPrefixOf current then some (t, current.drop keyword.length)
  else some (.error "unexpected keyword", current)

/-- The tokens of one unit. -/
def punctuators : List (UInt16 × Token) :=
  [(leftSquareBracket, .arrayOpen), (rightSquareBracket, .arrayClose),
    (leftCurlyBracket, .objectOpen), (rightCurlyBracket, .objectClose), (comma, .comma),
    (colon, .colon)]

/-- `JSONParser::advance`, the next token where a value may stand. -/
def advance (conversions : Conversions) (current : Chars) : Scan :=
  match skipWhitespace current with
  | [] => some (.error "unexpected end of data", [])
  | c :: current =>
    if c = quotationMark then readString (c :: current)
    else if c = hyphenMinus ∨ isDec c then readNumber conversions (c :: current)
    else if c = 0x74 then readKeyword trueLiteral .true (c :: current)
    else if c = 0x66 then readKeyword falseLiteral .false (c :: current)
    else if c = 0x6E then readKeyword nullLiteral .null (c :: current)
    else
      match punctuators.lookup c with
      | some t => some (t, current)
      | none => some (.error "unexpected character", c :: current)

/-- The next token where only the given punctuators, and possibly a property name, may stand. -/
def advanceExpecting (names : Bool) (expected : List (UInt16 × Token))
    (endMessage otherMessage : String) (current : Chars) : Scan :=
  match skipWhitespace current with
  | [] => some (.error endMessage, [])
  | c :: current =>
    if names ∧ c = quotationMark then readString (c :: current)
    else
      match expected.lookup c with
      | some t => some (t, current)
      | none => some (.error otherMessage, c :: current)

/-- `JSONParser::advanceAfterObjectOpen`. -/
def advanceAfterObjectOpen : Chars → Scan :=
  advanceExpecting true [(rightCurlyBracket, .objectClose)]
    "end of data while reading object contents" "expected property name or '\x7d'"

/-- `JSONParser::advanceAfterArrayElement`. -/
def advanceAfterArrayElement : Chars → Scan :=
  advanceExpecting false [(comma, .comma), (rightSquareBracket, .arrayClose)]
    "end of data when ',' or ']' was expected" "expected ',' or ']' after array element"

/-- `JSONParser::advancePropertyName`. -/
def advancePropertyName : Chars → Scan :=
  advanceExpecting true [] "end of data when property name was expected"
    "expected double-quoted property name"

/-- `JSONParser::advancePropertyColon`. -/
def advancePropertyColon : Chars → Scan :=
  advanceExpecting false [(colon, .colon)]
    "end of data after property name when ':' was expected"
    "expected ':' after property name in object"

/-- `JSONParser::advanceAfterProperty`. -/
def advanceAfterProperty : Chars → Scan :=
  advanceExpecting false [(comma, .comma), (rightCurlyBracket, .objectClose)]
    "end of data after property value in object"
    "expected ',' or '\x7d' after property value in object"

/-! ## Whitespace -/

/-- The whitespace of the code is that of the grammar. -/
theorem isJSONWhitespace_iff (c : UInt16) :
    isJSONWhitespace c = true ↔ c = 0x20 ∨ c = 0x09 ∨ c = 0x0A ∨ c = 0x0D := by
  simp only [isJSONWhitespace, Bool.or_eq_true, beq_iff_eq]
  tauto

/-- The loop skips whitespace only. -/
theorem exists_skipWhitespace (current : Chars) :
    ∃ w, IsWhitespace w ∧ current = w ++ skipWhitespace current := by
  refine ⟨current.takeWhile isJSONWhitespace, ?_, ?_⟩
  · intro c hc
    exact (isJSONWhitespace_iff c).mp (List.all_eq_true.mp List.all_takeWhile c hc)
  · exact List.takeWhile_append_dropWhile.symm

/-- The loop skips all whitespace. -/
theorem skipWhitespace_append {w rest : Chars} (hw : IsWhitespace w)
    (hrest : ∀ c ∈ rest.head?, isJSONWhitespace c = false) : skipWhitespace (w ++ rest) = rest := by
  rw [skipWhitespace,
    List.dropWhile_append_of_pos fun c hc => (isJSONWhitespace_iff c).mpr (hw c hc)]
  rcases rest with _ | ⟨c, rest⟩
  · rfl
  · exact List.dropWhile_cons_of_neg (by simpa using hrest c rfl)

/-! ## The tokens of the grammar -/

/-- The texts of the tokens. -/
inductive Spells : Token → Chars → Prop
  | string {cs s : Chars} : IsString cs s → Spells (.string s) cs
  | number {cs : Chars} {d : Binary64} : IsNumber cs d → Spells (.number d) cs
  | true : Spells .true trueLiteral
  | false : Spells .false falseLiteral
  | null : Spells .null nullLiteral
  | punctuator {c : UInt16} {t : Token} : (c, t) ∈ punctuators → Spells t [c]

/-- A keyword is read when it stands there. -/
theorem readKeyword_append (keyword : Chars) (t : Token) (rest : Chars) :
    readKeyword keyword t (keyword ++ rest) = some (t, rest) := by
  have hprefix : keyword.isPrefixOf (keyword ++ rest) = true := by
    rw [List.isPrefixOf_iff_prefix]
    exact List.prefix_append keyword rest
  simp only [readKeyword, hprefix, ↓reduceIte, List.drop_left]

/-- `readKeyword` reads the keyword or reports an error. -/
theorem readKeyword_cases (keyword : Chars) (t : Token) (current : Chars) :
    (∃ rest, current = keyword ++ rest ∧ readKeyword keyword t current = some (t, rest)) ∨
      ∃ message rest, readKeyword keyword t current = some (.error message, rest) := by
  by_cases hprefix : keyword <+: current
  · obtain ⟨rest, rfl⟩ := hprefix
    exact .inl ⟨rest, rfl, readKeyword_append keyword t rest⟩
  · right
    refine ⟨"unexpected keyword", current, if_neg ?_⟩
    rwa [List.isPrefixOf_iff_prefix]

/-- A number begins with a minus sign or a digit. -/
theorem IsNumber.exists_head {cs : Chars} {d : Binary64} (h : IsNumber cs d) :
    ∃ c next, cs = c :: next ∧ (c = hyphenMinus ∨ isDec c = true) := by
  cases h with
  | unsigned h =>
    obtain ⟨c, next, rfl, hc⟩ := h.exists_digit
    exact ⟨c, next, rfl, .inr ((isDec_iff c).mpr hc)⟩
  | minus h => exact ⟨_, _, rfl, .inl rfl⟩

/-- A digit is none of the units the code compares with otherwise. -/
theorem isDec_ne {c : UInt16} (h : isDec c = true) :
    c ≠ quotationMark ∧ isJSONWhitespace c = false := by
  constructor
  · rintro rfl
    exact absurd h (by decide)
  · rw [Bool.eq_false_iff]
    intro hw
    rcases (isJSONWhitespace_iff c).mp hw with rfl | rfl | rfl | rfl <;>
      exact absurd h (by decide)

/-- The whitespace in front of a token is skipped. -/
theorem advance_skip (conversions : Conversions) {w cs : Chars} (hw : IsWhitespace w)
    (hcs : ∀ c ∈ cs.head?, isJSONWhitespace c = false) :
    advance conversions (w ++ cs) = advance conversions cs := by
  have hnil : IsWhitespace [] := by simp [IsWhitespace]
  simp only [advance]
  rw [skipWhitespace_append hw hcs, ← List.nil_append cs, skipWhitespace_append hnil hcs]
  rfl

/-- Every punctuator is read where a value may stand. -/
theorem advance_punctuator (conversions : Conversions) {c : UInt16} {t : Token}
    (h : (c, t) ∈ punctuators) (rest : Chars) :
    isJSONWhitespace c = false ∧ advance conversions (c :: rest) = some (t, rest) := by
  simp only [punctuators, List.mem_cons, Prod.mk.injEq, List.not_mem_nil, or_false] at h
  rcases h with ⟨rfl, rfl⟩ | ⟨rfl, rfl⟩ | ⟨rfl, rfl⟩ | ⟨rfl, rfl⟩ | ⟨rfl, rfl⟩ | ⟨rfl, rfl⟩ <;>
    exact ⟨by decide, rfl⟩

/-- A token of the grammar is read where it stands. A number also needs its end. -/
theorem advance_of_spells {conversions : Conversions} (hconv : conversions.Correct)
    {w cs rest : Chars} {t : Token} (hw : IsWhitespace w) (h : Spells t cs)
    (hend : ∀ d, t = .number d → EndsNumber rest) :
    advance conversions (w ++ (cs ++ rest)) = some (t, rest) := by
  cases h with
  | @string _ s h =>
    have hread := readString_of_isString h rest
    obtain ⟨hchars⟩ := h
    rw [advance_skip conversions hw (by simp; decide)]
    exact hread
  | @number _ d h =>
    have hread := readNumber_of_isNumber hconv h (hend d rfl)
    obtain ⟨c, next, rfl, hc⟩ := h.exists_head
    have hne : c ≠ quotationMark ∧ isJSONWhitespace c = false := by
      rcases hc with rfl | hc
      · decide
      · exact isDec_ne hc
    rw [advance_skip conversions hw (by simpa using hne.2)]
    simp only [advance, skipWhitespace, List.cons_append, List.dropWhile_cons, hne.2,
      Bool.false_eq_true, ↓reduceIte, hne.1, hc]
    exact hread
  | true =>
    rw [advance_skip conversions hw (by simp [trueLiteral]; decide)]
    exact readKeyword_append trueLiteral .true rest
  | false =>
    rw [advance_skip conversions hw (by simp [falseLiteral]; decide)]
    exact readKeyword_append falseLiteral .false rest
  | null =>
    rw [advance_skip conversions hw (by simp [nullLiteral]; decide)]
    exact readKeyword_append nullLiteral .null rest
  | @punctuator c t h =>
    obtain ⟨hc, hadvance⟩ := advance_punctuator conversions h rest
    rw [advance_skip conversions hw (by simpa using hc)]
    exact hadvance

/-- A scan of `current` that reads a token of the grammar, or that reports an error. -/
def TokenOrError (current : Chars) (scan : Scan) : Prop :=
  (∃ w cs t rest, current = w ++ (cs ++ rest) ∧ IsWhitespace w ∧ Spells t cs ∧
    scan = some (t, rest)) ∨ ∃ message rest, scan = some (.error message, rest)

/-- The token may stand behind whitespace. -/
theorem TokenOrError.append {w current : Chars} {scan : Scan} (hw : IsWhitespace w)
    (h : TokenOrError current scan) : TokenOrError (w ++ current) scan := by
  rcases h with ⟨w', cs, t, rest, rfl, hw', hcs, hscan⟩ | herror
  · refine .inl ⟨w ++ w', cs, t, rest, by simp only [List.append_assoc], ?_, hcs, hscan⟩
    intro c hc
    rcases List.mem_append.mp hc with hc | hc
    · exact hw c hc
    · exact hw' c hc
  · exact .inr herror

/-- A token without whitespace in front. -/
theorem TokenOrError.of_spells {current cs rest : Chars} {t : Token} {scan : Scan}
    (hcurrent : current = cs ++ rest) (h : Spells t cs) (hscan : scan = some (t, rest)) :
    TokenOrError current scan :=
  .inl ⟨[], cs, t, rest, hcurrent, by simp [IsWhitespace], h, hscan⟩

/-- A keyword is a token. -/
theorem readKeyword_tokenOrError {keyword : Chars} {t : Token} (h : Spells t keyword)
    (current : Chars) : TokenOrError current (readKeyword keyword t current) := by
  rcases readKeyword_cases keyword t current with ⟨rest, hcurrent, hread⟩ | herror
  · exact .of_spells hcurrent h hread
  · exact .inr herror

/-- A string literal is a token. -/
theorem readString_tokenOrError (start : Chars) :
    TokenOrError (quotationMark :: start) (readString (quotationMark :: start)) := by
  rcases readString_cases start with ⟨cs, s, rest, hcurrent, hcs, hread⟩ | herror
  · exact .of_spells hcurrent (.string hcs) hread
  · exact .inr herror

/-- A key that is found is in the table with its value. -/
theorem mem_of_lookup {expected : List (UInt16 × Token)} {c : UInt16} {t : Token}
    (h : expected.lookup c = some t) : (c, t) ∈ expected := by
  obtain ⟨l₁, l₂, rfl, -⟩ := List.lookup_eq_some_iff.mp h
  simp

/-- Where a value may stand, `advance` reads a token of the grammar or reports an error. -/
theorem advance_cases {conversions : Conversions} (hconv : conversions.Correct)
    (current : Chars) : TokenOrError current (advance conversions current) := by
  obtain ⟨w, hw, hcurrent⟩ := exists_skipWhitespace current
  rw [advance]
  generalize skipWhitespace current = cs at hcurrent
  rw [hcurrent]
  apply TokenOrError.append hw
  rcases cs with _ | ⟨c, cs⟩
  · exact .inr ⟨_, _, rfl⟩
  simp only
  split_ifs with hquote hnumber htrue hfalse hnull
  · rw [hquote]
    exact readString_tokenOrError cs
  · rcases readNumber_cases hconv c cs with ⟨text, d, rest, hsplit, htext, hread⟩ | herror
    · exact .of_spells hsplit (.number htext) hread
    · exact .inr herror
  · exact readKeyword_tokenOrError .true _
  · exact readKeyword_tokenOrError .false _
  · exact readKeyword_tokenOrError .null _
  · split
    · next t hlookup => exact @TokenOrError.of_spells _ [c] _ t _ rfl (.punctuator (mem_of_lookup hlookup)) rfl
    · exact .inr ⟨_, _, rfl⟩

/-! ## The tokens a place allows -/

/-- A punctuator is neither whitespace nor a quotation mark. -/
theorem punctuator_ne {c : UInt16} {t : Token} (h : (c, t) ∈ punctuators) :
    isJSONWhitespace c = false ∧ c ≠ quotationMark := by
  simp only [punctuators, List.mem_cons, Prod.mk.injEq, List.not_mem_nil, or_false] at h
  rcases h with ⟨rfl, -⟩ | ⟨rfl, -⟩ | ⟨rfl, -⟩ | ⟨rfl, -⟩ | ⟨rfl, -⟩ | ⟨rfl, -⟩ <;> decide

section Expecting

variable (names : Bool) (expected : List (UInt16 × Token)) (endMessage otherMessage : String)

/-- `advanceExpecting` reads what it expects or reports an error. -/
theorem advanceExpecting_cases (current : Chars) :
    (names = true ∧ ∃ w cs s rest, current = w ++ (cs ++ rest) ∧ IsWhitespace w ∧ IsString cs s ∧
      advanceExpecting names expected endMessage otherMessage current =
        some (.string s, rest)) ∨
      (∃ w c t rest, current = w ++ c :: rest ∧ IsWhitespace w ∧ (c, t) ∈ expected ∧
        advanceExpecting names expected endMessage otherMessage current = some (t, rest)) ∨
      ∃ message rest, advanceExpecting names expected endMessage otherMessage current =
        some (.error message, rest) := by
  obtain ⟨w, hw, hcurrent⟩ := exists_skipWhitespace current
  rw [advanceExpecting]
  generalize skipWhitespace current = cs at hcurrent
  rw [hcurrent]
  rcases cs with _ | ⟨c, cs⟩
  · exact .inr (.inr ⟨_, _, rfl⟩)
  simp only
  split_ifs with hname
  · obtain ⟨hnames, rfl⟩ := hname
    rcases readString_cases cs with ⟨text, s, rest, hsplit, htext, hread⟩ | herror
    · exact .inl ⟨hnames, w, text, s, rest, by rw [hsplit], hw, htext, hread⟩
    · exact .inr (.inr herror)
  · split
    · next t hlookup => exact .inr (.inl ⟨w, c, t, cs, rfl, hw, mem_of_lookup hlookup, rfl⟩)
    · exact .inr (.inr ⟨_, _, rfl⟩)

/-- An expected punctuator is read. -/
theorem advanceExpecting_of_lookup {expected : List (UInt16 × Token)} (hexpected : expected ⊆ punctuators) {w rest : Chars}
    {c : UInt16} {t : Token} (hw : IsWhitespace w) (h : expected.lookup c = some t) :
    advanceExpecting names expected endMessage otherMessage (w ++ c :: rest) =
      some (t, rest) := by
  obtain ⟨hc, hne⟩ := punctuator_ne (hexpected (mem_of_lookup h))
  rw [advanceExpecting, skipWhitespace_append hw (by simpa using hc)]
  simp only [hne, and_false, ↓reduceIte, h]

/-- An expected property name is read. -/
theorem advanceExpecting_of_isString {w cs s : Chars} (rest : Chars) (hw : IsWhitespace w)
    (h : IsString cs s) :
    advanceExpecting true expected endMessage otherMessage (w ++ (cs ++ rest)) =
      some (.string s, rest) := by
  have hread := readString_of_isString h rest
  obtain ⟨hchars⟩ := h
  rw [advanceExpecting, skipWhitespace_append hw (by simp; decide)]
  simp only [List.cons_append, and_self, ↓reduceIte]
  exact hread

end Expecting

end SpiderMonkey.Json
