import SpiderMonkey.Json.Grammar

/-!
# Reading string literals

`JSONParser::readString`, with the position of the parser as the units that are left. The
literal without escapes is taken as one piece; any other is gathered in a buffer.
-/

namespace SpiderMonkey.Json

/-- A token with the value it leaves in `v`. An error carries the message it reported; the
position of that error is the one the token was returned at. -/
inductive Token where
  | string (chars : Chars)
  | number (d : Binary64)
  | true
  | false
  | null
  | arrayOpen
  | arrayClose
  | objectOpen
  | objectClose
  | colon
  | comma
  | error (message : String)

/-- A token and the units left behind it; `none` when a unit past the end was read. -/
abbrev Scan := Option (Token × Chars)

/-- The loops over unescaped units stop at a quotation mark, a reverse solidus or a control
character. -/
def isUnescaped (c : UInt16) : Bool :=
  !(c == quotationMark || c == reverseSolidus || c ≤ 0x1F)

/-- `JS7_ISDEC`. -/
def isDec (c : UInt16) : Bool := 0x30 ≤ c.toNat && c.toNat ≤ 0x39

/-- `JS7_ISHEX`. -/
def isHex (c : UInt16) : Bool :=
  isDec c || (0x41 ≤ c.toNat && c.toNat ≤ 0x46) || (0x61 ≤ c.toNat && c.toNat ≤ 0x66)

/-- `tolower` on the letters and digits it is used for. -/
def tolower (c : ℕ) : ℕ := if 0x41 ≤ c ∧ c ≤ 0x5A then c + 0x20 else c

/-- `JS7_UNHEX`. -/
def unhex (c : UInt16) : ℕ :=
  if isDec c then c.toNat - 0x30 else 10 + tolower c.toNat - 0x61

/-- The unit an escape letter stands for. -/
def escapedChar (e : UInt16) : Option UInt16 :=
  if e = quotationMark then some 0x22
  else if e = 0x2F then some 0x2F
  else if e = reverseSolidus then some 0x5C
  else if e = 0x62 then some 0x08
  else if e = 0x66 then some 0x0C
  else if e = 0x6E then some 0x0A
  else if e = 0x72 then some 0x0D
  else if e = 0x74 then some 0x09
  else none

/-- The slow case of `readString`: append the unescaped `chunk` to the buffer, then read one
escape or the closing quotation mark at `current`. -/
def readStringSlow (buffer chunk current : Chars) : Scan :=
  match current with
  | [] => some (.error "unterminated string", [])
  | c :: current =>
    if c = quotationMark then some (.string (buffer ++ chunk), current)
    else if c ≠ reverseSolidus then
      some (.error "bad character in string literal", c :: current)
    else
      match current with
      | [] => some (.error "unterminated string", [])
      | e :: current =>
        match escapedChar e with
        | some c =>
            readStringSlow (buffer ++ chunk ++ [c]) (current.takeWhile isUnescaped)
              (current.dropWhile isUnescaped)
        | none =>
          if e = 0x75 then
            match current with
            | c₁ :: c₂ :: c₃ :: c₄ :: current =>
              if isHex c₁ && isHex c₂ && isHex c₃ && isHex c₄ then
                readStringSlow
                  (buffer ++ chunk ++ [UInt16.ofNat
                    (unhex c₁ <<< 12 ||| unhex c₂ <<< 8 ||| unhex c₃ <<< 4 ||| unhex c₄)])
                  (current.takeWhile isUnescaped) (current.dropWhile isUnescaped)
              else
                -- The error points to the first unit that is no hexadecimal digit.
                some (.error "bad Unicode escape",
                  (c₁ :: c₂ :: c₃ :: c₄ :: current).dropWhile isHex)
            | current => some (.error "bad Unicode escape", current.dropWhile isHex)
          else some (.error "bad escaped character", e :: current)
termination_by current.length
decreasing_by
  · have := (List.dropWhile_sublist isUnescaped (l := current)).length_le
    simp only [List.length_cons]
    omega
  · have := (List.dropWhile_sublist isUnescaped (l := current)).length_le
    simp only [List.length_cons]
    omega

/-- `JSONParser::readString`, called at a quotation mark. -/
def readString (current : Chars) : Scan :=
  match current with
  | [] => none
  | _ :: [] => some (.error "unterminated string literal", [])
  | _ :: start =>
    match start.dropWhile isUnescaped with
    | [] => readStringSlow [] (start.takeWhile isUnescaped) []
    | c :: current =>
      if c = quotationMark then some (.string (start.takeWhile isUnescaped), current)
      else if c = reverseSolidus then
        readStringSlow [] (start.takeWhile isUnescaped) (c :: current)
      else some (.error "bad control character in string literal", c :: current)

/-! ## What the loops and the escapes read -/

/-- The loops pass over exactly the units that stand for themselves. -/
theorem isUnescaped_iff (c : UInt16) : isUnescaped c = true ↔ IsUnescaped c := by
  have hcontrol : ¬ c ≤ 0x1F ↔ 0x20 ≤ c := by
    simp only [UInt16.le_iff_toNat_le]
    simp
    omega
  simp only [isUnescaped, IsUnescaped, Bool.not_eq_true', Bool.or_eq_false_iff, beq_eq_false_iff_ne,
    decide_eq_false_iff_not, hcontrol]
  tauto

/-- The switch on the escape letter is the table of the grammar. -/
theorem escapedChar_eq_some_iff (e c : UInt16) : escapedChar e = some c ↔ (e, c) ∈ escapes := by
  unfold escapedChar escapes
  split_ifs <;> simp_all [quotationMark, reverseSolidus, eq_comm]

/-- A digit of the grammar passes `JS7_ISHEX`, and `JS7_UNHEX` is its value. -/
theorem IsHexDigit.unhex_eq {c : UInt16} {n : ℕ} (h : IsHexDigit c n) :
    isHex c = true ∧ unhex c = n ∧ n < 16 := by
  simp only [isHex, isDec, unhex, tolower, Bool.or_eq_true, Bool.and_eq_true, decide_eq_true_eq]
  rcases h with ⟨hn, hc⟩ | ⟨hlow, hn, hc | hc⟩
  · rw [hc]
    split_ifs <;> omega
  · rw [hc]
    split_ifs <;> omega
  · rw [hc]
    split_ifs <;> omega

/-- What passes `JS7_ISHEX` is a digit of the grammar. -/
theorem isHexDigit_unhex {c : UInt16} (h : isHex c = true) : IsHexDigit c (unhex c) := by
  simp only [isHex, isDec, Bool.or_eq_true, Bool.and_eq_true, decide_eq_true_eq] at h
  simp only [IsHexDigit, isDec, unhex, tolower, Bool.and_eq_true, decide_eq_true_eq]
  split_ifs <;> omega

/-- Four hexadecimal digits put together by shifting. -/
theorem unicode_value (n₁ : ℕ) {n₂ n₃ n₄ : ℕ} (h₂ : n₂ < 16) (h₃ : n₃ < 16) (h₄ : n₄ < 16) :
    n₁ <<< 12 ||| n₂ <<< 8 ||| n₃ <<< 4 ||| n₄ = n₁ * 4096 + n₂ * 256 + n₃ * 16 + n₄ := by
  have hfirst : n₁ <<< 12 ||| n₂ <<< 8 = (n₁ * 16 + n₂) <<< 8 := by
    rw [← Nat.shiftLeft_add_eq_or_of_lt (by simp only [Nat.shiftLeft_eq]; omega)]
    simp only [Nat.shiftLeft_eq]
    omega
  have hsecond : (n₁ * 16 + n₂) <<< 8 ||| n₃ <<< 4 = ((n₁ * 16 + n₂) * 16 + n₃) <<< 4 := by
    rw [← Nat.shiftLeft_add_eq_or_of_lt (by simp only [Nat.shiftLeft_eq]; omega)]
    simp only [Nat.shiftLeft_eq]
    omega
  rw [hfirst, hsecond, ← Nat.shiftLeft_add_eq_or_of_lt (by omega)]
  simp only [Nat.shiftLeft_eq]
  omega

/-- Unescaped units in front of the inside of a literal stand for themselves. -/
theorem IsChars.unescaped_append {chunk cs s : Chars} (hchunk : ∀ c ∈ chunk, isUnescaped c)
    (h : IsChars cs s) : IsChars (chunk ++ cs) (chunk ++ s) := by
  induction chunk with
  | nil => exact h
  | cons c chunk ih =>
    have hc : IsUnescaped c := (isUnescaped_iff c).mp (hchunk c (by simp))
    exact .unescaped hc (ih fun d hd => hchunk d (by simp [hd]))

/-- The units a loop passed over, followed by a literal's inside from where it stopped. -/
theorem IsChars.of_dropWhile {cs body rest s : Chars} (h : IsChars body s)
    (hcs : cs.dropWhile isUnescaped = body ++ rest) :
    cs = (cs.takeWhile isUnescaped ++ body) ++ rest ∧
      IsChars (cs.takeWhile isUnescaped ++ body) (cs.takeWhile isUnescaped ++ s) := by
  constructor
  · rw [List.append_assoc, ← hcs, List.takeWhile_append_dropWhile]
  · exact h.unescaped_append fun c hc => List.all_eq_true.mp List.all_takeWhile c hc

/-! ## The slow case -/

/-- The slow case depends on the buffer with the pending chunk only. -/
theorem readStringSlow_congr {buffer chunk buffer' chunk' : Chars} (current : Chars)
    (h : buffer ++ chunk = buffer' ++ chunk') :
    readStringSlow buffer chunk current = readStringSlow buffer' chunk' current := by
  rw [readStringSlow.eq_def buffer chunk, readStringSlow.eq_def buffer' chunk', h]

/-- At a quotation mark the slow case returns what it has gathered. -/
theorem readStringSlow_quotationMark (buffer chunk current : Chars) :
    readStringSlow buffer chunk (quotationMark :: current) =
      some (.string (buffer ++ chunk), current) := by
  rw [readStringSlow.eq_def]
  simp only [↓reduceIte]

/-- At a control character the slow case reports an error. -/
theorem readStringSlow_control (buffer chunk current : Chars) {c : UInt16}
    (hquote : c ≠ quotationMark) (hescape : c ≠ reverseSolidus) :
    readStringSlow buffer chunk (c :: current) =
      some (.error "bad character in string literal", c :: current) := by
  rw [readStringSlow.eq_def]
  simp only [hquote, hescape, ↓reduceIte, ne_eq, not_false_eq_true]

/-- A scan of `current` that reads the rest of a literal, appending what it denotes to `before`,
or that reports an error. -/
def LiteralOrError (before current : Chars) (scan : Scan) : Prop :=
  (∃ body s rest, current = body ++ quotationMark :: rest ∧ IsChars body s ∧
    scan = some (.string (before ++ s), rest)) ∨
    ∃ message rest, scan = some (.error message, rest)

/-- An escape and the unescaped units behind it are part of the literal. -/
theorem LiteralOrError.extend (escape : Chars) {before current : Chars} {c : UInt16} {scan : Scan}
    (hescape : ∀ {body s : Chars}, IsChars body s → IsChars (escape ++ body) (c :: s))
    (h : LiteralOrError (before ++ [c] ++ current.takeWhile isUnescaped)
      (current.dropWhile isUnescaped) scan) : LiteralOrError before (escape ++ current) scan := by
  rcases h with ⟨body, s, rest, hcurrent, hbody, hscan⟩ | herror
  · obtain ⟨hsplit, hchars⟩ := hbody.of_dropWhile hcurrent
    left
    refine ⟨escape ++ (current.takeWhile isUnescaped ++ body), _, rest, ?_, hescape hchars, ?_⟩
    · rw [List.append_assoc, ← hsplit]
    · simpa only [List.append_assoc, List.cons_append, List.nil_append] using hscan
  · exact .inr herror

/-- The slow case reads the rest of a literal, or reports an error. -/
theorem readStringSlow_cases (buffer chunk current : Chars) :
    LiteralOrError (buffer ++ chunk) current (readStringSlow buffer chunk current) := by
  fun_induction readStringSlow buffer chunk current with
  | case2 buffer chunk current => exact .inl ⟨[], [], current, rfl, .nil, by simp⟩
  | case5 buffer chunk c hquote hescape e current c' hescaped ih =>
    obtain rfl : c = reverseSolidus := not_not.mp hescape
    have hmem := (escapedChar_eq_some_iff e c').mp hescaped
    exact LiteralOrError.extend [_, e] (fun h => .escape hmem h) ih
  | case6 buffer chunk c hquote hescape c₁ c₂ c₃ c₄ current hhex hescaped ih =>
    obtain rfl : c = reverseSolidus := not_not.mp hescape
    simp only [Bool.and_eq_true] at hhex
    obtain ⟨⟨⟨h₁, h₂⟩, h₃⟩, h₄⟩ := hhex
    have hvalue := unicode_value (unhex c₁) (isHexDigit_unhex h₂).unhex_eq.2.2
      (isHexDigit_unhex h₃).unhex_eq.2.2 (isHexDigit_unhex h₄).unhex_eq.2.2
    rw [hvalue] at ih ⊢
    exact LiteralOrError.extend [_, _, c₁, c₂, c₃, c₄]
      (fun h => .unicode (isHexDigit_unhex h₁) (isHexDigit_unhex h₂) (isHexDigit_unhex h₃)
        (isHexDigit_unhex h₄) h) ih
  | case1 | case3 | case4 | case7 | case8 | case9 => exact .inr ⟨_, _, rfl⟩

/-- The slow case reads the whole inside of a literal, wherever the loop before it stopped. -/
theorem readStringSlow_of_isChars {cs s : Chars} (h : IsChars cs s) (buffer rest : Chars) :
    readStringSlow buffer ((cs ++ quotationMark :: rest).takeWhile isUnescaped)
        ((cs ++ quotationMark :: rest).dropWhile isUnescaped) =
      some (.string (buffer ++ s), rest) := by
  have hquote : isUnescaped quotationMark = false := by decide
  have hsolidus : isUnescaped reverseSolidus = false := by decide
  have hne : reverseSolidus ≠ quotationMark := by decide
  induction h generalizing buffer with
  | nil =>
    simp only [List.nil_append, List.takeWhile_cons, List.dropWhile_cons, hquote]
    simp [readStringSlow_quotationMark]
  | @unescaped c cs s hc h ih =>
    have hpass : isUnescaped c = true := (isUnescaped_iff c).mpr hc
    simp only [List.cons_append, List.takeWhile_cons, List.dropWhile_cons, hpass, ↓reduceIte]
    have hshift := readStringSlow_congr ((cs ++ quotationMark :: rest).dropWhile isUnescaped)
      (List.append_cons buffer c ((cs ++ quotationMark :: rest).takeWhile isUnescaped))
    rw [hshift, ih, ← List.append_cons]
  | @escape e c cs s hmem h ih =>
    have hescaped := (escapedChar_eq_some_iff e c).mpr hmem
    simp only [List.cons_append, List.takeWhile_cons, List.dropWhile_cons, hsolidus]
    simp only [Bool.false_eq_true, ↓reduceIte]
    rw [readStringSlow.eq_def]
    simp only [hne, ↓reduceIte, ne_eq, not_true_eq_false, hescaped, ih]
    simp
  | @unicode c₁ c₂ c₃ c₄ n₁ n₂ n₃ n₄ cs s h₁ h₂ h₃ h₄ h ih =>
    obtain ⟨hhex₁, hval₁, -⟩ := h₁.unhex_eq
    obtain ⟨hhex₂, hval₂, hlt₂⟩ := h₂.unhex_eq
    obtain ⟨hhex₃, hval₃, hlt₃⟩ := h₃.unhex_eq
    obtain ⟨hhex₄, hval₄, hlt₄⟩ := h₄.unhex_eq
    have hescaped : escapedChar 0x75 = none := by decide
    simp only [List.cons_append, List.takeWhile_cons, List.dropWhile_cons, hsolidus]
    simp only [Bool.false_eq_true, ↓reduceIte]
    rw [readStringSlow.eq_def]
    simp only [hne, ↓reduceIte, ne_eq, not_true_eq_false, hescaped, Bool.and_self, hhex₁, hhex₂, hhex₃, hhex₄, hval₁, hval₂, hval₃, hval₄,
      unicode_value n₁ hlt₂ hlt₃ hlt₄, ih]
    simp

/-! ## The whole literal -/

/-- Where the slow case would read the literal, the fast path reads the same. -/
theorem readString_of_slow {c : UInt16} {start s rest : Chars} (hne : start ≠ [])
    (h : readStringSlow [] (start.takeWhile isUnescaped) (start.dropWhile isUnescaped) =
      some (.string s, rest)) : readString (c :: start) = some (.string s, rest) := by
  obtain ⟨d, start, rfl⟩ := List.exists_cons_of_ne_nil hne
  simp only [readString]
  split
  · next hnil => rwa [hnil] at h
  · next e current hcons =>
    rw [hcons] at h
    split_ifs with hquote hescape
    · rw [hquote, readStringSlow_quotationMark] at h
      exact h
    · exact h
    · rw [readStringSlow_control _ _ _ hquote hescape] at h
      simp at h

/-- A literal is read as the units it denotes. -/
theorem readString_of_isString {cs s : Chars} (h : IsString cs s) (rest : Chars) :
    readString (cs ++ rest) = some (.string s, rest) := by
  obtain ⟨h⟩ := h
  have hslow := readStringSlow_of_isChars h [] rest
  rw [List.cons_append, List.append_assoc, List.singleton_append]
  exact readString_of_slow (by simp) hslow

/-- At a quotation mark, `readString` reads a literal or reports an error. -/
theorem readString_cases (start : Chars) :
    (∃ cs s rest, quotationMark :: start = cs ++ rest ∧ IsString cs s ∧
      readString (quotationMark :: start) = some (.string s, rest)) ∨
      ∃ message rest, readString (quotationMark :: start) = some (.error message, rest) := by
  rcases start with _ | ⟨d, start⟩
  · exact .inr ⟨_, _, rfl⟩
  rcases readStringSlow_cases [] ((d :: start).takeWhile isUnescaped)
    ((d :: start).dropWhile isUnescaped) with ⟨body, s, rest, hbody, hchars, hslow⟩ | hslow
  · obtain ⟨hsplit, hstring⟩ := hchars.of_dropWhile hbody
    left
    refine ⟨_, _, rest, ?_, .mk hstring, readString_of_slow (by simp) hslow⟩
    rw [List.cons_append, List.append_assoc, List.singleton_append, ← hsplit]
  · right
    obtain ⟨message, rest, hslow⟩ := hslow
    simp only [readString]
    split
    · next hnil => exact ⟨message, rest, hnil ▸ hslow⟩
    · next e current hcons =>
      rw [hcons] at hslow
      split_ifs with hquote hescape
      · rw [hquote, readStringSlow_quotationMark] at hslow
        simp at hslow
      · exact ⟨message, rest, hslow⟩
      · exact ⟨_, _, rfl⟩

end SpiderMonkey.Json
