import SpiderMonkey.Json.ReadString

/-!
# Reading numbers

`JSONParser::readNumber` with the conversions of `jsnum.cpp`. An integer of fewer than 16 digits
is accumulated in 64 bits, a longer one in double arithmetic that is redone by `js_strtod_harder`
when it reaches 2^53, and any other number is converted by `js_strtod`.
-/

namespace SpiderMonkey.Json

/-- The conversions of decimals without a sign to doubles. -/
structure Conversions where
  jsStrtod : Chars → Binary64
  jsStrtodHarder : Chars → Binary64

/-- The conversions return the double nearest to the decimal. -/
structure Conversions.Correct (conversions : Conversions) : Prop where
  jsStrtod : ∀ cs q, IsUnsigned cs q → conversions.jsStrtod cs = Binary64.ofRat q
  jsStrtodHarder : ∀ ds, IsDigits ds →
    conversions.jsStrtodHarder ds = Binary64.ofRat (digitsValue ds)

/-- `ParseDecimalNumber`. Its loop reads the first digit before it tests for the end. -/
def parseDecimalNumber (chars : Chars) : Option Binary64 :=
  match chars with
  | [] => none
  | chars =>
    let dec := chars.foldl (fun dec c => dec * 10 + (c - 0x30).toUInt8.toUInt64) (0 : UInt64)
    some (Binary64.ofNat dec.toNat)

/-- The digit a unit stands for in the bases up to 36. -/
def prefixDigit (c : UInt16) : Option ℕ :=
  if 0x30 ≤ c.toNat ∧ c.toNat ≤ 0x39 then some (c.toNat - 0x30)
  else if 0x61 ≤ c.toNat ∧ c.toNat ≤ 0x7A then some (c.toNat - 0x61 + 10)
  else if 0x41 ≤ c.toNat ∧ c.toNat ≤ 0x5A then some (c.toNat - 0x41 + 10)
  else none

/-- The loop of `GetPrefixInteger`, with the units it leaves. -/
def getPrefixIntegerLoop (base : ℕ) (d : Binary64) : Chars → Binary64 × Chars
  | [] => (d, [])
  | c :: s =>
    match prefixDigit c with
    | none => (d, c :: s)
    | some digit =>
      if digit ≥ base then (d, c :: s)
      else getPrefixIntegerLoop base (d * Binary64.ofNat base + Binary64.ofNat digit) s

/-- The units from `start` up to `current`. -/
def textBetween (start current : Chars) : Chars := start.take (start.length - current.length)

/-- `GetPrefixInteger` for base ten. -/
def getPrefixInteger (conversions : Conversions) (start : Chars) : Binary64 :=
  let (d, s) := getPrefixIntegerLoop 10 (Binary64.ofNat 0) start
  if d.lt (Binary64.ofNat (2 ^ 53)) then d
  else conversions.jsStrtodHarder (textBetween start s)

/-- Skip a nonempty run of digits at `d :: next`. -/
def skipDigits (message : String) (d : UInt16) (next : Chars) : Except (Token × Chars) Chars :=
  if isDec d then .ok (next.dropWhile isDec) else .error (.error message, d :: next)

/-- Skip `(\.[0-9]+)?`. -/
def skipFraction (current : Chars) : Except (Token × Chars) Chars :=
  match current with
  | [] => .ok []
  | c :: current =>
    if c = fullStop then
      match current with
      | [] => .error (.error "missing digits after decimal point", [])
      | d :: next => skipDigits "unterminated fractional number" d next
    else .ok (c :: current)

/-- Skip `([eE][\+\-]?[0-9]+)?`. -/
def skipExponent (current : Chars) : Except (Token × Chars) Chars :=
  match current with
  | [] => .ok []
  | c :: current =>
    if c = 0x65 ∨ c = 0x45 then
      match current with
      | [] => .error (.error "missing digits after exponent indicator", [])
      | sign :: next =>
        if sign = plusSign ∨ sign = hyphenMinus then
          match next with
          | [] => .error (.error "missing digits after exponent sign", [])
          | d :: next => skipDigits "exponent part is missing a number" d next
        else skipDigits "exponent part is missing a number" sign next
    else .ok (c :: current)

/-- The number token for a magnitude. -/
def numberToken (negative : Bool) (d : Binary64) : Token := .number (if negative then -d else d)

/-- `readNumber` from `digitStart` on. -/
def readUnsigned (conversions : Conversions) (negative : Bool) (digitStart : Chars) : Scan :=
  match digitStart with
  | [] => none
  | c :: next =>
    if !isDec c then some (.error "unexpected non-digit", c :: next)
    else
      let current := if c = 0x30 then next else next.dropWhile isDec
      if ∀ d ∈ current.head?, d ≠ fullStop ∧ d ≠ 0x65 ∧ d ≠ 0x45 then
        -- No fractional or exponent part.
        let chars := textBetween digitStart current
        if chars.length < 16 then
          (parseDecimalNumber chars).map fun d => (numberToken negative d, current)
        else some (numberToken negative (getPrefixInteger conversions chars), current)
      else
        match skipFraction current >>= skipExponent with
        | .error e => some e
        | .ok current =>
          let d := conversions.jsStrtod (textBetween digitStart current)
          some (numberToken negative d, current)

/-- `JSONParser::readNumber`, called at a minus sign or a digit. -/
def readNumber (conversions : Conversions) (current : Chars) : Scan :=
  match current with
  | [] => none
  | c :: next =>
    if c = hyphenMinus then
      match next with
      | [] => some (.error "no number after minus sign", [])
      | digitStart => readUnsigned conversions true digitStart
    else readUnsigned conversions false (c :: next)

/-! ## Converting integers -/

/-- `JS7_ISDEC` is the digit of the grammar. -/
theorem isDec_iff (c : UInt16) : isDec c = true ↔ IsDigit c := by
  simp [isDec, IsDigit]

/-- The text up to what is left behind it. -/
theorem textBetween_append (cs rest : Chars) : textBetween (cs ++ rest) rest = cs := by
  simp [textBetween]

/-- Accumulating digits in 64 bits is exact while they cannot overflow. -/
theorem parseDecimal_foldl {ds : Chars} (hds : ∀ c ∈ ds, IsDigit c) (dec : UInt64)
    (hfit : (dec.toNat + 1) * 10 ^ ds.length ≤ 2 ^ 64) :
    (ds.foldl (fun dec c => dec * 10 + (c - 0x30).toUInt8.toUInt64) dec).toNat =
      ds.foldl (fun n c => 10 * n + (c.toNat - 0x30)) dec.toNat := by
  induction ds generalizing dec with
  | nil => rfl
  | cons c ds ih =>
    obtain ⟨hlow, hhigh⟩ := hds c (by simp)
    have hpow : 1 ≤ 10 ^ ds.length := Nat.one_le_pow _ _ (by norm_num)
    have hdigit : (c - 0x30).toUInt8.toUInt64.toNat = c.toNat - 0x30 := by
      have hsub : (c - 0x30).toNat = c.toNat - 0x30 :=
        UInt16.toNat_sub_of_le _ _ (UInt16.le_iff_toNat_le.mpr hlow)
      simp only [UInt8.toNat_toUInt64, UInt16.toNat_toUInt8, hsub]
      omega
    have hbound : (dec.toNat * 10 + (c.toNat - 0x30) + 1) * 10 ^ ds.length ≤ 2 ^ 64 := by
      calc (dec.toNat * 10 + (c.toNat - 0x30) + 1) * 10 ^ ds.length
          ≤ ((dec.toNat + 1) * 10) * 10 ^ ds.length := Nat.mul_le_mul_right _ (by omega)
        _ = (dec.toNat + 1) * 10 ^ (ds.length + 1) := by rw [pow_succ]; ring
        _ ≤ 2 ^ 64 := hfit
    have hlt : dec.toNat * 10 + (c.toNat - 0x30) < 2 ^ 64 := by nlinarith
    have hstep : (dec * 10 + (c - 0x30).toUInt8.toUInt64).toNat =
        10 * dec.toNat + (c.toNat - 0x30) := by
      simp only [UInt64.toNat_add, UInt64.toNat_mul, hdigit]
      simp
      omega
    simp only [List.foldl_cons]
    rw [ih (fun d hd => hds d (by simp [hd])) _ (by rw [hstep]; linarith [hbound]), hstep]

/-- A short run of digits is converted exactly. -/
theorem parseDecimalNumber_eq {ds : Chars} (h : IsDigits ds) (hlen : ds.length < 16) :
    parseDecimalNumber ds = some (Binary64.ofRat (digitsValue ds)) := by
  obtain ⟨c, ds, rfl⟩ := List.exists_cons_of_ne_nil h.1
  have hpow : 10 ^ (c :: ds).length ≤ 10 ^ 15 := Nat.pow_le_pow_right (by norm_num) (by omega)
  have hfold := parseDecimal_foldl h.2 0 (by simp only [UInt64.toNat_zero]; omega)
  simp only [parseDecimalNumber, hfold, Binary64.ofRat_natCast]
  rfl

/-- The double accumulated for the integer `n`: exact below 2^53, and from there on only known
not to fall below it again. -/
def Tracks (d : Binary64) (n : ℕ) : Prop :=
  n < 2 ^ 53 ∧ d = Binary64.ofNat n ∨ 2 ^ 53 ≤ n ∧ Binary64.AtLeast (2 ^ (53 : ℤ)) d

/-- An integer from 2^53 on is converted to a double that is not below. -/
theorem atLeast_ofNat {n : ℕ} (h : 2 ^ 53 ≤ n) :
    Binary64.AtLeast (2 ^ (53 : ℤ)) (Binary64.ofNat n) := by
  apply Binary64.atLeast_ofMagnitude
  · norm_num
  · exact_mod_cast h

/-- One more digit. -/
theorem Tracks.step {base : ℕ} {d : Binary64} {n k : ℕ} (h : Tracks d n) (hbase : base ≤ 2 ^ 53)
    (hk : k < base) : Tracks (d * Binary64.ofNat base + Binary64.ofNat k) (base * n + k) := by
  have hpos : 0 < base := Nat.zero_lt_of_lt hk
  have hk53 : k ≤ 2 ^ 53 := hk.le.trans hbase
  rcases h with ⟨hn, rfl⟩ | ⟨hn, hd⟩
  · rw [Binary64.ofNat_mul_ofNat hn.le hbase, mul_comm n base]
    by_cases hproduct : base * n ≤ 2 ^ 53
    · rw [Binary64.ofNat_add_ofNat hproduct hk53]
      rcases Nat.lt_or_ge (base * n + k) (2 ^ 53) with hlt | hge
      · exact .inl ⟨hlt, rfl⟩
      · exact .inr ⟨hge, atLeast_ofNat hge⟩
    · exact .inr ⟨by omega, (atLeast_ofNat (by omega)).add_ofNat (by norm_num) hk53⟩
  · have hmul := hd.mul_ofNat (by norm_num) hpos hbase
    have hle : n ≤ base * n := Nat.le_mul_of_pos_left n hpos
    exact .inr ⟨by omega, hmul.add_ofNat (by norm_num) hk53⟩

/-- The loop passes over digits and tracks the integer they write. -/
theorem getPrefixIntegerLoop_digits {ds : Chars} (hds : ∀ c ∈ ds, IsDigit c) {d : Binary64}
    {n : ℕ} (h : Tracks d n) :
    Tracks (getPrefixIntegerLoop 10 d ds).1
        (ds.foldl (fun n c => 10 * n + (c.toNat - 0x30)) n) ∧
      (getPrefixIntegerLoop 10 d ds).2 = [] := by
  induction ds generalizing d n with
  | nil => exact ⟨h, rfl⟩
  | cons c ds ih =>
    have hc : IsDigit c := hds c (by simp)
    have hdigit : prefixDigit c = some (c.toNat - 0x30) := if_pos hc
    have hlt : c.toNat - 0x30 < 10 := by
      have := hc.2
      omega
    simp only [getPrefixIntegerLoop, hdigit, ge_iff_le, not_le.mpr hlt, ↓reduceIte,
      List.foldl_cons]
    exact ih (fun d hd => hds d (by simp [hd])) (h.step (by norm_num) hlt)

/-- A run of digits is converted to the nearest double. -/
theorem getPrefixInteger_eq {conversions : Conversions} (hconv : conversions.Correct)
    {ds : Chars} (h : IsDigits ds) :
    getPrefixInteger conversions ds = Binary64.ofRat (digitsValue ds) := by
  have hzero : Tracks (Binary64.ofNat 0) 0 := .inl ⟨by norm_num, rfl⟩
  obtain ⟨htracks, hrest⟩ := getPrefixIntegerLoop_digits h.2 hzero
  have htext : textBetween ds [] = ds := by simpa using textBetween_append ds []
  simp only [getPrefixInteger, hrest, htext]
  rcases htracks with ⟨hlt, heq⟩ | ⟨hge, hlow⟩
  · rw [heq, Binary64.lt_ofNat hlt.le le_rfl, decide_eq_true hlt, Binary64.ofRat_natCast]
    rfl
  · have hcast : ((2 : ℚ) ^ (53 : ℤ)) = ((2 ^ 53 : ℕ) : ℚ) := by norm_num
    rw [hcast] at hlow
    rw [hlow.not_lt le_rfl]
    exact hconv.jsStrtodHarder ds h

/-! ## The parts of a number -/

/-- What may follow a number: nothing that would continue it. -/
def EndsNumber (rest : Chars) : Prop :=
  ∀ c ∈ rest.head?, isDec c = false ∧ c ≠ fullStop ∧ c ≠ 0x65 ∧ c ≠ 0x45

/-- Skipping digits stops right behind them. -/
theorem dropWhile_isDec_append {ds rest : Chars} (hds : ∀ c ∈ ds, IsDigit c)
    (hrest : ∀ c ∈ rest.head?, isDec c = false) : (ds ++ rest).dropWhile isDec = rest := by
  rw [List.dropWhile_append_of_pos fun c hc => (isDec_iff c).mpr (hds c hc)]
  rcases rest with _ | ⟨c, rest⟩
  · rfl
  · exact List.dropWhile_cons_of_neg (by simpa using hrest c rfl)

/-- Skipping digits passes over digits. -/
theorem isDigit_of_mem_takeWhile {cs : Chars} : ∀ c ∈ cs.takeWhile isDec, IsDigit c :=
  fun c hc => (isDec_iff c).mp (List.all_eq_true.mp List.all_takeWhile c hc)

/-- `skipDigits` skips a nonempty run of digits or reports an error. -/
theorem skipDigits_cases (message : String) (d : UInt16) (next : Chars) :
    (∃ ds rest, d :: next = ds ++ rest ∧ IsDigits ds ∧ skipDigits message d next = .ok rest) ∨
      ∃ message' rest, skipDigits message d next = .error (.error message', rest) := by
  unfold skipDigits
  split_ifs with hd
  · left
    refine ⟨d :: next.takeWhile isDec, next.dropWhile isDec, by simp, ⟨by simp, ?_⟩, rfl⟩
    intro c hc
    rcases List.mem_cons.mp hc with rfl | hc
    · exact (isDec_iff c).mp hd
    · exact isDigit_of_mem_takeWhile c hc
  · exact .inr ⟨_, _, rfl⟩

/-- `skipDigits` skips the whole run of digits. -/
theorem skipDigits_of_isDigits (message : String) {d : UInt16} {next ds rest : Chars}
    (h : IsDigits ds) (hcs : d :: next = ds ++ rest)
    (hrest : ∀ c ∈ rest.head?, isDec c = false) : skipDigits message d next = .ok rest := by
  obtain ⟨c, ds, rfl⟩ := List.exists_cons_of_ne_nil h.1
  obtain ⟨rfl, hnext⟩ := List.cons.inj hcs
  have hd : isDec d = true := (isDec_iff d).mpr (h.2 d (by simp))
  simp only [skipDigits, hd, ↓reduceIte]
  rw [show next = ds ++ rest from hnext, dropWhile_isDec_append (fun c hc => h.2 c (by simp [hc])) hrest]

/-- `skipFraction` skips a fractional part or reports an error. -/
theorem skipFraction_cases (current : Chars) :
    (∃ cs q rest, current = cs ++ rest ∧ IsFraction cs q ∧ skipFraction current = .ok rest) ∨
      ∃ message rest, skipFraction current = .error (.error message, rest) := by
  rcases current with _ | ⟨c, current⟩
  · exact .inl ⟨[], 0, [], rfl, .none, rfl⟩
  by_cases hc : c = fullStop
  · subst hc
    rcases current with _ | ⟨d, next⟩
    · exact .inr ⟨_, _, rfl⟩
    · rcases skipDigits_cases "unterminated fractional number" d next with
        ⟨ds, rest, hsplit, hds, hskip⟩ | herror
      · exact .inl ⟨fullStop :: ds, _, rest, by rw [hsplit]; rfl, .digits hds, hskip⟩
      · exact .inr herror
  · exact .inl ⟨[], 0, c :: current, rfl, .none, by simp only [skipFraction, hc, ↓reduceIte]⟩

/-- `skipFraction` skips the whole fractional part. -/
theorem skipFraction_of_isFraction {cs rest : Chars} {q : ℚ} (h : IsFraction cs q)
    (hrest : ∀ c ∈ rest.head?, isDec c = false ∧ c ≠ fullStop) :
    skipFraction (cs ++ rest) = .ok rest := by
  cases h with
  | none =>
    rcases rest with _ | ⟨c, rest⟩
    · rfl
    · have hc := (hrest c rfl).2
      simp only [List.nil_append, skipFraction, hc, ↓reduceIte]
  | @digits ds hds =>
    obtain ⟨d, ds, rfl⟩ := List.exists_cons_of_ne_nil hds.1
    exact skipDigits_of_isDigits _ hds rfl fun c hc => (hrest c hc).1

/-- `skipExponent` skips an exponent part or reports an error. -/
theorem skipExponent_cases (current : Chars) :
    (∃ cs k rest, current = cs ++ rest ∧ IsExponent cs k ∧ skipExponent current = .ok rest) ∨
      ∃ message rest, skipExponent current = .error (.error message, rest) := by
  rcases current with _ | ⟨e, current⟩
  · exact .inl ⟨[], 0, [], rfl, .none, rfl⟩
  by_cases he : e = 0x65 ∨ e = 0x45
  swap
  · exact .inl ⟨[], 0, e :: current, rfl, .none, by simp only [skipExponent, he, ↓reduceIte]⟩
  rcases current with _ | ⟨sign, next⟩
  · exact .inr ⟨"missing digits after exponent indicator", [],
      by simp only [skipExponent, he, ↓reduceIte]⟩
  by_cases hsign : sign = plusSign ∨ sign = hyphenMinus
  · rcases next with _ | ⟨d, next⟩
    · exact .inr ⟨"missing digits after exponent sign", [],
        by simp only [skipExponent, he, hsign, ↓reduceIte]⟩
    · have heq : skipExponent (e :: sign :: d :: next) =
          skipDigits "exponent part is missing a number" d next := by
        simp only [skipExponent, he, hsign, ↓reduceIte]
      rw [heq]
      rcases skipDigits_cases "exponent part is missing a number" d next with
        ⟨ds, rest, hsplit, hds, hskip⟩ | herror
      · rw [hsplit]
        rcases hsign with rfl | rfl
        · exact .inl ⟨e :: plusSign :: ds, _, rest, rfl, .plus he hds, hskip⟩
        · exact .inl ⟨e :: hyphenMinus :: ds, _, rest, rfl, .minus he hds, hskip⟩
      · exact .inr herror
  · have heq : skipExponent (e :: sign :: next) =
        skipDigits "exponent part is missing a number" sign next := by
      simp only [skipExponent, he, hsign, ↓reduceIte]
    rw [heq]
    rcases skipDigits_cases "exponent part is missing a number" sign next with
      ⟨ds, rest, hsplit, hds, hskip⟩ | herror
    · rw [hsplit]
      exact .inl ⟨e :: ds, _, rest, rfl, .unsigned he hds, hskip⟩
    · exact .inr herror

/-- `skipExponent` skips the whole exponent part. -/
theorem skipExponent_of_isExponent {cs rest : Chars} {k : ℤ} (h : IsExponent cs k)
    (hrest : ∀ c ∈ rest.head?, isDec c = false ∧ c ≠ 0x65 ∧ c ≠ 0x45) :
    skipExponent (cs ++ rest) = .ok rest := by
  have hdigit : ∀ c ∈ rest.head?, isDec c = false := fun c hc => (hrest c hc).1
  cases h with
  | none =>
    rcases rest with _ | ⟨c, rest⟩
    · rfl
    · have hc := (hrest c rfl).2
      simp only [List.nil_append, skipExponent, hc.1, hc.2, or_self, ↓reduceIte]
  | @unsigned e ds he hds =>
    obtain ⟨d, ds, rfl⟩ := List.exists_cons_of_ne_nil hds.1
    have hd : isDec d = true := (isDec_iff d).mpr (hds.2 d (by simp))
    have hsign : ¬ (d = plusSign ∨ d = hyphenMinus) := by
      rintro (rfl | rfl) <;> exact absurd hd (by decide)
    simp only [List.cons_append, skipExponent, he, hsign, ↓reduceIte]
    exact skipDigits_of_isDigits _ hds rfl hdigit
  | @plus e ds he hds =>
    obtain ⟨d, ds, rfl⟩ := List.exists_cons_of_ne_nil hds.1
    simp only [List.cons_append, skipExponent, he, true_or, ↓reduceIte]
    exact skipDigits_of_isDigits _ hds rfl hdigit
  | @minus e ds he hds =>
    obtain ⟨d, ds, rfl⟩ := List.exists_cons_of_ne_nil hds.1
    simp only [List.cons_append, skipExponent, he, or_true, ↓reduceIte]
    exact skipDigits_of_isDigits _ hds rfl hdigit

/-- Both optional parts together. -/
theorem skipParts_cases (current : Chars) :
    (∃ f e q k rest, current = f ++ (e ++ rest) ∧ IsFraction f q ∧ IsExponent e k ∧
      (skipFraction current >>= skipExponent) = .ok rest) ∨
      ∃ message rest,
        (skipFraction current >>= skipExponent) = .error (.error message, rest) := by
  rcases skipFraction_cases current with ⟨f, q, current, rfl, hf, hskip⟩ | ⟨message, rest, hskip⟩
  · rw [hskip]
    rcases skipExponent_cases current with ⟨e, k, rest, rfl, he, hskip'⟩ | herror
    · exact .inl ⟨f, e, q, k, rest, rfl, hf, he, hskip'⟩
    · exact .inr herror
  · rw [hskip]
    exact .inr ⟨message, rest, rfl⟩

/-! ## The whole number -/

/-- The integer part is a run of digits. -/
theorem IsInteger.isDigits {i : Chars} (h : IsInteger i) : IsDigits i := by
  cases h with
  | zero => exact ⟨by simp, by simp [IsDigit]⟩
  | @nonzero c ds hc hne hds =>
    refine ⟨by simp, ?_⟩
    intro d hd
    rcases List.mem_cons.mp hd with rfl | hd
    · exact hc
    · exact hds d hd

/-- At a digit, the integer part ends where the code stops. -/
theorem isInteger_split {c : UInt16} (next : Chars) (hc : isDec c = true) :
    ∃ i, c :: next = i ++ (if c = 0x30 then next else next.dropWhile isDec) ∧ IsInteger i := by
  by_cases hzero : c = 0x30
  · subst hzero
    exact ⟨[0x30], by simp, .zero⟩
  · simp only [hzero, ↓reduceIte]
    exact ⟨c :: next.takeWhile isDec, by simp,
      .nonzero ((isDec_iff c).mp hc) hzero isDigit_of_mem_takeWhile⟩

/-- The code stops right behind the integer part. -/
theorem isInteger_append {i rest : Chars} (h : IsInteger i)
    (hrest : ∀ c ∈ rest.head?, isDec c = false) :
    ∃ c next, i ++ rest = c :: next ∧ isDec c = true ∧
      (if c = 0x30 then next else next.dropWhile isDec) = rest := by
  cases h with
  | zero => exact ⟨0x30, rest, rfl, by decide, if_pos rfl⟩
  | @nonzero c ds hc hne hds =>
    refine ⟨c, ds ++ rest, rfl, (isDec_iff c).mpr hc, ?_⟩
    rw [if_neg hne, dropWhile_isDec_append hds hrest]

/-- Both conversions of an integer give the nearest double. -/
theorem convertInteger_eq {conversions : Conversions} (hconv : conversions.Correct)
    (negative : Bool) {i : Chars} (h : IsDigits i) (current : Chars) :
    (if i.length < 16 then
        (parseDecimalNumber i).map fun d => (numberToken negative d, current)
      else some (numberToken negative (getPrefixInteger conversions i), current)) =
      some (numberToken negative (Binary64.ofRat (digitsValue i)), current) := by
  split_ifs with hlen
  · rw [parseDecimalNumber_eq h hlen]
    rfl
  · rw [getPrefixInteger_eq hconv h]

/-- An integer alone is a number. -/
theorem IsInteger.isUnsigned {i : Chars} (h : IsInteger i) : IsUnsigned i (digitsValue i) := by
  have := IsUnsigned.mk h .none .none
  simpa using this

/-- `readUnsigned` reads a number or reports an error. -/
theorem readUnsigned_cases {conversions : Conversions} (hconv : conversions.Correct)
    (negative : Bool) (c : UInt16) (next : Chars) :
    (∃ cs q rest, c :: next = cs ++ rest ∧ IsUnsigned cs q ∧
      readUnsigned conversions negative (c :: next) =
        some (numberToken negative (Binary64.ofRat q), rest)) ∨
      ∃ message rest,
        readUnsigned conversions negative (c :: next) = some (.error message, rest) := by
  by_cases hc : isDec c = true
  swap
  · exact .inr ⟨_, _, if_pos (by simpa using hc)⟩
  obtain ⟨i, hsplit, hi⟩ := isInteger_split next hc
  simp only [readUnsigned, hc, Bool.not_true, Bool.false_eq_true, ↓reduceIte]
  generalize (if c = 0x30 then next else next.dropWhile isDec) = current at hsplit
  rw [hsplit]
  by_cases hend : ∀ d ∈ current.head?, d ≠ fullStop ∧ d ≠ 0x65 ∧ d ≠ 0x45
  · rw [if_pos hend, textBetween_append, convertInteger_eq hconv negative hi.isDigits current]
    exact .inl ⟨i, _, current, rfl, hi.isUnsigned, rfl⟩
  · rw [if_neg hend]
    rcases skipParts_cases current with
      ⟨f, e, q, k, rest, rfl, hf, he, hskip⟩ | ⟨message, rest, hskip⟩
    · have htext : textBetween (i ++ (f ++ (e ++ rest))) rest = i ++ f ++ e := by
        rw [← textBetween_append (i ++ f ++ e) rest]
        simp only [List.append_assoc]
      have hnumber := IsUnsigned.mk hi hf he
      rw [hskip]
      simp only [htext, hconv.jsStrtod _ _ hnumber]
      exact .inl ⟨i ++ f ++ e, _, rest, by simp, hnumber, rfl⟩
    · rw [hskip]
      exact .inr ⟨message, rest, rfl⟩

/-- Behind the integer part, a fraction and an exponent begin with no digit. -/
theorem isDec_head_parts {f e rest : Chars} {q : ℚ} {k : ℤ} (hf : IsFraction f q)
    (he : IsExponent e k) (hrest : EndsNumber rest) :
    ∀ c ∈ (f ++ (e ++ rest)).head?, isDec c = false := by
  intro c hc
  cases hf with
  | digits hds =>
    obtain rfl : fullStop = c := by simpa using hc
    decide
  | none =>
    have hmark {e' : UInt16} (he' : e' = 0x65 ∨ e' = 0x45) (heq : e' = c) : isDec c = false := by
      rcases he' with rfl | rfl <;> subst heq <;> decide
    cases he with
    | none => exact (hrest c hc).1
    | unsigned he' hds => exact hmark he' (by simpa using hc)
    | plus he' hds => exact hmark he' (by simpa using hc)
    | minus he' hds => exact hmark he' (by simpa using hc)

/-- An exponent does not begin with a full stop. -/
theorem ne_fullStop_head_exponent {e rest : Chars} {k : ℤ} (he : IsExponent e k)
    (hrest : EndsNumber rest) : ∀ c ∈ (e ++ rest).head?, c ≠ fullStop := by
  have hmark {e' : UInt16} (he' : e' = 0x65 ∨ e' = 0x45) : e' ≠ fullStop := by
    rcases he' with rfl | rfl <;> decide
  intro c hc
  cases he with
  | none => exact (hrest c hc).2.1
  | unsigned he' hds | plus he' hds | minus he' hds =>
    obtain rfl := Option.some.inj hc
    exact hmark he'

/-- The code takes the fast path exactly when both optional parts are absent. -/
theorem no_parts_iff {f e rest : Chars} {q : ℚ} {k : ℤ} (hf : IsFraction f q)
    (he : IsExponent e k) (hrest : EndsNumber rest) :
    (∀ d ∈ (f ++ (e ++ rest)).head?, d ≠ fullStop ∧ d ≠ 0x65 ∧ d ≠ 0x45) ↔ f = [] ∧ e = [] := by
  cases hf with
  | digits hds => simp
  | none =>
    cases he with
    | none => exact ⟨fun _ => ⟨rfl, rfl⟩, fun _ d hd => (hrest d hd).2⟩
    | unsigned he' hds => rcases he' with rfl | rfl <;> simp
    | plus he' hds => rcases he' with rfl | rfl <;> simp
    | minus he' hds => rcases he' with rfl | rfl <;> simp

/-- `readUnsigned` reads the whole number. -/
theorem readUnsigned_of_isUnsigned {conversions : Conversions} (hconv : conversions.Correct)
    (negative : Bool) {cs rest : Chars} {q : ℚ} (h : IsUnsigned cs q) (hrest : EndsNumber rest) :
    readUnsigned conversions negative (cs ++ rest) =
      some (numberToken negative (Binary64.ofRat q), rest) := by
  have hnumber := h
  obtain @⟨i, f, e, q, k, hi, hf, he⟩ := h
  have hparts := isDec_head_parts hf he hrest
  obtain ⟨c, next, hsplit, hc, hcurrent⟩ := isInteger_append hi hparts
  have hassoc : i ++ f ++ e ++ rest = i ++ (f ++ (e ++ rest)) := by simp only [List.append_assoc]
  rw [hassoc, hsplit]
  simp only [readUnsigned, hc, Bool.not_true, Bool.false_eq_true, ↓reduceIte, hcurrent]
  rw [← hsplit]
  by_cases hend : f = [] ∧ e = []
  · rw [if_pos ((no_parts_iff hf he hrest).mpr hend), textBetween_append,
      convertInteger_eq hconv negative hi.isDigits]
    obtain ⟨rfl, rfl⟩ := hend
    cases hf with
    | none =>
      cases he with
      | none => simp
  · rw [if_neg fun hall => hend ((no_parts_iff hf he hrest).mp hall)]
    have hexponent : ∀ c ∈ (e ++ rest).head?, isDec c = false ∧ c ≠ fullStop := fun d hd =>
      ⟨isDec_head_parts .none he hrest d hd, ne_fullStop_head_exponent he hrest d hd⟩
    have hskip : (skipFraction (f ++ (e ++ rest)) >>= skipExponent) = .ok rest := by
      rw [skipFraction_of_isFraction hf hexponent]
      exact skipExponent_of_isExponent he fun d hd => ⟨(hrest d hd).1, (hrest d hd).2.2⟩
    rw [hskip, ← hassoc]
    simp only [textBetween_append, hconv.jsStrtod _ _ hnumber]

/-- At a minus sign or a digit, `readNumber` reads a number or reports an error. -/
theorem readNumber_cases {conversions : Conversions} (hconv : conversions.Correct)
    (c : UInt16) (next : Chars) :
    (∃ cs d rest, c :: next = cs ++ rest ∧ IsNumber cs d ∧
      readNumber conversions (c :: next) = some (.number d, rest)) ∨
      ∃ message rest, readNumber conversions (c :: next) = some (.error message, rest) := by
  by_cases hc : c = hyphenMinus
  · subst hc
    rcases next with _ | ⟨c, next⟩
    · exact .inr ⟨_, _, rfl⟩
    · rcases readUnsigned_cases hconv true c next with ⟨cs, q, rest, hsplit, hcs, hread⟩ | herror
      · left
        exact ⟨hyphenMinus :: cs, _, rest, by rw [hsplit]; rfl, .minus hcs, hread⟩
      · exact .inr herror
  · simp only [readNumber, hc, ↓reduceIte]
    rcases readUnsigned_cases hconv false c next with ⟨cs, q, rest, hsplit, hcs, hread⟩ | herror
    · exact .inl ⟨cs, _, rest, hsplit, .unsigned hcs, hread⟩
    · exact .inr herror

/-- A number without its sign begins with a digit. -/
theorem IsUnsigned.exists_digit {cs : Chars} {q : ℚ} (h : IsUnsigned cs q) :
    ∃ c next, cs = c :: next ∧ IsDigit c := by
  obtain ⟨hi, -, -⟩ := h
  cases hi with
  | zero => exact ⟨_, _, rfl, by simp [IsDigit]⟩
  | nonzero hc => exact ⟨_, _, rfl, hc⟩

/-- `readNumber` reads the whole number. -/
theorem readNumber_of_isNumber {conversions : Conversions} (hconv : conversions.Correct)
    {cs rest : Chars} {d : Binary64} (h : IsNumber cs d) (hrest : EndsNumber rest) :
    readNumber conversions (cs ++ rest) = some (.number d, rest) := by
  cases h with
  | unsigned h =>
    have hread := readUnsigned_of_isUnsigned hconv false h hrest
    obtain ⟨c, next, rfl, hc⟩ := h.exists_digit
    have hne : c ≠ hyphenMinus := by
      rintro rfl
      exact absurd hc.1 (by decide)
    simp only [List.cons_append, readNumber, hne, ↓reduceIte]
    exact hread
  | minus h =>
    have hread := readUnsigned_of_isUnsigned hconv true h hrest
    obtain ⟨c, next, rfl, hc⟩ := h.exists_digit
    exact hread

end SpiderMonkey.Json
