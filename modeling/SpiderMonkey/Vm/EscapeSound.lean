import SpiderMonkey.Vm.Escape
import SpiderMonkey.Vm.UriSound

/-!
# What escaping and unescaping give

The pass that counts and the one that writes take each unit the same way, and an escape is read as the
unit it is written for. Unescaping keeps, at each position, the string that the specification says, with
what is before the position as it is while nothing was unescaped.
-/

namespace SpiderMonkey.Vm.Escape

open Json (Chars isHex unhex IsHexDigit)
open Uri (Failure JSLinearString finishString hexDigits percentSign readUnit isHexDigit_hexDigits)

variable {chars rest : Chars} {c ch v : UInt16} {k n : ℕ}

/-! ## Escaping -/

/-- How many units are written for one. -/
theorem length_escapedUnit (ch : UInt16) :
    (escapedUnit ch).length = if passesThrough ch then 1 else if ch < 256 then 3 else 6 := by
  rw [escapedUnit]
  split_ifs <;> rfl

/-- The units that are counted are those that are written. -/
theorem countLoop_eq {length newlength : ℕ} (hle : length ≤ newlength)
    (hlt : newlength + 5 * chars.length < 2 ^ 64) :
    ∃ r, countLoop length chars newlength = .ok r ∧
      r + chars.length = newlength + (chars.flatMap escapedUnit).length := by
  induction chars generalizing newlength with
  | nil => exact ⟨newlength, rfl, rfl⟩
  | cons ch chars ih =>
    rw [List.length_cons] at hlt
    rw [countLoop, List.flatMap_cons, List.length_append, List.length_cons, length_escapedUnit]
    by_cases hpass : passesThrough ch = true
    · obtain ⟨r, hr, hcount⟩ := ih hle (by omega)
      rw [if_pos hpass, if_pos hpass]
      exact ⟨r, hr, by omega⟩
    · rw [if_neg hpass, if_neg hpass]
      have hmore (more : ℕ) (hmore : more ≤ 5) : (newlength + more) % 2 ^ 64 = newlength + more :=
        Nat.mod_eq_of_lt (by omega)
      by_cases hlatin : ch < 256
      · obtain ⟨r, hr, hcount⟩ := ih (show length ≤ newlength + 2 by omega) (by omega)
        rw [if_pos hlatin, if_pos hlatin, hmore 2 (by omega)]
        dsimp only
        rw [if_neg (by omega)]
        exact ⟨r, hr, by omega⟩
      · obtain ⟨r, hr, hcount⟩ := ih (show length ≤ newlength + 5 by omega) (by omega)
        rw [if_neg hlatin, if_neg hlatin, hmore 5 (by omega)]
        dsimp only
        rw [if_neg (by omega)]
        exact ⟨r, hr, by omega⟩

/-- The units are written if there is room for them. -/
theorem writeLoop_eq {capacity : ℕ} {newchars : Chars}
    (hle : newchars.length + (chars.flatMap escapedUnit).length ≤ capacity) :
    writeLoop capacity chars newchars = .ok (newchars ++ chars.flatMap escapedUnit) := by
  induction chars generalizing newchars with
  | nil => rw [writeLoop, List.flatMap_nil, List.append_nil]
  | cons ch chars ih =>
    rw [List.flatMap_cons, List.length_append] at hle
    rw [writeLoop, write, if_pos (by omega), List.flatMap_cons, ← List.append_assoc]
    apply ih
    rw [List.length_append]
    omega

/-- At most six units are written for one. -/
theorem length_flatMap_escapedUnit_le (chars : Chars) :
    (chars.flatMap escapedUnit).length ≤ 6 * chars.length := by
  induction chars with
  | nil => exact Nat.le_refl 0
  | cons ch chars ih =>
    have hle : (escapedUnit ch).length ≤ 6 := by
      rw [length_escapedUnit]
      split_ifs <;> omega
    rw [List.flatMap_cons, List.length_append, List.length_cons]
    omega

/-- The pass that writes writes as many units as were counted, and the result is what it writes. -/
theorem escape_eq (str : JSLinearString) :
    countLoop str.chars.length str.chars str.chars.length =
        .ok (str.chars.flatMap escapedUnit).length ∧
      writeLoop ((str.chars.flatMap escapedUnit).length + 1) str.chars [] =
        .ok (str.chars.flatMap escapedUnit) ∧
      escape str = finishString (str.chars.flatMap escapedUnit) := by
  have hlength : str.chars.length < 2 ^ 28 := Nat.lt_of_le_of_lt str.length_le (by decide)
  have hle := length_flatMap_escapedUnit_le str.chars
  obtain ⟨r, hcount, heq⟩ := countLoop_eq (Nat.le_refl str.chars.length)
    (show str.chars.length + 5 * str.chars.length < 2 ^ 64 by omega)
  obtain rfl : r = (str.chars.flatMap escapedUnit).length := by omega
  have hwrite : writeLoop ((str.chars.flatMap escapedUnit).length + 1) str.chars [] =
      .ok (str.chars.flatMap escapedUnit) := by
    apply writeLoop_eq
    rw [List.length_nil, Nat.zero_add]
    exact Nat.le_succ _
  refine ⟨hcount, hwrite, ?_⟩
  rw [escape]
  change (countLoop str.chars.length str.chars str.chars.length).bind _ = _
  rw [hcount]
  change (if _ then _ else _) = _
  rw [if_neg (by omega)]
  change (writeLoop _ str.chars []).bind _ = _
  rw [hwrite]
  exact if_neg (fun hne => hne rfl)

/-! ## Escapes are read as what they are written for -/

/-- The string without its escapes, unit by unit. -/
theorem unescaped_cons (c : UInt16) (rest : Chars) :
    unescaped (c :: rest) =
      (unescapedUnit c rest).1 :: unescaped (rest.drop (unescapedUnit c rest).2) := by
  rw [unescaped]

/-- A digit is one, and no letter u. -/
theorem digit_spec {n : ℕ} (hn : n < 16) :
    isHex (digit n) = true ∧ unhex (digit n) = n ∧ digit n ≠ 0x75 := by
  obtain ⟨hhex, hvalue, _⟩ := (isHexDigit_hexDigits hn).unhex_eq
  refine ⟨hhex, hvalue, ?_⟩
  intro heq
  have hdigit : isHex (digit n) = true := hhex
  rw [heq] at hdigit
  exact absurd hdigit (by decide)

/-- No four digits begin with anything but the letter u. -/
theorem fourDigits_of_ne (hc : c ≠ 0x75) (rest : Chars) : fourDigits (c :: rest) = none := by
  rw [fourDigits.eq_def]
  split
  · next heq =>
    rw [List.cons_eq_cons] at heq
    exact absurd heq.1 hc
  · rfl

/-- Two digits of a unit. -/
theorem twoDigits_digit {a b : ℕ} (ha : a < 16) (hb : b < 16) (rest : Chars) :
    twoDigits (digit a :: digit b :: rest) = some (UInt16.ofNat (a * 16 + b)) := by
  obtain ⟨hhexA, hvalueA, _⟩ := digit_spec ha
  obtain ⟨hhexB, hvalueB, _⟩ := digit_spec hb
  rw [twoDigits, if_pos ⟨hhexA, hhexB⟩, hvalueA, hvalueB]

/-- Four digits of a unit. -/
theorem fourDigits_digit {a b c d : ℕ} (ha : a < 16) (hb : b < 16) (hc : c < 16) (hd : d < 16)
    (rest : Chars) : fourDigits (0x75 :: digit a :: digit b :: digit c :: digit d :: rest) =
      some (UInt16.ofNat (a * 4096 + b * 256 + c * 16 + d)) := by
  obtain ⟨hhexA, hvalueA, _⟩ := digit_spec ha
  obtain ⟨hhexB, hvalueB, _⟩ := digit_spec hb
  obtain ⟨hhexC, hvalueC, _⟩ := digit_spec hc
  obtain ⟨hhexD, hvalueD, _⟩ := digit_spec hd
  rw [fourDigits, if_pos ⟨hhexA, hhexB, hhexC, hhexD⟩, hvalueA, hvalueB, hvalueC, hvalueD]

/-- What is written for a unit is read as the unit. -/
theorem unescaped_escapedUnit (ch : UInt16) (rest : Chars) :
    unescaped (escapedUnit ch ++ rest) = ch :: unescaped rest := by
  have hlt := ch.toNat_lt
  rw [escapedUnit]
  split_ifs with hpass hlatin
  · have hne : ch ≠ percentSign := by
      rintro rfl
      exact absurd hpass (by decide)
    rw [List.singleton_append, unescaped_cons, unescapedUnit, if_neg hne]
    rfl
  · have hsmall : ch.toNat < 256 := UInt16.lt_iff_toNat_lt.mp hlatin
    have hhigh : ch.toNat >>> 4 = ch.toNat / 16 := Nat.shiftRight_eq_div_pow _ 4
    have hlow : ch.toNat &&& 0xF = ch.toNat % 16 := Nat.and_two_pow_sub_one_eq_mod _ 4
    have hvalue : UInt16.ofNat (ch.toNat / 16 * 16 + ch.toNat % 16) = ch := by
      rw [Nat.div_add_mod', UInt16.ofNat_toNat]
    have hunit : unescapedUnit percentSign (digit (ch.toNat / 16) :: digit (ch.toNat % 16) :: rest) =
        (ch, 2) := by
      rw [unescapedUnit, if_pos rfl, fourDigits_of_ne (digit_spec (by omega)).2.2,
        twoDigits_digit (by omega) (by omega), hvalue]
    rw [hhigh, hlow, List.cons_append, List.cons_append, List.singleton_append, unescaped_cons, hunit]
    rfl
  · have h3 : ch.toNat >>> 12 = ch.toNat / 4096 := Nat.shiftRight_eq_div_pow _ 12
    have h2 : (ch.toNat &&& 0xF00) >>> 8 = ch.toNat / 256 % 16 := by
      rw [Nat.shiftRight_and_distrib, Nat.shiftRight_eq_div_pow]
      exact Nat.and_two_pow_sub_one_eq_mod _ 4
    have h1 : (ch.toNat &&& 0xF0) >>> 4 = ch.toNat / 16 % 16 := by
      rw [Nat.shiftRight_and_distrib, Nat.shiftRight_eq_div_pow]
      exact Nat.and_two_pow_sub_one_eq_mod _ 4
    have h0 : ch.toNat &&& 0xF = ch.toNat % 16 := Nat.and_two_pow_sub_one_eq_mod _ 4
    have hvalue : UInt16.ofNat (ch.toNat / 4096 * 4096 + ch.toNat / 256 % 16 * 256 +
        ch.toNat / 16 % 16 * 16 + ch.toNat % 16) = ch := by
      rw [show ch.toNat / 4096 * 4096 + ch.toNat / 256 % 16 * 256 + ch.toNat / 16 % 16 * 16 +
        ch.toNat % 16 = ch.toNat by omega, UInt16.ofNat_toNat]
    have hunit : unescapedUnit percentSign (0x75 :: digit (ch.toNat / 4096) ::
        digit (ch.toNat / 256 % 16) :: digit (ch.toNat / 16 % 16) :: digit (ch.toNat % 16) :: rest) =
        (ch, 5) := by
      rw [unescapedUnit, if_pos rfl,
        fourDigits_digit (by omega) (by omega) (by omega) (by omega), hvalue]
    rw [h3, h2, h1, h0]
    simp only [List.cons_append, List.nil_append]
    rw [unescaped_cons, hunit]
    rfl

/-- What is written for a string is read as the string. -/
theorem unescaped_flatMap_escapedUnit (chars : Chars) :
    unescaped (chars.flatMap escapedUnit) = chars := by
  induction chars with
  | nil => rw [List.flatMap_nil, unescaped]
  | cons ch chars ih => rw [List.flatMap_cons, unescaped_escapedUnit, ih]

/-! ## Unescaping -/

/-- Reading a unit that is there. -/
theorem readUnit_of_drop (h : chars.drop k = c :: rest) : readUnit chars k = .ok c := by
  have hget : chars[k]? = some c := by
    rw [← List.head?_drop, h, List.head?_cons]
  rw [readUnit, hget]

/-- What is behind a unit. -/
theorem drop_succ_of_drop (h : chars.drop k = c :: rest) : chars.drop (k + 1) = rest := by
  rw [← List.drop_drop, h, List.drop_succ_cons, List.drop_zero]

/-- The two digits at a position. -/
theorem unhex2_eq (h : chars.drop k = rest) (hlength : 2 ≤ rest.length) :
    unhex2 chars k = .ok (twoDigits rest) := by
  match rest, hlength with
  | a :: b :: rest, _ =>
    have hb := drop_succ_of_drop h
    rw [unhex2, readUnit_of_drop h, readUnit_of_drop hb, twoDigits]
    change (if (!(isHex a && isHex b)) = true then _ else _) = _
    rw [Nat.shiftLeft_eq]
    cases isHex a <;> cases isHex b <;> rfl

/-- The four digits at a position. -/
theorem unhex4_eq (h : chars.drop k = rest) (hlength : 4 ≤ rest.length) :
    unhex4 chars k = .ok (fourDigits (0x75 :: rest)) := by
  match rest, hlength with
  | a :: b :: c :: d :: rest, _ =>
    have hb := drop_succ_of_drop h
    have hc := drop_succ_of_drop hb
    have hd := drop_succ_of_drop hc
    have hvalue : (((unhex a * 2 ^ 4 + unhex b) * 2 ^ 4 + unhex c) * 2 ^ 4 + unhex d) =
        unhex a * 4096 + unhex b * 256 + unhex c * 16 + unhex d := by omega
    rw [unhex4, readUnit_of_drop h, readUnit_of_drop hb, readUnit_of_drop hc, readUnit_of_drop hd,
      fourDigits]
    change (if (!(isHex a && isHex b && isHex c && isHex d)) = true then _ else _) = _
    rw [Nat.shiftLeft_eq, Nat.shiftLeft_eq, Nat.shiftLeft_eq, hvalue]
    cases isHex a <;> cases isHex b <;> cases isHex c <;> cases isHex d <;> rfl

/-- What is built up to a position, or begun to be built. -/
def Unescaping.build (chars : Chars) (l : Unescaping) (n : ℕ) : Unescaping where
  k := l.k + n
  sb := if n = 0 then l.sb else some (l.sb.getD (chars.take l.k))

/-- Building begins with what there is before the position. -/
theorem ensureBuilding_eq (chars : Chars) (l : Unescaping) :
    ensureBuilding chars l = .ok { l with sb := some (l.sb.getD (chars.take l.k)) } := by
  rw [ensureBuilding]
  cases hsb : l.sb with
  | some sb =>
    dsimp only
    rw [Option.getD_some, ← hsb]
  | none =>
    dsimp only
    rw [write, if_pos (by rw [List.length_nil, Nat.zero_add]; exact List.length_take_le' l.k chars)]
    rfl

/-- The unit at a position, with two digits if they are there. -/
theorem step14_eq (l : Unescaping) (h : chars.drop (l.k + 1) = rest) (c : UInt16) (hk : l.k < chars.length) :
    step14 chars l c = .ok (match twoDigits rest with
      | some v => (v, l.build chars 2)
      | none => (c, l.build chars 0)) := by
  have hlength : rest.length = chars.length - (l.k + 1) := by rw [← h, List.length_drop]
  rw [step14]
  by_cases hshort : (l.k : ℤ) > chars.length - 3
  · have htwo : twoDigits rest = none := by
      match rest, hlength with
      | [], _ => rfl
      | [_], _ => rfl
      | _ :: _ :: rest, hlength =>
        rw [List.length_cons, List.length_cons] at hlength
        omega
    rw [if_pos hshort, htwo]
    rfl
  · rw [if_neg hshort, unhex2_eq h (by omega)]
    cases twoDigits rest with
    | none => rfl
    | some v =>
      change (ensureBuilding chars l).bind _ = _
      rw [ensureBuilding_eq]
      rfl

/-- The unit at a position, as the specification takes it. -/
theorem step6_eq (l : Unescaping) (h : chars.drop l.k = c :: rest) :
    step6 chars l = .ok ((unescapedUnit c rest).1, l.build chars (unescapedUnit c rest).2) := by
  have hrest := drop_succ_of_drop h
  have hlength : rest.length + 1 = chars.length - l.k := by
    rw [← List.length_drop, h, List.length_cons]
  rw [step6, readUnit_of_drop h, unescapedUnit]
  change (if c ≠ percentSign then _ else _) = _
  by_cases hc : c = percentSign
  · rw [if_neg (not_not.mpr hc), if_pos hc]
    by_cases hshort : (l.k : ℤ) > chars.length - 6
    · have hfour : fourDigits rest = none := by
        rw [fourDigits.eq_def]
        split
        · simp only [List.length_cons] at hlength
          omega
        · rfl
      rw [if_pos hshort, hfour, step14_eq l hrest c (by omega)]
      cases twoDigits rest <;> rfl
    · rw [if_neg hshort]
      match rest, hlength, hrest with
      | [], hlength, _ =>
        rw [List.length_nil] at hlength
        omega
      | u :: digits, hlength, hrest =>
        rw [readUnit_of_drop hrest]
        change (if u ≠ 0x75 then _ else _) = _
        by_cases hu : u = 0x75
        · have hdigits := drop_succ_of_drop hrest
          rw [List.length_cons] at hlength
          rw [if_neg (not_not.mpr hu), unhex4_eq hdigits (by omega), hu]
          cases hfour : fourDigits (0x75 :: digits) with
          | some v =>
            change (ensureBuilding chars l).bind _ = _
            rw [ensureBuilding_eq]
            rfl
          | none =>
            change step14 chars l c = _
            rw [step14_eq l hrest c (by omega), hu]
            cases twoDigits (0x75 :: digits) <;> rfl
        · rw [if_pos hu, fourDigits_of_ne hu, step14_eq l hrest c (by omega)]
          cases twoDigits (u :: digits) <;> rfl
  · rw [if_pos hc, if_neg hc]
    rfl

/-- A unit takes at most those that are there. -/
theorem unescapedUnit_le (c : UInt16) (rest : Chars) : (unescapedUnit c rest).2 ≤ rest.length := by
  rw [unescapedUnit]
  split_ifs
  · cases hfour : fourDigits rest with
    | some v =>
      rw [fourDigits.eq_def] at hfour
      split at hfour
      · simp only [List.length_cons]
        omega
      · cases hfour
    | none =>
      cases htwo : twoDigits rest with
      | some v =>
        rw [twoDigits.eq_def] at htwo
        split at htwo
        · simp only [List.length_cons]
          omega
        · cases htwo
      | none => exact Nat.zero_le _
  · exact Nat.zero_le _

/-- A unit that takes no others is what it is. -/
theorem unescapedUnit_of_zero (h : (unescapedUnit c rest).2 = 0) : (unescapedUnit c rest).1 = c := by
  rw [unescapedUnit] at h ⊢
  split_ifs at h ⊢
  · cases hfour : fourDigits rest with
    | some v =>
      rw [hfour] at h
      cases h
    | none =>
      rw [hfour] at h
      cases htwo : twoDigits rest with
      | some v =>
        rw [htwo] at h
        cases h
      | none => rfl
  · rfl

/-- What is built up to a position is what the specification says of the units before, and not longer
than these. While nothing is built, the units before are as they are. -/
structure Unescaping.Inv (chars : Chars) (l : Unescaping) : Prop where
  k_le : l.k ≤ chars.length
  length_le : (l.sb.getD (chars.take l.k)).length ≤ l.k
  eq : l.sb.getD (chars.take l.k) ++ unescaped (chars.drop l.k) = unescaped chars

/-- Unescaping gives what the specification says, in time and without reading or writing past the end. -/
theorem unescapeLoop_eq {fuel : ℕ} {l : Unescaping} (h : l.Inv chars) (hfuel : chars.length < l.k + fuel) :
    ∃ sb, unescapeLoop chars fuel l = .ok sb ∧ sb.getD chars = unescaped chars ∧
      (sb.getD chars).length ≤ chars.length := by
  induction fuel generalizing l with
  | zero =>
    have hle := h.k_le
    omega
  | succ fuel ih =>
    rw [unescapeLoop]
    by_cases hk : l.k = chars.length
    · have heq := h.eq
      have hlength := h.length_le
      rw [hk, List.take_length] at hlength heq
      rw [List.drop_length, unescaped, List.append_nil] at heq
      rw [if_pos hk]
      exact ⟨l.sb, rfl, heq, hlength⟩
    · have hlt : l.k < chars.length := Nat.lt_of_le_of_ne h.k_le hk
      obtain ⟨c, rest, hdrop⟩ : ∃ c rest, chars.drop l.k = c :: rest :=
        ⟨_, _, List.drop_eq_getElem_cons hlt⟩
      have hrest := drop_succ_of_drop hdrop
      have hlength : rest.length + 1 = chars.length - l.k := by
        rw [← List.length_drop, hdrop, List.length_cons]
      have hle := unescapedUnit_le c rest
      have heq := h.eq
      have hbuilt := h.length_le
      rw [hdrop, unescaped_cons] at heq
      rw [if_neg hk, step6_eq l hdrop]
      dsimp only [bind, Except.bind]
      cases hsb : (l.build chars (unescapedUnit c rest).2).sb with
      | none =>
        rw [Unescaping.build] at hsb
        by_cases hzero : (unescapedUnit c rest).2 = 0
        · rw [if_pos hzero] at hsb
          rw [hzero, List.drop_zero, unescapedUnit_of_zero hzero, hsb, Option.getD_none] at heq
          have htake : chars.take (l.k + 1) = chars.take l.k ++ [c] := by
            rw [List.take_add, hdrop]
            rfl
          rw [hzero]
          apply ih
          · refine ⟨hlt, List.length_take_le _ _, ?_⟩
            change chars.take (l.k + 1) ++ unescaped (chars.drop (l.k + 1)) = _
            rw [htake, hrest, List.append_assoc]
            exact heq
          · change chars.length < l.k + 1 + fuel
            omega
        · rw [if_neg hzero] at hsb
          cases hsb
      | some sb =>
        have hsbEq : sb = l.sb.getD (chars.take l.k) := by
          rw [Unescaping.build] at hsb
          by_cases hzero : (unescapedUnit c rest).2 = 0
          · rw [if_pos hzero] at hsb
            rw [hsb, Option.getD_some]
          · rw [if_neg hzero] at hsb
            exact (Option.some_inj.mp hsb).symm
        rw [← hsbEq] at heq hbuilt
        have hwrite (v : UInt16) : write chars.length sb [v] = .ok (sb ++ [v]) := by
          rw [write, if_pos (by rw [List.length_singleton]; omega)]
        simp only [hwrite]
        apply ih
        · refine ⟨?_, ?_, ?_⟩
          · change l.k + (unescapedUnit c rest).2 + 1 ≤ _
            omega
          · change (sb ++ [_]).length ≤ l.k + (unescapedUnit c rest).2 + 1
            rw [List.length_append, List.length_singleton]
            omega
          · change (sb ++ [_]) ++ unescaped (chars.drop (l.k + (unescapedUnit c rest).2 + 1)) = _
            rw [Nat.add_right_comm, ← List.drop_drop, hrest, List.append_assoc]
            exact heq
        · change chars.length < l.k + (unescapedUnit c rest).2 + 1 + fuel
          omega

/-- `unescape` gives what the specification says. -/
theorem unescape_eq (str : JSLinearString) :
    ∃ r, unescape str = .ok r ∧ r.chars = unescaped str.chars := by
  have hinv : Unescaping.Inv str.chars ⟨0, none⟩ := ⟨Nat.zero_le _, Nat.le_refl 0, rfl⟩
  obtain ⟨sb, hloop, heq, hlength⟩ :=
    unescapeLoop_eq hinv (show str.chars.length < 0 + (str.chars.length + 1) by omega)
  rw [unescape, hloop]
  cases sb with
  | none => exact ⟨str, rfl, heq⟩
  | some sb =>
    have hle : sb.length ≤ Rope.maxLength := Nat.le_trans hlength str.length_le
    refine ⟨⟨sb, hle⟩, ?_, heq⟩
    exact dif_pos hle

/-- Escaping writes what was counted, and fails for nothing but a result that is too long. What it gives
is unescaped to the string again. Unescaping reads and writes nothing past the end, and gives what the
specification says. -/
theorem escape_unescape (str : JSLinearString) :
    (∃ n out, countLoop str.chars.length str.chars str.chars.length = .ok n ∧
      writeLoop (n + 1) str.chars [] = .ok out ∧ out.length = n ∧ escape str = finishString out ∧
      unescaped out = str.chars) ∧
    (∀ r, escape str = .ok r → unescape r = .ok str) ∧
    ∃ r, unescape str = .ok r ∧ r.chars = unescaped str.chars := by
  obtain ⟨hcount, hwrite, hescape⟩ := escape_eq str
  refine ⟨⟨_, _, hcount, hwrite, rfl, hescape, unescaped_flatMap_escapedUnit str.chars⟩, ?_,
    unescape_eq str⟩
  intro r hr
  rw [hescape, finishString] at hr
  split_ifs at hr
  obtain ⟨r', hr', hchars⟩ := unescape_eq r
  have hstr : r'.chars = str.chars := by
    rw [hchars, ← Except.ok.inj hr]
    exact unescaped_flatMap_escapedUnit str.chars
  rw [hr']
  cases r'
  cases str
  cases hstr
  rfl

end SpiderMonkey.Vm.Escape
