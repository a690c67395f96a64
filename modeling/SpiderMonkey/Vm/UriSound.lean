import Mathlib
import SpiderMonkey.Vm.UriOctets

/-!
# URI coding is exact

Decoding accepts the texts in which every percent sign starts the escapes of one scalar value in
UTF-8, and encoding is its right inverse on the texts without unpaired surrogates.
-/

namespace SpiderMonkey.Vm.Uri

open Json (Chars isHex unhex IsHexDigit isHexDigit_unhex)
open Rope (maxLength)
open Unicode

/-! ## What the functions compute -/

/-- Two hexadecimal digits write an octet. -/
def IsOctet (b : UInt8) (c₁ c₂ : UInt16) : Prop :=
  ∃ n₁ n₂, IsHexDigit c₁ n₁ ∧ IsHexDigit c₂ n₂ ∧ b.toNat = n₁ * 16 + n₂

/-- A text consists of the escapes of octets, with digits of either case. -/
inductive Escapes : List UInt8 → Chars → Prop where
  | nil : Escapes [] []
  | cons {b : UInt8} {bs : List UInt8} {c₁ c₂ : UInt16} {e : Chars} (hoctet : IsOctet b c₁ c₂)
      (hrest : Escapes bs e) : Escapes (b :: bs) (percentSign :: c₁ :: c₂ :: e)

/-- Every percent sign starts the escapes of a scalar value. Those of a value that is to be kept stay
as they are, the others become the value, and all other units stay. -/
inductive Decodes (keep : Char → Prop) : Chars → Chars → Prop where
  | nil : Decodes keep [] []
  | unit {c : UInt16} {s t : Chars} (hc : c ≠ percentSign) (hrest : Decodes keep s t) :
      Decodes keep (c :: s) (c :: t)
  | escape {ch : Char} {e s t : Chars} (he : Escapes (String.utf8EncodeChar ch) e)
      (hkeep : ¬ keep ch) (hrest : Decodes keep s t) :
      Decodes keep (e ++ s) (utf16EncodeChar ch ++ t)
  | kept {ch : Char} {e s t : Chars} (he : Escapes (String.utf8EncodeChar ch) e)
      (hkeep : keep ch) (hrest : Decodes keep s t) : Decodes keep (e ++ s) (e ++ t)

/-- The reserved characters of a URI, and the number sign. -/
def IsReservedPlusPound (ch : Char) : Prop := ch ∈ "#$&+,/:;=?@".toList

/-- The characters of a URI that need no escape: letters, digits and marks. -/
def IsUnescaped (ch : Char) : Prop := ch ∈ "!'()*-._~".toList ∨ ch.isAlphanum

/-! ## Reading octets -/

/-- Escapes take three units for each octet. -/
theorem Escapes.length_eq {bs : List UInt8} {e : Chars} (h : Escapes bs e) :
    e.length = 3 * bs.length := by
  induction h with
  | nil => rfl
  | cons _ _ ih =>
    simp only [List.length_cons]
    omega

/-- What is left behind the first unit. -/
theorem drop_succ {chars rest : Chars} {c : UInt16} {k : ℕ} (h : chars.drop k = c :: rest) :
    chars.drop (k + 1) = rest := by
  rw [← List.drop_drop, h]
  rfl

/-- There is a unit at a position below the length. -/
theorem exists_drop_eq_cons {chars : Chars} {k : ℕ} (h : k < chars.length) :
    ∃ c, chars.drop k = c :: chars.drop (k + 1) :=
  ⟨_, List.drop_eq_getElem_cons h⟩

/-- Reading a unit that is there. -/
theorem readUnit_eq_ok {chars rest : Chars} {c : UInt16} {k : ℕ} (h : chars.drop k = c :: rest) :
    readUnit chars k = .ok c := by
  have hget : chars[k]? = some c := by
    rw [← List.head?_drop, h]
    rfl
  rw [readUnit, hget]

/-- Reading an octet that is there. -/
theorem readOctet_eq_ok {chars rest : Chars} {b : UInt8} {c₁ c₂ : UInt16} {k : ℕ}
    (h : chars.drop (k + 1) = c₁ :: c₂ :: rest) (hoctet : IsOctet b c₁ c₂) :
    readOctet chars k = .ok b.toNat := by
  obtain ⟨n₁, n₂, h₁, h₂, hb⟩ := hoctet
  obtain ⟨hex₁, hn₁, -⟩ := h₁.unhex_eq
  obtain ⟨hex₂, hn₂, -⟩ := h₂.unhex_eq
  rw [readOctet, readUnit_eq_ok h, readUnit_eq_ok (drop_succ h), hb, ← hn₁, ← hn₂]
  simp only [bind, Except.bind, hex₁, hex₂, Bool.not_true, Bool.false_eq_true, if_false]

/-- Reading an octet within the text. -/
theorem readOctet_cases {chars : Chars} {k : ℕ} (h : k + 2 < chars.length) :
    (∃ b c₁ c₂, chars.drop (k + 1) = c₁ :: c₂ :: chars.drop (k + 3) ∧ IsOctet b c₁ c₂ ∧
      readOctet chars k = .ok b.toNat) ∨ readOctet chars k = .error .badUri := by
  obtain ⟨c₁, hc₁⟩ := exists_drop_eq_cons (show k + 1 < chars.length by omega)
  obtain ⟨c₂, hc₂⟩ := exists_drop_eq_cons h
  by_cases hex₁ : isHex c₁ = true
  · by_cases hex₂ : isHex c₂ = true
    · have h₁ := isHexDigit_unhex hex₁
      have h₂ := isHexDigit_unhex hex₂
      have hlt₁ := h₁.unhex_eq.2.2
      have hlt₂ := h₂.unhex_eq.2.2
      have hnat : (UInt8.ofNat (unhex c₁ * 16 + unhex c₂)).toNat = unhex c₁ * 16 + unhex c₂ :=
        UInt8.toNat_ofNat_of_lt' (by change _ < 256; omega)
      have hoctet : IsOctet (UInt8.ofNat (unhex c₁ * 16 + unhex c₂)) c₁ c₂ :=
        ⟨_, _, h₁, h₂, hnat⟩
      rw [hc₂] at hc₁
      exact Or.inl ⟨_, c₁, c₂, hc₁, hoctet, readOctet_eq_ok hc₁ hoctet⟩
    · right
      rw [readOctet, readUnit_eq_ok hc₁, readUnit_eq_ok hc₂]
      simp [bind, Except.bind, hex₁, hex₂]
  · right
    rw [readOctet, readUnit_eq_ok hc₁]
    simp [bind, Except.bind, hex₁]

/-- Reading continuation octets that are there. -/
theorem readContinuation_of_escapes {chars e rest : Chars} {bs : List UInt8} {k : ℕ}
    (he : Escapes bs e) (hbs : ∀ b ∈ bs, IsContinuation b) (h : chars.drop (k + 1) = e ++ rest) :
    readContinuation chars bs.length k = .ok (bs, k + 3 * bs.length) := by
  induction he generalizing k with
  | nil => rfl
  | @cons b bs c₁ c₂ e hoctet _ ih =>
    have hb := hbs b List.mem_cons_self
    have hmask := (and_continuation_eq b.toNat b.toNat_lt).mpr hb
    have hnext := drop_succ h
    have hlast := drop_succ (drop_succ hnext)
    have hbs' : ∀ b ∈ bs, IsContinuation b := fun b hb => hbs b (List.mem_cons_of_mem _ hb)
    rw [List.length_cons, readContinuation, readUnit_eq_ok h]
    simp only [bind, Except.bind, ne_eq, not_true, if_false, readOctet_eq_ok hnext hoctet, hmask,
      ih hbs' hlast, UInt8.ofNat_toNat, Except.ok.injEq, Prod.mk.injEq, true_and]
    omega

/-- Reading continuation octets within the text. -/
theorem readContinuation_cases {chars : Chars} {n k : ℕ} (h : k + 3 * n < chars.length) :
    (∃ bs e, bs.length = n ∧ (∀ b ∈ bs, IsContinuation b) ∧ Escapes bs e ∧
      chars.drop (k + 1) = e ++ chars.drop (k + 1 + 3 * n)) ∨
      readContinuation chars n k = .error .badUri := by
  induction n generalizing k with
  | zero => exact Or.inl ⟨[], [], rfl, List.forall_mem_nil _, .nil, rfl⟩
  | succ n ih =>
    obtain ⟨c, hc⟩ := exists_drop_eq_cons (show k + 1 < chars.length by omega)
    rw [readContinuation, readUnit_eq_ok hc]
    by_cases hpercent : c = percentSign
    · rcases readOctet_cases (show k + 1 + 2 < chars.length by omega) with
        ⟨b, c₁, c₂, hdrop, hoctet, hread⟩ | hread
      · by_cases hmask : b.toNat &&& 0xC0 = 0x80
        · rcases ih (k := k + 3) (by omega) with ⟨bs, e, hlen, hbs, he, hrest⟩ | hrest
          · have hb := (and_continuation_eq b.toNat b.toNat_lt).mp hmask
            refine Or.inl ⟨b :: bs, percentSign :: c₁ :: c₂ :: e, by rw [List.length_cons, hlen],
              List.forall_mem_cons.mpr ⟨hb, hbs⟩, .cons hoctet he, ?_⟩
            rw [hc, hpercent, hdrop, hrest, show k + 3 + 1 + 3 * n = k + 1 + 3 * (n + 1) by omega]
            rfl
          · right
            simp [bind, Except.bind, hpercent, hread, hmask, hrest]
        · right
          simp [bind, Except.bind, hpercent, hread, hmask]
      · right
        simp [bind, Except.bind, hpercent, hread]
    · right
      simp [bind, Except.bind, hpercent]

/-! ## Reading the escapes of a scalar value -/

/-- The result of `Utf8ToOneUcs4Char` is a scalar value unless it is above all of them. -/
theorem exists_char_of_utf8ToOneUcs4Char {first : UInt8} {rest : List UInt8} (hrest : rest ≠ [])
    (hle : utf8ToOneUcs4Char first rest ≤ 0x10FFFF) :
    ∃ ch : Char, utf8ToOneUcs4Char first rest = ch.toNat := by
  have hlength : ¬ rest.length + 1 = 1 := fun h => hrest (List.length_eq_zero_iff.mp (by omega))
  suffices h : utf8ToOneUcs4Char first rest < 0xD800 ∨ 0xDFFF < utf8ToOneUcs4Char first rest ∧
      utf8ToOneUcs4Char first rest < 0x110000 by
    obtain ⟨ch, hch⟩ := exists_char h
    exact ⟨ch, hch.symm⟩
  rw [utf8ToOneUcs4Char, if_neg hlength] at hle ⊢
  dsimp only at hle ⊢
  split_ifs at hle ⊢ with hbad
  · simp only [invalidUtf8] at hle
    omega
  · simp only [Bool.or_eq_true, Bool.and_eq_true, decide_eq_true_eq] at hbad
    omega

/-- The last unit of a scalar value outside ASCII is outside ASCII, and that of a character of ASCII is
the only one. -/
theorem last_unit_cases {ch : Char} {high : Chars} {c : UInt16} (h : utf16EncodeChar ch = high ++ [c]) :
    c.toNat < 128 ∧ high = [] ∧ c.toNat = ch.toNat ∨ 128 ≤ c.toNat ∧ 128 ≤ ch.toNat := by
  rcases utf16EncodeChar_cases ch with ⟨d, -, -, hch, hunits⟩ | ⟨d, e, -, he, hch, hunits⟩
  · rw [hunits] at h
    obtain ⟨rfl, hc⟩ := List.append_inj' (show [] ++ [d] = high ++ [c] from h) rfl
    cases hc
    by_cases hlt : c.toNat < 128
    · exact Or.inl ⟨hlt, rfl, hch.symm⟩
    · exact Or.inr ⟨by omega, by omega⟩
  · rw [hunits] at h
    obtain ⟨-, hc⟩ := List.append_inj' (show [d] ++ [e] = high ++ [c] from h) rfl
    cases hc
    exact Or.inr ⟨by have := he.1; omega, by omega⟩

/-- The units that are computed from a scalar value above the first plane. -/
theorem utf16EncodeChar_of_le {ch : Char} (h : 0x10000 ≤ ch.toNat) :
    utf16EncodeChar ch = [UInt16.ofNat (((ch.toNat - 0x10000) >>> 10) + 0xD800)] ++
      [UInt16.ofNat (((ch.toNat - 0x10000) &&& 0x3FF) + 0xDC00)] := by
  have hshift : (ch.toNat - 0x10000) >>> 10 = (ch.toNat - 0x10000) / 0x400 :=
    Nat.shiftRight_eq_div_pow _ 10
  have hand : (ch.toNat - 0x10000) &&& 0x3FF = (ch.toNat - 0x10000) % 0x400 :=
    Nat.and_two_pow_sub_one_eq_mod _ 10
  rw [utf16EncodeChar, if_neg (by omega), hshift, hand, Nat.add_comm, Nat.add_comm _ 0xDC00]
  rfl

/-- The end of `decodeEscape` for a scalar value. -/
theorem split_toNat (ch : Char) (k : ℕ) :
    ∃ high c, utf16EncodeChar ch = high ++ [c] ∧
      (if ch.toNat ≥ 0x10000 then
        if ch.toNat - 0x10000 > 0xFFFFF then .error .badUri
        else .ok ([UInt16.ofNat (((ch.toNat - 0x10000) >>> 10) + 0xD800)],
          UInt16.ofNat (((ch.toNat - 0x10000) &&& 0x3FF) + 0xDC00), k)
      else .ok ([], UInt16.ofNat ch.toNat, k) : Except Failure (Chars × UInt16 × ℕ)) =
        .ok (high, c, k) := by
  have hcases := toNat_cases ch
  by_cases h : ch.toNat ≥ 0x10000
  · exact ⟨_, _, utf16EncodeChar_of_le h, by rw [if_pos h, if_neg (by omega)]⟩
  · exact ⟨[], _, by rw [utf16EncodeChar, if_pos (by omega)]; rfl, by rw [if_neg h]⟩

/-- Reading the escapes of a scalar value that are there. -/
theorem decodeEscape_of_escapes {chars e rest : Chars} {ch : Char} {k : ℕ}
    (he : Escapes (String.utf8EncodeChar ch) e) (h : chars.drop k = e ++ rest) :
    ∃ high c k', utf16EncodeChar ch = high ++ [c] ∧ k' + 1 = k + e.length ∧
      decodeEscape chars k = .ok (high, c, k') := by
  have hlength : k + e.length ≤ chars.length := by
    have hlen := congrArg List.length h
    have hpos := he.length_eq
    have hoctets := length_utf8EncodeChar_cases ch
    rw [List.length_drop, List.length_append] at hlen
    omega
  generalize hencode : String.utf8EncodeChar ch = octets at he
  cases he with
  | nil =>
    have hoctets := length_utf8EncodeChar_cases ch
    rw [hencode] at hoctets
    simp at hoctets
  | @cons b bs c₁ c₂ e hoctet he =>
    have hrest := he.length_eq
    simp only [List.length_cons] at hlength
    have hnext := drop_succ h
    have hlast := drop_succ (drop_succ hnext)
    rw [decodeEscape, if_neg (by omega), readOctet_eq_ok hnext hoctet]
    simp only [bind, Except.bind]
    by_cases hascii : ch.toNat < 0x80
    · rw [utf8EncodeChar_one hascii, List.cons.injEq, ofNat_eq_iff (by omega)] at hencode
      obtain ⟨hb, rfl⟩ := hencode
      cases he
      have hmask := (and_high_eq_zero b.toNat b.toNat_lt).mpr (by omega)
      refine ⟨[], UInt16.ofNat b.toNat, k + 2, ?_, rfl, by rw [if_pos hmask]⟩
      rw [utf16EncodeChar, if_pos (by omega), hb]
      rfl
    · obtain ⟨hfirst, hlead, hpos, hle, hbs⟩ := marks_of_utf8EncodeChar (by omega) hencode
      have hmask := mt (and_high_eq_zero b.toNat b.toNat_lt).mp (by omega)
      have hlen : bs.length ≠ 0 := fun h => hpos (List.length_eq_zero_iff.mp h)
      have hvalue := (utf8EncodeChar_eq_iff hfirst hlead hpos hle hbs ch).mpr hencode
      have hcontinuation := readContinuation_of_escapes he hbs hlast
      obtain ⟨high, c, hunits, hsplit⟩ := split_toNat ch (k + 2 + 3 * bs.length)
      refine ⟨high, c, k + 2 + 3 * bs.length, hunits, ?_, ?_⟩
      · simp only [List.length_cons]
        omega
      · have hn : ¬ ((leadingOnes b.toNat 1 = 1 || leadingOnes b.toNat 1 > 4) = true) := by
          simp only [Bool.or_eq_true, decide_eq_true_eq]
          omega
        rw [if_neg hmask, if_neg hn, if_neg (by omega), hlead, Nat.add_sub_cancel, hcontinuation]
        simp only [UInt8.ofNat_toNat, hvalue]
        exact hsplit

/-- At a percent sign `decodeEscape` reads the escapes of a scalar value, or rejects the text. -/
theorem decodeEscape_cases {chars : Chars} {k : ℕ} (h : chars.drop k = percentSign :: chars.drop (k + 1)) :
    (∃ ch e, Escapes (String.utf8EncodeChar ch) e ∧ chars.drop k = e ++ chars.drop (k + e.length)) ∨
      decodeEscape chars k = .error .badUri := by
  rw [decodeEscape]
  by_cases hlength : k + 2 ≥ chars.length
  · exact Or.inr (if_pos hlength)
  rw [if_neg hlength]
  rcases readOctet_cases (show k + 2 < chars.length by omega) with
    ⟨b, c₁, c₂, hdrop, hoctet, hread⟩ | hread
  swap
  · right
    simp [bind, Except.bind, hread]
  rw [hread]
  simp only [bind, Except.bind]
  by_cases hmask : b.toNat &&& 0x80 = 0
  · have hb := (and_high_eq_zero b.toNat b.toNat_lt).mp hmask
    obtain ⟨ch, hch⟩ := exists_char (n := b.toNat) (by omega)
    have hencode : String.utf8EncodeChar ch = [b] := by
      rw [utf8EncodeChar_one (by omega), hch, UInt8.ofNat_toNat]
    refine Or.inl ⟨ch, [percentSign, c₁, c₂], hencode ▸ .cons hoctet .nil, ?_⟩
    rw [h, hdrop]
    rfl
  have hfirst : 0x80 ≤ b.toNat := by
    by_contra hlt
    exact hmask ((and_high_eq_zero b.toNat b.toNat_lt).mpr (by omega))
  rw [if_neg hmask]
  by_cases hn : (leadingOnes b.toNat 1 = 1 || leadingOnes b.toNat 1 > 4) = true
  · exact Or.inr (if_pos hn)
  rw [if_neg hn]
  by_cases hbound : k + 2 + 3 * (leadingOnes b.toNat 1 - 1) ≥ chars.length
  · exact Or.inr (if_pos hbound)
  rw [if_neg hbound]
  simp only [Bool.or_eq_true, decide_eq_true_eq] at hn
  have hone := le_leadingOnes b.toNat 1
  rcases readContinuation_cases
    (show k + 2 + 3 * (leadingOnes b.toNat 1 - 1) < chars.length by omega) with ⟨bs, e, hlen, hbs, he, hrest⟩ | hrest
  swap
  · right
    simp [hrest]
  have hpos : bs ≠ [] := fun h => by simp [h] at hlen; omega
  have hlead : leadingOnes b.toNat 1 = bs.length + 1 := by omega
  rw [← hlen, readContinuation_of_escapes he hbs hrest]
  simp only [UInt8.ofNat_toNat]
  by_cases hvalue : utf8ToOneUcs4Char b bs ≤ 0x10FFFF
  · obtain ⟨ch, hch⟩ := exists_char_of_utf8ToOneUcs4Char hpos hvalue
    have hencode := (utf8EncodeChar_eq_iff hfirst hlead hpos (by omega) hbs ch).mp hch
    refine Or.inl ⟨ch, percentSign :: c₁ :: c₂ :: e, hencode ▸ .cons hoctet he, ?_⟩
    rw [h, hdrop, hrest]
    simp only [List.length_cons, he.length_eq, List.cons_append]
    rw [hlen, show k + 2 + 1 + 3 * (leadingOnes b.toNat 1 - 1) =
      k + (3 * (leadingOnes b.toNat 1 - 1) + 1 + 1 + 1) by omega]
  · right
    rw [if_pos (by omega), if_pos (by omega)]

/-! ## The loop of decoding -/

section DecodeLoop

variable {chars : Chars} {reservedSet : Option (ℕ → Bool)} {keep : Char → Prop} {k : ℕ}

/-- At the end the loop returns the buffer. -/
theorem decodeLoop_end (h : chars.length ≤ k) (sb : Chars) :
    decodeLoop chars reservedSet k sb = .ok sb := by
  rw [decodeLoop, if_neg (by omega)]

/-- A position with a unit is within the text. -/
theorem lt_length_of_drop {c : UInt16} {rest : Chars} (h : chars.drop k = c :: rest) :
    k < chars.length := by
  by_contra hle
  rw [List.drop_eq_nil_of_le (by omega)] at h
  exact absurd h (by simp)

/-- A unit other than a percent sign is copied. -/
theorem decodeLoop_unit {c : UInt16} {rest : Chars} (h : chars.drop k = c :: rest)
    (hc : c ≠ percentSign) (sb : Chars) :
    decodeLoop chars reservedSet k sb = decodeLoop chars reservedSet (k + 1) (sb ++ [c]) := by
  rw [decodeLoop, if_pos (lt_length_of_drop h), readUnit_eq_ok h]
  exact if_neg hc

/-- The loop fails where an escape is rejected. -/
theorem decodeLoop_error {rest : Chars} (h : chars.drop k = percentSign :: rest)
    (herror : decodeEscape chars k = .error .badUri) (sb : Chars) :
    decodeLoop chars reservedSet k sb = .error .badUri := by
  rw [decodeLoop, if_pos (lt_length_of_drop h), readUnit_eq_ok h]
  dsimp only
  rw [if_pos rfl]
  split
  · next failure hfailure =>
    rw [herror] at hfailure
    cases hfailure
    rfl
  · next high c k' hok =>
    rw [herror] at hok
    cases hok

/-- Escapes start with a percent sign. -/
theorem exists_cons_of_escapes {ch : Char} {e : Chars} (he : Escapes (String.utf8EncodeChar ch) e) :
    ∃ e', e = percentSign :: e' := by
  generalize hencode : String.utf8EncodeChar ch = octets at he
  cases he with
  | nil =>
    have hoctets := length_utf8EncodeChar_cases ch
    rw [hencode] at hoctets
    simp at hoctets
  | cons hoctet he => exact ⟨_, rfl⟩

/-- The escapes of a scalar value are passed over, and become the value unless it is reserved. -/
theorem decodeLoop_escape {e rest : Chars} {ch : Char}
    (he : Escapes (String.utf8EncodeChar ch) e) (h : chars.drop k = e ++ rest)
    (hkeep : keep ch ↔ ch.toNat < 128 ∧ reservedSet.any (· ch.toNat) = true) (sb : Chars)
    [Decidable (keep ch)] :
    decodeLoop chars reservedSet k sb =
      decodeLoop chars reservedSet (k + e.length)
        (sb ++ if keep ch then e else utf16EncodeChar ch) := by
  obtain ⟨high, c, k', hunits, hk', hescape⟩ := decodeEscape_of_escapes he h
  obtain ⟨e', he'⟩ := exists_cons_of_escapes he
  have hpercent : chars.drop k = percentSign :: (e' ++ rest) := by rw [h, he', List.cons_append]
  have hlen := congrArg List.length h
  rw [List.length_drop, List.length_append] at hlen
  have hpos : 0 < e.length := by rw [he', List.length_cons]; omega
  rw [decodeLoop, if_pos (lt_length_of_drop hpercent), readUnit_eq_ok hpercent]
  dsimp only
  rw [if_pos rfl]
  split
  · next failure hfailure =>
    rw [hescape] at hfailure
    cases hfailure
  · next high' c' k'' hok =>
    rw [hescape] at hok
    cases hok
    -- Only a character of ASCII can be reserved, and it has a single unit.
    rcases last_unit_cases hunits with ⟨hc, hhigh, hch⟩ | ⟨hc, hch⟩
    · by_cases hreserved : reservedSet.any (· ch.toNat) = true
      · have hread : readUnits chars k (k' - k + 1) = .ok e := by
          rw [readUnits, if_pos (by omega), show k' - k + 1 = e.length by omega, h, List.take_left']
          rfl
        rw [hch, hreserved, if_pos (by simp; omega), hread, if_pos (hkeep.mpr ⟨by omega, hreserved⟩),
          hhigh, List.append_nil, hk']
      · rw [hch, if_neg (by simp [hreserved]), if_neg (fun hk => hreserved (hkeep.mp hk).2), hunits,
          hk', List.append_assoc]
    · rw [if_neg (by simp; omega), if_neg (fun hk => by have := (hkeep.mp hk).1; omega), hunits,
        hk', List.append_assoc]

/-- The loop decodes the texts that can be decoded. -/
theorem decodeLoop_of_decodes {s t : Chars} (hdecodes : Decodes keep s t)
    (hkeep : ∀ ch, keep ch ↔ ch.toNat < 128 ∧ reservedSet.any (· ch.toNat) = true)
    (h : chars.drop k = s) (sb : Chars) : decodeLoop chars reservedSet k sb = .ok (sb ++ t) := by
  classical
  induction hdecodes generalizing k sb with
  | nil =>
    rw [decodeLoop_end (List.drop_eq_nil_iff.mp h), List.append_nil]
  | unit hc _ ih =>
    rw [decodeLoop_unit h hc, ih (drop_succ h), List.append_assoc]
    rfl
  | @escape ch e s t he hnot _ ih =>
    have hrest : chars.drop (k + e.length) = s := by rw [← List.drop_drop, h, List.drop_left]
    rw [decodeLoop_escape he h (hkeep ch), if_neg hnot, ih hrest, List.append_assoc]
  | @kept ch e s t he hkept _ ih =>
    have hrest : chars.drop (k + e.length) = s := by rw [← List.drop_drop, h, List.drop_left]
    rw [decodeLoop_escape he h (hkeep ch), if_pos hkept, ih hrest, List.append_assoc]

/-- The loop decodes what is left of the text, or rejects it. -/
theorem decodeLoop_cases
    (hkeep : ∀ ch, keep ch ↔ ch.toNat < 128 ∧ reservedSet.any (· ch.toNat) = true) (sb : Chars) :
    (∃ t, Decodes keep (chars.drop k) t) ∨ decodeLoop chars reservedSet k sb = .error .badUri := by
  classical
  induction hn : chars.length - k using Nat.strongRecOn generalizing k sb with
  | ind n ih =>
    by_cases hlt : k < chars.length
    swap
    · exact Or.inl ⟨[], by rw [List.drop_eq_nil_of_le (by omega)]; exact .nil⟩
    obtain ⟨c, hc⟩ := exists_drop_eq_cons hlt
    by_cases hpercent : c = percentSign
    · rw [hpercent] at hc
      rcases decodeEscape_cases hc with ⟨ch, e, he, hdrop⟩ | herror
      · obtain ⟨e', he'⟩ := exists_cons_of_escapes he
        have hpos : 0 < e.length := by rw [he', List.length_cons]; omega
        rw [decodeLoop_escape he hdrop (hkeep ch)]
        rcases ih (chars.length - (k + e.length)) (by omega) _ rfl with ⟨t, ht⟩ | herror
        · left
          rw [hdrop]
          by_cases hkept : keep ch
          · exact ⟨_, .kept he hkept ht⟩
          · exact ⟨_, .escape he hkept ht⟩
        · exact Or.inr herror
      · exact Or.inr (decodeLoop_error hc herror sb)
    · rw [decodeLoop_unit hc hpercent]
      rcases ih (chars.length - (k + 1)) (by omega) _ rfl with ⟨t, ht⟩ | herror
      · left
        rw [hc]
        exact ⟨_, .unit hpercent ht⟩
      · exact Or.inr herror

end DecodeLoop

/-! ## Encoding -/

section EncodeLoop

variable {unescapedSet : ℕ → Bool} {unescapedSet2 : Option (ℕ → Bool)} {unescaped : Char → Prop}

/-- The digits of the table. -/
theorem hexDigits_cases : ∀ n < 16,
    n < 10 ∧ (hexDigits.getD n 0).toNat = 0x30 + n ∨
      10 ≤ n ∧ (hexDigits.getD n 0).toNat = 0x41 + (n - 10) := by
  decide +kernel

/-- A digit of the table stands for its number. -/
theorem isHexDigit_hexDigits {n : ℕ} (h : n < 16) : IsHexDigit (hexDigits.getD n 0) n := by
  rcases hexDigits_cases n h with hdigit | ⟨hle, hletter⟩
  · exact Or.inl hdigit
  · exact Or.inr ⟨hle, h, Or.inl hletter⟩

/-- The escapes of octets. -/
theorem escapes_flatMap_hexBuf (bs : List UInt8) : Escapes bs (bs.flatMap hexBuf) := by
  induction bs with
  | nil => exact .nil
  | cons b bs ih =>
    have hlt := b.toNat_lt
    have hshift : b.toNat >>> 4 = b.toNat / 16 := Nat.shiftRight_eq_div_pow _ 4
    have hand : b.toNat &&& 0xF = b.toNat % 16 := Nat.and_two_pow_sub_one_eq_mod _ 4
    rw [List.flatMap_cons, hexBuf, hshift, hand]
    exact .cons ⟨_, _, isHexDigit_hexDigits (by omega), isHexDigit_hexDigits (by omega), by omega⟩ ih

/-- The units a scalar value is encoded as. -/
def encodedChar (unescaped : Char → Prop) [DecidablePred unescaped] (ch : Char) : Chars :=
  if unescaped ch then utf16EncodeChar ch else (String.utf8EncodeChar ch).flatMap hexBuf

/-- The text that scalar values are encoded as. -/
def encodedText (unescaped : Char → Prop) [DecidablePred unescaped] (cs : List Char) : Chars :=
  cs.flatMap (encodedChar unescaped)

variable [DecidablePred unescaped]

/-- The loop encodes the UTF-16 of scalar values. -/
theorem encodeLoop_flatMap (hunescaped : ∀ ch, unescaped ch ↔
    ch.toNat < 128 ∧ (unescapedSet ch.toNat || unescapedSet2.any (· ch.toNat)) = true)
    (cs : List Char) (sb : Chars) :
    encodeLoop unescapedSet unescapedSet2 (cs.flatMap utf16EncodeChar) sb =
      .ok (sb ++ encodedText unescaped cs) := by
  induction cs generalizing sb with
  | nil => rw [List.flatMap_nil, encodeLoop, encodedText, List.flatMap_nil, List.append_nil]
  | cons ch cs ih =>
    have hescape : escape ch.toNat = (String.utf8EncodeChar ch).flatMap hexBuf := by
      rw [escape, oneUcs4ToUtf8Char_toNat]
    have htext : encodedText unescaped (ch :: cs) =
        encodedChar unescaped ch ++ encodedText unescaped cs := List.flatMap_cons
    rw [List.flatMap_cons, htext, encodedChar]
    rcases utf16EncodeChar_cases ch with ⟨c, hhigh, hlow, hch, hunits⟩ | ⟨c, d, hc, hd, hch, hunits⟩
    · rw [hunits, List.singleton_append, encodeLoop.eq_def]
      dsimp only
      rw [← hch]
      simp only [IsHigh, IsLow, ← hch] at hhigh hlow
      by_cases hset : unescaped ch
      · rw [if_pos (by simpa using (hunescaped ch).mp hset), if_pos hset, ih, List.append_assoc]
      · rw [if_neg (by simpa using mt (hunescaped ch).mpr hset), if_neg (by simp; omega),
          if_pos (by simp; omega), if_neg hset, ih, hescape, List.append_assoc]
    · obtain ⟨hc, hc'⟩ := hc
      obtain ⟨hd, hd'⟩ := hd
      have hset : ¬ unescaped ch := fun h => by
        have := ((hunescaped ch).mp h).1
        omega
      rw [hunits, List.cons_append, List.singleton_append, encodeLoop.eq_def]
      dsimp only
      rw [if_neg (by simp; omega), if_neg (by simp; omega), if_neg (by simp; omega),
        if_neg (by simp; omega), Nat.shiftLeft_eq, ← hch, if_neg hset, ih, hescape,
        List.append_assoc]

omit [DecidablePred unescaped] in
/-- The loop rejects all other texts. -/
theorem encodeLoop_cases (chars sb : Chars) :
    (∃ cs : List Char, chars = cs.flatMap utf16EncodeChar) ∨
      encodeLoop unescapedSet unescapedSet2 chars sb = .error .badUri := by
  have hunit : ∀ {c : UInt16} {chars : Chars}, ¬ IsHigh c → ¬ IsLow c →
      (∃ cs : List Char, chars = cs.flatMap utf16EncodeChar) →
      ∃ cs : List Char, c :: chars = cs.flatMap utf16EncodeChar := by
    rintro c chars hhigh hlow ⟨cs, rfl⟩
    obtain ⟨ch, -, hch⟩ := exists_char_of_unit hhigh hlow
    exact ⟨ch :: cs, by rw [List.flatMap_cons, hch]; rfl⟩
  fun_induction encodeLoop unescapedSet unescapedSet2 chars sb with
  | case1 sb => exact Or.inl ⟨[], rfl⟩
  | case2 c chars sb hset ih =>
    simp only [Bool.and_eq_true, decide_eq_true_eq] at hset
    refine ih.imp_left (hunit ?_ ?_)
    · simp only [IsHigh]
      omega
    · simp only [IsLow]
      omega
  | case3 => exact Or.inr rfl
  | case4 c chars sb hset hlow hhigh ih =>
    simp only [Bool.and_eq_true, Bool.or_eq_true, decide_eq_true_eq] at hlow hhigh
    refine ih.imp_left (hunit ?_ ?_)
    · simp only [IsHigh]
      omega
    · simp only [IsLow]
      omega
  | case5 => exact Or.inr rfl
  | case6 => exact Or.inr rfl
  | case7 c sb hset hlow hhigh d chars hd ih =>
    simp only [Bool.and_eq_true, Bool.or_eq_true, decide_eq_true_eq] at hlow hhigh hd
    refine ih.imp_left ?_
    rintro ⟨cs, rfl⟩
    obtain ⟨ch, -, hch⟩ := exists_char_of_pair (c := c) (d := d) ⟨by omega, by omega⟩
      ⟨by omega, by omega⟩
    exact ⟨ch :: cs, by rw [List.flatMap_cons, hch]; rfl⟩

/-- What a text is encoded as decodes to it. -/
theorem decodes_encodedText {keep : Char → Prop} (hpercent : ¬ unescaped '%')
    (hascii : ∀ ch, unescaped ch → ch.toNat < 128) (hkeep : ∀ ch, keep ch → unescaped ch)
    (cs : List Char) : Decodes keep (encodedText unescaped cs) (cs.flatMap utf16EncodeChar) := by
  induction cs with
  | nil => exact .nil
  | cons ch cs ih =>
    have htext : encodedText unescaped (ch :: cs) =
        encodedChar unescaped ch ++ encodedText unescaped cs := List.flatMap_cons
    rw [htext, List.flatMap_cons, encodedChar]
    by_cases h : unescaped ch
    · have hlt := hascii ch h
      have hunits : utf16EncodeChar ch = [UInt16.ofNat ch.toNat] := by
        rw [utf16EncodeChar, if_pos (by omega)]
      have hne : UInt16.ofNat ch.toNat ≠ percentSign := by
        intro heq
        have hnat : (UInt16.ofNat ch.toNat).toNat = ch.toNat :=
          UInt16.toNat_ofNat_of_lt' (by change _ < 65536; omega)
        rw [heq] at hnat
        have hch : '%' = ch := Char.toNat_inj.mp hnat
        exact hpercent (hch ▸ h)
      rw [if_pos h, hunits]
      exact .unit hne ih
    · rw [if_neg h]
      exact .escape (escapes_flatMap_hexBuf _) (mt (hkeep ch) h) ih

end EncodeLoop

/-! ## The functions -/

/-- Decoding makes no text longer. -/
theorem Decodes.length_le {keep : Char → Prop} {s t : Chars} (h : Decodes keep s t) :
    t.length ≤ s.length := by
  induction h with
  | nil => exact le_rfl
  | unit _ _ ih =>
    simp only [List.length_cons]
    omega
  | @escape ch e s t he _ _ ih =>
    have hoctets := length_utf8EncodeChar_cases ch
    have hlength := he.length_eq
    simp only [List.length_append]
    rcases utf16EncodeChar_cases ch with ⟨c, -, -, -, hunits⟩ | ⟨c, d, -, -, -, hunits⟩
    · rw [hunits, List.length_singleton]
      omega
    · rw [hunits, List.length_cons, List.length_singleton]
      omega
  | kept _ _ _ ih =>
    simp only [List.length_append]
    omega

/-- A buffer that fits becomes the string. -/
theorem finishString_eq_ok_iff (sb : Chars) (t : JSLinearString) :
    finishString sb = .ok t ↔ sb = t.chars := by
  obtain ⟨chars, hle⟩ := t
  rw [finishString]
  split_ifs with h
  · simp only [Except.ok.injEq, JSLinearString.mk.injEq]
  · simp only [false_iff]
    rintro rfl
    exact h hle

/-- A pair of functions codes URIs: encoding copies the unescaped characters and escapes the others,
and fails on unpaired surrogates and on texts that become too long; decoding is exact, keeps the
escapes of some characters, and undoes encoding. -/
structure IsUriCoding (unescaped keep : Char → Prop) [DecidablePred unescaped]
    (encode decode : JSLinearString → Except Failure JSLinearString) : Prop where
  encode_badUri_iff : ∀ s, encode s = .error .badUri ↔ ∃ i, UnpairedAt s.chars i
  encode_ok_iff : ∀ s, (∃ t, encode s = .ok t) ↔ (∀ i, ¬ UnpairedAt s.chars i) ∧
    ∀ cs : List Char, s.chars = cs.flatMap utf16EncodeChar →
      (encodedText unescaped cs).length ≤ maxLength
  encode_eq_ok_iff : ∀ s t, encode s = .ok t ↔
    ∃ cs : List Char, s.chars = cs.flatMap utf16EncodeChar ∧ t.chars = encodedText unescaped cs
  decode_encode : ∀ s t, encode s = .ok t → decode t = .ok s
  decode_ok_iff : ∀ s, (∃ t, decode s = .ok t) ↔ ∃ t, Decodes keep s.chars t
  decode_eq_ok_iff : ∀ s t, decode s = .ok t ↔ Decodes keep s.chars t.chars
  decode_error : ∀ s failure, decode s = .error failure → failure = .badUri

/-- `Encode` and `Decode` with suitable sets code URIs. -/
theorem isUriCoding {unescaped keep : Char → Prop} [DecidablePred unescaped]
    {unescapedSet : ℕ → Bool} {unescapedSet2 reservedSet : Option (ℕ → Bool)}
    (hunescaped : ∀ ch, unescaped ch ↔
      ch.toNat < 128 ∧ (unescapedSet ch.toNat || unescapedSet2.any (· ch.toNat)) = true)
    (hreserved : ∀ ch, keep ch ↔ ch.toNat < 128 ∧ reservedSet.any (· ch.toNat) = true)
    (hpercent : ¬ unescaped '%') (hkeep : ∀ ch, keep ch → unescaped ch) :
    IsUriCoding unescaped keep (encode unescapedSet unescapedSet2) (decode reservedSet) := by
  have hencode : ∀ (s : JSLinearString) (cs : List Char), s.chars = cs.flatMap utf16EncodeChar →
      encode unescapedSet unescapedSet2 s = finishString (encodedText unescaped cs) := by
    intro s cs hs
    rw [encode, hs, encodeLoop_flatMap hunescaped]
    rfl
  have hreject : ∀ s : JSLinearString, (¬ ∃ cs : List Char, s.chars = cs.flatMap utf16EncodeChar) →
      encode unescapedSet unescapedSet2 s = .error .badUri := by
    intro s hs
    rw [encode, (encodeLoop_cases s.chars []).resolve_left hs]
    rfl
  have hencode_ok : ∀ s t, encode unescapedSet unescapedSet2 s = .ok t ↔
      ∃ cs : List Char, s.chars = cs.flatMap utf16EncodeChar ∧ t.chars = encodedText unescaped cs := by
    intro s t
    constructor
    · intro h
      by_cases hs : ∃ cs : List Char, s.chars = cs.flatMap utf16EncodeChar
      · obtain ⟨cs, hcs⟩ := hs
        rw [hencode s cs hcs, finishString_eq_ok_iff] at h
        exact ⟨cs, hcs, h.symm⟩
      · rw [hreject s hs] at h
        cases h
    · rintro ⟨cs, hcs, ht⟩
      rw [hencode s cs hcs, finishString_eq_ok_iff, ht]
  have hdecode_of : ∀ (s : JSLinearString) (t : Chars), Decodes keep s.chars t →
      decode reservedSet s = finishString t := by
    intro s t h
    rw [decode, decodeLoop_of_decodes h hreserved rfl]
    rfl
  have hfits : ∀ (s : JSLinearString) (t : Chars), Decodes keep s.chars t → t.length ≤ maxLength :=
    fun s t h => h.length_le.trans s.length_le
  have hdecode_reject : ∀ s : JSLinearString, (¬ ∃ t, Decodes keep s.chars t) →
      decode reservedSet s = .error .badUri := by
    intro s hs
    rw [decode, (decodeLoop_cases (k := 0) hreserved []).resolve_left hs]
    rfl
  have hdecode_ok : ∀ s t, decode reservedSet s = .ok t ↔ Decodes keep s.chars t.chars := by
    intro s t
    constructor
    · intro h
      by_cases hs : ∃ t, Decodes keep s.chars t
      · obtain ⟨t', ht'⟩ := hs
        rw [hdecode_of s t' ht', finishString_eq_ok_iff] at h
        exact h ▸ ht'
      · rw [hdecode_reject s hs] at h
        cases h
    · intro h
      rw [hdecode_of s _ h, finishString_eq_ok_iff]
  constructor
  · intro s
    constructor
    · intro h
      by_contra hpaired
      push Not at hpaired
      obtain ⟨cs, hcs⟩ := (paired_iff s.chars).mp hpaired
      rw [hencode s cs hcs, finishString] at h
      split_ifs at h
      cases h
    · rintro ⟨i, hi⟩
      exact hreject s fun hs => (paired_iff s.chars).mpr hs i hi
  · intro s
    constructor
    · rintro ⟨t, ht⟩
      obtain ⟨cs, hcs, htext⟩ := (hencode_ok s t).mp ht
      refine ⟨(paired_iff s.chars).mpr ⟨cs, hcs⟩, fun cs' hcs' => ?_⟩
      rw [hencode s cs' hcs', finishString_eq_ok_iff] at ht
      exact ht ▸ t.length_le
    · rintro ⟨hpaired, hlength⟩
      obtain ⟨cs, hcs⟩ := (paired_iff s.chars).mp hpaired
      exact ⟨⟨_, hlength cs hcs⟩, (hencode_ok s _).mpr ⟨cs, hcs, rfl⟩⟩
  · exact hencode_ok
  · intro s t h
    obtain ⟨cs, hcs, ht⟩ := (hencode_ok s t).mp h
    rw [hdecode_ok, hcs, ht]
    exact decodes_encodedText hpercent (fun ch hch => ((hunescaped ch).mp hch).1) hkeep cs
  · intro s
    constructor
    · rintro ⟨t, ht⟩
      exact ⟨t.chars, (hdecode_ok s t).mp ht⟩
    · rintro ⟨t, ht⟩
      exact ⟨⟨t, hfits s t ht⟩, (hdecode_ok s _).mpr ht⟩
  · exact hdecode_ok
  · intro s failure h
    by_cases hs : ∃ t, Decodes keep s.chars t
    · obtain ⟨t, ht⟩ := hs
      rw [hdecode_of s t ht, finishString, dif_pos (hfits s t ht)] at h
      cases h
    · rw [hdecode_reject s hs] at h
      cases h
      rfl

/-! ## The tables -/

instance : DecidablePred IsReservedPlusPound := fun ch => by
  unfold IsReservedPlusPound
  infer_instance

instance : DecidablePred IsUnescaped := fun ch => by
  unfold IsUnescaped
  infer_instance

/-- A character is in a list if its number is in the list of numbers. -/
theorem mem_iff_toNat_mem (ch : Char) (l : List Char) : ch ∈ l ↔ ch.toNat ∈ l.map Char.toNat :=
  (List.mem_map_of_injective fun _ _ => Char.toNat_inj.mp).symm

/-- The table of reserved characters. -/
theorem isReservedPlusPound_iff (ch : Char) :
    IsReservedPlusPound ch ↔ ch.toNat < 128 ∧ isUriReservedPlusPound ch.toNat = true := by
  have hlt : isUriReservedPlusPound ch.toNat = true → ch.toNat < 128 := by
    simp only [isUriReservedPlusPound, List.mem_cons, List.not_mem_nil, or_false, decide_eq_true_eq]
    omega
  rw [and_iff_right_of_imp hlt, IsReservedPlusPound, mem_iff_toNat_mem, isUriReservedPlusPound,
    decide_eq_true_eq]
  rfl

/-- The table of characters that need no escape. -/
theorem isUnescaped_iff (ch : Char) :
    IsUnescaped ch ↔ ch.toNat < 128 ∧ isUriUnescaped ch.toNat = true := by
  have hlt : isUriUnescaped ch.toNat = true → ch.toNat < 128 := by
    simp only [isUriUnescaped, List.mem_cons, List.not_mem_nil, or_false, decide_eq_true_eq]
    omega
  have halphanum : ch.isAlphanum = true ↔
      48 ≤ ch.toNat ∧ ch.toNat ≤ 57 ∨ 65 ≤ ch.toNat ∧ ch.toNat ≤ 90 ∨
        97 ≤ ch.toNat ∧ ch.toNat ≤ 122 := by
    simp only [Char.isAlphanum, Char.isAlpha, Char.isUpper, Char.isLower, Char.isDigit,
      Bool.or_eq_true, Bool.and_eq_true, decide_eq_true_eq, ge_iff_le, UInt32.le_iff_toNat_le]
    simp only [Char.toNat_val]
    tauto
  rw [and_iff_right_of_imp hlt, IsUnescaped, mem_iff_toNat_mem, halphanum, isUriUnescaped,
    decide_eq_true_eq]
  rfl

/-- The functions for whole URIs. -/
theorem isUriCoding_encodeURI :
    IsUriCoding (fun ch => IsUnescaped ch ∨ IsReservedPlusPound ch) IsReservedPlusPound encodeURI
      decodeURI := by
  apply isUriCoding
  · intro ch
    rw [isUnescaped_iff, isReservedPlusPound_iff, Option.any_some, Bool.or_eq_true, and_or_left]
  · intro ch
    rw [isReservedPlusPound_iff, Option.any_some]
  · decide
  · exact fun ch => Or.inr

/-- The functions for components. -/
theorem isUriCoding_encodeURIComponent :
    IsUriCoding IsUnescaped (fun _ => False) encodeURIComponent decodeURIComponent := by
  apply isUriCoding
  · intro ch
    rw [isUnescaped_iff, Option.any_none, Bool.or_false]
  · intro ch
    simp
  · decide
  · exact fun ch => False.elim

/-- URI coding is exact, for whole URIs and for components. -/
theorem uri_coding_exact :
    IsUriCoding (fun ch => IsUnescaped ch ∨ IsReservedPlusPound ch) IsReservedPlusPound encodeURI
        decodeURI ∧
      IsUriCoding IsUnescaped (fun _ => False) encodeURIComponent decodeURIComponent :=
  ⟨isUriCoding_encodeURI, isUriCoding_encodeURIComponent⟩

/-- A text of `2 ^ 27` letters with an accent. -/
def longText : JSLinearString := ⟨List.replicate (2 ^ 27) 0xE9, by
  rw [List.length_replicate]
  decide⟩

/-- The long text has no unpaired surrogates, but six units for each letter do not fit a string. -/
theorem encodeURI_longText :
    (∀ i, ¬ UnpairedAt longText.chars i) ∧ ∀ t, encodeURI longText ≠ .ok t := by
  have hchars : longText.chars = (List.replicate (2 ^ 27) 'é').flatMap utf16EncodeChar := by
    rw [List.flatMap_replicate, show utf16EncodeChar 'é' = [0xE9] from rfl,
      List.flatten_replicate_singleton]
    rfl
  have hsix : (encodedChar (fun ch => IsUnescaped ch ∨ IsReservedPlusPound ch) 'é').length = 6 := by
    decide
  have hlength : (encodedText (fun ch => IsUnescaped ch ∨ IsReservedPlusPound ch)
      (List.replicate (2 ^ 27) 'é')).length = 2 ^ 27 * 6 := by
    rw [encodedText, List.length_flatMap, List.map_replicate, hsix, List.sum_replicate_nat]
  constructor
  · exact (paired_iff _).mpr ⟨_, hchars⟩
  · intro t ht
    have hfits := ((isUriCoding_encodeURI.encode_ok_iff longText).mp ⟨t, ht⟩).2 _ hchars
    rw [hlength] at hfits
    exact absurd hfits (by decide)

end SpiderMonkey.Vm.Uri
