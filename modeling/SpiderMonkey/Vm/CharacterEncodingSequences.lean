import SpiderMonkey.Vm.CharacterEncoding
import SpiderMonkey.Vm.UriSound

/-!
# The sequences the decoder finds

At a byte outside ASCII the decoder finds the UTF-8 of a scalar value, or an error that skips
continuation bytes only. It reads past the end exactly if the text ends in a sequence that is right as far
as it goes and whose end is past the 32-bit positions.
-/

namespace SpiderMonkey.Vm.CharacterEncoding

open Json (Chars)
open Unicode (utf16EncodeChar utf8EncodeChar_one utf8EncodeChar_two utf8EncodeChar_three
  utf8EncodeChar_four length_utf8EncodeChar_cases toNat_cases)
open Uri

variable {src tail : List UInt8} {first : UInt8} {i count m : ℕ}

/-! ## UTF-8 -/

/-- A text starts with the UTF-8 of a scalar value. -/
def StartsChar (bs : List UInt8) : Prop := ∃ (ch : Char) (rest : List UInt8), bs = String.utf8EncodeChar ch ++ rest

/-- The second bytes behind a first one. -/
def SecondByte (first b : UInt8) : Prop :=
  (first.toNat = 0xE0 → 0xA0 ≤ b.toNat) ∧ (first.toNat = 0xED → b.toNat < 0xA0) ∧
    (first.toNat = 0xF0 → 0x90 ≤ b.toNat) ∧ (first.toNat = 0xF4 → b.toNat < 0x90)

/-- The UTF-8 of a scalar value is a character of ASCII, or it carries the marks of a sequence. -/
theorem utf8EncodeChar_cases (ch : Char) :
    (∃ b, String.utf8EncodeChar ch = [b] ∧ b.toNat = ch.toNat ∧ b.toNat < 0x80) ∨
      ∃ first rest, String.utf8EncodeChar ch = first :: rest ∧ 0x80 ≤ ch.toNat ∧
        0x80 ≤ first.toNat ∧ leadingOnes first.toNat 1 = rest.length + 1 ∧ rest ≠ [] ∧
        rest.length ≤ 3 ∧ ∀ b ∈ rest, IsContinuation b := by
  by_cases hch : ch.toNat < 0x80
  · have hnat : (UInt8.ofNat ch.toNat).toNat = ch.toNat :=
      UInt8.toNat_ofNat_of_lt' (show ch.toNat < 256 by omega)
    exact Or.inl ⟨_, utf8EncodeChar_one hch, hnat, by omega⟩
  · cases hencode : String.utf8EncodeChar ch with
    | nil =>
      have hlength := length_utf8EncodeChar_cases ch
      rw [hencode, List.length_nil] at hlength
      omega
    | cons first rest =>
      exact Or.inr ⟨first, rest, rfl, by omega, marks_of_utf8EncodeChar (by omega) hencode⟩

/-- A continuation byte has one leading one. -/
theorem leadingOnes_of_isContinuation {b : UInt8} (h : IsContinuation b) : leadingOnes b.toNat 1 = 1 := by
  have hcases := leadingOnes_cases b.toNat_lt h.1
  have hlt := h.2
  omega

/-- No character starts with a continuation byte. -/
theorem not_startsChar_of_isContinuation {b : UInt8} (h : IsContinuation b) :
    ¬ StartsChar (b :: tail) := by
  rintro ⟨ch, rest, hbs⟩
  rcases utf8EncodeChar_cases ch with ⟨c, hch, -, hlt⟩ | ⟨first, cs, hch, -, hle, hlead, hne, -⟩
  · rw [hch, List.singleton_append, List.cons.injEq] at hbs
    have hle := h.1
    rw [hbs.1] at hle
    omega
  · rw [hch, List.cons_append, List.cons.injEq] at hbs
    have hone := leadingOnes_of_isContinuation (hbs.1 ▸ h)
    exact hne (List.length_eq_zero_iff.mp (by omega))

/-- The marks of a sequence at the start of a text. -/
theorem marks_of_startsChar (hfirst : 0x80 ≤ first.toNat) (h : StartsChar (first :: tail)) :
    ∃ ch rest, String.utf8EncodeChar ch = first :: tail.take rest ∧ 0x80 ≤ ch.toNat ∧
      leadingOnes first.toNat 1 = rest + 1 ∧ 1 ≤ rest ∧ rest ≤ 3 ∧ rest ≤ tail.length ∧
      ∀ b ∈ tail.take rest, IsContinuation b := by
  obtain ⟨ch, after, hbs⟩ := h
  rcases utf8EncodeChar_cases ch with ⟨c, hch, -, hlt⟩ | ⟨f, cs, hch, hle, -, hlead, hne, hthree, hcs⟩
  · rw [hch, List.singleton_append, List.cons.injEq] at hbs
    rw [hbs.1] at hfirst
    omega
  · rw [hch, List.cons_append, List.cons.injEq] at hbs
    obtain ⟨rfl, rfl⟩ := hbs
    have hpos : 1 ≤ cs.length := List.length_pos_iff.mpr hne
    refine ⟨ch, cs.length, ?_, hle, hlead, hpos, hthree, by simp, ?_⟩
    · rw [List.take_left, hch]
    · rwa [List.take_left]

/-- The second byte of a scalar value. -/
theorem secondByte_of_utf8EncodeChar {ch : Char} {b : UInt8} (hch : 0x80 ≤ ch.toNat)
    (h : String.utf8EncodeChar ch = first :: b :: tail) : SecondByte first b := by
  have hcases := toNat_cases ch
  rcases length_utf8EncodeChar_cases ch with ⟨h1, -⟩ | ⟨-, h2, -⟩ | ⟨h2, h3, -⟩ | ⟨h3, -⟩
  · omega
  · rw [utf8EncodeChar_two hch h2, List.cons.injEq, List.cons.injEq, ofNat_eq_iff (by omega),
      ofNat_eq_iff (by omega)] at h
    exact ⟨by omega, by omega, by omega, by omega⟩
  · rw [utf8EncodeChar_three h2 h3, List.cons.injEq, List.cons.injEq, ofNat_eq_iff (by omega),
      ofNat_eq_iff (by omega)] at h
    exact ⟨by omega, by omega, by omega, by omega⟩
  · rw [utf8EncodeChar_four h3, List.cons.injEq, List.cons.injEq, ofNat_eq_iff (by omega),
      ofNat_eq_iff (by omega)] at h
    exact ⟨by omega, by omega, by omega, by omega⟩

/-- The first byte of a scalar value says how many bytes there are. -/
theorem length_of_utf8EncodeChar {ch : Char} (h : String.utf8EncodeChar ch = first :: tail) :
    tail.length + 1 = if first.toNat < 0x80 then 1 else leadingOnes first.toNat 1 := by
  rcases utf8EncodeChar_cases ch with ⟨b, hch, -, hlt⟩ | ⟨f, rest, hch, -, hle, hlead, -⟩
  · rw [hch, List.cons.injEq] at h
    obtain ⟨rfl, rfl⟩ := h
    rw [if_pos hlt, List.length_nil]
  · rw [hch, List.cons.injEq] at h
    obtain ⟨rfl, rfl⟩ := h
    rw [if_neg (by omega), hlead]

/-- The UTF-8 of a scalar value gives the value back. -/
theorem utf8EncodeChar_injective {a b : Char} (h : String.utf8EncodeChar a = String.utf8EncodeChar b) :
    a = b := by
  apply Char.toNat_inj.mp
  rcases utf8EncodeChar_cases a with ⟨c, ha, hc, hlt⟩ | ⟨f, cs, ha, -, hle, hlead, hne, hthree, hcs⟩
  · rcases utf8EncodeChar_cases b with ⟨c', hb, hc', -⟩ | ⟨f', cs', hb, -, hle', -⟩
    · rw [ha, hb, List.cons.injEq] at h
      rw [← hc, ← hc', h.1]
    · rw [ha, hb, List.cons.injEq] at h
      rw [h.1] at hlt
      omega
  · have hread := fun ch => utf8EncodeChar_eq_iff hle hlead hne hthree hcs ch
    rw [← (hread a).mpr ha, ← (hread b).mpr (h ▸ ha)]

/-- A text starts with one character at most. -/
theorem utf8EncodeChar_prefix {a b : Char} {rest rest' : List UInt8}
    (h : String.utf8EncodeChar a ++ rest = String.utf8EncodeChar b ++ rest') : a = b ∧ rest = rest' := by
  have hlength : (String.utf8EncodeChar a).length = (String.utf8EncodeChar b).length := by
    cases ha : String.utf8EncodeChar a with
    | nil => exact absurd ha String.utf8EncodeChar_ne_nil
    | cons f cs =>
      cases hb : String.utf8EncodeChar b with
      | nil => exact absurd hb String.utf8EncodeChar_ne_nil
      | cons f' cs' =>
        rw [ha, hb, List.cons_append, List.cons_append, List.cons.injEq] at h
        rw [List.length_cons, List.length_cons, length_of_utf8EncodeChar ha,
          length_of_utf8EncodeChar hb, h.1]
  obtain ⟨hcode, hrest⟩ := List.append_inj h hlength
  exact ⟨utf8EncodeChar_injective hcode, hrest⟩

/-! ## Reading behind a first byte -/

/-- A sequence that is right as far as the text goes, but ends behind it. -/
structure Truncated (first : UInt8) (tail : List UInt8) : Prop where
  nonAscii : 0x80 ≤ first.toNat
  short : tail.length + 1 < leadingOnes first.toNat 1
  le_four : leadingOnes first.toNat 1 ≤ 4
  continuation : ∀ b ∈ tail, IsContinuation b
  second : ∀ b ∈ tail.head?, SecondByte first b

/-- The end of such a sequence is past the 32-bit positions. -/
def RunsPast (i : ℕ) (first : UInt8) (tail : List UInt8) : Prop :=
  Truncated first tail ∧ 2 ^ 32 ≤ i + leadingOnes first.toNat 1

/-- The length of a text from a byte in it on. -/
theorem length_of_drop (hdrop : src.drop i = first :: tail) : src.length = i + (tail.length + 1) := by
  have hlength := congrArg List.length hdrop
  rw [List.length_drop, List.length_cons] at hlength
  omega

/-- A byte behind a first one is read at its position, which does not wrap. -/
theorem readByte_behind (hdrop : src.drop i = first :: tail) (hlt : src.length < 2 ^ 32)
    (hm : m ≤ tail.length) :
    readByte src ((i + (m + 1)) % 2 ^ 32) =
      match tail[m]? with
      | some b => .ok b
      | none => .error .pastEnd := by
  have hlength := length_of_drop hdrop
  have hget : src[i + (m + 1)]? = tail[m]? := by
    rw [← List.getElem?_drop, hdrop, List.getElem?_cons_succ]
  rw [Nat.mod_eq_of_lt (by omega), ← hget]
  rfl

/-- The masks of the second bytes. -/
theorem second_masks : ∀ b < 256, (b &&& 0xE0 = 0xA0 ↔ 0xA0 ≤ b ∧ b < 0xC0) ∧
    (b &&& 0xE0 = 0x80 ↔ 0x80 ≤ b ∧ b < 0xA0) ∧ (b &&& 0xF0 = 0x80 ↔ 0x80 ≤ b ∧ b < 0x90) := by
  decide +kernel

/-- The check of the second byte, where there is one. -/
theorem badSecondByte_cons {b : UInt8} (hdrop : src.drop i = first :: b :: tail)
    (hlt : src.length < 2 ^ 32) :
    ∃ bad, badSecondByte src i first.toNat = .ok bad ∧
      (bad = false → IsContinuation b → SecondByte first b) ∧
      (bad = true → ¬ (IsContinuation b ∧ SecondByte first b)) := by
  have hread : readByte src ((i + 1) % 2 ^ 32) = .ok b := readByte_behind hdrop hlt (Nat.zero_le _)
  obtain ⟨hA0, h80, hF0⟩ := second_masks b.toNat b.toNat_lt
  rw [badSecondByte, hread]
  dsimp only [bind, Except.bind]
  simp only [SecondByte, IsContinuation]
  split_ifs with hspecial
  · refine ⟨_, rfl, ?_, ?_⟩ <;>
      simp only [Bool.or_eq_true, Bool.or_eq_false_iff, Bool.and_eq_true, Bool.and_eq_false_iff,
        decide_eq_true_eq, decide_eq_false_iff_not, ne_eq, not_not, hA0, h80, hF0] at hspecial ⊢ <;>
      omega
  · simp only [Bool.or_eq_true, decide_eq_true_eq] at hspecial
    exact ⟨false, rfl, by omega, by simp⟩

/-- The check of the second byte, where the text ends behind the first one. -/
theorem badSecondByte_nil (hdrop : src.drop i = [first]) (hlt : src.length < 2 ^ 32) :
    badSecondByte src i first.toNat = .ok false ∨
      badSecondByte src i first.toNat = .error .pastEnd := by
  have hread : readByte src ((i + 1) % 2 ^ 32) = .error .pastEnd :=
    readByte_behind hdrop hlt (Nat.zero_le _)
  rw [badSecondByte, hread]
  split_ifs
  · exact Or.inr rfl
  · exact Or.inl rfl

/-- The loop over the continuation bytes finds the first wrong one, or reads past the end. -/
theorem badContinuation_cases (count : ℕ) (hdrop : src.drop i = first :: tail) (hlt : src.length < 2 ^ 32)
    (hm : m ≤ tail.length) :
    (∃ k b, k < count ∧ tail[m + k]? = some b ∧ ¬ IsContinuation b ∧
      (∀ b ∈ (tail.drop m).take k, IsContinuation b) ∧
      badContinuation src i count (m + 1) = .ok (some (m + k + 1))) ∨
    (m + count ≤ tail.length ∧ (∀ b ∈ (tail.drop m).take count, IsContinuation b) ∧
      badContinuation src i count (m + 1) = .ok none) ∨
    (tail.length < m + count ∧ (∀ b ∈ tail.drop m, IsContinuation b) ∧
      badContinuation src i count (m + 1) = .error .pastEnd) := by
  induction count generalizing m with
  | zero => exact Or.inr (Or.inl ⟨hm, by simp, rfl⟩)
  | succ count ih =>
    rw [badContinuation, readByte_behind hdrop hlt hm]
    cases hb : tail[m]? with
    | none =>
      have hend := List.getElem?_eq_none_iff.mp hb
      rw [List.drop_eq_nil_of_le hend]
      exact Or.inr (Or.inr ⟨by omega, List.forall_mem_nil _, rfl⟩)
    | some b =>
      obtain ⟨hlength, hget⟩ := List.getElem?_eq_some_iff.mp hb
      have hcons : tail.drop m = b :: tail.drop (m + 1) := by
        rw [List.drop_eq_getElem_cons hlength, hget]
      have hmask : b.toNat &&& 0xC0 = 0x80 ↔ IsContinuation b := and_continuation_eq b.toNat b.toNat_lt
      dsimp only [bind, Except.bind]
      by_cases hcontinuation : IsContinuation b
      · rw [if_neg (by rw [ne_eq, not_not]; exact hmask.mpr hcontinuation), hcons]
        rcases ih (m := m + 1) (by omega) with ⟨k, c, hk, hc, hnot, hfront, heq⟩ | ⟨hle, hall, heq⟩ |
          ⟨hle, hall, heq⟩
        · refine Or.inl ⟨k + 1, c, by omega, ?_, hnot, ?_, ?_⟩
          · rwa [Nat.add_comm k, ← Nat.add_assoc]
          · rw [List.take_succ_cons]
            exact List.forall_mem_cons.mpr ⟨hcontinuation, hfront⟩
          · rw [heq, Nat.add_assoc m 1 k, Nat.add_comm 1 k]
        · refine Or.inr (Or.inl ⟨by omega, ?_, heq⟩)
          rw [List.take_succ_cons]
          exact List.forall_mem_cons.mpr ⟨hcontinuation, hall⟩
        · exact Or.inr (Or.inr ⟨by omega, List.forall_mem_cons.mpr ⟨hcontinuation, hall⟩, heq⟩)
      · rw [if_pos (mt hmask.mp hcontinuation)]
        exact Or.inl ⟨0, b, by omega, hb, hcontinuation, by simp, rfl⟩

/-- The units of a scalar value outside ASCII, as they are computed from it. -/
theorem units_of_toNat (ch : Char) (n : ℕ) :
    (if ch.toNat < 0x10000 then (.ok (.units n [UInt16.ofNat ch.toNat]) : Except Failure CodeUnit)
    else
      if ch.toNat - 0x10000 ≤ 0xFFFFF then
        .ok (.units n ([UInt16.ofNat (((ch.toNat - 0x10000) >>> 10) + 0xD800)] ++
          [UInt16.ofNat (((ch.toNat - 0x10000) &&& 0x3FF) + 0xDC00)]))
      else .ok (.invalid (.tooBigCharacter (ch.toNat - 0x10000)) 1)) =
      .ok (.units n (utf16EncodeChar ch)) := by
  have hcases := toNat_cases ch
  by_cases h : ch.toNat < 0x10000
  · rw [if_pos h, utf16EncodeChar, if_pos h]
  · rw [if_neg h, if_pos (by omega), utf16EncodeChar_of_le (by omega)]

/-- The end of the branch, behind the checks of the bytes. -/
theorem readSequence_cases (hdrop : src.drop i = first :: tail) (hfirst : 0x80 ≤ first.toNat)
    (hlead : leadingOnes first.toNat 1 = m + 1) (hpos : 1 ≤ m) (hthree : m ≤ 3) (hle : m ≤ tail.length)
    (hall : ∀ b ∈ tail.take m, IsContinuation b) :
    (∃ ch rest, first :: tail = String.utf8EncodeChar ch ++ rest ∧ 0x80 ≤ ch.toNat ∧
      readSequence src i (m + 1) first =
        .ok (.units (String.utf8EncodeChar ch).length (utf16EncodeChar ch))) ∨
    ¬ StartsChar (first :: tail) ∧
      ∃ report, readSequence src i (m + 1) first = .ok (.invalid report 1) := by
  have hlength := length_of_drop hdrop
  have htail : src.drop (i + 1) = tail := by
    rw [← List.drop_drop, hdrop, List.drop_one, List.tail_cons]
  have htake : (tail.take m).length = m := by rw [List.length_take, Nat.min_eq_left hle]
  have hne : tail.take m ≠ [] := fun h => by rw [h, List.length_nil] at htake; omega
  have hread := fun ch => utf8EncodeChar_eq_iff hfirst (hlead.trans (by rw [htake])) hne
    (by omega) hall ch
  rw [readSequence, readBytes, if_pos (by omega), htail, Nat.add_sub_cancel]
  dsimp only [bind, Except.bind]
  by_cases hvalue : utf8ToOneUcs4Char first (tail.take m) ≤ 0x10FFFF
  · obtain ⟨ch, hch⟩ := exists_char_of_utf8ToOneUcs4Char hne hvalue
    have hencode := (hread ch).mp hch
    left
    refine ⟨ch, tail.drop m, ?_, ?_, ?_⟩
    · rw [hencode, List.cons_append, List.take_append_drop]
    · by_contra hascii
      rw [utf8EncodeChar_one (by omega), List.cons.injEq] at hencode
      exact hne hencode.2.symm
    · rw [hch, units_of_toNat, hencode, List.length_cons, htake]
  · right
    refine ⟨fun h => ?_, _, by rw [if_neg (by omega), if_neg (by omega)]⟩
    obtain ⟨ch, rest, hencode, -, hlead', -⟩ := marks_of_startsChar hfirst h
    obtain rfl : rest = m := by omega
    rw [(hread ch).mpr hencode] at hvalue
    have hcases := toNat_cases ch
    omega

/-- What the decoder finds at a byte outside ASCII. -/
theorem codeUnit_cases (hdrop : src.drop i = first :: tail) (hlt : src.length < 2 ^ 32)
    (hfirst : 0x80 ≤ first.toNat) :
    (∃ ch rest, first :: tail = String.utf8EncodeChar ch ++ rest ∧ 0x80 ≤ ch.toNat ∧
      codeUnit src i first = .ok (.units (String.utf8EncodeChar ch).length (utf16EncodeChar ch))) ∨
    (∃ report n2, 1 ≤ n2 ∧ n2 ≤ tail.length + 1 ∧ (∀ b ∈ tail.take (n2 - 1), IsContinuation b) ∧
      ¬ StartsChar (first :: tail) ∧ ¬ RunsPast i first tail ∧
      codeUnit src i first = .ok (.invalid report n2)) ∨
    (RunsPast i first tail ∧ codeUnit src i first = .error .pastEnd) := by
  have hlength := length_of_drop hdrop
  have hmarks := fun h : StartsChar (first :: tail) => marks_of_startsChar hfirst h
  have hskip : ∀ b ∈ tail.take (1 - 1), IsContinuation b := by simp
  rw [codeUnit]
  split_ifs with hn hsmall
  · -- The first byte starts no sequence.
    simp only [Bool.or_eq_true, decide_eq_true_eq] at hn
    refine Or.inr (Or.inl ⟨_, 1, le_rfl, by omega, hskip, fun h => ?_, fun h => ?_, rfl⟩)
    · obtain ⟨ch, rest, -, -, hlead, hpos, hle, -⟩ := hmarks h
      omega
    · have hshort := h.1.short
      have hfour := h.1.le_four
      omega
  · -- The sequence does not fit.
    refine Or.inr (Or.inl ⟨_, 1, le_rfl, by omega, hskip, fun h => ?_, fun h => ?_, rfl⟩)
    · obtain ⟨ch, rest, -, -, hlead, -, -, hrest, -⟩ := hmarks h
      have hmod := Nat.mod_le (i + leadingOnes first.toNat 1) (2 ^ 32)
      omega
    · have hwrap := h.2
      have hfour := h.1.le_four
      rw [Nat.mod_eq_sub_mod hwrap, Nat.mod_eq_of_lt (by omega)] at hsmall
      omega
  · simp only [Bool.or_eq_true, decide_eq_true_eq, not_or] at hn
    obtain ⟨count, hcount⟩ : ∃ count, leadingOnes first.toNat 1 = count + 1 :=
      ⟨leadingOnes first.toNat 1 - 1, by omega⟩
    -- Where the sequence does not end in the text, the comparison has wrapped.
    have hwraps : tail.length < count → 2 ^ 32 ≤ i + leadingOnes first.toNat 1 := by
      intro hshort
      by_contra hwrap
      rw [Nat.mod_eq_of_lt (by omega)] at hsmall
      omega
    have hcontinuation := badContinuation_cases (m := 0) count hdrop hlt (Nat.zero_le _)
    simp only [Nat.zero_add, List.drop_zero] at hcontinuation
    rw [hcount, Nat.add_sub_cancel]
    cases tail with
    | nil =>
      have hpast : badContinuation src i count 1 = .error .pastEnd := by
        rcases hcontinuation with ⟨k, b, -, hb, -⟩ | ⟨hle, -⟩ | ⟨-, -, heq⟩
        · simp at hb
        · rw [List.length_nil] at hle
          omega
        · exact heq
      have htruncated : Truncated first [] :=
        ⟨hfirst, by rw [List.length_nil]; omega, by omega, List.forall_mem_nil _, by simp⟩
      refine Or.inr (Or.inr ⟨⟨htruncated, hwraps (by rw [List.length_nil]; omega)⟩, ?_⟩)
      rcases badSecondByte_nil hdrop hlt with h | h
      · rw [h, hpast]
        rfl
      · rw [h]
        rfl
    | cons b tail =>
      obtain ⟨bad, hbad, hgood, hwrong⟩ := badSecondByte_cons hdrop hlt
      have hsecond : StartsChar (first :: b :: tail) → IsContinuation b ∧ SecondByte first b := by
        intro h
        obtain ⟨ch, rest, hencode, hch, -, hpos, -, -, hrest⟩ := hmarks h
        obtain ⟨rest, rfl⟩ : ∃ r, rest = r + 1 := ⟨rest - 1, by omega⟩
        rw [List.take_succ_cons] at hencode hrest
        exact ⟨hrest b List.mem_cons_self, secondByte_of_utf8EncodeChar hch hencode⟩
      rw [hbad]
      dsimp only [bind, Except.bind]
      cases bad with
      | true =>
        exact Or.inr (Or.inl ⟨_, 1, le_rfl, by omega, hskip, fun h => hwrong rfl (hsecond h),
          fun h => hwrong rfl ⟨h.1.continuation b List.mem_cons_self, h.1.second b rfl⟩, rfl⟩)
      | false =>
        rcases hcontinuation with ⟨k, c, hk, hc, hnot, hfront, heq⟩ | ⟨hle, hall, heq⟩ |
          ⟨hshort, hall, heq⟩
        · obtain ⟨hlt', hget⟩ := List.getElem?_eq_some_iff.mp hc
          rw [heq]
          refine Or.inr (Or.inl ⟨_, k + 1, by omega, by omega, by simpa using hfront, fun h => ?_,
            fun h => hnot (h.1.continuation c (hget ▸ List.getElem_mem hlt')), rfl⟩)
          obtain ⟨ch, rest, -, -, hlead, -, -, -, hrest⟩ := hmarks h
          apply hnot
          apply hrest
          exact List.mem_take_iff_getElem.mpr ⟨k, by omega, hget⟩
        · rw [heq]
          rcases readSequence_cases hdrop hfirst hcount (by omega) (by omega) hle hall with
            hchar | ⟨hnot, report, hreport⟩
          · exact Or.inl hchar
          · refine Or.inr (Or.inl ⟨report, 1, le_rfl, by omega, hskip, hnot, fun h => ?_, hreport⟩)
            have hshort := h.1.short
            omega
        · rw [heq]
          refine Or.inr (Or.inr ⟨⟨⟨hfirst, by omega, by omega, hall, ?_⟩, hwraps hshort⟩, rfl⟩)
          rintro c hc
          obtain rfl : b = c := by simpa using hc
          exact hgood rfl (hall b List.mem_cons_self)

end SpiderMonkey.Vm.CharacterEncoding
