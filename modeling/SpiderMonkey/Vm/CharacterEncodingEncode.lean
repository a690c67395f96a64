import SpiderMonkey.Vm.CharacterEncodingDecode

/-!
# What encoding to UTF-8 gives

Both loops of the encoder take the units of one scalar value at a time. What was written is read back by
the decoder as long as its 32-bit positions reach the end of it.
-/

namespace SpiderMonkey.Vm.CharacterEncoding

open Json (Chars)
open Unicode (utf16EncodeChar IsHigh IsLow scalars replacement Replaced length_utf8EncodeChar_cases
  toNat_cases utf16EncodeChar_unit utf16EncodeChar_pair toNat_ofNat)
open Uri

variable {src : List UInt8} {chars rest : Chars} {c d : UInt16} {ch : Char} {b : Buffer}

/-! ## The specification -/

/-- What encoding does on units that stand for some scalar values. -/
structure EncodesTo (chars : Chars) (cs : List Char) : Prop where
  /-- The UTF-16 of the scalar values is the units with a replacement for each unpaired surrogate. -/
  replaced : Replaced chars (cs.flatMap utf16EncodeChar)
  /-- The length that is computed is that of the UTF-8 of the scalar values. -/
  length : getDeflatedUTF8StringLength chars = (cs.flatMap String.utf8EncodeChar).length
  /-- A buffer of that length is filled with it. -/
  fills : deflateStringToUTF8Buffer chars (getDeflatedUTF8StringLength chars) =
    (true, cs.flatMap String.utf8EncodeChar, (cs.flatMap String.utf8EncodeChar).length)
  /-- In a smaller buffer the characters are written that fit. -/
  fails : ∀ dstlen < getDeflatedUTF8StringLength chars, ∃ front ch back, cs = front ++ ch :: back ∧
    (front.flatMap String.utf8EncodeChar).length ≤ dstlen ∧
    dstlen < ((front ++ [ch]).flatMap String.utf8EncodeChar).length ∧
    deflateStringToUTF8Buffer chars dstlen =
      (false, front.flatMap String.utf8EncodeChar, (front.flatMap String.utf8EncodeChar).length)
  /-- The memory that is allocated is filled with it and a terminator. -/
  allocates : twoByteCharsToNewUTF8CharsZ chars =
    (cs.flatMap String.utf8EncodeChar ++ [0], (cs.flatMap String.utf8EncodeChar).length + 1)
  /-- Decoding it gives the units back. -/
  decodes : ∃ fuel, ∀ memory,
    utf8CharsToNewTwoByteCharsZ (cs.flatMap String.utf8EncodeChar) memory fuel =
      .ok (cs.flatMap utf16EncodeChar ++ [0], (cs.flatMap utf16EncodeChar).length)

/-! ## One scalar value -/

/-- The bits of a scalar value outside ASCII are counted as the bytes of it. -/
theorem utf8LengthLoop_toNat {ch : Char} (hch : 0x80 ≤ ch.toNat) (n : ℕ) :
    utf8LengthLoop (ch.toNat >>> 11) n + 2 = n + (String.utf8EncodeChar ch).length := by
  have hcases := toNat_cases ch
  have hlength := length_utf8EncodeChar_cases ch
  rw [show ch.toNat >>> 11 = ch.toNat / 0x800 from Nat.shiftRight_eq_div_pow _ 11]
  by_cases h2 : ch.toNat < 0x800
  · rw [Nat.div_eq_of_lt h2, utf8LengthLoop_zero]
    omega
  by_cases h3 : ch.toNat < 0x10000
  · rw [utf8LengthLoop_of_pos (by omega), Nat.div_eq_of_lt (by omega), utf8LengthLoop_zero]
    omega
  · rw [utf8LengthLoop_of_pos (by omega), utf8LengthLoop_of_pos (by omega),
      Nat.div_eq_of_lt (by omega), utf8LengthLoop_zero]
    omega

/-- Write bytes if there is room for all of them. -/
def Buffer.put (b : Buffer) (bytes : List UInt8) : Option Buffer :=
  if bytes.length > b.dstlen then none else some ⟨b.dst ++ bytes, b.dstlen - bytes.length⟩

/-- A scalar value is written as its UTF-8. -/
theorem putValue_eq (b : Buffer) (ch : Char) : b.putValue ch.toNat = b.put (String.utf8EncodeChar ch) := by
  rw [Buffer.putValue, Buffer.put, oneUcs4ToUtf8Char_toNat]
  by_cases hascii : ch.toNat < 0x80
  · rw [if_pos hascii, Unicode.utf8EncodeChar_one hascii, List.length_singleton]
    by_cases hroom : b.dstlen = 0
    · rw [if_pos hroom, if_pos (by omega)]
    · rw [if_neg hroom, if_neg (by omega)]
  · rw [if_neg hascii]

/-- The replacement is written as its UTF-8. -/
theorem putUTF8ReplacementCharacter_eq (b : Buffer) :
    b.putUTF8ReplacementCharacter = b.put (String.utf8EncodeChar replacement) := by
  have hcode : String.utf8EncodeChar replacement = [0xEF, 0xBF, 0xBD] := by decide
  rw [hcode]
  rfl

/-- The value of a pair, as the encoder computes it. -/
theorem pair_toNat (hc : IsHigh c) (hd : IsLow d) :
    ((c.toNat - 0xD800) <<< 10) + (d.toNat - 0xDC00) + 0x10000 =
      (Char.ofNat ((c.toNat - 0xD800) * 0x400 + (d.toNat - 0xDC00) + 0x10000)).toNat := by
  have hc1 := hc.1
  have hc2 := hc.2
  have hd1 := hd.1
  have hd2 := hd.2
  rw [toNat_ofNat (by omega), Nat.shiftLeft_eq]

/-- The number of a unit that is no surrogate. -/
theorem unit_toNat (hhigh : ¬ IsHigh c) (hlow : ¬ IsLow c) : (Char.ofNat c.toNat).toNat = c.toNat := by
  have hlt := c.toNat_lt
  apply toNat_ofNat
  simp only [IsHigh, IsLow] at hhigh hlow
  omega

/-! ## The loops -/

/-- The tests of the loop that counts, at a surrogate. -/
theorem isSurrogate_eq (h : 0xD800 ≤ c.toNat) (hle : c.toNat ≤ 0xDFFF) :
    (0xD800 ≤ c.toNat && c.toNat ≤ 0xDFFF : Bool) = true := by
  rw [decide_eq_true h, decide_eq_true hle, Bool.and_self]

/-- The test for a unit behind one that starts a pair. -/
theorem notLow_eq_true (h : ¬ IsLow d) : (d.toNat < 0xDC00 || d.toNat > 0xDFFF : Bool) = true := by
  simp only [IsLow] at h
  simp only [Bool.or_eq_true, decide_eq_true_eq]
  omega

/-- The test for a unit that ends a pair. -/
theorem notLow_eq_false (h : IsLow d) : ¬ (d.toNat < 0xDC00 || d.toNat > 0xDFFF : Bool) = true := by
  simp only [IsLow] at h
  simp only [Bool.or_eq_true, decide_eq_true_eq]
  omega

/-- The replacement has three bytes. -/
theorem length_replacement : (String.utf8EncodeChar replacement).length = 3 := by
  decide

/-- The loop that counts finds the length of the UTF-8. -/
theorem deflatedLengthLoop_eq (chars : Chars) (nbytes : ℕ) (hle : chars.length ≤ nbytes) :
    deflatedLengthLoop chars nbytes + chars.length =
      nbytes + ((scalars chars).flatMap String.utf8EncodeChar).length := by
  fun_induction scalars chars generalizing nbytes with
  | case1 => rfl
  | case2 c hhigh =>
    obtain ⟨h1, h2⟩ := hhigh
    rw [deflatedLengthLoop, if_neg (by omega), if_pos (isSurrogate_eq h1 (by omega)), if_neg (by omega),
      List.flatMap_singleton, length_replacement]
    rfl
  | case3 c hhigh d s hlow ih =>
    have hvalue := pair_toNat hhigh hlow
    have hlarge : 0x80 ≤ ((c.toNat - 0xD800) <<< 10) + (d.toNat - 0xDC00) + 0x10000 := by omega
    obtain ⟨h1, h2⟩ := hhigh
    rw [List.length_cons, List.length_cons] at hle ⊢
    rw [deflatedLengthLoop, if_neg (by omega), if_pos (isSurrogate_eq h1 (by omega)), if_neg (by omega)]
    dsimp only
    rw [if_neg (notLow_eq_false hlow), List.flatMap_cons, List.length_append]
    rw [hvalue] at hlarge ⊢
    have hcount := utf8LengthLoop_toNat hlarge (nbytes - 1 + 1)
    have hfour := length_utf8EncodeChar_cases
      (Char.ofNat ((c.toNat - 0xD800) * 0x400 + (d.toNat - 0xDC00) + 0x10000))
    have hih := ih (utf8LengthLoop ((Char.ofNat ((c.toNat - 0xD800) * 0x400 + (d.toNat - 0xDC00) +
      0x10000)).toNat >>> 11) (nbytes - 1 + 1)) (by omega)
    omega
  | case4 c hhigh d s hlow ih =>
    obtain ⟨h1, h2⟩ := hhigh
    rw [List.length_cons] at hle ⊢
    rw [deflatedLengthLoop, if_neg (by omega), if_pos (isSurrogate_eq h1 (by omega)), if_neg (by omega)]
    dsimp only
    rw [if_pos (notLow_eq_true hlow), List.flatMap_cons, List.length_append, length_replacement]
    have hih := ih (nbytes + 2) (by omega)
    omega
  | case5 c s hhigh hlow ih =>
    obtain ⟨h1, h2⟩ := hlow
    rw [List.length_cons] at hle ⊢
    rw [deflatedLengthLoop.eq_def]
    dsimp only
    rw [if_neg (by omega), if_pos (isSurrogate_eq (by omega) h2), if_pos (by omega), List.flatMap_cons,
       List.length_append, length_replacement]
    have hih := ih (nbytes + 2) (by omega)
    omega
  | case6 c s hhigh hlow ih =>
    have hvalue := unit_toNat hhigh hlow
    have hone := length_utf8EncodeChar_cases (Char.ofNat c.toNat)
    have hsurrogate : ¬ (0xD800 ≤ c.toNat && c.toNat ≤ 0xDFFF : Bool) = true := by
      simp only [IsHigh, IsLow] at hhigh hlow
      simp only [Bool.and_eq_true, decide_eq_true_eq]
      omega
    rw [List.length_cons] at hle ⊢
    rw [deflatedLengthLoop.eq_def, List.flatMap_cons, List.length_append]
    dsimp only
    by_cases hascii : c.toNat < 0x80
    · have hih := ih nbytes (by omega)
      rw [if_pos hascii]
      omega
    · have hcount := utf8LengthLoop_toNat (show 0x80 ≤ (Char.ofNat c.toNat).toNat by omega) (nbytes + 1)
      rw [hvalue] at hcount
      have hih := ih (utf8LengthLoop (c.toNat >>> 11) (nbytes + 1)) (by omega)
      rw [if_neg hascii, if_neg hsurrogate]
      omega

/-- The length that is computed is that of the UTF-8. -/
theorem getDeflatedUTF8StringLength_eq (chars : Chars) :
    getDeflatedUTF8StringLength chars = ((scalars chars).flatMap String.utf8EncodeChar).length := by
  have hcount := deflatedLengthLoop_eq chars chars.length (Nat.le_refl _)
  rw [getDeflatedUTF8StringLength]
  omega

/-- Write the UTF-8 of scalar values until there is no more room. -/
def putAll : List Char → Buffer → Bool × Buffer
  | [], b => (true, b)
  | ch :: cs, b =>
    (b.put (String.utf8EncodeChar ch)).elim (false, b) fun b => putAll cs b

/-- The loop that writes writes the UTF-8. -/
theorem deflateLoop_eq (chars : Chars) (b : Buffer) : deflateLoop chars b = putAll (scalars chars) b := by
  have hnotLow : ∀ {c : UInt16}, ¬ IsLow c → ¬ (c.toNat ≥ 0xDC00 && c.toNat ≤ 0xDFFF : Bool) = true := by
    intro c h
    simp only [IsLow] at h
    simp only [Bool.and_eq_true, decide_eq_true_eq]
    omega
  have hhighTest : ∀ {c : UInt16}, IsHigh c → ¬ (c.toNat < 0xD800 || c.toNat > 0xDBFF : Bool) = true := by
    intro c h
    simp only [IsHigh] at h
    simp only [Bool.or_eq_true, decide_eq_true_eq]
    omega
  fun_induction scalars chars generalizing b with
  | case1 => rfl
  | case2 c hhigh =>
    rw [deflateLoop.eq_def]
    dsimp only
    rw [if_neg (hnotLow hhigh.not_isLow), if_neg (hhighTest hhigh), putUTF8ReplacementCharacter_eq, putAll]
    rfl
  | case3 c hhigh d s hlow ih =>
    rw [deflateLoop.eq_def]
    dsimp only
    rw [if_neg (hnotLow hhigh.not_isLow), if_neg (hhighTest hhigh), if_neg (notLow_eq_false hlow),
      pair_toNat hhigh hlow, putValue_eq, putAll]
    generalize b.put _ = result
    cases result with
    | none => rfl
    | some b => exact ih b
  | case4 c hhigh d s hlow ih =>
    rw [deflateLoop.eq_def]
    dsimp only
    rw [if_neg (hnotLow hhigh.not_isLow), if_neg (hhighTest hhigh), if_pos (notLow_eq_true hlow),
      putUTF8ReplacementCharacter_eq, putAll]
    generalize b.put _ = result
    cases result with
    | none => rfl
    | some b => exact ih b
  | case5 c s hhigh hlow ih =>
    have hlowTest : (c.toNat ≥ 0xDC00 && c.toNat ≤ 0xDFFF : Bool) = true := by
      rw [decide_eq_true hlow.1, decide_eq_true hlow.2, Bool.and_self]
    rw [deflateLoop.eq_def]
    dsimp only
    rw [if_pos hlowTest, putUTF8ReplacementCharacter_eq, putAll]
    generalize b.put _ = result
    cases result with
    | none => rfl
    | some b => exact ih b
  | case6 c s hhigh hlow ih =>
    have hunit : (c.toNat < 0xD800 || c.toNat > 0xDBFF : Bool) = true := by
      simp only [IsHigh] at hhigh
      simp only [Bool.or_eq_true, decide_eq_true_eq]
      omega
    rw [deflateLoop.eq_def]
    dsimp only
    rw [if_neg (hnotLow hlow), if_pos hunit, putAll, ← putValue_eq, unit_toNat hhigh hlow]
    generalize b.putValue _ = result
    cases result with
    | none => rfl
    | some b => exact ih b

/-- All of it is written if there is room. -/
theorem putAll_fits (cs : List Char) (b : Buffer)
    (hle : (cs.flatMap String.utf8EncodeChar).length ≤ b.dstlen) :
    putAll cs b = (true, ⟨b.dst ++ cs.flatMap String.utf8EncodeChar,
      b.dstlen - (cs.flatMap String.utf8EncodeChar).length⟩) := by
  induction cs generalizing b with
  | nil => simp [putAll]
  | cons ch cs ih =>
    rw [List.flatMap_cons, List.length_append] at hle
    rw [putAll, Buffer.put, if_neg (by omega), Option.elim_some]
    rw [ih _ (by dsimp only; omega), List.flatMap_cons, List.append_assoc, List.length_append,
      Nat.sub_sub]

/-- Only whole scalar values are written if there is not enough room. -/
theorem putAll_fails (cs : List Char) (b : Buffer)
    (hlt : b.dstlen < (cs.flatMap String.utf8EncodeChar).length) :
    ∃ front ch back, cs = front ++ ch :: back ∧
      (front.flatMap String.utf8EncodeChar).length ≤ b.dstlen ∧
      b.dstlen < ((front ++ [ch]).flatMap String.utf8EncodeChar).length ∧
      putAll cs b = (false, ⟨b.dst ++ front.flatMap String.utf8EncodeChar,
        b.dstlen - (front.flatMap String.utf8EncodeChar).length⟩) := by
  induction cs generalizing b with
  | nil => exact absurd hlt (Nat.not_lt_zero _)
  | cons ch cs ih =>
    rw [List.flatMap_cons, List.length_append] at hlt
    rw [putAll, Buffer.put]
    by_cases hroom : (String.utf8EncodeChar ch).length > b.dstlen
    · refine ⟨[], ch, cs, rfl, Nat.zero_le _, ?_, ?_⟩
      · rw [List.nil_append, List.flatMap_singleton]
        exact hroom
      · rw [if_pos hroom]
        simp
    · obtain ⟨front, next, back, hcs, hle, hnext, heq⟩ :=
        ih ⟨b.dst ++ String.utf8EncodeChar ch, b.dstlen - (String.utf8EncodeChar ch).length⟩
          (by dsimp only; omega)
      dsimp only at hle hnext
      refine ⟨ch :: front, next, back, by rw [hcs, List.cons_append], ?_, ?_, ?_⟩
      · rw [List.flatMap_cons, List.length_append]
        omega
      · rw [List.cons_append, List.flatMap_cons, List.length_append]
        omega
      · rw [if_neg hroom, Option.elim_some, heq, List.flatMap_cons, List.append_assoc, List.length_append, Nat.sub_sub]

/-- What the call writes into a buffer that is large enough. -/
theorem deflateStringToUTF8Buffer_fits {dstlen : ℕ}
    (hle : ((scalars chars).flatMap String.utf8EncodeChar).length ≤ dstlen) :
    deflateStringToUTF8Buffer chars dstlen = (true, (scalars chars).flatMap String.utf8EncodeChar,
      ((scalars chars).flatMap String.utf8EncodeChar).length) := by
  rw [deflateStringToUTF8Buffer, deflateLoop_eq, putAll_fits _ _ hle]
  dsimp only
  rw [List.nil_append, Nat.sub_sub_self hle]

/-! ## Reading it back -/

/-- The UTF-8 of scalar values does not end in the middle of a sequence. -/
theorem not_truncated {first : UInt8} {tail : List UInt8} {k : ℕ} (cs : List Char)
    (hdrop : (cs.flatMap String.utf8EncodeChar).drop k = first :: tail) : ¬ Truncated first tail := by
  intro h
  have hshort := h.short
  have hle := h.nonAscii
  induction cs generalizing k with
  | nil => simp at hdrop
  | cons ch cs ih =>
    rw [List.flatMap_cons] at hdrop
    by_cases hk : (String.utf8EncodeChar ch).length ≤ k
    · rw [List.drop_append, List.drop_eq_nil_of_le hk, List.nil_append] at hdrop
      exact ih hdrop
    · rw [List.drop_append_of_le_length (by omega)] at hdrop
      rcases utf8EncodeChar_cases ch with ⟨c, hch, -, hlt⟩ | ⟨f, bs, hch, -, -, hlead, -, -, hbs⟩
      · obtain rfl : k = 0 := by
          rw [hch, List.length_singleton] at hk
          omega
        rw [hch, List.drop_zero, List.cons_append, List.cons.injEq] at hdrop
        rw [hdrop.1] at hlt
        omega
      · rw [hch] at hdrop hk
        cases k with
        | zero =>
          rw [List.drop_zero, List.cons_append, List.cons.injEq] at hdrop
          obtain ⟨rfl, rfl⟩ := hdrop
          rw [List.length_append] at hshort
          omega
        | succ k =>
          rw [List.length_cons] at hk
          rw [List.drop_succ_cons, List.drop_eq_getElem_cons (by omega), List.cons_append,
            List.cons.injEq] at hdrop
          have hone := leadingOnes_of_isContinuation (hbs _ (List.getElem_mem (l := bs) (n := k) (by omega)))
          rw [hdrop.1] at hone
          omega

/-- The loop does not end on a text that its positions do not reach the end of. -/
theorem inflateLoop_ne_ok_of_le {action : InflateUTF8Action} (hle : 2 ^ 32 ≤ src.length) (fuel : ℕ)
    (s : Inflation) (hs : s.i < 2 ^ 32) (s' : Inflation) : inflateLoop action src fuel s ≠ .ok s' := by
  have hmod (n : ℕ) : n % 2 ^ 32 < 2 ^ 32 := Nat.mod_lt _ (by decide)
  induction fuel generalizing s with
  | zero =>
    rw [inflateLoop]
    rintro ⟨⟩
  | succ fuel ih =>
    rw [inflateLoop, List.getElem?_eq_getElem (by omega)]
    intro hrun
    obtain ⟨next, hstep, hrun⟩ := exists_of_bind_eq_ok hrun
    refine ih next ?_ hrun
    rw [Inflation.step] at hstep
    by_cases hmask : src[s.i].toNat &&& 0x80 = 0
    · rw [if_pos hmask] at hstep
      obtain ⟨dst, -, hstep⟩ := exists_of_bind_eq_ok hstep
      cases hstep
      exact hmod _
    · rw [if_neg hmask] at hstep
      obtain ⟨unit, -, hstep⟩ := exists_of_bind_eq_ok hstep
      cases unit with
      | units n units =>
        obtain ⟨dst, -, hstep⟩ := exists_of_bind_eq_ok hstep
        cases hstep
        exact hmod _
      | invalid report n2 =>
        dsimp only at hstep
        split_ifs at hstep
        obtain ⟨dst, -, hstep⟩ := exists_of_bind_eq_ok hstep
        cases hstep
        exact hmod _

/-- Encoding is exact where the decoder's positions reach the end of what is written. -/
theorem encodesTo_of_lt (h : ((scalars chars).flatMap String.utf8EncodeChar).length < 2 ^ 32) :
    EncodesTo chars (scalars chars) := by
  have hlength := getDeflatedUTF8StringLength_eq chars
  have hfills := deflateStringToUTF8Buffer_fits (Nat.le_of_eq hlength.symm)
  exact {
    replaced := Unicode.replaced_scalars chars
    length := hlength
    fills := hfills
    fails := by
      intro dstlen hlt
      rw [hlength] at hlt
      obtain ⟨front, ch, back, hcs, hle, hnext, heq⟩ := putAll_fails (scalars chars) ⟨[], dstlen⟩ hlt
      refine ⟨front, ch, back, hcs, hle, hnext, ?_⟩
      rw [deflateStringToUTF8Buffer, deflateLoop_eq, heq]
      dsimp only at hle ⊢
      rw [List.nil_append, Nat.sub_sub_self hle]
    allocates := by
      rw [twoByteCharsToNewUTF8CharsZ]
      dsimp only
      rw [hfills]
      dsimp only
      rw [List.take_length, hlength]
    decodes := by
      have hsafe : ¬ EndsRunningPast ((scalars chars).flatMap String.utf8EncodeChar) := by
        rintro ⟨i, first, tail, hdrop, hpast⟩
        exact not_truncated _ hdrop hpast.1
      exact (decodesExactly_of_not_endsRunningPast h hsafe).strict _ ⟨_, rfl, rfl⟩ }

/-- Where they do not, decoding what is written does not end. -/
theorem not_encodesTo_of_le (h : 2 ^ 32 ≤ ((scalars chars).flatMap String.utf8EncodeChar).length) :
    ¬ EncodesTo chars (scalars chars) := by
  intro hencodes
  obtain ⟨fuel, hresult⟩ := hencodes.decodes
  have hcall := hresult fun _ => 0
  rw [utf8CharsToNewTwoByteCharsZ, inflateUTF8StringHelper] at hcall
  obtain ⟨counted, hcounted, -⟩ := exists_of_bind_eq_ok hcall
  exact inflateLoop_ne_ok_of_le h fuel _ (by decide) counted hcounted

/-- The length of the UTF-8 of a letter that is repeated. -/
theorem length_replicate_letter (n : ℕ) :
    ((scalars (List.replicate n 0x61)).flatMap String.utf8EncodeChar).length = n := by
  induction n with
  | zero => rfl
  | succ n ih =>
    rw [List.replicate_succ, SpiderMonkey.Unicode.scalars.eq_def]
    dsimp only
    rw [if_neg (by decide), if_neg (by decide), List.flatMap_cons, List.length_append, ih]
    change 1 + n = n + 1
    omega

end SpiderMonkey.Vm.CharacterEncoding
