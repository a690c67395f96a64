import SpiderMonkey.Vm.Uri

/-!
# The octets the URI functions write and accept

`js_OneUcs4ToUtf8Char` writes the UTF-8 of a scalar value. The count of leading ones and
`Utf8ToOneUcs4Char` together accept exactly the UTF-8 of scalar values, and give the value.
-/

namespace SpiderMonkey.Vm.Uri

open Unicode

/-! ## Bits -/

/-- The low six bits with the mark of a continuation octet. -/
theorem and_or_continuation (x : ℕ) : (x &&& 0x3F) ||| 0x80 = 0x80 + x % 0x40 := by
  have hmod : x &&& 0x3F = x % 0x40 := Nat.and_two_pow_sub_one_eq_mod x 6
  have hlt : x % 0x40 < 2 ^ 7 := (Nat.mod_lt x (by decide)).trans (by decide)
  calc (x &&& 0x3F) ||| 0x80 = 2 ^ 7 * 1 ||| x % 0x40 := by rw [hmod, Nat.or_comm]
    _ = 2 ^ 7 * 1 + x % 0x40 := (Nat.two_pow_add_eq_or_of_lt hlt 1).symm

/-- Six more bits. -/
theorem shiftLeft_or_and (v x : ℕ) : (v <<< 6) ||| (x &&& 0x3F) = v * 0x40 + x % 0x40 := by
  have hmod : x &&& 0x3F = x % 0x40 := Nat.and_two_pow_sub_one_eq_mod x 6
  have hlt : x % 0x40 < 2 ^ 6 := Nat.mod_lt x (by decide)
  rw [hmod, Nat.shiftLeft_eq, Nat.mul_comm, ← Nat.two_pow_add_eq_or_of_lt hlt, Nat.mul_comm]

/-- A bit of an octet. -/
theorem and_bit_ne_zero : ∀ B < 256, ∀ n < 6, B &&& (0x80 >>> n) ≠ 0 ↔ B / 2 ^ (7 - n) % 2 = 1 := by
  decide +kernel

/-- The octets that the mask of a continuation octet accepts. -/
theorem and_continuation_eq : ∀ B < 256, B &&& 0xC0 = 0x80 ↔ 0x80 ≤ B ∧ B < 0xC0 := by
  decide +kernel

/-- The octets without the highest bit. -/
theorem and_high_eq_zero : ∀ B < 256, B &&& 0x80 = 0 ↔ B < 0x80 := by
  decide +kernel

/-! ## Writing -/

/-- The loop that counts octets stops at zero. -/
theorem utf8LengthLoop_zero (utf8Length : ℕ) : utf8LengthLoop 0 utf8Length = utf8Length := by
  rw [utf8LengthLoop, if_pos rfl]

/-- The loop that counts octets takes five bits away. -/
theorem utf8LengthLoop_of_pos {a : ℕ} (h : 0 < a) (utf8Length : ℕ) :
    utf8LengthLoop a utf8Length = utf8LengthLoop (a / 0x20) (utf8Length + 1) := by
  rw [utf8LengthLoop, if_neg (by omega), Nat.shiftRight_eq_div_pow]

/-- `js_OneUcs4ToUtf8Char` writes the UTF-8 of a scalar value. -/
theorem oneUcs4ToUtf8Char_toNat (ch : Char) :
    oneUcs4ToUtf8Char ch.toNat = String.utf8EncodeChar ch := by
  have hcases := toNat_cases ch
  have h6 : ∀ x, x >>> 6 = x / 0x40 := fun x => Nat.shiftRight_eq_div_pow x 6
  have h11 : ch.toNat >>> 11 = ch.toNat / 0x800 := Nat.shiftRight_eq_div_pow _ 11
  rw [oneUcs4ToUtf8Char]
  by_cases h1 : ch.toNat < 0x80
  · rw [if_pos h1, utf8EncodeChar_one h1]
  rw [if_neg h1]
  by_cases h2 : ch.toNat < 0x800
  · have hlength : utf8LengthLoop (ch.toNat >>> 11) 2 = 2 := by
      rw [h11, Nat.div_eq_of_lt h2, utf8LengthLoop_zero]
    simp only [hlength, utf8BufferLoop, and_or_continuation, h6]
    exact (utf8EncodeChar_two (by omega) h2).symm
  by_cases h3 : ch.toNat < 0x10000
  · have hlength : utf8LengthLoop (ch.toNat >>> 11) 2 = 3 := by
      rw [h11, utf8LengthLoop_of_pos (by omega), Nat.div_eq_of_lt (by omega), utf8LengthLoop_zero]
    simp only [hlength, utf8BufferLoop, and_or_continuation, h6, Nat.div_div_eq_div_mul]
    exact (utf8EncodeChar_three (by omega) h3).symm
  · have hlength : utf8LengthLoop (ch.toNat >>> 11) 2 = 4 := by
      rw [h11, utf8LengthLoop_of_pos (by omega), utf8LengthLoop_of_pos (by omega),
        Nat.div_eq_of_lt (by omega), utf8LengthLoop_zero]
    simp only [hlength, utf8BufferLoop, and_or_continuation, h6, Nat.div_div_eq_div_mul]
    exact (utf8EncodeChar_four (by omega)).symm

/-! ## Leading ones -/

/-- The count goes on behind a one. -/
theorem leadingOnes_of_one {B n : ℕ} (hB : B < 256) (hn : n < 6) (h : B / 2 ^ (7 - n) % 2 = 1) :
    leadingOnes B n = leadingOnes B (n + 1) := by
  rw [leadingOnes, if_pos ((and_bit_ne_zero B hB n hn).mpr h)]

/-- The count ends at a zero. -/
theorem leadingOnes_of_zero {B n : ℕ} (hB : B < 256) (hn : n < 6) (h : B / 2 ^ (7 - n) % 2 = 0) :
    leadingOnes B n = n := by
  have hbit := mt (and_bit_ne_zero B hB n hn).mp (by omega)
  rw [leadingOnes, if_neg hbit]

/-- The count does not go back. -/
theorem le_leadingOnes (B n : ℕ) : n ≤ leadingOnes B n := by
  fun_induction leadingOnes B n with
  | case1 n h ih => omega
  | case2 n h => exact le_rfl

/-- The octets that start with a one, by the number of their leading ones. -/
theorem leadingOnes_cases {B : ℕ} (hB : B < 256) (h : 0x80 ≤ B) :
    leadingOnes B 1 = 1 ∧ B < 0xC0 ∨ leadingOnes B 1 = 2 ∧ 0xC0 ≤ B ∧ B < 0xE0 ∨
      leadingOnes B 1 = 3 ∧ 0xE0 ≤ B ∧ B < 0xF0 ∨ leadingOnes B 1 = 4 ∧ 0xF0 ≤ B ∧ B < 0xF8 ∨
      4 < leadingOnes B 1 ∧ 0xF8 ≤ B := by
  by_cases h1 : B < 0xC0
  · have hzero := leadingOnes_of_zero (n := 1) hB (by decide) (by omega)
    exact Or.inl ⟨hzero, h1⟩
  have hone := leadingOnes_of_one (n := 1) hB (by decide) (by omega)
  by_cases h2 : B < 0xE0
  · have hzero := leadingOnes_of_zero (n := 2) hB (by decide) (by omega)
    exact Or.inr (Or.inl ⟨hone.trans hzero, by omega, h2⟩)
  replace hone := hone.trans (leadingOnes_of_one (n := 2) hB (by decide) (by omega))
  by_cases h3 : B < 0xF0
  · have hzero := leadingOnes_of_zero (n := 3) hB (by decide) (by omega)
    exact Or.inr (Or.inr (Or.inl ⟨hone.trans hzero, by omega, h3⟩))
  replace hone := hone.trans (leadingOnes_of_one (n := 3) hB (by decide) (by omega))
  by_cases h4 : B < 0xF8
  · have hzero := leadingOnes_of_zero (n := 4) hB (by decide) (by omega)
    exact Or.inr (Or.inr (Or.inr (Or.inl ⟨hone.trans hzero, by omega, h4⟩)))
  replace hone := hone.trans (leadingOnes_of_one (n := 4) hB (by decide) (by omega))
  have hle := le_leadingOnes B (4 + 1)
  exact Or.inr (Or.inr (Or.inr (Or.inr ⟨by omega, by omega⟩)))

/-! ## Reading -/

/-- An octet behind the first one. -/
def IsContinuation (b : UInt8) : Prop := 0x80 ≤ b.toNat ∧ b.toNat < 0xC0

/-- An octet is the one with this number. -/
theorem ofNat_eq_iff {x : ℕ} {b : UInt8} (h : x < 256) : UInt8.ofNat x = b ↔ x = b.toNat := by
  rw [← UInt8.toNat_inj, UInt8.toNat_ofNat_of_lt' h]

/-- The number the payload bits of octets stand for. -/
def payload (first : UInt8) (rest : List UInt8) : ℕ :=
  rest.foldl (fun v octet => v * 0x40 + octet.toNat % 0x40) (first.toNat % 2 ^ (6 - rest.length))

/-- `Utf8ToOneUcs4Char` gives a scalar value if that is the payload and needs all the octets. -/
theorem utf8ToOneUcs4Char_eq_iff {first : UInt8} {rest : List UInt8} (hrest : rest ≠ []) (ch : Char) :
    utf8ToOneUcs4Char first rest = ch.toNat ↔
      payload first rest = ch.toNat ∧ minucs4Table.getD (rest.length - 1) 0 ≤ ch.toNat := by
  have hcases := toNat_cases ch
  have hlength : ¬ rest.length + 1 = 1 := fun h => hrest (List.length_eq_zero_iff.mp (by omega))
  have hmask : first.toNat &&& ((1 <<< (7 - (rest.length + 1))) - 1) =
      first.toNat % 2 ^ (6 - rest.length) := by
    rw [Nat.one_shiftLeft, Nat.and_two_pow_sub_one_eq_mod, Nat.add_comm, Nat.sub_add_eq]
  have hvalue : utf8ToOneUcs4Char first rest =
      if payload first rest < minucs4Table.getD (rest.length - 1) 0 ||
        (payload first rest ≥ 0xD800 && payload first rest ≤ 0xDFFF) then invalidUtf8
      else payload first rest := by
    simp only [utf8ToOneUcs4Char, if_neg hlength, hmask, shiftLeft_or_and]
    rfl
  rw [hvalue]
  split_ifs with hbad
  · simp only [Bool.or_eq_true, Bool.and_eq_true, decide_eq_true_eq] at hbad
    simp only [invalidUtf8]
    omega
  · simp only [Bool.or_eq_true, Bool.and_eq_true, decide_eq_true_eq] at hbad
    omega

/-- Octets with the marks of a sequence are the UTF-8 of the scalar value they are read as. -/
theorem utf8EncodeChar_eq_iff {first : UInt8} {rest : List UInt8} (hfirst : 0x80 ≤ first.toNat)
    (hlead : leadingOnes first.toNat 1 = rest.length + 1) (hpos : rest ≠ []) (hle : rest.length ≤ 3)
    (hrest : ∀ b ∈ rest, IsContinuation b) (ch : Char) :
    utf8ToOneUcs4Char first rest = ch.toNat ↔ String.utf8EncodeChar ch = first :: rest := by
  have hcases := toNat_cases ch
  have hlength := length_utf8EncodeChar_cases ch
  have hones := leadingOnes_cases first.toNat_lt hfirst
  have hlt := first.toNat_lt
  rw [utf8ToOneUcs4Char_eq_iff hpos]
  -- One case for each number of octets; the first octet then lies in a known range.
  match rest with
  | [b] =>
    obtain ⟨hb, hb'⟩ := hrest b (by simp)
    simp only [List.length_cons, List.length_nil] at hlead
    simp only [payload, List.foldl_cons, List.foldl_nil, List.length_cons, List.length_nil,
      minucs4Table, List.getD_cons_zero, Nat.reduceAdd, Nat.reduceSub, Nat.reducePow]
    constructor
    · rintro ⟨hpayload, hmin⟩
      rw [utf8EncodeChar_two hmin (by omega), List.cons.injEq, List.cons.injEq,
        ofNat_eq_iff (by omega), ofNat_eq_iff (by omega)]
      exact ⟨by omega, by omega, rfl⟩
    · intro h
      rw [h, List.length_cons, List.length_cons, List.length_nil] at hlength
      rw [utf8EncodeChar_two (by omega) (by omega), List.cons.injEq, List.cons.injEq,
        ofNat_eq_iff (by omega), ofNat_eq_iff (by omega)] at h
      omega
  | [b, c] =>
    obtain ⟨hb, hb'⟩ := hrest b (by simp)
    obtain ⟨hc, hc'⟩ := hrest c (by simp)
    simp only [List.length_cons, List.length_nil] at hlead
    simp only [payload, List.foldl_cons, List.foldl_nil, List.length_cons, List.length_nil,
      minucs4Table, List.getD_cons_zero, List.getD_cons_succ, Nat.reduceAdd, Nat.reduceSub,
      Nat.reducePow]
    constructor
    · rintro ⟨hpayload, hmin⟩
      rw [utf8EncodeChar_three hmin (by omega), List.cons.injEq, List.cons.injEq, List.cons.injEq,
        ofNat_eq_iff (by omega), ofNat_eq_iff (by omega), ofNat_eq_iff (by omega)]
      exact ⟨by omega, by omega, by omega, rfl⟩
    · intro h
      rw [h, List.length_cons, List.length_cons, List.length_cons, List.length_nil] at hlength
      rw [utf8EncodeChar_three (by omega) (by omega), List.cons.injEq, List.cons.injEq,
        List.cons.injEq, ofNat_eq_iff (by omega), ofNat_eq_iff (by omega),
        ofNat_eq_iff (by omega)] at h
      omega
  | [b, c, d] =>
    obtain ⟨hb, hb'⟩ := hrest b (by simp)
    obtain ⟨hc, hc'⟩ := hrest c (by simp)
    obtain ⟨hd, hd'⟩ := hrest d (by simp)
    simp only [List.length_cons, List.length_nil] at hlead
    simp only [payload, List.foldl_cons, List.foldl_nil, List.length_cons, List.length_nil,
      minucs4Table, List.getD_cons_zero, List.getD_cons_succ, Nat.reduceAdd, Nat.reduceSub,
      Nat.reducePow]
    constructor
    · rintro ⟨hpayload, hmin⟩
      rw [utf8EncodeChar_four hmin, List.cons.injEq, List.cons.injEq, List.cons.injEq,
        List.cons.injEq, ofNat_eq_iff (by omega), ofNat_eq_iff (by omega), ofNat_eq_iff (by omega),
        ofNat_eq_iff (by omega)]
      exact ⟨by omega, by omega, by omega, by omega, rfl⟩
    · intro h
      rw [h, List.length_cons, List.length_cons, List.length_cons, List.length_cons,
        List.length_nil] at hlength
      rw [utf8EncodeChar_four (by omega), List.cons.injEq, List.cons.injEq, List.cons.injEq,
        List.cons.injEq, ofNat_eq_iff (by omega), ofNat_eq_iff (by omega), ofNat_eq_iff (by omega),
        ofNat_eq_iff (by omega)] at h
      omega
  | _ :: _ :: _ :: _ :: _ =>
    simp only [List.length_cons] at hle
    omega

/-- The octets of a scalar value above ASCII carry the marks of a sequence. -/
theorem marks_of_utf8EncodeChar {ch : Char} {first : UInt8} {rest : List UInt8}
    (hch : 0x80 ≤ ch.toNat) (h : String.utf8EncodeChar ch = first :: rest) :
    0x80 ≤ first.toNat ∧ leadingOnes first.toNat 1 = rest.length + 1 ∧ rest ≠ [] ∧ rest.length ≤ 3 ∧
      ∀ b ∈ rest, IsContinuation b := by
  have hcases := toNat_cases ch
  have hcontinuation : ∀ x, IsContinuation (UInt8.ofNat (0x80 + x % 0x40)) := by
    intro x
    rw [IsContinuation, UInt8.toNat_ofNat_of_lt' (by change _ < 256; omega)]
    omega
  have hones := fun hfirst => leadingOnes_cases first.toNat_lt hfirst
  rcases length_utf8EncodeChar_cases ch with ⟨h1, -⟩ | ⟨-, h2, -⟩ | ⟨h2, h3, -⟩ | ⟨h3, -⟩
  · omega
  · rw [utf8EncodeChar_two hch h2, List.cons.injEq, ofNat_eq_iff (by omega)] at h
    obtain ⟨hfirst, rfl⟩ := h
    refine ⟨by omega, ?_, by simp, by simp, ?_⟩
    · simp only [List.length_cons, List.length_nil]
      omega
    · exact List.forall_mem_cons.mpr ⟨hcontinuation _, List.forall_mem_nil _⟩
  · rw [utf8EncodeChar_three h2 h3, List.cons.injEq, ofNat_eq_iff (by omega)] at h
    obtain ⟨hfirst, rfl⟩ := h
    refine ⟨by omega, ?_, by simp, by simp, ?_⟩
    · simp only [List.length_cons, List.length_nil]
      omega
    · rw [List.forall_mem_cons, List.forall_mem_cons]
      exact ⟨hcontinuation _, hcontinuation _, List.forall_mem_nil _⟩
  · rw [utf8EncodeChar_four h3, List.cons.injEq, ofNat_eq_iff (by omega)] at h
    obtain ⟨hfirst, rfl⟩ := h
    refine ⟨by omega, ?_, by simp, by simp, ?_⟩
    · simp only [List.length_cons, List.length_nil]
      omega
    · rw [List.forall_mem_cons, List.forall_mem_cons, List.forall_mem_cons]
      exact ⟨hcontinuation _, hcontinuation _, hcontinuation _, List.forall_mem_nil _⟩

end SpiderMonkey.Vm.Uri
