import Mathlib.Tactic.Common

/-!
# UTF-16 and UTF-8 of scalar values

A list of 16-bit units is the UTF-16 of some scalar values exactly if no unit in it is an unpaired
surrogate. The octets of a scalar value in UTF-8 are given by their digits in base 64.
-/

namespace SpiderMonkey.Unicode

/-- A unit that starts a surrogate pair. -/
def IsHigh (c : UInt16) : Prop := 0xD800 ≤ c.toNat ∧ c.toNat ≤ 0xDBFF

/-- A unit that ends a surrogate pair. -/
def IsLow (c : UInt16) : Prop := 0xDC00 ≤ c.toNat ∧ c.toNat ≤ 0xDFFF

/-- The units of a scalar value. -/
def utf16EncodeChar (ch : Char) : List UInt16 :=
  if ch.toNat < 0x10000 then [UInt16.ofNat ch.toNat]
  else
    [UInt16.ofNat (0xD800 + (ch.toNat - 0x10000) / 0x400),
      UInt16.ofNat (0xDC00 + (ch.toNat - 0x10000) % 0x400)]

/-- The unit at `i` is a surrogate without its other half. -/
def UnpairedAt (s : List UInt16) (i : ℕ) : Prop :=
  (∃ c, s[i]? = some c ∧ IsHigh c ∧ ¬ ∃ d, s[i + 1]? = some d ∧ IsLow d) ∨
    ∃ c, s[i]? = some c ∧ IsLow c ∧ ¬ ∃ j d, i = j + 1 ∧ s[j]? = some d ∧ IsHigh d

/-- A unit does not start and end pairs. -/
theorem IsHigh.not_isLow {c : UInt16} (h : IsHigh c) : ¬ IsLow c := by
  intro hlow
  have hhigh := h.2
  have hle := hlow.1
  omega

/-! ## Scalar values and their units -/

/-- The numbers of scalar values. -/
theorem toNat_cases (ch : Char) : ch.toNat < 0xD800 ∨ 0xDFFF < ch.toNat ∧ ch.toNat < 0x110000 :=
  ch.valid

/-- A number outside the surrogates is a scalar value. -/
theorem exists_char {n : ℕ} (h : n < 0xD800 ∨ 0xDFFF < n ∧ n < 0x110000) : ∃ ch : Char, ch.toNat = n :=
  ⟨Char.ofNatAux n h, rfl⟩

/-- A unit that is no surrogate is a scalar value. -/
theorem exists_char_of_unit {c : UInt16} (hhigh : ¬ IsHigh c) (hlow : ¬ IsLow c) :
    ∃ ch : Char, ch.toNat = c.toNat ∧ utf16EncodeChar ch = [c] := by
  have hlt := c.toNat_lt
  obtain ⟨ch, hch⟩ := exists_char (n := c.toNat) (by
    simp only [IsHigh, IsLow] at hhigh hlow
    omega)
  refine ⟨ch, hch, ?_⟩
  rw [utf16EncodeChar, hch, if_pos (by omega), UInt16.ofNat_toNat]

/-- A surrogate pair is a scalar value. -/
theorem exists_char_of_pair {c d : UInt16} (hc : IsHigh c) (hd : IsLow d) :
    ∃ ch : Char, ch.toNat = (c.toNat - 0xD800) * 0x400 + (d.toNat - 0xDC00) + 0x10000 ∧
      utf16EncodeChar ch = [c, d] := by
  obtain ⟨hc1, hc2⟩ := hc
  obtain ⟨hd1, hd2⟩ := hd
  obtain ⟨ch, hch⟩ :=
    exists_char (n := (c.toNat - 0xD800) * 0x400 + (d.toNat - 0xDC00) + 0x10000) (by omega)
  have hhigh : 0xD800 + (ch.toNat - 0x10000) / 0x400 = c.toNat := by omega
  have hlow : 0xDC00 + (ch.toNat - 0x10000) % 0x400 = d.toNat := by omega
  refine ⟨ch, hch, ?_⟩
  rw [utf16EncodeChar, if_neg (by omega), hhigh, hlow, UInt16.ofNat_toNat, UInt16.ofNat_toNat]

/-- The units of a scalar value are a unit that is no surrogate, or a surrogate pair. -/
theorem utf16EncodeChar_cases (ch : Char) :
    (∃ c, ¬ IsHigh c ∧ ¬ IsLow c ∧ ch.toNat = c.toNat ∧ utf16EncodeChar ch = [c]) ∨
      ∃ c d, IsHigh c ∧ IsLow d ∧
        ch.toNat = (c.toNat - 0xD800) * 0x400 + (d.toNat - 0xDC00) + 0x10000 ∧
        utf16EncodeChar ch = [c, d] := by
  have hcases := toNat_cases ch
  by_cases hlt : ch.toNat < 0x10000
  · left
    have hnat : (UInt16.ofNat ch.toNat).toNat = ch.toNat := UInt16.toNat_ofNat_of_lt hlt
    refine ⟨UInt16.ofNat ch.toNat, ?_, ?_, hnat.symm, by rw [utf16EncodeChar, if_pos hlt]⟩
    · simp only [IsHigh, hnat]
      omega
    · simp only [IsLow, hnat]
      omega
  · right
    have hhigh : (UInt16.ofNat (0xD800 + (ch.toNat - 0x10000) / 0x400)).toNat =
        0xD800 + (ch.toNat - 0x10000) / 0x400 := UInt16.toNat_ofNat_of_lt (by change _ < 65536; omega)
    have hlow : (UInt16.ofNat (0xDC00 + (ch.toNat - 0x10000) % 0x400)).toNat =
        0xDC00 + (ch.toNat - 0x10000) % 0x400 := UInt16.toNat_ofNat_of_lt (by change _ < 65536; omega)
    refine ⟨_, _, ?_, ?_, ?_, by rw [utf16EncodeChar, if_neg hlt]⟩
    · simp only [IsHigh, hhigh]
      omega
    · simp only [IsLow, hlow]
      omega
    · rw [hhigh, hlow]
      omega

/-! ## Unpaired surrogates -/

/-- Behind a unit that does not start a pair, the same surrogates are unpaired. -/
theorem unpairedAt_cons {c : UInt16} (hc : ¬ IsHigh c) (s : List UInt16) (i : ℕ) :
    UnpairedAt (c :: s) (i + 1) ↔ UnpairedAt s i := by
  have hbefore : ∀ j d, i + 1 = j + 1 ∧ (c :: s)[j]? = some d ∧ IsHigh d →
      ∃ j d, i = j + 1 ∧ s[j]? = some d ∧ IsHigh d := by
    rintro (_ | j) d ⟨hij, hd, hhigh⟩
    · rw [List.getElem?_cons_zero, Option.some.injEq] at hd
      exact absurd (hd ▸ hhigh) hc
    · exact ⟨j, d, by omega, hd, hhigh⟩
  have hafter : (∃ j d, i = j + 1 ∧ s[j]? = some d ∧ IsHigh d) →
      ∃ j d, i + 1 = j + 1 ∧ (c :: s)[j]? = some d ∧ IsHigh d := by
    rintro ⟨j, d, hij, hd, hhigh⟩
    exact ⟨j + 1, d, by omega, hd, hhigh⟩
  simp only [UnpairedAt, List.getElem?_cons_succ]
  exact or_congr Iff.rfl (exists_congr fun d => and_congr_right fun _ => and_congr_right fun _ =>
    not_congr ⟨fun ⟨j, d, h⟩ => hbefore j d h, hafter⟩)

/-- The first unit is unpaired if it ends a pair, or if it starts one that is not ended. -/
theorem unpairedAt_zero (c : UInt16) (s : List UInt16) :
    UnpairedAt (c :: s) 0 ↔ IsLow c ∨ IsHigh c ∧ ¬ ∃ d, s.head? = some d ∧ IsLow d := by
  simp only [UnpairedAt, List.getElem?_cons_zero, Option.some.injEq, List.head?_eq_getElem?]
  constructor
  · rintro (⟨d, rfl, hhigh, hnext⟩ | ⟨d, rfl, hlow, -⟩)
    · exact Or.inr ⟨hhigh, hnext⟩
    · exact Or.inl hlow
  · rintro (hlow | ⟨hhigh, hnext⟩)
    · exact Or.inr ⟨c, rfl, hlow, by rintro ⟨j, d, hj, -⟩; omega⟩
    · exact Or.inl ⟨c, rfl, hhigh, hnext⟩

/-- Behind a unit no unit is unpaired that was paired, except the end of its pair. -/
theorem UnpairedAt.cons {s : List UInt16} {i : ℕ} (c : UInt16) (h : UnpairedAt s (i + 1)) :
    UnpairedAt (c :: s) (i + 2) := by
  rcases h with h | ⟨d, hd, hlow, hbefore⟩
  · exact Or.inl h
  · refine Or.inr ⟨d, hd, hlow, ?_⟩
    rintro ⟨j, e, hj, he, hhigh⟩
    obtain rfl : j = i + 1 := by omega
    exact hbefore ⟨i, e, rfl, he, hhigh⟩

/-- In front of a unit no unit is unpaired that was paired, except the end of a pair. -/
theorem UnpairedAt.tail {c : UInt16} {s : List UInt16} {i : ℕ} (h : UnpairedAt (c :: s) (i + 2)) :
    UnpairedAt s (i + 1) := by
  rcases h with h | ⟨d, hd, hlow, hbefore⟩
  · exact Or.inl h
  · refine Or.inr ⟨d, hd, hlow, ?_⟩
    rintro ⟨j, e, hj, he, hhigh⟩
    exact hbefore ⟨j + 1, e, by omega, he, hhigh⟩

/-- A pair has no unpaired surrogates, and hides none behind it. -/
theorem unpairedAt_pair {c d : UInt16} (hc : IsHigh c) (hd : IsLow d) (s : List UInt16) :
    ¬ UnpairedAt (c :: d :: s) 0 ∧ ¬ UnpairedAt (c :: d :: s) 1 ∧
      ∀ i, UnpairedAt (c :: d :: s) (i + 2) ↔ UnpairedAt s i := by
  have hnot : ¬ IsHigh d := fun h => h.not_isLow hd
  refine ⟨?_, ?_, fun i => ?_⟩
  · rw [unpairedAt_zero]
    rintro (hlow | ⟨-, hnext⟩)
    · exact hc.not_isLow hlow
    · exact hnext ⟨d, rfl, hd⟩
  · rintro (⟨e, he, hhigh, -⟩ | ⟨e, -, -, hbefore⟩)
    · exact hnot (Option.some.inj he ▸ hhigh)
    · exact hbefore ⟨0, c, rfl, rfl, hc⟩
  · rw [← unpairedAt_cons hnot s i]
    exact ⟨UnpairedAt.tail, UnpairedAt.cons c⟩

/-- Units without unpaired surrogates are the UTF-16 of scalar values. -/
theorem exists_eq_flatMap (s : List UInt16) (h : ∀ i, ¬ UnpairedAt s i) :
    ∃ cs : List Char, s = cs.flatMap utf16EncodeChar := by
  induction hn : s.length using Nat.strongRecOn generalizing s with
  | ind n ih =>
    cases s with
    | nil => exact ⟨[], rfl⟩
    | cons c s =>
      have hfirst := mt (unpairedAt_zero c s).mpr (h 0)
      push Not at hfirst
      by_cases hhigh : IsHigh c
      · obtain ⟨d, hd, hlow⟩ := hfirst.2 hhigh
        cases s with
        | nil => simp at hd
        | cons e s =>
          obtain rfl : e = d := Option.some.inj hd
          have hnot : ¬ IsHigh e := fun hhigh => hhigh.not_isLow hlow
          have hrest : ∀ i, ¬ UnpairedAt s i := fun i hi =>
            h (i + 2) (((unpairedAt_cons hnot s i).mpr hi).cons c)
          obtain ⟨cs, hcs⟩ := ih s.length (by rw [← hn]; simp only [List.length_cons]; omega) s hrest rfl
          obtain ⟨ch, -, hch⟩ := exists_char_of_pair hhigh hlow
          exact ⟨ch :: cs, by rw [List.flatMap_cons, hch, ← hcs]; rfl⟩
      · have hrest : ∀ i, ¬ UnpairedAt s i := fun i hi =>
          h (i + 1) ((unpairedAt_cons hhigh s i).mpr hi)
        obtain ⟨cs, hcs⟩ := ih s.length (by rw [← hn]; simp) s hrest rfl
        obtain ⟨ch, -, hch⟩ := exists_char_of_unit hhigh hfirst.1
        exact ⟨ch :: cs, by rw [List.flatMap_cons, hch, ← hcs]; rfl⟩

/-- The UTF-16 of scalar values has no unpaired surrogates. -/
theorem not_unpairedAt_flatMap (cs : List Char) (i : ℕ) :
    ¬ UnpairedAt (cs.flatMap utf16EncodeChar) i := by
  induction cs generalizing i with
  | nil => simp [UnpairedAt]
  | cons ch cs ih =>
    rw [List.flatMap_cons]
    rcases utf16EncodeChar_cases ch with ⟨c, hhigh, hlow, -, hch⟩ | ⟨c, d, hc, hd, -, hch⟩
    · rw [hch]
      cases i with
      | zero =>
        intro h
        rcases (unpairedAt_zero c _).mp h with h | ⟨h, -⟩
        · exact hlow h
        · exact hhigh h
      | succ i => exact fun h => ih i ((unpairedAt_cons hhigh _ i).mp h)
    · obtain ⟨hfirst, hsecond, hbehind⟩ := unpairedAt_pair hc hd (cs.flatMap utf16EncodeChar)
      rw [hch]
      match i with
      | 0 => exact hfirst
      | 1 => exact hsecond
      | i + 2 => exact fun h => ih i ((hbehind i).mp h)

/-- The lists of units that are the UTF-16 of scalar values. -/
theorem paired_iff (s : List UInt16) :
    (∀ i, ¬ UnpairedAt s i) ↔ ∃ cs : List Char, s = cs.flatMap utf16EncodeChar := by
  constructor
  · exact exists_eq_flatMap s
  · rintro ⟨cs, rfl⟩ i
    exact not_unpairedAt_flatMap cs i

/-! ## Replacing unpaired surrogates -/

instance (c : UInt16) : Decidable (IsHigh c) := inferInstanceAs (Decidable (_ ∧ _))

instance (c : UInt16) : Decidable (IsLow c) := inferInstanceAs (Decidable (_ ∧ _))

/-- The character that stands for an unpaired surrogate. -/
def replacement : Char := Char.ofNat 0xFFFD

/-- The scalar values of units, with a replacement for each unpaired surrogate. -/
def scalars : List UInt16 → List Char
  | [] => []
  | c :: s =>
    if IsHigh c then
      match s with
      | [] => [replacement]
      | d :: s =>
        if IsLow d then
          Char.ofNat ((c.toNat - 0xD800) * 0x400 + (d.toNat - 0xDC00) + 0x10000) :: scalars s
        else replacement :: scalars (d :: s)
    else if IsLow c then replacement :: scalars s
    else Char.ofNat c.toNat :: scalars s

/-- Units have a replacement in the place of each unpaired surrogate, and else are the same. -/
def Replaced (s t : List UInt16) : Prop :=
  t.length = s.length ∧ ∀ i c, s[i]? = some c →
    (UnpairedAt s i → t[i]? = some 0xFFFD) ∧ (¬ UnpairedAt s i → t[i]? = some c)

/-- The number of a scalar value gives it. -/
theorem toNat_ofNat {n : ℕ} (h : n < 0xD800 ∨ 0xDFFF < n ∧ n < 0x110000) : (Char.ofNat n).toNat = n := by
  obtain ⟨ch, rfl⟩ := exists_char h
  rw [Char.ofNat_toNat]

/-- A unit that is no surrogate is the one of its scalar value. -/
theorem utf16EncodeChar_unit {c : UInt16} (hhigh : ¬ IsHigh c) (hlow : ¬ IsLow c) :
    utf16EncodeChar (Char.ofNat c.toNat) = [c] := by
  obtain ⟨ch, hch, hunits⟩ := exists_char_of_unit hhigh hlow
  rw [← hch, Char.ofNat_toNat, hunits]

/-- A surrogate pair is the units of its scalar value. -/
theorem utf16EncodeChar_pair {c d : UInt16} (hc : IsHigh c) (hd : IsLow d) :
    utf16EncodeChar (Char.ofNat ((c.toNat - 0xD800) * 0x400 + (d.toNat - 0xDC00) + 0x10000)) = [c, d] := by
  obtain ⟨ch, hch, hunits⟩ := exists_char_of_pair hc hd
  rw [← hch, Char.ofNat_toNat, hunits]

/-- The unit of the replacement. -/
theorem utf16EncodeChar_replacement : utf16EncodeChar replacement = [0xFFFD] := by
  decide

/-- Behind a unit that starts no pair that is ended, the same surrogates are unpaired. -/
theorem unpairedAt_cons_of_next {c : UInt16} {s : List UInt16}
    (hnext : IsHigh c → ¬ ∃ d, s.head? = some d ∧ IsLow d) (i : ℕ) :
    UnpairedAt (c :: s) (i + 1) ↔ UnpairedAt s i := by
  by_cases hhigh : IsHigh c
  · cases i with
    | zero =>
      have hfirst : ∀ d, s[0]? = some d → ¬ IsLow d := by
        intro d hd hlow
        exact hnext hhigh ⟨d, by rwa [List.head?_eq_getElem?], hlow⟩
      constructor
      · rintro (h | ⟨d, hd, hlow, -⟩)
        · exact Or.inl h
        · exact absurd hlow (hfirst d hd)
      · rintro (h | ⟨d, hd, hlow, -⟩)
        · exact Or.inl h
        · exact absurd hlow (hfirst d hd)
    | succ i => exact ⟨UnpairedAt.tail, UnpairedAt.cons c⟩
  · exact unpairedAt_cons hhigh s i

/-- One more unit, which starts no pair that is ended. -/
theorem Replaced.cons {c d : UInt16} {s t : List UInt16} (h : Replaced s t)
    (hnext : IsHigh c → ¬ ∃ d, s.head? = some d ∧ IsLow d)
    (hd : (UnpairedAt (c :: s) 0 → d = 0xFFFD) ∧ (¬ UnpairedAt (c :: s) 0 → d = c)) :
    Replaced (c :: s) (d :: t) := by
  refine ⟨by rw [List.length_cons, List.length_cons, h.1], ?_⟩
  rintro (_ | i) e he
  · obtain rfl := Option.some.inj he
    simpa using hd
  · rw [unpairedAt_cons_of_next hnext, List.getElem?_cons_succ]
    exact h.2 i e he

/-- One more pair. -/
theorem Replaced.pair {c d : UInt16} {s t : List UInt16} (h : Replaced s t) (hc : IsHigh c)
    (hd : IsLow d) : Replaced (c :: d :: s) (c :: d :: t) := by
  obtain ⟨hfirst, hsecond, hbehind⟩ := unpairedAt_pair hc hd s
  refine ⟨by simp only [List.length_cons, h.1], ?_⟩
  rintro (_ | _ | i) e he
  · exact ⟨fun hunpaired => absurd hunpaired hfirst, fun _ => he⟩
  · exact ⟨fun hunpaired => absurd hunpaired hsecond, fun _ => he⟩
  · rw [hbehind]
    exact h.2 i e he

/-- The UTF-16 of the scalar values is the units with a replacement for each unpaired surrogate. -/
theorem replaced_scalars (s : List UInt16) : Replaced s ((scalars s).flatMap utf16EncodeChar) := by
  fun_induction scalars s with
  | case1 => exact ⟨rfl, by simp⟩
  | case2 c hhigh =>
    rw [List.flatMap_singleton, utf16EncodeChar_replacement]
    refine Replaced.cons (s := []) (t := []) ⟨rfl, by simp⟩ (fun _ => by simp) ⟨fun _ => rfl, fun h => ?_⟩
    exact absurd ((unpairedAt_zero c []).mpr (Or.inr ⟨hhigh, by simp⟩)) h
  | case3 c hhigh d s hlow ih =>
    rw [List.flatMap_cons, utf16EncodeChar_pair hhigh hlow]
    exact ih.pair hhigh hlow
  | case4 c hhigh d s hlow ih =>
    have hnext : ¬ ∃ e, (d :: s).head? = some e ∧ IsLow e := by
      rintro ⟨e, he, hlow'⟩
      exact hlow (Option.some.inj he ▸ hlow')
    rw [List.flatMap_cons, utf16EncodeChar_replacement]
    refine ih.cons (fun _ => hnext) ⟨fun _ => rfl, fun h => ?_⟩
    exact absurd ((unpairedAt_zero c _).mpr (Or.inr ⟨hhigh, hnext⟩)) h
  | case5 c s hhigh hlow ih =>
    rw [List.flatMap_cons, utf16EncodeChar_replacement]
    refine ih.cons (fun h => absurd h hhigh) ⟨fun _ => rfl, fun h => ?_⟩
    exact absurd ((unpairedAt_zero c s).mpr (Or.inl hlow)) h
  | case6 c s hhigh hlow ih =>
    rw [List.flatMap_cons, utf16EncodeChar_unit hhigh hlow]
    refine ih.cons (fun h => absurd h hhigh) ⟨fun h => ?_, fun _ => rfl⟩
    rcases (unpairedAt_zero c s).mp h with h | ⟨h, -⟩
    · exact absurd h hlow
    · exact absurd h hhigh

/-! ## The octets of a scalar value -/

/-- One octet. -/
theorem utf8EncodeChar_one {ch : Char} (h : ch.toNat < 0x80) :
    String.utf8EncodeChar ch = [UInt8.ofNat ch.toNat] := by
  simp only [String.utf8EncodeChar, Char.toNat_val]
  rw [if_pos (by omega)]

/-- Two octets. -/
theorem utf8EncodeChar_two {ch : Char} (hle : 0x80 ≤ ch.toNat) (h : ch.toNat < 0x800) :
    String.utf8EncodeChar ch =
      [UInt8.ofNat (0xC0 + ch.toNat / 0x40), UInt8.ofNat (0x80 + ch.toNat % 0x40)] := by
  simp only [String.utf8EncodeChar, Char.toNat_val]
  rw [if_neg (by omega), if_pos (by omega), Nat.mod_eq_of_lt (by omega), Nat.add_comm,
    Nat.add_comm _ 0x80]

/-- Three octets. -/
theorem utf8EncodeChar_three {ch : Char} (hle : 0x800 ≤ ch.toNat) (h : ch.toNat < 0x10000) :
    String.utf8EncodeChar ch =
      [UInt8.ofNat (0xE0 + ch.toNat / 0x1000), UInt8.ofNat (0x80 + ch.toNat / 0x40 % 0x40),
        UInt8.ofNat (0x80 + ch.toNat % 0x40)] := by
  simp only [String.utf8EncodeChar, Char.toNat_val]
  rw [if_neg (by omega), if_neg (by omega), if_pos (by omega),
    Nat.mod_eq_of_lt (show ch.toNat / 4096 < 16 by omega), Nat.add_comm, Nat.add_comm _ 0x80,
    Nat.add_comm _ 0x80]

/-- Four octets. -/
theorem utf8EncodeChar_four {ch : Char} (hle : 0x10000 ≤ ch.toNat) :
    String.utf8EncodeChar ch =
      [UInt8.ofNat (0xF0 + ch.toNat / 0x40000), UInt8.ofNat (0x80 + ch.toNat / 0x1000 % 0x40),
        UInt8.ofNat (0x80 + ch.toNat / 0x40 % 0x40), UInt8.ofNat (0x80 + ch.toNat % 0x40)] := by
  have hcases := toNat_cases ch
  simp only [String.utf8EncodeChar, Char.toNat_val]
  rw [if_neg (by omega), if_neg (by omega), if_neg (by omega),
    Nat.mod_eq_of_lt (show ch.toNat / 262144 < 8 by omega), Nat.add_comm, Nat.add_comm _ 0x80,
    Nat.add_comm _ 0x80, Nat.add_comm _ 0x80]

/-- The number of octets and the range of the scalar value. -/
theorem length_utf8EncodeChar_cases (ch : Char) :
    ch.toNat < 0x80 ∧ (String.utf8EncodeChar ch).length = 1 ∨
      0x80 ≤ ch.toNat ∧ ch.toNat < 0x800 ∧ (String.utf8EncodeChar ch).length = 2 ∨
      0x800 ≤ ch.toNat ∧ ch.toNat < 0x10000 ∧ (String.utf8EncodeChar ch).length = 3 ∨
      0x10000 ≤ ch.toNat ∧ (String.utf8EncodeChar ch).length = 4 := by
  by_cases h1 : ch.toNat < 0x80
  · exact Or.inl ⟨h1, by rw [utf8EncodeChar_one h1]; rfl⟩
  right
  by_cases h2 : ch.toNat < 0x800
  · exact Or.inl ⟨by omega, h2, by rw [utf8EncodeChar_two (by omega) h2]; rfl⟩
  right
  by_cases h3 : ch.toNat < 0x10000
  · exact Or.inl ⟨by omega, h3, by rw [utf8EncodeChar_three (by omega) h3]; rfl⟩
  · exact Or.inr ⟨by omega, by rw [utf8EncodeChar_four (by omega)]; rfl⟩

end SpiderMonkey.Unicode
