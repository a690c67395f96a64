import SpiderMonkey.Vm.CharacterEncodingSequences

/-!
# What decoding UTF-8 gives

The pass that counts and the one that copies take the same steps, one for each character and one for each
error. The call that reports errors succeeds exactly on the UTF-8 of scalar values, and the other one
always succeeds, unless the text ends in a sequence that makes both read past it.
-/

namespace SpiderMonkey.Vm.CharacterEncoding

open Json (Chars)
open Unicode (utf16EncodeChar utf8EncodeChar_one length_utf8EncodeChar_cases)
open Uri

variable {action : InflateUTF8Action} {src rest tail bs : List UInt8} {first : UInt8}
  {done room units out : Chars} {i k : ℕ} {ascii : Bool}

/-! ## The specification -/

/-- A text is the UTF-8 of scalar values, and units are their UTF-16. -/
def Strict (bs : List UInt8) (out : Chars) : Prop :=
  ∃ cs : List Char, bs = cs.flatMap String.utf8EncodeChar ∧ out = cs.flatMap utf16EncodeChar

/-- Units are the characters in a text, with one replacement for the bytes of each error. No character
starts at a byte of an error. -/
inductive Lossy : List UInt8 → Chars → Prop where
  | nil : Lossy [] []
  | char (ch : Char) {bs : List UInt8} {out : Chars} :
      Lossy bs out → Lossy (String.utf8EncodeChar ch ++ bs) (utf16EncodeChar ch ++ out)
  | error {bad bs : List UInt8} {out : Chars} : bad ≠ [] →
      (∀ k < bad.length, ¬ StartsChar ((bad ++ bs).drop k)) → Lossy bs out →
      Lossy (bad ++ bs) (0xFFFD :: out)

/-- What decoding does on a text. The memory that is allocated may hold any units at first. -/
structure DecodesExactly (src : List UInt8) : Prop where
  /-- The call that reports errors gives the UTF-16 of a text that is the UTF-8 of scalar values. -/
  strict : ∀ out, Strict src out → ∃ fuel, ∀ memory,
    utf8CharsToNewTwoByteCharsZ src memory fuel = .ok (out ++ [0], out.length)
  /-- It reports an error for any other text. -/
  rejects : (¬ ∃ out, Strict src out) → ∃ fuel report, ∀ memory,
    utf8CharsToNewTwoByteCharsZ src memory fuel = .error (.reported report)
  /-- The other one replaces what is wrong, and decodes what comes before it the same way. -/
  lossy : ∃ fuel out, Lossy src out ∧
    (∀ bs rest front, src = bs ++ rest → Strict bs front → front <+: out) ∧
    ∀ memory, lossyUTF8CharsToNewTwoByteCharsZ src memory fuel = .ok (out ++ [0], out.length)
  /-- The two passes count the same number of units. -/
  counts : ∀ action fuel dst counted copied,
    inflateUTF8StringToBuffer action src [] fuel = .ok counted → action ≠ .copy →
    inflateUTF8StringToBuffer .copy src dst fuel = .ok copied → counted.j = copied.j

/-- The text ends in a sequence that makes the decoder read past the end. -/
def EndsRunningPast (src : List UInt8) : Prop :=
  ∃ i first tail, src.drop i = first :: tail ∧ RunsPast i first tail

/-! ## Characters -/

/-- The bytes of a character are as many as its units, or more. -/
theorem length_utf16EncodeChar_le (ch : Char) :
    (utf16EncodeChar ch).length ≤ (String.utf8EncodeChar ch).length := by
  have hlength := length_utf8EncodeChar_cases ch
  rw [utf16EncodeChar]
  split_ifs with h
  · rw [List.length_singleton]
    omega
  · rw [List.length_cons, List.length_singleton]
    omega

/-- A character of ASCII. -/
theorem ascii_of_toNat_lt {b : UInt8} (h : b.toNat < 0x80) :
    ∃ ch : Char, String.utf8EncodeChar ch = [b] ∧ utf16EncodeChar ch = [UInt16.ofNat b.toNat] ∧
      ch.toNat = b.toNat := by
  obtain ⟨ch, hch⟩ := Unicode.exists_char (n := b.toNat) (by omega)
  refine ⟨ch, ?_, ?_, hch⟩
  · rw [utf8EncodeChar_one (by omega), hch, UInt8.ofNat_toNat]
  · rw [utf16EncodeChar, if_pos (by omega), hch]

/-- A byte of ASCII starts a character. -/
theorem startsChar_of_ascii {b : UInt8} (h : b.toNat < 0x80) : StartsChar (b :: tail) := by
  obtain ⟨ch, hch, -⟩ := ascii_of_toNat_lt h
  exact ⟨ch, tail, by rw [hch, List.singleton_append]⟩

/-- The bytes of a character are in ASCII if it is. -/
theorem all_ascii (ch : Char) :
    (String.utf8EncodeChar ch).all (·.toNat < 0x80) = decide (ch.toNat < 0x80) := by
  rcases utf8EncodeChar_cases ch with ⟨b, hch, hnat, hlt⟩ | ⟨f, cs, hch, hle, hf, -⟩
  · rw [hch, List.all_cons, List.all_nil, Bool.and_true, hnat]
  · rw [hch, List.all_cons, decide_eq_false (by omega), decide_eq_false (by omega), Bool.false_and]

/-- A text that is the UTF-8 of scalar values ends, or starts with one of them. -/
theorem Strict.cases (h : Strict bs out) : bs = [] ∧ out = [] ∨
    ∃ ch rest out', bs = String.utf8EncodeChar ch ++ rest ∧ out = utf16EncodeChar ch ++ out' ∧
      Strict rest out' := by
  obtain ⟨cs, rfl, rfl⟩ := h
  cases cs with
  | nil => exact Or.inl ⟨rfl, rfl⟩
  | cons ch cs => exact Or.inr ⟨ch, _, _, List.flatMap_cons, List.flatMap_cons, cs, rfl, rfl⟩

/-- One more character. -/
theorem Strict.char (ch : Char) (h : Strict bs out) :
    Strict (String.utf8EncodeChar ch ++ bs) (utf16EncodeChar ch ++ out) := by
  obtain ⟨cs, rfl, rfl⟩ := h
  exact ⟨ch :: cs, List.flatMap_cons.symm, List.flatMap_cons.symm⟩

/-- Behind the first character there are the others. -/
theorem Strict.of_char {ch : Char} (h : Strict (String.utf8EncodeChar ch ++ bs) out) :
    ∃ out', out = utf16EncodeChar ch ++ out' ∧ Strict bs out' := by
  rcases h.cases with ⟨hnil, -⟩ | ⟨ch', rest, out', hbs, rfl, hrest⟩
  · exact absurd (List.append_eq_nil_iff.mp hnil).1 String.utf8EncodeChar_ne_nil
  · obtain ⟨rfl, rfl⟩ := utf8EncodeChar_prefix hbs
    exact ⟨out', rfl, hrest⟩

/-- A text is the UTF-8 of one list of scalar values. -/
theorem Strict.unique {out' : Chars} (h : Strict bs out) (h' : Strict bs out') : out = out' := by
  obtain ⟨cs, rfl, rfl⟩ := h
  induction cs generalizing out' with
  | nil =>
    rcases h'.cases with ⟨-, rfl⟩ | ⟨ch, rest, out', hbs, -⟩
    · rfl
    · exact absurd (List.append_eq_nil_iff.mp hbs.symm).1 String.utf8EncodeChar_ne_nil
  | cons ch cs ih =>
    rw [List.flatMap_cons] at h' ⊢
    obtain ⟨out'', rfl, hrest⟩ := h'.of_char
    rw [ih hrest]

/-- The characters in front are decoded to the units in front. -/
theorem Lossy.prefix {bs rest : List UInt8} {front : Chars} (hstrict : Strict bs front)
    (h : Lossy (bs ++ rest) out) : front <+: out := by
  obtain ⟨cs, rfl, rfl⟩ := hstrict
  induction cs generalizing out with
  | nil => exact List.nil_prefix
  | cons ch cs ih =>
    rw [List.flatMap_cons, List.append_assoc] at h
    rw [List.flatMap_cons]
    generalize htext : String.utf8EncodeChar ch ++ _ = text at h
    cases h with
    | nil => exact absurd (List.append_eq_nil_iff.mp htext).1 String.utf8EncodeChar_ne_nil
    | char ch' h =>
      obtain ⟨rfl, rfl⟩ := utf8EncodeChar_prefix htext
      exact (List.prefix_append_right_inj _).mpr (ih h)
    | error hne hbad h =>
      exact absurd ⟨ch, _, htext.symm⟩ (hbad 0 (List.length_pos_iff.mpr hne))

/-- Text in ASCII is decoded byte by byte. -/
theorem Lossy.eq_map (h : Lossy bs out) (hascii : bs.all (·.toNat < 0x80) = true) :
    out = bs.map fun b => UInt16.ofNat b.toNat := by
  induction h with
  | nil => rfl
  | @char ch bs out h ih =>
    rw [List.all_append, all_ascii, Bool.and_eq_true, decide_eq_true_eq] at hascii
    rw [utf8EncodeChar_one hascii.1, utf16EncodeChar, if_pos (by omega), List.map_append, ← ih hascii.2,
      List.map_singleton, UInt8.toNat_ofNat_of_lt' (show ch.toNat < 256 by omega)]
  | @error bad bs out hne hbad h ih =>
    obtain ⟨b, bad, rfl⟩ := List.exists_cons_of_ne_nil hne
    rw [List.cons_append, List.all_cons, Bool.and_eq_true, decide_eq_true_eq] at hascii
    exact absurd (startsChar_of_ascii hascii.1) (hbad 0 (by simp))

/-! ## Steps of the loop -/

/-- The memory behind some units that were written: the pass that counts has none. -/
def memory (action : InflateUTF8Action) (done room : Chars) : Chars :=
  if action = .copy then done ++ room else []

/-- Write one unit into the memory. -/
theorem store_append (unit : UInt16) (hroom : 1 ≤ room.length) :
    store (done ++ room) done.length unit = .ok (done ++ [unit] ++ room.drop 1) := by
  cases room with
  | nil => exact absurd hroom (by simp)
  | cons c room =>
    rw [store, if_pos (by simp), List.set_append_right _ _ le_rfl, Nat.sub_self, List.set_cons_zero,
      List.append_assoc]
    rfl

/-- Write units into the memory. -/
theorem storeUnits_memory (action : InflateUTF8Action) (done room units : Chars) (hroom : units.length ≤ room.length)
    (hlt : done.length + units.length < 2 ^ 32) :
    storeUnits action (memory action done room) done.length units =
      .ok (memory action (done ++ units) (room.drop units.length)) := by
  by_cases hcopy : action = .copy
  · simp only [memory, if_pos hcopy]
    induction units generalizing done room with
    | nil => rw [storeUnits, List.append_nil, List.length_nil, List.drop_zero]
    | cons unit units ih =>
      rw [List.length_cons] at hroom hlt
      have hnext : (done.length + 1) % 2 ^ 32 = (done ++ [unit]).length := by
        rw [Nat.mod_eq_of_lt (by omega), List.length_append, List.length_singleton]
      rw [storeUnits, if_pos hcopy, store_append unit (by omega)]
      dsimp only [bind, Except.bind]
      rw [hnext, ih _ _ (by rw [List.length_drop]; omega)
        (by rw [List.length_append, List.length_singleton]; omega)]
      simp only [List.append_assoc, List.singleton_append, List.drop_drop, List.length_cons,
        Nat.add_comm 1]
  · simp only [memory, if_neg hcopy]
    cases units with
    | nil => rfl
    | cons unit units => rw [storeUnits, if_neg hcopy]

/-- The byte the loop looks at. -/
theorem getElem?_of_drop (hdrop : src.drop i = first :: tail) : src[i]? = some first := by
  rw [← List.head?_drop, hdrop, List.head?_cons]

/-- Skip bytes of the text. -/
theorem drop_add (hdrop : src.drop i = bs ++ rest) : src.drop (i + bs.length) = rest := by
  rw [← List.drop_drop, hdrop, List.drop_left]

/-- A step at a character. -/
theorem step_char (action : InflateUTF8Action) (room : Chars) (ascii : Bool) {ch : Char}
    (hdrop : src.drop i = String.utf8EncodeChar ch ++ rest)
    (hlt : src.length < 2 ^ 32) (hdone : done.length ≤ i)
    (hroom : (utf16EncodeChar ch).length ≤ room.length) :
    ∃ v, src[i]? = some v ∧
      Inflation.step action src ⟨i, done.length, ascii, memory action done room⟩ v =
        .ok ⟨i + (String.utf8EncodeChar ch).length, (done ++ utf16EncodeChar ch).length,
          ascii && decide (ch.toNat < 0x80),
          memory action (done ++ utf16EncodeChar ch) (room.drop (utf16EncodeChar ch).length)⟩ := by
  have hunits := length_utf16EncodeChar_le ch
  have hlength := congrArg List.length hdrop
  have hne : 0 < (String.utf8EncodeChar ch).length :=
    List.length_pos_iff.mpr String.utf8EncodeChar_ne_nil
  rw [List.length_drop, List.length_append] at hlength
  have hstore := storeUnits_memory action done room _ hroom (by omega)
  have hi : (i + (String.utf8EncodeChar ch).length) % 2 ^ 32 = i + (String.utf8EncodeChar ch).length :=
    Nat.mod_eq_of_lt (by omega)
  have hj : (done.length + (utf16EncodeChar ch).length) % 2 ^ 32 =
      (done ++ utf16EncodeChar ch).length := by
    rw [List.length_append, Nat.mod_eq_of_lt (by omega)]
  rcases utf8EncodeChar_cases ch with ⟨b, hch, hnat, hascii⟩ | ⟨f, cs, hch, hle, hf, -⟩
  · have hone : utf16EncodeChar ch = [UInt16.ofNat b.toNat] := by
      rw [utf16EncodeChar, if_pos (by omega), hnat]
    rw [hch, List.length_singleton] at hi
    rw [hone, List.length_singleton] at hj hstore
    rw [hch] at hdrop
    refine ⟨b, getElem?_of_drop hdrop, ?_⟩
    rw [Inflation.step, if_pos ((and_high_eq_zero b.toNat b.toNat_lt).mpr hascii)]
    dsimp only
    rw [hone, hstore]
    dsimp only [bind, Except.bind]
    rw [hi, hj, hch, decide_eq_true (by omega), Bool.and_true, List.length_singleton,
      List.length_singleton]
  · have hcons : src.drop i = f :: (cs ++ rest) := by rw [hdrop, hch, List.cons_append]
    refine ⟨f, getElem?_of_drop hcons, ?_⟩
    have hmask := mt (and_high_eq_zero f.toNat f.toNat_lt).mp (by omega)
    have hunit : codeUnit src i f =
        .ok (.units (String.utf8EncodeChar ch).length (utf16EncodeChar ch)) := by
      rcases codeUnit_cases hcons hlt hf with ⟨ch', rest', htext, -, heq⟩ | ⟨-, -, -, -, -, hnot, -⟩ |
        ⟨hpast, -⟩
      · rw [← hcons, hdrop] at htext
        obtain ⟨rfl, -⟩ := utf8EncodeChar_prefix htext
        exact heq
      · exact absurd ⟨ch, rest, by rw [hch, List.cons_append]⟩ hnot
      · have hshort := hpast.1.short
        have hcount := length_of_utf8EncodeChar hch
        rw [if_neg (by omega)] at hcount
        rw [List.length_append] at hshort
        omega
    rw [Inflation.step, if_neg hmask]
    dsimp only
    rw [hunit]
    dsimp only [bind, Except.bind]
    rw [hstore]
    dsimp only
    rw [hi, hj, decide_eq_false (by omega), Bool.and_false]

/-- A step at an error. -/
theorem step_invalid (hdrop : src.drop i = first :: tail) (hlt : src.length < 2 ^ 32)
    (hstart : ¬ StartsChar (first :: tail)) (hpast : ¬ RunsPast i first tail) :
    ∃ report bad rest, bad ≠ [] ∧ first :: tail = bad ++ rest ∧
      (∀ k < bad.length, ¬ StartsChar ((bad ++ rest).drop k)) ∧
      (∀ s : Inflation, s.i = i →
        s.step .countAndReportInvalids src first = .error (.reported report)) ∧
      ∀ action ≠ .countAndReportInvalids, ∀ (done room : Chars) (ascii : Bool), done.length ≤ i →
        1 ≤ room.length →
        Inflation.step action src ⟨i, done.length, ascii, memory action done room⟩ first =
          .ok ⟨i + bad.length, (done ++ [0xFFFD]).length, false,
            memory action (done ++ [0xFFFD]) (room.drop 1)⟩ := by
  have hfirst : 0x80 ≤ first.toNat := by
    by_contra hascii
    exact hstart (startsChar_of_ascii (by omega))
  have hmask := mt (and_high_eq_zero first.toNat first.toNat_lt).mp (by omega)
  have hlength := length_of_drop hdrop
  rcases codeUnit_cases hdrop hlt hfirst with ⟨ch, rest, htext, -⟩ |
    ⟨report, n2, hpos, hle, hskip, -, -, heq⟩ | ⟨h, -⟩
  · exact absurd ⟨ch, rest, htext⟩ hstart
  · have hbad : ((first :: tail).take n2).length = n2 := by
      rw [List.length_take, List.length_cons, Nat.min_eq_left hle]
    refine ⟨report, (first :: tail).take n2, (first :: tail).drop n2, ?_,
      (List.take_append_drop _ _).symm, ?_, ?_, ?_⟩
    · apply List.ne_nil_of_length_pos
      omega
    · intro k hk
      rw [List.take_append_drop]
      cases k with
      | zero => exact hstart
      | succ k =>
        rw [hbad] at hk
        rw [List.drop_succ_cons, List.drop_eq_getElem_cons (by omega)]
        apply not_startsChar_of_isContinuation
        apply hskip
        exact List.mem_take_iff_getElem.mpr ⟨k, by omega, rfl⟩
    · rintro s rfl
      rw [Inflation.step, if_neg hmask, heq]
      rfl
    · intro action haction done room ascii hdone hroom
      have hstore := storeUnits_memory action done room [0xFFFD] hroom (by rw [List.length_singleton]; omega)
      have hi : (i + n2) % 2 ^ 32 = i + n2 := Nat.mod_eq_of_lt (by omega)
      have hj : (done.length + 1) % 2 ^ 32 = (done ++ [0xFFFD]).length := by
        rw [List.length_append, List.length_singleton, Nat.mod_eq_of_lt (by omega)]
      rw [Inflation.step, if_neg hmask]
      dsimp only
      rw [heq]
      dsimp only [bind, Except.bind]
      rw [if_neg haction, hstore]
      dsimp only
      rw [hi, hj, hbad, List.length_singleton]
  · exact absurd h hpast

/-- A step where the decoder reads past the end. -/
theorem step_past (hdrop : src.drop i = first :: tail) (hlt : src.length < 2 ^ 32)
    (hpast : RunsPast i first tail) {s : Inflation} (hs : s.i = i) :
    s.step action src first = .error .pastEnd := by
  have hfirst := hpast.1.nonAscii
  have hmask := mt (and_high_eq_zero first.toNat first.toNat_lt).mp (by omega)
  have hunit : codeUnit src i first = .error .pastEnd := by
    rcases codeUnit_cases hdrop hlt hfirst with ⟨ch, rest, htext, hch, -⟩ | ⟨-, -, -, -, -, -, h, -⟩ |
      ⟨-, heq⟩
    · cases hencode : String.utf8EncodeChar ch with
      | nil => exact absurd hencode String.utf8EncodeChar_ne_nil
      | cons f cs =>
        rw [hencode, List.cons_append, List.cons.injEq] at htext
        obtain ⟨rfl, rfl⟩ := htext
        have hshort := hpast.1.short
        have hlead := length_of_utf8EncodeChar hencode
        rw [if_neg (by omega)] at hlead
        rw [List.length_append] at hshort
        omega
    · exact absurd hpast h
    · exact heq
  rw [Inflation.step, if_neg hmask, hs, hunit]
  rfl

/-! ## Runs of the loop -/

/-- The loop decodes the rest of a text to some units. -/
def Runs (action : InflateUTF8Action) (src : List UInt8) (i : ℕ) (rest : List UInt8) (out : Chars) : Prop :=
  ∀ fuel > rest.length, ∀ (done room : Chars) (ascii : Bool), done.length ≤ i →
    out.length ≤ room.length →
    inflateLoop action src fuel ⟨i, done.length, ascii, memory action done room⟩ =
      .ok ⟨src.length, (done ++ out).length, ascii && rest.all (·.toNat < 0x80),
        memory action (done ++ out) (room.drop out.length)⟩

/-- The loop reports an error in the rest of a text. -/
def Reports (src : List UInt8) (i : ℕ) (rest : List UInt8) (report : Report) : Prop :=
  ∀ fuel > rest.length, ∀ (done room : Chars) (ascii : Bool), done.length ≤ i → rest.length ≤ room.length →
    inflateLoop .countAndReportInvalids src fuel
      ⟨i, done.length, ascii, memory .countAndReportInvalids done room⟩ = .error (.reported report)

/-- At the end the loop stops. -/
theorem Runs.nil (h : src.length = i) : Runs action src i [] [] := by
  rintro (_ | fuel) hfuel done room ascii - -
  · exact absurd hfuel (Nat.lt_irrefl _)
  · rw [inflateLoop]
    dsimp only
    rw [List.getElem?_eq_none (by omega)]
    simp [h]

/-- The loop goes on behind a character. -/
theorem Runs.char {ch : Char} (hdrop : src.drop i = String.utf8EncodeChar ch ++ rest)
    (hlt : src.length < 2 ^ 32)
    (h : Runs action src (i + (String.utf8EncodeChar ch).length) rest out) :
    Runs action src i (String.utf8EncodeChar ch ++ rest) (utf16EncodeChar ch ++ out) := by
  have hne : 0 < (String.utf8EncodeChar ch).length :=
    List.length_pos_iff.mpr String.utf8EncodeChar_ne_nil
  have hunits := length_utf16EncodeChar_le ch
  rintro (_ | fuel) hfuel done room ascii hdone hroom
  · exact absurd hfuel (Nat.not_lt_zero _)
  · rw [List.length_append] at hfuel hroom
    obtain ⟨v, hv, hstep⟩ := step_char action room ascii hdrop hlt hdone (by omega)
    rw [inflateLoop]
    dsimp only
    rw [hv]
    dsimp only
    rw [hstep]
    dsimp only [bind, Except.bind]
    rw [h fuel (by omega) _ _ _ (by rw [List.length_append]; omega) (by rw [List.length_drop]; omega),
      List.all_append, all_ascii, Bool.and_assoc, List.append_assoc, List.drop_drop,
      ← List.length_append]

/-- An error behind a character is reported. -/
theorem Reports.char {ch : Char} {report : Report}
    (hdrop : src.drop i = String.utf8EncodeChar ch ++ rest) (hlt : src.length < 2 ^ 32)
    (h : Reports src (i + (String.utf8EncodeChar ch).length) rest report) :
    Reports src i (String.utf8EncodeChar ch ++ rest) report := by
  have hne : 0 < (String.utf8EncodeChar ch).length :=
    List.length_pos_iff.mpr String.utf8EncodeChar_ne_nil
  have hunits := length_utf16EncodeChar_le ch
  rintro (_ | fuel) hfuel done room ascii hdone hroom
  · exact absurd hfuel (Nat.not_lt_zero _)
  · rw [List.length_append] at hfuel hroom
    obtain ⟨v, hv, hstep⟩ := step_char .countAndReportInvalids room ascii hdrop hlt hdone
      (by omega)
    rw [inflateLoop]
    dsimp only
    rw [hv]
    dsimp only
    rw [hstep]
    dsimp only [bind, Except.bind]
    exact h fuel (by omega) _ _ _ (by rw [List.length_append]; omega) (by rw [List.length_drop]; omega)

/-- The loop decodes the rest of a text, unless it would read past the end somewhere. -/
theorem exists_runs (hlt : src.length < 2 ^ 32) (hsafe : ¬ EndsRunningPast src) (hi : i ≤ src.length)
    (hdrop : src.drop i = rest) :
    ∃ out, Lossy rest out ∧ out.length ≤ rest.length ∧
      (∀ action ≠ .countAndReportInvalids, Runs action src i rest out) ∧
      (Strict rest out ∧ Runs .countAndReportInvalids src i rest out ∨
        (¬ ∃ out, Strict rest out) ∧ ∃ report, Reports src i rest report) := by
  induction hn : rest.length using Nat.strongRecOn generalizing i rest with
  | ind n ih =>
    cases rest with
    | nil =>
      have hend : src.length = i := by
        have hle := List.drop_eq_nil_iff.mp hdrop
        omega
      exact ⟨[], .nil, Nat.zero_le _, fun action _ => Runs.nil hend, Or.inl ⟨⟨[], rfl, rfl⟩, Runs.nil hend⟩⟩
    | cons first tail =>
      have hlength := length_of_drop hdrop
      rw [List.length_cons] at hn
      by_cases hstart : StartsChar (first :: tail)
      · obtain ⟨ch, rest, htext⟩ := hstart
        rw [htext] at hdrop ⊢
        have hne : 0 < (String.utf8EncodeChar ch).length :=
          List.length_pos_iff.mpr String.utf8EncodeChar_ne_nil
        have hsplit := congrArg List.length htext
        rw [List.length_append, List.length_cons] at hsplit
        have hunits := length_utf16EncodeChar_le ch
        obtain ⟨out, hlossy, hle, hruns, hstrict⟩ :=
          ih rest.length (by omega) (by omega) (drop_add hdrop) rfl
        refine ⟨utf16EncodeChar ch ++ out, .char ch hlossy, ?_, ?_, ?_⟩
        · rw [List.length_append]
          omega
        · exact fun action haction => (hruns action haction).char hdrop hlt
        · rcases hstrict with ⟨hstrict, hrun⟩ | ⟨hnot, report, hreport⟩
          · exact Or.inl ⟨hstrict.char ch, hrun.char hdrop hlt⟩
          · refine Or.inr ⟨?_, report, hreport.char hdrop hlt⟩
            rintro ⟨out', hout'⟩
            obtain ⟨out'', -, hout''⟩ := hout'.of_char
            exact hnot ⟨out'', hout''⟩
      · have hpast : ¬ RunsPast i first tail := fun h => hsafe ⟨i, first, tail, hdrop, h⟩
        obtain ⟨report, bad, rest, hne, htext, hbad, hreport, hstep⟩ :=
          step_invalid hdrop hlt hstart hpast
        have hpos := List.length_pos_iff.mpr hne
        have hsplit := congrArg List.length htext
        rw [List.length_append, List.length_cons] at hsplit
        have hget := getElem?_of_drop hdrop
        obtain ⟨out, hlossy, hle, hruns, -⟩ :=
          ih rest.length (by omega) (by omega) (drop_add (htext ▸ hdrop)) rfl
        have hascii : (first :: tail).all (·.toNat < 0x80) = false := by
          rw [List.all_cons, decide_eq_false, Bool.false_and]
          exact fun h => hstart (startsChar_of_ascii h)
        refine ⟨0xFFFD :: out, ?_, ?_, ?_, Or.inr ⟨?_, report, ?_⟩⟩
        · rw [htext]
          exact .error hne hbad hlossy
        · rw [List.length_cons]
          omega
        · rintro action haction (_ | fuel) hfuel done room ascii hdone hroom
          · exact absurd hfuel (Nat.not_lt_zero _)
          · rw [List.length_cons] at hfuel hroom
            rw [inflateLoop]
            dsimp only
            rw [hget]
            dsimp only
            rw [hstep action haction done room ascii hdone (by omega)]
            dsimp only [bind, Except.bind]
            rw [hruns action haction fuel (by omega) _ _ _
              (by rw [List.length_append, List.length_singleton]; omega)
              (by rw [List.length_drop]; omega), hascii, Bool.false_and, Bool.and_false,
              List.append_assoc, List.singleton_append, List.drop_drop, List.length_cons, Nat.add_comm 1]
        · rintro ⟨out', hout'⟩
          rcases hout'.cases with ⟨hnil, -⟩ | ⟨ch, rest, out'', htext, -⟩
          · cases hnil
          · exact hstart ⟨ch, rest, htext⟩
        · rintro (_ | fuel) hfuel done room ascii - -
          · exact absurd hfuel (Nat.not_lt_zero _)
          · rw [inflateLoop]
            dsimp only
            rw [hget]
            dsimp only
            rw [hreport _ rfl]
            rfl

/-- The bytes that are skipped do not go past a byte that starts a sequence. -/
theorem add_le_of_skip {start : UInt8} {behind : List UInt8} {n : ℕ} (hdrop : src.drop i = first :: tail)
    (hskip : ∀ b ∈ tail.take (n - 1), IsContinuation b) (hik : i < k)
    (hk : src.drop k = start :: behind) (hstart : ¬ IsContinuation start) : i + n ≤ k := by
  by_contra hlt
  obtain ⟨d, rfl⟩ : ∃ d, k = i + (d + 1) := ⟨k - i - 1, by omega⟩
  have hget : tail[d]? = some start := by
    rw [← getElem?_of_drop hk, ← List.getElem?_drop, hdrop, List.getElem?_cons_succ]
  obtain ⟨hd, hget⟩ := List.getElem?_eq_some_iff.mp hget
  exact hstart (hskip start (List.mem_take_iff_getElem.mpr ⟨d, by omega, hget⟩))

/-- The loop does not jump over a sequence that makes it read past the end. -/
theorem step_le {s s' : Inflation} {start : UInt8} {behind : List UInt8} (hlt : src.length < 2 ^ 32)
    (hk : src.drop k = start :: behind) (hstart : ¬ IsContinuation start) (hs : s.i < k)
    (hdrop : src.drop s.i = first :: tail) (hstep : s.step action src first = .ok s') : s'.i ≤ k := by
  have hmod (n : ℕ) (hn : s.i + n ≤ k) : (s.i + n) % 2 ^ 32 ≤ k := (Nat.mod_le _ _).trans hn
  rw [Inflation.step] at hstep
  by_cases hmask : first.toNat &&& 0x80 = 0
  · rw [if_pos hmask] at hstep
    obtain ⟨dst, -, hstep⟩ := exists_of_bind_eq_ok hstep
    cases hstep
    exact hmod 1 hs
  · rw [if_neg hmask] at hstep
    have hfirst : 0x80 ≤ first.toNat := by
      have hnot := mt (and_high_eq_zero first.toNat first.toNat_lt).mpr hmask
      omega
    obtain ⟨unit, hunit, hstep⟩ := exists_of_bind_eq_ok hstep
    rcases codeUnit_cases hdrop hlt hfirst with ⟨ch, rest, htext, hch, heq⟩ |
      ⟨report, n2, hpos, hle, hskip, -, -, heq⟩ | ⟨-, heq⟩
    · cases hunit.symm.trans heq
      obtain ⟨dst, -, hstep⟩ := exists_of_bind_eq_ok hstep
      cases hstep
      apply hmod
      cases hencode : String.utf8EncodeChar ch with
      | nil => exact absurd hencode String.utf8EncodeChar_ne_nil
      | cons f cs =>
        rw [hencode, List.cons_append, List.cons.injEq] at htext
        obtain ⟨rfl, rfl⟩ := htext
        apply add_le_of_skip hdrop _ hs hk hstart
        rw [List.length_cons, Nat.add_sub_cancel, List.take_left]
        exact (marks_of_utf8EncodeChar hch hencode).2.2.2.2
    · cases hunit.symm.trans heq
      dsimp only at hstep
      split_ifs at hstep
      obtain ⟨dst, -, hstep⟩ := exists_of_bind_eq_ok hstep
      cases hstep
      exact hmod n2 (add_le_of_skip hdrop hskip hs hk hstart)
    · cases hunit.symm.trans heq

/-- Where the decoder would read past the end, no call returns a result. -/
theorem inflateLoop_ne_ok (hlt : src.length < 2 ^ 32) (hdrop : src.drop k = first :: tail)
    (hpast : RunsPast k first tail) (fuel : ℕ) (s : Inflation) (hs : s.i ≤ k) (s' : Inflation) :
    inflateLoop action src fuel s ≠ .ok s' := by
  have hlength := length_of_drop hdrop
  have hstart : ¬ IsContinuation first := by
    intro h
    have hone := leadingOnes_of_isContinuation h
    have hshort := hpast.1.short
    omega
  induction fuel generalizing s with
  | zero =>
    rw [inflateLoop]
    exact fun h => nomatch h
  | succ fuel ih =>
    rw [inflateLoop]
    obtain ⟨b, after, hcons⟩ : ∃ b after, src.drop s.i = b :: after :=
      ⟨_, _, List.drop_eq_getElem_cons (by omega)⟩
    rw [getElem?_of_drop hcons]
    dsimp only
    intro hrun
    obtain ⟨next, hstep, hrun⟩ := exists_of_bind_eq_ok hrun
    by_cases heq : s.i = k
    · rw [heq, hdrop, List.cons.injEq] at hcons
      rw [← hcons.1, step_past hdrop hlt hpast heq] at hstep
      cases hstep
    · exact ih next (step_le hlt hdrop hstart (by omega) hcons hstep) hrun

/-! ## The calls -/

/-- The pass that counts, from the start of a text on. -/
theorem Runs.count {fuel : ℕ} (h : Runs action src 0 src out) (haction : action ≠ .copy)
    (hfuel : src.length < fuel) :
    inflateUTF8StringToBuffer action src [] fuel =
      .ok ⟨src.length, out.length, src.all (·.toNat < 0x80), []⟩ := by
  have hrun := h fuel hfuel [] out true (Nat.le_refl 0) (Nat.le_refl _)
  rw [inflateUTF8StringToBuffer]
  simpa [memory, haction] using hrun

/-- The pass that copies, from the start of a text on. -/
theorem Runs.copied {fuel : ℕ} {dst : Chars} (h : Runs .copy src 0 src out) (hfuel : src.length < fuel)
    (hroom : out.length ≤ dst.length) :
    inflateUTF8StringToBuffer .copy src dst fuel =
      .ok ⟨src.length, out.length, src.all (·.toNat < 0x80), out ++ dst.drop out.length⟩ := by
  have hrun := h fuel hfuel [] dst true (Nat.le_refl 0) hroom
  rw [inflateUTF8StringToBuffer]
  simpa [memory] using hrun

/-- A call gives the units that both passes find. -/
theorem inflateUTF8StringHelper_eq {fuel : ℕ} (hlossy : Lossy src out) (hle : out.length ≤ src.length)
    (hlt : src.length < 2 ^ 32) (haction : action ≠ .copy) (hcount : Runs action src 0 src out)
    (hcopy : Runs .copy src 0 src out) (hfuel : src.length < fuel) (init : ℕ → UInt16) :
    inflateUTF8StringHelper action src init fuel = .ok (out ++ [0], out.length) := by
  obtain ⟨dst, hinit⟩ : ∃ dst, (List.range (out.length + 1)).map init = dst := ⟨_, rfl⟩
  have hdst : dst.length = out.length + 1 := by rw [← hinit, List.length_map, List.length_range]
  obtain ⟨last, hlast⟩ : ∃ last, dst.drop out.length = [last] := by
    apply List.length_eq_one_iff.mp
    rw [List.length_drop, hdst]
    omega
  have hstore : store (out ++ [last]) out.length 0 = .ok (out ++ [0]) := by
    rw [store_append 0 (by rw [List.length_singleton]), List.drop_one, List.tail_cons, List.append_nil]
  rw [inflateUTF8StringHelper, hcount.count haction hfuel]
  dsimp only [bind, Except.bind]
  by_cases hascii : src.all (·.toNat < 0x80) = true
  · have hmap := hlossy.eq_map hascii
    have hwrite : storeUnits .copy dst 0 out = .ok (out ++ [last]) := by
      have hmemory := storeUnits_memory .copy [] dst out (by omega)
        (by rw [List.length_nil]; omega)
      rwa [hlast] at hmemory
    rw [if_pos hascii, ← hmap, hinit, hwrite]
    dsimp only
    rw [hstore]
  · rw [if_neg hascii, hinit, hcopy.copied hfuel (by omega), hlast]
    dsimp only
    rw [hstore]

/-- A call that reports errors reports the one in a text. -/
theorem inflateUTF8StringHelper_error {fuel : ℕ} {report : Report} (h : Reports src 0 src report)
    (hfuel : src.length < fuel) (init : ℕ → UInt16) :
    inflateUTF8StringHelper .countAndReportInvalids src init fuel = .error (.reported report) := by
  have hrun := h fuel hfuel [] (List.replicate src.length 0) true (Nat.le_refl 0) (by simp)
  rw [inflateUTF8StringHelper, inflateUTF8StringToBuffer]
  change Except.bind _ _ = _
  rw [show inflateLoop .countAndReportInvalids src fuel ⟨0, 0, true, []⟩ = _ from hrun]
  rfl

/-- A step that copies moves as one that counts. -/
theorem step_position {action' : InflateUTF8Action} {s t s' t' : Inflation} {v : UInt8} (hi : s.i = t.i)
    (hj : s.j = t.j) (hs : s.step action src v = .ok s') (ht : t.step action' src v = .ok t') :
    s'.i = t'.i ∧ s'.j = t'.j := by
  rw [Inflation.step] at hs ht
  by_cases hmask : v.toNat &&& 0x80 = 0
  · rw [if_pos hmask] at hs ht
    obtain ⟨dst, -, hs⟩ := exists_of_bind_eq_ok hs
    obtain ⟨dst', -, ht⟩ := exists_of_bind_eq_ok ht
    cases hs
    cases ht
    rw [hi, hj]
    exact ⟨rfl, rfl⟩
  · rw [if_neg hmask] at hs ht
    obtain ⟨unit, hunit, hs⟩ := exists_of_bind_eq_ok hs
    obtain ⟨unit', hunit', ht⟩ := exists_of_bind_eq_ok ht
    rw [hi] at hunit
    cases hunit.symm.trans hunit'
    cases unit with
    | units n units =>
      obtain ⟨dst, -, hs⟩ := exists_of_bind_eq_ok hs
      obtain ⟨dst', -, ht⟩ := exists_of_bind_eq_ok ht
      cases hs
      cases ht
      rw [hi, hj]
      exact ⟨rfl, rfl⟩
    | invalid report n2 =>
      dsimp only at hs ht
      split_ifs at hs ht
      obtain ⟨dst, -, hs⟩ := exists_of_bind_eq_ok hs
      obtain ⟨dst', -, ht⟩ := exists_of_bind_eq_ok ht
      cases hs
      cases ht
      rw [hi, hj]
      exact ⟨rfl, rfl⟩

/-- A run that copies moves as one that counts. -/
theorem inflateLoop_position {action' : InflateUTF8Action} {fuel : ℕ} {s t s' t' : Inflation}
    (hi : s.i = t.i) (hj : s.j = t.j) (hs : inflateLoop action src fuel s = .ok s')
    (ht : inflateLoop action' src fuel t = .ok t') : s'.j = t'.j := by
  induction fuel generalizing s t with
  | zero => cases hs
  | succ fuel ih =>
    rw [inflateLoop] at hs ht
    rw [← hi] at ht
    cases hv : src[s.i]? with
    | none =>
      rw [hv] at hs ht
      cases hs
      cases ht
      exact hj
    | some v =>
      rw [hv] at hs ht
      obtain ⟨s₁, hs₁, hs⟩ := exists_of_bind_eq_ok hs
      obtain ⟨t₁, ht₁, ht⟩ := exists_of_bind_eq_ok ht
      obtain ⟨hi₁, hj₁⟩ := step_position hi hj hs₁ ht₁
      exact ih hi₁ hj₁ hs ht

/-- What the calls do on a text that does not make them read past the end. -/
theorem decodesExactly_of_not_endsRunningPast (hlt : src.length < 2 ^ 32)
    (hsafe : ¬ EndsRunningPast src) : DecodesExactly src := by
  obtain ⟨out, hlossy, hle, hruns, hstrict⟩ := exists_runs hlt hsafe (Nat.zero_le _) List.drop_zero
  have hcopy := hruns .copy (by decide)
  have hignore := hruns .countAndIgnoreInvalids (by decide)
  exact {
    strict := by
      intro out' hout'
      rcases hstrict with ⟨hstrict, hreport⟩ | ⟨hnot, -⟩
      · obtain rfl := hstrict.unique hout'
        exact ⟨src.length + 1, inflateUTF8StringHelper_eq hlossy hle hlt (by decide) hreport hcopy
          (Nat.lt_succ_self _)⟩
      · exact absurd ⟨out', hout'⟩ hnot
    rejects := by
      intro hnot
      rcases hstrict with ⟨hstrict, -⟩ | ⟨-, report, hreport⟩
      · exact absurd ⟨out, hstrict⟩ hnot
      · exact ⟨src.length + 1, report, inflateUTF8StringHelper_error hreport (Nat.lt_succ_self _)⟩
    lossy := by
      refine ⟨src.length + 1, out, hlossy, ?_, ?_⟩
      · rintro bs rest front rfl hfront
        exact hlossy.prefix hfront
      · exact inflateUTF8StringHelper_eq hlossy hle hlt (by decide) hignore hcopy (Nat.lt_succ_self _)
    counts := fun action fuel dst counted copied hcounted _ hcopied =>
      inflateLoop_position (s := ⟨0, 0, true, []⟩) (t := ⟨0, 0, true, dst⟩) rfl rfl hcounted hcopied }

/-- Where the decoder would read past the end, the call that ignores errors returns no result. -/
theorem not_decodesExactly_of_endsRunningPast (hlt : src.length < 2 ^ 32) (hpast : EndsRunningPast src) :
    ¬ DecodesExactly src := by
  intro h
  obtain ⟨k, first, tail, hdrop, hruns⟩ := hpast
  obtain ⟨fuel, out, -, -, hresult⟩ := h.lossy
  have hcall := hresult fun _ => 0
  rw [lossyUTF8CharsToNewTwoByteCharsZ, inflateUTF8StringHelper] at hcall
  obtain ⟨counted, hcounted, -⟩ := exists_of_bind_eq_ok hcall
  exact inflateLoop_ne_ok hlt hdrop hruns fuel _ (Nat.zero_le k) counted hcounted

/-- A short text cannot make the decoder read past its end. -/
theorem not_endsRunningPast_of_length_le (h : src.length < 2 ^ 31) : ¬ EndsRunningPast src := by
  rintro ⟨i, first, tail, hdrop, hpast⟩
  have hlength := length_of_drop hdrop
  have hfour := hpast.1.le_four
  have hwrap := hpast.2
  omega

/-- A text that ends in the first byte of a sequence of four, at the last 32-bit position but one. -/
def longText : List UInt8 := List.replicate (2 ^ 32 - 2) 0x61 ++ [0xF0]

end SpiderMonkey.Vm.CharacterEncoding
