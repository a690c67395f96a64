import Mathlib.Data.List.Induction
import SpiderMonkey.Vm.EscapedString

/-!
# What is printed of a string

The machine puts out the quotes and, for each unit, the unit or an escape of it. The buffer receives as
much of this as there is room for. The escape of a unit is read as the unit again.
-/

namespace SpiderMonkey.Vm.EscapedString

variable {quote fuel u : ℕ} {m : Machine} {out : List UInt8}

/-! ## The output -/

/-- What the machine puts out until it stops. -/
def Machine.trace (quote : ℕ) : ℕ → Machine → Option (List UInt8)
  | 0, _ => none
  | fuel + 1, m =>
    match m.step quote with
    | .stop => some []
    | .failed => none
    | .next m c => (trace quote fuel m).map (c.toList ++ ·)

/-- The loop puts each character of the output. -/
theorem putLoop_eq (s : Sink) (h : m.trace quote fuel = some out) :
    putLoop quote fuel m s = out.foldlM Sink.put s := by
  induction fuel generalizing m s out with
  | zero => cases h
  | succ fuel ih =>
    rw [Machine.trace] at h
    rw [putLoop]
    cases hstep : m.step quote with
    | stop =>
      rw [hstep] at h
      cases h
      rfl
    | failed =>
      rw [hstep] at h
      cases h
    | next m' c =>
      rw [hstep] at h
      obtain ⟨out', hout', rfl⟩ := Option.map_eq_some_iff.mp h
      cases c with
      | none => exact ih s hout'
      | some c =>
        change (s.put c).bind _ = (s.put c).bind fun s => out'.foldlM Sink.put s
        congr 1
        funext s'
        exact ih s' hout'

/-- More turns are of no consequence. -/
theorem trace_add (h : m.trace quote fuel = some out) (more : ℕ) :
    m.trace quote (fuel + more) = some out := by
  induction fuel generalizing m out with
  | zero => cases h
  | succ fuel ih =>
    rw [Nat.add_right_comm, Machine.trace]
    rw [Machine.trace] at h
    cases hstep : m.step quote with
    | stop =>
      rw [hstep] at h
      exact h
    | failed =>
      rw [hstep] at h
      cases h
    | next m' c =>
      rw [hstep] at h
      obtain ⟨out', hout', rfl⟩ := Option.map_eq_some_iff.mp h
      dsimp only
      rw [ih hout']
      rfl

/-- The digit of a number below 16. -/
def hexDigit (d : ℕ) : UInt8 := UInt8.ofNat (d + if d < 10 then 0x30 else 0x41 - 10)

/-- The last digits of a number. -/
def hexDigits : ℕ → ℕ → List UInt8
  | 0, _ => []
  | j + 1, hex => hexDigit (0xF &&& (hex >>> (4 * j))) :: hexDigits j hex

/-- The letter of the escape of a control character. -/
def letterOf (u : ℕ) : Option ℕ :=
  if u = 0 then none else (strchr js_EscapeMap u).bind fun s => s[1]?

/-- The escape of a unit, or the unit itself. -/
def escapeOf (quote u : ℕ) : List UInt8 :=
  if u < 0x20 then
    match letterOf u with
    | some letter => [0x5C, UInt8.ofNat letter]
    | none => 0x5C :: 0x78 :: hexDigits 2 u
  else if u < 127 then
    if u = quote ∨ u = 0x5C then [0x5C, UInt8.ofNat u] else [UInt8.ofNat u]
  else if u < 0x100 then 0x5C :: 0x78 :: hexDigits 2 u
  else 0x5C :: 0x75 :: hexDigits 4 u

/-- The digits of an escape are put out one after the other. -/
theorem trace_digits (quote j : ℕ) (cs : List UInt16) (hex u : ℕ) :
    ∃ u', ∀ fuel, Machine.trace quote (fuel + (j + 1)) ⟨.ESCAPE_MORE, cs, 4 * j, hex, u⟩ =
      (Machine.trace quote fuel ⟨.CHARS, cs, 0, hex, u'⟩).map (hexDigits j hex ++ ·) := by
  induction j generalizing u with
  | zero =>
    refine ⟨u, fun fuel => ?_⟩
    rw [Nat.zero_add, Machine.trace]
    rfl
  | succ j ih =>
    obtain ⟨u', hu'⟩ := ih (0xF &&& (hex >>> (4 * j)))
    refine ⟨u', fun fuel => ?_⟩
    have hstep : Machine.step quote ⟨.ESCAPE_MORE, cs, 4 * (j + 1), hex, u⟩ =
        .next ⟨.ESCAPE_MORE, cs, 4 * j, hex, 0xF &&& (hex >>> (4 * j))⟩
          (some (hexDigit (0xF &&& (hex >>> (4 * j))))) := by
      rw [Machine.step]
      dsimp only
      rw [if_neg (by omega), show 4 * (j + 1) - 4 = 4 * j by omega]
      rfl
    rw [← Nat.add_assoc, Machine.trace, hstep]
    dsimp only
    rw [hu', Option.map_map]
    rfl

/-- An escape is put out from its start on. -/
theorem trace_escape (quote j : ℕ) (cs : List UInt16) (hex : ℕ) {letter : ℕ}
    (hletter : 0x20 ≤ letter ∧ letter < 127) :
    ∃ u', ∀ fuel, Machine.trace quote (fuel + (j + 2)) ⟨.ESCAPE_START, cs, 4 * j, hex, letter⟩ =
      (Machine.trace quote fuel ⟨.CHARS, cs, 0, hex, u'⟩).map
        (UInt8.ofNat letter :: hexDigits j hex ++ ·) := by
  obtain ⟨u', hu'⟩ := trace_digits quote j cs hex letter
  refine ⟨u', fun fuel => ?_⟩
  rw [← Nat.add_assoc, Machine.trace, Machine.step]
  dsimp only
  rw [if_pos hletter]
  dsimp only
  rw [Nat.add_assoc, hu', Option.map_map]
  rfl

/-- The letters of escapes of control characters. -/
theorem letterOf_cases (hu : u < 0x20) :
    (∃ letter rest, u ≠ 0 ∧ strchr js_EscapeMap u = some (u :: letter :: rest) ∧
      letterOf u = some letter ∧ 0x20 ≤ letter ∧ letter < 127) ∨
    letterOf u = none ∧ (u = 0 ∨ strchr js_EscapeMap u = none) := by
  have hmap : ∀ u < 0x20, (strchr js_EscapeMap u).all fun s =>
      s[0]? = some u ∧ s[1]?.any fun letter => 0x20 ≤ letter ∧ letter < 127 := by decide
  rw [letterOf]
  by_cases hzero : u = 0
  · exact Or.inr ⟨if_pos hzero, Or.inl hzero⟩
  · rw [if_neg hzero]
    have hfind := hmap u hu
    cases hs : strchr js_EscapeMap u with
    | none => exact Or.inr ⟨rfl, Or.inr rfl⟩
    | some s =>
      rw [hs, Option.all_some, decide_eq_true_eq] at hfind
      rcases s with _ | ⟨first, _ | ⟨letter, rest⟩⟩
      · cases hfind.1
      · cases hfind.2
      · obtain ⟨hfirst, hletter⟩ := hfind
        have hbounds : 0x20 ≤ letter ∧ letter < 127 := of_decide_eq_true hletter
        rw [show first = u from Option.some_inj.mp hfirst]
        exact Or.inl ⟨letter, rest, hzero, rfl, rfl, hbounds⟩

/-- An escape after a backslash is put out. -/
theorem trace_doEscape (quote j : ℕ) (c : UInt16) (cs : List UInt16) (hex u : ℕ) {letter hex' : ℕ}
    (hletter : 0x20 ≤ letter ∧ letter < 127)
    (hstep : Machine.step quote ⟨.CHARS, c :: cs, 0, hex, u⟩ =
      .next ⟨.ESCAPE_START, cs, 4 * j, hex', letter⟩ (some 0x5C)) :
    ∃ u', ∀ fuel, Machine.trace quote (fuel + (j + 3)) ⟨.CHARS, c :: cs, 0, hex, u⟩ =
      (Machine.trace quote fuel ⟨.CHARS, cs, 0, hex', u'⟩).map
        (0x5C :: UInt8.ofNat letter :: hexDigits j hex' ++ ·) := by
  obtain ⟨u', hu'⟩ := trace_escape quote j cs hex' hletter
  refine ⟨u', fun fuel => ?_⟩
  rw [← Nat.add_assoc, Machine.trace, hstep]
  dsimp only
  rw [Nat.add_assoc, hu', Option.map_map]
  rfl

/-- A unit, or its escape, is put out in at most seven turns. -/
theorem trace_unit (quote : ℕ) (c : UInt16) (cs : List UInt16) (hex u : ℕ) :
    ∃ k ≤ 7, ∃ hex' u', ∀ fuel, Machine.trace quote (fuel + k) ⟨.CHARS, c :: cs, 0, hex, u⟩ =
      (Machine.trace quote fuel ⟨.CHARS, cs, 0, hex', u'⟩).map (escapeOf quote c.toNat ++ ·) := by
  by_cases hcontrol : c.toNat < 0x20
  · rcases letterOf_cases hcontrol with ⟨letter, rest, hzero, hfind, hletter, hbounds⟩ | ⟨hnone, hfind⟩
    · have hstep : Machine.step quote ⟨.CHARS, c :: cs, 0, hex, u⟩ =
          .next ⟨.ESCAPE_START, cs, 4 * 0, hex, letter⟩ (some 0x5C) := by
        rw [Machine.step]
        dsimp only
        rw [if_pos hcontrol, if_pos hzero, hfind]
        rfl
      obtain ⟨u', hu'⟩ := trace_doEscape quote 0 c cs hex u hbounds hstep
      rw [escapeOf, if_pos hcontrol, hletter]
      exact ⟨3, by omega, hex, u', hu'⟩
    · have hstep : Machine.step quote ⟨.CHARS, c :: cs, 0, hex, u⟩ =
          .next ⟨.ESCAPE_START, cs, 4 * 2, c.toNat, 0x78⟩ (some 0x5C) := by
        rw [Machine.step]
        dsimp only
        rw [if_pos hcontrol]
        by_cases hzero : c.toNat = 0
        · rw [if_neg (not_not.mpr hzero)]
          rfl
        · rw [if_pos hzero, hfind.resolve_left hzero]
          rfl
      obtain ⟨u', hu'⟩ := trace_doEscape quote 2 c cs hex u (by omega) hstep
      rw [escapeOf, if_pos hcontrol, hnone]
      exact ⟨5, by omega, c.toNat, u', hu'⟩
  · rw [escapeOf, if_neg hcontrol]
    by_cases hascii : c.toNat < 127
    · rw [if_pos hascii]
      by_cases hquote : c.toNat = quote ∨ c.toNat = 0x5C
      · have hstep : Machine.step quote ⟨.CHARS, c :: cs, 0, hex, u⟩ =
            .next ⟨.ESCAPE_START, cs, 4 * 0, hex, c.toNat⟩ (some 0x5C) := by
          rw [Machine.step]
          dsimp only
          rw [if_neg hcontrol, if_pos hascii, if_pos hquote]
          rfl
        obtain ⟨u', hu'⟩ := trace_doEscape quote 0 c cs hex u (by omega) hstep
        rw [if_pos hquote]
        exact ⟨3, by omega, hex, u', hu'⟩
      · refine ⟨1, by omega, hex, c.toNat, fun fuel => ?_⟩
        rw [Machine.trace, Machine.step]
        dsimp only
        rw [if_neg hcontrol, if_pos hascii, if_neg hquote, if_neg hquote]
        rfl
    · rw [if_neg hascii]
      by_cases hlatin : c.toNat < 0x100
      · have hstep : Machine.step quote ⟨.CHARS, c :: cs, 0, hex, u⟩ =
            .next ⟨.ESCAPE_START, cs, 4 * 2, c.toNat, 0x78⟩ (some 0x5C) := by
          rw [Machine.step]
          dsimp only
          rw [if_neg hcontrol, if_neg hascii, if_pos hlatin]
          rfl
        obtain ⟨u', hu'⟩ := trace_doEscape quote 2 c cs hex u (by omega) hstep
        rw [if_pos hlatin]
        exact ⟨5, by omega, c.toNat, u', hu'⟩
      · have hstep : Machine.step quote ⟨.CHARS, c :: cs, 0, hex, u⟩ =
            .next ⟨.ESCAPE_START, cs, 4 * 4, c.toNat, 0x75⟩ (some 0x5C) := by
          rw [Machine.step]
          dsimp only
          rw [if_neg hcontrol, if_neg hascii, if_neg hlatin]
          rfl
        obtain ⟨u', hu'⟩ := trace_doEscape quote 4 c cs hex u (by omega) hstep
        rw [if_neg hlatin]
        exact ⟨7, by omega, c.toNat, u', hu'⟩

/-- The output for a string, between quotes if there are any. -/
def output (quote : ℕ) (chars : List UInt16) : List UInt8 :=
  (doQuote quote).toList ++ chars.flatMap (fun c => escapeOf quote c.toNat) ++ (doQuote quote).toList

/-- The units are put out one after the other. -/
theorem trace_chars (quote : ℕ) (cs : List UInt16) (hex u : ℕ) :
    Machine.trace quote (7 * cs.length + 3) ⟨.CHARS, cs, 0, hex, u⟩ =
      some (cs.flatMap (fun c => escapeOf quote c.toNat) ++ (doQuote quote).toList) := by
  induction cs generalizing hex u with
  | nil =>
    change some ((doQuote quote).toList ++ []) = _
    rw [List.append_nil]
    rfl
  | cons c cs ih =>
    obtain ⟨k, hk, hex', u', htrace⟩ := trace_unit quote c cs hex u
    have hrest := trace_add (ih hex' u') (7 - k)
    rw [List.length_cons, show 7 * (cs.length + 1) + 3 = 7 * cs.length + 3 + (7 - k) + k by omega, htrace,
      hrest, List.flatMap_cons, List.append_assoc]
    rfl

/-- The whole output. -/
theorem trace_eq_output (quote : ℕ) (chars : List UInt16) :
    Machine.trace quote (7 * chars.length + 4) ⟨.FIRST_QUOTE, chars, 0, 0, 0⟩ =
      some (output quote chars) := by
  rw [Machine.trace, Machine.step]
  dsimp only
  rw [trace_chars, output, List.append_assoc]
  rfl

/-! ## The buffer -/

/-- A character is written behind an output. -/
theorem set_behind {memory : List UInt8} (hlt : out.length < memory.length) (c : UInt8) :
    (out ++ memory.drop out.length).set out.length c = out ++ c :: memory.drop (out.length + 1) := by
  rw [List.set_append_right _ _ (Nat.le_refl _), Nat.sub_self, List.drop_eq_getElem_cons hlt]
  rfl

/-- Writing behind an output that leaves room. -/
theorem write_behind {memory : List UInt8} {size : ℕ} (hlt : out.length < memory.length) (c : UInt8) :
    Sink.write ⟨out ++ memory.drop out.length, true, size, out.length⟩ c =
      some ⟨out ++ c :: memory.drop (out.length + 1), true, size, out.length⟩ := by
  have hroom : out.length < (out ++ memory.drop out.length).length := by
    rw [List.length_append, List.length_drop]
    omega
  rw [Sink.write, if_pos hroom, set_behind hlt]

/-- The buffer after an output, with a terminator as soon as there is no more room. -/
theorem foldlM_put {memory : List UInt8} {size : ℕ} (hmemory : memory.length = size + 1)
    (out : List UInt8) :
    out.foldlM Sink.put ⟨memory, true, size, 0⟩ = some
      (if out.length ≤ size then ⟨out ++ memory.drop out.length, true, size, out.length⟩
      else ⟨out.take size ++ 0 :: memory.drop (size + 1), false, size, out.length⟩) := by
  induction out using List.reverseRecOn with
  | nil => rfl
  | append_singleton out c ih =>
    rw [List.foldlM_append, ih]
    have hlength : (out ++ [c]).length = out.length + 1 := List.length_append
    change (Sink.put _ c).bind some = _
    rw [Option.bind_fun_some, hlength]
    rcases Nat.lt_trichotomy out.length size with hlt | heq | hgt
    · rw [if_pos (Nat.le_of_lt hlt), if_pos (Nat.succ_le_of_lt hlt), Sink.put, if_pos rfl,
        if_neg (show ¬ size < out.length from Nat.not_lt.mpr (Nat.le_of_lt hlt)),
        if_pos (show out.length ≠ size from Nat.ne_of_lt hlt), write_behind (by omega),
        List.append_assoc]
      rfl
    · have htake : (out ++ [c]).take size = out := by rw [← heq, List.take_left]
      rw [if_pos (Nat.le_of_eq heq), if_neg (by omega), Sink.put, if_pos rfl,
        if_neg (show ¬ size < out.length by omega), if_neg (show ¬ out.length ≠ size from not_not.mpr heq),
        write_behind (by omega), htake, heq]
      rfl
    · rw [if_neg (Nat.not_le.mpr hgt), if_neg (by omega), Sink.put, if_neg Bool.false_ne_true,
        List.take_append_of_le_length (Nat.le_of_lt hgt)]
      rfl

/-- Without a buffer the output is counted. -/
theorem foldlM_put_nil (size n : ℕ) (out : List UInt8) :
    out.foldlM Sink.put ⟨[], false, size, n⟩ = some ⟨[], false, size, n + out.length⟩ := by
  induction out generalizing n with
  | nil => rfl
  | cons c out ih =>
    change out.foldlM Sink.put ⟨[], false, size, n + 1⟩ = _
    rw [ih, List.length_cons, Nat.add_right_comm, Nat.add_assoc]

/-- A buffer with as much of an output as there is room for, and a terminator. -/
def bounded (out memory : List UInt8) : List UInt8 :=
  if memory = [] then []
  else out.take (memory.length - 1) ++ 0 :: memory.drop (min out.length (memory.length - 1) + 1)

/-- The output is put into the buffer as far as there is room, and counted. -/
theorem putEscapedStringImpl_eq (memory : List UInt8) (chars : List UInt16)
    (hquote : quote = 0 ∨ quote = 0x27 ∨ quote = 0x22) :
    putEscapedStringImpl memory chars quote =
      some ((output quote chars).length, bounded (output quote chars) memory) := by
  have hguard : (guard (quote = 0 ∨ quote = 0x27 ∨ quote = 0x22) : Option Unit) = some () := if_pos hquote
  rw [putEscapedStringImpl, hguard]
  simp only [Option.bind_eq_bind, Option.bind_some, putLoop_eq _ (trace_eq_output quote chars)]
  generalize output quote chars = out
  cases memory with
  | nil =>
    rw [show (decide (([] : List UInt8).length ≠ 0)) = false from rfl, foldlM_put_nil, Nat.zero_add]
    rfl
  | cons b memory =>
    have hput := foldlM_put (show (b :: memory).length = memory.length + 1 from rfl) out
    rw [show (decide ((b :: memory).length ≠ 0)) = true from rfl, List.length_cons,
      Nat.add_sub_cancel, hput, Option.bind_some, bounded, if_neg (List.cons_ne_nil b memory),
      List.length_cons, Nat.add_sub_cancel]
    by_cases hle : out.length ≤ memory.length
    · rw [if_pos hle, if_pos rfl, write_behind (Nat.lt_succ_of_le hle), Nat.min_eq_left hle,
        List.take_of_length_le hle]
      rfl
    · rw [if_neg hle, if_neg Bool.false_ne_true, Nat.min_eq_right (Nat.le_of_lt (Nat.not_le.mp hle))]

/-! ## Literals -/

/-- A digit is printable, and read as what it is. -/
theorem hexDigit_spec {d : ℕ} (hd : d < 16) :
    0x20 ≤ hexDigit d ∧ hexDigit d < 0x7F ∧ hexDigitValue (hexDigit d) = some d := by
  have hall : ∀ d < 16, 0x20 ≤ hexDigit d ∧ hexDigit d < 0x7F ∧ hexDigitValue (hexDigit d) = some d := by
    decide
  exact hall d hd

/-- The digits of a number are printable. -/
theorem hexDigits_printable (j hex : ℕ) : ∀ c ∈ hexDigits j hex, 0x20 ≤ c ∧ c < 0x7F := by
  induction j with
  | zero => exact nofun
  | succ j ih =>
    intro c hc
    rcases List.mem_cons.mp hc with rfl | hc
    · have hdigit := hexDigit_spec (show 0xF &&& (hex >>> (4 * j)) < 16 from
        Nat.lt_of_le_of_lt Nat.and_le_left (by decide))
      exact ⟨hdigit.1, hdigit.2.1⟩
    · exact ih c hc

/-- The digits of a number are read as the number. -/
theorem hexValue_hexDigits (j hex v : ℕ) :
    (hexDigits j hex).foldlM (fun v c => (hexDigitValue c).map (16 * v + ·)) v =
      some (16 ^ j * v + hex % 16 ^ j) := by
  induction j generalizing v with
  | zero =>
    rw [Nat.pow_zero, Nat.one_mul, Nat.mod_one]
    rfl
  | succ j ih =>
    have hdigit : 0xF &&& (hex >>> (4 * j)) = hex / 16 ^ j % 16 := by
      rw [Nat.and_comm, Nat.shiftRight_eq_div_pow, show 2 ^ (4 * j) = 16 ^ j by rw [Nat.pow_mul]]
      exact Nat.and_two_pow_sub_one_eq_mod _ 4
    rw [hexDigits, List.foldlM_cons, hdigit, (hexDigit_spec (Nat.mod_lt _ (by decide))).2.2,
      Option.map_some]
    change List.foldlM _ (16 * v + hex / 16 ^ j % 16) _ = _
    rw [ih, Nat.pow_succ, Nat.mod_mul]
    rw [Nat.mul_add, Nat.mul_assoc, Nat.add_assoc, Nat.add_comm (hex % 16 ^ j)]

/-- The number of two or four digits of a number that is not greater. -/
theorem hexValue_eq {j hex : ℕ} (h : hex < 16 ^ j) : hexValue (hexDigits j hex) = some hex := by
  rw [hexValue, hexValue_hexDigits, Nat.mul_zero, Nat.zero_add, Nat.mod_eq_of_lt h]

/-- The escape of a unit by two digits. -/
theorem stringCharactersValue_hex (q : UInt8) (hq : q ≠ 0x5C) (hu : u < 16 ^ 2) (rest : List UInt8) :
    stringCharactersValue q (0x5C :: 0x78 :: hexDigits 2 u ++ rest) =
      (stringCharactersValue q rest).map (UInt16.ofNat u :: ·) := by
  have hvalue := hexValue_eq hu
  rw [hexDigits, hexDigits, hexDigits] at hvalue ⊢
  simp only [List.cons_append, List.nil_append]
  rw [stringCharactersValue, if_neg (Ne.symm hq), hvalue]
  rfl

/-- The escape of a unit by four digits. -/
theorem stringCharactersValue_unicode (q : UInt8) (hq : q ≠ 0x5C) (hu : u < 16 ^ 4)
    (rest : List UInt8) : stringCharactersValue q (0x5C :: 0x75 :: hexDigits 4 u ++ rest) =
      (stringCharactersValue q rest).map (UInt16.ofNat u :: ·) := by
  have hvalue := hexValue_eq hu
  rw [hexDigits, hexDigits, hexDigits, hexDigits, hexDigits] at hvalue ⊢
  simp only [List.cons_append, List.nil_append]
  rw [stringCharactersValue, if_neg (Ne.symm hq), hvalue]
  rfl

/-- The escape of a unit by a letter. -/
theorem stringCharactersValue_letter (q : UInt8) (hq : q ≠ 0x5C) {l : UInt8} (rest : List UInt8)
    (hl : l ∈ [0x62, 0x74, 0x6E, 0x76, 0x66, 0x72, 0x22, 0x27, 0x5C]) :
    stringCharactersValue q (0x5C :: l :: rest) =
      (stringCharactersValue q rest).map (singleEscapeValue l :: ·) := by
  simp only [List.mem_cons, List.not_mem_nil, or_false] at hl
  rcases hl with rfl | rfl | rfl | rfl | rfl | rfl | rfl | rfl | rfl <;>
    simp [stringCharactersValue, Ne.symm hq, singleEscapeValue]

/-- The letters of escapes of control characters are printable, and read as the characters. -/
theorem letterOf_spec (hu : u < 0x20) {letter : ℕ} (hletter : letterOf u = some letter) :
    UInt8.ofNat letter ∈ [0x62, 0x74, 0x6E, 0x76, 0x66, 0x72] ∧
      singleEscapeValue (UInt8.ofNat letter) = UInt16.ofNat u := by
  have hall : ∀ u < 0x20, (letterOf u).all fun letter =>
      UInt8.ofNat letter ∈ [0x62, 0x74, 0x6E, 0x76, 0x66, 0x72] ∧
        singleEscapeValue (UInt8.ofNat letter) = UInt16.ofNat u := by decide
  have hfind := hall u hu
  rw [hletter, Option.all_some, decide_eq_true_eq] at hfind
  exact hfind

/-- A unit below 127 from the blank on is printable. -/
theorem ofNat_printable (hle : ¬ u < 0x20) (hlt : u < 127) :
    0x20 ≤ UInt8.ofNat u ∧ UInt8.ofNat u < 0x7F := by
  rw [UInt8.le_iff_toNat_le, UInt8.lt_iff_toNat_lt, UInt8.toNat_ofNat_of_lt' (show u < 256 by omega)]
  exact ⟨Nat.not_lt.mp hle, hlt⟩

/-- The escape of a unit is printable. -/
theorem escapeOf_printable (quote u : ℕ) : ∀ c ∈ escapeOf quote u, 0x20 ≤ c ∧ c < 0x7F := by
  have hdigits (letter : UInt8) (j : ℕ) (hletter : 0x20 ≤ letter ∧ letter < 0x7F) (c : UInt8)
      (hc : c ∈ 0x5C :: letter :: hexDigits j u) : 0x20 ≤ c ∧ c < 0x7F := by
    rcases List.mem_cons.mp hc with rfl | hc
    · decide
    · rcases List.mem_cons.mp hc with rfl | hc
      · exact hletter
      · exact hexDigits_printable j u c hc
  rw [escapeOf]
  by_cases hcontrol : u < 0x20
  · rw [if_pos hcontrol]
    cases hletter : letterOf u with
    | none => exact hdigits 0x78 2 (by decide)
    | some letter =>
      have hmem := (letterOf_spec hcontrol hletter).1
      apply hdigits (UInt8.ofNat letter) 0
      have hall : ∀ c ∈ ([0x62, 0x74, 0x6E, 0x76, 0x66, 0x72] : List UInt8), 0x20 ≤ c ∧ c < 0x7F := by
        simp only [List.mem_cons, List.not_mem_nil, or_false, forall_eq_or_imp, forall_eq]
        decide
      exact hall _ hmem
  · rw [if_neg hcontrol]
    split_ifs with hascii hquote hlatin
    · exact hdigits (UInt8.ofNat u) 0 (ofNat_printable hcontrol hascii)
    · intro c hc
      rw [List.mem_singleton.mp hc]
      exact ofNat_printable hcontrol hascii
    · exact hdigits 0x78 2 (by decide)
    · exact hdigits 0x75 4 (by decide)

/-- The escape of a unit is read as the unit. -/
theorem stringCharactersValue_escapeOf (hquote : quote = 0x27 ∨ quote = 0x22) (c : UInt16)
    (rest : List UInt8) :
    stringCharactersValue (UInt8.ofNat quote) (escapeOf quote c.toNat ++ rest) =
      (stringCharactersValue (UInt8.ofNat quote) rest).map (c :: ·) := by
  have hq : UInt8.ofNat quote ≠ 0x5C := by
    rcases hquote with rfl | rfl <;> decide
  have hunit : UInt16.ofNat c.toNat = c := UInt16.ofNat_toNat
  have hlt := c.toNat_lt
  rw [escapeOf]
  by_cases hcontrol : c.toNat < 0x20
  · rw [if_pos hcontrol]
    cases hletter : letterOf c.toNat with
    | none =>
      dsimp only
      rw [stringCharactersValue_hex _ hq (by omega), hunit]
    | some letter =>
      obtain ⟨hmem, hvalue⟩ := letterOf_spec hcontrol hletter
      rw [hunit] at hvalue
      have hmem' := List.mem_append_left [0x22, 0x27, 0x5C] hmem
      change stringCharactersValue _ (0x5C :: UInt8.ofNat letter :: rest) = _
      rw [stringCharactersValue_letter _ hq rest hmem', hvalue]
  · rw [if_neg hcontrol]
    by_cases hascii : c.toNat < 127
    · rw [if_pos hascii]
      have hbyte : (UInt8.ofNat c.toNat).toNat = c.toNat :=
        UInt8.toNat_ofNat_of_lt' (show c.toNat < 256 by omega)
      have hwide : (UInt8.ofNat c.toNat).toUInt16 = c := by
        rw [← UInt16.toNat_inj, UInt8.toNat_toUInt16, hbyte]
      by_cases hspecial : c.toNat = quote ∨ c.toNat = 0x5C
      · rw [if_pos hspecial]
        change stringCharactersValue _ (0x5C :: UInt8.ofNat c.toNat :: rest) = _
        have hcases : c.toNat = 0x27 ∨ c.toNat = 0x22 ∨ c.toNat = 0x5C := by omega
        have hvalue : singleEscapeValue (UInt8.ofNat c.toNat) = c := by
          rcases hcases with heq | heq | heq <;> rw [← hwide, heq] <;> rfl
        rw [stringCharactersValue_letter, hvalue]
        · exact hq
        · rcases hcases with heq | heq | heq <;> rw [heq] <;> decide
      · have hne (b : ℕ) (hb : b < 127) (hcb : c.toNat ≠ b) : UInt8.ofNat c.toNat ≠ UInt8.ofNat b := by
          rw [ne_eq, ← UInt8.toNat_inj, hbyte, UInt8.toNat_ofNat_of_lt' (show b < 256 by omega)]
          exact hcb
        have hother : ¬ (UInt8.ofNat c.toNat = 0x0A ∨ UInt8.ofNat c.toNat = 0x0D ∨
            0x80 ≤ UInt8.ofNat c.toNat) := by
          rintro (heq | heq | hle)
          · exact hne 0x0A (by omega) (by omega) heq
          · exact hne 0x0D (by omega) (by omega) heq
          · rw [UInt8.le_iff_toNat_le, hbyte] at hle
            change 128 ≤ c.toNat at hle
            omega
        rw [if_neg hspecial, List.singleton_append, stringCharactersValue.eq_def]
        dsimp only
        rw [if_neg (hne quote (by omega) (by omega)), if_neg hother,
          if_pos (show UInt8.ofNat c.toNat ≠ 0x5C from hne 0x5C (by omega) (by omega)), hwide]
    · rw [if_neg hascii]
      by_cases hlatin : c.toNat < 0x100
      · rw [if_pos hlatin, stringCharactersValue_hex _ hq (by omega), hunit]
      · rw [if_neg hlatin, stringCharactersValue_unicode _ hq (by omega), hunit]

/-- The output is printable. -/
theorem output_printable (hquote : quote = 0 ∨ quote = 0x27 ∨ quote = 0x22) (chars : List UInt16) :
    ∀ c ∈ output quote chars, 0x20 ≤ c ∧ c < 0x7F := by
  have hquotes : ∀ c ∈ (doQuote quote).toList, 0x20 ≤ c ∧ c < 0x7F := by
    intro c hc
    rcases hquote with rfl | rfl | rfl
    · exact absurd hc List.not_mem_nil
    · rw [List.mem_singleton.mp hc]
      decide
    · rw [List.mem_singleton.mp hc]
      decide
  intro c hc
  rw [output, List.mem_append, List.mem_append] at hc
  rcases hc with (hc | hc) | hc
  · exact hquotes c hc
  · obtain ⟨unit, _, hunit⟩ := List.mem_flatMap.mp hc
    exact escapeOf_printable quote unit.toNat c hunit
  · exact hquotes c hc

/-- The output between quotes is a literal of the string. -/
theorem stringLiteralValue_output (hquote : quote = 0x27 ∨ quote = 0x22) (chars : List UInt16) :
    stringLiteralValue (output quote chars) = some chars := by
  have hdo : (doQuote quote).toList = [UInt8.ofNat quote] := by
    rcases hquote with rfl | rfl <;> rfl
  have hq : UInt8.ofNat quote = 0x22 ∨ UInt8.ofNat quote = 0x27 := by
    rcases hquote with rfl | rfl
    · exact Or.inr rfl
    · exact Or.inl rfl
  have hchars : stringCharactersValue (UInt8.ofNat quote)
      (chars.flatMap (fun c => escapeOf quote c.toNat) ++ [UInt8.ofNat quote]) = some chars := by
    induction chars with
    | nil =>
      rw [List.flatMap_nil, List.nil_append, stringCharactersValue.eq_def]
      dsimp only
      rw [if_pos rfl, if_pos rfl]
    | cons c chars ih =>
      rw [List.flatMap_cons, List.append_assoc, stringCharactersValue_escapeOf hquote, ih]
      rfl
  rw [output, hdo, List.append_assoc, List.singleton_append, stringLiteralValue, if_pos hq, hchars]

/-- The length of the output does not depend on the buffer, which receives as much of the output as
there is room for and a terminator. The output is printable, and between quotes a literal of the
string. -/
theorem putEscapedStringImpl_prints (chars : List UInt16)
    (hquote : quote = 0 ∨ quote = 0x27 ∨ quote = 0x22) :
    ∃ out, (∀ memory, putEscapedStringImpl memory chars quote = some (out.length, bounded out memory)) ∧
      (∀ c ∈ out, 0x20 ≤ c ∧ c < 0x7F) ∧
      (quote ≠ 0 → stringLiteralValue out = some chars) :=
  ⟨output quote chars, fun memory => putEscapedStringImpl_eq memory chars hquote,
    output_printable hquote chars,
    fun hne => stringLiteralValue_output (hquote.resolve_left hne) chars⟩

theorem putEscapedStringImpl_prints_double :
    ∃ out, (∀ memory, putEscapedStringImpl memory [0x61, 0x22, 0x2028] 0x22 =
        some (out.length, bounded out memory)) ∧
      (∀ c ∈ out, 0x20 ≤ c ∧ c < 0x7F) ∧
      (0x22 ≠ 0 → stringLiteralValue out = some [0x61, 0x22, 0x2028]) :=
  putEscapedStringImpl_prints [0x61, 0x22, 0x2028] (Or.inr (Or.inr rfl))

end SpiderMonkey.Vm.EscapedString
