import SpiderMonkey.Json.ReadString
import Mathlib.Data.List.GetD

/-!
# Quoting strings

`Quote`, which writes a string as a JSON literal, and that the parser reads the literal back. Plain
units are appended in batches, every other one as one of three forms of escapes. Running out of memory
is left out.
-/

namespace SpiderMonkey.Json

/-- `IsQuoteSpecialCharacter`. -/
def isQuoteSpecialCharacter (c : UInt16) : Bool :=
  c == quotationMark || c == reverseSolidus || c < 0x20

/-- Where the batch of plain units from an index on ends. The index is looked at before it is held
against the length. -/
def batchEnd (buf : Chars) (i : ℕ) : ℕ :=
  if isQuoteSpecialCharacter (buf.getD i 0) then i
  else if i + 1 < buf.length then batchEnd buf (i + 1)
  else i + 1
termination_by buf.length - i

/-- The letter of a control character that has one. -/
def escapeLetter (c : UInt16) : UInt16 :=
  if c = 0x08 then 0x62
  else if c = 0x0C then 0x66
  else if c = 0x0A then 0x6E
  else if c = 0x0D then 0x72
  else 0x74

/-- What is appended for a unit that is not plain. -/
def escapeSpecial (c : UInt16) : Chars :=
  if c = quotationMark ∨ c = reverseSolidus then [reverseSolidus, c]
  else if c = 0x08 ∨ c = 0x0C ∨ c = 0x0A ∨ c = 0x0D ∨ c = 0x09 then
    [reverseSolidus, escapeLetter c]
  else
    let x := c.toNat >>> 4
    let y := c.toNat % 16
    [reverseSolidus, 0x75, 0x30, 0x30, UInt16.ofNat (0x30 + x),
      UInt16.ofNat (if y < 10 then 0x30 + y else 0x61 + (y - 10))]

/-- A batch does not end before it starts. -/
theorem le_batchEnd (buf : Chars) (i : ℕ) : i ≤ batchEnd buf i := by
  fun_induction batchEnd buf i with
  | case1 i => exact Nat.le_refl i
  | case2 i _ _ ih => exact Nat.le_of_succ_le ih
  | case3 i => exact Nat.le_succ i

/-- The loop of `Quote` from an index on, with what is in the buffer. -/
def quoteLoop (buf : Chars) (i : ℕ) (sb : Chars) : Chars :=
  if i < buf.length then
    let sb' := if i < batchEnd buf i then sb ++ (buf.drop i).take (batchEnd buf i - i) else sb
    if i < batchEnd buf i ∧ batchEnd buf i = buf.length then sb'
    else quoteLoop buf (batchEnd buf i + 1) (sb' ++ escapeSpecial (buf.getD (batchEnd buf i) 0))
  else sb
termination_by buf.length - i
decreasing_by
  have := le_batchEnd buf i
  omega

/-- `Quote`, with what was in the buffer before. -/
def quote (sb str : Chars) : Chars := quoteLoop str 0 (sb ++ [quotationMark]) ++ [quotationMark]

/-! ## What is appended for each unit -/

/-- The text of a unit. -/
def quoteUnit (c : UInt16) : Chars := if isQuoteSpecialCharacter c then escapeSpecial c else [c]

/-- The batch has the units up to the first special one. -/
theorem batchEnd_eq {buf : Chars} {i : ℕ} (hi : i < buf.length) :
    batchEnd buf i = i + ((buf.drop i).takeWhile fun c => !isQuoteSpecialCharacter c).length := by
  have hdrop (j : ℕ) (hj : j < buf.length) : buf.drop j = buf.getD j 0 :: buf.drop (j + 1) := by
    rw [List.drop_eq_getElem_cons hj, List.getD_eq_getElem _ _ hj]
  fun_induction batchEnd buf i with
  | case1 i hspecial => rw [hdrop i hi, List.takeWhile_cons, hspecial]; rfl
  | case2 i hplain hnext ih =>
    rw [hdrop i hi, List.takeWhile_cons, if_pos (by rw [Bool.not_eq_true] at hplain; rw [hplain]; rfl),
      ih hnext, List.length_cons]
    omega
  | case3 i hplain hnext =>
    rw [hdrop i hi, List.takeWhile_cons, if_pos (by rw [Bool.not_eq_true] at hplain; rw [hplain]; rfl),
      List.drop_of_length_le (by omega)]
    rfl

/-- Plain units are appended as they are. -/
theorem flatMap_quoteUnit_takeWhile (s : Chars) :
    (s.takeWhile fun c => !isQuoteSpecialCharacter c).flatMap quoteUnit =
      s.takeWhile fun c => !isQuoteSpecialCharacter c := by
  induction s with
  | nil => rfl
  | cons c s ih =>
    rw [List.takeWhile_cons]
    split_ifs with hplain
    · rw [List.flatMap_cons, ih, quoteUnit, if_neg (by rwa [Bool.not_eq_true, ← Bool.not_eq_true'])]
      rfl
    · rfl

/-- The batches and the escapes are the texts of all units in order. -/
theorem quoteLoop_eq (buf : Chars) (i : ℕ) (sb : Chars) :
    quoteLoop buf i sb = sb ++ (buf.drop i).flatMap quoteUnit := by
  fun_induction quoteLoop buf i sb with
  | case1 i sb hi sb' hend =>
    have htake := batchEnd_eq hi
    generalize hplain : (buf.drop i).takeWhile (fun c => !isQuoteSpecialCharacter c) = plain at htake
    have hall : plain = buf.drop i := by
      rw [← hplain]
      apply (List.takeWhile_prefix _).eq_of_length
      rw [hplain, List.length_drop]
      omega
    have hunits := flatMap_quoteUnit_takeWhile (buf.drop i)
    rw [hplain, hall] at hunits
    rw [hunits]
    show (if i < batchEnd buf i then sb ++ (buf.drop i).take (batchEnd buf i - i) else sb) = _
    rw [if_pos hend.1, hend.2, List.take_of_length_le (by rw [List.length_drop])]
  | case2 i sb hi sb' hend ih =>
    rw [ih]
    have hle := le_batchEnd buf i
    have htake := batchEnd_eq hi
    have hsplit := List.takeWhile_append_dropWhile (p := fun c => !isQuoteSpecialCharacter c)
      (l := buf.drop i)
    have hunits := flatMap_quoteUnit_takeWhile (buf.drop i)
    generalize hplain : (buf.drop i).takeWhile (fun c => !isQuoteSpecialCharacter c) = plain
      at htake hsplit hunits
    generalize hrest : (buf.drop i).dropWhile (fun c => !isQuoteSpecialCharacter c) = rest at hsplit
    have hbatch : sb' = sb ++ plain := by
      show (if i < batchEnd buf i then sb ++ (buf.drop i).take (batchEnd buf i - i) else sb) = _
      rw [htake, Nat.add_sub_cancel_left, ← hsplit, List.take_left]
      split_ifs with hlt
      · rfl
      · have hnil : plain = [] := List.length_eq_zero_iff.mp (by omega)
        rw [hnil, List.append_nil]
    have hdropEnd : buf.drop (batchEnd buf i) = rest := by
      rw [htake, ← List.drop_drop, ← hsplit, List.drop_left]
    -- the batch ends at a special unit, since it does not end with the text
    have hlt : batchEnd buf i < buf.length := by
      by_contra hge
      have hlength := congrArg List.length hsplit
      rw [List.length_append, List.length_drop] at hlength
      exact hend ⟨by omega, by omega⟩
    rw [List.drop_eq_getElem_cons hlt] at hdropEnd
    have hspecial : isQuoteSpecialCharacter (buf.getD (batchEnd buf i) 0) = true := by
      rw [List.getD_eq_getElem _ _ hlt]
      have hhead := List.head?_dropWhile_not (p := fun c => !isQuoteSpecialCharacter c)
        (l := buf.drop i)
      rw [hrest, ← hdropEnd, List.head?_cons] at hhead
      simpa using hhead
    have hunit : quoteUnit buf[batchEnd buf i] = escapeSpecial (buf.getD (batchEnd buf i) 0) := by
      rw [← List.getD_eq_getElem _ 0 hlt, quoteUnit, if_pos hspecial]
    rw [hbatch, ← hsplit, ← hdropEnd, List.flatMap_append, hunits, List.flatMap_cons, hunit,
      List.append_assoc, List.append_assoc]
  | case3 i sb hi => rw [List.drop_of_length_le (by omega), List.flatMap_nil, List.append_nil]

/-! ## Reading it back -/

/-- A digit of an escape. -/
theorem isHexDigit_ofNat {n : ℕ} (h : n < 16) :
    IsHexDigit (UInt16.ofNat (if n < 10 then 0x30 + n else 0x61 + (n - 10))) n := by
  rw [IsHexDigit, UInt16.toNat_ofNat_of_lt' (by rw [UInt16.size]; split_ifs <;> omega)]
  split_ifs <;> omega

/-- The text of a unit in front of the inside of a literal. -/
theorem IsChars.quoteUnit_append (c : UInt16) {cs s : Chars} (h : IsChars cs s) :
    IsChars (quoteUnit c ++ cs) (c :: s) := by
  rw [quoteUnit]
  split_ifs with hspecial
  · rw [escapeSpecial]
    split_ifs with hself habbrev
    · apply IsChars.escape _ h
      rcases hself with rfl | rfl <;> decide
    · apply IsChars.escape _ h
      rcases habbrev with rfl | rfl | rfl | rfl | rfl <;> decide
    · rw [not_or] at hself
      have hcontrol : c.toNat < 32 := by
        simp only [isQuoteSpecialCharacter, Bool.or_eq_true, beq_iff_eq, hself.1, hself.2,
          decide_eq_true_eq, false_or] at hspecial
        exact UInt16.lt_iff_toNat_lt.mp hspecial
      have hshift : c.toNat >>> 4 = c.toNat / 16 := Nat.shiftRight_eq_div_pow _ 4
      have hx := isHexDigit_ofNat (n := c.toNat / 16) (by omega)
      have hy := isHexDigit_ofNat (n := c.toNat % 16) (by omega)
      have hzero : IsHexDigit 0x30 0 := Or.inl ⟨by omega, rfl⟩
      have hunicode := IsChars.unicode hzero hzero hx hy h
      rw [if_pos (show c.toNat / 16 < 10 by omega)] at hunicode
      have hvalue : UInt16.ofNat (0 * 4096 + 0 * 256 + c.toNat / 16 * 16 + c.toNat % 16) = c := by
        rw [show 0 * 4096 + 0 * 256 + c.toNat / 16 * 16 + c.toNat % 16 = c.toNat by omega,
          UInt16.ofNat_toNat]
      rw [hvalue, ← hshift] at hunicode
      exact hunicode
  · apply IsChars.unescaped _ h
    rw [← isUnescaped_iff, isUnescaped]
    simp only [isQuoteSpecialCharacter, Bool.or_eq_true, beq_iff_eq, decide_eq_true_eq,
      not_or] at hspecial
    obtain ⟨⟨hquote, hsolidus⟩, hlow⟩ := hspecial
    have hle : ¬ c ≤ 0x1F := by
      rw [UInt16.le_iff_toNat_le]
      rw [UInt16.lt_iff_toNat_lt] at hlow
      have h20 : (0x20 : UInt16).toNat = 32 := rfl
      have h1f : (0x1F : UInt16).toNat = 31 := rfl
      omega
    simp [hquote, hsolidus, hle]

/-- The texts of the units are the inside of a literal. -/
theorem isChars_flatMap_quoteUnit (s : Chars) : IsChars (s.flatMap quoteUnit) s := by
  induction s with
  | nil => exact .nil
  | cons c s ih =>
    rw [List.flatMap_cons]
    exact ih.quoteUnit_append c

/-- `Quote` appends a literal of the string, and `readString` reads just that literal back. -/
theorem quote_readString (sb s : Chars) :
    ∃ text, quote sb s = sb ++ text ∧ IsString text s ∧
      ∀ rest, readString (text ++ rest) = some (.string s, rest) := by
  have hstring : IsString (quotationMark :: (s.flatMap quoteUnit ++ [quotationMark])) s :=
    .mk (isChars_flatMap_quoteUnit s)
  refine ⟨_, ?_, hstring, readString_of_isString hstring⟩
  rw [quote, quoteLoop_eq, List.drop_zero]
  simp only [List.append_assoc, List.cons_append, List.nil_append]

end SpiderMonkey.Json
