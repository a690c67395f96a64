import Mathlib.Data.List.Induction
import Mathlib.Data.List.TakeWhile
import SpiderMonkey.Vm.ArraySortDigits
import SpiderMonkey.Vm.Uri

/-!
# Strings that are indexes

An index is read with arithmetic of 32 bits. Whether it is too large is judged from the last digit and
from the number before it, which cannot have wrapped around.
-/

namespace SpiderMonkey.Vm.IndexStrings

open ArraySort (decimal lastDigits toNat_digit)
open Uri (JSLinearString)

variable {cs s : List UInt16} {c ch : UInt16} {n : ℕ}

/-! ## The two functions -/

/-- `JS7_ISDEC`. -/
def isDec (c : UInt16) : Bool := c.toUInt32 - 0x30 ≤ 9

/-- `JS7_UNDEC`. -/
def unDec (c : UInt16) : UInt32 := c.toUInt32 - 0x30

/-- The last digit, the number before it, and the number with it. -/
structure Digits where
  c : UInt32
  previous : UInt32
  index : UInt32

/-- Read a digit. -/
def Digits.push (d : Digits) (unit : UInt16) : Digits where
  c := unDec unit
  previous := d.index
  index := 10 * d.index + unDec unit

/-- Whether a number that was read is not above a maximum. -/
def Digits.isAtMost (d : Digits) (max : UInt32) : Bool :=
  d.previous < max / 10 || (d.previous == max / 10 && d.c ≤ max % 10)

/-- The largest index of an array. -/
def MAX_ARRAY_INDEX : UInt32 := 4294967294

/-- The number of digits of the largest index of an array. -/
def maxArrayIndexLength : UInt32 := 10

/-- The number of units of the largest index. -/
def UINT32_CHAR_BUFFER_LENGTH : ℕ := 10

/-- The loop of `StringIsArrayIndex`, over as many units as are left. Reading past the end has no
result. -/
def arrayIndexLoop : ℕ → List UInt16 → Digits → Option (Option Digits)
  | 0, _, d => some (some d)
  | _ + 1, [], _ => none
  | n + 1, c :: s, d => if !isDec c then some none else arrayIndexLoop n s (d.push c)

/-- `StringIsArrayIndex`. -/
def stringIsArrayIndex (str : JSLinearString) : Option (Option UInt32) :=
  let length := UInt32.ofNat str.chars.length
  if length == 0 || length > maxArrayIndexLength then some none
  else match str.chars with
    | [] => none
    | ch :: s =>
      if !isDec ch then some none
      else
        let index := unDec ch
        -- leading zeros are not allowed
        if index == 0 && length != 1 then some none
        else do
          match ← arrayIndexLoop (length.toNat - 1) s ⟨0, 0, index⟩ with
          | none => some none
          | some d => some (if d.isAtMost MAX_ARRAY_INDEX then some d.index else none)

/-- The loop of `isIndexSlow`, over the units up to the end of memory. -/
def indexLoop : List UInt16 → Digits → Option (List UInt16 × Digits)
  | [], _ => none
  | c :: cp, d => if isDec c then indexLoop cp (d.push c) else some (c :: cp, d)

/-- `JSFlatString::isIndexSlow`, on units with a terminator behind them. -/
def isIndexSlow (str : JSLinearString) : Option (Option UInt32) :=
  match str.chars ++ [0] with
  | [] => none
  | ch :: cp =>
    if !isDec ch then some none
    else if str.chars.length > UINT32_CHAR_BUFFER_LENGTH then some none
    else do
      let d : Digits := ⟨0, 0, unDec ch⟩
      let (cp, d) ← if d.index != 0 then indexLoop cp d else some (cp, d)
      -- the terminator alone is to be left
      if cp.length ≠ 1 then some none
      else some (if d.isAtMost 0xFFFFFFFF then some d.index else none)

/-! ## Decimal forms -/

/-- The unit of a digit. -/
theorem isDec_iff : isDec c = true ↔ 0x30 ≤ c.toNat ∧ c.toNat ≤ 0x39 := by
  have hlt := c.toNat_lt
  rw [isDec, decide_eq_true_eq, UInt32.le_iff_toNat_le, UInt32.toNat_sub, UInt16.toNat_toUInt32]
  change (4294967296 - 48 + c.toNat) % 4294967296 ≤ 9 ↔ _
  omega

/-- The digit of a unit. -/
theorem toNat_unDec (hc : isDec c = true) : (unDec c).toNat = c.toNat - 0x30 := by
  have hlt := c.toNat_lt
  have hdec := isDec_iff.mp hc
  rw [unDec, UInt32.toNat_sub, UInt16.toNat_toUInt32]
  change (4294967296 - 48 + c.toNat) % 4294967296 = _
  omega

/-- The number that digits are. -/
def value (cs : List UInt16) : ℕ := cs.foldl (fun v c => 10 * v + (c.toNat - 0x30)) 0

/-- Another digit. -/
theorem value_concat (cs : List UInt16) (c : UInt16) :
    value (cs ++ [c]) = 10 * value cs + (c.toNat - 0x30) := by
  rw [value, List.foldl_append]
  rfl

/-- A number has less digits than the powers of ten above it. -/
theorem value_lt (hdec : ∀ c ∈ cs, isDec c = true) : value cs < 10 ^ cs.length := by
  induction cs using List.reverseRecOn with
  | nil => exact Nat.one_pos
  | append_singleton cs c ih =>
    have hc := isDec_iff.mp (hdec c (List.mem_append_right cs List.mem_cons_self))
    have hlt := ih fun d hd => hdec d (List.mem_append_left [c] hd)
    rw [value_concat, List.length_append, List.length_singleton, Nat.pow_succ]
    omega

/-- Digits without leading zeros. -/
structure IsCanonical (cs : List UInt16) : Prop where
  ne_nil : cs ≠ []
  isDec : ∀ c ∈ cs, isDec c = true
  head : cs.head? = some 0x30 → cs.length = 1

/-- A number of one digit. -/
theorem decimal_of_lt (hn : n < 10) : decimal n = [UInt16.ofNat (0x30 + n)] := by
  rw [decimal, Nat.log_of_lt hn, lastDigits, lastDigits, Nat.mod_eq_of_lt hn]
  rfl

/-- A number of more digits. -/
theorem decimal_of_le (hn : 10 ≤ n) :
    decimal n = decimal (n / 10) ++ [UInt16.ofNat (0x30 + n % 10)] := by
  have hlog : Nat.log 10 n = Nat.log 10 (n / 10) + 1 := by
    rw [Nat.log_div_base, Nat.sub_add_cancel]
    exact Nat.log_pos (by decide) hn
  rw [decimal, lastDigits, hlog]
  rfl

/-- The unit of a digit is one. -/
theorem isDec_digit (hn : n < 10) : isDec (UInt16.ofNat (0x30 + n)) = true := by
  rw [isDec_iff, toNat_digit hn]
  omega

/-- A number in decimal is what it is, and has no leading zeros. -/
theorem isCanonical_decimal (n : ℕ) : IsCanonical (decimal n) ∧ value (decimal n) = n := by
  induction n using Nat.strongRecOn with
  | ind n ih =>
    by_cases hn : n < 10
    · rw [decimal_of_lt hn]
      refine ⟨⟨List.cons_ne_nil _ _, ?_, fun _ => rfl⟩, ?_⟩
      · intro c hc
        rw [List.mem_singleton.mp hc]
        exact isDec_digit hn
      · change 10 * 0 + ((UInt16.ofNat (0x30 + n)).toNat - 0x30) = n
        rw [toNat_digit hn]
        omega
    · have hmod : n % 10 < 10 := Nat.mod_lt n (by decide)
      obtain ⟨hcanonical, hvalue⟩ := ih (n / 10) (by omega)
      rw [decimal_of_le (by omega)]
      refine ⟨⟨List.append_ne_nil_of_right_ne_nil _ (List.cons_ne_nil _ _), ?_, ?_⟩, ?_⟩
      · intro c hc
        rcases List.mem_append.mp hc with hc | hc
        · exact hcanonical.isDec c hc
        · rw [List.mem_singleton.mp hc]
          exact isDec_digit hmod
      · intro hhead
        rw [List.head?_append_of_ne_nil _ hcanonical.ne_nil] at hhead
        have hone := hcanonical.head hhead
        obtain ⟨rest, hrest⟩ := List.head?_eq_some_iff.mp hhead
        rw [hrest, List.length_cons, Nat.add_eq_right, List.length_eq_zero_iff] at hone
        rw [hrest, hone] at hvalue
        change 10 * 0 + ((0x30 : UInt16).toNat - 0x30) = n / 10 at hvalue
        change 0 = n / 10 at hvalue
        omega
      · rw [value_concat, hvalue, toNat_digit hmod]
        omega

/-- Digits without leading zeros are a number in decimal. -/
theorem IsCanonical.decimal_value (h : IsCanonical cs) : decimal (value cs) = cs := by
  induction cs using List.reverseRecOn with
  | nil => exact absurd rfl h.ne_nil
  | append_singleton cs c ih =>
    have hc := isDec_iff.mp (h.isDec c (List.mem_append_right cs List.mem_cons_self))
    have hunit : UInt16.ofNat (0x30 + (c.toNat - 0x30)) = c := by
      rw [Nat.add_sub_cancel' hc.1, UInt16.ofNat_toNat]
    rw [value_concat]
    by_cases hcs : cs = []
    · rw [hcs, decimal_of_lt (show 10 * value [] + (c.toNat - 0x30) < 10 by change 10 * 0 + _ < _; omega)]
      change [UInt16.ofNat (0x30 + (10 * 0 + (c.toNat - 0x30)))] = [c]
      rw [Nat.mul_zero, Nat.zero_add, hunit]
    · have hhead : cs.head? ≠ some 0x30 := by
        intro hhead
        have hone := h.head (by rw [List.head?_append_of_ne_nil _ hcs, hhead])
        rw [List.length_append, List.length_singleton, Nat.add_eq_right] at hone
        exact hcs (List.length_eq_zero_iff.mp hone)
      have hrest := ih ⟨hcs, fun d hd => h.isDec d (List.mem_append_left [c] hd),
        fun heq => absurd heq hhead⟩
      have hpos : value cs ≠ 0 := by
        intro hzero
        rw [hzero] at hrest
        rw [← hrest] at hhead
        exact hhead rfl
      rw [decimal_of_le (by omega), show (10 * value cs + (c.toNat - 0x30)) / 10 = value cs by omega,
        show (10 * value cs + (c.toNat - 0x30)) % 10 = c.toNat - 0x30 by omega, hrest, hunit]

/-- The decimal form of a number. -/
theorem eq_decimal_iff : cs = decimal n ↔ IsCanonical cs ∧ value cs = n := by
  constructor
  · rintro rfl
    exact isCanonical_decimal n
  · rintro ⟨h, rfl⟩
    exact h.decimal_value.symm

/-! ## Reading -/

/-- Reading digits is reading the number that they are, if it does not wrap around. -/
theorem toNat_index_foldl (hdec : ∀ c ∈ ch :: s, isDec c = true) :
    (s.foldl Digits.push ⟨0, 0, unDec ch⟩).index.toNat = value (ch :: s) % 2 ^ 32 := by
  induction s using List.reverseRecOn with
  | nil =>
    have hch := hdec ch List.mem_cons_self
    change (unDec ch).toNat = (10 * 0 + (ch.toNat - 0x30)) % 2 ^ 32
    rw [toNat_unDec hch]
    have hbounds := isDec_iff.mp hch
    omega
  | append_singleton s c ih =>
    have hc := hdec c (List.mem_cons_of_mem ch (List.mem_append_right s List.mem_cons_self))
    have hs := ih fun d hd => hdec d (by
      rcases List.mem_cons.mp hd with rfl | hd
      · exact List.mem_cons_self
      · exact List.mem_cons_of_mem ch (List.mem_append_left [c] hd))
    rw [List.foldl_append, ← List.cons_append, value_concat]
    change (10 * (s.foldl Digits.push ⟨0, 0, unDec ch⟩).index + unDec c).toNat = _
    rw [UInt32.toNat_add, UInt32.toNat_mul, hs, toNat_unDec hc]
    change (10 * _ % 2 ^ 32 + _) % 2 ^ 32 = _
    omega

/-- At most ten digits are at most a maximum if the last one and the number before it say so. -/
theorem isAtMost_iff (hdec : ∀ c ∈ ch :: s, isDec c = true) (hlength : (ch :: s).length ≤ 10)
    {max : UInt32} (hmax : 10 ≤ max.toNat) :
    (s.foldl Digits.push ⟨0, 0, unDec ch⟩).isAtMost max = true ↔ value (ch :: s) ≤ max.toNat := by
  have hdiv : (max / 10).toNat = max.toNat / 10 := UInt32.toNat_div max 10
  have hmod : (max % 10).toNat = max.toNat % 10 := UInt32.toNat_mod max 10
  rw [Digits.isAtMost, Bool.or_eq_true, Bool.and_eq_true, decide_eq_true_eq, decide_eq_true_eq,
    beq_iff_eq, UInt32.lt_iff_toNat_lt, UInt32.le_iff_toNat_le, ← UInt32.toNat_inj, hdiv, hmod]
  induction s using List.reverseRecOn with
  | nil =>
    have hch := isDec_iff.mp (hdec ch List.mem_cons_self)
    change 0 < max.toNat / 10 ∨ 0 = max.toNat / 10 ∧ _ ↔ 10 * 0 + (ch.toNat - 0x30) ≤ max.toNat
    omega
  | append_singleton s c _ =>
    have hc := hdec c (List.mem_cons_of_mem ch (List.mem_append_right s List.mem_cons_self))
    have hbounds := isDec_iff.mp hc
    have hs (d : UInt16) (hd : d ∈ ch :: s) : isDec d = true := hdec d (by
      rcases List.mem_cons.mp hd with rfl | hd
      · exact List.mem_cons_self
      · exact List.mem_cons_of_mem ch (List.mem_append_left [c] hd))
    have hlt := value_lt hs
    have hpow : 10 ^ (ch :: s).length ≤ 10 ^ 9 := by
      apply Nat.pow_le_pow_right (by decide)
      rw [← List.cons_append, List.length_append, List.length_singleton] at hlength
      omega
    have hprevious := toNat_index_foldl hs
    rw [Nat.mod_eq_of_lt (by omega)] at hprevious
    rw [List.foldl_append, ← List.cons_append, value_concat, ← hprevious]
    change (s.foldl Digits.push ⟨0, 0, unDec ch⟩).index.toNat < max.toNat / 10 ∨
      (s.foldl Digits.push ⟨0, 0, unDec ch⟩).index.toNat = max.toNat / 10 ∧
        (unDec c).toNat ≤ max.toNat % 10 ↔ _
    rw [toNat_unDec hc]
    omega

/-! ## What is recognised -/

/-- The index up to a maximum that a string is, or none. -/
def IsIndexUpTo (max : UInt32) (cs : List UInt16) (r : Option UInt32) : Prop :=
  ∀ n, r = some n ↔ n ≤ max ∧ cs = decimal n.toNat

/-- A number of 32 bits has at most ten digits. -/
theorem length_decimal_le (n : UInt32) : (decimal n.toNat).length ≤ 10 := by
  have hlastDigits (k m : ℕ) : (lastDigits k m).length = k := by
    induction k generalizing m with
    | zero => rfl
    | succ k ih => rw [lastDigits, List.length_append, ih, List.length_singleton]
  have hlog : Nat.log 10 n.toNat < 10 := Nat.log_lt_of_lt_pow' (by decide) (by
    have hlt := n.toNat_lt
    omega)
  rw [decimal, hlastDigits]
  omega

/-- What is no number in decimal is no index. -/
theorem isIndexUpTo_none (max : UInt32) (h : ¬ (IsCanonical cs ∧ cs.length ≤ 10)) :
    IsIndexUpTo max cs none := by
  intro n
  constructor
  · exact nofun
  · rintro ⟨_, rfl⟩
    exact absurd ⟨(isCanonical_decimal n.toNat).1, length_decimal_le n⟩ h

/-- A number in decimal of at most ten digits is an index if it is at most the maximum. -/
theorem isIndexUpTo_foldl (h : IsCanonical (ch :: s)) (hlength : (ch :: s).length ≤ 10) {max : UInt32}
    (hmax : 10 ≤ max.toNat) :
    IsIndexUpTo max (ch :: s)
      (if (s.foldl Digits.push ⟨0, 0, unDec ch⟩).isAtMost max then
        some (s.foldl Digits.push ⟨0, 0, unDec ch⟩).index else none) := by
  intro n
  have hindex := toNat_index_foldl h.isDec
  have hatMost := isAtMost_iff h.isDec hlength hmax
  have hlt := max.toNat_lt
  rw [eq_decimal_iff, UInt32.le_iff_toNat_le]
  by_cases hvalue : value (ch :: s) ≤ max.toNat
  · rw [Nat.mod_eq_of_lt (by omega)] at hindex
    rw [if_pos (hatMost.mpr hvalue), Option.some_inj, ← UInt32.toNat_inj, hindex]
    constructor
    · intro heq
      exact ⟨heq ▸ hvalue, h, heq⟩
    · rintro ⟨_, _, heq⟩
      exact heq
  · rw [if_neg (fun htrue => hvalue (hatMost.mp htrue))]
    constructor
    · exact nofun
    · rintro ⟨hle, _, heq⟩
      exact absurd (heq ▸ hle) hvalue

/-- The loop reads all units, or stops at one that is no digit. -/
theorem arrayIndexLoop_eq (s : List UInt16) (d : Digits) :
    arrayIndexLoop s.length s d =
      some (if s.all isDec then some (s.foldl Digits.push d) else none) := by
  induction s generalizing d with
  | nil => rfl
  | cons c s ih =>
    rw [List.length_cons, arrayIndexLoop, List.all_cons]
    cases hc : isDec c with
    | false => rfl
    | true => exact ih (d.push c)

/-- The loop stops at the first unit that is no digit, at the terminator at the latest. -/
theorem indexLoop_eq (s : List UInt16) (d : Digits) :
    indexLoop (s ++ [0]) d = some (s.dropWhile isDec ++ [0], (s.takeWhile isDec).foldl Digits.push d) := by
  induction s generalizing d with
  | nil => rfl
  | cons c s ih =>
    rw [List.cons_append, indexLoop, List.dropWhile_cons, List.takeWhile_cons]
    by_cases hc : isDec c = true
    · rw [if_pos hc, if_pos hc, if_pos hc, ih]
      rfl
    · rw [if_neg hc, if_neg hc, if_neg hc]
      rfl

/-- The first unit of a string. -/
theorem unDec_eq_zero (hch : isDec ch = true) : unDec ch = 0 ↔ ch = 0x30 := by
  have hbounds := isDec_iff.mp hch
  rw [← UInt32.toNat_inj, toNat_unDec hch, ← UInt16.toNat_inj]
  change ch.toNat - 0x30 = 0 ↔ ch.toNat = 0x30
  omega

/-- The units of a string without leading zeros. -/
theorem isCanonical_cons (hch : isDec ch = true) (hs : s.all isDec = true)
    (hzero : ch = 0x30 → s = []) : IsCanonical (ch :: s) := by
  refine ⟨List.cons_ne_nil ch s, ?_, ?_⟩
  · rintro c hc
    rcases List.mem_cons.mp hc with rfl | hc
    · exact hch
    · exact List.all_eq_true.mp hs c hc
  · intro hhead
    rw [hzero (Option.some_inj.mp hhead)]
    rfl

/-- `StringIsArrayIndex` finds the index of an array that a string is. -/
theorem stringIsArrayIndex_isIndexUpTo (str : JSLinearString) :
    ∃ r, stringIsArrayIndex str = some r ∧ IsIndexUpTo MAX_ARRAY_INDEX str.chars r := by
  have hlength : (UInt32.ofNat str.chars.length).toNat = str.chars.length := by
    apply UInt32.toNat_ofNat_of_lt'
    exact lt_of_le_of_lt str.length_le (by decide)
  rw [stringIsArrayIndex]
  cases hchars : str.chars with
  | nil => exact ⟨none, rfl, isIndexUpTo_none _ fun h => h.1.ne_nil rfl⟩
  | cons ch s =>
    rw [hchars] at hlength
    have hnonzero : (UInt32.ofNat (ch :: s).length == 0) = false := by
      rw [beq_eq_false_iff_ne, ne_eq, ← UInt32.toNat_inj, hlength]
      exact Nat.succ_ne_zero s.length
    have hlong : UInt32.ofNat (ch :: s).length > maxArrayIndexLength ↔ ¬ (ch :: s).length ≤ 10 := by
      rw [gt_iff_lt, UInt32.lt_iff_toNat_lt, hlength, not_le]
      rfl
    simp only [hnonzero, Bool.false_or, decide_eq_true_eq, hlong]
    by_cases hle : (ch :: s).length ≤ 10
    · rw [if_neg (not_not.mpr hle)]
      cases hch : isDec ch with
      | false =>
        refine ⟨none, rfl, isIndexUpTo_none _ fun h => ?_⟩
        have hdec := h.1.isDec ch List.mem_cons_self
        rw [hch] at hdec
        cases hdec
      | true =>
        have hcount : (UInt32.ofNat (ch :: s).length).toNat - 1 = s.length := by
          rw [hlength, List.length_cons, Nat.add_sub_cancel]
        have hone : (UInt32.ofNat (ch :: s).length != 1) = true ↔ s ≠ [] := by
          rw [bne_iff_ne, ne_eq, ← UInt32.toNat_inj, hlength, List.length_cons]
          change ¬ s.length + 1 = 1 ↔ _
          rw [Nat.add_eq_right, List.length_eq_zero_iff]
        rw [Bool.not_true, if_neg Bool.false_ne_true]
        by_cases hzero : ch = 0x30 ∧ s ≠ []
        · rw [if_pos (by rw [Bool.and_eq_true, beq_iff_eq, unDec_eq_zero hch, hone]; exact hzero)]
          refine ⟨none, rfl, isIndexUpTo_none _ fun h => hzero.2 ?_⟩
          have hhead := h.1.head (by rw [hzero.1]; rfl)
          rw [List.length_cons, Nat.add_eq_right, List.length_eq_zero_iff] at hhead
          exact hhead
        · rw [if_neg (by rw [Bool.and_eq_true, beq_iff_eq, unDec_eq_zero hch, hone]; exact hzero),
            hcount, arrayIndexLoop_eq]
          cases hs : s.all isDec with
          | false =>
            refine ⟨none, rfl, isIndexUpTo_none _ fun h => ?_⟩
            rw [List.all_eq_true.mpr fun c hc => h.1.isDec c (List.mem_cons_of_mem ch hc)] at hs
            cases hs
          | true =>
            have hcanonical := isCanonical_cons hch hs fun heq => not_not.mp fun hne => hzero ⟨heq, hne⟩
            exact ⟨_, rfl, isIndexUpTo_foldl hcanonical hle (by decide)⟩
    · rw [if_pos hle]
      exact ⟨none, rfl, isIndexUpTo_none _ fun h => hle h.2⟩

/-- `isIndexSlow` finds the index that a string is. -/
theorem isIndexSlow_isIndexUpTo (str : JSLinearString) :
    ∃ r, isIndexSlow str = some r ∧ IsIndexUpTo 0xFFFFFFFF str.chars r := by
  rw [isIndexSlow]
  cases hchars : str.chars with
  | nil => exact ⟨none, rfl, isIndexUpTo_none _ fun h => h.1.ne_nil rfl⟩
  | cons ch s =>
    rw [List.cons_append]
    dsimp only
    cases hch : isDec ch with
    | false =>
      refine ⟨none, rfl, isIndexUpTo_none _ fun h => ?_⟩
      have hdec := h.1.isDec ch List.mem_cons_self
      rw [hch] at hdec
      cases hdec
    | true =>
      rw [Bool.not_true, if_neg Bool.false_ne_true]
      by_cases hle : (ch :: s).length ≤ 10
      · rw [if_neg (show ¬ (ch :: s).length > UINT32_CHAR_BUFFER_LENGTH from not_lt.mpr hle)]
        by_cases hzero : ch = 0x30
        · rw [if_neg (by rw [bne_iff_ne, not_not]; exact (unDec_eq_zero hch).mpr hzero)]
          cases s with
          | nil =>
            exact ⟨_, rfl, isIndexUpTo_foldl (isCanonical_cons hch rfl fun _ => rfl) hle (by decide)⟩
          | cons c s =>
            refine ⟨none, ?_, isIndexUpTo_none _ fun h => ?_⟩
            · exact if_pos (by rw [List.length_append, List.length_cons, List.length_singleton]; omega)
            · have hone := h.1.head (by rw [hzero]; rfl)
              cases hone
        · rw [if_pos (by rw [bne_iff_ne]; exact fun heq => hzero ((unDec_eq_zero hch).mp heq)),
            indexLoop_eq]
          cases hs : s.all isDec with
          | false =>
            refine ⟨none, if_pos ?_, isIndexUpTo_none _ fun h => ?_⟩
            · rw [List.length_append, List.length_singleton, ne_eq, Nat.add_eq_right,
                List.length_eq_zero_iff, List.dropWhile_eq_nil_iff, ← List.all_eq_true, hs]
              exact Bool.false_ne_true
            · rw [List.all_eq_true.mpr fun c hc => h.1.isDec c (List.mem_cons_of_mem ch hc)] at hs
              cases hs
          | true =>
            have hdrop : s.dropWhile isDec = [] := List.dropWhile_eq_nil_iff.mpr (List.all_eq_true.mp hs)
            have htake : s.takeWhile isDec = s := List.takeWhile_eq_self_iff.mpr (List.all_eq_true.mp hs)
            rw [hdrop, htake]
            have hcanonical := isCanonical_cons hch hs fun heq => absurd heq hzero
            exact ⟨_, rfl, isIndexUpTo_foldl hcanonical hle (by decide)⟩
      · rw [if_pos (show (ch :: s).length > UINT32_CHAR_BUFFER_LENGTH from not_le.mp hle)]
        exact ⟨none, rfl, isIndexUpTo_none _ fun h => hle h.2⟩

/-- Index strings are recognised exactly, and the two functions differ for one string alone. Neither
reads past the end. -/
theorem index_strings (str : JSLinearString) :
    ∃ r r', stringIsArrayIndex str = some r ∧ isIndexSlow str = some r' ∧
      (∀ n : UInt32, r = some n ↔ n ≤ MAX_ARRAY_INDEX ∧ str.chars = decimal n.toNat) ∧
      (∀ n : UInt32, r' = some n ↔ str.chars = decimal n.toNat) ∧
      (r = r' ↔ str.chars ≠ decimal 4294967295) := by
  obtain ⟨r, hr, hindex⟩ := stringIsArrayIndex_isIndexUpTo str
  obtain ⟨r', hr', hindex'⟩ := isIndexSlow_isIndexUpTo str
  have hle (n : UInt32) : n ≤ 0xFFFFFFFF := by
    have hlt := n.toNat_lt
    rw [UInt32.le_iff_toNat_le]
    exact Nat.le_of_lt_succ hlt
  have hindexes (n : UInt32) : r' = some n ↔ str.chars = decimal n.toNat := by
    rw [hindex' n, and_iff_right (hle n)]
  refine ⟨r, r', hr, hr', hindex, hindexes, ?_⟩
  constructor
  · rintro rfl heq
    have hmax := (hindex _).mp ((hindexes 4294967295).mpr heq)
    exact absurd hmax.1 (by decide)
  · intro hne
    apply Option.ext
    intro n
    rw [hindex n, hindexes n, and_iff_right_iff_imp]
    intro heq
    have hn : n.toNat ≠ 4294967295 := fun hn => hne (hn ▸ heq)
    have hlt := n.toNat_lt
    rw [UInt32.le_iff_toNat_le]
    change n.toNat ≤ 4294967294
    omega

end SpiderMonkey.Vm.IndexStrings
