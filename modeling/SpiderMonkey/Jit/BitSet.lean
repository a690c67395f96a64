import Mathlib.Data.Nat.Bitwise
import Mathlib.Algebra.Order.Group.Nat

/-!
# Bit sets

Sets of small numbers as words of 32 bits. A set's numbers are listed here word after word, and
within a word from the highest bit down; this is the order in which safepoints list slots.
-/

namespace SpiderMonkey.Jit

/-- A word without its highest bit has the same bits but for this one. -/
theorem testBit_clearBit (w : UInt32) {bit : ℕ} (hbit : bit < 32) (j : ℕ) :
    (w &&& ~~~(1 <<< UInt32.ofNat bit)).toNat.testBit j = (w.toNat.testBit j && decide (bit ≠ j)) := by
  have hlt : w.toNat < 2 ^ 32 := w.toNat_lt
  have hone : ((1 : UInt32) <<< UInt32.ofNat bit).toNat = 2 ^ bit := by
    have hpow : 2 ^ bit < 2 ^ 32 := Nat.pow_lt_pow_right (by decide) hbit
    have hmod : (UInt32.ofNat bit).toNat % 32 = bit := by
      rw [UInt32.toNat_ofNat']
      omega
    rw [UInt32.toNat_shiftLeft, hmod]
    change 1 <<< bit % 2 ^ 32 = 2 ^ bit
    rw [Nat.one_shiftLeft, Nat.mod_eq_of_lt hpow]
  have hnot : (~~~((1 : UInt32) <<< UInt32.ofNat bit)).toNat = 2 ^ 32 - (2 ^ bit + 1) := by
    rw [UInt32.toNat_not, hone]
    change 2 ^ 32 - 1 - 2 ^ bit = _
    omega
  rw [UInt32.toNat_and, Nat.testBit_and, hnot,
    Nat.testBit_two_pow_sub_succ (Nat.pow_lt_pow_right (by decide) hbit), Nat.testBit_two_pow]
  by_cases hj : j < 32
  · simp [hj]
  · have hhigh : w.toNat.testBit j = false :=
      Nat.testBit_lt_two_pow (lt_of_lt_of_le hlt (Nat.pow_le_pow_right (by decide) (by omega)))
    simp [hhigh]

/-- The bits of a word below a bound, from the highest down. -/
def bitsBelow (w : ℕ) : ℕ → List ℕ
  | 0 => []
  | n + 1 => if w.testBit n then n :: bitsBelow w n else bitsBelow w n

/-- The bits listed are those that are set. -/
theorem mem_bitsBelow {w n j : ℕ} : j ∈ bitsBelow w n ↔ j < n ∧ w.testBit j = true := by
  induction n with
  | zero => simp [bitsBelow]
  | succ n ih =>
    rw [bitsBelow]
    by_cases hn : w.testBit n
    · rw [if_pos hn, List.mem_cons, ih]
      constructor
      · rintro (rfl | ⟨hlt, hj⟩)
        · exact ⟨Nat.lt_succ_self j, hn⟩
        · exact ⟨Nat.lt_succ_of_lt hlt, hj⟩
      · rintro ⟨hlt, hj⟩
        rcases Nat.lt_succ_iff_lt_or_eq.mp hlt with hlt | rfl
        · exact Or.inr ⟨hlt, hj⟩
        · exact Or.inl rfl
    · rw [if_neg hn, ih]
      constructor
      · exact fun ⟨hlt, hj⟩ => ⟨Nat.lt_succ_of_lt hlt, hj⟩
      · rintro ⟨hlt, hj⟩
        rcases Nat.lt_succ_iff_lt_or_eq.mp hlt with hlt | rfl
        · exact ⟨hlt, hj⟩
        · exact absurd hj hn

/-- No bit is listed twice. -/
theorem nodup_bitsBelow (w n : ℕ) : (bitsBelow w n).Nodup := by
  induction n with
  | zero => exact List.nodup_nil
  | succ n ih =>
    rw [bitsBelow]
    by_cases hn : w.testBit n
    · rw [if_pos hn]
      exact List.nodup_cons.mpr ⟨fun h => lt_irrefl n (mem_bitsBelow.mp h).1, ih⟩
    · rwa [if_neg hn]

/-- There are at most as many bits as the bound. -/
theorem length_bitsBelow_le (w n : ℕ) : (bitsBelow w n).length ≤ n := by
  induction n with
  | zero => exact Nat.le_refl 0
  | succ n ih =>
    rw [bitsBelow]
    split
    · exact Nat.succ_le_succ ih
    · exact Nat.le_succ_of_le ih

/-- The list depends on the bits only. -/
theorem bitsBelow_congr {w w' n : ℕ} (h : ∀ j, j < n → w.testBit j = w'.testBit j) :
    bitsBelow w n = bitsBelow w' n := by
  induction n with
  | zero => rfl
  | succ n ih =>
    rw [bitsBelow, bitsBelow, h n (Nat.lt_succ_self n), ih fun j hj => h j (Nat.lt_succ_of_lt hj)]

/-- No bits are listed of an empty word. -/
theorem bitsBelow_zero (n : ℕ) : bitsBelow 0 n = [] :=
  List.eq_nil_iff_forall_not_mem.mpr fun j hj => by simpa using (mem_bitsBelow.mp hj).2

/-- The highest bit comes first. -/
theorem bitsBelow_eq_cons {w n : ℕ} (hw : w ≠ 0) (hlt : w < 2 ^ n) :
    bitsBelow w n = w.log2 :: bitsBelow w w.log2 := by
  induction n with
  | zero => exact absurd (Nat.lt_one_iff.mp hlt) hw
  | succ n ih =>
    rw [bitsBelow]
    by_cases hsmall : w < 2 ^ n
    · rw [Nat.testBit_lt_two_pow hsmall, if_neg Bool.false_ne_true, ih hsmall]
    · have hlog : w.log2 = n := (Nat.log2_eq_iff hw).mpr ⟨Nat.le_of_not_lt hsmall, hlt⟩
      have hbit := Nat.testBit_log2 hw
      rw [hlog] at hbit
      rw [hlog, if_pos hbit]

/-- A bound above a word's bits is of no consequence. -/
theorem bitsBelow_of_lt {w m n : ℕ} (hlt : w < 2 ^ n) (h : n ≤ m) : bitsBelow w m = bitsBelow w n := by
  induction m, h using Nat.le_induction with
  | base => rfl
  | succ m hle ih =>
    have hbit : w.testBit m = false :=
      Nat.testBit_lt_two_pow (lt_of_lt_of_le hlt (Nat.pow_le_pow_right (by decide) hle))
    rw [bitsBelow, hbit, if_neg Bool.false_ne_true, ih]

/-- Clearing the highest bit takes it off the list. -/
theorem bitsBelow_clearBit {w : UInt32} (hw : w ≠ 0) :
    bitsBelow w.toNat 32 =
      w.toNat.log2 :: bitsBelow (w &&& ~~~(1 <<< UInt32.ofNat w.toNat.log2)).toNat 32 := by
  have hne : w.toNat ≠ 0 := fun h => hw (UInt32.toNat_inj.mp h)
  have hlog : w.toNat.log2 < 32 := (Nat.log2_lt hne).mpr w.toNat_lt
  rw [bitsBelow_eq_cons hne w.toNat_lt]
  congr 1
  generalize hw' : w &&& ~~~(1 <<< UInt32.ofNat w.toNat.log2) = w'
  have hbit (j : ℕ) : w'.toNat.testBit j = (w.toNat.testBit j && decide (w.toNat.log2 ≠ j)) := by
    rw [← hw']
    exact testBit_clearBit w hlog j
  have hlt : w'.toNat < 2 ^ w.toNat.log2 := by
    apply Nat.lt_pow_two_of_testBit
    intro j hj
    rw [hbit]
    by_cases heq : w.toNat.log2 = j
    · simp [heq]
    · have hhigh : w.toNat.testBit j = false := by
        apply Nat.testBit_lt_two_pow
        exact lt_of_lt_of_le Nat.lt_log2_self (Nat.pow_le_pow_right (by decide) (by omega))
      rw [hhigh, Bool.false_and]
  have hlow : bitsBelow w.toNat w.toNat.log2 = bitsBelow w'.toNat w.toNat.log2 := by
    apply bitsBelow_congr
    intro j hj
    rw [hbit, decide_eq_true (Nat.ne_of_gt hj), Bool.and_true]
  rw [hlow]
  exact (bitsBelow_of_lt hlt (Nat.le_of_lt hlog)).symm

/-- Bits of a word. -/
def bitsPerWord : ℕ := 32

/-- The number of words that hold a number of bits. -/
def rawLengthForBits (bits : ℕ) : ℕ := (bits + bitsPerWord - 1) / bitsPerWord

/-- A set of numbers below a bound. -/
structure BitSet (numBits : ℕ) where
  bits : List UInt32
  length_eq : bits.length = rawLengthForBits numBits

namespace BitSet

variable {numBits : ℕ}

/-- A number's bit in its word. -/
def bitForValue (value : UInt32) : UInt32 := 1 <<< (value % 32)

/-- A number's word. -/
def wordForValue (value : UInt32) : UInt32 := value / 32

/-- The empty set. -/
def clear (numBits : ℕ) : BitSet numBits :=
  ⟨List.replicate (rawLengthForBits numBits) 0, List.length_replicate⟩

/-- Put a number in a set. -/
def insert (set : BitSet numBits) (value : UInt32) : BitSet numBits where
  bits := set.bits.modify (wordForValue value).toNat (· ||| bitForValue value)
  length_eq := by rw [List.length_modify, set.length_eq]

/-- Whether a number is in a set of words. -/
def Has (words : List UInt32) (v : ℕ) : Prop :=
  (words.getD (v / bitsPerWord) 0).toNat.testBit (v % bitsPerWord) = true

/-- Nothing is in the empty set. -/
theorem not_has_clear (v : ℕ) : ¬ Has (clear numBits).bits v := by
  have hword : (List.replicate (rawLengthForBits numBits) (0 : UInt32)).getD (v / bitsPerWord) 0 = 0 := by
    rw [List.getD_eq_getElem?_getD, List.getElem?_replicate]
    split <;> rfl
  rw [Has, clear, hword]
  simp

/-- A number below the bound has a word. -/
theorem wordForValue_lt (set : BitSet numBits) {value : UInt32} (hvalue : value.toNat < numBits) :
    (wordForValue value).toNat < set.bits.length := by
  have hword : (wordForValue value).toNat = value.toNat / 32 := UInt32.toNat_div value 32
  rw [hword, set.length_eq, rawLengthForBits, bitsPerWord]
  omega

/-- What is in a set after a number is put in it. -/
theorem has_insert (set : BitSet numBits) {value : UInt32} (hvalue : value.toNat < numBits) (v : ℕ) :
    Has (set.insert value).bits v ↔ v = value.toNat ∨ Has set.bits v := by
  have hlt := set.wordForValue_lt hvalue
  have hword : (wordForValue value).toNat = value.toNat / 32 := UInt32.toNat_div value 32
  have hbit : (bitForValue value).toNat = 2 ^ (value.toNat % 32) := by
    have hmod : value.toNat % 32 < 32 := Nat.mod_lt _ (by decide)
    have hpow : 2 ^ (value.toNat % 32) < 2 ^ 32 := Nat.pow_lt_pow_right (by decide) hmod
    have hshift : (value % 32).toNat % 32 = value.toNat % 32 := by
      rw [UInt32.toNat_mod]
      exact Nat.mod_mod _ 32
    rw [bitForValue, UInt32.toNat_shiftLeft, hshift]
    change 1 <<< (value.toNat % 32) % 2 ^ 32 = _
    rw [Nat.one_shiftLeft, Nat.mod_eq_of_lt hpow]
  have hget : (set.insert value).bits.getD (v / 32) 0 =
      if value.toNat / 32 = v / 32 then set.bits.getD (v / 32) 0 ||| bitForValue value
      else set.bits.getD (v / 32) 0 := by
    rw [hword] at hlt
    rw [List.getD_eq_getElem?_getD, List.getD_eq_getElem?_getD]
    change (set.bits.modify (wordForValue value).toNat _)[v / 32]?.getD 0 = _
    rw [hword, List.getElem?_modify]
    by_cases hsame : value.toNat / 32 = v / 32
    · rw [← hsame, List.getElem?_eq_getElem hlt]
      simp
    · simp [hsame]
  rw [Has, Has, bitsPerWord, hget]
  by_cases hsame : value.toNat / 32 = v / 32
  · have heq : value.toNat % 32 = v % 32 ↔ v = value.toNat := by omega
    rw [if_pos hsame, UInt32.toNat_or, Nat.testBit_or, Bool.or_eq_true, hbit, Nat.testBit_two_pow,
      decide_eq_true_iff, heq, or_comm]
  · have hne : v ≠ value.toNat := fun h => hsame (by rw [h])
    rw [if_neg hsame, or_iff_right hne]

/-- The numbers in words, the first of which has this index. -/
def elementsFrom (i : ℕ) : List UInt32 → List ℕ
  | [] => []
  | w :: ws => (bitsBelow w.toNat bitsPerWord).map (bitsPerWord * i + ·) ++ elementsFrom (i + 1) ws

/-- The numbers listed are those in the words. -/
theorem mem_elementsFrom (words : List UInt32) (i v : ℕ) :
    v ∈ elementsFrom i words ↔ bitsPerWord * i ≤ v ∧ Has words (v - bitsPerWord * i) := by
  induction words generalizing i with
  | nil =>
    constructor
    · intro h
      cases h
    · rintro ⟨-, h⟩
      simp [Has] at h
  | cons w ws ih =>
    rw [elementsFrom, List.mem_append, List.mem_map, ih, bitsPerWord]
    by_cases hlow : v < 32 * i
    · constructor
      · rintro (⟨j, -, rfl⟩ | ⟨hle, -⟩)
        · omega
        · omega
      · rintro ⟨hle, -⟩
        omega
    · obtain ⟨d, rfl⟩ := Nat.exists_eq_add_of_le (Nat.le_of_not_lt hlow)
      have hsub : 32 * i + d - 32 * i = d := Nat.add_sub_cancel_left _ _
      rw [hsub]
      by_cases hfirst : d < 32
      · have hdiv : d / 32 = 0 := Nat.div_eq_of_lt hfirst
        have hmod : d % 32 = d := Nat.mod_eq_of_lt hfirst
        have hhas : Has (w :: ws) d ↔ w.toNat.testBit d = true := by
          rw [Has, bitsPerWord, hdiv, hmod]
          rfl
        rw [hhas]
        constructor
        · rintro (⟨j, hj, heq⟩ | ⟨hle, -⟩)
          · obtain rfl : j = d := by omega
            exact ⟨Nat.le_add_right _ _, (mem_bitsBelow.mp hj).2⟩
          · omega
        · exact fun ⟨_, hbit⟩ => Or.inl ⟨d, mem_bitsBelow.mpr ⟨hfirst, hbit⟩, rfl⟩
      · have hrest : 32 * i + d - 32 * (i + 1) = d - 32 := by omega
        have hhas : Has (w :: ws) d ↔ Has ws (d - 32) := by
          obtain ⟨e, rfl⟩ := Nat.exists_eq_add_of_le (Nat.le_of_not_lt hfirst)
          have hdiv : (32 + e) / 32 = e / 32 + 1 := by omega
          have hmod : (32 + e) % 32 = e % 32 := by omega
          rw [Has, Has, bitsPerWord, hdiv, hmod, Nat.add_sub_cancel_left, List.getD_cons_succ]
        rw [hrest, hhas]
        constructor
        · rintro (⟨j, hj, heq⟩ | ⟨-, hbit⟩)
          · have hlt := (mem_bitsBelow.mp hj).1
            omega
          · exact ⟨Nat.le_add_right _ _, hbit⟩
        · exact fun ⟨_, hbit⟩ => Or.inr ⟨by omega, hbit⟩

/-- No number is listed twice. -/
theorem nodup_elementsFrom (words : List UInt32) (i : ℕ) : (elementsFrom i words).Nodup := by
  induction words generalizing i with
  | nil => exact List.nodup_nil
  | cons w ws ih =>
    rw [elementsFrom]
    apply List.nodup_append.mpr
    have hfirst : ((bitsBelow w.toNat bitsPerWord).map (bitsPerWord * i + ·)).Nodup :=
      List.Pairwise.map _ (fun _ _ hne h => hne (Nat.add_left_cancel h)) (nodup_bitsBelow _ _)
    refine ⟨hfirst, ih (i + 1), ?_⟩
    rintro v hfirst _ hrest rfl
    obtain ⟨j, hj, rfl⟩ := List.mem_map.mp hfirst
    have hlt := (mem_bitsBelow.mp hj).1
    have hle := ((mem_elementsFrom ws (i + 1) _).mp hrest).1
    rw [Nat.mul_add, Nat.mul_one] at hle
    exact absurd hlt (Nat.not_lt.mpr (Nat.le_of_add_le_add_left hle))

/-- There are at most as many numbers as bits. -/
theorem length_elementsFrom_le (words : List UInt32) (i : ℕ) :
    (elementsFrom i words).length ≤ bitsPerWord * words.length := by
  induction words generalizing i with
  | nil => exact Nat.zero_le _
  | cons w ws ih =>
    have hfirst := length_bitsBelow_le w.toNat bitsPerWord
    have hrest := ih (i + 1)
    rw [elementsFrom, List.length_append, List.length_map, List.length_cons, Nat.mul_succ]
    omega

end BitSet

end SpiderMonkey.Jit
