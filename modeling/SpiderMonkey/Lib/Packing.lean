import Mathlib

/-!
# Packing digits into words

Digits in a base are packed into words of a fixed number of digits, the least significant first. The
last word is padded with zeros. Unpacking gives the digits and the padding.
-/

namespace SpiderMonkey.Packing

/-- The number that digits stand for. -/
def pack (b : ℕ) : List ℕ → ℕ
  | [] => 0
  | d :: l => d + b * pack b l

/-- The lowest digits of a number. -/
def unpack (b : ℕ) : ℕ → ℕ → List ℕ
  | 0, _ => []
  | n + 1, v => v % b :: unpack b n (v / b)

/-- Words of `k` digits each. -/
def packWords (b k : ℕ) : ℕ → List ℕ → List ℕ
  | 0, _ => []
  | n + 1, l => pack b (l.take k) :: packWords b k n (l.drop k)

/-- The digits of words. -/
def unpackWords (b k : ℕ) (words : List ℕ) : List ℕ := words.flatMap (unpack b k)

variable {b k : ℕ}

/-- The number of digits that are asked for. -/
theorem length_unpack (b n v : ℕ) : (unpack b n v).length = n := by
  induction n generalizing v with
  | zero => rfl
  | succ n ih => rw [unpack, List.length_cons, ih]

/-- Every digit is below the base. -/
theorem lt_of_mem_unpack (hb : 0 < b) {n v d : ℕ} (h : d ∈ unpack b n v) : d < b := by
  induction n generalizing v with
  | zero => cases h
  | succ n ih =>
    rw [unpack, List.mem_cons] at h
    cases h with
    | inl heq => rw [heq]; exact Nat.mod_lt v hb
    | inr hmem => exact ih hmem

/-- Packed digits are below the power of the base. -/
theorem pack_lt {l : List ℕ} (hl : ∀ d ∈ l, d < b) : pack b l < b ^ l.length := by
  induction l with
  | nil => exact Nat.one_pos
  | cons d l ih =>
    have hd : d < b := hl d List.mem_cons_self
    have hrest := ih fun d' hd' => hl d' (List.mem_cons_of_mem d hd')
    have hle : b * (pack b l + 1) ≤ b * b ^ l.length := Nat.mul_le_mul_left b hrest
    rw [Nat.mul_add, Nat.mul_one] at hle
    rw [pack, List.length_cons, Nat.pow_succ, Nat.mul_comm (b ^ l.length)]
    omega

/-- Nothing but zeros is left of zero. -/
theorem unpack_zero (b n : ℕ) : unpack b n 0 = List.replicate n 0 := by
  induction n with
  | zero => rfl
  | succ n ih => rw [unpack, Nat.zero_mod, Nat.zero_div, ih, List.replicate_succ]

/-- Unpacking gives the digits, and zeros. -/
theorem unpack_pack {l : List ℕ} (hl : ∀ d ∈ l, d < b) (n : ℕ) :
    unpack b (l.length + n) (pack b l) = l ++ List.replicate n 0 := by
  induction l with
  | nil => rw [List.length_nil, Nat.zero_add, pack, unpack_zero, List.nil_append]
  | cons d l ih =>
    have hd : d < b := hl d List.mem_cons_self
    have hrest := ih fun d' hd' => hl d' (List.mem_cons_of_mem d hd')
    have hmod : (d + b * pack b l) % b = d := by
      rw [Nat.add_mul_mod_self_left, Nat.mod_eq_of_lt hd]
    have hdiv : (d + b * pack b l) / b = pack b l := by
      rw [Nat.add_mul_div_left d _ (Nat.zero_lt_of_lt hd), Nat.div_eq_of_lt hd, Nat.zero_add]
    rw [List.length_cons, Nat.add_right_comm, unpack, pack, hmod, hdiv, hrest, List.cons_append]

/-- The number of words that are asked for. -/
theorem length_packWords (b k n : ℕ) (l : List ℕ) : (packWords b k n l).length = n := by
  induction n generalizing l with
  | zero => rfl
  | succ n ih => rw [packWords, List.length_cons, ih]

/-- Every word is below the power of the base. -/
theorem lt_of_mem_packWords (hb : 0 < b) {n : ℕ} {l : List ℕ} (hl : ∀ d ∈ l, d < b) {word : ℕ}
    (h : word ∈ packWords b k n l) : word < b ^ k := by
  induction n generalizing l with
  | zero => cases h
  | succ n ih =>
    rw [packWords, List.mem_cons] at h
    cases h with
    | inl heq =>
      have hlt : pack b (l.take k) < b ^ (l.take k).length :=
        pack_lt fun d hd => hl d (List.mem_of_mem_take hd)
      have hle : b ^ (l.take k).length ≤ b ^ k :=
        Nat.pow_le_pow_right hb (List.length_take_le k l)
      rw [heq]
      exact Nat.lt_of_lt_of_le hlt hle
    | inr hmem => exact ih (fun d hd => hl d (List.mem_of_mem_drop hd)) hmem

/-- Unpacking words gives the digits, and zeros. -/
theorem unpackWords_packWords {n : ℕ} {l : List ℕ} (hl : ∀ d ∈ l, d < b) (hle : l.length ≤ n * k) :
    unpackWords b k (packWords b k n l) = l ++ List.replicate (n * k - l.length) 0 := by
  induction n generalizing l with
  | zero =>
    have hnil : l = [] := List.eq_nil_of_length_eq_zero (by omega)
    rw [hnil, Nat.zero_mul]
    rfl
  | succ n ih =>
    have htake : ∀ d ∈ l.take k, d < b := fun d hd => hl d (List.mem_of_mem_take hd)
    have hdrop : ∀ d ∈ l.drop k, d < b := fun d hd => hl d (List.mem_of_mem_drop hd)
    rw [Nat.succ_mul] at hle ⊢
    have hrest := ih hdrop (by rw [List.length_drop]; omega)
    rw [List.length_drop] at hrest
    rw [packWords, unpackWords, List.flatMap_cons]
    change unpack b k (pack b (l.take k)) ++ unpackWords b k _ = _
    rw [hrest]
    by_cases hk : k ≤ l.length
    · have hlength : (l.take k).length = k := by
        rw [List.length_take]
        omega
      have hfirst := unpack_pack htake 0
      rw [hlength, Nat.add_zero, List.replicate_zero, List.append_nil] at hfirst
      rw [hfirst, ← List.append_assoc, List.take_append_drop]
      congr 2
      omega
    · have hlength : l.length < k := Nat.lt_of_not_le hk
      have htake' : l.take k = l := List.take_of_length_le (Nat.le_of_lt hlength)
      have hdrop' : l.drop k = [] := List.drop_of_length_le (Nat.le_of_lt hlength)
      have hfirst := unpack_pack hl (k - l.length)
      rw [Nat.add_sub_cancel' (Nat.le_of_lt hlength)] at hfirst
      rw [htake', hdrop', hfirst, List.nil_append, List.append_assoc, List.replicate_append_replicate]
      congr 2
      omega

end SpiderMonkey.Packing
