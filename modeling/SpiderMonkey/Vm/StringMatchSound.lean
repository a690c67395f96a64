import SpiderMonkey.Vm.StringMatch
import SpiderMonkey.Lib.Loops

/-!
# What a search finds

Each way of searching a text finds the first occurrence of the pattern.
-/

namespace SpiderMonkey.Vm.StringMatch

open Lib

variable {text pat patNext : List UInt16} {p₀ : UInt16} {i j k n : ℕ} {skip : ℕ → UInt8}

/-- The rest of a pattern is compared with what it has to be. -/
theorem innerMatch_iff {t : List UInt16} : innerMatch pat t = true ↔ pat <+: t := by
  induction pat generalizing t with
  | nil => simp [innerMatch]
  | cons c p ih =>
    cases t with
    | nil => simp [innerMatch]
    | cons d t => simp [innerMatch, ih]

/-- A match at a position within the text. -/
theorem occursAt_iff_match (hk : k < text.length) :
    OccursAt (p₀ :: patNext) text k ↔
      text.getD k 0 = p₀ ∧ innerMatch patNext (text.drop (k + 1)) = true := by
  have hget : text[k]? = some (text.getD k 0) := by
    rw [List.getD_eq_getElem?_getD, List.getElem?_eq_getElem hk]
    rfl
  rw [occursAt_cons, innerMatch_iff, hget, Option.some_inj]

/-- The first match in some positions. -/
theorem scanPositions_firstIn (text : List UInt16) (p₀ : UInt16) (patNext : List UInt16) {k n : ℕ}
    (hn : k + n ≤ text.length) :
    FirstIn (p₀ :: patNext) text k (k + n) (scanPositions text p₀ patNext n k) := by
  induction n generalizing k with
  | zero => exact firstIn_self
  | succ n ih =>
    have hk : k < text.length := by omega
    rw [scanPositions]
    split_ifs with hmatch
    · exact firstIn_of_occursAt ((occursAt_iff_match hk).mpr hmatch) (by omega)
    · have hrest := ih (k := k + 1) (by omega)
      have hone : FirstIn (p₀ :: patNext) text k (k + 1) none := by
        intro k' hlo hhi
        rw [show k' = k by omega, occursAt_iff_match hk]
        exact hmatch
      rw [show k + (n + 1) = k + 1 + n by omega]
      exact hone.append hrest (by omega)

/-- The first match in some rounds. -/
theorem scanRounds_firstIn (text : List UInt16) (p₀ : UInt16) (patNext : List UInt16) {k n : ℕ}
    (hn : k + 8 * n ≤ text.length) :
    FirstIn (p₀ :: patNext) text k (k + 8 * n) (scanRounds text p₀ patNext n k) := by
  induction n generalizing k with
  | zero => exact firstIn_self
  | succ n ih =>
    have hround := scanPositions_firstIn text p₀ patNext (show k + 8 ≤ text.length by omega)
    rw [scanRounds]
    split
    · rename_i r hr
      rw [hr] at hround
      exact hround.of_some (by omega)
    · rename_i hr
      rw [hr] at hround
      have hrest := ih (k := k + 8) (by omega)
      rw [show k + 8 * (n + 1) = k + 8 + 8 * n by omega]
      exact hround.append hrest (by omega)

/-- The unrolled loop finds the first occurrence. -/
theorem unrolledMatch_isFirst (hlength : patNext.length < text.length) :
    IsFirst (p₀ :: patNext) text (unrolledMatch text p₀ patNext) := by
  have hall : FirstIn (p₀ :: patNext) text 0 (text.length - patNext.length)
      (unrolledMatch text p₀ patNext) := by
    rw [unrolledMatch]
    generalize htextend : text.length - patNext.length = textend
    generalize hfixup : (if textend % 8 = 0 then 8 else textend % 8) = fixup
    have hbounds : fixup ≤ textend ∧ 8 ∣ textend - fixup := by
      split_ifs at hfixup <;> omega
    obtain ⟨rounds, hrounds⟩ := hbounds.2
    have hstart := scanPositions_firstIn text p₀ patNext (show 0 + fixup ≤ text.length by omega)
    rw [Nat.zero_add] at hstart
    split
    · rename_i r hr
      rw [hr] at hstart
      exact hstart.of_some hbounds.1
    · rename_i hr
      rw [hr] at hstart
      rw [hrounds, Nat.mul_div_cancel_left rounds (by omega)]
      have hrest := scanRounds_firstIn text p₀ patNext
        (show fixup + 8 * rounds ≤ text.length by omega)
      rw [show textend = fixup + 8 * rounds by omega]
      exact hstart.append hrest (Nat.zero_le _)
  apply hall.isFirst
  intro k hk
  have hle := hk.le_length (List.cons_ne_nil _ _)
  rw [List.length_cons] at hle
  omega

/-- A number that fits in eight bits. -/
theorem toNat_ofNat_of_le {m : ℕ} (h : m ≤ 255) : (UInt8.ofNat m).toNat = m :=
  UInt8.toNat_ofNat_of_lt' (Nat.lt_succ_of_le h)

/-- What the table of skips says: each skip is positive, and none goes past a unit of the pattern. -/
theorem fillSkip_spec (hlength : pat.length ≤ 255) (hn : n ≤ pat.length - 1) (hpos : 0 < pat.length)
    (h : fillSkip pat n = some skip) :
    (∀ c, 0 < (skip c).toNat ∧ (skip c).toNat ≤ pat.length) ∧
      ∀ j < n, (pat.getD j 0).toNat < 256 ∧
        (skip (pat.getD j 0).toNat).toNat ≤ pat.length - 1 - j := by
  induction n generalizing skip with
  | zero =>
    have hskip : (fun _ => UInt8.ofNat pat.length) = skip := Option.some_inj.mp h
    apply And.intro
    · intro c
      rw [← hskip, toNat_ofNat_of_le hlength]
      exact ⟨hpos, Nat.le_refl _⟩
    · exact nofun
  | succ n ih =>
    rw [fillSkip, List.range_succ, List.foldlM_append] at h
    obtain ⟨before, hbefore, hlast⟩ := Option.bind_eq_some_iff.mp h
    obtain ⟨hall, hunits⟩ := ih (by omega) hbefore
    simp only [List.foldlM_cons, List.foldlM_nil, Option.bind_eq_bind,
      Option.pure_def, Option.bind_fun_some] at hlast
    by_cases hc : sBMHCharSetSize ≤ (pat.getD n 0).toNat
    · rw [if_pos hc] at hlast
      cases hlast
    · rw [if_neg hc] at hlast
      have hsmall : (pat.getD n 0).toNat < 256 := Nat.lt_of_not_le hc
      have hskip : Function.update before (pat.getD n 0).toNat (UInt8.ofNat (pat.length - 1 - n)) =
          skip := Option.some_inj.mp hlast
      have hself : (UInt8.ofNat (pat.length - 1 - n)).toNat = pat.length - 1 - n :=
        toNat_ofNat_of_le (by omega)
      apply And.intro
      · intro c
        rw [← hskip, Function.update_apply]
        split_ifs
        · rw [hself]
          omega
        · exact hall c
      · intro j hj
        rw [← hskip, Function.update_apply]
        split_ifs with heq
        · rw [hself, heq]
          exact ⟨by omega, by omega⟩
        · have hjn : j < n := by
            apply Nat.lt_of_le_of_ne (by omega)
            intro hjn
            rw [hjn] at heq
            exact heq rfl
          exact hunits j hjn

/-- The comparison from the last unit back. -/
theorem matchBackwards_eq :
    matchBackwards text pat (i + j) j =
      if ∀ j' ≤ j, text.getD (i + j') 0 = pat.getD j' 0 then some i else none := by
  induction j with
  | zero =>
    have hone : (∀ j' ≤ 0, text.getD (i + j') 0 = pat.getD j' 0) ↔
        text.getD (i + 0) 0 = pat.getD 0 0 := by
      apply Iff.intro
      · intro h
        exact h 0 (Nat.le_refl 0)
      · intro h j' hj'
        rw [Nat.le_zero.mp hj']
        exact h
    rw [matchBackwards, if_congr hone rfl rfl]
    by_cases h : text.getD (i + 0) 0 = pat.getD 0 0
    · rw [if_neg (not_not.mpr h), if_pos h, Nat.add_zero]
    · rw [if_pos h, if_neg h]
  | succ j ih =>
    rw [matchBackwards, show i + (j + 1) - 1 = i + j by omega, ih]
    by_cases hlast : text.getD (i + (j + 1)) 0 = pat.getD (j + 1) 0
    · rw [if_neg (not_not.mpr hlast)]
      apply if_congr _ rfl rfl
      apply Iff.intro
      · intro h j' hj'
        rcases Nat.lt_or_eq_of_le hj' with hlt | heq
        · exact h j' (by omega)
        · rw [heq]
          exact hlast
      · intro h j' hj'
        exact h j' (by omega)
    · rw [if_pos hlast, if_neg]
      intro h
      exact hlast (h (j + 1) (Nat.le_refl _))

/-- An occurrence within the text, unit by unit. -/
theorem occursAt_iff_getD (h : i + pat.length ≤ text.length) :
    OccursAt pat text i ↔ ∀ j < pat.length, text.getD (i + j) 0 = pat.getD j 0 := by
  rw [occursAt_iff]
  apply forall_congr'
  intro j
  apply forall_congr'
  intro hj
  rw [List.getD_eq_getElem?_getD, List.getD_eq_getElem?_getD, List.getElem?_eq_getElem hj,
    List.getElem?_eq_getElem (show i + j < text.length by omega), Option.some_inj]
  rfl

/-- The loop finds the first occurrence from a position on. -/
theorem horspoolLoop_firstIn (hpos : 0 < pat.length)
    (hskip : ∀ c, 0 < (skip c).toNat ∧ (skip c).toNat ≤ pat.length)
    (hunits : ∀ j < pat.length - 1, (pat.getD j 0).toNat < 256 ∧
      (skip (pat.getD j 0).toNat).toNat ≤ pat.length - 1 - j)
    {fuel : ℕ} (hfuel : text.length ≤ i + (pat.length - 1) + fuel) :
    FirstIn pat text i (text.length - (pat.length - 1))
      (horspoolLoop text pat skip fuel (i + (pat.length - 1))) := by
  induction fuel generalizing i with
  | zero =>
    intro k hlo hhi
    omega
  | succ fuel ih =>
    rw [horspoolLoop]
    split_ifs with hlt
    · have hwithin : i + pat.length ≤ text.length := by omega
      have hoccurs : (∀ j' ≤ pat.length - 1, text.getD (i + j') 0 = pat.getD j' 0) ↔
          OccursAt pat text i := by
        rw [occursAt_iff_getD hwithin]
        apply forall_congr'
        intro j
        rw [show j ≤ pat.length - 1 ↔ j < pat.length by omega]
      rw [matchBackwards_eq, if_congr hoccurs rfl rfl]
      by_cases hmatch : OccursAt pat text i
      · rw [if_pos hmatch]
        exact firstIn_of_occursAt hmatch (by omega)
      · rw [if_neg hmatch]
        dsimp only
        generalize hshift : (if sBMHCharSetSize ≤ (text.getD (i + (pat.length - 1)) 0).toNat then
          pat.length else (skip (text.getD (i + (pat.length - 1)) 0).toNat).toNat) = shift
        have hbounds : 0 < shift ∧ shift ≤ pat.length := by
          rw [← hshift]
          split_ifs
          · exact ⟨hpos, Nat.le_refl _⟩
          · exact hskip _
        -- a match that starts before the shift has the unit at `k` in its own pattern
        have hnone : FirstIn pat text i (i + shift) none := by
          intro k hlo hhi hk
          have hkw := hk.le_length (List.length_pos_iff.mp hpos)
          rw [occursAt_iff_getD hkw] at hk
          rcases Nat.lt_or_eq_of_le hlo with hik | hik
          · have hunit := hk (pat.length - 1 - (k - i)) (by omega)
            rw [show k + (pat.length - 1 - (k - i)) = i + (pat.length - 1) by omega] at hunit
            obtain ⟨hsmall, hle⟩ := hunits (pat.length - 1 - (k - i)) (by omega)
            rw [← hunit] at hsmall hle
            rw [if_neg (show ¬ sBMHCharSetSize ≤ _ from Nat.not_le_of_lt hsmall)] at hshift
            omega
          · rw [← hik, ← occursAt_iff_getD hwithin] at hk
            exact hmatch hk
        have hrest := ih (i := i + shift) (by omega)
        rw [show i + (pat.length - 1) + shift = i + shift + (pat.length - 1) by omega]
        exact hnone.append hrest (by omega)
    · intro k hlo hhi
      omega

/-- The search with a table of skips finds the first occurrence. -/
theorem js_BoyerMooreHorspool_isFirst (hpos : 0 < pat.length) (hlength : pat.length ≤ sBMHPatLenMax)
    {r : Option ℕ} (h : js_BoyerMooreHorspool text pat = some r) : IsFirst pat text r := by
  obtain ⟨skip, hskip, hr⟩ := Option.bind_eq_some_iff.mp h
  obtain ⟨hall, hunits⟩ := fillSkip_spec hlength (Nat.le_refl _) hpos hskip
  have hfirst := horspoolLoop_firstIn (i := 0) hpos hall hunits
    (show text.length ≤ 0 + (pat.length - 1) + text.length by omega)
  rw [Nat.zero_add] at hfirst
  rw [← Option.some_inj.mp hr]
  apply hfirst.isFirst
  intro k hk
  have hle := hk.le_length (List.length_pos_iff.mp hpos)
  omega

/-- A search finds the first occurrence. -/
theorem stringMatch_isFirst (text pat : List UInt16) : IsFirst pat text (stringMatch text pat) := by
  cases pat with
  | nil => exact ⟨occursAt_nil, nofun⟩
  | cons p₀ patNext =>
    have hne : p₀ :: patNext ≠ [] := List.cons_ne_nil _ _
    rw [stringMatch]
    split_ifs with hshort hbmh
    · intro k hk
      have hle := hk.le_length hne
      omega
    · have hunrolled : IsFirst (p₀ :: patNext) text (unrolledMatch text p₀ patNext) := by
        apply unrolledMatch_isFirst
        rw [List.length_cons] at hshort
        omega
      dsimp only
      split
      · rename_i index hindex
        exact js_BoyerMooreHorspool_isFirst (List.length_pos_iff.mpr hne) hbmh.2.2 hindex
      · exact hunrolled
    · apply unrolledMatch_isFirst
      rw [List.length_cons] at hshort
      omega

end SpiderMonkey.Vm.StringMatch
