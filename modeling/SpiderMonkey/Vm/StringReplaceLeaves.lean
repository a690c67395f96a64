import SpiderMonkey.Vm.StringReplace
import SpiderMonkey.Vm.StringMatchSound

/-!
# Searching a rope

The leaves of a rope come in order, and a search over them finds the first occurrence in the text
that they make.
-/

namespace SpiderMonkey.Vm.StringReplace

open Lib StringMatch

namespace JSString

/-- The leaves of a string, in order. -/
def leaves : JSString → List (List UInt16)
  | linear chars => [chars]
  | rope leftChild rightChild => leftChild.leaves ++ rightChild.leaves

/-- The leaves make the text. -/
theorem flatten_leaves (str : JSString) : str.leaves.flatten = str.chars := by
  induction str with
  | linear chars => exact List.append_nil chars
  | rope leftChild rightChild ihl ihr =>
    rw [leaves, List.flatten_append, ihl, ihr]
    rfl

end JSString

namespace StringSegmentRange

/-- After a leaf comes the next one. -/
theorem leaves_of_some (stack : List JSString) (chars : List UInt16) :
    leaves ⟨stack, some chars⟩ = chars :: (popFront ⟨stack, some chars⟩).leaves := by
  rw [leaves]

/-- Going down comes to the leaves of a string, if what is right of it is in order. -/
theorem leaves_settle_of {str : JSString} {stack : List JSString}
    (hstack : ∀ cur, (popFront ⟨stack, cur⟩).leaves = stack.flatMap JSString.leaves) :
    (settle str stack).leaves = str.leaves ++ stack.flatMap JSString.leaves := by
  induction str generalizing stack with
  | linear chars =>
    rw [settle, leaves_of_some, hstack]
    rfl
  | rope leftChild rightChild ihl ihr =>
    have hright : ∀ cur, (popFront ⟨rightChild :: stack, cur⟩).leaves =
        (rightChild :: stack).flatMap JSString.leaves := by
      intro cur
      exact ihr hstack
    rw [settle, ihl hright, List.flatMap_cons, ← List.append_assoc]
    rfl

/-- The strings right of a leaf come in order. -/
theorem leaves_popFront (stack : List JSString) (cur : Option (List UInt16)) :
    (popFront ⟨stack, cur⟩).leaves = stack.flatMap JSString.leaves := by
  induction stack generalizing cur with
  | nil =>
    rw [popFront, leaves]
    rfl
  | cons str stack ih => exact leaves_settle_of ih

/-- The leaves at the front are those of the string, in order. -/
theorem leaves_init (str : JSString) : (init str).leaves = str.leaves := by
  rw [init, leaves_settle_of (leaves_popFront [])]
  exact List.append_nil _

end StringSegmentRange

variable {p₀ : UInt16} {p₁ pp tt outer pre : List UInt16} {inner rest strs : List (List UInt16)}
  {t : ℕ}

/-- What is collected are the leaves. -/
theorem collectLeaves_eq {appendFails : ℕ → Bool} {threshold n : ℕ}
    (h : collectLeaves appendFails threshold n inner = some strs) : strs = inner := by
  induction inner generalizing threshold n strs with
  | nil => exact (Option.some_inj.mp h).symm
  | cons str rest ih =>
    rw [collectLeaves] at h
    split_ifs at h
    obtain ⟨strs', hrest, rfl⟩ := Option.map_eq_some_iff.mp h
    rw [ih hrest]

/-- There is no next character at the end. -/
theorem nextChar_eq_none (h : nextChar tt inner = none) : tt ++ inner.flatten = [] := by
  induction inner generalizing tt with
  | nil =>
    cases tt with
    | nil => rfl
    | cons c tt => cases h
  | cons str inner ih =>
    cases tt with
    | nil => exact ih h
    | cons c tt => cases h

/-- The next character, and what follows it. -/
theorem nextChar_eq_some {c : UInt16} {tt' : List UInt16} {inner' : List (List UInt16)}
    (h : nextChar tt inner = some (c, tt', inner')) :
    tt ++ inner.flatten = c :: (tt' ++ inner'.flatten) := by
  induction inner generalizing tt with
  | nil =>
    cases tt with
    | nil => cases h
    | cons d tt =>
      cases h
      rfl
  | cons str inner ih =>
    cases tt with
    | nil => exact ih h
    | cons d tt =>
      cases h
      rfl

/-- What the comparison over leaves says of the text from there on. -/
theorem compareRest_spec (pp tt : List UInt16) (inner : List (List UInt16)) :
    match compareRest pp tt inner with
    | .matched => pp <+: tt ++ inner.flatten
    | .mismatched => ¬ pp <+: tt ++ inner.flatten
    | .ended => (tt ++ inner.flatten).length < pp.length := by
  induction pp generalizing tt inner with
  | nil => exact List.nil_prefix
  | cons p pp ih =>
    rw [compareRest]
    rcases hnext : nextChar tt inner with _ | ⟨c, tt', inner'⟩
    · rw [nextChar_eq_none hnext]
      exact Nat.succ_pos _
    · rw [nextChar_eq_some hnext]
      dsimp only
      by_cases hp : p = c
      · rw [if_neg (not_not.mpr hp), hp]
        have hrest := ih tt' inner'
        split at hrest
        · exact (List.prefix_cons_inj c).mpr hrest
        · exact fun h => hrest ((List.prefix_cons_inj c).mp h)
        · exact Nat.succ_lt_succ hrest
      · rw [if_pos hp]
        intro h
        exact hp (List.cons_prefix_cons.mp h).1

/-- The search for matches that start in a leaf. -/
theorem scanStarts_spec (t : ℕ) :
    match scanStarts p₀ p₁ rest (outer.drop t) t with
    | none => FirstIn (p₀ :: p₁) (outer ++ rest.flatten) t outer.length none
    | some (some m) => FirstIn (p₀ :: p₁) (outer ++ rest.flatten) t outer.length (some m)
    | some none => ∀ k, t ≤ k → ¬ OccursAt (p₀ :: p₁) (outer ++ rest.flatten) k := by
  generalize hchars : outer.drop t = chars
  induction chars generalizing t with
  | nil =>
    have hle := List.drop_eq_nil_iff.mp hchars
    intro k hlo hhi
    omega
  | cons c tt ih =>
    have hlt : t < outer.length := by
      by_contra hge
      rw [List.drop_eq_nil_of_le (Nat.le_of_not_lt hge)] at hchars
      cases hchars
    have hdrop : outer.drop (t + 1) = tt := by
      rw [List.drop_add_one_eq_tail_drop, hchars]
      rfl
    have hoccurs : OccursAt (p₀ :: p₁) (outer ++ rest.flatten) t ↔
        p₀ = c ∧ p₁ <+: tt ++ rest.flatten := by
      rw [OccursAt, List.drop_append_of_le_length (Nat.le_of_lt hlt), hchars, List.cons_append,
        List.cons_prefix_cons]
    -- what the search from the next position says, if there is no match here
    have hskip (hnot : ¬ OccursAt (p₀ :: p₁) (outer ++ rest.flatten) t) :
        match scanStarts p₀ p₁ rest tt (t + 1) with
        | none => FirstIn (p₀ :: p₁) (outer ++ rest.flatten) t outer.length none
        | some (some m) => FirstIn (p₀ :: p₁) (outer ++ rest.flatten) t outer.length (some m)
        | some none => ∀ k, t ≤ k → ¬ OccursAt (p₀ :: p₁) (outer ++ rest.flatten) k := by
      have hone : FirstIn (p₀ :: p₁) (outer ++ rest.flatten) t (t + 1) none := by
        intro k hlo hhi
        rw [show k = t by omega]
        exact hnot
      have hrest := ih (t + 1) hdrop
      split at hrest
      · exact hone.append hrest (Nat.le_succ t)
      · exact hone.append hrest (Nat.le_succ t)
      · intro k hlo
        rcases Nat.lt_or_eq_of_le hlo with hk | hk
        · exact hrest k hk
        · exact hk ▸ hnot
    rw [scanStarts]
    by_cases hc : c = p₀
    · rw [if_neg (not_not.mpr hc)]
      have hcompare := compareRest_spec p₁ tt rest
      split at hcompare
      · rename_i heq
        rw [heq]
        exact firstIn_of_occursAt (hoccurs.mpr ⟨hc.symm, hcompare⟩) hlt
      · rename_i heq
        rw [heq]
        exact hskip fun h => hcompare (hoccurs.mp h).2
      · rename_i heq
        rw [heq]
        intro k hlo hk
        have hle := hk.le_length (List.cons_ne_nil _ _)
        have hlength := congrArg List.length hdrop
        rw [List.length_drop] at hlength
        rw [List.length_append, List.length_cons] at hle
        rw [List.length_append] at hcompare
        omega
    · rw [if_pos hc]
      exact hskip fun h => hc (hoccurs.mp h).1.symm

/-- An occurrence within a leaf. -/
theorem occursAt_leaf {k : ℕ} (hk : k + (p₀ :: p₁).length ≤ outer.length) :
    OccursAt (p₀ :: p₁) (outer ++ rest.flatten) k ↔ OccursAt (p₀ :: p₁) outer k :=
  occursAt_append hk

/-- The search over leaves finds the first occurrence, if there is none from what is before. -/
theorem ropeLoop_isFirst (strs : List (List UInt16)) (pre : List UInt16)
    (hnone : ∀ k < pre.length, ¬ OccursAt (p₀ :: p₁) (pre ++ strs.flatten) k) :
    IsFirst (p₀ :: p₁) (pre ++ strs.flatten) (ropeLoop p₀ p₁ pre.length strs) := by
  induction strs generalizing pre with
  | nil =>
    intro k hk
    have hle := hk.le_length (List.cons_ne_nil _ _)
    rw [List.flatten_nil, List.append_nil, List.length_cons] at hle
    exact hnone k (by omega) hk
  | cons outer rest ih =>
    rw [List.flatten_cons] at hnone ⊢
    have hmatch := stringMatch_isFirst outer (p₀ :: p₁)
    rw [ropeLoop]
    dsimp only
    split
    · rename_i m hm
      rw [hm] at hmatch
      have hle := hmatch.1.le_length (List.cons_ne_nil _ _)
      have hfirst : IsFirst (p₀ :: p₁) (outer ++ rest.flatten) (some m) := by
        apply And.intro
        · exact (occursAt_leaf hle).mpr hmatch.1
        · intro k hk hoccurs
          exact hmatch.2 k hk ((occursAt_leaf (by omega)).mp hoccurs)
      exact hfirst.append hnone
    · rename_i hm
      rw [hm] at hmatch
      generalize htext : (if outer.length < p₁.length + 1 then 0
        else outer.length - (p₁.length + 1) + 1) = text
      have hbefore : FirstIn (p₀ :: p₁) (outer ++ rest.flatten) 0 text none := by
        intro k _ hk hoccurs
        have hle : k + (p₀ :: p₁).length ≤ outer.length := by
          rw [List.length_cons]
          split_ifs at htext <;> omega
        exact hmatch k ((occursAt_leaf hle).mp hoccurs)
      have hscan := @scanStarts_spec p₀ p₁ outer rest text
      split
      · rename_i result hresult
        rw [hresult] at hscan
        rcases result with _ | m
        · have hfirst : IsFirst (p₀ :: p₁) (outer ++ rest.flatten) none := by
            intro k hk
            rcases Nat.lt_or_ge k text with hlt | hge
            · exact hbefore k (Nat.zero_le k) hlt hk
            · exact hscan k hge hk
          exact hfirst.append hnone
        · have hfirst := hbefore.append hscan (Nat.zero_le text)
          have hfirst' : IsFirst (p₀ :: p₁) (outer ++ rest.flatten) (some m) :=
            ⟨hfirst.2.2.1, fun k hk => hfirst.2.2.2 k (Nat.zero_le k) hk⟩
          exact hfirst'.append hnone
      · rename_i hresult
        rw [hresult] at hscan
        have hleaf := hbefore.append hscan (Nat.zero_le text)
        have hrest := ih (pre ++ outer) <| by
          intro k hk hoccurs
          rw [List.append_assoc] at hoccurs
          rcases Nat.lt_or_ge k pre.length with hlt | hge
          · exact hnone k hlt hoccurs
          · rw [← Nat.add_sub_of_le hge, occursAt_append_add] at hoccurs
            rw [List.length_append] at hk
            exact hleaf (k - pre.length) (Nat.zero_le _) (by omega) hoccurs
        rw [List.append_assoc, List.length_append] at hrest
        exact hrest

/-- The search of a rope finds the first occurrence, and leaves the text as it is or flattened. -/
theorem ropeMatch_isFirst (appendFails : ℕ → Bool) (textstr : JSString) (pat : List UInt16) :
    IsFirst pat textstr.chars (ropeMatch appendFails textstr pat).1 ∧
      ((ropeMatch appendFails textstr pat).2 = textstr ∨
        pat ≠ [] ∧ (ropeMatch appendFails textstr pat).2 = .linear textstr.chars) := by
  cases pat with
  | nil => exact ⟨⟨occursAt_nil, fun _ hlt => absurd hlt (Nat.not_lt_zero _)⟩, Or.inl rfl⟩
  | cons p₀ p₁ =>
    rw [ropeMatch]
    split_ifs with hshort
    · refine ⟨?_, Or.inl rfl⟩
      intro k hk
      have hle := hk.le_length (List.cons_ne_nil _ _)
      rw [List.length_cons] at hle
      rw [JSString.length] at hshort
      omega
    · dsimp only
      split
      · exact ⟨stringMatch_isFirst _ _, Or.inr ⟨List.cons_ne_nil _ _, rfl⟩⟩
      · rename_i strs hstrs
        refine ⟨?_, Or.inl rfl⟩
        have htext : strs.flatten = textstr.chars := by
          rw [collectLeaves_eq hstrs, StringSegmentRange.leaves_init, JSString.flatten_leaves]
        have hfirst := @ropeLoop_isFirst p₀ p₁ strs [] fun _ hlt => absurd hlt (Nat.not_lt_zero _)
        rw [List.nil_append, htext] at hfirst
        exact hfirst

/-- A search finds the first occurrence, and leaves the text as it is or flattened. -/
theorem tryFlatMatch_isFirst (appendFails : ℕ → Bool) (textstr : JSString) (pat : List UInt16) :
    IsFirst pat textstr.chars (tryFlatMatch appendFails textstr pat).1 ∧
      ((tryFlatMatch appendFails textstr pat).2 = textstr ∨
        pat ≠ [] ∧ (tryFlatMatch appendFails textstr pat).2 = .linear textstr.chars) := by
  rw [tryFlatMatch]
  split_ifs
  · exact ropeMatch_isFirst appendFails textstr pat
  · exact ⟨stringMatch_isFirst _ _, Or.inl rfl⟩

end SpiderMonkey.Vm.StringReplace
