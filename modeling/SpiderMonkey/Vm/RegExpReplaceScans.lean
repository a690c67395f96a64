import SpiderMonkey.Vm.RegExpSubstitution

/-!
# The two scans of a replacement

Both scans go from dollar to dollar and skip the same units. The first computes the length of what the
replacement stands for; the second appends exactly that.
-/

namespace SpiderMonkey.Vm.RegExpReplace

open StringReplace (dollar)

variable {text repstr : List UInt16} {m : Match} {res : RegExpStatics} {sb : StringBuffer}

/-! ## From dollar to dollar -/

/-- The units between two indices, and those from the second one on. -/
theorem drop_eq_take_append {units : List UInt16} {i j : ℕ} (hij : i ≤ j) :
    units.drop i = (units.drop i).take (j - i) ++ units.drop j := by
  conv_lhs => rw [← List.take_append_drop (j - i) (units.drop i)]
  rw [List.drop_drop, Nat.add_sub_cancel' hij]

/-- The units between three indices. -/
theorem take_append_take (units : List UInt16) {i j k : ℕ} (hij : i ≤ j) (hjk : j ≤ k) :
    (units.drop i).take (k - i) = (units.drop i).take (j - i) ++ (units.drop j).take (k - j) := by
  rw [show k - i = (j - i) + (k - j) by omega, List.take_add, List.drop_drop,
    Nat.add_sub_cancel' hij]

/-- There is no dollar. -/
theorem strchrDollar_eq_none {i : ℕ} (h : strchrDollar repstr i = none) :
    ∀ c ∈ repstr.drop i, c ≠ dollar := by
  rw [strchrDollar, Option.map_eq_none_iff, List.findIdx?_eq_none_iff] at h
  intro c hc
  exact of_decide_eq_false (h c hc)

/-- The first dollar. -/
theorem strchrDollar_eq_some {i dp : ℕ} (h : strchrDollar repstr i = some dp) :
    i ≤ dp ∧ dp < repstr.length ∧ repstr.drop dp = dollar :: repstr.drop (dp + 1) ∧
      ∀ c ∈ (repstr.drop i).take (dp - i), c ≠ dollar := by
  obtain ⟨k, hk, rfl⟩ := Option.map_eq_some_iff.mp h
  obtain ⟨hlt, hat, hbefore⟩ := List.findIdx?_eq_some_iff_getElem.mp hk
  rw [List.length_drop] at hlt
  have hlength : i + k < repstr.length := by omega
  rw [List.getElem_drop] at hat
  refine ⟨Nat.le_add_right i k, hlength, ?_, ?_⟩
  · rw [List.drop_eq_getElem_cons hlength, of_decide_eq_true hat]
  · intro c hc
    rw [Nat.add_sub_cancel_left] at hc
    obtain ⟨j, hj, hget⟩ := List.mem_take_iff_getElem.mp hc
    have hne := hbefore j (Nat.lt_of_lt_of_le hj (Nat.min_le_left _ _))
    rw [hget] at hne
    intro heq
    exact hne (decide_eq_true heq)

/-- What a replacement stands for, up to a dollar and from there on. -/
theorem substitute_drop {i dp : ℕ} (text : List UInt16) (m : Match)
    (h : strchrDollar repstr i = some dp) :
    substitute text m (repstr.drop i) =
      (repstr.drop i).take (dp - i) ++
        ((item text m dollar (repstr.drop (dp + 1))).1 ++
          substitute text m (item text m dollar (repstr.drop (dp + 1))).2) := by
  obtain ⟨hle, _, hdrop, hplain⟩ := strchrDollar_eq_some h
  conv_lhs => rw [drop_eq_take_append hle, hdrop]
  rw [substitute_append text m _ hplain, substitute_cons]

/-- Too many units behind a dollar. -/
theorem Overflows.of_dollar {i dp : ℕ} (n : ℕ) (text : List UInt16) (m : Match)
    (h : strchrDollar repstr i = some dp)
    (hover : Overflows text m (n + (dp - i) + (item text m dollar (repstr.drop (dp + 1))).1.length)
      (item text m dollar (repstr.drop (dp + 1))).2) : Overflows text m n (repstr.drop i) := by
  obtain ⟨hle, hlt, hdrop, hplain⟩ := strchrDollar_eq_some h
  rw [drop_eq_take_append hle, hdrop]
  apply Overflows.append hplain
  rw [List.length_take, List.length_drop, Nat.min_eq_left (by omega)]
  exact hover.cons

/-- The item that a dollar begins, when it is a symbol. -/
theorem item_of_symbol {rest : List UInt16} {p : List UInt16 × List UInt16}
    (h : symbol text m rest = some p) : item text m dollar rest = p := by
  rw [item, if_pos rfl, h]
  rfl

/-- A dollar that is no symbol stands for itself. -/
theorem item_of_none {rest : List UInt16} (h : symbol text m rest = none) :
    item text m dollar rest = ([dollar], rest) := by
  rw [item, if_pos rfl, h]
  rfl

/-! ## The length -/

/-- A checked number that is none stays none. -/
theorem lengthLoop_none (fuel : ℕ) (dp : Option ℕ) : lengthLoop res repstr fuel dp none = none := by
  induction fuel generalizing dp with
  | zero => rfl
  | succ fuel ih =>
    cases dp with
    | none => rfl
    | some dp =>
      rw [lengthLoop]
      cases interpretDollar res repstr dp with
      | none => exact ih _
      | some p =>
        dsimp only
        rw [show addChecked none (p.1.length - p.2) = none from rfl,
          show subChecked none (p.2 - p.1.length) = none from rfl, ite_self]
        exact ih _

/-- A symbol changes the length by the difference of what it stands for and its own length. -/
theorem checked_difference {r len skip : ℕ} (hr : r < 2 ^ 32) (hskip : skip ≤ r) :
    (if skip < len then addChecked (some r) (len - skip) else subChecked (some r) (skip - len)) =
      checkedInt (r + len - skip) := by
  split_ifs with hlt
  · rw [addChecked]
    by_cases hlen : len - skip < 2 ^ 32
    · rw [checkedInt, if_pos hlen]
      exact congrArg checkedInt (show r + (len - skip) = r + len - skip by omega)
    · rw [checkedInt, if_neg hlen, checkedInt, if_neg (by omega)]
      rfl
  · rw [subChecked, checkedInt, if_pos (by omega), checkedInt, if_pos (by omega)]
    simp only [Option.bind_eq_bind, Option.bind_some]
    rw [if_pos (by omega)]
    congr 1
    omega

/-- What a computed length says about units that follow some others. -/
def LengthOf (text : List UInt16) (m : Match) (n : ℕ) (units : List UInt16) : Option ℕ → Prop
  | none => Overflows text m n units
  | some size => size = n + (substitute text m units).length

/-- The loop over the dollars computes the length, or finds that it is too large. -/
theorem lengthLoop_spec (h : res.IsOf text m) {n i : ℕ} (fuel : ℕ) (hi : i ≤ repstr.length)
    (hfuel : repstr.length - i < fuel) (hn : n + (repstr.length - i) < 2 ^ 32) :
    LengthOf text m n (repstr.drop i)
      (lengthLoop res repstr fuel (strchrDollar repstr i) (some (n + (repstr.length - i)))) := by
  induction fuel generalizing n i with
  | zero => omega
  | succ fuel ih =>
    cases hdollar : strchrDollar repstr i with
    | none =>
      have hplain := substitute_append text m [] (strchrDollar_eq_none hdollar)
      rw [List.append_nil] at hplain
      show n + (repstr.length - i) = n + (substitute text m (repstr.drop i)).length
      rw [hplain, show substitute text m [] = [] from rfl, List.append_nil, List.length_drop]
    | some dp =>
      obtain ⟨hle, hlt, _, _⟩ := strchrDollar_eq_some hdollar
      have hinterprets := interpretDollar_interprets h repstr dp
      have hsubstitute := substitute_drop text m hdollar
      have hover := Overflows.of_dollar n text m hdollar
      rw [lengthLoop]
      cases hdp : interpretDollar res repstr dp with
      | none =>
        rw [hdp] at hinterprets
        rw [item_of_none hinterprets] at hsubstitute hover
        dsimp only at hsubstitute hover
        have hrest := ih (n := n + (dp - i) + 1) (i := dp + 1) (by omega) (by omega) (by omega)
        rw [show n + (dp - i) + 1 + (repstr.length - (dp + 1)) = n + (repstr.length - i) by omega]
          at hrest
        dsimp only
        cases hloop : lengthLoop res repstr fuel (strchrDollar repstr (dp + 1))
            (some (n + (repstr.length - i))) with
        | none =>
          rw [hloop] at hrest
          exact hover hrest
        | some size =>
          rw [hloop] at hrest
          apply Eq.trans hrest
          rw [hsubstitute, List.length_append, List.length_append, List.length_take,
            List.length_drop, List.length_singleton]
          omega
      | some p =>
        obtain ⟨sub, skip⟩ := p
        rw [hdp] at hinterprets
        obtain ⟨hskip, hbound, hsymbol⟩ := hinterprets
        rw [item_of_symbol hsymbol] at hsubstitute hover
        dsimp only at hsubstitute hover ⊢
        rw [checked_difference hn (by omega), checkedInt]
        by_cases hfits : n + (repstr.length - i) + sub.length - skip < 2 ^ 32
        · have hrest := ih (n := n + (dp - i) + sub.length) (i := dp + skip) hbound (by omega)
            (by omega)
          rw [show n + (dp - i) + sub.length + (repstr.length - (dp + skip)) =
            n + (repstr.length - i) + sub.length - skip by omega] at hrest
          rw [if_pos hfits]
          cases hloop : lengthLoop res repstr fuel (strchrDollar repstr (dp + skip))
              (some (n + (repstr.length - i) + sub.length - skip)) with
          | none =>
            rw [hloop] at hrest
            exact hover hrest
          | some size =>
            rw [hloop] at hrest
            apply Eq.trans hrest
            rw [hsubstitute, List.length_append, List.length_append, List.length_take,
              List.length_drop]
            omega
        · rw [if_neg hfits, lengthLoop_none]
          apply hover
          refine ⟨0, ?_⟩
          simp only [substituteUpTo, List.length_nil, List.length_drop]
          omega

/-- The first scan computes the length of what a replacement stands for, or finds that it is too
large. -/
theorem findReplaceLength_spec (repstr : List UInt16) (h : res.IsOf text m) :
    LengthOf text m 0 repstr (findReplaceLength res repstr) := by
  rw [findReplaceLength, checkedInt]
  by_cases hlength : repstr.length < 2 ^ 32
  · have hloop := lengthLoop_spec h (n := 0) (i := 0) (repstr.length + 1) (Nat.zero_le repstr.length)
      (Nat.lt_succ_self _) (by omega)
    rw [Nat.sub_zero, Nat.zero_add, List.drop_zero] at hloop
    rw [if_pos hlength]
    exact hloop
  · rw [if_neg hlength, lengthLoop_none]
    refine ⟨0, ?_⟩
    simp only [substituteUpTo, List.length_nil]
    omega

/-! ## The appends -/

/-- An append that fits. -/
theorem infallibleAppend_of_le {chars : List UInt16}
    (h : sb.chars.length + chars.length ≤ sb.capacity) :
    sb.infallibleAppend chars = .ok { sb with chars := sb.chars ++ chars } := if_pos h

/-- The loop over the dollars appends what they stand for, and what is between them. -/
theorem replaceLoop_spec (h : res.IsOf text m) {cp i : ℕ} (sb : StringBuffer) (fuel : ℕ) (hcp : cp ≤ i)
    (hi : i ≤ repstr.length) (hfuel : repstr.length - i < fuel)
    (hcapacity : sb.chars.length + ((repstr.drop cp).take (i - cp)).length +
      (substitute text m (repstr.drop i)).length ≤ sb.capacity) :
    replaceLoop res repstr fuel (strchrDollar repstr i) cp sb =
      .ok { sb with chars := sb.chars ++ ((repstr.drop cp).take (i - cp) ++
        substitute text m (repstr.drop i)) } := by
  induction fuel generalizing cp i sb with
  | zero => omega
  | succ fuel ih =>
    cases hdollar : strchrDollar repstr i with
    | none =>
      have hplain := substitute_append text m [] (strchrDollar_eq_none hdollar)
      rw [List.append_nil, show substitute text m [] = [] from rfl, List.append_nil] at hplain
      rw [hplain, ← drop_eq_take_append hcp, replaceLoop]
      apply infallibleAppend_of_le
      rw [hplain, Nat.add_assoc, ← List.length_append, ← drop_eq_take_append hcp] at hcapacity
      exact hcapacity
    | some dp =>
      obtain ⟨hle, hlt, hdrop, _⟩ := strchrDollar_eq_some hdollar
      have hinterprets := interpretDollar_interprets h repstr dp
      have hsubstitute := substitute_drop text m hdollar
      have htake := take_append_take repstr hcp hle
      have hlength := congrArg List.length htake
      rw [List.length_append] at hlength
      have hlength' := congrArg List.length hsubstitute
      rw [List.length_append, List.length_append] at hlength'
      rw [replaceLoop, infallibleAppend_of_le (by omega)]
      simp only [bind, Except.bind]
      cases hdp : interpretDollar res repstr dp with
      | none =>
        rw [hdp] at hinterprets
        rw [item_of_none hinterprets] at hsubstitute hlength'
        have hone : (repstr.drop dp).take (dp + 1 - dp) = [dollar] := by
          rw [hdrop, Nat.add_sub_cancel_left]
          rfl
        dsimp only at hsubstitute hlength' ⊢
        rw [ih _ (show dp ≤ dp + 1 by omega) hlt (by omega)]
        · rw [hone, hsubstitute, htake]
          simp only [List.append_assoc]
        · show _ ≤ sb.capacity
          rw [hone, List.length_append]
          omega
      | some p =>
        obtain ⟨sub, skip⟩ := p
        rw [hdp] at hinterprets
        obtain ⟨hskip, hbound, hsymbol⟩ := hinterprets
        rw [item_of_symbol hsymbol] at hsubstitute hlength'
        dsimp only at hsubstitute hlength' ⊢
        rw [infallibleAppend_of_le (by
          dsimp only
          rw [List.length_append]
          omega)]
        dsimp only
        rw [ih _ (Nat.le_refl _) hbound (by omega)]
        · rw [Nat.sub_self, List.take_zero, hsubstitute, htake]
          simp only [List.append_assoc, List.nil_append]
        · show _ ≤ sb.capacity
          rw [Nat.sub_self, List.take_zero, List.length_append, List.length_append, List.length_nil]
          omega

/-- The second scan appends what a replacement stands for, if there is space for that. -/
theorem doReplace_spec (h : res.IsOf text m)
    (hcapacity : sb.chars.length + (substitute text m repstr).length ≤ sb.capacity) :
    doReplace res repstr sb = .ok { sb with chars := sb.chars ++ substitute text m repstr } := by
  have hloop := replaceLoop_spec h sb (repstr.length + 1) (Nat.le_refl 0) (Nat.zero_le repstr.length)
    (Nat.lt_succ_self repstr.length) (by
      rw [Nat.sub_self, List.take_zero, List.length_nil, List.drop_zero]
      exact hcapacity)
  rw [Nat.sub_self, List.take_zero, List.nil_append, List.drop_zero] at hloop
  exact hloop

end SpiderMonkey.Vm.RegExpReplace
