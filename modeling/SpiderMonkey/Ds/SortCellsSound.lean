import SpiderMonkey.Ds.SortCells
import SpiderMonkey.Ds.SortSound

/-!
# Merge sort in its two buffers sorts

Each loop leaves a rearrangement of the items it works on in their cells, whatever the comparator does, and
fails only if a call of the comparator does. If the comparator answers by a relation, the rearrangement is
the one that the merge sort of lists makes.
-/

namespace SpiderMonkey.Ds.SortCells

open Lib
open Ds.Sort (INS_SORT_LIMIT)

variable {T S A B : Type} {c : Comparator T S} {P : A → Prop} {Q : B → Prop} {s : S}

/-! ## Calls that end well -/

/-- The comparator answers by a relation, whatever the state. -/
def Answers (c : Comparator T S) (le : T → T → Bool) : Prop := ∀ a b s, ∃ s', c a b s = some (le a b, s')

/-- The comparator fails at some call. -/
def Fails (c : Comparator T S) : Prop := ∃ a b s, c a b s = none

/-- A comparator that answers by a relation does not fail. -/
theorem Answers.not_fails {le : T → T → Bool} (h : Answers c le) : ¬ Fails c := by
  rintro ⟨a, b, s, hnone⟩
  obtain ⟨s', hsome⟩ := h a b s
  rw [hnone] at hsome
  cases hsome

/-- A call gives something with a property, or the comparator fails. -/
def Ends (c : Comparator T S) (r : Except Failure (A × S)) (P : A → Prop) : Prop :=
  (∃ a s, r = .ok (a, s) ∧ P a) ∨ (r = .error .comparator ∧ Fails c)

/-- A call that gives something. -/
theorem Ends.ok {a : A} (h : P a) : Ends c (.ok (a, s)) P := Or.inl ⟨a, s, rfl, h⟩

/-- A call and what comes after it. -/
theorem Ends.bind {r : Except Failure (A × S)} {f : A × S → Except Failure (B × S)} (h : Ends c r P)
    (hf : ∀ a s, P a → Ends c (f (a, s)) Q) : Ends c (r >>= f) Q := by
  rcases h with ⟨a, s, rfl, hP⟩ | ⟨rfl, hfails⟩
  · exact hf a s hP
  · exact Or.inr ⟨rfl, hfails⟩

/-- A weaker property. -/
theorem Ends.imp {r : Except Failure (A × S)} {P' : A → Prop} (h : Ends c r P) (himp : ∀ a, P a → P' a) :
    Ends c r P' := by
  rcases h with ⟨a, s, hr, hP⟩ | h
  · exact Or.inl ⟨a, s, hr, himp a hP⟩
  · exact Or.inr h

/-- A call of the comparator. -/
theorem compare_ends (c : Comparator T S) (a b : T) (s : S) :
    Ends c (compare c a b s) fun answer => ∀ le, Answers c le → answer = le a b := by
  rw [compare]
  cases hcall : c a b s with
  | none => exact Or.inr ⟨rfl, a, b, s, hcall⟩
  | some answer =>
    refine Or.inl ⟨answer.1, answer.2, rfl, fun le hle => ?_⟩
    obtain ⟨s', hsome⟩ := hle a b s
    rw [hcall] at hsome
    cases hsome
    rfl

/-- The comparator of lists that answers by a relation. -/
abbrev listed (le : T → T → Bool) : Sort.Comparator T := fun a b => some (le a b)

/-! ## Cells -/

/-- A cell behind others. -/
theorem read_append (front back : List T) (x : T) {i : ℕ} (hi : i = front.length) :
    read (front ++ x :: back) i = .ok x := by
  rw [read, hi, List.getElem?_append_right (Nat.le_refl _), Nat.sub_self]
  rfl

/-- A cell from which on there is something. -/
theorem read_of_drop {vec rest : List T} {i : ℕ} {x : T} (h : vec.drop i = x :: rest) :
    read vec i = .ok x := by
  have hget : vec[i]? = some x := by
    rw [← Nat.add_zero i, ← List.getElem?_drop, h]
    rfl
  rw [read, hget]

/-- What is behind a cell. -/
theorem drop_succ_of_drop {vec rest : List T} {i : ℕ} {x : T} (h : vec.drop i = x :: rest) :
    vec.drop (i + 1) = rest := by
  rw [← List.drop_drop, h]
  rfl

/-- Write a cell behind others. -/
theorem write_append (front back : List T) (x y : T) {i : ℕ} (hi : i = front.length) :
    write (front ++ x :: back) i y = .ok (front ++ y :: back) := by
  rw [write, if_pos (by rw [hi, List.length_append, List.length_cons]; omega), hi,
    List.set_append_right _ _ (Nat.le_refl _), Nat.sub_self, List.set_cons_zero]

/-- Items are copied to the cells behind others. -/
theorem copyNonEmptyArray_eq (src xs : List T) :
    ∀ (front back rest : List T) (i k : ℕ), xs ≠ [] → src.drop i = xs ++ rest → k = front.length →
      xs.length ≤ back.length →
        copyNonEmptyArray src i k xs.length (front ++ back) = .ok (front ++ xs ++ back.drop xs.length) := by
  induction xs with
  | nil => exact fun _ _ _ _ _ hne => absurd rfl hne
  | cons x xs ih =>
    intro front back rest i k _ hsrc hk hroom
    cases back with
    | nil => exact absurd hroom (Nat.not_succ_le_zero _)
    | cons y back =>
      rw [List.length_cons, copyNonEmptyArray, read_of_drop hsrc]
      dsimp only [bind, Except.bind]
      rw [write_append front back y x hk]
      dsimp only
      by_cases hlast : xs = []
      · rw [hlast, List.length_nil, if_pos rfl, List.append_assoc, List.singleton_append]
        rfl
      · rw [if_neg (mt List.length_eq_zero_iff.mp hlast), List.append_cons front x back,
          ih (front ++ [x]) back rest (i + 1) (k + 1) hlast (drop_succ_of_drop hsrc)
            (by rw [hk, List.length_append, List.length_singleton])
            (by simpa using hroom), List.append_cons front x xs, List.drop_succ_cons]

/-! ## Chunks -/

/-- An item comes to its place among those before it. -/
theorem sinkLoop_ends (c : Comparator T S) (front before : List T) :
    ∀ (back : List T) (x : T) (j : ℕ) (s : S), before ≠ [] → j = front.length + before.length →
      Ends c (sinkLoop c front.length j (front ++ before.reverse ++ x :: back) s) fun array =>
        ∃ r, array = front ++ r.reverse ++ back ∧ r.Perm (x :: before) ∧
          ∀ le, Answers c le → Sort.sinkLoop (listed le) before x = some r := by
  induction before with
  | nil => exact fun _ _ _ _ hne => absurd rfl hne
  | cons p before ih =>
    intro back x j s _ hj
    rw [List.length_cons, ← Nat.add_assoc] at hj
    have hlength : front.length + before.length = (front ++ before.reverse).length := by
      rw [List.length_append, List.length_reverse]
    have harray : front ++ (p :: before).reverse ++ x :: back = front ++ before.reverse ++ p :: x :: back := by
      simp only [List.reverse_cons, List.append_assoc, List.singleton_append]
    have harray' : front ++ before.reverse ++ p :: x :: back =
        front ++ before.reverse ++ [p] ++ x :: back := List.append_cons _ _ _
    have hsecond (y : T) : front.length + before.length + 1 = (front ++ before.reverse ++ [y]).length := by
      rw [List.length_append, List.length_singleton, hlength]
    rw [harray, hj, sinkLoop, read_append _ _ p hlength]
    dsimp only [bind, Except.bind]
    rw [harray', read_append _ back x (hsecond p)]
    apply Ends.bind (compare_ends c p x s)
    intro lessOrEqual s hanswer
    dsimp only
    cases lessOrEqual with
    | true =>
      refine Ends.ok ⟨x :: p :: before, ?_, List.Perm.refl _, fun le hle => ?_⟩
      · simp
      · rw [Sort.sinkLoop]
        exact if_pos (hanswer le hle).symm
    | false =>
      have hlist (le : T → T → Bool) (hle : Answers c le) (r : List T)
          (h : Sort.sinkLoop (listed le) before x = some r) :
          Sort.sinkLoop (listed le) (p :: before) x = some (p :: r) := by
        rw [Sort.sinkLoop, h]
        exact if_neg (Bool.eq_false_iff.mp (hanswer le hle).symm)
      rw [if_neg Bool.false_ne_true, ← harray', write_append _ _ p x hlength, List.append_cons]
      dsimp only
      rw [write_append _ back x p (hsecond x)]
      dsimp only
      by_cases hlo : before = []
      · subst hlo
        rw [List.length_nil, Nat.add_zero, if_pos rfl]
        refine Ends.ok ⟨[p, x], ?_, List.Perm.swap x p [], fun le hle => hlist le hle [x] rfl⟩
        simp
      · have hpos := List.length_pos_iff.mpr hlo
        rw [if_neg (by omega), ← List.append_cons]
        apply (ih (p :: back) x _ s hlo rfl).imp
        rintro array ⟨r, rfl, hperm, hr⟩
        refine ⟨p :: r, ?_, ?_, fun le hle => hlist le hle r (hr le hle)⟩
        · simp only [List.reverse_cons, List.append_assoc, List.singleton_append]
        · exact (hperm.cons p).trans (List.Perm.swap x p before)

/-- The items of a chunk come to their places one after another. -/
theorem insertLoop_ends (c : Comparator T S) (front back rest : List T) :
    ∀ (before : List T) (i : ℕ) (s : S), before ≠ [] → i = front.length + before.length →
      Ends c (insertLoop c front.length (i + rest.length) (rest.length + 1) i
          (front ++ before.reverse ++ (rest ++ back)) s) fun array =>
        ∃ r, array = front ++ r.reverse ++ back ∧ r.Perm (before ++ rest) ∧
          ∀ le, Answers c le → rest.foldlM (Sort.sinkLoop (listed le)) before = some r := by
  induction rest with
  | nil =>
    intro before i s _ _
    rw [insertLoop, List.length_nil, Nat.add_zero, if_pos rfl]
    refine Ends.ok ⟨before, rfl, ?_, fun _ _ => rfl⟩
    rw [List.append_nil]
  | cons x rest ih =>
    intro before i s hne hi
    rw [insertLoop, if_neg (by rw [List.length_cons]; omega), List.cons_append]
    apply Ends.bind (sinkLoop_ends c front before (rest ++ back) x i s hne hi)
    rintro array s ⟨r, rfl, hperm, hr⟩
    have hlength := hperm.length_eq
    rw [List.length_cons] at hlength
    have hrest := ih r (i + 1) s (List.ne_nil_of_length_pos (by omega)) (by omega)
    rw [show i + 1 + rest.length = i + (x :: rest).length by rw [List.length_cons]; omega] at hrest
    apply hrest.imp
    rintro array ⟨r', rfl, hperm', hr'⟩
    refine ⟨r', rfl, ?_, fun le hle => ?_⟩
    · exact hperm'.trans ((hperm.append_right rest).trans List.perm_middle.symm)
    · rw [List.foldlM_cons, hr le hle]
      exact hr' le hle

/-- The chunks are sorted one after another. -/
theorem chunkLoop_ends (c : Comparator T S) (fuel : ℕ) :
    ∀ (front rest : List T) (lo : ℕ) (s : S), lo = front.length ∨ rest = [] ∧ front.length ≤ lo →
      rest.length < fuel →
        Ends c (chunkLoop c (front ++ rest).length fuel lo (front ++ rest) s) fun array =>
          ∃ r, array = front ++ r ∧ r.Perm rest ∧
            ∀ le, Answers c le → Sort.sortChunks (listed le) fuel rest = some r := by
  induction fuel with
  | zero => exact fun _ _ _ _ _ hlt => absurd hlt (Nat.not_lt_zero _)
  | succ fuel ih =>
    intro front rest lo s hlo hlt
    cases rest with
    | nil =>
      rw [chunkLoop, if_neg (by rw [List.append_nil]; omega)]
      exact Ends.ok ⟨[], rfl, List.Perm.refl _, fun _ _ => rfl⟩
    | cons x tail =>
      obtain rfl : lo = front.length := hlo.resolve_right fun h => absurd h.1 (List.cons_ne_nil _ _)
      have hlimit : INS_SORT_LIMIT = 2 + 1 := rfl
      have htake := List.length_take (i := 2) (l := tail)
      have hdrop := List.length_drop (i := 2) (l := tail)
      have htail := List.take_append_drop 2 tail
      have hnelems : (front ++ x :: tail).length = front.length + (tail.length + 1) := by
        rw [List.length_append, List.length_cons]
      have hhi : (if front.length + INS_SORT_LIMIT ≥ (front ++ x :: tail).length then
          (front ++ x :: tail).length else front.length + INS_SORT_LIMIT) =
            front.length + 1 + (tail.take 2).length := by
        rw [hnelems, hlimit]
        split_ifs <;> omega
      have hfuel : front.length + 1 + (tail.take 2).length - front.length = (tail.take 2).length + 1 := by
        omega
      have hchunk := insertLoop_ends c front (tail.drop 2) (tail.take 2) [x] (front.length + 1) s
        (List.cons_ne_nil _ _) rfl
      rw [htail, List.reverse_singleton, List.append_assoc, List.singleton_append] at hchunk
      rw [chunkLoop, if_pos (by omega)]
      dsimp only
      rw [hhi, hfuel]
      apply Ends.bind hchunk
      rintro array s ⟨r, rfl, hperm, hr⟩
      have hlength := hperm.length_eq
      rw [List.singleton_append, List.length_cons] at hlength
      have hrest := ih (front ++ r.reverse) (tail.drop 2) (front.length + INS_SORT_LIMIT) s (by
          rw [List.length_append, List.length_reverse, hlength, ← List.length_eq_zero_iff, hlimit]
          omega)
        (by rw [List.length_cons] at hlt; omega)
      have hsame : (front ++ r.reverse ++ tail.drop 2).length = (front ++ x :: tail).length := by
        rw [hnelems, List.length_append, List.length_append, List.length_reverse]
        omega
      rw [hsame] at hrest
      apply hrest.imp
      rintro array ⟨r', rfl, hperm', hr'⟩
      refine ⟨r.reverse ++ r', List.append_assoc _ _ _, ?_, fun le hle => ?_⟩
      · have hboth := ((List.reverse_perm r).trans hperm).append hperm'
        rw [List.append_assoc, htail] at hboth
        exact hboth
      · have hfold : List.foldlM (Sort.sinkLoop (listed le)) [] (x :: tail.take 2) = some r := hr le hle
        have hinsert : Sort.insertionSort (listed le) ((x :: tail).take INS_SORT_LIMIT) =
            some r.reverse := by
          rw [Sort.insertionSort, hlimit, List.take_succ_cons, hfold]
          rfl
        rw [Sort.sortChunks, if_neg (by rw [List.length_cons]; omega), hinsert, hlimit,
          List.drop_succ_cons, Option.bind_eq_bind, Option.bind_some, hr' le hle]
        rfl

/-! ## Runs -/

/-- The loop that merges leaves the end of one run to be copied. -/
theorem mergeLoop_ends (c : Comparator T S) (src xs : List T) :
    ∀ (ys front back rest rest' : List T) (a b k : ℕ) (s : S), xs ≠ [] → ys ≠ [] →
      src.drop a = xs ++ rest → src.drop b = ys ++ rest' → k = front.length →
        xs.length + ys.length ≤ back.length →
          Ends c (mergeLoop c src a b xs.length ys.length k (front ++ back) s) fun p =>
            ∃ merged left after, p = (front ++ merged ++ back.drop merged.length,
                front.length + merged.length, p.2.2.1, left.length) ∧ left ≠ [] ∧
              src.drop p.2.2.1 = left ++ after ∧ (merged ++ left).Perm (xs ++ ys) ∧
              ∀ le, Answers c le → Sort.mergeLoop (listed le) xs ys = some (merged ++ left) := by
  induction xs with
  | nil => exact fun _ _ _ _ _ _ _ _ _ hne => absurd rfl hne
  | cons x xs ihx =>
    intro ys
    induction ys with
    | nil => exact fun _ _ _ _ _ _ _ _ _ hne => absurd rfl hne
    | cons y ys ihy =>
      intro front back rest rest' a b k s _ _ hx hy hk hroom
      cases back with
      | nil => exact absurd hroom (by simp)
      | cons z back =>
        simp only [List.length_cons] at hroom ⊢
        rw [mergeLoop, read_of_drop hx]
        dsimp only [bind, Except.bind]
        rw [read_of_drop hy]
        apply Ends.bind (compare_ends c x y s)
        intro lessOrEqual s hanswer
        dsimp only
        cases lessOrEqual with
        | true =>
          have hlist (le : T → T → Bool) (hle : Answers c le) (r : List T)
              (h : Sort.mergeLoop (listed le) xs (y :: ys) = some r) :
              Sort.mergeLoop (listed le) (x :: xs) (y :: ys) = some (x :: r) := by
            rw [Sort.mergeLoop, h]
            exact if_pos (hanswer le hle).symm
          rw [if_pos rfl, write_append front back z x hk]
          dsimp only
          by_cases hlast : xs = []
          · subst hlast
            rw [List.length_nil, if_pos rfl]
            refine Ends.ok ⟨[x], y :: ys, rest', ?_, List.cons_ne_nil _ _, hy, List.Perm.refl _,
              fun le hle => hlist le hle (y :: ys) (by rw [Sort.mergeLoop])⟩
            simp [hk]
          · rw [if_neg (mt List.length_eq_zero_iff.mp hlast), List.append_cons]
            apply (ihx (y :: ys) (front ++ [x]) back rest rest' (a + 1) b (k + 1) s hlast
              (List.cons_ne_nil _ _) (drop_succ_of_drop hx) hy
              (by rw [hk, List.length_append, List.length_singleton])
              (by rw [List.length_cons]; omega)).imp
            rintro p ⟨merged, left, after, hp, hleft, hsrc, hperm, hr⟩
            refine ⟨x :: merged, left, after, ?_, hleft, hsrc, hperm.cons x,
              fun le hle => hlist le hle _ (hr le hle)⟩
            rw [hp]
            simp [Nat.add_assoc, Nat.add_comm 1]
        | false =>
          have hlist (le : T → T → Bool) (hle : Answers c le) (r : List T)
              (h : Sort.mergeLoop (listed le) (x :: xs) ys = some r) :
              Sort.mergeLoop (listed le) (x :: xs) (y :: ys) = some (y :: r) := by
            rw [Sort.mergeLoop, h]
            exact if_neg (Bool.eq_false_iff.mp (hanswer le hle).symm)
          rw [if_neg Bool.false_ne_true, write_append front back z y hk]
          dsimp only
          by_cases hlast : ys = []
          · subst hlast
            rw [List.length_nil, if_pos rfl]
            refine Ends.ok ⟨[y], x :: xs, rest, ?_, List.cons_ne_nil _ _, hx,
              List.perm_append_comm, fun le hle => hlist le hle (x :: xs) (by rw [Sort.mergeLoop])⟩
            simp [hk]
          · rw [if_neg (mt List.length_eq_zero_iff.mp hlast), List.append_cons]
            apply (ihy (front ++ [y]) back rest rest' a (b + 1) (k + 1) s (List.cons_ne_nil _ _) hlast
              hx (drop_succ_of_drop hy) (by rw [hk, List.length_append, List.length_singleton])
              (by rw [List.length_cons]; omega)).imp
            rintro p ⟨merged, left, after, hp, hleft, hsrc, hperm, hr⟩
            refine ⟨y :: merged, left, after, ?_, hleft, hsrc, ?_,
              fun le hle => hlist le hle _ (hr le hle)⟩
            · rw [hp]
              simp [Nat.add_assoc, Nat.add_comm 1]
            · exact (hperm.cons y).trans List.perm_middle.symm

/-- Two runs are merged, or copied. -/
theorem mergeArrayRuns_ends (c : Comparator T S) (src xs ys front back rest : List T) (lo : ℕ) (s : S)
    (hxs : xs ≠ []) (hys : ys ≠ []) (hsrc : src.drop lo = xs ++ ys ++ rest) (hlo : lo = front.length)
    (hroom : xs.length + ys.length ≤ back.length) :
    Ends c (mergeArrayRuns c src lo xs.length ys.length (front ++ back) s) fun dst =>
      ∃ r, dst = front ++ r ++ back.drop r.length ∧ r.Perm (xs ++ ys) ∧
        ∀ le, Answers c le → Sort.mergeArrayRuns (listed le) xs ys = some r := by
  obtain ⟨xs', a, rfl⟩ := (List.eq_nil_or_concat xs).resolve_left hxs
  obtain ⟨b, ys', rfl⟩ := List.exists_cons_of_ne_nil hys
  rw [List.concat_eq_append] at *
  have hlast : src.drop (lo + xs'.length) = a :: (b :: ys' ++ rest) := by
    rw [← List.drop_drop, hsrc]
    simp
  have hsecond : src.drop (lo + (xs' ++ [a]).length) = b :: ys' ++ rest := by
    rw [← List.drop_drop, hsrc]
    simp
  have hpred : lo + (xs' ++ [a]).length - 1 = lo + xs'.length := by
    rw [List.length_append, List.length_singleton]
    omega
  have hpos := List.length_pos_iff.mpr hxs
  have hlist (le : T → T → Bool) : Sort.mergeArrayRuns (listed le) (xs' ++ [a]) (b :: ys') =
      if le a b then some (xs' ++ [a] ++ b :: ys') else
        Sort.mergeLoop (listed le) (xs' ++ [a]) (b :: ys') := by
    rw [Sort.mergeArrayRuns, List.getLast?_concat]
    rfl
  rw [mergeArrayRuns, if_pos ⟨hpos, by rw [List.length_cons]; omega⟩, hpred, read_of_drop hlast]
  dsimp only [bind, Except.bind]
  rw [read_of_drop hsecond]
  apply Ends.bind (compare_ends c a b s)
  intro lessOrEqual s hanswer
  dsimp only
  cases lessOrEqual with
  | true =>
    have hcopy := copyNonEmptyArray_eq src (xs' ++ [a] ++ b :: ys') front back rest lo lo
      (List.append_ne_nil_of_left_ne_nil hxs _) hsrc hlo (by rw [List.length_append]; exact hroom)
    rw [List.length_append] at hcopy
    rw [if_pos rfl, hcopy]
    refine Ends.ok ⟨xs' ++ [a] ++ b :: ys', ?_, List.Perm.refl _, fun le hle => ?_⟩
    · have hlength := @List.length_append _ (xs' ++ [a]) (b :: ys')
      rw [← hlength]
    · rw [hlist, ← hanswer le hle, if_pos rfl]
  | false =>
    have hloop := mergeLoop_ends c src (xs' ++ [a]) (b :: ys') front back (b :: ys' ++ rest) rest lo
      (lo + (xs' ++ [a]).length) lo s hxs hys (by rw [hsrc, List.append_assoc]) hsecond hlo hroom
    rw [if_neg Bool.false_ne_true]
    apply Ends.bind hloop
    rintro ⟨dst, k, i, n⟩ s ⟨merged, left, after, hp, hleft, hafter, hperm, hr⟩
    cases hp
    have hlength := hperm.length_eq
    rw [List.length_append, List.length_append] at hlength
    have hcopy := copyNonEmptyArray_eq src left (front ++ merged) (back.drop merged.length) after i
      (front.length + merged.length) hleft hafter (by rw [List.length_append])
      (by rw [List.length_drop]; omega)
    dsimp only
    rw [hcopy]
    refine Ends.ok ⟨merged ++ left, ?_, hperm, fun le hle => ?_⟩
    · rw [List.append_assoc front, List.drop_drop, List.length_append]
    · rw [hlist, ← hanswer le hle, if_neg Bool.false_ne_true]
      exact hr le hle

/-! ## Passes -/

/-- Runs are merged two by two, and the last one is copied if there is no other one. -/
theorem passLoop_ends (c : Comparator T S) (run : ℕ) (hrun : 0 < run) (vec1 : List T) (fuel : ℕ) :
    ∀ (lo : ℕ) (vec2 : List T) (s : S), vec2.length = vec1.length → vec1.length - lo < fuel →
      Ends c (passLoop c vec1.length run vec1 fuel lo vec2 s) fun vec2' =>
        ∃ r, vec2' = vec2.take lo ++ r ∧ vec2'.length = vec1.length ∧ r.Perm (vec1.drop lo) ∧
          ∀ le, Answers c le → Sort.mergePass (listed le) run fuel (vec1.drop lo) = some r := by
  induction fuel with
  | zero => exact fun _ _ _ _ hlt => absurd hlt (Nat.not_lt_zero _)
  | succ fuel ih =>
    intro lo vec2 s hlength hfuel
    rw [passLoop]
    by_cases hend : lo < vec1.length
    · have hsplit := List.take_append_drop lo vec2
      have hfront : lo = (vec2.take lo).length := by
        rw [List.length_take]
        omega
      have hback : (vec2.drop lo).length = vec1.length - lo := by rw [List.length_drop, hlength]
      have hsrc : (vec1.drop lo).length = vec1.length - lo := List.length_drop
      rw [if_pos hend]
      dsimp only
      by_cases hshort : lo + run ≥ vec1.length
      · have hcopy := copyNonEmptyArray_eq vec1 (vec1.drop lo) (vec2.take lo) (vec2.drop lo) [] lo lo
          (List.ne_nil_of_length_pos (by omega)) (List.append_nil _).symm hfront (by omega)
        rw [hsplit, hsrc, List.drop_of_length_le (Nat.le_of_eq hback), List.append_nil] at hcopy
        rw [if_pos hshort, hcopy]
        refine Ends.ok ⟨vec1.drop lo, rfl, ?_, List.Perm.refl _, fun _ _ => ?_⟩
        · rw [List.length_append, ← hfront]
          omega
        · rw [Sort.mergePass, if_pos (by omega)]
      · have hruns : vec1.drop lo = (vec1.drop lo).take run ++ ((vec1.drop lo).drop run).take run ++
            vec1.drop (lo + 2 * run) := by
          rw [List.append_assoc, show lo + 2 * run = lo + run + run by omega, ← List.drop_drop,
            ← List.drop_drop, List.take_append_drop, List.take_append_drop]
        have hrun1 : ((vec1.drop lo).take run).length = run := by
          rw [List.length_take]
          omega
        have hrun2 : (((vec1.drop lo).drop run).take run).length =
            if run ≤ vec1.length - (lo + run) then run else vec1.length - (lo + run) := by
          rw [List.length_take, List.length_drop]
          split_ifs <;> omega
        have hmerge := mergeArrayRuns_ends c vec1 ((vec1.drop lo).take run)
          (((vec1.drop lo).drop run).take run) (vec2.take lo) (vec2.drop lo) (vec1.drop (lo + 2 * run)) lo s
          (List.ne_nil_of_length_pos (by omega))
          (List.ne_nil_of_length_pos (by rw [hrun2]; split_ifs <;> omega)) hruns hfront
          (by rw [hrun1, hrun2]; split_ifs <;> omega)
        rw [hsplit, hrun1, hrun2] at hmerge
        rw [if_neg hshort]
        apply Ends.bind hmerge
        rintro vec2' s ⟨r, rfl, hperm, hr⟩
        have hr' := hperm.length_eq
        rw [List.length_append, hrun1, hrun2] at hr'
        have hdone : (vec2.take lo ++ r ++ (vec2.drop lo).drop r.length).take (lo + 2 * run) =
            vec2.take lo ++ r := by
          by_cases hfull : run ≤ vec1.length - (lo + run)
          · rw [if_pos hfull] at hr'
            exact List.take_left' (by rw [List.length_append]; omega)
          · rw [if_neg hfull] at hr'
            rw [List.drop_of_length_le (by omega), List.append_nil]
            exact List.take_of_length_le (by rw [List.length_append]; omega)
        have hrest := ih (lo + 2 * run) (vec2.take lo ++ r ++ (vec2.drop lo).drop r.length) s
          (by
            rw [List.length_append, List.length_append, List.length_drop, ← hfront]
            split_ifs at hr' <;> omega)
          (by omega)
        rw [hdone] at hrest
        apply hrest.imp
        rintro vec2' ⟨r', rfl, hlength', hperm', hr''⟩
        refine ⟨r ++ r', List.append_assoc _ _ _, hlength', ?_, fun le hle => ?_⟩
        · rw [hruns]
          exact hperm.append hperm'
        · rw [Sort.mergePass, if_neg (by omega), hr le hle, List.drop_drop, Option.bind_eq_bind,
            Option.bind_some, hr'' le hle]
          rfl
    · have hnil : vec1.drop lo = [] := List.drop_of_length_le (by omega)
      rw [if_neg hend, hnil]
      refine Ends.ok ⟨[], ?_, hlength, List.Perm.refl _, fun _ _ => ?_⟩
      · rw [List.append_nil, List.take_of_length_le (by omega)]
      · rw [Sort.mergePass]
        exact if_pos (Nat.zero_le _)

/-- The passes leave the items in one of the buffers. -/
theorem passesLoop_ends (c : Comparator T S) (nelems fuel : ℕ) :
    ∀ (run : ℕ) (vecs : Buffers T) (s : S), 0 < run → vecs.vec1.length = nelems →
      vecs.vec2.length = nelems → nelems < run * 2 ^ fuel →
        Ends c (passesLoop c nelems (fuel + 1) run vecs s) fun vecs' =>
          vecs'.vec2.length = nelems ∧ vecs'.vec1.Perm vecs.vec1 ∧
            ∀ le, Answers c le → Sort.mergePasses (listed le) (fuel + 1) run vecs.vec1 = some vecs'.vec1 := by
  induction fuel with
  | zero =>
    intro run vecs s _ hvec1 hvec2 hlt
    rw [Nat.pow_zero, Nat.mul_one] at hlt
    rw [passesLoop, if_neg (by omega)]
    refine Ends.ok ⟨hvec2, List.Perm.refl _, fun _ _ => ?_⟩
    rw [Sort.mergePasses, if_neg (by omega)]
  | succ fuel ih =>
    intro run vecs s hrun hvec1 hvec2 hlt
    rw [passesLoop]
    by_cases hmore : run < nelems
    · have hpass := passLoop_ends c run hrun vecs.vec1 (nelems + 1) 0 vecs.vec2 s (hvec2.trans hvec1.symm)
        (by omega)
      rw [hvec1] at hpass
      rw [if_pos hmore]
      apply Ends.bind hpass
      rintro vec2 s ⟨r, hvec2', hlength, hperm, hr⟩
      rw [List.take_zero, List.nil_append] at hvec2'
      subst hvec2'
      rw [List.drop_zero] at hperm hr
      apply (ih (run * 2) ⟨vec2, vecs.vec1, !vecs.inArray⟩ s (by omega) hlength hvec1
        (by rw [Nat.mul_assoc, ← Nat.pow_succ']; exact hlt)).imp
      rintro vecs' ⟨hlength', hperm', hr'⟩
      refine ⟨hlength', hperm'.trans hperm, fun le hle => ?_⟩
      rw [Sort.mergePasses, if_pos (by omega), hvec1, hr le hle]
      exact hr' le hle
    · rw [if_neg hmore]
      refine Ends.ok ⟨hvec2, List.Perm.refl _, fun _ _ => ?_⟩
      rw [Sort.mergePasses, if_neg (by omega)]

/-- The merge sort leaves a rearrangement of the items in the array, that of the merge sort of lists if
the comparator answers by a relation. -/
theorem mergeSort_ends (c : Comparator T S) (array scratch : List T) (hscratch : scratch.length = array.length)
    (s : S) :
    Ends c (mergeSort c array scratch s) fun array' =>
      array'.Perm array ∧ ∀ le, Answers c le → Sort.mergeSort (listed le) array = some array' := by
  rw [mergeSort]
  dsimp only
  by_cases hshort : array.length ≤ 1
  · rw [if_pos hshort]
    refine Ends.ok ⟨List.Perm.refl _, fun _ _ => ?_⟩
    rw [Sort.mergeSort, if_pos hshort]
  · rw [if_neg hshort]
    apply Ends.bind (chunkLoop_ends c (array.length + 1) [] array 0 s (Or.inl rfl) (Nat.lt_succ_self _))
    rintro chunks s ⟨r, hchunks, hperm, hr⟩
    rw [List.nil_append] at hchunks
    subst hchunks
    dsimp only
    have hpow := Nat.lt_two_pow_self (n := array.length)
    apply Ends.bind (passesLoop_ends c array.length array.length INS_SORT_LIMIT ⟨chunks, scratch, true⟩ s
      (by decide) hperm.length_eq hscratch (by rw [INS_SORT_LIMIT]; omega))
    rintro ⟨vec1, vec2, inArray⟩ s ⟨hvec2, hperm', hr'⟩
    have hsame (le : T → T → Bool) (hle : Answers c le) : Sort.mergeSort (listed le) array = some vec1 := by
      rw [Sort.mergeSort, if_neg hshort, hr le hle]
      exact hr' le hle
    dsimp only at hvec2 hperm' ⊢
    cases inArray with
    | true =>
      rw [if_pos rfl]
      exact Ends.ok ⟨hperm'.trans hperm, hsame⟩
    | false =>
      have hvec1 := hperm'.length_eq.trans hperm.length_eq
      have hcopy := copyNonEmptyArray_eq vec1 vec1 [] vec2 [] 0 0 (List.ne_nil_of_length_pos (by omega))
        (List.append_nil _).symm rfl (by omega)
      rw [hvec1, List.nil_append, List.nil_append, List.drop_of_length_le (Nat.le_of_eq hvec2),
        List.append_nil] at hcopy
      rw [if_neg Bool.false_ne_true, hcopy]
      exact Ends.ok ⟨hperm'.trans hperm, hsame⟩

/-! ## The merge sort -/

/-- With a comparator that answers by a total preorder the merge sort makes the stable sort. With any
comparator it fails only if a call of the comparator does, never at a cell outside a buffer, and what it
leaves in the array otherwise is a rearrangement of the items. -/
theorem mergeSort_stable (c : Comparator T S) (array scratch : List T)
    (hscratch : scratch.length = array.length) (s : S) :
    (∀ le, IsTotalPreorder le → Answers c le →
      ∃ array' s', mergeSort c array scratch s = .ok (array', s') ∧ IsStableSort le array array') ∧
    (∀ failure, mergeSort c array scratch s = .error failure → failure = .comparator ∧ Fails c) ∧
    ∀ array' s', mergeSort c array scratch s = .ok (array', s') → array'.Perm array := by
  have hends := mergeSort_ends c array scratch hscratch s
  refine ⟨fun le hle hanswers => ?_, fun failure hfailure => ?_, fun array' s' hok => ?_⟩
  · rcases hends with ⟨array', s', hok, -, hlist⟩ | ⟨-, hfails⟩
    · obtain ⟨r, hr, hsort⟩ := Sort.mergeSort_sorts hle (c := listed le) (fun _ _ => rfl) array
      rw [hlist le hanswers] at hr
      cases hr
      exact ⟨array', s', hok, hsort⟩
    · exact absurd hfails hanswers.not_fails
  · rcases hends with ⟨array', s', hok, -⟩ | ⟨herror, hfails⟩
    · rw [hok] at hfailure
      cases hfailure
    · rw [herror] at hfailure
      cases hfailure
      exact ⟨rfl, hfails⟩
  · rcases hends with ⟨array'', s'', hok', hperm, -⟩ | ⟨herror, -⟩
    · rw [hok'] at hok
      cases hok
      exact hperm
    · rw [herror] at hok
      cases hok

/-- A comparator that answers by the size of numbers is called on four of them. -/
theorem mergeSort_stable_four :
    ∃ array' s', mergeSort (fun a b calls => some (decide (a ≤ b), calls + 1)) [3, 1, 2, 0] [0, 0, 0, 0] 0 =
      .ok (array', s') ∧ IsStableSort (fun a b : ℕ => decide (a ≤ b)) [3, 1, 2, 0] array' :=
  (mergeSort_stable (fun a b calls => some (decide (a ≤ b), calls + 1)) [3, 1, 2, 0] [0, 0, 0, 0] rfl
    (0 : ℕ)).1 (fun a b => decide (a ≤ b))
    ⟨fun a b => by simp only [decide_eq_true_eq]; omega,
      fun a b d => by simp only [decide_eq_true_eq]; omega⟩
    fun _ _ calls => ⟨calls + 1, rfl⟩

end SpiderMonkey.Ds.SortCells
