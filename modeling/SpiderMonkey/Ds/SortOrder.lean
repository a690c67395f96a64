import SpiderMonkey.Ds.SortSound

/-!
# Any comparator

What holds whether or not the answers of a comparator are consistent: sorting fails only if the
comparator does; items that are in order, each with all behind it, stay where they are; and a last item
that may not be behind any other one comes to the front, past the runs before its own.
-/

namespace SpiderMonkey.Ds.Sort

variable {T : Type} {c : Comparator T} {xs ys before r : List T} {x z : T} {run fuel : ℕ}

/-- There is something in the first part of what is not empty. -/
theorem take_ne_nil (hrun : 0 < run) (hxs : 0 < xs.length) : xs.take run ≠ [] := by
  apply List.ne_nil_of_length_pos
  rw [List.length_take]
  omega

/-- There is more than enough fuel for the passes. -/
theorem length_lt_limit_mul (n : ℕ) : n < INS_SORT_LIMIT * 2 ^ n :=
  calc n < 2 ^ n := Nat.lt_two_pow_self
    _ ≤ INS_SORT_LIMIT * 2 ^ n := Nat.le_mul_of_pos_left _ (by decide)

/-! ## Answers without fail -/

section Total

variable (hc : ∀ a b, ∃ lessOrEqual, c a b = some lessOrEqual)
include hc

/-- An item comes to its place. -/
theorem sinkLoop_isSome (before : List T) (x : T) : ∃ r, sinkLoop c before x = some r := by
  induction before with
  | nil => exact ⟨[x], rfl⟩
  | cons p before ih =>
    obtain ⟨lessOrEqual, hle⟩ := hc p x
    obtain ⟨r, hr⟩ := ih
    rw [sinkLoop, hle]
    cases lessOrEqual with
    | true => exact ⟨_, rfl⟩
    | false => exact ⟨p :: r, by rw [hr]; rfl⟩

/-- Items come to their places. -/
theorem foldlM_sinkLoop_isSome (chunk before : List T) :
    ∃ r, chunk.foldlM (sinkLoop c) before = some r := by
  induction chunk generalizing before with
  | nil => exact ⟨before, rfl⟩
  | cons x chunk ih =>
    obtain ⟨r, hr⟩ := sinkLoop_isSome hc before x
    rw [List.foldlM_cons, hr]
    exact ih r

/-- The chunks are sorted. -/
theorem sortChunks_isSome (fuel : ℕ) (xs : List T) (hfuel : xs.length < fuel) :
    ∃ r, sortChunks c fuel xs = some r := by
  induction fuel generalizing xs with
  | zero => omega
  | succ fuel ih =>
    rw [sortChunks]
    split_ifs with hnil
    · exact ⟨[], rfl⟩
    · have hlimit : INS_SORT_LIMIT = 3 := rfl
      obtain ⟨sorted, hsorted⟩ := foldlM_sinkLoop_isSome hc (xs.take INS_SORT_LIMIT) []
      obtain ⟨rest, hrest⟩ := ih (xs.drop INS_SORT_LIMIT) (by
        rw [List.length_drop]
        omega)
      rw [insertionSort, hsorted, hrest]
      exact ⟨_, rfl⟩

/-- The items of two runs are taken. -/
theorem mergeLoop_isSome (xs ys : List T) : ∃ r, mergeLoop c xs ys = some r := by
  induction xs generalizing ys with
  | nil => exact ⟨ys, by rw [mergeLoop]⟩
  | cons x xs ihx =>
    induction ys with
    | nil => exact ⟨x :: xs, by rw [mergeLoop]⟩
    | cons y ys ihy =>
      obtain ⟨lessOrEqual, hle⟩ := hc x y
      obtain ⟨r, hr⟩ := ihx (y :: ys)
      obtain ⟨r', hr'⟩ := ihy
      rw [mergeLoop, hle]
      cases lessOrEqual with
      | true => exact ⟨x :: r, by simp [hr]⟩
      | false => exact ⟨y :: r', by simp [hr']⟩

/-- Two runs are merged. -/
theorem mergeArrayRuns_isSome (hxs : xs ≠ []) (hys : ys ≠ []) :
    ∃ r, mergeArrayRuns c xs ys = some r := by
  obtain ⟨lessOrEqual, hle⟩ := hc (xs.getLast hxs) (ys.head hys)
  rw [mergeArrayRuns, List.getLast?_eq_some_getLast hxs, List.head?_eq_some_head hys]
  simp only [Option.bind_eq_bind, Option.bind_some, hle]
  cases lessOrEqual with
  | true => exact ⟨_, rfl⟩
  | false => exact mergeLoop_isSome hc xs ys

/-- A pass gets to the end. -/
theorem mergePass_isSome (hrun : 0 < run) (fuel : ℕ) (xs : List T) (hfuel : xs.length < fuel) :
    ∃ r, mergePass c run fuel xs = some r := by
  induction fuel generalizing xs with
  | zero => omega
  | succ fuel ih =>
    rw [mergePass]
    split_ifs with hshort
    · exact ⟨xs, rfl⟩
    · have hfirst : xs.take run ≠ [] := take_ne_nil hrun (by omega)
      have hsecond : (xs.drop run).take run ≠ [] := by
        apply take_ne_nil hrun
        rw [List.length_drop]
        omega
      obtain ⟨merged, hmerged⟩ := mergeArrayRuns_isSome hc hfirst hsecond
      obtain ⟨rest, hrest⟩ := ih (xs.drop (2 * run)) (by
        rw [List.length_drop]
        omega)
      rw [hmerged, hrest]
      exact ⟨_, rfl⟩

/-- The passes get to one run. -/
theorem mergePasses_isSome (hrun : 0 < run) (fuel : ℕ) (xs : List T)
    (hfuel : xs.length < run * 2 ^ fuel) : ∃ r, mergePasses c (fuel + 1) run xs = some r := by
  induction fuel generalizing run xs with
  | zero =>
    rw [mergePasses, if_neg (by omega)]
    exact ⟨xs, rfl⟩
  | succ fuel ih =>
    rw [mergePasses]
    split_ifs
    · obtain ⟨vec, hvec⟩ := mergePass_isSome hc hrun (xs.length + 1) xs (Nat.lt_succ_self _)
      rw [hvec]
      apply ih (by omega)
      rw [(mergePass_perm hvec).length_eq, Nat.mul_assoc, ← Nat.pow_succ']
      exact hfuel
    · exact ⟨xs, rfl⟩

/-- Sorting fails only if the comparator does. -/
theorem mergeSort_isSome (xs : List T) : ∃ r, mergeSort c xs = some r := by
  rw [mergeSort]
  split_ifs
  · exact ⟨xs, rfl⟩
  · obtain ⟨vec, hvec⟩ := sortChunks_isSome hc (xs.length + 1) xs (Nat.lt_succ_self _)
    rw [hvec]
    apply mergePasses_isSome hc (by decide) xs.length vec
    rw [(sortChunks_perm hvec).length_eq]
    exact length_lt_limit_mul _

end Total

/-! ## Items in order -/

/-- Each item may be before all behind it. -/
abbrev InOrder (c : Comparator T) (xs : List T) : Prop := xs.Pairwise fun a b => c a b = some true

/-- Items in order are inserted where they are. -/
theorem foldlM_sinkLoop_inOrder (chunk before : List T) (h : InOrder c (before.reverse ++ chunk)) :
    chunk.foldlM (sinkLoop c) before = some (chunk.reverse ++ before) := by
  induction chunk generalizing before with
  | nil => rfl
  | cons x chunk ih =>
    have hsink : sinkLoop c before x = some (x :: before) := by
      cases before with
      | nil => rfl
      | cons p before =>
        rw [List.reverse_cons, List.append_assoc] at h
        have hpx := (List.pairwise_cons.mp (List.pairwise_append.mp h).2.1).1 x List.mem_cons_self
        simp only [sinkLoop, hpx, Option.bind_eq_bind, Option.bind_some, if_pos]
    rw [List.foldlM_cons, hsink, List.reverse_cons, List.append_assoc]
    apply ih (x :: before)
    rw [List.reverse_cons, List.append_assoc]
    exact h

/-- A chunk in order stays. -/
theorem insertionSort_inOrder (h : InOrder c xs) : insertionSort c xs = some xs := by
  rw [insertionSort, foldlM_sinkLoop_inOrder xs [] h]
  simp

/-- Chunks in order stay. -/
theorem sortChunks_inOrder (fuel : ℕ) (xs : List T) (hfuel : xs.length < fuel) (h : InOrder c xs) :
    sortChunks c fuel xs = some xs := by
  induction fuel generalizing xs with
  | zero => omega
  | succ fuel ih =>
    rw [sortChunks]
    split_ifs with hnil
    · rw [List.length_eq_zero_iff.mp hnil]
    · have hlimit : INS_SORT_LIMIT = 3 := rfl
      have hdrop : (xs.drop INS_SORT_LIMIT).length < fuel := by
        rw [List.length_drop]
        omega
      rw [insertionSort_inOrder (h.take), ih _ hdrop h.drop]
      simp

/-- Runs in order stay. -/
theorem mergeArrayRuns_inOrder (h : InOrder c (xs ++ ys)) (hxs : xs ≠ []) (hys : ys ≠ []) :
    mergeArrayRuns c xs ys = some (xs ++ ys) := by
  have hlast := List.getLast?_eq_some_getLast hxs
  have hhead := List.head?_eq_some_head hys
  have hle := (List.pairwise_append.mp h).2.2 _ (List.getLast_mem hxs) _ (List.head_mem hys)
  simp only [mergeArrayRuns, hlast, hhead, hle, Option.bind_eq_bind, Option.bind_some, if_pos]

/-- A pass over runs in order. -/
theorem mergePass_inOrder (hrun : 0 < run) (fuel : ℕ) (xs : List T) (hfuel : xs.length < fuel)
    (h : InOrder c xs) : mergePass c run fuel xs = some xs := by
  induction fuel generalizing xs with
  | zero => omega
  | succ fuel ih =>
    rw [mergePass]
    split_ifs with hshort
    · rfl
    · have htake : xs.take run ++ (xs.drop run).take run = xs.take (2 * run) := by
        rw [Nat.two_mul, List.take_add]
      have hfirst : xs.take run ≠ [] := take_ne_nil hrun (by omega)
      have hsecond : (xs.drop run).take run ≠ [] := by
        apply take_ne_nil hrun
        rw [List.length_drop]
        omega
      have hdrop : (xs.drop (2 * run)).length < fuel := by
        rw [List.length_drop]
        omega
      rw [mergeArrayRuns_inOrder (htake ▸ h.take) hfirst hsecond, ih _ hdrop h.drop, htake]
      simp

/-- The passes over runs in order. -/
theorem mergePasses_inOrder (hrun : 0 < run) (fuel : ℕ) (xs : List T)
    (hfuel : xs.length < run * 2 ^ fuel) (h : InOrder c xs) :
    mergePasses c (fuel + 1) run xs = some xs := by
  induction fuel generalizing run with
  | zero => rw [mergePasses, if_neg (by omega)]
  | succ fuel ih =>
    rw [mergePasses]
    split_ifs
    · rw [mergePass_inOrder hrun (xs.length + 1) xs (Nat.lt_succ_self _) h]
      apply ih (by omega)
      rw [Nat.mul_assoc, ← Nat.pow_succ']
      exact hfuel
    · rfl

/-- Items in order stay. -/
theorem mergeSort_inOrder (h : InOrder c xs) : mergeSort c xs = some xs := by
  rw [mergeSort]
  split_ifs
  · rfl
  · rw [sortChunks_inOrder (xs.length + 1) xs (Nat.lt_succ_self _) h]
    apply mergePasses_inOrder (by decide) xs.length xs _ h
    exact length_lt_limit_mul _

/-! ## A last item that comes first -/

/-- The last of the runs of a length starts with an item. -/
def LastRunHead (run : ℕ) (z : T) (xs : List T) : Prop :=
  ∃ k front back, xs = front ++ z :: back ∧ front.length = k * run ∧ back.length < run

section Last

variable (hz : ∀ y, c y z = some false)
include hz

/-- The item goes past all before it. -/
theorem sinkLoop_last (before : List T) : sinkLoop c before z = some (before ++ [z]) := by
  induction before with
  | nil => rfl
  | cons p before ih =>
    simp only [sinkLoop, hz p, ih, Option.bind_eq_bind, Option.bind_some, Bool.false_eq_true,
      if_false, List.cons_append]

/-- The item is the first one of its chunk. -/
theorem insertionSort_last (h : insertionSort c (xs ++ [z]) = some r) : ∃ back, r = z :: back := by
  obtain ⟨sorted, hsorted, hr⟩ := Option.bind_eq_some_iff.mp h
  rw [List.foldlM_append] at hsorted
  obtain ⟨before, _, hlast⟩ := Option.bind_eq_some_iff.mp hsorted
  rw [List.foldlM_cons, sinkLoop_last hz] at hlast
  have hsorted : before ++ [z] = sorted := Option.some_inj.mp hlast
  rw [← Option.some_inj.mp hr, ← hsorted, List.reverse_append]
  exact ⟨_, rfl⟩

/-- The last chunk starts with the item. -/
theorem sortChunks_last (fuel : ℕ) (xs : List T) {r : List T}
    (h : sortChunks c fuel (xs ++ [z]) = some r) : LastRunHead INS_SORT_LIMIT z r := by
  induction fuel generalizing xs r with
  | zero => cases h
  | succ fuel ih =>
    have hlength : (xs ++ [z]).length = xs.length + 1 := List.length_append
    rw [sortChunks, if_neg (by omega)] at h
    obtain ⟨chunk, hchunk, h⟩ := Option.bind_eq_some_iff.mp h
    obtain ⟨rest, hrest, h⟩ := Option.bind_eq_some_iff.mp h
    have hperm := (insertionSort_perm hchunk).length_eq
    rw [← Option.some_inj.mp h]
    by_cases hshort : xs.length < INS_SORT_LIMIT
    · -- the item is in this chunk
      rw [List.take_of_length_le (by omega)] at hchunk hperm
      rw [List.drop_eq_nil_of_le (by omega)] at hrest
      obtain ⟨back, rfl⟩ := insertionSort_last hz hchunk
      have hnil : rest = [] := (sortChunks_perm hrest).eq_nil
      rw [hnil, List.append_nil]
      rw [List.length_cons] at hperm
      exact ⟨0, [], back, rfl, (Nat.zero_mul _).symm, by omega⟩
    · rw [List.drop_append_of_le_length (by omega)] at hrest
      rw [List.take_append_of_le_length (by omega), List.length_take] at hperm
      obtain ⟨k, front, back, rfl, hfront, hback⟩ := ih _ hrest
      refine ⟨k + 1, chunk ++ front, back, (List.append_assoc _ _ _).symm, ?_, hback⟩
      rw [List.length_append, hfront, Nat.succ_mul]
      omega

/-- The item is taken first. -/
theorem mergeArrayRuns_last (hxs : xs ≠ []) (h : mergeArrayRuns c xs (z :: ys) = some r) :
    ∃ back, r = z :: back := by
  obtain ⟨x, xs, rfl⟩ := List.exists_cons_of_ne_nil hxs
  rw [mergeArrayRuns, List.getLast?_eq_some_getLast hxs] at h
  simp only [List.head?_cons, hz, Option.bind_eq_bind, Option.bind_some, Bool.false_eq_true, if_false,
    mergeLoop] at h
  obtain ⟨rest, _, h⟩ := Option.bind_eq_some_iff.mp h
  exact ⟨rest, (Option.some_inj.mp h).symm⟩

/-- The run with the item at its start is merged, as the last one, with the run before it. -/
theorem mergePass_last (hrun : 0 < run) (fuel : ℕ) (xs : List T) {r : List T}
    (hhead : LastRunHead run z xs) (h : mergePass c run fuel xs = some r) :
    LastRunHead (2 * run) z r := by
  induction fuel generalizing xs r with
  | zero => cases h
  | succ fuel ih =>
    obtain ⟨k, front, back, rfl, hfront, hback⟩ := hhead
    have hlength : (front ++ z :: back).length = k * run + (back.length + 1) := by
      rw [List.length_append, hfront, List.length_cons]
    rw [mergePass] at h
    split_ifs at h with hshort
    · have hk : k = 0 := by
        by_contra hk
        have hle := Nat.le_mul_of_pos_left run (Nat.pos_of_ne_zero hk)
        omega
      rw [← Option.some_inj.mp h]
      exact ⟨0, front, back, rfl, by rw [hfront, hk, Nat.zero_mul, Nat.zero_mul], by omega⟩
    obtain ⟨merged, hmerged, h⟩ := Option.bind_eq_some_iff.mp h
    obtain ⟨rest, hrest, h⟩ := Option.bind_eq_some_iff.mp h
    have hperm := (mergeArrayRuns_perm hmerged).length_eq
    rw [← Option.some_inj.mp h]
    obtain rfl | rfl | ⟨k, rfl⟩ : k = 0 ∨ k = 1 ∨ ∃ j, k = j + 2 := by
      rcases k with _ | _ | k <;> simp
    · omega
    · -- the two last runs
      rw [Nat.one_mul] at hfront hlength
      have hback' : (z :: back).take run = z :: back := by
        apply List.take_of_length_le
        rw [List.length_cons]
        omega
      rw [List.take_left' hfront, List.drop_left' hfront, hback'] at hmerged hperm
      have hne : front ≠ [] := List.ne_nil_of_length_pos (by omega)
      obtain ⟨back', rfl⟩ := mergeArrayRuns_last hz hne hmerged
      rw [List.drop_eq_nil_of_le (by omega)] at hrest
      have hnil : rest = [] := (mergePass_perm hrest).eq_nil
      rw [List.length_append, List.length_cons, List.length_cons] at hperm
      rw [hnil, List.append_nil]
      exact ⟨0, [], back', rfl, (Nat.zero_mul _).symm, by omega⟩
    · have hlong : front.length = k * run + 2 * run := by rw [hfront, Nat.add_mul]
      rw [List.drop_append_of_le_length (by omega)] at hrest
      have hmergedLength : merged.length = 2 * run := by
        rw [hperm, Nat.two_mul, ← List.take_add, List.length_take]
        omega
      obtain ⟨k', front', back', rfl, hfront', hback'⟩ := ih _
        ⟨k, front.drop (2 * run), back, rfl, by rw [List.length_drop]; omega, hback⟩ hrest
      refine ⟨k' + 1, merged ++ front', back', (List.append_assoc _ _ _).symm, ?_, hback'⟩
      rw [List.length_append, hmergedLength, hfront', Nat.add_mul k', Nat.one_mul, Nat.add_comm]

/-- The item is first when there is one run. -/
theorem mergePasses_last (hrun : 0 < run) (fuel : ℕ) (xs : List T) {r : List T}
    (hhead : LastRunHead run z xs) (h : mergePasses c fuel run xs = some r) :
    ∃ back, r = z :: back := by
  induction fuel generalizing run xs with
  | zero => cases h
  | succ fuel ih =>
    rw [mergePasses] at h
    split_ifs at h with hlong
    · obtain ⟨vec, hvec, h⟩ := Option.bind_eq_some_iff.mp h
      have hhead' := mergePass_last hz hrun _ xs hhead hvec
      rw [Nat.mul_comm] at hhead'
      exact ih (by omega) vec hhead' h
    · obtain ⟨k, front, back, rfl, hfront, _⟩ := hhead
      rw [List.length_append, List.length_cons] at hlong
      have hnil : front = [] := by
        cases k with
        | zero => exact List.length_eq_zero_iff.mp (hfront.trans (Nat.zero_mul _))
        | succ k =>
          have hle := Nat.le_mul_of_pos_left run (Nat.succ_pos k)
          rw [← hfront] at hle
          omega
      rw [← Option.some_inj.mp h, hnil]
      exact ⟨back, rfl⟩

/-- A last item that may not be behind any other one comes first. -/
theorem mergeSort_last (h : mergeSort c (xs ++ [z]) = some r) : ∃ back, r = z :: back := by
  rw [mergeSort] at h
  split_ifs at h with hshort
  · rw [List.length_append, List.length_singleton] at hshort
    have hnil : xs = [] := List.length_eq_zero_iff.mp (by omega)
    rw [← Option.some_inj.mp h, hnil]
    exact ⟨[], rfl⟩
  · obtain ⟨vec, hvec, h⟩ := Option.bind_eq_some_iff.mp h
    exact mergePasses_last hz (by decide) _ vec (sortChunks_last hz _ xs hvec) h

end Last

end SpiderMonkey.Ds.Sort
