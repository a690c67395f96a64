import SpiderMonkey.Ds.Sort

/-!
# What the merge sort makes

With a comparator that is a total preorder and does not fail, the merge sort makes the stable sort.
With any comparator, what it makes is the same items in some order, and it depends on nothing but the
answers of the comparator.
-/

namespace SpiderMonkey.Ds.Sort

open Lib

variable {T S : Type} {le : T → T → Bool} {c : Comparator T} {xs ys rest : List T} {x : T}
  {run fuel : ℕ}

/-! ## A total preorder -/

section Sorted

variable (hle : IsTotalPreorder le) (hc : ∀ a b, c a b = some (le a b))
include hle hc

/-- An item comes to its place behind those that are not after it. -/
theorem sinkLoop_sorts (before : List T) (x : T) (h : before.reverse.Pairwise (le · ·)) :
    ∃ r, sinkLoop c before x = some r ∧ IsStableSort le (before.reverse ++ [x]) r.reverse := by
  induction before with
  | nil => exact ⟨[x], rfl, StableOf.refl le [x], List.pairwise_singleton _ x⟩
  | cons p before ih =>
    rw [List.reverse_cons] at h
    have hsplit := List.pairwise_append.mp h
    simp only [sinkLoop, hc, Option.bind_eq_bind, Option.bind_some]
    by_cases hpx : le p x = true
    · refine ⟨x :: p :: before, if_pos hpx, ?_⟩
      simp only [List.reverse_cons]
      refine ⟨StableOf.refl le _, List.pairwise_append.mpr ⟨h, List.pairwise_singleton _ x, ?_⟩⟩
      intro a ha b hb
      obtain rfl := List.mem_singleton.mp hb
      rcases List.mem_append.mp ha with ha | ha
      · exact hle.trans a p b (hsplit.2.2 a ha p (List.mem_singleton_self p)) hpx
      · rw [List.mem_singleton.mp ha]
        exact hpx
    · obtain ⟨r, hr, hstable, hsorted⟩ := ih hsplit.1
      rw [if_neg hpx]
      refine ⟨p :: r, by rw [hr]; rfl, ?_⟩
      simp only [List.reverse_cons]
      apply IsStableSort.mk
      · -- the item passes the one before it
        have hswap : StableOf le [p, x] [x, p] := StableOf.swap (hle.not_tied hpx)
        have hfirst := (StableOf.refl le before.reverse).append hswap
        have hsecond := hstable.append (StableOf.refl le [p])
        rw [List.append_assoc] at hsecond ⊢
        exact hfirst.trans hsecond
      · refine List.pairwise_append.mpr ⟨hsorted, List.pairwise_singleton _ p, ?_⟩
        intro a ha b hb
        obtain rfl := List.mem_singleton.mp hb
        rcases List.mem_append.mp (hstable.perm.mem_iff.mp ha) with ha | ha
        · exact hsplit.2.2 a ha b (List.mem_singleton_self b)
        · rw [List.mem_singleton.mp ha]
          exact hle.of_not hpx

/-- Items that are inserted one after the other. -/
theorem foldlM_sinkLoop_sorts (chunk before : List T) (h : before.reverse.Pairwise (le · ·)) :
    ∃ r, chunk.foldlM (sinkLoop c) before = some r ∧
      IsStableSort le (before.reverse ++ chunk) r.reverse := by
  induction chunk generalizing before with
  | nil =>
    refine ⟨before, rfl, ?_, h⟩
    rw [List.append_nil]
    exact StableOf.refl le _
  | cons x chunk ih =>
    obtain ⟨r, hr, hstable, hsorted⟩ := sinkLoop_sorts hle hc before x h
    obtain ⟨r', hr', hstable', hsorted'⟩ := ih r hsorted
    refine ⟨r', ?_, ?_, hsorted'⟩
    · rw [List.foldlM_cons, hr]
      exact hr'
    · have hfirst := hstable.append (StableOf.refl le chunk)
      rw [List.append_assoc] at hfirst
      exact hfirst.trans hstable'

/-- A chunk is sorted. -/
theorem insertionSort_sorts (chunk : List T) :
    ∃ r, insertionSort c chunk = some r ∧ IsStableSort le chunk r := by
  obtain ⟨r, hr, hsort⟩ := foldlM_sinkLoop_sorts hle hc chunk [] List.Pairwise.nil
  refine ⟨r.reverse, ?_, hsort⟩
  rw [insertionSort, hr]
  rfl

end Sorted

/-- A list whose parts of a length are in order. -/
inductive Runs (le : T → T → Bool) (run : ℕ) : List T → Prop
  | last {xs : List T} (hlength : xs.length ≤ run) (hsorted : xs.Pairwise (le · ·)) : Runs le run xs
  | cons {xs rest : List T} (hlength : xs.length = run) (hsorted : xs.Pairwise (le · ·))
    (h : Runs le run rest) : Runs le run (xs ++ rest)

/-- Runs of a list that is not longer than one are one run. -/
theorem Runs.sorted (h : Runs le run xs) (hlength : xs.length ≤ run) : xs.Pairwise (le · ·) := by
  cases h with
  | last _ hsorted => exact hsorted
  | @cons xs rest hxs hsorted h =>
    rw [List.length_append] at hlength
    rw [List.length_eq_zero_iff.mp (show rest.length = 0 by omega), List.append_nil]
    exact hsorted

/-- The first run, and those behind it. -/
theorem Runs.split (h : Runs le run xs) (hlength : run ≤ xs.length) :
    (xs.take run).Pairwise (le · ·) ∧ Runs le run (xs.drop run) := by
  cases h with
  | last hle hsorted =>
    rw [List.take_of_length_le hle, List.drop_eq_nil_of_le hle]
    exact ⟨hsorted, .last (Nat.zero_le run) List.Pairwise.nil⟩
  | cons hxs hsorted h =>
    rw [← hxs, List.take_left, List.drop_left]
    exact ⟨hsorted, hxs ▸ h⟩

section Sorted

variable (hle : IsTotalPreorder le) (hc : ∀ a b, c a b = some (le a b))
include hle hc

/-- The chunks are sorted. -/
theorem sortChunks_sorts (fuel : ℕ) (xs : List T) (hfuel : xs.length < fuel) :
    ∃ r, sortChunks c fuel xs = some r ∧ StableOf le xs r ∧ Runs le INS_SORT_LIMIT r := by
  induction fuel generalizing xs with
  | zero => omega
  | succ fuel ih =>
    rw [sortChunks]
    by_cases hnil : xs.length = 0
    · rw [if_pos hnil, List.length_eq_zero_iff.mp hnil]
      exact ⟨[], rfl, StableOf.refl le [], .last (Nat.zero_le _) List.Pairwise.nil⟩
    rw [if_neg hnil]
    obtain ⟨chunk, hchunk, hstable, hsorted⟩ := insertionSort_sorts hle hc (xs.take INS_SORT_LIMIT)
    have hlimit : INS_SORT_LIMIT = 3 := rfl
    obtain ⟨rest, hrest, hstable', hruns⟩ := ih (xs.drop INS_SORT_LIMIT) (by
      rw [List.length_drop]
      omega)
    have hall := hstable.append hstable'
    rw [List.take_append_drop] at hall
    refine ⟨chunk ++ rest, ?_, hall, ?_⟩
    · simp only [hchunk, hrest, Option.bind_eq_bind, Option.bind_some]
    · have hlength := hstable.perm.length_eq
      rw [List.length_take] at hlength
      by_cases hlong : INS_SORT_LIMIT ≤ xs.length
      · exact .cons (by omega) hsorted hruns
      · have hempty := hstable'.perm.length_eq
        rw [List.length_drop] at hempty
        rw [List.length_eq_zero_iff.mp (show rest.length = 0 by omega), List.append_nil]
        exact .last (by omega) hsorted

omit hle in
/-- The items of two runs are taken as in a merge. -/
theorem mergeLoop_eq (xs ys : List T) : mergeLoop c xs ys = some (xs.merge ys le) := by
  induction xs generalizing ys with
  | nil => rw [mergeLoop, List.nil_merge]
  | cons x xs ihx =>
    induction ys with
    | nil => rw [mergeLoop, List.merge_right]
    | cons y ys ihy =>
      simp only [mergeLoop, hc, Option.bind_eq_bind, Option.bind_some]
      by_cases hxy : le x y = true
      · rw [if_pos hxy, List.cons_merge_cons_pos le xs ys hxy, ihx]
        rfl
      · rw [if_neg hxy, List.cons_merge_cons_neg le xs ys hxy, ihy]
        rfl

/-- Two runs are merged. -/
theorem mergeArrayRuns_sorts (hxs : xs.Pairwise (le · ·)) (hys : ys.Pairwise (le · ·))
    (hxnil : xs ≠ []) (hynil : ys ≠ []) :
    ∃ r, mergeArrayRuns c xs ys = some r ∧ IsStableSort le (xs ++ ys) r := by
  have hlast := List.getLast?_eq_some_getLast hxnil
  have hhead := List.head?_eq_some_head hynil
  have hsplit := List.pairwise_append.mp (List.dropLast_append_getLast hxnil ▸ hxs)
  simp only [mergeArrayRuns, hlast, hhead, hc, Option.bind_eq_bind, Option.bind_some]
  by_cases hordered : le (xs.getLast hxnil) (ys.head hynil) = true
  · refine ⟨xs ++ ys, if_pos hordered, StableOf.refl le _, List.pairwise_append.mpr ⟨hxs, hys, ?_⟩⟩
    intro a ha b hb
    -- the last item of the first run and the first one of the second are between the two
    have halast : le a (xs.getLast hxnil) = true := by
      rw [← List.dropLast_append_getLast hxnil] at ha
      rcases List.mem_append.mp ha with ha | ha
      · exact hsplit.2.2 a ha _ (List.mem_singleton_self _)
      · rw [List.mem_singleton.mp ha]
        exact hle.refl _
    have hheadb : le (ys.head hynil) b = true := by
      obtain ⟨y, ys, rfl⟩ := List.exists_cons_of_ne_nil hynil
      rcases List.mem_cons.mp hb with rfl | hb
      · exact hle.refl b
      · exact (List.pairwise_cons.mp hys).1 b hb
    exact hle.trans _ _ _ (hle.trans _ _ _ halast hordered) hheadb
  · rw [if_neg hordered, mergeLoop_eq hc]
    exact ⟨_, rfl, hle.isStableSort_merge hxs hys⟩

/-- A pass makes runs of twice the length. -/
theorem mergePass_sorts (hrun : 0 < run) (fuel : ℕ) (xs : List T) (hfuel : xs.length < fuel)
    (hruns : Runs le run xs) :
    ∃ r, mergePass c run fuel xs = some r ∧ StableOf le xs r ∧ Runs le (2 * run) r := by
  induction fuel generalizing xs with
  | zero => omega
  | succ fuel ih =>
    rw [mergePass]
    by_cases hshort : xs.length ≤ run
    · rw [if_pos hshort]
      exact ⟨xs, rfl, StableOf.refl le xs, .last (by omega) (hruns.sorted hshort)⟩
    rw [if_neg hshort]
    obtain ⟨hfirst, hrest⟩ := hruns.split (by omega)
    have hlength : (xs.drop run).length = xs.length - run := List.length_drop
    have hsecond : ((xs.drop run).take run).Pairwise (le · ·) ∧ Runs le run (xs.drop (2 * run)) := by
      rw [Nat.two_mul, ← List.drop_drop]
      by_cases hlong : run ≤ (xs.drop run).length
      · exact hrest.split hlong
      · have hle' := Nat.le_of_not_le hlong
        rw [List.take_of_length_le hle', List.drop_eq_nil_of_le hle']
        exact ⟨hrest.sorted hle', .last (Nat.zero_le run) List.Pairwise.nil⟩
    have hne (n : ℕ) (zs : List T) (hn : 0 < n) (hzs : 0 < zs.length) : zs.take n ≠ [] := by
      apply List.ne_nil_of_length_pos
      rw [List.length_take]
      omega
    obtain ⟨merged, hmerged, hstable, hsorted⟩ := mergeArrayRuns_sorts hle hc hfirst hsecond.1
      (hne run xs hrun (by omega)) (hne run (xs.drop run) hrun (by omega))
    obtain ⟨rest, hr, hstable', hruns'⟩ := ih (xs.drop (2 * run)) (by
      rw [List.length_drop]
      omega) hsecond.2
    have hsplit : xs.take run ++ (xs.drop run).take run = xs.take (2 * run) := by
      rw [Nat.two_mul, List.take_add]
    have hall := hstable.append hstable'
    rw [hsplit, List.take_append_drop] at hall
    refine ⟨merged ++ rest, ?_, hall, ?_⟩
    · simp only [hmerged, hr, Option.bind_eq_bind, Option.bind_some]
    · have hmergedLength := hstable.perm.length_eq
      rw [hsplit, List.length_take] at hmergedLength
      by_cases hlong : 2 * run ≤ xs.length
      · exact .cons (by omega) hsorted hruns'
      · have hempty := hstable'.perm.length_eq
        rw [List.length_drop] at hempty
        rw [List.length_eq_zero_iff.mp (show rest.length = 0 by omega), List.append_nil]
        exact .last (by omega) hsorted

/-- The passes sort. -/
theorem mergePasses_sorts (hrun : 0 < run) (fuel : ℕ) (xs : List T)
    (hfuel : xs.length < run * 2 ^ fuel) (hruns : Runs le run xs) :
    ∃ r, mergePasses c (fuel + 1) run xs = some r ∧ IsStableSort le xs r := by
  induction fuel generalizing run xs with
  | zero =>
    rw [mergePasses, if_neg (by omega)]
    exact ⟨xs, rfl, StableOf.refl le xs, hruns.sorted (by omega)⟩
  | succ fuel ih =>
    rw [mergePasses]
    by_cases hlong : run < xs.length
    · rw [if_pos hlong]
      obtain ⟨r, hr, hstable, hruns'⟩ :=
        mergePass_sorts hle hc hrun (xs.length + 1) xs (Nat.lt_succ_self _) hruns
      rw [Nat.mul_comm] at hruns'
      obtain ⟨r', hr', hstable', hsorted⟩ := ih (show 0 < run * 2 by omega) r (by
        rw [hstable.perm.length_eq, Nat.mul_assoc, ← Nat.pow_succ']
        exact hfuel) hruns'
      refine ⟨r', ?_, hstable.trans hstable', hsorted⟩
      simp only [hr, Option.bind_eq_bind, Option.bind_some, hr']
    · rw [if_neg hlong]
      exact ⟨xs, rfl, StableOf.refl le xs, hruns.sorted (by omega)⟩

/-- The merge sort makes the stable sort. -/
theorem mergeSort_sorts (xs : List T) :
    ∃ r, mergeSort c xs = some r ∧ IsStableSort le xs r := by
  rw [mergeSort]
  by_cases hshort : xs.length ≤ 1
  · rw [if_pos hshort]
    refine ⟨xs, rfl, StableOf.refl le xs, ?_⟩
    cases xs with
    | nil => exact List.Pairwise.nil
    | cons x xs =>
      rw [List.length_cons] at hshort
      rw [List.length_eq_zero_iff.mp (show xs.length = 0 by omega)]
      exact List.pairwise_singleton _ x
  · rw [if_neg hshort]
    obtain ⟨vec, hvec, hstable, hruns⟩ :=
      sortChunks_sorts hle hc (xs.length + 1) xs (Nat.lt_succ_self _)
    have hlength := hstable.perm.length_eq
    obtain ⟨r, hr, hstable', hsorted⟩ := mergePasses_sorts hle hc (show 0 < INS_SORT_LIMIT by decide)
      xs.length vec (by
        have hpow := Nat.lt_two_pow_self (n := xs.length)
        rw [INS_SORT_LIMIT, hlength]
        omega) hruns
    refine ⟨r, ?_, hstable.trans hstable', hsorted⟩
    simp only [hvec, Option.bind_eq_bind, Option.bind_some, hr]

end Sorted

/-! ## Any comparator -/

/-- An item that comes to its place. -/
theorem sinkLoop_perm {before r : List T} (h : sinkLoop c before x = some r) :
    r.Perm (x :: before) := by
  induction before generalizing r with
  | nil =>
    rw [← Option.some_inj.mp h]
  | cons p before ih =>
    obtain ⟨lessOrEqual, _, h⟩ := Option.bind_eq_some_iff.mp h
    cases lessOrEqual with
    | true =>
      rw [← Option.some_inj.mp h]
    | false =>
      obtain ⟨r', hr', h⟩ := Option.bind_eq_some_iff.mp h
      rw [← Option.some_inj.mp h]
      exact ((ih hr').cons p).trans (List.Perm.swap x p before)

/-- Items that are inserted one after the other. -/
theorem foldlM_sinkLoop_perm {chunk before r : List T}
    (h : chunk.foldlM (sinkLoop c) before = some r) : r.Perm (before ++ chunk) := by
  induction chunk generalizing before with
  | nil =>
    rw [← Option.some_inj.mp h, List.append_nil]
  | cons x chunk ih =>
    rw [List.foldlM_cons] at h
    obtain ⟨r', hr', h⟩ := Option.bind_eq_some_iff.mp h
    apply (ih h).trans
    apply ((sinkLoop_perm hr').append_right chunk).trans
    exact List.perm_middle.symm

/-- The items of a chunk. -/
theorem insertionSort_perm {r : List T} (h : insertionSort c xs = some r) : r.Perm xs := by
  obtain ⟨r', hr', h⟩ := Option.bind_eq_some_iff.mp h
  rw [← Option.some_inj.mp h]
  exact (List.reverse_perm r').trans (foldlM_sinkLoop_perm hr')

/-- The items of the chunks. -/
theorem sortChunks_perm {r : List T} (h : sortChunks c fuel xs = some r) : r.Perm xs := by
  induction fuel generalizing xs r with
  | zero => cases h
  | succ fuel ih =>
    rw [sortChunks] at h
    split_ifs at h with hnil
    · rw [← Option.some_inj.mp h, List.length_eq_zero_iff.mp hnil]
    · obtain ⟨chunk, hchunk, h⟩ := Option.bind_eq_some_iff.mp h
      obtain ⟨rest, hrest, h⟩ := Option.bind_eq_some_iff.mp h
      rw [← Option.some_inj.mp h]
      conv_rhs => rw [← List.take_append_drop INS_SORT_LIMIT xs]
      exact (insertionSort_perm hchunk).append (ih hrest)

/-- The items of two runs. -/
theorem mergeLoop_perm {r : List T} (h : mergeLoop c xs ys = some r) : r.Perm (xs ++ ys) := by
  induction xs generalizing ys r with
  | nil =>
    rw [mergeLoop] at h
    rw [← Option.some_inj.mp h, List.nil_append]
  | cons x xs ihx =>
    induction ys generalizing r with
    | nil =>
      rw [mergeLoop] at h
      rw [← Option.some_inj.mp h, List.append_nil]
    | cons y ys ihy =>
      rw [mergeLoop] at h
      obtain ⟨lessOrEqual, _, h⟩ := Option.bind_eq_some_iff.mp h
      cases lessOrEqual with
      | true =>
        obtain ⟨r', hr', h⟩ := Option.bind_eq_some_iff.mp h
        rw [← Option.some_inj.mp h]
        exact (ihx hr').cons x
      | false =>
        obtain ⟨r', hr', h⟩ := Option.bind_eq_some_iff.mp h
        rw [← Option.some_inj.mp h]
        exact ((ihy hr').cons y).trans List.perm_middle.symm

/-- The items of two runs that are merged. -/
theorem mergeArrayRuns_perm {r : List T} (h : mergeArrayRuns c xs ys = some r) :
    r.Perm (xs ++ ys) := by
  obtain ⟨a, _, h⟩ := Option.bind_eq_some_iff.mp h
  obtain ⟨b, _, h⟩ := Option.bind_eq_some_iff.mp h
  obtain ⟨lessOrEqual, _, h⟩ := Option.bind_eq_some_iff.mp h
  cases lessOrEqual with
  | true => rw [← Option.some_inj.mp h]
  | false => exact mergeLoop_perm h

/-- The items after a pass. -/
theorem mergePass_perm {r : List T} (h : mergePass c run fuel xs = some r) : r.Perm xs := by
  induction fuel generalizing xs r with
  | zero => cases h
  | succ fuel ih =>
    rw [mergePass] at h
    split_ifs at h
    · rw [← Option.some_inj.mp h]
    · obtain ⟨merged, hmerged, h⟩ := Option.bind_eq_some_iff.mp h
      obtain ⟨rest, hrest, h⟩ := Option.bind_eq_some_iff.mp h
      rw [← Option.some_inj.mp h]
      have hperm := (mergeArrayRuns_perm hmerged).append (ih hrest)
      rw [← List.take_add, ← Nat.two_mul, List.take_append_drop] at hperm
      exact hperm

/-- The items after the passes. -/
theorem mergePasses_perm {r : List T} (h : mergePasses c fuel run xs = some r) : r.Perm xs := by
  induction fuel generalizing run xs with
  | zero => cases h
  | succ fuel ih =>
    rw [mergePasses] at h
    split_ifs at h
    · obtain ⟨vec, hvec, h⟩ := Option.bind_eq_some_iff.mp h
      exact (ih h).trans (mergePass_perm hvec)
    · rw [← Option.some_inj.mp h]

/-- The merge sort makes the same items in some order. -/
theorem mergeSort_perm {r : List T} (h : mergeSort c xs = some r) : r.Perm xs := by
  rw [mergeSort] at h
  split_ifs at h
  · rw [← Option.some_inj.mp h]
  · obtain ⟨vec, hvec, h⟩ := Option.bind_eq_some_iff.mp h
    exact (mergePasses_perm h).trans (sortChunks_perm hvec)

section Map

variable {d : Comparator S} {f : T → S} (h : ∀ a b, d (f a) (f b) = c a b)
include h

/-- Coming to its place. -/
theorem sinkLoop_map (before : List T) (x : T) :
    sinkLoop d (before.map f) (f x) = (sinkLoop c before x).map (List.map f) := by
  induction before with
  | nil => rfl
  | cons p before ih =>
    rw [List.map_cons, sinkLoop, sinkLoop, h p x]
    cases c p x with
    | none => rfl
    | some lessOrEqual =>
      cases lessOrEqual with
      | true => rfl
      | false =>
        simp only [Option.bind_eq_bind, Option.bind_some, ih]
        cases sinkLoop c before x <;> rfl

/-- Inserting items. -/
theorem foldlM_sinkLoop_map (chunk before : List T) :
    (chunk.map f).foldlM (sinkLoop d) (before.map f) =
      (chunk.foldlM (sinkLoop c) before).map (List.map f) := by
  induction chunk generalizing before with
  | nil => rfl
  | cons x chunk ih =>
    rw [List.map_cons, List.foldlM_cons, List.foldlM_cons, sinkLoop_map h]
    cases sinkLoop c before x with
    | none => rfl
    | some r => exact ih r

/-- Sorting a chunk. -/
theorem insertionSort_map (xs : List T) :
    insertionSort d (xs.map f) = (insertionSort c xs).map (List.map f) := by
  rw [insertionSort, insertionSort, ← List.map_nil (f := f), foldlM_sinkLoop_map h]
  cases xs.foldlM (sinkLoop c) [] with
  | none => rfl
  | some r => exact congrArg some List.map_reverse.symm

/-- Sorting the chunks. -/
theorem sortChunks_map (fuel : ℕ) (xs : List T) :
    sortChunks d fuel (xs.map f) = (sortChunks c fuel xs).map (List.map f) := by
  induction fuel generalizing xs with
  | zero => rfl
  | succ fuel ih =>
    rw [sortChunks, sortChunks, List.length_map, ← List.map_take, ← List.map_drop,
      insertionSort_map h, ih]
    split_ifs
    · rfl
    · cases insertionSort c (xs.take INS_SORT_LIMIT) with
      | none => rfl
      | some chunk =>
        cases sortChunks c fuel (xs.drop INS_SORT_LIMIT) with
        | none => rfl
        | some rest => exact congrArg some List.map_append.symm

/-- Taking the items of two runs. -/
theorem mergeLoop_map (xs ys : List T) :
    mergeLoop d (xs.map f) (ys.map f) = (mergeLoop c xs ys).map (List.map f) := by
  induction xs generalizing ys with
  | nil =>
    rw [List.map_nil, mergeLoop, mergeLoop]
    rfl
  | cons x xs ihx =>
    induction ys with
    | nil =>
      rw [List.map_nil, List.map_cons, mergeLoop, mergeLoop]
      rfl
    | cons y ys ihy =>
      have hright := ihx (y :: ys)
      rw [List.map_cons] at hright ihy
      rw [List.map_cons, List.map_cons, mergeLoop, mergeLoop, h x y, hright, ihy]
      cases c x y with
      | none => rfl
      | some lessOrEqual =>
        cases lessOrEqual with
        | true => cases hloop : mergeLoop c xs (y :: ys) <;> simp [hloop]
        | false => cases hloop : mergeLoop c (x :: xs) ys <;> simp [hloop]

/-- Merging two runs. -/
theorem mergeArrayRuns_map (xs ys : List T) :
    mergeArrayRuns d (xs.map f) (ys.map f) = (mergeArrayRuns c xs ys).map (List.map f) := by
  rw [mergeArrayRuns, mergeArrayRuns, List.getLast?_map, List.head?_map]
  cases xs.getLast? with
  | none => rfl
  | some a =>
    cases ys.head? with
    | none => rfl
    | some b =>
      simp only [Option.map_some, Option.bind_eq_bind, Option.bind_some, h a b]
      cases c a b with
      | none => rfl
      | some lessOrEqual =>
        cases lessOrEqual with
        | true => exact congrArg some List.map_append.symm
        | false => exact mergeLoop_map h xs ys

/-- A pass. -/
theorem mergePass_map (run fuel : ℕ) (xs : List T) :
    mergePass d run fuel (xs.map f) = (mergePass c run fuel xs).map (List.map f) := by
  induction fuel generalizing xs with
  | zero => rfl
  | succ fuel ih =>
    rw [mergePass, mergePass, List.length_map]
    split_ifs
    · rfl
    · rw [← List.map_take, ← List.map_drop, ← List.map_take, ← List.map_drop, ih,
        mergeArrayRuns_map h]
      cases mergeArrayRuns c (xs.take run) ((xs.drop run).take run) with
      | none => rfl
      | some merged =>
        cases mergePass c run fuel (xs.drop (2 * run)) with
        | none => rfl
        | some rest => exact congrArg some List.map_append.symm

/-- The passes. -/
theorem mergePasses_map (fuel run : ℕ) (xs : List T) :
    mergePasses d fuel run (xs.map f) = (mergePasses c fuel run xs).map (List.map f) := by
  induction fuel generalizing run xs with
  | zero => rfl
  | succ fuel ih =>
    rw [mergePasses, mergePasses, List.length_map, mergePass_map h]
    split_ifs
    · cases mergePass c run (xs.length + 1) xs with
      | none => rfl
      | some vec => exact ih (run * 2) vec
    · rfl

/-- Sorting depends on nothing but the answers of the comparator. -/
theorem mergeSort_map (xs : List T) :
    mergeSort d (xs.map f) = (mergeSort c xs).map (List.map f) := by
  rw [mergeSort, mergeSort, List.length_map, sortChunks_map h]
  split_ifs
  · rfl
  · cases sortChunks c (xs.length + 1) xs with
    | none => rfl
    | some vec => exact mergePasses_map h (xs.length + 1) INS_SORT_LIMIT vec

end Map

/-- Comparators that give the same answers for the items of a list sort it the same. -/
theorem mergeSort_congr {d : Comparator T} (h : ∀ a ∈ xs, ∀ b ∈ xs, c a b = d a b) :
    mergeSort c xs = mergeSort d xs := by
  let answers : Comparator {a // a ∈ xs} := fun a b => c a b
  have hc := mergeSort_map (c := answers) (d := c) (f := Subtype.val) (fun _ _ => rfl) xs.attach
  have hd := mergeSort_map (c := answers) (d := d) (f := Subtype.val)
    (fun a b => (h a a.2 b b.2).symm) xs.attach
  rw [List.attach_map_subtype_val] at hc hd
  exact hc.trans hd.symm

end SpiderMonkey.Ds.Sort
