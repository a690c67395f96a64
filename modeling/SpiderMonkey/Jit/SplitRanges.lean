import Mathlib.Data.List.Forall2
import SpiderMonkey.Jit.SplitUses

/-!
# Where the positions of a split interval go

The loop of `splitAt` over the active ranges goes upwards with the new intervals. It leaves the ranges that reach
the last position of an interval, so that a use at the same position still finds it.
-/

namespace SpiderMonkey.Jit.Backtracking

open LiveInterval

variable {spillStart start stop : ℕ} {ranges : List LiveRange}

/-! ## Giving out the ranges -/

/-- The ranges are in ascending order, as the loop goes through them. -/
def Rising (ranges : List LiveRange) : Prop := Descending ranges.reverse

theorem rising_cons {r : LiveRange} :
    Rising (r :: ranges) ↔
      r.fromPos < r.toPos ∧ Rising ranges ∧ ∀ above ∈ ranges, r.toPos ≤ above.fromPos := by
  have hsingle : Descending [r] ↔ r.fromPos < r.toPos := by simp [descending_cons, descending_nil]
  rw [Rising, Rising, List.reverse_cons, descending_append, hsingle]
  simp only [List.mem_reverse, List.mem_singleton, forall_eq]
  tauto

theorem positions_reverse : positions ranges.reverse = positions ranges := by
  simp [positions]

/-- Ranges at or above a position. -/
theorem positions_inter_of_le (h : ∀ r ∈ ranges, stop ≤ r.fromPos) : positions ranges ∩ Set.Ico start stop = ∅ := by
  ext p
  simp only [Set.mem_inter_iff, Set.mem_Ico, Set.mem_empty_iff_false, iff_false]
  rintro ⟨hp, -, hlt⟩
  have := le_of_mem_positions h hp
  omega

/-- The positions of a range that the new interval is to cover. -/
theorem ico_max_min (r : LiveRange) :
    Set.Ico (max r.fromPos start) (min r.toPos stop) =
      { p | r.fromPos ≤ p ∧ p < r.toPos } ∩ Set.Ico start stop := by
  ext p
  simp only [Set.mem_Ico, Set.mem_inter_iff, Set.mem_ofPred_eq]
  omega

/-- The loop over the active ranges: the interval gets the positions that it is to cover, and those from its last
one on are left for the next interval. -/
theorem fillRanges_spec {i : Interval} (h : Rising ranges) (hlt : start < stop) (hi : Descending i.ranges) :
    ∃ i' rest, fillRanges start stop ranges i = some (i', rest) ∧ Descending i'.ranges ∧
      positions i'.ranges = positions i.ranges ∪ (positions ranges ∩ Set.Ico start stop) ∧ i'.uses = i.uses ∧
      Rising rest ∧ positions rest ⊆ positions ranges ∧
      ∀ p ∈ positions ranges, stop ≤ p + 1 → p ∈ positions rest := by
  induction ranges generalizing i with
  | nil => exact ⟨i, [], rfl, hi, by simp, rfl, h, subset_rfl, fun p hp _ => hp⟩
  | cons r ranges ih =>
    obtain ⟨hr, hrest, habove⟩ := rising_cons.mp h
    have hcons : positions (r :: ranges) = { p | r.fromPos ≤ p ∧ p < r.toPos } ∪ positions ranges := by
      ext p
      exact mem_positions_cons
    rw [fillRanges, hcons, Set.union_inter_distrib_right, ← ico_max_min]
    split_ifs with hstart hstop hlast
    · obtain ⟨i', rest, hrun, hdesc, hpos, huses, hrising, hsub, hkept⟩ := ih hrest hi
      have hnone : Set.Ico (max r.fromPos start) (min r.toPos stop) = ∅ := Set.Ico_eq_empty (by omega)
      rw [hnone, Set.empty_union]
      refine ⟨i', rest, hrun, hdesc, hpos, huses, hrising, hsub.trans Set.subset_union_right, ?_⟩
      rintro p (⟨-, hp⟩ | hp) hle
      · omega
      · exact hkept p hp hle
    · have hnone : Set.Ico (max r.fromPos start) (min r.toPos stop) = ∅ := Set.Ico_eq_empty (by omega)
      rw [hnone, positions_inter_of_le fun above hmem => by have := habove above hmem; omega]
      exact ⟨i, r :: ranges, rfl, hi, by simp, rfl, h, hcons.subset, fun p hp _ => hcons.symm.subset hp⟩
    · obtain ⟨i', hadd, hdesc, hpos, huses⟩ :=
        addRange_spec hi (show max r.fromPos start < min r.toPos stop by omega)
      rw [positions_inter_of_le fun above hmem => hlast.trans (habove above hmem), Set.union_empty]
      exact ⟨i', r :: ranges, by rw [hadd]; rfl, hdesc, hpos, huses, h, hcons.subset,
        fun p hp _ => hcons.symm.subset hp⟩
    · obtain ⟨i₁, hadd, hdesc₁, hpos₁, huses₁⟩ :=
        addRange_spec hi (show max r.fromPos start < min r.toPos stop by omega)
      obtain ⟨i', rest, hrun, hdesc, hpos, huses, hrising, hsub, hkept⟩ := ih hrest hdesc₁
      refine ⟨i', rest, by rw [hadd]; exact hrun, hdesc, ?_, huses.trans huses₁, hrising,
        hsub.trans Set.subset_union_right, ?_⟩
      · rw [hpos, hpos₁, Set.union_assoc]
      · rintro p (⟨-, hp⟩ | hp) hle
        · omega
        · exact hkept p hp hle

/-- No use is before the first one. -/
theorem head_le_of_ascending {uses : List (ℕ × LUse)} {front : ℕ × LUse} (h : Ascending uses)
    (hfront : uses.head? = some front) : ∀ u ∈ uses, front.1 ≤ u.1 := by
  obtain ⟨rest, rfl⟩ := List.head?_eq_some_iff.mp hfront
  intro u hu
  rcases List.mem_cons.mp hu with rfl | hu
  · exact le_rfl
  · exact (List.pairwise_cons.mp h).1 u hu

/-- No use is behind the last one. -/
theorem le_getLast_of_ascending {uses : List (ℕ × LUse)} {back : ℕ × LUse} (h : Ascending uses)
    (hback : uses.getLast? = some back) : ∀ u ∈ uses, u.1 ≤ back.1 := by
  obtain ⟨front, rfl⟩ := List.getLast?_eq_some_iff.mp hback
  intro u hu
  rcases List.mem_append.mp hu with hu | hu
  · exact (List.pairwise_append.mp h).2.2 u hu back (List.mem_singleton_self _)
  · rw [List.mem_singleton.mp hu]

/-- What a new interval becomes: its uses are the same, and it covers them with positions that are there. -/
structure Filled (old : Set ℕ) (i i' : Interval) : Prop where
  uses : i'.uses = i.uses
  descending : Descending i'.ranges
  within : positions i'.ranges ⊆ old
  attached : ∀ u ∈ i.uses, u.1 ∈ positions i'.ranges

theorem Filled.mono {old old' : Set ℕ} {i i' : Interval} (h : Filled old i i') (hsub : old ⊆ old') :
    Filled old' i i' :=
  ⟨h.uses, h.descending, h.within.trans hsub, h.attached⟩

/-- Filling changes no uses. -/
theorem flatMap_uses_of_filled {old : Set ℕ} {parts filled : List Interval}
    (h : List.Forall₂ (Filled old) parts filled) : filled.flatMap (·.uses) = parts.flatMap (·.uses) := by
  induction h with
  | nil => rfl
  | cons hi _ ih => rw [List.flatMap_cons, List.flatMap_cons, hi.uses, ih]

/-- Every interval is filled from one of the parts. -/
theorem exists_part_of_filled {old : Set ℕ} {parts filled : List Interval}
    (h : List.Forall₂ (Filled old) parts filled) : ∀ i' ∈ filled, ∃ i ∈ parts, Filled old i i' := by
  induction h with
  | nil => simp
  | cons hi _ ih =>
    intro i' hi'
    rcases List.mem_cons.mp hi' with rfl | hi'
    · exact ⟨_, List.mem_cons_self, hi⟩
    · obtain ⟨i, hmem, hf⟩ := ih i' hi'
      exact ⟨i, List.mem_cons_of_mem _ hmem, hf⟩

/-- The intervals behind the first one, which have uses. -/
theorem fillIntervals_later (start spillStart : ℕ) {parts : List Interval} (h : Rising ranges)
    (hcovered : ∀ i ∈ parts, ∀ u ∈ i.uses, u.1 ∈ positions ranges) (hne : ∀ i ∈ parts, i.uses ≠ [])
    (hnew : ∀ i ∈ parts, i.ranges = []) (hasc : Ascending (parts.flatMap (·.uses))) :
    ∃ filled, fillIntervals start spillStart false ranges parts = some filled ∧
      List.Forall₂ (Filled (positions ranges)) parts filled := by
  induction parts generalizing ranges with
  | nil => exact ⟨[], rfl, .nil⟩
  | cons i parts ih =>
    have hhead := List.head?_eq_some_head (hne i List.mem_cons_self)
    have hlast := List.getLast?_eq_some_getLast (hne i List.mem_cons_self)
    set front := i.uses.head (hne i List.mem_cons_self)
    set back := i.uses.getLast (hne i List.mem_cons_self)
    rw [List.flatMap_cons, Ascending, List.pairwise_append] at hasc
    obtain ⟨hi, hparts, hbefore⟩ := hasc
    have hfront := head_le_of_ascending hi hhead
    have hback := le_getLast_of_ascending hi hlast
    have hmem : back ∈ i.uses := List.mem_of_getLast? hlast
    have hlt : inputOf front.1 < back.1 + 1 := by
      have := inputOf_le front.1
      have := hfront back hmem
      omega
    obtain ⟨i', rest, hrun, hdesc, hpos, huses, hrising, hsub, hkept⟩ :=
      fillRanges_spec (i := i) h hlt (by rw [hnew i List.mem_cons_self]; exact descending_nil)
    rw [hnew i List.mem_cons_self, positions_nil, Set.empty_union] at hpos
    obtain ⟨filled, hfill, hall⟩ := ih hrising
      (by
        intro j hj u hu
        have := hbefore back hmem u (List.mem_flatMap_of_mem hj hu)
        exact hkept u.1 (hcovered j (List.mem_cons_of_mem _ hj) u hu) (by omega))
      (fun j hj => hne j (List.mem_cons_of_mem _ hj)) (fun j hj => hnew j (List.mem_cons_of_mem _ hj)) hparts
    refine ⟨i' :: filled, ?_, .cons ⟨huses, hdesc, ?_, ?_⟩ (hall.imp fun _ _ hf => ?_)⟩
    · have hbounds : newBounds start spillStart false i = some (inputOf front.1, back.1 + 1) := by
        simp [newBounds, hhead, hlast]
      simp only [fillIntervals, hbounds, hrun, hfill, Option.bind_eq_bind, Option.bind_some]
    · rw [hpos]
      exact Set.inter_subset_left
    · intro u hu
      rw [hpos]
      refine ⟨hcovered i List.mem_cons_self u hu, (inputOf_le _).trans (hfront u hu), ?_⟩
      have := hback u hu
      omega
    · exact hf.mono hsub

/-- Where no definition comes first, the first interval is like the others. -/
theorem fillIntervals_start (isFirst : Bool) (parts : List Interval) :
    fillIntervals start start isFirst ranges parts = fillIntervals start start false ranges parts := by
  cases parts with
  | nil => rfl
  | cons i parts => simp [fillIntervals, newBounds]

/-- Where the first interval ends: behind its last use, or at the end of the definition if it has none. -/
def firstStop (spillStart : ℕ) (uses : List (ℕ × LUse)) : ℕ := (uses.getLast?.map (·.1 + 1)).getD spillStart

/-- It ends behind its start. -/
theorem lt_firstStop {uses : List (ℕ × LUse)} (hlt : start < spillStart) (h : ∀ u ∈ uses, start ≤ u.1) :
    start < firstStop spillStart uses := by
  rw [firstStop]
  cases hlast : uses.getLast? with
  | none => exact hlt
  | some back => exact Nat.lt_succ_of_le (h back (List.mem_of_getLast? hlast))

/-- The interval of a definition, and those behind it. -/
theorem fillIntervals_first (first : Interval) (parts : List Interval) (h : Rising ranges)
    (hlt : start < spillStart) (hfirst : ∀ u ∈ first.uses, start ≤ u.1) (hranges : first.ranges = [])
    (hcovered : ∀ i ∈ parts, ∀ u ∈ i.uses, u.1 ∈ positions ranges ∧ spillStart ≤ u.1)
    (hne : ∀ i ∈ parts, i.uses ≠ []) (hnew : ∀ i ∈ parts, i.ranges = [])
    (hasc : Ascending (first.uses ++ parts.flatMap (·.uses))) :
    ∃ first' filled, fillIntervals start spillStart true ranges (first :: parts) = some (first' :: filled) ∧
      first'.uses = first.uses ∧ Descending first'.ranges ∧
      positions first'.ranges = positions ranges ∩ Set.Ico start (firstStop spillStart first.uses) ∧
      List.Forall₂ (Filled (positions ranges)) parts filled := by
  obtain ⟨-, hparts, hbefore⟩ := List.pairwise_append.mp hasc
  have hbounds : newBounds start spillStart true first = some (start, firstStop spillStart first.uses) := by
    rw [newBounds, if_pos (by simpa using hlt.ne'), firstStop]
    cases first.uses.getLast? <;> rfl
  have hlater : ∀ i ∈ parts, ∀ u ∈ i.uses, firstStop spillStart first.uses ≤ u.1 + 1 := by
    intro i hi u hu
    rw [firstStop]
    cases hlast : first.uses.getLast? with
    | none => exact (hcovered i hi u hu).2.trans (Nat.le_succ _)
    | some back =>
      exact Nat.succ_le_succ (hbefore back (List.mem_of_getLast? hlast) u (List.mem_flatMap_of_mem hi hu))
  obtain ⟨first', rest, hrun, hdesc, hpos, huses, hrising, hsub, hkept⟩ :=
    fillRanges_spec (i := first) h (lt_firstStop hlt hfirst) (by rw [hranges]; exact descending_nil)
  obtain ⟨filled, hfill, hall⟩ := fillIntervals_later start spillStart hrising
    (fun i hi u hu => hkept u.1 (hcovered i hi u hu).1 (hlater i hi u hu)) hne hnew hparts
  refine ⟨first', filled, ?_, huses, hdesc, ?_, hall.imp fun _ _ hf => hf.mono hsub⟩
  · simp only [fillIntervals, hbounds, hrun, hfill, Option.bind_eq_bind, Option.bind_some]
  · rw [hpos, hranges, positions_nil, Set.empty_union]

/-- The ranges of a new spill interval: the positions behind the definition. -/
theorem addRangesFrom_spec (spill : Interval) (h : ∀ r ∈ ranges, r.fromPos < r.toPos ∧ spillStart < r.toPos)
    (hspill : Descending spill.ranges) :
    ∃ spill', addRangesFrom spillStart ranges spill = some spill' ∧ Descending spill'.ranges ∧
      positions spill'.ranges = positions spill.ranges ∪ (positions ranges ∩ Set.Ici spillStart) ∧
      spill'.uses = spill.uses := by
  induction ranges generalizing spill with
  | nil => exact ⟨spill, rfl, hspill, by simp, rfl⟩
  | cons r ranges ih =>
    obtain ⟨hr, hstart⟩ := h r List.mem_cons_self
    have hlt : (if r.fromPos < spillStart then spillStart else r.fromPos) < r.toPos := by split_ifs <;> assumption
    obtain ⟨spill₁, hadd, hdesc₁, hpos₁, huses₁⟩ := addRange_spec hspill hlt
    obtain ⟨spill', hrun, hdesc, hpos, huses⟩ := ih spill₁ (fun r' hr' => h r' (List.mem_cons_of_mem _ hr')) hdesc₁
    refine ⟨spill', by rw [addRangesFrom, hadd]; exact hrun, hdesc, ?_, huses.trans huses₁⟩
    have hfrom : Set.Ico (if r.fromPos < spillStart then spillStart else r.fromPos) r.toPos =
        { p | r.fromPos ≤ p ∧ p < r.toPos } ∩ Set.Ici spillStart := by
      ext p
      simp only [Set.mem_Ico, Set.mem_inter_iff, Set.mem_ofPred_eq, Set.mem_Ici]
      split_ifs <;> omega
    have hcons : positions (r :: ranges) = { p | r.fromPos ≤ p ∧ p < r.toPos } ∪ positions ranges := by
      ext p
      exact mem_positions_cons
    rw [hpos, hpos₁, hfrom, hcons, Set.union_inter_distrib_right, Set.union_assoc]

end SpiderMonkey.Jit.Backtracking
