import Mathlib.Data.List.Perm.Basic
import SpiderMonkey.Jit.SplitRanges

/-!
# Splitting loses no position and no use

Whatever an interval is split into, its uses are shared out and the positions behind its definition stay covered.
In `splitAtAllRegisterUses` the first interval always reaches the end of the definition. In `splitAt` it ends
behind its last use, which is at the end of the definition where that has an OSI point.
-/

namespace SpiderMonkey.Jit.Backtracking

open LiveInterval

variable {insData : List LInstruction} {reg : VirtualRegister} {index : ℕ} {interval : Interval}
  {spillInterval : Option Interval} {spillStart start stop : ℕ} {ranges : List LiveRange}

/-! ## What is split, and into what -/

/-- An interval with a start, sorted uses that it covers, and instructions at them and behind its definition. If
there is a spill interval from an earlier split, it covers the positions behind the definition. -/
structure Suited (insData : List LInstruction) (reg : VirtualRegister) (index : ℕ) (interval : Interval)
    (spillInterval : Option Interval) (start spillStart : ℕ) : Prop where
  descending : Descending interval.ranges
  isStart : interval.start = some start
  isSpillStart : spillStartOf insData reg index start = some spillStart
  ascending : Ascending interval.uses
  covered : ∀ u ∈ interval.uses, u.1 ∈ positions interval.ranges
  instruction : ∀ u ∈ interval.uses, u.1 / 2 < insData.length
  spill : ∀ spill ∈ spillInterval, positions interval.ranges ∩ Set.Ici spillStart ⊆ positions spill.ranges

/-- The assertions: every range reaches into a new spill interval, and an old one gets no uses. -/
structure Splittable (insData : List LInstruction) (interval : Interval) (spillInterval : Option Interval)
    (spillStart : ℕ) : Prop where
  ranges : spillInterval = none → ∀ r ∈ interval.ranges, spillStart < r.toPos
  uses : ∀ u ∈ interval.uses, spillStart ≤ u.1 → ¬ RegisterUse insData u → spillInterval = none

/-- No use is lost, and no position behind the definition; new intervals cover nothing but some extra positions. -/
structure Lossless (insData : List LInstruction) (interval : Interval) (spillInterval : Option Interval)
    (spillStart : ℕ) (extra : Set ℕ) (p : Pieces) : Prop where
  /-- Every position is in one of the new intervals or in the spill interval of an earlier split. -/
  covered : ∀ pos ∈ positions interval.ranges, spillStart ≤ pos →
    (∃ i ∈ p.all, pos ∈ positions i.ranges) ∨ ∃ spill ∈ spillInterval, pos ∈ positions spill.ranges
  /-- New intervals have no positions but these and the extra ones, and each has one. -/
  within : ∀ i ∈ p.all, i.ranges ≠ [] ∧ positions i.ranges ⊆ positions interval.ranges ∪ extra
  /-- Every use is in exactly one of them. -/
  uses : (p.all.flatMap (·.uses)).Perm interval.uses
  /-- Intervals cover their uses. -/
  attached : ∀ i ∈ p.all, ∀ u ∈ i.uses, u.1 ∈ positions i.ranges
  /-- The uses of an interval are in ascending order. -/
  ascending : ∀ i ∈ p.all, Ascending i.uses
  /-- A register use behind the definition is not in the spill interval. -/
  register : ∀ u ∈ interval.uses, spillStart ≤ u.1 → RegisterUse insData u →
    (∃ i ∈ p.newIntervals, u ∈ i.uses) ∧ (p.spillIntervalIsNew = true → u ∉ p.spillInterval.uses)
  /-- The spill interval of an earlier split stays as it is. -/
  spill : ∀ spill ∈ spillInterval, p.spillIntervalIsNew = false ∧ p.spillInterval = spill

/-- The first new interval covers the definition. -/
def CoversDefinition (start spillStart : ℕ) (p : Pieces) : Prop :=
  ∃ first ∈ p.newIntervals.head?, Set.Ico start spillStart ⊆ positions first.ranges

/-- Whether a use stays in the new intervals. -/
def Kept (insData : List LInstruction) (spillStart : ℕ) (u : ℕ × LUse) : Prop :=
  u.1 < spillStart ∨ RegisterUse insData u

instance : DecidablePred (Kept insData spillStart) := fun _ => inferInstanceAs (Decidable (_ ∨ _))

/-- Where the uses go, and the positions behind the definition. -/
structure Parted (insData : List LInstruction) (interval : Interval) (spillInterval : Option Interval)
    (spillStart : ℕ) (p : Pieces) : Prop where
  isNew : p.spillIntervalIsNew = spillInterval.isNone
  uses : p.newIntervals.flatMap (·.uses) = interval.uses.filter (Kept insData spillStart ·)
  attached : ∀ i ∈ p.newIntervals, ∀ u ∈ i.uses, u.1 ∈ positions i.ranges
  nonempty : ∀ i ∈ p.newIntervals, i.ranges ≠ []
  newSpill : spillInterval = none → p.spillInterval.uses = interval.uses.filter (¬ Kept insData spillStart ·) ∧
    positions p.spillInterval.ranges = positions interval.ranges ∩ Set.Ici spillStart
  oldSpill : ∀ spill ∈ spillInterval, p.spillInterval = spill

/-- The start is at a position, and there is none before it. -/
theorem Suited.start_mem (h : Suited insData reg index interval spillInterval start spillStart) :
    start ∈ positions interval.ranges := by
  obtain ⟨r, hr, rfl⟩ := Option.map_eq_some_iff.mp h.isStart
  have hmem := List.mem_of_getLast? hr
  exact ⟨r, hmem, le_rfl, h.descending.nonempty r hmem⟩

/-- There is a position behind the definition. -/
theorem Suited.exists_le (h : Suited insData reg index interval spillInterval start spillStart)
    (hs : Splittable insData interval spillInterval spillStart) (hnone : spillInterval = none) :
    ∃ pos ∈ positions interval.ranges, spillStart ≤ pos := by
  obtain ⟨r, hr, -⟩ := h.start_mem
  have hne := h.descending.nonempty r hr
  have hlt := hs.ranges hnone r hr
  exact ⟨r.toPos - 1, ⟨r, hr, by omega, by omega⟩, by omega⟩

/-- Positions need ranges. -/
theorem ranges_ne_nil {pos : ℕ} (h : pos ∈ positions ranges) : ranges ≠ [] := by
  rintro rfl
  simp at h

/-- Nothing is lost where the uses and the positions are where they belong. -/
theorem Parted.lossless {p : Pieces} {extra : Set ℕ} (hp : Parted insData interval spillInterval spillStart p)
    (h : Suited insData reg index interval spillInterval start spillStart)
    (hs : Splittable insData interval spillInterval spillStart)
    (hwithin : ∀ i ∈ p.newIntervals, positions i.ranges ⊆ positions interval.ranges ∪ extra) :
    Lossless insData interval spillInterval spillStart extra p := by
  -- What holds of the new intervals and of a new spill interval.
  have hall : ∀ P : Interval → Prop, (∀ i ∈ p.newIntervals, P i) → (spillInterval = none → P p.spillInterval) →
      ∀ i ∈ p.all, P i := by
    intro P hnews hspill i hi
    rcases List.mem_append.mp hi with hi | hi
    · exact hnews i hi
    · rw [hp.isNew] at hi
      cases hsi : spillInterval with
      | none =>
        simp only [hsi, Option.isNone_none, if_true, List.mem_singleton] at hi
        exact hi ▸ hspill hsi
      | some spill => simp [hsi] at hi
  have hkept : (interval.uses.filter (Kept insData spillStart ·)).Sublist interval.uses := List.filter_sublist
  refine ⟨?_, hall _ ?_ ?_, ?_, hall _ hp.attached ?_, hall _ ?_ ?_, ?_, ?_⟩
  · intro pos hpos hle
    cases hsi : spillInterval with
    | none =>
      refine Or.inl ⟨p.spillInterval, ?_, (hp.newSpill hsi).2.symm.subset ⟨hpos, hle⟩⟩
      simp [Pieces.all, hp.isNew, hsi]
    | some spill => exact Or.inr ⟨spill, rfl, h.spill spill hsi ⟨hpos, hle⟩⟩
  · exact fun i hi => ⟨hp.nonempty i hi, hwithin i hi⟩
  · intro hnone
    obtain ⟨pos, hpos, hle⟩ := h.exists_le hs hnone
    have hspill := (hp.newSpill hnone).2
    exact ⟨ranges_ne_nil (hspill.symm.subset ⟨hpos, hle⟩),
      hspill.subset.trans (Set.inter_subset_left.trans Set.subset_union_left)⟩
  · rw [Pieces.all, List.flatMap_append, hp.uses, hp.isNew]
    cases hsi : spillInterval with
    | none =>
      have hperm := List.filter_append_perm (fun u => decide (Kept insData spillStart u)) interval.uses
      simpa [(hp.newSpill hsi).1] using hperm
    | some spill =>
      have heq : interval.uses.filter (Kept insData spillStart ·) = interval.uses := by
        rw [List.filter_eq_self]
        intro u hu
        rw [decide_eq_true_eq]
        by_contra hnot
        rw [Kept, not_or, not_lt] at hnot
        exact absurd (hs.uses u hu hnot.1 hnot.2) (by simp [hsi])
      simp [heq]
  · intro hnone u hu
    obtain ⟨huses, hpos⟩ := hp.newSpill hnone
    rw [huses, List.mem_filter, decide_eq_true_eq, Kept, not_or, not_lt] at hu
    exact hpos.symm.subset ⟨h.covered u hu.1, hu.2.1⟩
  · have hasc : (p.newIntervals.flatMap (·.uses)).Pairwise fun u v => u.1 ≤ v.1 := by
      rw [hp.uses]
      exact h.ascending.sublist hkept
    exact (List.pairwise_flatMap.mp hasc).1
  · intro hnone
    rw [(hp.newSpill hnone).1]
    exact List.Pairwise.filter _ h.ascending
  · intro u hu hle hreg
    apply And.intro
    · have hmem : u ∈ p.newIntervals.flatMap (·.uses) := by
        rw [hp.uses, List.mem_filter, decide_eq_true_eq]
        exact ⟨hu, Or.inr hreg⟩
      exact List.mem_flatMap.mp hmem
    · intro hnew huse
      have hnone : spillInterval = none := by rwa [hp.isNew, Option.isNone_iff_eq_none] at hnew
      rw [(hp.newSpill hnone).1, List.mem_filter, decide_eq_true_eq] at huse
      exact huse.2 (Or.inr hreg)
  · intro spill hspill
    exact ⟨by rw [hp.isNew, Option.mem_def.mp hspill]; rfl, hp.oldSpill spill hspill⟩

/-! ## The runs over the uses -/

/-- The uses in the definition and those behind it. -/
theorem Suited.exists_split (h : Suited insData reg index interval spillInterval start spillStart)
    (hs : Splittable insData interval spillInterval spillStart) :
    ∃ front behind, interval.uses = front ++ behind ∧ (∀ u ∈ front, u.1 < spillStart) ∧
      Behind insData spillStart spillInterval.isNone behind ∧
      interval.uses.filter (Kept insData spillStart ·) = front ++ behind.filter (RegisterUse insData ·) ∧
      interval.uses.filter (¬ Kept insData spillStart ·) = behind.filter (¬ RegisterUse insData ·) := by
  have happend := List.takeWhile_append_dropWhile (p := fun u : ℕ × LUse => u.1 < spillStart) (l := interval.uses)
  have hfront : ∀ u ∈ interval.uses.takeWhile (·.1 < spillStart), u.1 < spillStart :=
    fun u hu => by simpa using List.mem_takeWhile_imp hu
  have hbehind : ∀ u ∈ interval.uses.dropWhile (·.1 < spillStart), spillStart ≤ u.1 := by
    intro u hu
    have hnot := Ascending.dropWhile (q := fun u : ℕ × LUse => u.1 < spillStart) h.ascending
      (fun v w hle hw => by simp only [decide_eq_true_eq] at hw ⊢; omega) u hu
    simpa using hnot
  have hsub : ∀ u ∈ interval.uses.dropWhile (·.1 < spillStart), u ∈ interval.uses :=
    fun u hu => (List.dropWhile_sublist _).subset hu
  refine ⟨_, _, happend.symm, hfront, ⟨?_, fun u hu => h.instruction u (hsub u hu), hbehind, ?_⟩, ?_, ?_⟩
  · exact h.ascending.sublist (List.dropWhile_sublist _)
  · exact fun u hu hreg => by rw [hs.uses u (hsub u hu) (hbehind u hu) hreg]; rfl
  · rw [← happend, List.filter_append, happend]
    congr 1
    · rw [List.filter_eq_self]
      exact fun u hu => decide_eq_true (Or.inl (hfront u hu))
    · refine List.filter_congr fun u hu => decide_eq_decide.mpr ?_
      have := hbehind u hu
      rw [Kept, or_iff_right (by omega)]
  · rw [← happend, List.filter_append, happend]
    have hnil : (interval.uses.takeWhile (·.1 < spillStart)).filter (¬ Kept insData spillStart ·) = [] := by
      rw [List.filter_eq_nil_iff]
      intro u hu
      rw [decide_eq_true_eq, not_not]
      exact Or.inl (hfront u hu)
    rw [hnil, List.nil_append]
    refine List.filter_congr fun u hu => decide_eq_decide.mpr ?_
    have := hbehind u hu
    rw [Kept, or_iff_right (by omega)]

/-- The spill interval at the beginning. -/
theorem Suited.spillOf_spec (h : Suited insData reg index interval spillInterval start spillStart)
    (hs : Splittable insData interval spillInterval spillStart) :
    ∃ spill, spillOf interval spillInterval spillStart = some spill ∧
      (spillInterval = none → spill.uses = [] ∧
        positions spill.ranges = positions interval.ranges ∩ Set.Ici spillStart) ∧
      ∀ old ∈ spillInterval, spill = old := by
  cases hsi : spillInterval with
  | none =>
    obtain ⟨spill, hrun, -, hpos, huses⟩ := addRangesFrom_spec new
      (fun r hr => ⟨h.descending.nonempty r hr, hs.ranges hsi r hr⟩) descending_nil
    refine ⟨spill, hrun, fun _ => ⟨huses, ?_⟩, by simp⟩
    rw [hpos]
    simp [new]
  | some old => exact ⟨old, rfl, by simp, by simp⟩

/-- What becomes of the spill interval. -/
theorem Splittable.spill_spec {spill spill' : Interval} {behind joined : List (ℕ × LUse)}
    {news added news' : List Interval}
    (hs : Splittable insData interval spillInterval spillStart)
    (hfilter : interval.uses.filter (¬ Kept insData spillStart ·) = behind.filter (¬ RegisterUse insData ·))
    (hnew : spillInterval = none → spill.uses = [] ∧
      positions spill.ranges = positions interval.ranges ∩ Set.Ici spillStart)
    (hold : ∀ old ∈ spillInterval, spill = old)
    (hd : Distributed insData behind news spill joined added news' spill') :
    (spillInterval = none → spill'.uses = interval.uses.filter (¬ Kept insData spillStart ·) ∧
      positions spill'.ranges = positions interval.ranges ∩ Set.Ici spillStart) ∧
      ∀ old ∈ spillInterval, spill' = old := by
  rw [hd.spill, ← hfilter]
  refine ⟨fun hnone => ⟨by simp [(hnew hnone).1], (hnew hnone).2⟩, fun old hmem => ?_⟩
  have hnil : interval.uses.filter (¬ Kept insData spillStart ·) = [] := by
    rw [List.filter_eq_nil_iff]
    intro u hu hnot
    rw [decide_eq_true_eq, Kept, not_or, not_lt] at hnot
    rw [hs.uses u hu hnot.1 hnot.2] at hmem
    cases hmem
  rw [hnil, List.append_nil]
  exact hold old hmem

/-! ## `splitAt` -/

/-- The first interval of `splitAt` reaches the end of the definition: no use is in the definition, or the last
of them is at its end, or a register use behind it joins them because no split position comes between. -/
def Reaches (insData : List LInstruction) (start spillStart : ℕ) (splitPositions : List ℕ)
    (uses : List (ℕ × LUse)) : Prop :=
  (∀ u ∈ uses, spillStart ≤ u.1) ∨ (∃ u ∈ uses, u.1 + 1 = spillStart) ∨
    (start ≠ 0 ∧ ∃ u ∈ uses, spillStart ≤ u.1 ∧ RegisterUse insData u ∧
      ∀ q ∈ splitPositions, q ≤ u.1 → ∃ d ∈ uses, d.1 < spillStart ∧ q ≤ d.1)

variable {splitPositions : List ℕ} {front behind joined : List (ℕ × LUse)}

/-- Where the first interval ends, by the uses that it has. -/
theorem le_firstStop_iff (hfront : ∀ u ∈ front, u.1 < spillStart) (hjoined : ∀ u ∈ joined, spillStart ≤ u.1)
    (hasc : Ascending (front ++ joined)) :
    spillStart ≤ firstStop spillStart (front ++ joined) ↔
      front = [] ∨ (∃ u ∈ front, u.1 + 1 = spillStart) ∨ joined ≠ [] := by
  rcases List.eq_nil_or_concat joined with rfl | ⟨rest, back, rfl⟩
  · rcases List.eq_nil_or_concat front with rfl | ⟨rest, back, rfl⟩
    · simp [firstStop]
    · rw [List.append_nil, List.concat_eq_append] at hasc
      have hlast : (rest ++ [back]).getLast? = some back := List.getLast?_concat
      have hback := hfront back (by simp)
      rw [List.append_nil, List.concat_eq_append, firstStop, hlast, Option.map_some, Option.getD_some]
      apply Iff.intro
      · exact fun hle => Or.inr (Or.inl ⟨back, by simp, by omega⟩)
      · rintro (hnil | ⟨u, hu, hend⟩ | hne)
        · simp at hnil
        · have := le_getLast_of_ascending hasc hlast u hu
          omega
        · exact absurd rfl hne
  · have hlast : (front ++ rest.concat back).getLast? = some back := by
      rw [List.concat_eq_append, ← List.append_assoc, List.getLast?_concat]
    have hback := hjoined back (by simp)
    rw [firstStop, hlast, Option.map_some, Option.getD_some]
    exact iff_of_true (by omega) (Or.inr (Or.inr (by simp)))

/-- When the first register use behind the definition joins the uses in it, and the same for any of them. -/
theorem joins_iff (hsorted : splitPositions.Pairwise (· < ·)) (hne : front ≠ [])
    (hstart : ∀ u ∈ front, start ≤ u.1) (hfront : ∀ u ∈ front, u.1 < spillStart)
    (hbehind : ∀ u ∈ behind, spillStart ≤ u.1) (hasc : Ascending behind) {news : List Interval} {spill : Interval} :
    (∃ u ∈ (behind.filter (RegisterUse insData ·)).head?,
      ¬ Separate ⟨news, spill, start, (splitPositions.filter (start < ·)).filter fun q => ∀ u ∈ front, u.1 < q⟩ u) ↔
      start ≠ 0 ∧ ∃ u ∈ front ++ behind, spillStart ≤ u.1 ∧ RegisterUse insData u ∧
        ∀ q ∈ splitPositions, q ≤ u.1 → ∃ d ∈ front ++ behind, d.1 < spillStart ∧ q ≤ d.1 := by
  have hsep : ∀ u : ℕ × LUse,
      ¬ Separate ⟨news, spill, start, (splitPositions.filter (start < ·)).filter fun q => ∀ u ∈ front, u.1 < q⟩ u ↔
        start ≠ 0 ∧ ∀ q ∈ splitPositions, q ≤ u.1 → ∃ d ∈ front, q ≤ d.1 := by
    intro u
    rw [Separate, splitHere_iff ((hsorted.filter _).filter _), not_or]
    refine and_congr_right fun _ => ?_
    simp only [List.mem_filter, decide_eq_true_eq, not_exists, not_and, not_le]
    apply Iff.intro
    · intro h q hq hle
      by_contra hnot
      simp only [not_exists, not_and, not_le] at hnot
      obtain ⟨d, hd⟩ := List.exists_mem_of_ne_nil front hne
      have := hnot d hd
      have := hstart d hd
      have := h q ⟨⟨hq, by omega⟩, hnot⟩
      omega
    · rintro h q ⟨⟨hq, -⟩, hlt⟩
      by_contra hle
      obtain ⟨d, hd, hqd⟩ := h q hq (by omega)
      have := hlt d hd
      omega
  have hd : ∀ q : ℕ, (∃ d ∈ front ++ behind, d.1 < spillStart ∧ q ≤ d.1) ↔ ∃ d ∈ front, q ≤ d.1 := by
    intro q
    apply Iff.intro
    · rintro ⟨d, hd, hlt, hle⟩
      rcases List.mem_append.mp hd with hd | hd
      · exact ⟨d, hd, hle⟩
      · have := hbehind d hd
        omega
    · rintro ⟨d, hd, hle⟩
      exact ⟨d, List.mem_append_left _ hd, hfront d hd, hle⟩
  simp only [hsep, hd]
  apply Iff.intro
  · rintro ⟨u, hu, h0, h⟩
    obtain ⟨hmem, hreg⟩ := List.mem_filter.mp (List.mem_of_head? hu)
    exact ⟨h0, u, List.mem_append_right _ hmem, hbehind u hmem, by simpa using hreg, h⟩
  · rintro ⟨h0, u, hmem, hle, hreg, h⟩
    have hu : u ∈ behind.filter (RegisterUse insData ·) := by
      rcases List.mem_append.mp hmem with hmem | hmem
      · have := hfront u hmem
        omega
      · exact List.mem_filter.mpr ⟨hmem, by simpa using hreg⟩
    have hhead := List.head?_eq_some_head (List.ne_nil_of_mem hu)
    refine ⟨_, hhead, h0, fun q hq hle' => h q hq (hle'.trans ?_)⟩
    exact head_le_of_ascending (hasc.sublist List.filter_sublist) hhead u hu

/-- The first interval covers the definition, where the interval does and it ends behind it. -/
theorem ico_subset_iff {old : Set ℕ} (hlt : start < spillStart) :
    Set.Ico start spillStart ⊆ old ∩ Set.Ico start stop ↔ Set.Ico start spillStart ⊆ old ∧ spillStart ≤ stop := by
  rw [Set.subset_inter_iff]
  refine and_congr_right fun _ => ⟨fun h => ?_, fun h => Set.Ico_subset_Ico_right h⟩
  have hlast := (h (show spillStart - 1 ∈ Set.Ico start spillStart from ⟨by omega, by omega⟩)).2
  omega

/-- `splitAt` from its two loops on. -/
theorem splitAt_eq {spill : Interval} {s : SplitState} {filled : List Interval}
    (h : Suited insData reg index interval spillInterval start spillStart) (hne : splitPositions ≠ [])
    (hsorted : splitPositions.Pairwise (· < ·)) (hspill : spillOf interval spillInterval spillStart = some spill)
    (hrun : interval.uses.foldlM (splitAtUse insData spillStart spillInterval.isNone)
      ⟨if spillStart ≠ start then [new] else [], spill, if spillStart ≠ start then start else 0,
        splitPositions.filter (start < ·)⟩ = some s)
    (hfill : fillIntervals start spillStart true interval.ranges.reverse s.newIntervals.reverse = some filled) :
    splitAt insData reg index interval spillInterval splitPositions =
      some ⟨filled, s.spillInterval, spillInterval.isNone⟩ := by
  have hok : ¬ (splitPositions = [] ∨ ¬ splitPositions.Pairwise (· < ·)) := by simp [hne, hsorted]
  simp only [splitAt, if_neg hok, h.isStart, h.isSpillStart, hspill, nextSplitPosition_eq_filter hsorted, hrun,
    hfill,
    Option.bind_eq_bind, Option.bind_some]

/-- What `splitAt` makes of an interval with a register definition. -/
theorem splitAt_definition (h : Suited insData reg index interval spillInterval start spillStart)
    (hs : Splittable insData interval spillInterval spillStart) (hlt : start < spillStart)
    (hne : splitPositions ≠ []) (hsorted : splitPositions.Pairwise (· < ·)) :
    ∃ p, splitAt insData reg index interval spillInterval splitPositions = some p ∧
      Parted insData interval spillInterval spillStart p ∧
      (∀ i ∈ p.newIntervals, positions i.ranges ⊆ positions interval.ranges) ∧
      (CoversDefinition start spillStart p ↔
        Set.Ico start spillStart ⊆ positions interval.ranges ∧
          Reaches insData start spillStart splitPositions interval.uses) := by
  obtain ⟨front, behind, huses, hfront, hbehind, hkept, hrest⟩ := h.exists_split hs
  obtain ⟨spill, hspill, hnew, hold⟩ := h.spillOf_spec hs
  have hmemf : ∀ u ∈ front, u ∈ interval.uses := fun u hu => huses ▸ List.mem_append_left _ hu
  have hmemb : ∀ u ∈ behind, u ∈ interval.uses := fun u hu => huses ▸ List.mem_append_right _ hu
  have hstart : ∀ u ∈ interval.uses, start ≤ u.1 := fun u hu => start_le h.descending h.isStart _ (h.covered u hu)
  have hasc := h.ascending
  rw [huses] at hasc
  obtain ⟨hascf, -, hbefore⟩ := List.pairwise_append.mp hasc
  -- The loop over the uses.
  set positions' := splitPositions.filter (start < ·) with hpositions'
  have hsorted' : positions'.Pairwise (· < ·) := hsorted.filter _
  have hrunf : front.foldlM (splitAtUse insData spillStart spillInterval.isNone) ⟨[new], spill, start, positions'⟩ =
      some ⟨[{ new with uses := front }], spill, start, positions'.filter fun q => ∀ u ∈ front, u.1 < q⟩ :=
    splitAtUses_definition hascf (fun u hu => h.instruction u (hmemf u hu)) hfront (fun _ => List.cons_ne_nil _ _)
      (by
        intro back hback v hv
        obtain rfl := Option.some.inj hback
        cases hv)
      hsorted'
  obtain ⟨s, joined, added, hrunb, hd, hranges, hjoin⟩ := splitAtUses_behind hbehind
    (s := ⟨[{ new with uses := front }], spill, start, positions'.filter fun q => ∀ u ∈ front, u.1 < q⟩)
    (by
      intro back hback
      obtain rfl := Option.some.inj hback
      exact hbefore)
    (by
      intro hisNew v hv
      rw [(hnew (Option.isNone_iff_eq_none.mp hisNew)).1] at hv
      cases hv)
    (fun hnil => absurd hnil (List.cons_ne_nil _ _))
  have hrun : interval.uses.foldlM (splitAtUse insData spillStart spillInterval.isNone)
      ⟨if spillStart ≠ start then [new] else [], spill, if spillStart ≠ start then start else 0, positions'⟩ =
        some s := by
    rw [if_pos hlt.ne', if_pos hlt.ne', huses, List.foldlM_append, hrunf]
    exact hrunb
  -- The loop that gives out the ranges.
  have hparts : s.newIntervals.reverse = { new with uses := front ++ joined } :: added.reverse := by
    rw [hd.newIntervals]
    simp [extendHead]
  have hinOrder : front ++ joined ++ added.reverse.flatMap (·.uses) =
      interval.uses.filter (Kept insData spillStart ·) := by
    rw [hkept, List.append_assoc, ← hd.inOrder]
    rfl
  have hjoinedb : ∀ u ∈ joined ++ added.reverse.flatMap (·.uses), u ∈ behind := by
    intro u hu
    have hu : u ∈ behind.filter (RegisterUse insData ·) := hd.inOrder ▸ hu
    exact List.mem_of_mem_filter hu
  have hmem : ∀ u ∈ front ++ joined, u ∈ interval.uses := by
    intro u hu
    rcases List.mem_append.mp hu with hu | hu
    · exact hmemf u hu
    · exact hmemb u (hjoinedb u (List.mem_append_left _ hu))
  have hascall : Ascending (front ++ joined ++ added.reverse.flatMap (·.uses)) := by
    rw [hinOrder]
    exact h.ascending.sublist List.filter_sublist
  obtain ⟨first, filled, hfill, hfirst, hdesc, hpos, hall⟩ :=
    fillIntervals_first { new with uses := front ++ joined } added.reverse
      (show Rising interval.ranges.reverse by rw [Rising, List.reverse_reverse]; exact h.descending) hlt
      (fun u hu => hstart u (hmem u hu)) rfl
      (by
        intro i hi u hu
        have hu := hjoinedb u (List.mem_append_right _ (List.mem_flatMap_of_mem hi hu))
        rw [positions_reverse]
        exact ⟨h.covered u (hmemb u hu), hbehind.behind u hu⟩)
      (fun i hi => hd.nonempty i (List.mem_reverse.mp hi)) (fun i hi => hranges i (List.mem_reverse.mp hi)) hascall
  rw [positions_reverse] at hpos hall
  rw [← hparts] at hfill
  have hsplit := splitAt_eq h hne hsorted hspill hrun hfill
  obtain ⟨hspillNew, hspillOld⟩ := hs.spill_spec hrest hnew hold hd
  have hattached : ∀ u ∈ first.uses, u.1 ∈ positions first.ranges := by
    intro u hu
    rw [hfirst] at hu
    rw [hpos]
    refine ⟨h.covered u (hmem u hu), hstart u (hmem u hu), ?_⟩
    have hback := List.getLast?_eq_some_getLast (List.ne_nil_of_mem hu)
    rw [firstStop, hback]
    exact Nat.lt_succ_of_le (le_getLast_of_ascending (List.pairwise_append.mp hascall).1 hback u hu)
  have hfilled := exists_part_of_filled hall
  refine ⟨_, hsplit, ⟨rfl, ?_, ?_, ?_, hspillNew, hspillOld⟩, ?_, ?_⟩
  · rw [List.flatMap_cons, hfirst, flatMap_uses_of_filled hall]
    exact hinOrder
  · intro i hi
    rcases List.mem_cons.mp hi with rfl | hi
    · exact hattached
    · obtain ⟨part, -, hf⟩ := hfilled i hi
      rw [hf.uses]
      exact hf.attached
  · intro i hi
    rcases List.mem_cons.mp hi with rfl | hi
    · have hstop := lt_firstStop hlt fun u hu => hstart u (hmem u hu)
      exact ranges_ne_nil (hpos.symm.subset ⟨h.start_mem, le_rfl, hstop⟩)
    · obtain ⟨part, hpart, hf⟩ := hfilled i hi
      obtain ⟨u, hu⟩ := List.exists_mem_of_ne_nil _ (hd.nonempty part (List.mem_reverse.mp hpart))
      exact ranges_ne_nil (hf.attached u hu)
  · intro i hi
    rcases List.mem_cons.mp hi with rfl | hi
    · rw [hpos]
      exact Set.inter_subset_left
    · obtain ⟨part, -, hf⟩ := hfilled i hi
      exact hf.within
  · have hcov : CoversDefinition start spillStart ⟨first :: filled, s.spillInterval, spillInterval.isNone⟩ ↔
        Set.Ico start spillStart ⊆ positions first.ranges := by simp [CoversDefinition]
    rw [hcov, hpos, ico_subset_iff hlt]
    refine and_congr_right fun _ => ?_
    have hjoinedle : ∀ u ∈ joined, spillStart ≤ u.1 :=
      fun u hu => hbehind.behind u (hjoinedb u (List.mem_append_left _ hu))
    rw [le_firstStop_iff hfront hjoinedle (List.pairwise_append.mp hascall).1, Reaches, huses]
    have hend : (∃ u ∈ front ++ behind, u.1 + 1 = spillStart) ↔ ∃ u ∈ front, u.1 + 1 = spillStart := by
      apply Iff.intro
      · rintro ⟨u, hu, heq⟩
        rcases List.mem_append.mp hu with hu | hu
        · exact ⟨u, hu, heq⟩
        · have := hbehind.behind u hu
          omega
      · rintro ⟨u, hu, heq⟩
        exact ⟨u, List.mem_append_left _ hu, heq⟩
    have hnil : (∀ u ∈ front ++ behind, spillStart ≤ u.1) ↔ front = [] := by
      apply Iff.intro
      · intro hle
        rw [List.eq_nil_iff_forall_not_mem]
        intro u hu
        have := hle u (List.mem_append_left _ hu)
        have := hfront u hu
        omega
      · rintro rfl
        exact hbehind.behind
    rw [hnil, hend]
    by_cases hf : front = []
    · simp [hf]
    · rw [hjoin, joins_iff hsorted hf (fun u hu => hstart u (hmemf u hu)) hfront hbehind.behind hbehind.ascending]

/-- What `splitAt` makes of any other interval. -/
theorem splitAt_start (h : Suited insData reg index interval spillInterval start start)
    (hs : Splittable insData interval spillInterval start) (hne : splitPositions ≠ [])
    (hsorted : splitPositions.Pairwise (· < ·)) :
    ∃ p, splitAt insData reg index interval spillInterval splitPositions = some p ∧
      Parted insData interval spillInterval start p ∧
      ∀ i ∈ p.newIntervals, positions i.ranges ⊆ positions interval.ranges := by
  obtain ⟨front, behind, huses, hfront, hbehind, hkept, hrest⟩ := h.exists_split hs
  obtain ⟨spill, hspill, hnew, hold⟩ := h.spillOf_spec hs
  have hnil : front = [] := by
    rw [List.eq_nil_iff_forall_not_mem]
    intro u hu
    have := start_le h.descending h.isStart _ (h.covered u (huses ▸ List.mem_append_left _ hu))
    have := hfront u hu
    omega
  rw [hnil, List.nil_append] at huses hkept
  obtain ⟨s, joined, added, hrunb, hd, hranges, hjoin⟩ := splitAtUses_behind hbehind
    (s := ⟨[], spill, 0, splitPositions.filter (start < ·)⟩) (by simp)
    (by
      intro hisNew v hv
      rw [(hnew (Option.isNone_iff_eq_none.mp hisNew)).1] at hv
      cases hv)
    (fun _ => rfl)
  have hjoined : joined = [] := by
    by_contra hnot
    obtain ⟨u, -, hsep⟩ := hjoin.mp hnot
    exact hsep (Or.inl rfl)
  have hparts : s.newIntervals.reverse = added.reverse := by
    rw [hd.newIntervals, extendHead, List.append_nil]
  have hinOrder : added.reverse.flatMap (·.uses) = interval.uses.filter (Kept insData start ·) := by
    rw [hkept, ← hd.inOrder, hjoined]
    rfl
  have hmem : ∀ i ∈ added.reverse, ∀ u ∈ i.uses, u ∈ interval.uses := by
    intro i hi u hu
    have hu := List.mem_flatMap_of_mem hi hu
    rw [hinOrder] at hu
    exact List.mem_of_mem_filter hu
  obtain ⟨filled, hfill, hall⟩ :=
    fillIntervals_later start start
      (show Rising interval.ranges.reverse by rw [Rising, List.reverse_reverse]; exact h.descending)
      (fun i hi u hu => by rw [positions_reverse]; exact h.covered u (hmem i hi u hu))
      (fun i hi => hd.nonempty i (List.mem_reverse.mp hi)) (fun i hi => hranges i (List.mem_reverse.mp hi))
      (by rw [hinOrder]; exact h.ascending.sublist List.filter_sublist)
  rw [positions_reverse] at hall
  rw [← fillIntervals_start true, ← hparts] at hfill
  have hrun : interval.uses.foldlM (splitAtUse insData start spillInterval.isNone)
      ⟨if start ≠ start then [new] else [], spill, if start ≠ start then start else 0,
        splitPositions.filter (start < ·)⟩ = some s := by
    rw [if_neg (not_not.mpr rfl), if_neg (not_not.mpr rfl), huses]
    exact hrunb
  have hsplit := splitAt_eq h hne hsorted hspill hrun hfill
  obtain ⟨hspillNew, hspillOld⟩ := hs.spill_spec hrest hnew hold hd
  have hfilled := exists_part_of_filled hall
  refine ⟨_, hsplit, ⟨rfl, ?_, ?_, ?_, hspillNew, hspillOld⟩, ?_⟩
  · exact (flatMap_uses_of_filled hall).trans hinOrder
  · intro i hi
    obtain ⟨part, -, hf⟩ := hfilled i hi
    rw [hf.uses]
    exact hf.attached
  · intro i hi
    obtain ⟨part, hpart, hf⟩ := hfilled i hi
    obtain ⟨u, hu⟩ := List.exists_mem_of_ne_nil _ (hd.nonempty part (List.mem_reverse.mp hpart))
    exact ranges_ne_nil (hf.attached u hu)
  · intro i hi
    obtain ⟨part, -, hf⟩ := hfilled i hi
    exact hf.within

/-! ## `splitAtAllRegisterUses` -/

/-- A minimal interval covers its uses and the inputs of their instructions. -/
theorem Minimal.eq_of_mem {i : Interval} {pos : ℕ} (hi : Minimal i) (hne : i.uses ≠ [])
    (hpos : pos ∈ positions i.ranges) : ∃ u ∈ i.uses, pos = inputOf u.1 ∨ pos = u.1 := by
  obtain ⟨usePos, hranges, huses⟩ := hi
  obtain ⟨u, hu⟩ := List.exists_mem_of_ne_nil _ hne
  rw [hranges, mem_positions_cons, positions_nil] at hpos
  refine ⟨u, hu, ?_⟩
  rw [huses u hu]
  simp only [inputOf, Set.mem_empty_iff_false, or_false] at hpos ⊢
  omega

/-- What `splitAtAllRegisterUses` covers in any case: the definition, and the inputs of the register uses behind
it. -/
def minimalPositions (insData : List LInstruction) (reg : VirtualRegister) (index : ℕ) (interval : Interval)
    (start spillStart : ℕ) : Set ℕ :=
  { pos | (isRegisterDefinition reg index = true ∧ pos ∈ Set.Ico start spillStart) ∨
    ∃ u ∈ interval.uses, spillStart ≤ u.1 ∧ RegisterUse insData u ∧ pos = inputOf u.1 }

/-- The interval of a definition, with some uses. -/
def definitionPart (reg : VirtualRegister) (index start spillStart : ℕ) (uses : List (ℕ × LUse)) : List Interval :=
  if isRegisterDefinition reg index then [⟨[⟨start, spillStart⟩], uses, 2 ^ 64 - 1⟩] else []

theorem mem_definitionPart {uses : List (ℕ × LUse)} {i : Interval} :
    i ∈ definitionPart reg index start spillStart uses ↔
      isRegisterDefinition reg index = true ∧ i = ⟨[⟨start, spillStart⟩], uses, 2 ^ 64 - 1⟩ := by
  rw [definitionPart]
  split_ifs with hreg <;> simp [hreg]

theorem extendHead_definitionPart {uses : List (ℕ × LUse)} :
    extendHead uses (definitionPart reg index start spillStart []) =
      definitionPart reg index start spillStart uses := by
  rw [definitionPart, definitionPart]
  split_ifs <;> rfl

theorem reverse_definitionPart {uses : List (ℕ × LUse)} :
    (definitionPart reg index start spillStart uses).reverse = definitionPart reg index start spillStart uses := by
  rw [definitionPart]
  split_ifs <;> rfl

/-- `splitAtAllRegisterUses` from its loop on. -/
theorem splitAtAllRegisterUses_eq {spill spill' : Interval} {news : List Interval}
    (h : Suited insData reg index interval spillInterval start spillStart)
    (hlt : isRegisterDefinition reg index = true → start < spillStart)
    (hspill : spillOf interval spillInterval spillStart = some spill)
    (hrun : interval.uses.foldlM (splitUse insData spillStart spillInterval.isNone)
      (definitionPart reg index start spillStart [], spill) = some (news, spill')) :
    splitAtAllRegisterUses insData reg index interval spillInterval =
      some ⟨news.reverse, spill', spillInterval.isNone⟩ := by
  rw [definitionPart] at hrun
  cases hreg : isRegisterDefinition reg index with
  | true =>
    rw [hreg, if_pos rfl] at hrun
    simp only [splitAtAllRegisterUses, h.isStart, h.isSpillStart, hreg, if_true, addLiveInterval_eq (hlt hreg),
      hspill,
      hrun, Option.bind_eq_bind, Option.bind_some]
  | false =>
    rw [hreg, if_neg Bool.false_ne_true] at hrun
    simp only [splitAtAllRegisterUses, h.isStart, h.isSpillStart, hreg, Bool.false_eq_true, if_false, hspill, hrun,
      Option.bind_eq_bind, Option.bind_some]

/-- What `splitAtAllRegisterUses` makes of an interval. -/
theorem splitAtAllRegisterUses_spec (h : Suited insData reg index interval spillInterval start spillStart)
    (hs : Splittable insData interval spillInterval spillStart) :
    ∃ p, splitAtAllRegisterUses insData reg index interval spillInterval = some p ∧
      Parted insData interval spillInterval spillStart p ∧
      (∀ i ∈ p.newIntervals, positions i.ranges ⊆
        positions interval.ranges ∪ minimalPositions insData reg index interval start spillStart) ∧
      (isRegisterDefinition reg index = true → CoversDefinition start spillStart p) := by
  obtain ⟨front, behind, huses, hfront, hbehind, hkept, hrest⟩ := h.exists_split hs
  obtain ⟨spill, hspill, hnew, hold⟩ := h.spillOf_spec hs
  have hmemf : ∀ u ∈ front, u ∈ interval.uses := fun u hu => huses ▸ List.mem_append_left _ hu
  have hmemb : ∀ u ∈ behind, u ∈ interval.uses := fun u hu => huses ▸ List.mem_append_right _ hu
  have hstart : ∀ u ∈ interval.uses, start ≤ u.1 := fun u hu => start_le h.descending h.isStart _ (h.covered u hu)
  have hspec := spillStartOf_spec h.isSpillStart
  have hlt : isRegisterDefinition reg index = true → start < spillStart := by
    intro hreg
    rw [if_pos hreg] at hspec
    exact hspec.1
  have hdef : front ≠ [] → isRegisterDefinition reg index = true := by
    intro hne
    by_contra hreg
    rw [if_neg hreg] at hspec
    obtain ⟨u, hu⟩ := List.exists_mem_of_ne_nil _ hne
    have := hstart u (hmemf u hu)
    have := hfront u hu
    omega
  have hasc := h.ascending
  rw [huses] at hasc
  obtain ⟨hascf, -, hbefore⟩ := List.pairwise_append.mp hasc
  -- The loop over the uses.
  have hrunf : front.foldlM (splitUse insData spillStart spillInterval.isNone)
      (definitionPart reg index start spillStart [], spill) =
        some (extendHead front (definitionPart reg index start spillStart []), spill) :=
    splitUses_definition hascf (fun u hu => h.instruction u (hmemf u hu)) hfront
      (fun hne => List.ne_nil_of_mem (mem_definitionPart.mpr ⟨hdef hne, rfl⟩))
      (by
        intro back hback v hv
        rw [(mem_definitionPart.mp (List.mem_of_head? hback)).2] at hv
        cases hv)
  rw [extendHead_definitionPart] at hrunf
  obtain ⟨news, spill', joined, added, hrunb, hd, hmin, hjoin⟩ :=
    splitUses_behind (definitionPart reg index start spillStart front) spill hbehind
    (by
      intro back hback
      rw [(mem_definitionPart.mp (List.mem_of_head? hback)).2]
      exact hbefore)
    (by
      intro hisNew v hv
      rw [(hnew (Option.isNone_iff_eq_none.mp hisNew)).1] at hv
      cases hv)
  have hrun : interval.uses.foldlM (splitUse insData spillStart spillInterval.isNone)
      (definitionPart reg index start spillStart [], spill) = some (news, spill') := by
    rw [huses, List.foldlM_append, hrunf]
    exact hrunb
  have hjoinedb : ∀ u ∈ joined ++ usesOf added, u ∈ behind := by
    intro u hu
    rw [hd.inOrder] at hu
    exact List.mem_of_mem_filter hu
  -- No use behind the definition joins those in it.
  have hjoined : joined = [] := by
    rw [List.eq_nil_iff_forall_not_mem]
    intro u hu
    have hstop := hjoin u hu
    have hle := hbehind.behind u (hjoinedb u (List.mem_append_left _ hu))
    rw [definitionPart] at hstop
    split_ifs at hstop
    · obtain rfl := Option.some.inj hstop
      omega
    · cases hstop
  have hnews : news.reverse = definitionPart reg index start spillStart front ++ added.reverse := by
    rw [hd.newIntervals, hjoined, extendHead_nil, List.reverse_append, reverse_definitionPart]
  have hinOrder : (definitionPart reg index start spillStart front ++ added.reverse).flatMap (·.uses) =
      interval.uses.filter (Kept insData spillStart ·) := by
    have hpart : (definitionPart reg index start spillStart front).flatMap (·.uses) = front := by
      rw [definitionPart]
      split_ifs with hreg
      · simp
      · rw [List.flatMap_nil, eq_comm]
        exact not_not.mp fun hne => hreg (hdef hne)
    rw [List.flatMap_append, hpart, hkept, ← hd.inOrder, hjoined]
    rfl
  have hadded : ∀ i ∈ added.reverse, ∀ u ∈ i.uses, u ∈ behind :=
    fun i hi u hu => hjoinedb u (List.mem_append_right _ (List.mem_flatMap_of_mem hi hu))
  have hminimal : ∀ i ∈ added.reverse, Minimal i := fun i hi => hmin i (List.mem_reverse.mp hi)
  have hnonempty : ∀ i ∈ added.reverse, i.uses ≠ [] := fun i hi => hd.nonempty i (List.mem_reverse.mp hi)
  obtain ⟨hspillNew, hspillOld⟩ := hs.spill_spec hrest hnew hold hd
  refine ⟨_, splitAtAllRegisterUses_eq h hlt hspill hrun, ⟨rfl, ?_, ?_, ?_, hspillNew, hspillOld⟩, ?_, ?_⟩
  all_goals simp only [hnews]
  · exact hinOrder
  · intro i hi u hu
    rcases List.mem_append.mp hi with hi | hi
    · obtain ⟨-, rfl⟩ := mem_definitionPart.mp hi
      exact ⟨_, List.mem_cons_self, hstart u (hmemf u hu), hfront u hu⟩
    · obtain ⟨pos, hranges, hpos⟩ := hminimal i hi
      rw [hranges, hpos u hu]
      exact ⟨_, List.mem_cons_self, inputOf_le pos, Nat.lt_succ_self pos⟩
  · intro i hi
    rcases List.mem_append.mp hi with hi | hi
    · obtain ⟨-, rfl⟩ := mem_definitionPart.mp hi
      exact List.cons_ne_nil _ _
    · obtain ⟨pos, hranges, -⟩ := hminimal i hi
      rw [hranges]
      exact List.cons_ne_nil _ _
  · intro i hi pos hpos
    rcases List.mem_append.mp hi with hi | hi
    · obtain ⟨hreg, rfl⟩ := mem_definitionPart.mp hi
      obtain ⟨r, hr, hpos⟩ := hpos
      rw [List.mem_singleton.mp hr] at hpos
      exact Or.inr (Or.inl ⟨hreg, hpos⟩)
    · obtain ⟨u, hu, heq⟩ := (hminimal i hi).eq_of_mem (hnonempty i hi) hpos
      have hmem : u ∈ behind.filter (RegisterUse insData ·) :=
        hd.inOrder ▸ List.mem_append_right _ (List.mem_flatMap_of_mem hi hu)
      obtain ⟨hub, hreg⟩ := List.mem_filter.mp hmem
      rcases heq with rfl | rfl
      · exact Or.inr (Or.inr ⟨u, hmemb u hub, hbehind.behind u hub, by simpa using hreg, rfl⟩)
      · exact Or.inl (h.covered u (hmemb u hub))
  · intro hreg
    rw [CoversDefinition, definitionPart, if_pos hreg]
    exact ⟨_, rfl, fun pos hpos => ⟨_, List.mem_cons_self, hpos⟩⟩

/-! ## The assertions -/

/-- A loop that ends has come past every use. -/
theorem forall_of_foldlM {S : Type} {f : S → ℕ × LUse → Option S} {P : ℕ × LUse → Prop}
    (hf : ∀ s u s', f s u = some s' → P u) {uses : List (ℕ × LUse)} {s s' : S} (h : uses.foldlM f s = some s') :
    ∀ u ∈ uses, P u := by
  induction uses generalizing s with
  | nil => simp
  | cons u uses ih =>
    rw [List.foldlM_cons] at h
    obtain ⟨s₁, hs₁, hrest⟩ := Option.bind_eq_some_iff.mp h
    exact List.forall_mem_cons.mpr ⟨hf s u s₁ hs₁, ih hrest⟩

/-- What a use has to be for `splitAt`. -/
theorem splitAtUse_some {isNew : Bool} {s s' : SplitState} {u : ℕ × LUse}
    (h : splitAtUse insData spillStart isNew s u = some s') : Kept insData spillStart u ∨ isNew = true := by
  obtain ⟨ins, hins, h⟩ := Option.bind_eq_some_iff.mp h
  rw [Kept, registerUse_iff hins]
  split_ifs at h <;> tauto

/-- And for `splitAtAllRegisterUses`. -/
theorem splitUse_some {isNew : Bool} {s s' : List Interval × Interval} {u : ℕ × LUse}
    (h : splitUse insData spillStart isNew s u = some s') : Kept insData spillStart u ∨ isNew = true := by
  obtain ⟨ins, hins, h⟩ := Option.bind_eq_some_iff.mp h
  rw [Kept, registerUse_iff hins]
  split_ifs at h <;> tauto

/-- Ranges that were added reach behind the definition. -/
theorem addRangesFrom_some {spill spill' : Interval} (h : addRangesFrom spillStart ranges spill = some spill') :
    ∀ r ∈ ranges, spillStart < r.toPos := by
  induction ranges generalizing spill with
  | nil => simp
  | cons r ranges ih =>
    obtain ⟨spill₁, hadd, hrest⟩ := Option.bind_eq_some_iff.mp h
    refine List.forall_mem_cons.mpr ⟨?_, ih hrest⟩
    rw [LiveInterval.addRange] at hadd
    split_ifs at hadd <;> omega

/-- The assertions hold if the ranges and the uses go through. -/
theorem splittable_of_some {spill : Interval} (hspill : spillOf interval spillInterval spillStart = some spill)
    (huses : ∀ u ∈ interval.uses, Kept insData spillStart u ∨ spillInterval.isNone = true) :
    Splittable insData interval spillInterval spillStart where
  ranges hnone := by
    rw [hnone] at hspill
    exact addRangesFrom_some hspill
  uses u hu hle hreg := by
    refine Option.isNone_iff_eq_none.mp ((huses u hu).resolve_left ?_)
    rw [Kept, not_or, not_lt]
    exact ⟨hle, hreg⟩

/-- `splitAt` only ends if they do. -/
theorem splittable_of_splitAt {p : Pieces} (h : Suited insData reg index interval spillInterval start spillStart)
    (hsplit : splitAt insData reg index interval spillInterval splitPositions = some p) :
    Splittable insData interval spillInterval spillStart := by
  rw [splitAt] at hsplit
  split_ifs at hsplit
  rw [h.isStart, Option.bind_eq_bind, Option.bind_some, h.isSpillStart, Option.bind_eq_bind, Option.bind_some]
    at hsplit
  obtain ⟨spill, hspill, hsplit⟩ := Option.bind_eq_some_iff.mp hsplit
  obtain ⟨s, hrun, -⟩ := Option.bind_eq_some_iff.mp hsplit
  exact splittable_of_some hspill (forall_of_foldlM
    (P := fun u => Kept insData spillStart u ∨ spillInterval.isNone = true) (fun _ _ _ => splitAtUse_some) hrun)

/-- So does `splitAtAllRegisterUses`. -/
theorem splittable_of_splitAtAllRegisterUses {p : Pieces}
    (h : Suited insData reg index interval spillInterval start spillStart)
    (hsplit : splitAtAllRegisterUses insData reg index interval spillInterval = some p) :
    Splittable insData interval spillInterval spillStart := by
  have hall : ∀ {s s' : List Interval × Interval},
      interval.uses.foldlM (splitUse insData spillStart spillInterval.isNone) s = some s' →
        ∀ u ∈ interval.uses, Kept insData spillStart u ∨ spillInterval.isNone = true :=
    forall_of_foldlM (P := fun u => Kept insData spillStart u ∨ spillInterval.isNone = true)
      fun _ _ _ => splitUse_some
  rw [splitAtAllRegisterUses, h.isStart, Option.bind_eq_bind, Option.bind_some, h.isSpillStart, Option.bind_eq_bind,
    Option.bind_some] at hsplit
  split_ifs at hsplit
  all_goals
    obtain ⟨news, -, hsplit⟩ := Option.bind_eq_some_iff.mp hsplit
    obtain ⟨spill, hspill, hsplit⟩ := Option.bind_eq_some_iff.mp hsplit
    obtain ⟨s, hrun, -⟩ := Option.bind_eq_some_iff.mp hsplit
    exact splittable_of_some hspill (hall hrun)

/-! ## `split` -/

/-- An interval is added in its place. -/
theorem addInterval_perm {intervals : List Interval} (hne : ∀ i ∈ intervals, i.ranges ≠ []) {i : Interval}
    (hi : i.ranges ≠ []) :
    ∃ intervals', addInterval intervals i = some intervals' ∧ intervals'.Perm (i :: intervals) := by
  obtain ⟨⟨first, hstart⟩, -⟩ := exists_start_stop hi
  rw [addInterval, hstart, Option.bind_eq_bind, Option.bind_some]
  induction intervals with
  | nil => exact ⟨[i], rfl, .refl _⟩
  | cons j intervals ih =>
    obtain ⟨⟨other, hother⟩, -⟩ := exists_start_stop (hne j List.mem_cons_self)
    obtain ⟨intervals', hrun, hperm⟩ := ih fun k hk => hne k (List.mem_cons_of_mem _ hk)
    rw [addInterval.insert, hother, Option.bind_eq_bind, Option.bind_some]
    split_ifs
    · exact ⟨_, rfl, .refl _⟩
    · rw [hrun, Option.bind_eq_bind, Option.bind_some]
      exact ⟨_, rfl, (hperm.cons j).trans (.swap _ _ _)⟩

/-- Intervals are added one after the other. -/
theorem addIntervals_perm (intervals news : List Interval) (hne : ∀ i ∈ intervals, i.ranges ≠ [])
    (hnews : ∀ i ∈ news, i.ranges ≠ []) :
    ∃ intervals', news.foldlM addInterval intervals = some intervals' ∧ intervals'.Perm (intervals ++ news) := by
  induction news generalizing intervals with
  | nil => exact ⟨intervals, rfl, by simp⟩
  | cons i news ih =>
    obtain ⟨intervals₁, hadd, hperm₁⟩ := addInterval_perm hne (hnews i List.mem_cons_self)
    obtain ⟨intervals', hrun, hperm⟩ := ih intervals₁
      (fun j hj => by
        rcases List.mem_cons.mp (hperm₁.mem_iff.mp hj) with rfl | hj
        · exact hnews j List.mem_cons_self
        · exact hne j hj)
      (fun j hj => hnews j (List.mem_cons_of_mem _ hj))
    rw [List.foldlM_cons, hadd]
    exact ⟨intervals', hrun, hperm.trans ((hperm₁.append_right news).trans List.perm_middle.symm)⟩

/-- There is an earliest interval. -/
theorem findFirst_some {news : List Interval} (hne : news ≠ []) (hnews : ∀ i ∈ news, i.ranges ≠ []) :
    ∃ k < news.length, findFirst news = some k := by
  induction news with
  | nil => exact absurd rfl hne
  | cons i news ih =>
    cases news with
    | nil => exact ⟨0, by simp, rfl⟩
    | cons j news =>
      obtain ⟨k, hk, hfind⟩ := ih (List.cons_ne_nil _ _) fun l hl => hnews l (List.mem_cons_of_mem _ hl)
      have hget := List.getElem?_eq_getElem hk
      obtain ⟨⟨first, hfirst⟩, -⟩ := exists_start_stop (hnews i List.mem_cons_self)
      obtain ⟨⟨other, hother⟩, -⟩ :=
        exists_start_stop (hnews _ (List.mem_cons_of_mem i (List.getElem_mem hk)))
      refine ⟨if other < first then k + 1 else 0, ?_, ?_⟩
      · split_ifs <;> simp only [List.length_cons] at hk ⊢ <;> omega
      · rw [findFirst, hfind, Option.bind_eq_bind, Option.bind_some, hget, Option.bind_eq_bind, Option.bind_some,
          hother, Option.bind_some, hfirst, Option.bind_some]
        exact List.cons_ne_nil _ _

/-- `split` replaces an interval by the new ones. -/
theorem split_perm {intervals news : List Interval} (hindex : index < intervals.length) (hlength : 2 ≤ news.length)
    (hne : ∀ i ∈ intervals, i.ranges ≠ []) (hnews : ∀ i ∈ news, i.ranges ≠ []) :
    ∃ intervals', split intervals index news = some intervals' ∧
      intervals'.Perm (intervals.eraseIdx index ++ news) := by
  obtain ⟨k, hk, hfind⟩ := findFirst_some (by rintro rfl; simp at hlength) hnews
  have hset : (intervals.set index news[k]).Perm (news[k] :: intervals.eraseIdx index) :=
    List.set_perm_cons_eraseIdx hindex _
  obtain ⟨intervals', hrun, hperm⟩ := addIntervals_perm (intervals.set index news[k]) (news.eraseIdx k)
    (fun i hi => by
      rcases List.mem_cons.mp (hset.mem_iff.mp hi) with rfl | hi
      · exact hnews _ (List.getElem_mem hk)
      · exact hne i ((List.eraseIdx_sublist _ _).subset hi))
    (fun i hi => hnews i ((List.eraseIdx_sublist _ _).subset hi))
  have hback : (news[k] :: news.eraseIdx k).Perm news := List.getElem_cons_eraseIdx_perm hk
  have hmiddle : (news[k] :: intervals.eraseIdx index ++ news.eraseIdx k).Perm
      (intervals.eraseIdx index ++ news[k] :: news.eraseIdx k) := List.perm_middle.symm
  have hnot : ¬ news.length < 2 := by omega
  refine ⟨intervals', ?_, hperm.trans ((hset.append_right _).trans (hmiddle.trans (hback.append_left _)))⟩
  rw [split, if_neg hnot, hfind, Option.bind_eq_bind, Option.bind_some, List.getElem?_eq_getElem hk,
    Option.bind_eq_bind, Option.bind_some]
  exact hrun

/-! ## Splitting without loss -/

/-- Both ways to split an interval end if and only if the assertions hold, and then no use and no position behind
the definition is lost. `splitAt` covers nothing else, and it covers the definition if the interval does and the
first new interval reaches its end. `splitAtAllRegisterUses` covers the definition and the inputs of register
uses in any case, and nothing else. The new intervals take the place of the old one in the virtual register. -/
theorem splitting_lossless (insData : List LInstruction) (reg : VirtualRegister) (index : ℕ) (interval : Interval)
    (spillInterval : Option Interval) (start spillStart : ℕ)
    (h : Suited insData reg index interval spillInterval start spillStart) :
    (∀ splitPositions : List ℕ, splitPositions ≠ [] → splitPositions.Pairwise (· < ·) →
      ((∃ p, splitAt insData reg index interval spillInterval splitPositions = some p) ↔
        Splittable insData interval spillInterval spillStart) ∧
      ∀ p, splitAt insData reg index interval spillInterval splitPositions = some p →
        Lossless insData interval spillInterval spillStart ∅ p ∧
          (isRegisterDefinition reg index = true → Set.Ico start spillStart ⊆ positions interval.ranges →
            Reaches insData start spillStart splitPositions interval.uses → CoversDefinition start spillStart p)) ∧
    (((∃ p, splitAtAllRegisterUses insData reg index interval spillInterval = some p) ↔
        Splittable insData interval spillInterval spillStart) ∧
      ∀ p, splitAtAllRegisterUses insData reg index interval spillInterval = some p →
        Lossless insData interval spillInterval spillStart
            (minimalPositions insData reg index interval start spillStart) p ∧
          (isRegisterDefinition reg index = true → CoversDefinition start spillStart p)) ∧
    ∀ extra p, Lossless insData interval spillInterval spillStart extra p → 2 ≤ p.all.length →
      index < reg.intervals.length → (∀ i ∈ reg.intervals, i.ranges ≠ []) →
      ∃ intervals', split reg.intervals index p.all = some intervals' ∧
        intervals'.Perm (reg.intervals.eraseIdx index ++ p.all) := by
  have hspec := spillStartOf_spec h.isSpillStart
  refine ⟨fun splitPositions hne hsorted => ?_, ?_, ?_⟩
  · have hsplit : Splittable insData interval spillInterval spillStart →
        ∃ p, splitAt insData reg index interval spillInterval splitPositions = some p ∧
          Lossless insData interval spillInterval spillStart ∅ p ∧
          (isRegisterDefinition reg index = true → Set.Ico start spillStart ⊆ positions interval.ranges →
            Reaches insData start spillStart splitPositions interval.uses →
            CoversDefinition start spillStart p) := by
      intro hs
      split_ifs at hspec with hreg
      · obtain ⟨p, hrun, hp, hwithin, hfirst⟩ := splitAt_definition h hs hspec.1 hne hsorted
        exact ⟨p, hrun, hp.lossless h hs fun i hi => (hwithin i hi).trans Set.subset_union_left,
          fun _ hcov hreach => hfirst.mpr ⟨hcov, hreach⟩⟩
      · subst hspec
        obtain ⟨p, hrun, hp, hwithin⟩ := splitAt_start h hs hne hsorted
        exact ⟨p, hrun, hp.lossless h hs fun i hi => (hwithin i hi).trans Set.subset_union_left,
          fun hreg' => absurd hreg' hreg⟩
    refine ⟨⟨fun ⟨p, hrun⟩ => splittable_of_splitAt h hrun, fun hs => ?_⟩, fun p hrun => ?_⟩
    · obtain ⟨p, hrun, -⟩ := hsplit hs
      exact ⟨p, hrun⟩
    · obtain ⟨p', hrun', hp⟩ := hsplit (splittable_of_splitAt h hrun)
      obtain rfl := Option.some.inj (hrun.symm.trans hrun')
      exact hp
  · refine ⟨⟨fun ⟨p, hrun⟩ => splittable_of_splitAtAllRegisterUses h hrun, fun hs => ?_⟩, fun p hrun => ?_⟩
    · obtain ⟨p, hrun, -⟩ := splitAtAllRegisterUses_spec h hs
      exact ⟨p, hrun⟩
    · have hs := splittable_of_splitAtAllRegisterUses h hrun
      obtain ⟨p', hrun', hp, hwithin, hfirst⟩ := splitAtAllRegisterUses_spec h hs
      obtain rfl := Option.some.inj (hrun.symm.trans hrun')
      exact ⟨hp.lossless h hs hwithin, hfirst⟩
  · exact fun extra p hl hlength hindex hne => split_perm hindex hlength hne fun i hi => (hl.within i hi).1

/-! ### A call with an OSI point and a Nop behind it -/

/-- Instructions, with an OSI point at 11 and a Nop at 12. -/
def callCode : List LInstruction :=
  (List.range 20).map fun ins => ⟨ins = 12, ins = 11, []⟩

/-- The virtual register that the call at 10 defines. -/
def callReg : VirtualRegister := ⟨false, some true, []⟩

/-- It is kept alive at the OSI point and then used in a register. -/
def callInterval : Interval := ⟨[⟨21, 40⟩], [(23, ⟨.KEEPALIVE, 0⟩), (31, ⟨.REGISTER, 0⟩)], 0⟩

theorem callInterval_suited : Suited callCode callReg 0 callInterval none 21 26 where
  descending := by simp [callInterval, descending_cons, descending_nil]
  isStart := rfl
  isSpillStart := by decide
  ascending := by simp [callInterval, Ascending]
  covered := by simp [callInterval, mem_positions_cons]
  instruction := by simp [callInterval, callCode]
  spill := by simp

theorem splitting_lossless_call :
    ∃ p, splitAt callCode callReg 0 callInterval none [36] = some p ∧ Lossless callCode callInterval none 26 ∅ p ∧
      CoversDefinition 21 26 p := by
  obtain ⟨hiff, hall⟩ :=
    (splitting_lossless callCode callReg 0 callInterval none 21 26 callInterval_suited).1 [36] (by simp) (by simp)
  obtain ⟨p, hrun⟩ := hiff.mpr ⟨by simp [callInterval], fun _ _ _ _ => rfl⟩
  obtain ⟨hl, hdef⟩ := hall p hrun
  refine ⟨p, hrun, hl, hdef (by decide) ?_ (Or.inr (Or.inr ⟨by decide, (31, ⟨.REGISTER, 0⟩), ?_⟩))⟩
  · rintro pos ⟨hle, hlt⟩
    exact ⟨⟨21, 40⟩, List.mem_cons_self, hle, by simp only; omega⟩
  · exact ⟨by simp [callInterval], by decide, by decide, by simp⟩

/-- With a split position between its uses, the first interval ends before the definition does. And where the
interval itself has no input for a use, `splitAtAllRegisterUses` covers it nevertheless, and so for the end of a
definition. -/
theorem splitting_not_exact :
    (Suited callCode callReg 0 callInterval none 21 26 ∧
      ∃ p, splitAt callCode callReg 0 callInterval none [28] = some p ∧ 24 ∈ positions callInterval.ranges ∧
        ¬ ∃ i ∈ p.all, 24 ∈ positions i.ranges) ∧
    Suited callCode callReg 0 ⟨[⟨31, 40⟩, ⟨21, 22⟩], [(31, ⟨.REGISTER, 0⟩)], 0⟩ (some ⟨[⟨26, 40⟩], [], 0⟩) 21 26 ∧
      ∃ p, splitAtAllRegisterUses callCode callReg 0 ⟨[⟨31, 40⟩, ⟨21, 22⟩], [(31, ⟨.REGISTER, 0⟩)], 0⟩
          (some ⟨[⟨26, 40⟩], [], 0⟩) = some p ∧
        22 ∉ positions [⟨31, 40⟩, ⟨21, 22⟩] ∧ (∃ i ∈ p.all, 22 ∈ positions i.ranges) ∧
        30 ∉ positions [⟨31, 40⟩, ⟨21, 22⟩] ∧ ∃ i ∈ p.all, 30 ∈ positions i.ranges := by
  refine ⟨⟨callInterval_suited, ⟨[⟨[⟨21, 24⟩], [(23, ⟨.KEEPALIVE, 0⟩)], 2 ^ 64 - 1⟩,
    ⟨[⟨30, 32⟩], [(31, ⟨.REGISTER, 0⟩)], 2 ^ 64 - 1⟩], ⟨[⟨26, 40⟩], [], 2 ^ 64 - 1⟩, true⟩, rfl, ?_, ?_⟩, ?_,
    ⟨[⟨[⟨21, 26⟩], [], 2 ^ 64 - 1⟩, ⟨[⟨30, 32⟩], [(31, ⟨.REGISTER, 0⟩)], 2 ^ 64 - 1⟩], ⟨[⟨26, 40⟩], [], 0⟩, false⟩,
    rfl, ?_, ?_, ?_, ?_⟩
  · simp [callInterval, mem_positions_cons]
  · simp [Pieces.all, mem_positions_cons]
  · refine ⟨by simp [descending_cons, descending_nil], rfl, by decide, by simp [Ascending],
      by simp [mem_positions_cons], by simp [callCode], ?_⟩
    rintro spill hspill pos ⟨hpos, hle⟩
    obtain rfl := Option.some.inj hspill
    simp only [mem_positions_cons, positions_nil, Set.mem_Ici, Set.mem_empty_iff_false, or_false] at hpos hle ⊢
    omega
  · simp [mem_positions_cons]
  · simp [Pieces.all, mem_positions_cons]
  · simp [mem_positions_cons]
  · simp [Pieces.all, mem_positions_cons]

end SpiderMonkey.Jit.Backtracking
