import Mathlib.Data.List.Basic
import Mathlib.Data.List.Induction
import Mathlib.Data.List.Pairwise
import Mathlib.Data.List.TakeDrop
import Mathlib.Data.List.TakeWhile
import Mathlib.Data.Set.Lattice
import Mathlib.Order.Bounds.Defs
import Mathlib.Order.Interval.Set.Defs
import Mathlib.Order.Lattice
import SpiderMonkey.Jit.LiveInterval

/-!
# Live intervals are sets of positions

The ranges are disjoint and in descending order, so that a loop from the back of the vector on goes through
the positions upwards. Every operation splits the vector at one range: what is behind it in the vector is
below, and what is before it is above.
-/

namespace SpiderMonkey.Jit.LiveInterval

variable {U : Type} {a b ranges : List LiveRange} {r : LiveRange} {i : LiveInterval U} {pos : ℕ}

/-! ## Ranges in descending order -/

/-- The positions in some ranges. -/
def positions (ranges : List LiveRange) : Set ℕ :=
  { p | ∃ r ∈ ranges, r.fromPos ≤ p ∧ p < r.toPos }

@[simp]
theorem positions_nil : positions [] = ∅ := by
  simp [positions]

theorem mem_positions_append {p : ℕ} :
    p ∈ positions (a ++ b) ↔ p ∈ positions a ∨ p ∈ positions b := by
  simp only [positions, Set.mem_ofPred_eq, List.mem_append, or_and_right, exists_or]

theorem mem_positions_cons {p : ℕ} :
    p ∈ positions (r :: b) ↔ (r.fromPos ≤ p ∧ p < r.toPos) ∨ p ∈ positions b := by
  simp [positions]

/-- The ranges are not empty, disjoint and in descending order. -/
structure Descending (ranges : List LiveRange) : Prop where
  nonempty : ∀ r ∈ ranges, r.fromPos < r.toPos
  pairwise : ranges.Pairwise fun above below => below.toPos ≤ above.fromPos

/-- Splitting the ranges. -/
theorem descending_append :
    Descending (a ++ b) ↔
      Descending a ∧ Descending b ∧ ∀ above ∈ a, ∀ below ∈ b, below.toPos ≤ above.fromPos := by
  apply Iff.intro
  · rintro ⟨hne, hpair⟩
    rw [List.pairwise_append] at hpair
    exact ⟨⟨fun r hr => hne r (List.mem_append_left _ hr), hpair.1⟩,
      ⟨fun r hr => hne r (List.mem_append_right _ hr), hpair.2.1⟩, hpair.2.2⟩
  · rintro ⟨ha, hb, hab⟩
    exact ⟨fun r hr => (List.mem_append.mp hr).elim (ha.nonempty r) (hb.nonempty r),
      List.pairwise_append.mpr ⟨ha.pairwise, hb.pairwise, hab⟩⟩

/-- The last range of the vector is the lowest. -/
theorem descending_cons :
    Descending (r :: b) ↔
      r.fromPos < r.toPos ∧ Descending b ∧ ∀ below ∈ b, below.toPos ≤ r.fromPos := by
  have hsingle : Descending [r] ↔ r.fromPos < r.toPos :=
    ⟨fun h => h.nonempty r List.mem_cons_self, fun h => ⟨by simpa using h, List.pairwise_singleton _ _⟩⟩
  rw [← List.singleton_append, descending_append, hsingle]
  simp

theorem descending_nil : Descending [] := ⟨by simp, List.Pairwise.nil⟩

/-- Positions of ranges that are above something. -/
theorem le_of_mem_positions {n p : ℕ} (h : ∀ above ∈ a, n ≤ above.fromPos) (hp : p ∈ positions a) :
    n ≤ p := by
  obtain ⟨r, hr, hle, -⟩ := hp
  exact (h r hr).trans hle

/-- Positions of ranges that are below something. -/
theorem lt_of_mem_positions {n p : ℕ} (h : ∀ below ∈ b, below.toPos ≤ n) (hp : p ∈ positions b) :
    p < n := by
  obtain ⟨r, hr, -, hlt⟩ := hp
  exact hlt.trans_le (h r hr)

/-- A range of the vector, and what is above and below it. -/
theorem Descending.split (h : Descending ranges) {n : ℕ} (hr : ranges[n]? = some r) :
    ranges = ranges.take n ++ r :: ranges.drop (n + 1) ∧ r.fromPos < r.toPos ∧
      (∀ above ∈ ranges.take n, r.toPos ≤ above.fromPos) ∧
      ∀ below ∈ ranges.drop (n + 1), below.toPos ≤ r.fromPos := by
  obtain ⟨hn, hget⟩ := List.getElem?_eq_some_iff.mp hr
  have hsplit : ranges = ranges.take n ++ r :: ranges.drop (n + 1) := by
    rw [← hget, List.cons_getElem_drop_succ, List.take_append_drop]
  have hdesc := h
  rw [hsplit, descending_append, descending_cons] at hdesc
  obtain ⟨-, ⟨hne, -, hbelow⟩, habove⟩ := hdesc
  exact ⟨hsplit, hne, fun above hmem => habove above hmem r List.mem_cons_self, hbelow⟩

/-- One more range from the front of the vector. -/
theorem take_succ_of_getElem? {n : ℕ} (hr : ranges[n]? = some r) :
    ranges.take (n + 1) = ranges.take n ++ [r] := by
  rw [List.take_add_one, hr, Option.toList_some]

/-! ## Adding ranges -/

/-- What `addRangeAtHead` may be called with: a range that ends where the earliest range starts, or before
it, or one that starts before the earliest range ends and does not reach the one behind it. -/
def HeadAllowed (i : LiveInterval U) (fromPos toPos : ℕ) : Prop :=
  fromPos < toPos ∧ ∀ front first, i.ranges = front ++ [first] →
    toPos ≤ first.fromPos ∨ (fromPos < first.toPos ∧ ∀ above ∈ front, toPos ≤ above.fromPos)

/-- A range below the earliest one. -/
theorem headAllowed_below (front : List LiveRange) (first : LiveRange)
    (hranges : i.ranges = front ++ [first]) {fromPos toPos : ℕ} (hlt : fromPos < toPos)
    (hle : toPos ≤ first.fromPos) : HeadAllowed i fromPos toPos := by
  refine ⟨hlt, fun front' first' hranges' => Or.inl ?_⟩
  obtain ⟨-, heq⟩ := List.append_inj' (hranges.symm.trans hranges') rfl
  rwa [← List.singleton_injective heq]

/-- `addRangeAtHead` adds the positions of the range. -/
theorem addRangeAtHead_spec {fromPos toPos : ℕ} (h : Descending i.ranges)
    (hallowed : HeadAllowed i fromPos toPos) :
    ∃ i', i.addRangeAtHead fromPos toPos = some i' ∧ Descending i'.ranges ∧
      positions i'.ranges = positions i.ranges ∪ Set.Ico fromPos toPos ∧ i'.uses = i.uses := by
  obtain ⟨hlt, hhead⟩ := hallowed
  unfold addRangeAtHead
  rw [if_neg (not_not.mpr hlt)]
  rcases List.eq_nil_or_concat' i.ranges with hnil | ⟨front, first, hranges⟩
  · rw [hnil, List.getLast?_nil]
    refine ⟨_, rfl, descending_cons.mpr ⟨hlt, descending_nil, by simp⟩, ?_, rfl⟩
    ext p
    simp [mem_positions_cons]
  · have hreach := hhead front first hranges
    rw [hranges, descending_append, descending_cons] at h
    obtain ⟨hfront, ⟨hfirst, -, -⟩, habove⟩ := h
    simp only [List.mem_singleton, forall_eq] at habove
    -- the vector ends with a range that is made from the first one and the new one
    have hlast (new : LiveRange) (hnew : new.fromPos < new.toPos)
        (hto : ∀ above ∈ front, new.toPos ≤ above.fromPos)
        (hpos : ∀ p, (new.fromPos ≤ p ∧ p < new.toPos) ↔
          ((first.fromPos ≤ p ∧ p < first.toPos) ∨ (fromPos ≤ p ∧ p < toPos))) :
        Descending (front ++ [new]) ∧
          positions (front ++ [new]) = positions (front ++ [first]) ∪ Set.Ico fromPos toPos := by
      refine ⟨descending_append.mpr ⟨hfront, descending_cons.mpr ⟨hnew, descending_nil, by simp⟩, ?_⟩, ?_⟩
      · simpa using hto
      · ext p
        simp only [Set.mem_union, Set.mem_Ico, mem_positions_append, mem_positions_cons, hpos, positions_nil,
          Set.mem_empty_iff_false, or_false, or_assoc]
    simp only [hranges, List.getLast?_concat, List.dropLast_concat]
    by_cases hbefore : toPos < first.fromPos
    · rw [if_pos hbefore]
      refine ⟨_, rfl, ?_, ?_, rfl⟩
      · rw [List.append_assoc, List.singleton_append, descending_append]
        refine ⟨hfront, descending_cons.mpr ⟨hfirst, descending_cons.mpr ⟨hlt, descending_nil, by simp⟩, ?_⟩, ?_⟩
        · simpa using hbefore.le
        · intro above hmem below hbelow
          have := habove above hmem
          simp only [List.mem_cons, List.not_mem_nil, or_false] at hbelow
          rcases hbelow with rfl | rfl
          · exact this
          · simp only
            omega
      · ext p
        simp only [Set.mem_union, Set.mem_Ico, mem_positions_append, mem_positions_cons, positions_nil,
          Set.mem_empty_iff_false, or_false]
    · rw [if_neg hbefore]
      by_cases htouch : toPos = first.fromPos
      · rw [if_pos htouch]
        obtain ⟨hdesc, hpos⟩ := hlast { first with fromPos } (by simp only; omega) habove
          (by intro p; simp only; omega)
        exact ⟨_, rfl, hdesc, hpos, rfl⟩
      · rw [if_neg htouch]
        have hover : fromPos < first.toPos ∧ ∀ above ∈ front, toPos ≤ above.fromPos :=
          hreach.resolve_left fun hle => htouch (le_antisymm hle (not_lt.mp hbefore))
        rw [if_neg (not_not.mpr hover.1)]
        refine ⟨_, rfl, ?_⟩
        rw [← and_assoc]
        refine ⟨hlast _ ?_ ?_ ?_, rfl⟩
        · split <;> split <;> grind
        · intro above hmem
          have h1 := habove above hmem
          have h2 := hover.2 above hmem
          split <;> split <;> grind
        · intro p
          split <;> split <;> grind

/-- The first loop of `addRange` stops at the lowest range that the new one can reach. -/
theorem findPlace_spec (front passed : List LiveRange) (new : LiveRange)
    (h : Descending (front ++ passed)) (hnew : new.fromPos < new.toPos)
    (hpassed : ∀ below ∈ passed, below.toPos < new.fromPos) :
    ∃ front' passed' new', findPlace (front ++ passed) new front.length = (front'.length, new') ∧
      front ++ passed = front' ++ passed' ∧ new'.fromPos < new'.toPos ∧
      (∀ below ∈ passed', below.toPos ≤ new'.fromPos) ∧ (∀ above ∈ front', new'.fromPos ≤ above.fromPos) ∧
      positions (front ++ passed) ∪ Set.Ico new'.fromPos new'.toPos =
        positions (front ++ passed) ∪ Set.Ico new.fromPos new.toPos := by
  induction front using List.reverseRecOn generalizing passed with
  | nil => exact ⟨[], passed, new, rfl, rfl, hnew, fun b hb => (hpassed b hb).le, by simp, rfl⟩
  | append_singleton front r ih =>
    rw [List.append_assoc, List.singleton_append] at h ⊢
    have hdesc := h
    rw [descending_append, descending_cons] at hdesc
    obtain ⟨-, ⟨hr, -, hbelow⟩, habove⟩ := hdesc
    rw [List.length_append, List.length_singleton, findPlace, List.getElem?_append_right (Nat.le_refl _),
      Nat.sub_self, List.getElem?_cons_zero]
    by_cases hreach : new.fromPos ≤ r.toPos
    · simp only [if_pos hreach]
      refine ⟨front ++ [r], passed, if r.fromPos < new.fromPos then { new with fromPos := r.fromPos } else new,
        by simp, by simp, ?_, ?_, ?_, ?_⟩
      · split <;> grind
      · intro below hmem
        have h1 := hbelow below hmem
        have h2 := hpassed below hmem
        split <;> grind
      · intro above hmem
        have hle : r.fromPos ≤ above.fromPos := by
          rcases List.mem_append.mp hmem with hmem | hmem
          · have := habove above hmem r List.mem_cons_self
            omega
          · rw [List.mem_singleton.mp hmem]
        split <;> grind
      · ext p
        simp only [Set.mem_union, Set.mem_Ico, mem_positions_append, mem_positions_cons]
        split
        · simp only
          have : (r.fromPos ≤ p ∧ p < new.toPos) →
              (r.fromPos ≤ p ∧ p < r.toPos) ∨ (new.fromPos ≤ p ∧ p < new.toPos) := by omega
          have : (new.fromPos ≤ p ∧ p < new.toPos) → r.fromPos ≤ p ∧ p < new.toPos := by omega
          tauto
        · rfl
    · simp only [if_neg hreach]
      exact ih _ h fun below hmem => (List.mem_cons.mp hmem).elim
        (fun heq => heq ▸ not_le.mp hreach) (hpassed below)

/-- The second loop of `addRange` makes one range of the new one and those it reaches. -/
theorem coalesce_spec (front passed : List LiveRange) (new : LiveRange)
    (h : Descending (front ++ passed)) (hnew : new.fromPos < new.toPos)
    (hpassed : ∀ below ∈ passed, below.toPos ≤ new.fromPos)
    (hfront : ∀ above ∈ front, new.fromPos ≤ above.fromPos) :
    ∃ front' new', coalesce front.length (front ++ passed) new = (front'.length, front' ++ passed, new') ∧
      Descending (front' ++ new' :: passed) ∧
      positions (front' ++ new' :: passed) =
        positions (front ++ passed) ∪ Set.Ico new.fromPos new.toPos := by
  induction front using List.reverseRecOn generalizing new with
  | nil =>
    refine ⟨[], new, rfl, descending_cons.mpr ⟨hnew, h, hpassed⟩, ?_⟩
    ext p
    simp only [List.nil_append, Set.mem_union, Set.mem_Ico, mem_positions_cons]
    exact or_comm
  | append_singleton front r ih =>
    rw [List.append_assoc, List.singleton_append] at h ⊢
    have hdesc := h
    rw [descending_append, descending_cons] at hdesc
    obtain ⟨hdf, ⟨hr, hdp, hbelow⟩, habove⟩ := hdesc
    have hfromr : new.fromPos ≤ r.fromPos := hfront r (by simp)
    rw [List.length_append, List.length_singleton, coalesce, List.getElem?_append_right (Nat.le_refl _),
      Nat.sub_self, List.getElem?_cons_zero]
    by_cases hstop : new.toPos < r.fromPos
    · simp only [if_pos hstop]
      refine ⟨front ++ [r], new, by simp, ?_, ?_⟩
      · rw [List.append_assoc, List.singleton_append, descending_append, descending_cons, descending_cons]
        refine ⟨hdf, ⟨hr, ⟨hnew, hdp, hpassed⟩, ?_⟩, ?_⟩
        · intro below hmem
          rcases List.mem_cons.mp hmem with rfl | hmem
          · exact hstop.le
          · exact hbelow below hmem
        · intro above hmem below hmem'
          have h1 := habove above hmem r List.mem_cons_self
          rcases List.mem_cons.mp hmem' with rfl | hmem'
          · exact h1
          · rcases List.mem_cons.mp hmem' with rfl | hmem'
            · omega
            · exact habove above hmem below (List.mem_cons_of_mem _ hmem')
      · ext p
        simp only [Set.mem_union, Set.mem_Ico, mem_positions_append, mem_positions_cons, positions_nil,
          Set.mem_empty_iff_false, or_false]
        tauto
    · simp only [if_neg hstop, List.eraseIdx_append_of_length_le (Nat.le_refl _), Nat.sub_self,
        List.eraseIdx_cons_zero]
      have hgrown : Descending (front ++ passed) :=
        descending_append.mpr ⟨hdf, hdp, fun above hmem below hmem' =>
          habove above hmem below (List.mem_cons_of_mem _ hmem')⟩
      obtain ⟨front', new', hrun, hdesc', hpos⟩ :=
        ih (if new.toPos < r.toPos then { new with toPos := r.toPos } else new) hgrown
          (by split <;> grind)
          (fun below hmem => by
            have := hpassed below hmem
            split <;> exact this)
          (fun above hmem => by
            have := hfront above (List.mem_append_left _ hmem)
            split <;> exact this)
      refine ⟨front', new', hrun, hdesc', hpos.trans ?_⟩
      ext p
      simp only [Set.mem_union, Set.mem_Ico, mem_positions_append, mem_positions_cons]
      have hIco : (((if new.toPos < r.toPos then { new with toPos := r.toPos } else new : LiveRange).fromPos ≤
          p ∧ p < (if new.toPos < r.toPos then { new with toPos := r.toPos } else new : LiveRange).toPos) ↔
          (r.fromPos ≤ p ∧ p < r.toPos) ∨ (new.fromPos ≤ p ∧ p < new.toPos)) := by
        split <;> grind
      rw [hIco]
      tauto

/-- Inserting behind the front of a vector. -/
theorem insertIdx_length (front passed : List LiveRange) (new : LiveRange) :
    (front ++ passed).insertIdx front.length new = front ++ new :: passed := by
  induction front with
  | nil => rfl
  | cons r front ih => simp [List.insertIdx_succ_cons, ih]

/-- `addRange` adds the positions of the range. -/
theorem addRange_spec {fromPos toPos : ℕ} (h : Descending i.ranges) (hlt : fromPos < toPos) :
    ∃ i', i.addRange fromPos toPos = some i' ∧ Descending i'.ranges ∧
      positions i'.ranges = positions i.ranges ∪ Set.Ico fromPos toPos ∧ i'.uses = i.uses := by
  obtain ⟨front, passed, new, hfind, hsplit, hnew, hpassed, hfront, hpos⟩ :=
    findPlace_spec i.ranges [] ⟨fromPos, toPos⟩ (by simpa using h) hlt (by simp)
  rw [List.append_nil] at hfind hsplit hpos
  have hd : Descending (front ++ passed) := hsplit ▸ h
  obtain ⟨front', new', hrun, hdesc, hpos'⟩ := coalesce_spec front passed new hd hnew hpassed hfront
  refine ⟨{ i with ranges := front' ++ new' :: passed }, ?_, hdesc, ?_, rfl⟩
  · rw [addRange, if_neg (not_not.mpr hlt)]
    simp only [hfind]
    rw [hsplit, hrun, insertIdx_length]
  · rw [hpos', ← hsplit, hpos]

/-! ## Cutting off the beginning -/

/-- What `setFrom` leaves: the positions from one on, and perhaps some before the first of them. -/
structure CutAt (fromPos : ℕ) (old new : Set ℕ) : Prop where
  kept : ∀ p ∈ old, fromPos ≤ p → p ∈ new
  le : ∀ p ∈ new, fromPos ≤ p
  first : ∀ p ∈ new, p ∉ old → ∀ q ∈ old, fromPos ≤ q → p < q

/-- The loop of `setFrom`. -/
theorem setFromLoop_spec (fromPos : ℕ) (ranges : List LiveRange) (h : Descending ranges) :
    Descending (setFromLoop fromPos ranges.length ranges) ∧
      CutAt fromPos (positions ranges) (positions (setFromLoop fromPos ranges.length ranges)) := by
  induction ranges using List.reverseRecOn with
  | nil => exact ⟨descending_nil, ⟨by simp, by simp [setFromLoop], by simp⟩⟩
  | append_singleton front back ih =>
    have hdesc := h
    rw [descending_append, descending_cons] at hdesc
    obtain ⟨hfront, ⟨hback, -, -⟩, habove⟩ := hdesc
    simp only [List.mem_singleton, forall_eq] at habove
    rw [List.length_append, List.length_singleton, setFromLoop, List.getLast?_concat]
    simp only [List.dropLast_concat]
    -- positions above the last range
    have hlt {p : ℕ} (hp : p ∈ positions front) : back.toPos ≤ p := le_of_mem_positions habove hp
    have hold {p : ℕ} : p ∈ positions (front ++ [back]) ↔
        p ∈ positions front ∨ (back.fromPos ≤ p ∧ p < back.toPos) := by
      simp [mem_positions_append, mem_positions_cons]
    by_cases hbefore : back.toPos < fromPos
    · rw [if_pos hbefore]
      obtain ⟨hdesc, hcut⟩ := ih hfront
      have hin {p : ℕ} (hp : p ∈ positions (front ++ [back])) (hle : fromPos ≤ p) : p ∈ positions front :=
        (hold.mp hp).resolve_right fun hp => by omega
      exact ⟨hdesc, fun p hp hle => hcut.kept p (hin hp hle) hle, hcut.le,
        fun p hp hno q hq hle => hcut.first p hp (fun hp => hno (hold.mpr (Or.inl hp))) q (hin hq hle) hle⟩
    · rw [if_neg hbefore]
      by_cases hend : fromPos = back.toPos
      · rw [if_pos hend]
        exact ⟨hfront, fun p hp hle => (hold.mp hp).resolve_right fun hp => by omega,
          fun p hp => hend ▸ hlt hp, fun p hp hno => absurd (hold.mpr (Or.inl hp)) hno⟩
      · rw [if_neg hend]
        have hnew {p : ℕ} : p ∈ positions (front ++ [{ back with fromPos }]) ↔
            p ∈ positions front ∨ (fromPos ≤ p ∧ p < back.toPos) := by
          simp [mem_positions_append, mem_positions_cons]
        refine ⟨?_, ?_, ?_, ?_⟩
        · rw [descending_append, descending_cons]
          exact ⟨hfront, ⟨by simp only; omega, descending_nil, by simp⟩, by simpa using habove⟩
        · intro p hp hle
          exact hnew.mpr ((hold.mp hp).imp_right fun hp => ⟨hle, hp.2⟩)
        · intro p hp
          rcases hnew.mp hp with hp | hp
          · have := hlt hp
            omega
          · exact hp.1
        · intro p hp hno q hq hle
          have hp : fromPos ≤ p ∧ p < back.toPos :=
            (hnew.mp hp).resolve_left fun hp => hno (hold.mpr (Or.inl hp))
          have hlow : p < back.fromPos := by
            by_contra hge
            exact hno (hold.mpr (Or.inr ⟨not_lt.mp hge, hp.2⟩))
          rcases hold.mp hq with hq | hq
          · have := hlt hq
            omega
          · omega

/-! ## Queries -/

/-- The loop of `covers` says whether one of the ranges it goes through has the position. -/
theorem coversLoop_spec (h : Descending ranges) (pos last n : ℕ) (hn : n ≤ ranges.length) :
    (coversLoop ranges pos n last).1 = true ↔ pos ∈ positions (ranges.take n) := by
  induction n generalizing last with
  | zero => simp [coversLoop]
  | succ n ih =>
    have hr : ranges[n]? = some ranges[n] := List.getElem?_eq_getElem hn
    obtain ⟨-, hne, habove, -⟩ := h.split hr
    rw [take_succ_of_getElem? hr, mem_positions_append, mem_positions_cons, positions_nil,
      Set.mem_empty_iff_false, or_false, coversLoop, hr]
    simp only
    have hup (hp : pos ∈ positions (ranges.take n)) : ranges[n].toPos ≤ pos :=
      le_of_mem_positions habove hp
    by_cases hlt : pos < ranges[n].fromPos
    · rw [if_pos hlt]
      simp only [Bool.false_eq_true, false_iff, not_or, not_and, not_lt]
      exact ⟨fun hp => by have := hup hp; omega, fun hle => by omega⟩
    · rw [if_neg hlt]
      by_cases hin : pos < ranges[n].toPos
      · rw [if_pos hin]
        simp only [true_iff]
        exact Or.inr ⟨not_lt.mp hlt, hin⟩
      · rw [if_neg hin, ih _ (Nat.le_of_succ_le hn)]
        apply Iff.intro
        · exact Or.inl
        · rintro (hp | hp)
          · exact hp
          · exact absurd hp.2 hin

/-- The range that a query starts with is one of the vector, and nothing from the position on is below it,
whatever was processed last. -/
theorem lastProcessedRangeIfValid_spec (h : Descending i.ranges) (hne : i.ranges ≠ []) (pos : ℕ) :
    i.lastProcessedRangeIfValid pos < i.ranges.length ∧
      ∀ p ∈ positions i.ranges, pos ≤ p →
        p ∈ positions (i.ranges.take (i.lastProcessedRangeIfValid pos + 1)) := by
  have hpos : 0 < i.ranges.length := List.length_pos_iff.mpr hne
  unfold lastProcessedRangeIfValid
  split
  · next hvalid =>
    obtain ⟨r, hr, hle⟩ : ∃ r, i.ranges[i.lastProcessedRange]? = some r ∧ r.fromPos ≤ pos := by
      simpa [Option.any_eq_true] using hvalid
    obtain ⟨hlt, -⟩ := List.getElem?_eq_some_iff.mp hr
    refine ⟨hlt, fun p hp hle' => ?_⟩
    obtain ⟨hsplit, -, -, hbelow⟩ := h.split hr
    rw [← List.take_append_drop (i.lastProcessedRange + 1) i.ranges, mem_positions_append] at hp
    exact hp.resolve_right fun hp => by
      have := lt_of_mem_positions hbelow hp
      omega
  · refine ⟨by omega, fun p hp _ => ?_⟩
    rwa [Nat.sub_add_cancel hpos, List.take_length]

/-- The start of an interval is at or below its positions. -/
theorem start_le (h : Descending i.ranges) {first : ℕ} (hstart : i.start = some first) :
    ∀ p ∈ positions i.ranges, first ≤ p := by
  intro p hp
  obtain ⟨r, hr, rfl⟩ := Option.map_eq_some_iff.mp hstart
  obtain ⟨front, hranges⟩ := List.getLast?_eq_some_iff.mp hr
  rw [hranges, descending_append, descending_cons] at h
  obtain ⟨-, ⟨hr, -, -⟩, habove⟩ := h
  rw [hranges, mem_positions_append, mem_positions_cons] at hp
  rcases hp with hp | hp | hp
  · have := le_of_mem_positions (fun above hmem => habove above hmem r List.mem_cons_self) hp
    omega
  · exact hp.1
  · simp at hp

/-- The end is above them. -/
theorem lt_stop (h : Descending i.ranges) {last : ℕ} (hstop : i.stop = some last) :
    ∀ p ∈ positions i.ranges, p < last := by
  intro p hp
  obtain ⟨r, hr, rfl⟩ := Option.map_eq_some_iff.mp hstop
  obtain ⟨rest, hranges⟩ := List.head?_eq_some_iff.mp hr
  rw [hranges, descending_cons] at h
  obtain ⟨hr, -, hbelow⟩ := h
  rw [hranges, mem_positions_cons] at hp
  rcases hp with hp | hp
  · exact hp.2
  · have := lt_of_mem_positions hbelow hp
    omega

/-- An interval with ranges has a start and an end. -/
theorem exists_start_stop (hne : i.ranges ≠ []) :
    (∃ first, i.start = some first) ∧ ∃ last, i.stop = some last := by
  rw [start, stop, List.getLast?_eq_some_getLast hne, List.head?_eq_some_head hne]
  exact ⟨⟨_, rfl⟩, _, rfl⟩

/-- `covers` is membership. -/
theorem covers_spec (h : Descending i.ranges) (hne : i.ranges ≠ []) (pos : ℕ) :
    ∃ b last, i.covers pos = some (b, { i with lastProcessedRange := last }) ∧
      (b = true ↔ pos ∈ positions i.ranges) := by
  obtain ⟨⟨first, hfirst⟩, last, hlast⟩ := exists_start_stop hne
  unfold covers
  simp only [hfirst, hlast, Option.bind_eq_bind, Option.bind_some]
  by_cases hout : pos < first ∨ last ≤ pos
  · rw [if_pos hout]
    refine ⟨false, i.lastProcessedRange, rfl, ?_⟩
    simp only [Bool.false_eq_true, false_iff]
    intro hp
    have := start_le h hfirst pos hp
    have := lt_stop h hlast pos hp
    omega
  · rw [if_neg hout]
    obtain ⟨hvalid, hbelow⟩ := lastProcessedRangeIfValid_spec h hne pos
    refine ⟨_, _, rfl, ?_⟩
    rw [coversLoop_spec h pos _ _ hvalid]
    apply Iff.intro
    · intro hp
      rw [← List.take_append_drop (i.lastProcessedRangeIfValid pos + 1) i.ranges, mem_positions_append]
      exact Or.inl hp
    · exact fun hp => hbelow pos hp (Nat.le_refl _)

/-- The answer of a search: the least position of a set, or `MIN` if there is none. -/
def LeastOrMin (s : Set ℕ) (pos : ℕ) : Prop := IsLeast s pos ∨ (s = ∅ ∧ pos = CodePosition.MIN)

/-- There is one answer. -/
theorem LeastOrMin.unique {s : Set ℕ} {m n : ℕ} (hm : LeastOrMin s m) (hn : LeastOrMin s n) : m = n := by
  rcases hm with hm | ⟨hempty, rfl⟩ <;> rcases hn with hn | ⟨hempty', rfl⟩
  · exact le_antisymm (hm.2 hn.1) (hn.2 hm.1)
  · exact absurd hm.1 (by simp [hempty'])
  · exact absurd hn.1 (by simp [hempty])
  · rfl

/-- The loop of `nextCoveredAfter`: what it has passed is above the position. -/
theorem nextCoveredLoop_spec (pos : ℕ) (rest passed : List LiveRange)
    (h : Descending (passed ++ rest)) (hpassed : ∀ above ∈ passed, pos < above.fromPos)
    (hstart : ∀ first, (passed ++ rest).getLast? = some first → first.fromPos ≤ pos) :
    LeastOrMin (positions (passed ++ rest) ∩ Set.Ici pos) (nextCoveredLoop pos passed.getLast? rest) := by
  induction rest generalizing passed with
  | nil =>
    rw [List.append_nil] at h hstart ⊢
    rcases List.eq_nil_or_concat' passed with rfl | ⟨front, first, rfl⟩
    · exact Or.inr ⟨by simp, rfl⟩
    · have h1 := hstart first List.getLast?_concat
      have h2 := hpassed first (by simp)
      omega
  | cons r rest ih =>
    have hdesc := h
    rw [descending_append, descending_cons] at hdesc
    obtain ⟨hdp, ⟨hr, -, hbelow⟩, habove⟩ := hdesc
    have hpos {p : ℕ} : p ∈ positions (passed ++ r :: rest) ↔
        p ∈ positions passed ∨ (r.fromPos ≤ p ∧ p < r.toPos) ∨ p ∈ positions rest := by
      rw [mem_positions_append, mem_positions_cons]
    have hrest {p : ℕ} (hp : p ∈ positions rest) : p < r.fromPos := lt_of_mem_positions hbelow hp
    unfold nextCoveredLoop
    by_cases hend : r.toPos ≤ pos
    · rw [if_pos hend]
      have hin {p : ℕ} (hp : p ∈ positions (passed ++ r :: rest)) (hle : pos ≤ p) : p ∈ positions passed := by
        rcases hpos.mp hp with hp | hp | hp
        · exact hp
        · omega
        · have := hrest hp
          omega
      rcases List.eq_nil_or_concat' passed with rfl | ⟨front, first, rfl⟩
      · apply Or.inr
        refine ⟨Set.eq_empty_of_forall_notMem fun p hp => ?_, rfl⟩
        simpa using hin hp.1 hp.2
      · simp only [List.getLast?_concat]
        rw [descending_append, descending_cons] at hdp
        obtain ⟨-, ⟨hfirst, -, -⟩, hfront⟩ := hdp
        simp only [List.mem_singleton, forall_eq] at hfront
        apply Or.inl
        refine ⟨⟨hpos.mpr (Or.inl ?_), (hpassed first (by simp)).le⟩, fun p hp => ?_⟩
        · rw [mem_positions_append, mem_positions_cons]
          exact Or.inr (Or.inl ⟨Nat.le_refl _, hfirst⟩)
        · have hp := hin hp.1 hp.2
          rw [mem_positions_append, mem_positions_cons] at hp
          rcases hp with hp | hp | hp
          · have := le_of_mem_positions hfront hp
            omega
          · exact hp.1
          · simp at hp
    · rw [if_neg hend]
      by_cases hin : r.fromPos ≤ pos
      · rw [if_pos hin]
        apply Or.inl
        exact ⟨⟨hpos.mpr (Or.inr (Or.inl ⟨hin, not_le.mp hend⟩)), Nat.le_refl pos⟩, fun p hp => hp.2⟩
      · rw [if_neg hin]
        have hnext := ih (passed ++ [r]) (by simpa using h)
          (by
            intro above hmem
            rcases List.mem_append.mp hmem with hmem | hmem
            · exact hpassed above hmem
            · rw [List.mem_singleton.mp hmem]
              exact not_le.mp hin)
          (by simpa using hstart)
        simpa using hnext

/-- `nextCoveredAfter`, from the start of the interval on. -/
theorem nextCoveredAfter_spec (h : Descending i.ranges) {first : ℕ} (hstart : i.start = some first)
    (hle : first ≤ pos) : LeastOrMin (positions i.ranges ∩ Set.Ici pos) (i.nextCoveredAfter pos) := by
  apply nextCoveredLoop_spec pos i.ranges [] h (by simp)
  intro r hr
  rw [List.nil_append] at hr
  rw [start, hr, Option.map_some, Option.some.injEq] at hstart
  omega

/-- Positions of the ranges in front of one are at or above the range before it. -/
theorem Descending.le_of_mem_take (h : Descending ranges) {n p : ℕ} (hn : n ≠ 0)
    (hr : ranges[n - 1]? = some r) (hp : p ∈ positions (ranges.take n)) : r.fromPos ≤ p := by
  obtain ⟨-, hne, habove, -⟩ := h.split hr
  have htake : ranges.take n = ranges.take (n - 1) ++ [r] := by
    rw [← take_succ_of_getElem? hr, Nat.sub_add_cancel (Nat.pos_of_ne_zero hn)]
  rw [htake, mem_positions_append, mem_positions_cons] at hp
  rcases hp with hp | hp | hp
  · have := le_of_mem_positions habove hp
    omega
  · exact hp.1
  · simp at hp

/-- The loop of `intersect`: common positions are in the ranges that both intervals have come to, or behind
them. -/
theorem intersectLoop_spec {this other : LiveInterval U} {thisEnd otherEnd : ℕ} (otherStart : ℕ)
    (h : Descending this.ranges) (h' : Descending other.ranges)
    (hthis : ∀ p ∈ positions this.ranges, p < thisEnd) (hother : ∀ p ∈ positions other.ranges, p < otherEnd)
    (fuel m n last : ℕ) (hm : m < this.ranges.length) (hn : n < other.ranges.length) (hfuel : m + n < fuel)
    (hcome : ∀ p ∈ positions this.ranges ∩ positions other.ranges,
      p ∈ positions (this.ranges.take (m + 1)) ∧ p ∈ positions (other.ranges.take (n + 1))) :
    ∃ pos last', intersectLoop this other thisEnd otherStart otherEnd fuel m n last = some (pos, last') ∧
      LeastOrMin (positions this.ranges ∩ positions other.ranges) pos := by
  induction fuel generalizing m n last with
  | zero => omega
  | succ fuel ih =>
    have hr1 : this.ranges[m]? = some this.ranges[m] := List.getElem?_eq_getElem hm
    have hr2 : other.ranges[n]? = some other.ranges[n] := List.getElem?_eq_getElem hn
    obtain ⟨hs1, hne1, habove1, -⟩ := h.split hr1
    obtain ⟨hs2, hne2, habove2, -⟩ := h'.split hr2
    have hmem1 {p : ℕ} (hp : this.ranges[m].fromPos ≤ p ∧ p < this.ranges[m].toPos) :
        p ∈ positions this.ranges := ⟨_, List.getElem_mem hm, hp⟩
    have hmem2 {p : ℕ} (hp : other.ranges[n].fromPos ≤ p ∧ p < other.ranges[n].toPos) :
        p ∈ positions other.ranges := ⟨_, List.getElem_mem hn, hp⟩
    have hcases {p : ℕ} (hp : p ∈ positions this.ranges ∩ positions other.ranges) :
        (p ∈ positions (this.ranges.take m) ∨ (this.ranges[m].fromPos ≤ p ∧ p < this.ranges[m].toPos)) ∧
          (p ∈ positions (other.ranges.take n) ∨
            (other.ranges[n].fromPos ≤ p ∧ p < other.ranges[n].toPos)) := by
      have hp := hcome p hp
      rw [take_succ_of_getElem? hr1, take_succ_of_getElem? hr2] at hp
      simpa only [mem_positions_append, mem_positions_cons, positions_nil, Set.mem_empty_iff_false,
        or_false] using hp
    -- where common positions start
    have hle1 {p : ℕ} (hp : p ∈ positions this.ranges ∩ positions other.ranges) :
        this.ranges[m].fromPos ≤ p := by
      rcases (hcases hp).1 with hp | hp
      · have := le_of_mem_positions habove1 hp
        omega
      · exact hp.1
    have hle2 {p : ℕ} (hp : p ∈ positions this.ranges ∩ positions other.ranges) :
        other.ranges[n].fromPos ≤ p := by
      rcases (hcases hp).2 with hp | hp
      · have := le_of_mem_positions habove2 hp
        omega
      · exact hp.1
    unfold intersectLoop
    simp only [hr1, hr2, Option.bind_eq_bind, Option.bind_some]
    by_cases horder : this.ranges[m].fromPos ≤ other.ranges[n].fromPos
    · rw [if_pos horder]
      by_cases hfound : other.ranges[n].fromPos < this.ranges[m].toPos
      · rw [if_pos hfound]
        exact ⟨_, _, rfl, Or.inl ⟨⟨hmem1 ⟨horder, hfound⟩, hmem2 ⟨Nat.le_refl _, hne2⟩⟩, fun p hp => hle2 hp⟩⟩
      · rw [if_neg hfound]
        -- the range of the first interval has no common position
        have hup {p : ℕ} (hp : p ∈ positions this.ranges ∩ positions other.ranges) :
            p ∈ positions (this.ranges.take m) :=
          (hcases hp).1.resolve_right fun hp' => by
            have := hle2 hp
            omega
        by_cases hzero : m = 0
        · rw [if_pos hzero]
          refine ⟨_, _, rfl, Or.inr ⟨Set.eq_empty_of_forall_notMem fun p hp => ?_, rfl⟩⟩
          have := hup hp
          rw [hzero, List.take_zero, positions_nil] at this
          exact this
        · rw [if_neg hzero]
          have hnext : m - 1 < this.ranges.length := by omega
          have hr3 : this.ranges[m - 1]? = some this.ranges[m - 1] := List.getElem?_eq_getElem hnext
          simp only [hr3, Option.bind_some]
          by_cases hpast : otherEnd < this.ranges[m - 1].fromPos
          · rw [if_pos hpast]
            refine ⟨_, _, rfl, Or.inr ⟨Set.eq_empty_of_forall_notMem fun p hp => ?_, rfl⟩⟩
            have := h.le_of_mem_take hzero hr3 (hup hp)
            have := hother p hp.2
            omega
          · rw [if_neg hpast]
            apply ih (m - 1) n _ hnext hn (by omega)
            intro p hp
            rw [Nat.sub_add_cancel (Nat.pos_of_ne_zero hzero)]
            exact ⟨hup hp, (hcome p hp).2⟩
    · rw [if_neg horder]
      by_cases hfound : this.ranges[m].fromPos < other.ranges[n].toPos
      · rw [if_pos hfound]
        exact ⟨_, _, rfl,
          Or.inl ⟨⟨hmem1 ⟨Nat.le_refl _, hne1⟩, hmem2 ⟨by omega, hfound⟩⟩, fun p hp => hle1 hp⟩⟩
      · rw [if_neg hfound]
        have hup {p : ℕ} (hp : p ∈ positions this.ranges ∩ positions other.ranges) :
            p ∈ positions (other.ranges.take n) :=
          (hcases hp).2.resolve_right fun hp' => by
            have := hle1 hp
            omega
        by_cases hzero : n = 0
        · rw [if_pos hzero]
          refine ⟨_, _, rfl, Or.inr ⟨Set.eq_empty_of_forall_notMem fun p hp => ?_, rfl⟩⟩
          have := hup hp
          rw [hzero, List.take_zero, positions_nil] at this
          exact this
        · rw [if_neg hzero]
          have hnext : n - 1 < other.ranges.length := by omega
          have hr3 : other.ranges[n - 1]? = some other.ranges[n - 1] := List.getElem?_eq_getElem hnext
          simp only [hr3, Option.bind_some]
          by_cases hpast : thisEnd < other.ranges[n - 1].fromPos
          · rw [if_pos hpast]
            refine ⟨_, _, rfl, Or.inr ⟨Set.eq_empty_of_forall_notMem fun p hp => ?_, rfl⟩⟩
            have := h'.le_of_mem_take hzero hr3 (hup hp)
            have := hthis p hp.1
            omega
          · rw [if_neg hpast]
            apply ih m (n - 1) _ hm hnext (by omega)
            intro p hp
            rw [Nat.sub_add_cancel (Nat.pos_of_ne_zero hzero)]
            exact ⟨(hcome p hp).1, hup hp⟩

/-- `intersect` finds the least common position. -/
theorem intersectFrom_spec {this other : LiveInterval U} (h : Descending this.ranges)
    (h' : Descending other.ranges) (hne : this.ranges ≠ []) (hne' : other.ranges ≠ []) :
    ∃ pos last, this.intersectFrom other = some (pos, { this with lastProcessedRange := last }) ∧
      LeastOrMin (positions this.ranges ∩ positions other.ranges) pos := by
  obtain ⟨-, thisEnd, hthisEnd⟩ := exists_start_stop hne
  obtain ⟨⟨otherStart, hotherStart⟩, otherEnd, hotherEnd⟩ := exists_start_stop hne'
  obtain ⟨hvalid, hbelow⟩ := lastProcessedRangeIfValid_spec h hne otherStart
  have hlength : 0 < other.ranges.length := List.length_pos_iff.mpr hne'
  obtain ⟨pos, last, hrun, hleast⟩ := intersectLoop_spec otherStart h h' (lt_stop h hthisEnd) (lt_stop h' hotherEnd)
    (this.lastProcessedRangeIfValid otherStart + (other.ranges.length - 1) + 1)
    (this.lastProcessedRangeIfValid otherStart) (other.ranges.length - 1) this.lastProcessedRange hvalid
    (by omega) (by omega) (fun p hp => ⟨hbelow p hp.1 (start_le h' hotherStart p hp.2), by
      rw [Nat.sub_add_cancel hlength, List.take_length]
      exact hp.2⟩)
  refine ⟨pos, last, ?_, hleast⟩
  simp [intersectFrom, hotherStart, hthisEnd, hotherEnd, hrun]

/-! ## Splitting -/

/-- The loop of `splitFrom`: what it has passed is below the position. -/
theorem splitLoop_spec (pos : ℕ) (front passed : List LiveRange)
    (h : Descending (front ++ passed)) (hpassed : ∀ below ∈ passed, below.toPos ≤ pos)
    (hend : ∃ above ∈ front, pos < above.toPos) :
    ∃ before behind, splitLoop pos front.length (front ++ passed) = (before, behind) ∧
      Descending before ∧ Descending behind ∧
      positions before = positions (front ++ passed) ∩ Set.Iio pos ∧
      positions behind = positions (front ++ passed) ∩ Set.Ici pos := by
  induction front using List.reverseRecOn generalizing passed with
  | nil => simp at hend
  | append_singleton front r ih =>
    rw [List.append_assoc, List.singleton_append] at h ⊢
    have hdesc := h
    rw [descending_append, descending_cons] at hdesc
    obtain ⟨hdf, ⟨hr, hdp, hbelow⟩, habove⟩ := hdesc
    have hfront : ∀ above ∈ front, r.toPos ≤ above.fromPos := fun above hmem =>
      habove above hmem r List.mem_cons_self
    rw [List.length_append, List.length_singleton, splitLoop, List.getElem?_append_right (Nat.le_refl _),
      Nat.sub_self, List.getElem?_cons_zero]
    simp only
    by_cases hcont : r.toPos ≤ pos
    · rw [if_pos hcont]
      apply ih _ h
      · intro below hmem
        rcases List.mem_cons.mp hmem with rfl | hmem
        · exact hcont
        · exact hpassed below hmem
      · obtain ⟨above, hmem, hlt⟩ := hend
        rcases List.mem_append.mp hmem with hmem | hmem
        · exact ⟨above, hmem, hlt⟩
        · rw [List.mem_singleton.mp hmem] at hlt
          omega
    · rw [if_neg hcont]
      have hdrop : (front ++ r :: passed).drop (front.length + 1) = passed := by
        simp [List.drop_append]
      have hset (r' : LiveRange) :
          ((front ++ r :: passed).set front.length r').take (front.length + 1) = front ++ [r'] := by
        simp [List.take_append]
      have htake : (front ++ r :: passed).take (front.length + 1) = front ++ [r] := by
        simp [List.take_append]
      have hup {p : ℕ} (hp : p ∈ positions front) : r.toPos ≤ p := le_of_mem_positions hfront hp
      have hlow {p : ℕ} (hp : p ∈ positions passed) : p < pos := lt_of_mem_positions
        (n := pos) hpassed hp
      by_cases hsplit : r.fromPos < pos
      · rw [if_pos hsplit, hdrop, hset]
        refine ⟨_, _, rfl, descending_cons.mpr ⟨hsplit, hdp, hbelow⟩, ?_, ?_, ?_⟩
        · rw [descending_append, descending_cons]
          exact ⟨hdf, ⟨by simp only; omega, descending_nil, by simp⟩, by simpa using hfront⟩
        · ext p
          simp only [Set.mem_inter_iff, Set.mem_Iio, mem_positions_append, mem_positions_cons]
          have h1 := fun hp => hup (p := p) hp
          have h2 := fun hp => hlow (p := p) hp
          by_cases hp1 : p ∈ positions front <;> by_cases hp2 : p ∈ positions passed <;>
            simp only [hp1, hp2, true_or, or_true, false_or, or_false] at h1 h2 ⊢ <;> grind
        · ext p
          simp only [Set.mem_inter_iff, Set.mem_Ici, mem_positions_append, mem_positions_cons, positions_nil,
            Set.mem_empty_iff_false, or_false]
          have h1 := fun hp => hup (p := p) hp
          have h2 := fun hp => hlow (p := p) hp
          by_cases hp1 : p ∈ positions front <;> by_cases hp2 : p ∈ positions passed <;>
            simp only [hp1, hp2, true_or, or_true, false_or, or_false] at h1 h2 ⊢ <;> grind
      · rw [if_neg hsplit, hdrop, htake]
        refine ⟨_, _, rfl, hdp, ?_, ?_, ?_⟩
        · rw [descending_append, descending_cons]
          exact ⟨hdf, ⟨hr, descending_nil, by simp⟩, by simpa using hfront⟩
        · ext p
          simp only [Set.mem_inter_iff, Set.mem_Iio, mem_positions_append, mem_positions_cons]
          have h1 := fun hp => hup (p := p) hp
          have h2 := fun hp => hlow (p := p) hp
          by_cases hp1 : p ∈ positions front <;> by_cases hp2 : p ∈ positions passed <;>
            simp only [hp1, hp2, true_or, or_true, false_or, or_false] at h1 h2 ⊢ <;> grind
        · ext p
          simp only [Set.mem_inter_iff, Set.mem_Ici, mem_positions_append, mem_positions_cons, positions_nil,
            Set.mem_empty_iff_false, or_false]
          have h1 := fun hp => hup (p := p) hp
          have h2 := fun hp => hlow (p := p) hp
          by_cases hp1 : p ∈ positions front <;> by_cases hp2 : p ∈ positions passed <;>
            simp only [hp1, hp2, true_or, or_true, false_or, or_false] at h1 h2 ⊢ <;> grind

/-- Uses in ascending order. -/
def Ascending (uses : List (ℕ × U)) : Prop := uses.Pairwise fun u v => u.1 ≤ v.1

/-- What comes behind a use that is not before a position. -/
theorem Ascending.dropWhile {uses : List (ℕ × U)} {q : ℕ × U → Bool} (h : Ascending uses)
    (hq : ∀ u v : ℕ × U, u.1 ≤ v.1 → q v = true → q u = true) : ∀ u ∈ uses.dropWhile q, q u = false := by
  induction uses with
  | nil => simp
  | cons u uses ih =>
    obtain ⟨hu, hrest⟩ := List.pairwise_cons.mp h
    cases hqu : q u with
    | true =>
      rw [List.dropWhile_cons_of_pos hqu]
      exact ih hrest
    | false =>
      rw [List.dropWhile_cons_of_neg (by simp [hqu])]
      intro v hv
      rcases List.mem_cons.mp hv with rfl | hv
      · exact hqu
      · rw [← Bool.not_eq_true] at hqu ⊢
        exact fun hqv => hqu (hq u v (hu v hv) hqv)

/-- `splitFrom` divides the positions and the uses. -/
theorem splitFrom_spec {after : LiveInterval U} (h : Descending i.ranges) (huses : Ascending i.uses)
    {first last : ℕ} (hfirst : i.start = some first) (hlast : i.stop = some last) (hle : first ≤ pos)
    (hlt : pos < last) (hranges : after.ranges = []) (hafter : after.uses = []) :
    ∃ i' after', i.splitFrom after pos = some (i', after') ∧
      Descending i'.ranges ∧ Descending after'.ranges ∧
      positions i'.ranges = positions i.ranges ∩ Set.Iio pos ∧
      positions after'.ranges = positions i.ranges ∩ Set.Ici pos ∧
      i'.uses ++ after'.uses = i.uses ∧ (∀ u ∈ i'.uses, u.1 ≤ pos) ∧ ∀ u ∈ after'.uses, pos < u.1 := by
  obtain ⟨r, hr, hend⟩ := Option.map_eq_some_iff.mp hlast
  have habove : ∃ above ∈ i.ranges, pos < above.toPos := ⟨r, List.mem_of_head? hr, hend ▸ hlt⟩
  obtain ⟨before, behind, hrun, hbefore, hbehind, hpos, hpos'⟩ :=
    splitLoop_spec pos i.ranges [] (by simpa using h) (by simp) habove
  rw [List.append_nil] at hrun hpos hpos'
  refine ⟨{ i with ranges := before, uses := i.uses.takeWhile fun u => u.1 ≤ pos },
    { after with ranges := behind, uses := i.uses.dropWhile fun u => u.1 ≤ pos }, ?_, hbefore, hbehind,
    hpos, hpos', List.takeWhile_append_dropWhile, ?_, ?_⟩
  · simp [splitFrom, hfirst, hlast, hle, hlt, hranges, hafter, hrun]
  · intro u hu
    exact of_decide_eq_true (List.mem_takeWhile_imp (p := fun u : ℕ × U => decide (u.1 ≤ pos)) hu)
  · intro u hu
    have := huses.dropWhile (q := fun u : ℕ × U => decide (u.1 ≤ pos))
      (fun u v huv hv => decide_eq_true (huv.trans (of_decide_eq_true hv))) u hu
    exact not_le.mp (of_decide_eq_false this)

/-- `addUse` keeps the uses in ascending order. -/
theorem addUse_spec (huses : Ascending i.uses) (pos : ℕ) (use : U) :
    Ascending (i.addUse pos use).uses ∧ (i.addUse pos use).uses.Perm ((pos, use) :: i.uses) ∧
      (i.addUse pos use).ranges = i.ranges := by
  have hsplit : (i.uses.takeWhile fun u => decide (u.1 < pos)) ++ i.uses.dropWhile (fun u => decide (u.1 < pos)) =
      i.uses := List.takeWhile_append_dropWhile
  have hbefore : ∀ u ∈ i.uses.takeWhile (fun u => decide (u.1 < pos)), u.1 < pos :=
    fun u hu => of_decide_eq_true (List.mem_takeWhile_imp (p := fun u : ℕ × U => decide (u.1 < pos)) hu)
  have hbehind : ∀ u ∈ i.uses.dropWhile (fun u => decide (u.1 < pos)), pos ≤ u.1 := by
    intro u hu
    have := huses.dropWhile (q := fun u : ℕ × U => decide (u.1 < pos))
      (fun u v huv hv => decide_eq_true (huv.trans_lt (of_decide_eq_true hv))) u hu
    exact not_lt.mp (of_decide_eq_false this)
  refine ⟨?_, ?_, rfl⟩
  · rw [← hsplit] at huses
    obtain ⟨h1, h2, h3⟩ := List.pairwise_append.mp huses
    refine List.pairwise_append.mpr ⟨h1, List.pairwise_cons.mpr ⟨hbehind, h2⟩, fun u hu v hv => ?_⟩
    rcases List.mem_cons.mp hv with rfl | hv
    · exact (hbefore u hu).le
    · exact h3 u hu v hv
  · have hperm := @List.perm_middle _ (pos, use) (i.uses.takeWhile fun u => decide (u.1 < pos))
      (i.uses.dropWhile fun u => decide (u.1 < pos))
    rwa [hsplit] at hperm

/-! ## Runs -/

/-- What an interval stands for: a set of positions and the uses. -/
structure Live (U : Type) where
  positions : Set ℕ
  uses : List (ℕ × U)

/-- An interval stands for a set of positions. What was processed last does not matter. -/
structure Holds (i : LiveInterval U) (c : Live U) : Prop where
  descending : Descending i.ranges
  positions_eq : positions i.ranges = c.positions
  uses_eq : i.uses = c.uses
  ascending : Ascending i.uses

/-- What operations may be called with. An interval that has a start or an end has ranges. -/
def Allowed (s : Intervals U) : Op U → Prop
  | .addRange _ fromPos toPos => fromPos < toPos
  | .addRangeAtHead id fromPos toPos => HeadAllowed (s id) fromPos toPos
  | .setFrom _ _ => True
  | .splitFrom id pos after =>
    (∃ first last, (s id).start = some first ∧ (s id).stop = some last ∧ first ≤ pos ∧ pos < last) ∧
      (s after).ranges = [] ∧ (s after).uses = []
  | .addUse _ _ _ => True
  | .covers id _ => (s id).ranges ≠ []
  | .nextCoveredAfter id pos => ∃ first, (s id).start = some first ∧ first ≤ pos
  | .intersect id other => (s id).ranges ≠ [] ∧ (s other).ranges ≠ []

/-- What operations do to the sets, and what they answer. -/
inductive Meets (c : ℕ → Live U) : Op U → Result → (ℕ → Live U) → Prop where
  | addRange (id fromPos toPos : ℕ) :
    Meets c (.addRange id fromPos toPos) .done
      (Function.update c id ⟨(c id).positions ∪ Set.Ico fromPos toPos, (c id).uses⟩)
  | addRangeAtHead (id fromPos toPos : ℕ) :
    Meets c (.addRangeAtHead id fromPos toPos) .done
      (Function.update c id ⟨(c id).positions ∪ Set.Ico fromPos toPos, (c id).uses⟩)
  | setFrom (id fromPos : ℕ) (new : Set ℕ) (h : CutAt fromPos (c id).positions new) :
    Meets c (.setFrom id fromPos) .done (Function.update c id ⟨new, (c id).uses⟩)
  | splitFrom (id pos after : ℕ) (before behind : List (ℕ × U)) (huses : before ++ behind = (c id).uses)
      (hbefore : ∀ u ∈ before, u.1 ≤ pos) (hbehind : ∀ u ∈ behind, pos < u.1) :
    Meets c (.splitFrom id pos after) .done
      (Function.update (Function.update c id ⟨(c id).positions ∩ Set.Iio pos, before⟩) after
        ⟨(c id).positions ∩ Set.Ici pos, behind⟩)
  | addUse (id pos : ℕ) (use : U) (uses : List (ℕ × U)) (h : uses.Perm ((pos, use) :: (c id).uses)) :
    Meets c (.addUse id pos use) .done (Function.update c id ⟨(c id).positions, uses⟩)
  | covers (id pos : ℕ) (b : Bool) (h : b = true ↔ pos ∈ (c id).positions) :
    Meets c (.covers id pos) (.covered b) c
  | nextCoveredAfter (id pos next : ℕ) (h : LeastOrMin ((c id).positions ∩ Set.Ici pos) next) :
    Meets c (.nextCoveredAfter id pos) (.position next) c
  | intersect (id other pos : ℕ) (h : LeastOrMin ((c id).positions ∩ (c other).positions) pos) :
    Meets c (.intersect id other) (.position pos) c

variable {s : Intervals U} {c : ℕ → Live U}

/-- Replacing one interval. -/
theorem holds_put (h : ∀ id, Holds (s id) (c id)) (id : ℕ) {l : Live U} (hi : Holds i l) :
    ∀ id', Holds (s.put id i id') (Function.update c id l id') := by
  intro id'
  rw [Intervals.put, Function.update_apply]
  split
  · exact hi
  · exact h id'

/-- Replacing one by another that stands for the same. -/
theorem holds_put_self (h : ∀ id, Holds (s id) (c id)) (id : ℕ) (hi : Holds i (c id)) :
    ∀ id', Holds (s.put id i id') (c id') := by
  have := holds_put h id hi
  rwa [Function.update_eq_self] at this

/-- What was processed last does not matter. -/
theorem Holds.processed {l : Live U} (h : Holds i l) (last : ℕ) :
    Holds { i with lastProcessedRange := last } l :=
  ⟨h.descending, h.positions_eq, h.uses_eq, h.ascending⟩

/-- `intersect`, in whichever interval it looks. -/
theorem step_intersect (h : ∀ id, Holds (s id) (c id)) {id other : ℕ} (hne : (s id).ranges ≠ [])
    (hne' : (s other).ranges ≠ []) :
    ∃ pos s', s.step (.intersect id other) = some (.position pos, s') ∧
      LeastOrMin ((c id).positions ∩ (c other).positions) pos ∧ ∀ id, Holds (s' id) (c id) := by
  obtain ⟨⟨first, hfirst⟩, -⟩ := exists_start_stop hne
  obtain ⟨⟨otherFirst, hotherFirst⟩, -⟩ := exists_start_stop hne'
  simp only [Intervals.step, hfirst, hotherFirst, Option.bind_eq_bind, Option.bind_some]
  by_cases horder : otherFirst < first
  · rw [if_pos horder]
    obtain ⟨pos, last, hrun, hleast⟩ :=
      intersectFrom_spec (h other).descending (h id).descending hne' hne
    rw [(h other).positions_eq, (h id).positions_eq, Set.inter_comm] at hleast
    exact ⟨pos, s.put other _, by simp [hrun], hleast, holds_put_self h other ((h other).processed last)⟩
  · rw [if_neg horder]
    obtain ⟨pos, last, hrun, hleast⟩ :=
      intersectFrom_spec (h id).descending (h other).descending hne hne'
    rw [(h id).positions_eq, (h other).positions_eq] at hleast
    exact ⟨pos, s.put id _, by simp [hrun], hleast, holds_put_self h id ((h id).processed last)⟩

/-- Every operation does to the intervals what it does to the sets. -/
theorem step_spec (h : ∀ id, Holds (s id) (c id)) (op : Op U) (hallowed : Allowed s op) :
    ∃ r s' c', s.step op = some (r, s') ∧ Meets c op r c' ∧ ∀ id, Holds (s' id) (c' id) := by
  cases op with
  | addRange id fromPos toPos =>
    obtain ⟨i', hrun, hdesc, hpos, huses⟩ := addRange_spec (h id).descending hallowed
    refine ⟨.done, s.put id i', _, by simp [Intervals.step, hrun], .addRange id fromPos toPos, ?_⟩
    exact holds_put h id ⟨hdesc, by rw [hpos, (h id).positions_eq], huses.trans (h id).uses_eq,
      huses ▸ (h id).ascending⟩
  | addRangeAtHead id fromPos toPos =>
    obtain ⟨i', hrun, hdesc, hpos, huses⟩ := addRangeAtHead_spec (h id).descending hallowed
    refine ⟨.done, s.put id i', _, by simp [Intervals.step, hrun], .addRangeAtHead id fromPos toPos, ?_⟩
    exact holds_put h id ⟨hdesc, by rw [hpos, (h id).positions_eq], huses.trans (h id).uses_eq,
      huses ▸ (h id).ascending⟩
  | setFrom id fromPos =>
    obtain ⟨hdesc, hcut⟩ := setFromLoop_spec fromPos (s id).ranges (h id).descending
    rw [(h id).positions_eq] at hcut
    refine ⟨.done, _, _, rfl, .setFrom id fromPos _ hcut, ?_⟩
    exact holds_put h id ⟨hdesc, rfl, (h id).uses_eq, (h id).ascending⟩
  | splitFrom id pos after =>
    obtain ⟨⟨first, last, hfirst, hlast, hle, hlt⟩, hranges, hafter⟩ := hallowed
    obtain ⟨i', after', hrun, hdesc, hdesc', hpos, hpos', huses, hbefore, hbehind⟩ :=
      splitFrom_spec (h id).descending (h id).ascending hfirst hlast hle hlt hranges hafter
    have hasc : Ascending (i'.uses ++ after'.uses) := huses ▸ (h id).ascending
    obtain ⟨hasc1, hasc2, -⟩ := List.pairwise_append.mp hasc
    refine ⟨.done, (s.put id i').put after after', _, by simp [Intervals.step, hrun],
      .splitFrom id pos after i'.uses after'.uses (huses.trans (h id).uses_eq) hbefore hbehind, ?_⟩
    exact holds_put (holds_put h id ⟨hdesc, by rw [hpos, (h id).positions_eq], rfl, hasc1⟩) after
      ⟨hdesc', by rw [hpos', (h id).positions_eq], rfl, hasc2⟩
  | addUse id pos use =>
    obtain ⟨hasc, hperm, hranges⟩ := addUse_spec (h id).ascending pos use
    rw [(h id).uses_eq] at hperm
    refine ⟨.done, _, _, rfl, .addUse id pos use _ hperm, ?_⟩
    exact holds_put h id ⟨hranges ▸ (h id).descending, hranges ▸ (h id).positions_eq, rfl, hasc⟩
  | covers id pos =>
    obtain ⟨b, last, hrun, hb⟩ := covers_spec (h id).descending hallowed pos
    rw [(h id).positions_eq] at hb
    exact ⟨.covered b, s.put id _, c, by simp [Intervals.step, hrun], .covers id pos b hb,
      holds_put_self h id ((h id).processed last)⟩
  | nextCoveredAfter id pos =>
    obtain ⟨first, hfirst, hle⟩ := hallowed
    have hnext := nextCoveredAfter_spec (h id).descending hfirst hle
    rw [(h id).positions_eq] at hnext
    exact ⟨_, s, c, rfl, .nextCoveredAfter id pos _ hnext, h⟩
  | intersect id other =>
    obtain ⟨pos, s', hrun, hleast, hholds⟩ := step_intersect h hallowed.1 hallowed.2
    exact ⟨_, s', c, hrun, .intersect id other pos hleast, hholds⟩

/-- Every operation of a run is called with what it may be called with. -/
def AllAllowed (s : Intervals U) : List (Op U) → Prop
  | [] => True
  | op :: ops => Allowed s op ∧ (s.step op).elim True fun next => AllAllowed next.2 ops

/-- What the sets answer to a run, and the sets after it. -/
inductive Answers : (ℕ → Live U) → List (Op U) → List Result → (ℕ → Live U) → Prop where
  | nil (c : ℕ → Live U) : Answers c [] [] c
  | cons {c c' c'' : ℕ → Live U} {op : Op U} {ops : List (Op U)} {r : Result} {rs : List Result}
      (h : Meets c op r c') (hrest : Answers c' ops rs c'') : Answers c (op :: ops) (r :: rs) c''

/-- A run does, and answers, what the sets do. -/
theorem run_spec (ops : List (Op U)) (h : ∀ id, Holds (s id) (c id)) (hallowed : AllAllowed s ops) :
    ∃ rs s' c', s.run ops = some (rs, s') ∧ Answers c ops rs c' ∧ ∀ id, Holds (s' id) (c' id) := by
  induction ops generalizing s c with
  | nil => exact ⟨[], s, c, rfl, .nil c, h⟩
  | cons op ops ih =>
    obtain ⟨r, s', c', hstep, hmeets, hholds⟩ := step_spec h op hallowed.1
    have hrest := hallowed.2
    rw [hstep] at hrest
    obtain ⟨rs, s'', c'', hrun, hanswers, hholds'⟩ := ih hholds hrest
    exact ⟨r :: rs, s'', c'', by simp [Intervals.run, hstep, hrun], .cons hmeets hanswers, hholds'⟩

/-- Intervals that start out empty are sets of positions: after every run they hold what the run makes of
the sets, in disjoint ranges in descending order, whatever was processed last, and `intersect` is
symmetric. -/
theorem intervals_refine (s : Intervals U) (hempty : ∀ id, (s id).ranges = [] ∧ (s id).uses = [])
    (ops : List (Op U)) (hallowed : AllAllowed s ops) :
    ∃ rs s' c', s.run ops = some (rs, s') ∧ Answers (fun _ => ⟨∅, []⟩) ops rs c' ∧
      (∀ id, Holds (s' id) (c' id)) ∧
      ∀ id other, (s' id).ranges ≠ [] → (s' other).ranges ≠ [] →
        (s'.step (.intersect id other)).map Prod.fst = (s'.step (.intersect other id)).map Prod.fst := by
  have hstart : ∀ id, Holds (s id) (⟨∅, []⟩ : Live U) := by
    intro id
    obtain ⟨hranges, huses⟩ := hempty id
    exact ⟨hranges ▸ descending_nil, by rw [hranges, positions_nil], huses, huses ▸ List.Pairwise.nil⟩
  obtain ⟨rs, s', c', hrun, hanswers, hholds⟩ := run_spec ops hstart hallowed
  refine ⟨rs, s', c', hrun, hanswers, hholds, fun id other hne hne' => ?_⟩
  obtain ⟨pos, t, hstep, hleast, -⟩ := step_intersect hholds hne hne'
  obtain ⟨pos', t', hstep', hleast', -⟩ := step_intersect hholds hne' hne
  rw [Set.inter_comm] at hleast'
  rw [hstep, hstep', hleast.unique hleast']
  rfl

/-- Two ranges and a use, a split between them, and queries. -/
theorem intervals_refine_sample :
    ∃ rs s' c', Intervals.run (fun _ => (⟨[], [], 7⟩ : LiveInterval ℕ))
        [.addRange 0 10 20, .addRangeAtHead 0 0 5, .addUse 0 12 1, .splitFrom 0 7 1, .covers 1 12,
          .intersect 0 1] = some (rs, s') ∧
      Answers (fun _ => ⟨∅, []⟩)
        [.addRange 0 10 20, .addRangeAtHead 0 0 5, .addUse 0 12 1, .splitFrom 0 7 1, .covers 1 12,
          .intersect 0 1] rs c' ∧
      (∀ id, Holds (s' id) (c' id)) ∧
      ∀ id other, (s' id).ranges ≠ [] → (s' other).ranges ≠ [] →
        (s'.step (.intersect id other)).map Prod.fst = (s'.step (.intersect other id)).map Prod.fst :=
  intervals_refine _ (fun _ => ⟨rfl, rfl⟩) _
    ⟨(by decide : 10 < 20), headAllowed_below [] ⟨10, 20⟩ rfl (by decide) (by decide), trivial,
      ⟨⟨0, 20, rfl, rfl, by decide, by decide⟩, rfl, rfl⟩, (by decide : [(⟨10, 20⟩ : LiveRange)] ≠ []),
      ⟨(by decide : [(⟨0, 5⟩ : LiveRange)] ≠ []), (by decide : [(⟨10, 20⟩ : LiveRange)] ≠ [])⟩, trivial⟩

/-- A range at the head that reaches the second range overlaps it, one that starts where the earliest
range ends is not expected, and an interval without ranges has no start. -/
theorem addRangeAtHead_overlaps :
    ((Intervals.run (fun _ => (⟨[], [], 7⟩ : LiveInterval ℕ))
        [.addRange 0 0 5, .addRange 0 10 20, .addRangeAtHead 0 3 15]).map fun s => (s.2 0).ranges) =
        some [⟨10, 20⟩, ⟨0, 15⟩] ∧
      ¬Descending [⟨10, 20⟩, ⟨0, 15⟩] ∧
      (Intervals.run (fun _ => (⟨[], [], 7⟩ : LiveInterval ℕ))
        [.addRange 0 0 5, .addRangeAtHead 0 5 6]).isNone ∧
      (Intervals.run (fun _ => (⟨[], [], 7⟩ : LiveInterval ℕ)) [.covers 0 3]).isNone := by
  refine ⟨by decide, fun h => ?_, by decide, by decide⟩
  have := h.pairwise
  simp at this

end SpiderMonkey.Jit.LiveInterval
