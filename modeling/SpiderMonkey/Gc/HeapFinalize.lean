import SpiderMonkey.Gc.HeapSweep
import SpiderMonkey.Gc.HeapAllocate

/-!
# Sweeping and allocation

An arena is swept with whatever list it has, unless all of it is one free span. What comes out of
the list afterwards are the cells that were free or whose things were finalized.
-/

namespace SpiderMonkey.Gc.Arena

variable {A : Arena} {isMarked : ℕ → Bool} {junk : ℕ → FreeSpan} {mem : Memory} {head : FreeSpan}
  {spans new : List (ℕ × ℕ)} {a b : ℕ} {s : Sweep}

/-- A cell is on a list with its number. -/
theorem FreeSpanList.cell_mem_iff (h : A.FreeSpanList mem head spans a) {k : ℕ}
    (hk : k < A.thingsPerArena) : A.cell k ∈ A.freeCells spans a ↔ k ∈ A.freeNumbers spans a := by
  rw [freeCells, List.mem_map]
  apply Iff.intro
  · rintro ⟨k', hk', heq⟩
    have hle := (h.ascending (Nat.le_refl _)).mem_freeNumbers (Nat.le_refl 1) h.le hk'
    rw [← cell_inj (Nat.le_of_lt hle.2) (Nat.le_of_lt hk) heq]
    exact hk'
  · intro hmem
    exact ⟨k, hmem, rfl⟩

/-- Cells that are chosen by their address. -/
theorem map_cell_filter {p : ℕ → Bool} {q : ℕ → Bool}
    (h : ∀ k < A.thingsPerArena, p k = q (A.cell k)) :
    ((List.range A.thingsPerArena).filter p).map A.cell = A.cells.filter q := by
  rw [cells, List.filter_map]
  congr 1
  apply List.filter_congr
  intro k hk
  exact h k (List.mem_range.mp hk)

/-- The cells of an arena ascend. -/
theorem pairwise_cells (A : Arena) : A.cells.Pairwise (· < ·) := by
  rw [cells, List.pairwise_map]
  apply List.pairwise_lt_range.imp_of_mem
  intro k k' _ hk' hlt
  exact cell_lt_cell hlt (Nat.le_of_lt (List.mem_range.mp hk'))

/-- After the loop, the numbers of the new list and of the last span are those released. -/
theorem SweepInv.freeNumbers_eq (h : A.SweepInv isMarked mem head spans a a s [] new b) :
    A.freeNumbers new b =
      (List.range A.thingsPerArena).filter (A.isReleased isMarked spans a) := by
  have hle := h.le
  have hsum : a + (A.thingsPerArena - a) = A.thingsPerArena := by omega
  have hnumbers := h.numbers_add (m := A.thingsPerArena - a) <| by
    intro k hk hkn
    apply (isReleased_of_mem _).2
    rw [h.wasFree_iff k hk]
    exact List.mem_range'_1.mpr ⟨hk, by omega⟩
  rw [hsum] at hnumbers
  exact hnumbers

/-- The end of the sweep of an arena without marked things. -/
theorem SweepInv.finish_clear (h : A.SweepInv isMarked mem head spans a a s [] new b)
    (hne : head ≠ A.lastSpan 0) (hclear : s.allClear = true) (offsets : ℕ) :
    s.finish A offsets = some ⟨true, s.mem, offsets, s.log⟩ := by
  obtain ⟨hnew, hb⟩ := h.clear hclear
  have htail : s.newListTail = .newListHead := by
    have hlinked := h.linked
    rw [hnew] at hlinked
    exact hlinked.symm
  have ha : b ≠ a := by
    intro hba
    have hspan := h.oldList.2.1
    rw [h.nextFree_eq (by omega), show a = 0 by omega] at hspan
    exact hne hspan
  have hstart : s.newFreeSpanStart = A.thingsStart := by
    rw [h.newFreeSpanStart_eq, if_neg ha, hb, cell_zero]
  simp only [Sweep.finish, hclear, htail, hstart, guard_true, if_true, Option.bind_eq_bind,
    Option.pure_def, Option.bind_some]

/-- The end of the sweep of an arena with marked things: the new list is installed. -/
theorem SweepInv.finish_list (h : A.SweepInv isMarked mem head spans a a s [] new b)
    (hclear : s.allClear = false) (offsets : ℕ) :
    ∃ mem' offsets' head', s.finish A offsets =
        some ⟨false, mem', offsets', s.log ++ [.writeSpan s.newListTail]⟩ ∧
      A.getFirstFreeSpan mem' offsets' = some head' ∧ A.FreeSpanList mem' head' new b := by
  have hb : b ≤ A.thingsPerArena := Nat.le_trans h.start_le h.le
  have hfirst : (if s.newFreeSpanStart ≠ 0 then s.newFreeSpanStart else s.nextFree.first) =
      A.cell b := by
    have hpos := A.cell_pos b
    rw [h.newFreeSpanStart_eq]
    by_cases hba : b = a
    · rw [if_pos hba, if_neg (by omega), h.oldList.2.1, hba]
      rfl
    · rw [if_neg hba, if_pos (by omega)]
  have hlinked : A.Linked (s.mem.write s.newListTail (A.lastSpan b)) .newListHead new s.newListTail :=
    h.linked.write_stop h.ascending hb before_newListHead
  have hlist := hlinked.freeSpanList h.ascending hb write_self
  obtain ⟨offsets', hset, hget⟩ := hlist.reload
  refine ⟨s.mem.write s.newListTail (A.lastSpan b), offsets', _, ?_, hget, hlist⟩
  have haligned := A.isAligned_cell b
  simp only [Sweep.finish, hclear, hfirst, haligned, guard_true, if_false, Option.bind_eq_bind,
    Option.pure_def, Option.bind_some, Bool.false_eq_true]
  rw [show (⟨A.cell b, A.lastByte⟩ : FreeSpan) = A.lastSpan b from rfl, hset]
  rfl

/-- Cells that were free, by number and by address. -/
theorem FreeSpanList.wasFree_eq (h : A.FreeSpanList mem head spans a) {k : ℕ}
    (hk : k < A.thingsPerArena) :
    A.wasFree spans a k = decide (A.cell k ∈ A.freeCells spans a) := by
  rw [wasFree, decide_eq_decide]
  exact (h.cell_mem_iff hk).symm

/-- The things that were finalized, by address. -/
theorem SweepInv.finalizedThings_eq (h : A.SweepInv isMarked mem head spans a a s [] new b)
    (hlist : A.FreeSpanList mem head spans a) :
    finalizedThings s.log =
      A.cells.filter fun c => !decide (c ∈ A.freeCells spans a) && !isMarked c := by
  have hle := h.le
  have hsum : a + (A.thingsPerArena - a) = A.thingsPerArena := by omega
  have hnone : (List.range' a (A.thingsPerArena - a)).filter (A.isFinalized isMarked spans a) = [] := by
    rw [List.filter_eq_nil_iff]
    intro k hk
    have hk' := List.mem_range'_1.mp hk
    have hmem : k ∈ A.freeNumbers spans a := by
      rw [h.wasFree_iff k hk'.1]
      exact hk
    rw [(isReleased_of_mem hmem).1]
    exact Bool.false_ne_true
  have hrange : (List.range a).filter (A.isFinalized isMarked spans a) =
      (List.range A.thingsPerArena).filter (A.isFinalized isMarked spans a) := by
    rw [← hsum, filter_range_add, hnone, List.append_nil]
  rw [h.finalized_eq, hrange]
  apply map_cell_filter
  intro k hk
  rw [isFinalized, hlist.wasFree_eq hk]

/-- The cells of the new list, by address. -/
theorem SweepInv.freeCells_eq (h : A.SweepInv isMarked mem head spans a a s [] new b)
    (hlist : A.FreeSpanList mem head spans a) :
    A.freeCells new b = A.cells.filter fun c => decide (c ∈ A.freeCells spans a) || !isMarked c := by
  rw [freeCells, h.freeNumbers_eq]
  apply map_cell_filter
  intro k hk
  rw [isReleased, hlist.wasFree_eq hk]

/-- Whether no thing was marked, by address. -/
theorem SweepInv.allClear_iff (h : A.SweepInv isMarked mem head spans a a s [] new b)
    (hlist : A.FreeSpanList mem head spans a) :
    s.allClear = true ↔ ∀ c ∈ A.cells, c ∉ A.freeCells spans a → isMarked c = false := by
  rw [h.clear_iff]
  apply Iff.intro
  · intro hall c hc hfree
    obtain ⟨k, hk, rfl⟩ := List.mem_map.mp hc
    have hkn := List.mem_range.mp hk
    rw [hlist.cell_mem_iff hkn] at hfree
    rcases Nat.lt_or_ge k a with hlt | hge
    · have hreleased := hall k hlt
      rw [(isFinalized_eq hfree).2] at hreleased
      exact Bool.eq_false_of_not_eq_true' hreleased
    · rw [h.wasFree_iff k hge] at hfree
      exact absurd (List.mem_range'_1.mpr ⟨hge, by omega⟩) hfree
  · intro hall k hk
    have hkn : k < A.thingsPerArena := Nat.lt_of_lt_of_le hk h.le
    by_cases hfree : k ∈ A.freeNumbers spans a
    · exact (isReleased_of_mem hfree).2
    · rw [(isFinalized_eq hfree).2, hall (A.cell k) (List.mem_map_of_mem (List.mem_range.mpr hkn))
        ((hlist.cell_mem_iff hkn).not.mpr hfree)]
      rfl

/-- The sweep of an arena that is not one free span. Each thing that is neither free nor marked is
finalized once, each link is read before it is overwritten, and unless no thing is marked the arena
gets a list of the cells that were free or are not marked. Requests after that get these cells in
order, and then nothing. -/
theorem finalize_correct (A : Arena) (isMarked : ℕ → Bool) (junk : ℕ → FreeSpan) {mem : Memory}
    {offsets : ℕ} {head : FreeSpan} {spans : List (ℕ × ℕ)} {a : ℕ}
    (hheader : A.getFirstFreeSpan mem offsets = some head)
    (hlist : A.FreeSpanList mem head spans a) (hne : head ≠ A.lastSpan 0) :
    ∃ r, A.finalize isMarked junk mem offsets = some r ∧ A.cells.Pairwise (· < ·) ∧
      finalizedThings r.log =
        A.cells.filter (fun c => !decide (c ∈ A.freeCells spans a) && !isMarked c) ∧
      (∀ c ∈ A.links spans, ReadFirst r.log c (mem (.cell c))) ∧
      (r.allClear = true ↔ ∀ c ∈ A.cells, c ∉ A.freeCells spans a → isMarked c = false) ∧
      (r.allClear = false → ∃ head' spans' a',
        A.getFirstFreeSpan r.mem r.firstFreeSpanOffsets = some head' ∧
        A.FreeSpanList r.mem head' spans' a' ∧
        A.freeCells spans' a' =
          A.cells.filter (fun c => decide (c ∈ A.freeCells spans a) || !isMarked c) ∧
        ∀ (inUse : List ℕ) (requests : List Request), (∀ c ∈ inUse, c ∉ A.freeCells spans' a') →
          Allocator.run A ⟨head', r.mem, inUse⟩ requests =
            some ((List.range (allocations requests)).map fun t => (A.freeCells spans' a')[t]?)) := by
  have hloop : ∃ s new b, A.sweepThings isMarked junk (A.thingsPerArena + 1) (A.cell 0)
      ⟨mem, head, .newListHead, 0, true, []⟩ = some s ∧
        A.SweepInv isMarked mem head spans a a s [] new b :=
    (sweepInv_start hlist).sweepThings_eq (by omega)
  obtain ⟨s, new, b, hsweep, hinv⟩ := hloop
  have hfinalize : A.finalize isMarked junk mem offsets = s.finish A offsets := by
    rw [cell_zero] at hsweep
    simp only [finalize, hheader, hsweep, Option.bind_eq_bind, Option.bind_some]
  have hread : ∀ c ∈ A.links spans, ReadFirst s.log c (mem (.cell c)) := by
    intro c hc
    rcases hinv.readFirst c hc with hold | hread
    · cases hold
    · exact hread
  have hfinalized := hinv.finalizedThings_eq hlist
  have hclear := hinv.allClear_iff hlist
  rcases hcase : s.allClear with _ | _
  · obtain ⟨mem', offsets', head', hfinish, hget, hlist'⟩ := hinv.finish_list hcase offsets
    refine ⟨_, hfinalize.trans hfinish, A.pairwise_cells, ?_, ?_, ?_, fun _ => ?_⟩
    · rw [finalizedThings, List.filterMap_append, ← finalizedThings, hfinalized]
      exact List.append_nil _
    · intro c hc
      exact (hread c hc).append _
    · rw [← hclear, hcase]
    · refine ⟨head', new, b, hget, hlist', hinv.freeCells_eq hlist, ?_⟩
      intro inUse requests huse
      exact Allocator.run_eq requests (s := ⟨head', mem', inUse⟩) hlist' huse
  · refine ⟨_, hfinalize.trans (hinv.finish_clear hne hcase offsets), A.pairwise_cells, hfinalized,
      hread, ?_, by rintro ⟨⟩⟩
    rw [← hclear, hcase]

/-- An arena of four things, whose first one is free. -/
def sampleArena : Arena where
  address := 4096
  aligned := by decide
  address_lt := by decide
  thingSize := 1016
  cellSize_dvd := by decide
  sizeofFreeSpan_le := by decide
  thingSize_le := by decide

/-- The span in the first cell of the sample is the empty one at the end. -/
def sampleMemory : Memory
  | .newListHead => ⟨0, 0⟩
  | .cell _ => ⟨8192, 8191⟩

/-- The third thing of the sample is marked. What is left is taken in order. -/
theorem finalize_correct_sample :
    ∃ r head', sampleArena.finalize (fun c => c == 6160) (fun _ => ⟨0, 0⟩) sampleMemory
        2097184 = some r ∧
      finalizedThings r.log = [5144, 7176] ∧ ReadFirst r.log 4128 ⟨8192, 8191⟩ ∧
      Allocator.run sampleArena ⟨head', r.mem, [6160]⟩
        [.allocate, .reload, .write 6160 ⟨1, 1⟩, .allocate, .allocate, .allocate] =
          some [some 4128, some 5144, some 7176, none] := by
  have hheader : sampleArena.getFirstFreeSpan sampleMemory 2097184 = some ⟨4128, 4128⟩ := by
    decide +kernel
  have hlist : sampleArena.FreeSpanList sampleMemory ⟨4128, 4128⟩ [(0, 0)] 4 :=
    ⟨by decide +kernel, by decide +kernel, by decide +kernel, by decide +kernel, by decide +kernel,
      by decide +kernel, by decide +kernel⟩
  have hfree : sampleArena.freeCells [(0, 0)] 4 = [4128] := by decide +kernel
  have hcells : sampleArena.cells = [4128, 5144, 6160, 7176] := by decide +kernel
  obtain ⟨r, hr, _, hfinalized, hread, hclear, hinstalled⟩ :=
    finalize_correct sampleArena (fun c => c == 6160) (fun _ => ⟨0, 0⟩) hheader hlist
      (by decide +kernel)
  rw [hfree, hcells] at hfinalized hclear hinstalled
  have hmarked : r.allClear = false := by
    rw [← Bool.not_eq_true, hclear]
    decide
  obtain ⟨head', spans', a', _, _, hfree', hruns⟩ := hinstalled hmarked
  refine ⟨r, head', hr, hfinalized, hread 4128 (by decide +kernel), ?_⟩
  rw [hruns [6160] _ (by rw [hfree']; decide), hfree']
  decide

end SpiderMonkey.Gc.Arena
