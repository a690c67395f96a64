import SpiderMonkey.Gc.HeapNewList

/-!
# The sweep of an arena

The invariant of the loop is about the number of the next thing. What is left of the old list is
from there on, where nothing was written yet; the new list, with the span that has started, has the
cells before that were free or are not marked.
-/

namespace SpiderMonkey.Gc.Arena

/-- Whether an event leaves something new in a cell. -/
def Event.Overwrites (c : ℕ) : Event → Prop
  | .readLink _ _ => False
  | .writeSpan ref => ref = .cell c
  | .finalizeThing thing => thing = c

/-- The span of a cell was read before anything was written there. -/
def ReadFirst (log : List Event) (c : ℕ) (span : FreeSpan) : Prop :=
  ∃ before after, log = before ++ .readLink c span :: after ∧ ∀ e ∈ before, ¬ e.Overwrites c

/-- The things that were finalized, in order. -/
def finalizedThings (log : List Event) : List ℕ :=
  log.filterMap fun e =>
    match e with
    | .finalizeThing thing => some thing
    | _ => none

section Loop

variable (A : Arena) (isMarked : ℕ → Bool) (mem₀ : Memory) (head : FreeSpan)
  (spans₀ : List (ℕ × ℕ)) (a₀ : ℕ)

/-- A cell that was free. -/
def wasFree (k : ℕ) : Bool := decide (k ∈ A.freeNumbers spans₀ a₀)

/-- A cell that is free after the sweep. -/
def isReleased (k : ℕ) : Bool := A.wasFree spans₀ a₀ k || !isMarked (A.cell k)

/-- A cell whose thing is finalized. -/
def isFinalized (k : ℕ) : Bool := !A.wasFree spans₀ a₀ k && !isMarked (A.cell k)

/-- The invariant of the loop: the next thing has number `i`, and the span of the new list that has
started, if `b` is not `i`, starts at `b`. -/
structure SweepInv (i : ℕ) (s : Sweep) (old new : List (ℕ × ℕ)) (b : ℕ) : Prop where
  /-- The loop is within the arena. -/
  le : i ≤ A.thingsPerArena
  /-- What is left of the old list. -/
  oldList : A.FreeSpanList mem₀ s.nextFree old a₀
  /-- It is not behind. -/
  le_start : i ≤ start old a₀
  /-- It has the free cells from here on. -/
  wasFree_iff : ∀ k, i ≤ k → (k ∈ A.freeNumbers spans₀ a₀ ↔ k ∈ A.freeNumbers old a₀)
  /-- Nothing was written from here on. -/
  mem_eq : ∀ k, i ≤ k → k < A.thingsPerArena →
    s.mem (.cell (A.cell k)) = mem₀ (.cell (A.cell k))
  /-- Nothing of the old list was followed before the first thing. -/
  nextFree_eq : i = 0 → s.nextFree = head
  /-- The spans of the new list are linked. -/
  linked : A.Linked s.mem .newListHead new s.newListTail
  /-- They are before the span that has started. -/
  ascending : Ascending 2 0 new b
  /-- That span is before here. -/
  start_le : b ≤ i
  /-- Where it starts. -/
  newFreeSpanStart_eq : s.newFreeSpanStart = if b = i then 0 else A.cell b
  /-- The new list has the cells that were free or are not marked. -/
  numbers_eq : spanNumbers new ++ List.range' b (i - b) =
    (List.range i).filter (A.isReleased isMarked spans₀ a₀)
  /-- All cells so far are in the span that has started. -/
  clear : s.allClear = true → new = [] ∧ b = 0
  /-- Whether no thing was marked. -/
  clear_iff : s.allClear = true ↔ ∀ k < i, A.isReleased isMarked spans₀ a₀ k = true
  /-- The things that were finalized. -/
  finalized_eq : finalizedThings s.log =
    ((List.range i).filter (A.isFinalized isMarked spans₀ a₀)).map A.cell
  /-- Links that are not to come were read. -/
  readFirst : ∀ c ∈ A.links spans₀, c ∈ A.links old ∨ ReadFirst s.log c (mem₀ (.cell c))
  /-- Cells from here on were not written. -/
  not_overwrites : ∀ k, i ≤ k → k < A.thingsPerArena → ∀ e ∈ s.log, ¬ e.Overwrites (A.cell k)

end Loop

variable {A : Arena} {isMarked : ℕ → Bool} {junk : ℕ → FreeSpan} {mem₀ : Memory} {head : FreeSpan}
  {spans₀ old new : List (ℕ × ℕ)} {a₀ b i j : ℕ} {s : Sweep} {log : List Event}

/-- What was read first stays so. -/
theorem ReadFirst.append {c : ℕ} {span : FreeSpan} (h : ReadFirst log c span) (later : List Event) :
    ReadFirst (log ++ later) c span := by
  obtain ⟨before, after, rfl, hbefore⟩ := h
  refine ⟨before, after ++ later, ?_, hbefore⟩
  rw [List.append_assoc, List.cons_append]

/-- A loop over numbers goes on. -/
theorem filter_range_add {m n : ℕ} (p : ℕ → Bool) :
    (List.range (m + n)).filter p = (List.range m).filter p ++ (List.range' m n).filter p := by
  rw [List.range_eq_range', List.range_eq_range', ← List.filter_append]
  congr 1
  have happend := List.range'_append_1 (s := 0) (m := m) (n := n)
  rw [Nat.zero_add] at happend
  exact happend.symm

/-- A cell that is not free, or is not marked, or neither. -/
theorem isFinalized_eq (hfree : i ∉ A.freeNumbers spans₀ a₀) :
    A.isFinalized isMarked spans₀ a₀ i = !isMarked (A.cell i) ∧
      A.isReleased isMarked spans₀ a₀ i = !isMarked (A.cell i) := by
  have hwas : A.wasFree spans₀ a₀ i = false := decide_eq_false hfree
  rw [isFinalized, isReleased, hwas]
  exact ⟨rfl, rfl⟩

/-- A free cell is released, and not finalized. -/
theorem isReleased_of_mem (hfree : i ∈ A.freeNumbers spans₀ a₀) :
    A.isFinalized isMarked spans₀ a₀ i = false ∧
      A.isReleased isMarked spans₀ a₀ i = true := by
  have hwas : A.wasFree spans₀ a₀ i = true := decide_eq_true hfree
  rw [isFinalized, isReleased, hwas]
  exact ⟨rfl, rfl⟩

section Steps

variable (h : A.SweepInv isMarked mem₀ head spans₀ a₀ i s old new b)
include h

/-- What is left of the old list is still in memory. -/
theorem SweepInv.freeSpanList : A.FreeSpanList s.mem s.nextFree old a₀ := by
  apply h.oldList.congr
  intro c hc
  have hasc := h.oldList.ascending (Nat.le_refl _)
  obtain ⟨k, hk, rfl⟩ := exists_of_mem_links hasc c hc
  have hk' := hasc.mem_spanNumbers (Nat.le_refl 1) hk
  have hle := h.le_start
  have hend := h.oldList.le
  exact h.mem_eq k (by omega) (by omega)

/-- The place of the last span of the new list is before the span that has started. -/
theorem SweepInv.newListTail_ne {k : ℕ} (hk : b ≤ k) (hkn : k ≤ A.thingsPerArena) :
    s.newListTail ≠ .cell (A.cell k) := by
  rcases h.linked.stop_eq h.ascending with ⟨_, hstop⟩ | ⟨k', _, hk', hstop⟩
  · rw [← hstop]
    exact nofun
  · rw [hstop]
    exact before_cell (show k' < b by omega) k hk hkn

/-- The span that has started, with the thing here. -/
theorem SweepInv.startSpan_eq :
    s.startSpan (A.cell i) = { s with newFreeSpanStart := A.cell b } := by
  rw [Sweep.startSpan]
  by_cases hb : b = i
  · rw [if_pos (by rw [h.newFreeSpanStart_eq, if_pos hb]), hb]
  · have hstart : s.newFreeSpanStart = A.cell b := by rw [h.newFreeSpanStart_eq, if_neg hb]
    have hpos := A.cell_pos b
    rw [← hstart, if_neg (by omega)]

/-- Off the old list, the thing here is in the arena and is not free. -/
theorem SweepInv.not_free (hne : A.cell i ≠ s.nextFree.first) :
    i < A.thingsPerArena ∧ i < start old a₀ ∧ i ∉ A.freeNumbers spans₀ a₀ := by
  have hspan := h.oldList.isSpan
  have hlt : i < start old a₀ := by
    apply Nat.lt_of_le_of_ne h.le_start
    intro heq
    rw [hspan.first_eq, ← heq] at hne
    exact hne rfl
  refine ⟨Nat.lt_of_lt_of_le hlt hspan.le, hlt, ?_⟩
  rw [h.wasFree_iff i (Nat.le_refl i)]
  intro hmem
  have hle := (h.oldList.ascending (Nat.le_refl _)).mem_freeNumbers (Nat.le_refl 1) h.oldList.le hmem
  omega

end Steps

/-- The numbers of the new list, with some free cells more in the span that has started. -/
theorem SweepInv.numbers_add (h : A.SweepInv isMarked mem₀ head spans₀ a₀ i s old new b) {m : ℕ}
    (hm : ∀ k, i ≤ k → k < i + m → A.isReleased isMarked spans₀ a₀ k = true) :
    spanNumbers new ++ List.range' b (i + m - b) =
      (List.range (i + m)).filter (A.isReleased isMarked spans₀ a₀) := by
  have hle := h.start_le
  have hall : (List.range' i m).filter (A.isReleased isMarked spans₀ a₀) = List.range' i m := by
    rw [List.filter_eq_self]
    intro k hk
    rw [List.mem_range'_1] at hk
    exact hm k hk.1 hk.2
  have hsplit : List.range' b (i + m - b) = List.range' b (i - b) ++ List.range' i m := by
    have happend := List.range'_append_1 (s := b) (m := i - b) (n := m)
    rw [show b + (i - b) = i by omega, show i - b + m = i + m - b by omega] at happend
    exact happend.symm
  rw [filter_range_add, ← h.numbers_eq, hall, hsplit, List.append_assoc]

/-- Whether no thing was marked, with some cells more. -/
theorem SweepInv.clear_add (h : A.SweepInv isMarked mem₀ head spans₀ a₀ i s old new b) {m : ℕ}
    (hm : ∀ k, i ≤ k → k < i + m → A.isReleased isMarked spans₀ a₀ k = true) :
    s.allClear = true ↔ ∀ k < i + m, A.isReleased isMarked spans₀ a₀ k = true := by
  rw [h.clear_iff]
  apply Iff.intro
  · intro hclear k hk
    rcases Nat.lt_or_ge k i with hlt | hge
    · exact hclear k hlt
    · exact hm k hge hk
  · intro hclear k hk
    exact hclear k (by omega)

/-- A span of the old list is read and gone over. -/
theorem SweepInv.skip {rest : List (ℕ × ℕ)}
    (h : A.SweepInv isMarked mem₀ head spans₀ a₀ i s ((i, j) :: rest) new b) :
    ∃ s', (s.startSpan (A.cell i)).skipSpan = some s' ∧
      A.SweepInv isMarked mem₀ head spans₀ a₀ (j + 1) s' rest new b := by
  obtain ⟨hij, hj, hspan, hcheck, hrest⟩ := h.freeSpanList
  obtain ⟨_, _, _, _, hrest₀⟩ := h.oldList
  have hmem := h.mem_eq j hij hj
  have hlast : s.nextFree.last = A.cell j := by rw [hspan]; rfl
  have hasc := h.oldList.ascending (Nat.le_refl _)
  have hb := h.start_le
  have hfree : ∀ k, i ≤ k → k < i + (j + 1 - i) → k ∈ A.freeNumbers spans₀ a₀ := by
    intro k hk hkj
    rw [h.wasFree_iff k hk, freeNumbers, spanNumbers, List.flatMap_cons]
    apply List.mem_append_left
    apply List.mem_append_left
    exact List.mem_range'_1.mpr ⟨hk, hkj⟩
  have hsum : i + (j + 1 - i) = j + 1 := by omega
  refine ⟨{ s with
    newFreeSpanStart := A.cell b
    nextFree := s.mem (.cell (A.cell j))
    log := s.log ++ [.readLink (A.cell j) (s.mem (.cell (A.cell j)))] }, ?_, ?_⟩
  · rw [h.startSpan_eq, Sweep.skipSpan, FreeSpan.nextSpan]
    simp only [hcheck, hlast, A.cell_mod_two j, hrest.checkSpan, guard_true, Option.bind_eq_bind,
      Option.pure_def, Option.bind_some]
  · constructor
    · exact hj
    · rw [← hmem] at hrest₀
      exact hrest₀
    · exact (hasc.2.2).le_start
    · intro k hk
      have hni : k ∉ List.range' i (j + 1 - i) := by
        rw [List.mem_range'_1]
        omega
      rw [h.wasFree_iff k (by omega), freeNumbers, spanNumbers, List.flatMap_cons, List.append_assoc,
        List.mem_append]
      exact or_iff_right hni
    · intro k hk
      exact h.mem_eq k (by omega)
    · intro hzero
      omega
    · exact h.linked
    · exact h.ascending
    · omega
    · rw [if_neg (by omega)]
    · rw [← hsum]
      exact h.numbers_add fun k hk hkj => (isReleased_of_mem (hfree k hk hkj)).2
    · exact h.clear
    · rw [← hsum]
      exact h.clear_add fun k hk hkj => (isReleased_of_mem (hfree k hk hkj)).2
    · have hnone : (List.range' i (j + 1 - i)).filter (A.isFinalized isMarked spans₀ a₀) = [] := by
        rw [List.filter_eq_nil_iff]
        intro k hk
        rw [List.mem_range'_1] at hk
        rw [(isReleased_of_mem (hfree k hk.1 hk.2)).1]
        exact Bool.false_ne_true
      rw [finalizedThings, List.filterMap_append, ← finalizedThings, h.finalized_eq, ← hsum,
        filter_range_add, hnone, List.append_nil]
      exact List.append_nil _
    · intro c hc
      rcases h.readFirst c hc with hold | hread
      · rcases List.mem_cons.mp hold with heq | hmem'
        · apply Or.inr
          refine ⟨s.log, [], ?_, ?_⟩
          · rw [heq, hmem]
          · rw [heq]
            exact h.not_overwrites j hij hj
        · exact Or.inl hmem'
      · exact Or.inr (hread.append _)
    · intro k hk hkn e he
      rcases List.mem_append.mp he with he | he
      · exact h.not_overwrites k (by omega) hkn e he
      · rw [List.mem_singleton] at he
        rw [he]
        exact not_false

/-- The span that has started is written, before a thing that is kept. -/
theorem SweepInv.closeSpan_eq (h : A.SweepInv isMarked mem₀ head spans₀ a₀ i s old new b)
    (hi : i < A.thingsPerArena) (hb : b < i) (clear : Bool) :
    { s with allClear := clear }.closeSpan A (A.cell i) = some { s with
      mem := s.mem.write s.newListTail (A.innerSpan b (i - 1))
      newListTail := .cell (A.cell (i - 1))
      newFreeSpanStart := 0
      allClear := clear
      log := s.log ++ [.writeSpan s.newListTail] } := by
  have hprev : i - 1 < A.thingsPerArena := by omega
  have hcell : A.cell i = A.cell (i - 1) + A.thingSize := by
    have hsucc := cell_succ hprev
    rw [show i - 1 + 1 = i by omega] at hsucc
    exact hsucc
  have hstart : A.thingsStart + A.thingSize ≤ A.cell i := by
    rw [← cell_zero]
    exact cell_add_le (by omega) h.le
  have htail := A.tail_le (i - 1)
  have hoffset := cell_and_arenaMask hprev
  have heven : (A.cell (i - 1) &&& ArenaMask) % 2 = 0 := by
    obtain ⟨t, ht⟩ := A.eight_dvd_tail (i - 1)
    omega
  have haligned : (ArenaSize - (A.cell (i - 1) &&& ArenaMask)) % A.thingSize = 0 := by
    rw [hoffset, ArenaSize, show 2 ^ 12 - (4096 - A.tail (i - 1)) = A.tail (i - 1) by omega]
    exact A.tail_mod_thingSize _
  have hsub : A.cell i - A.thingSize = A.cell (i - 1) := by omega
  have hnew : s.newFreeSpanStart = A.cell b := by
    rw [h.newFreeSpanStart_eq, if_neg (Nat.ne_of_lt hb)]
  simp only [Sweep.closeSpan, FreeSpan.nextSpanUnchecked, hstart, hsub, heven, haligned, hnew,
    guard_true, Option.bind_eq_bind, Option.pure_def, Option.bind_some]
  rfl

/-- The invariant past a marked thing, once no span has started. -/
theorem SweepInv.past_marked (h : A.SweepInv isMarked mem₀ head spans₀ a₀ i s old new b)
    (hne : A.cell i ≠ s.nextFree.first) (hmarked : isMarked (A.cell i) = true) {mem : Memory}
    {tail : SpanRef} {new' : List (ℕ × ℕ)} {written : List Event}
    (hmem : ∀ k, i + 1 ≤ k → k < A.thingsPerArena → mem (.cell (A.cell k)) = s.mem (.cell (A.cell k)))
    (hlinked : A.Linked mem .newListHead new' tail) (hasc : Ascending 2 0 new' (i + 1))
    (hnumbers : spanNumbers new' = spanNumbers new ++ List.range' b (i - b))
    (hwritten : ∀ k, i + 1 ≤ k → k < A.thingsPerArena → ∀ e ∈ written, ¬ e.Overwrites (A.cell k))
    (hfinalized : finalizedThings written = []) :
    A.SweepInv isMarked mem₀ head spans₀ a₀ (i + 1) { s with
      mem := mem
      newListTail := tail
      newFreeSpanStart := 0
      allClear := false
      log := s.log ++ written } old new' (i + 1) := by
  obtain ⟨hi, hstart, hfree⟩ := h.not_free hne
  obtain ⟨hkept, hreleased⟩ := @isFinalized_eq A isMarked _ _ _ hfree
  rw [hmarked] at hkept hreleased
  constructor
  · exact hi
  · exact h.oldList
  · exact hstart
  · intro k hk
    exact h.wasFree_iff k (by omega)
  · intro k hk hkn
    exact (hmem k hk hkn).trans (h.mem_eq k (by omega) hkn)
  · intro hzero
    omega
  · exact hlinked
  · exact hasc
  · exact Nat.le_refl _
  · rw [if_pos rfl]
  · rw [hnumbers, h.numbers_eq, filter_range_add]
    simp only [Nat.sub_self, List.range'_zero, List.range'_one, List.filter_cons, List.filter_nil,
      hreleased, Bool.not_true, Bool.false_eq_true, if_false]
  · exact nofun
  · apply Iff.intro nofun
    intro hall
    have htrue := hall i (Nat.lt_succ_self i)
    rw [hreleased] at htrue
    exact absurd htrue Bool.false_ne_true
  · rw [finalizedThings, List.filterMap_append, ← finalizedThings, ← finalizedThings, hfinalized,
      h.finalized_eq, filter_range_add]
    simp only [List.range'_one, List.filter_cons, List.filter_nil, hkept, List.append_nil,
      Bool.not_true, Bool.false_eq_true, if_false]
  · intro c hc
    rcases h.readFirst c hc with hold | hread
    · exact Or.inl hold
    · exact Or.inr (hread.append _)
  · intro k hk hkn e he
    rcases List.mem_append.mp he with he | he
    · exact h.not_overwrites k (by omega) hkn e he
    · exact hwritten k hk hkn e he

/-- A marked thing is kept. -/
theorem SweepInv.keep (h : A.SweepInv isMarked mem₀ head spans₀ a₀ i s old new b)
    (hne : A.cell i ≠ s.nextFree.first) (hmarked : isMarked (A.cell i) = true) :
    ∃ s' new', s.keepThing A (A.cell i) = some s' ∧
      A.SweepInv isMarked mem₀ head spans₀ a₀ (i + 1) s' old new' (i + 1) := by
  have hi := (h.not_free hne).1
  rcases Nat.lt_or_eq_of_le h.start_le with hb | hb
  · refine ⟨{ s with
      mem := s.mem.write s.newListTail (A.innerSpan b (i - 1))
      newListTail := .cell (A.cell (i - 1))
      newFreeSpanStart := 0
      allClear := false
      log := s.log ++ [.writeSpan s.newListTail] }, new ++ [(b, i - 1)], ?_, ?_⟩
    · have hpos := A.cell_pos b
      have hstarted : s.newFreeSpanStart ≠ 0 := by
        rw [h.newFreeSpanStart_eq, if_neg (Nat.ne_of_lt hb)]
        omega
      rw [Sweep.keepThing, if_neg hstarted]
      exact h.closeSpan_eq hi hb false
    · have hbn : b ≤ A.thingsPerArena := by omega
      apply h.past_marked hne hmarked
      · intro k hk hkn
        exact write_of_ne (h.newListTail_ne (by omega) (by omega)).symm
      · exact h.linked.append h.ascending hbn before_newListHead
      · exact h.ascending.append (by omega) (by omega)
      · have hlength : i - 1 + 1 - b = i - b := by omega
        simp only [spanNumbers, List.flatMap_append, List.flatMap_cons, List.flatMap_nil,
          List.append_nil, hlength]
      · intro k hk hkn e he
        rw [List.mem_singleton] at he
        rw [he]
        exact h.newListTail_ne (by omega) (by omega)
      · rfl
  · have hzero : s.newFreeSpanStart = 0 := by rw [h.newFreeSpanStart_eq, if_pos hb]
    refine ⟨{ s with
      newFreeSpanStart := 0
      allClear := false
      log := s.log ++ [] }, new, ?_, ?_⟩
    · rw [Sweep.keepThing, if_pos hzero, List.append_nil, ← hzero]
    · apply h.past_marked hne hmarked
      · intro k _ _
        rfl
      · exact h.linked
      · exact h.ascending.mono (by omega)
      · rw [hb, Nat.sub_self]
        exact (List.append_nil _).symm
      · simp
      · rfl

/-- A thing that is neither free nor marked is finalized. -/
theorem SweepInv.free (junk : ℕ → FreeSpan)
    (h : A.SweepInv isMarked mem₀ head spans₀ a₀ i s old new b)
    (hne : A.cell i ≠ s.nextFree.first) (hmarked : isMarked (A.cell i) = false) :
    A.SweepInv isMarked mem₀ head spans₀ a₀ (i + 1) (s.freeThing junk (A.cell i)) old new b := by
  obtain ⟨hi, hstart, hfree⟩ := h.not_free hne
  obtain ⟨hfinalized, hreleased⟩ := @isFinalized_eq A isMarked _ _ _ hfree
  rw [hmarked] at hfinalized hreleased
  have hb := h.start_le
  have hall : ∀ k, i ≤ k → k < i + 1 → A.isReleased isMarked spans₀ a₀ k = true := by
    intro k hk hki
    rw [show k = i by omega]
    exact hreleased
  have heq : s.freeThing junk (A.cell i) = { s with
      mem := s.mem.write (.cell (A.cell i)) (junk (A.cell i))
      newFreeSpanStart := A.cell b
      log := s.log ++ [.finalizeThing (A.cell i)] } := by
    rw [Sweep.freeThing, h.startSpan_eq]
  rw [heq]
  constructor
  · exact hi
  · exact h.oldList
  · exact hstart
  · intro k hk
    exact h.wasFree_iff k (by omega)
  · intro k hk hkn
    have hother : SpanRef.cell (A.cell k) ≠ .cell (A.cell i) := by
      intro heq
      rw [SpanRef.cell.injEq] at heq
      have heq' := cell_inj (by omega) (by omega) heq
      omega
    exact (write_of_ne hother).trans (h.mem_eq k (by omega) hkn)
  · intro hzero
    omega
  · exact h.linked.write_cell h.ascending hb h.le before_newListHead
  · exact h.ascending
  · omega
  · rw [if_neg (by omega)]
  · exact h.numbers_add hall
  · exact h.clear
  · exact h.clear_add hall
  · rw [finalizedThings, List.filterMap_append, ← finalizedThings, h.finalized_eq,
      filter_range_add, List.map_append]
    congr 1
    simp only [List.range'_one, List.filter_cons, hfinalized]
    rfl
  · intro c hc
    rcases h.readFirst c hc with hold | hread
    · exact Or.inl hold
    · exact Or.inr (hread.append _)
  · intro k hk hkn e he
    rcases List.mem_append.mp he with he | he
    · exact h.not_overwrites k (by omega) hkn e he
    · rw [List.mem_singleton] at he
      rw [he]
      intro heq
      have heq' := cell_inj (by omega) (by omega) heq
      omega

/-- The loop ends at the last span of the old list, with the invariant. -/
theorem SweepInv.sweepThings_eq {fuel : ℕ}
    (h : A.SweepInv isMarked mem₀ head spans₀ a₀ i s old new b)
    (hfuel : A.thingsPerArena + 1 ≤ i + fuel) :
    ∃ s' new' b', A.sweepThings isMarked junk fuel (A.cell i) s = some s' ∧
      A.SweepInv isMarked mem₀ head spans₀ a₀ a₀ s' [] new' b' := by
  induction fuel generalizing i s old new b with
  | zero =>
    have hle := h.le
    omega
  | succ fuel ih =>
    have hguard := A.cell_le_lastByte_succ i
    have hlist := h.oldList
    have hspan := hlist.isSpan
    simp only [sweepThings, hguard, guard_true, Option.bind_eq_bind, Option.pure_def,
      Option.bind_some]
    by_cases hfirst : A.cell i = s.nextFree.first
    · have hi : i = start old a₀ := by
        rw [hspan.first_eq] at hfirst
        exact cell_inj h.le hspan.le hfirst
      rw [if_pos hfirst]
      cases old with
      | nil =>
        have hlast : s.nextFree.last = A.lastByte := by rw [hlist.2.1]; rfl
        have hia : i = a₀ := hi
        simp only [hlast, Nat.le_refl, guard_true, Option.pure_def, Option.bind_some, if_true]
        exact ⟨s, new, b, rfl, hia ▸ h⟩
      | cons pair rest =>
        obtain ⟨i', j⟩ := pair
        have hii : i = i' := hi
        subst hii
        obtain ⟨hij, hj, hinner, _⟩ := hlist
        have hlast : s.nextFree.last = A.cell j := by rw [hinner]; rfl
        have hle : A.cell j ≤ A.lastByte := Nat.le_of_lt (cell_lt_lastByte hj)
        obtain ⟨s', hskip, hinv⟩ := h.skip
        obtain ⟨s'', new', b', hsweep, hinv'⟩ := ih hinv (by omega)
        refine ⟨s'', new', b', ?_, hinv'⟩
        rw [← hsweep, cell_succ hj]
        simp only [hlast, hle, A.cell_ne_lastByte j, A.isAligned_cell j, hskip, guard_true,
          Option.pure_def, Option.bind_some, if_false]
    · have hi := (h.not_free hfirst).1
      rw [if_neg hfirst]
      by_cases hmarked : isMarked (A.cell i) = true
      · obtain ⟨s', new', hkeep, hinv⟩ := h.keep hfirst hmarked
        obtain ⟨s'', new'', b', hsweep, hinv'⟩ := ih hinv (by omega)
        refine ⟨s'', new'', b', ?_, hinv'⟩
        rw [if_pos hmarked, hkeep, Option.bind_some, ← cell_succ hi]
        exact hsweep
      · have hinv := h.free junk hfirst (Bool.eq_false_of_not_eq_true hmarked)
        obtain ⟨s'', new'', b', hsweep, hinv'⟩ := ih hinv (by omega)
        refine ⟨s'', new'', b', ?_, hinv'⟩
        rw [if_neg hmarked, ← cell_succ hi]
        exact hsweep

/-- The loop starts with the whole old list and no new one. -/
theorem sweepInv_start (h : A.FreeSpanList mem₀ head spans₀ a₀) :
    A.SweepInv isMarked mem₀ head spans₀ a₀ 0 ⟨mem₀, head, .newListHead, 0, true, []⟩ spans₀ [] 0 := by
  constructor
  · exact Nat.zero_le _
  · exact h
  · exact Nat.zero_le _
  · intro k _
    exact Iff.rfl
  · intro k _ _
    rfl
  · intro _
    rfl
  · rfl
  · exact Nat.le_refl 0
  · exact Nat.le_refl 0
  · rfl
  · rfl
  · intro _
    exact ⟨rfl, rfl⟩
  · exact ⟨fun _ k hk => absurd hk (Nat.not_lt_zero k), fun _ => rfl⟩
  · rfl
  · intro c hc
    exact Or.inl hc
  · intro k _ _ e he
    cases he

end SpiderMonkey.Gc.Arena
