import SpiderMonkey.Gc.HeapCells

/-!
# Lists of free spans

A list is given by the numbers of the first and the last cell of each span that has a next one, and
the number of the first cell of the last span. The assertions on a span say that it is before the
next one; the sweep makes lists in which a cell at least is between them.
-/

namespace SpiderMonkey.Gc.Arena

variable (A : Arena)

/-- The span of some cells, which has a next one. -/
def innerSpan (i j : ℕ) : FreeSpan := ⟨A.cell i, A.cell j⟩

/-- The span of all cells from one on. -/
def lastSpan (a : ℕ) : FreeSpan := ⟨A.cell a, A.lastByte⟩

/-- A list of free spans in memory: each is checked, and linked to the next in its last cell. -/
def FreeSpanList (mem : Memory) : FreeSpan → List (ℕ × ℕ) → ℕ → Prop
  | span, [], a => a ≤ A.thingsPerArena ∧ span = A.lastSpan a ∧ span.checkSpan mem
  | span, (i, j) :: rest, a =>
    i ≤ j ∧ j < A.thingsPerArena ∧ span = A.innerSpan i j ∧ span.checkSpan mem ∧
      FreeSpanList mem (mem (.cell (A.cell j))) rest a

/-- The numbers of the cells of spans. -/
def spanNumbers (spans : List (ℕ × ℕ)) : List ℕ :=
  spans.flatMap fun span => List.range' span.1 (span.2 + 1 - span.1)

/-- The numbers of the cells of a list, its last span included. -/
def freeNumbers (spans : List (ℕ × ℕ)) (a : ℕ) : List ℕ :=
  spanNumbers spans ++ List.range' a (A.thingsPerArena - a)

/-- The cells of a list. -/
def freeCells (spans : List (ℕ × ℕ)) (a : ℕ) : List ℕ := (A.freeNumbers spans a).map A.cell

/-- The cells that hold the link to a next span. -/
def links (spans : List (ℕ × ℕ)) : List ℕ := spans.map fun span => A.cell span.2

/-- The cells of the arena. -/
def cells : List ℕ := (List.range A.thingsPerArena).map A.cell

/-- Where a list starts. -/
def start : List (ℕ × ℕ) → ℕ → ℕ
  | [], a => a
  | (i, _) :: _, _ => i

/-- Spans in ascending order from a number on, each at a distance from what comes next. -/
def Ascending (gap : ℕ) : ℕ → List (ℕ × ℕ) → ℕ → Prop
  | lo, [], a => lo ≤ a
  | lo, (i, j) :: rest, a => lo ≤ i ∧ i ≤ j ∧ Ascending gap (j + gap) rest a

/-- A span of the arena that starts at a cell. -/
def IsSpan (span : FreeSpan) (i : ℕ) : Prop :=
  (∃ j, i ≤ j ∧ j < A.thingsPerArena ∧ span = A.innerSpan i j) ∨
    (i ≤ A.thingsPerArena ∧ span = A.lastSpan i)

variable {A} {mem mem' : Memory} {span : FreeSpan} {spans : List (ℕ × ℕ)} {a b i j k lo gap : ℕ}

/-- The last span is in the arena. -/
theorem arenaAddress_lastSpan (A : Arena) (a : ℕ) :
    (A.lastSpan a).arenaAddressUnchecked = A.address :=
  A.lastByte_sub_and

/-- Other spans are in the arena. -/
theorem arenaAddress_innerSpan (hj : j < A.thingsPerArena) :
    (A.innerSpan i j).arenaAddressUnchecked = A.address :=
  cell_sub_and hj

/-- The last span passes the assertions, also when it is empty. -/
theorem checkSpan_lastSpan (ha : a ≤ A.thingsPerArena) : (A.lastSpan a).checkSpan mem := by
  have hlt := A.address_lt
  have hlast := A.lastByte_eq
  have hcell := A.cell_add_tail a
  have hpos := A.cell_pos a
  have hcheck : (A.lastSpan a).CheckLast := by
    apply And.intro A.lastByte_and_arenaMask
    rcases Nat.lt_or_eq_of_le ha with hlt | heq
    · apply Or.inr
      apply And.intro
      · obtain ⟨t, ht⟩ := A.eight_dvd_tail a
        have hlength : (A.lastSpan a).last - (A.lastSpan a).first + 1 = 8 * t := by
          have hle := cell_lt_lastByte hlt
          simp only [lastSpan]
          omega
        rw [hlength]
        exact Nat.mul_mod_right 8 t
      · rw [arenaAddress_lastSpan]
        exact cell_sub_and hlt
    · apply Or.inl
      simp only [lastSpan, heq, cell_thingsPerArena]
      rfl
  simp only [ArenaSize] at hlt
  refine ⟨?_, ?_, ?_, ?_, ?_⟩
  · simp only [lastSpan]
    omega
  · simp only [lastSpan]
    omega
  · simp only [lastSpan]
    omega
  · simp only [lastSpan]
    omega
  · rw [if_pos (show (A.lastSpan a).last % 2 = 1 from A.lastByte_mod_two)]
    exact hcheck

/-- A span starts where it starts. -/
theorem IsSpan.first_eq (h : A.IsSpan span i) : span.first = A.cell i := by
  rcases h with ⟨j, _, _, rfl⟩ | ⟨_, rfl⟩
  · rfl
  · rfl

/-- A span starts at a cell, or is the empty one at the end. -/
theorem IsSpan.le (h : A.IsSpan span i) : i ≤ A.thingsPerArena := by
  rcases h with ⟨j, hij, hj, _⟩ | ⟨hi, _⟩
  · omega
  · exact hi

/-- A span of the arena is in the arena. -/
theorem IsSpan.arenaAddress_eq (h : A.IsSpan span i) : span.arenaAddressUnchecked = A.address := by
  rcases h with ⟨j, _, hj, rfl⟩ | ⟨_, rfl⟩
  · exact arenaAddress_innerSpan hj
  · exact A.arenaAddress_lastSpan i

/-- The span of the arena that ends before it starts is the empty one at the end. -/
theorem IsSpan.empty (h : A.IsSpan span i) (hlt : span.last < span.first) :
    span.first - 1 = span.last ∧ A.address + ArenaSize = span.first := by
  have hcell : i = A.thingsPerArena ∧ span = A.lastSpan i := by
    rcases h with ⟨j, hij, hj, rfl⟩ | ⟨hi, rfl⟩
    · have hle : A.cell i ≤ A.cell j := by
        rcases Nat.lt_or_eq_of_le hij with hij | heq
        · exact Nat.le_of_lt (cell_lt_cell hij (Nat.le_of_lt hj))
        · rw [heq]
      exact absurd hlt (Nat.not_lt_of_le hle)
    · apply And.intro ?_ rfl
      by_contra hne
      have hbefore : A.cell i < A.lastByte := cell_lt_lastByte (by omega)
      exact Nat.lt_asymm hlt hbefore
  obtain ⟨rfl, rfl⟩ := hcell
  simp only [lastSpan, cell_thingsPerArena]
  exact ⟨rfl, rfl⟩

/-- What the assertions say of a span that has a next one. -/
theorem checkSpan_innerSpan_iff (hij : i ≤ j) (hj : j < A.thingsPerArena)
    (hnext : A.IsSpan (mem (.cell (A.cell j))) k) :
    (A.innerSpan i j).checkSpan mem ↔ 24 ≤ A.tail j ∧ j < k := by
  have hlast : (A.innerSpan i j).last = A.cell j := rfl
  have heven := A.cell_mod_two j
  have hodd : ¬ (A.innerSpan i j).last % 2 = 1 := by omega
  have hle : A.tail j ≤ A.tail i := by
    rcases Nat.lt_or_eq_of_le hij with hij | heq
    · exact Nat.le_trans (Nat.le_add_right _ _) (tail_add_le hij (Nat.le_of_lt hj))
    · rw [heq]
  have hi' := A.cell_add_tail i
  have hj' := A.cell_add_tail j
  have hspace : ArenaSize - (A.cell j &&& ArenaMask) = A.tail j := by
    have htail := A.tail_le j
    rw [cell_and_arenaMask hj, ArenaSize]
    omega
  rw [FreeSpan.checkSpan, if_neg hodd, hlast, FreeSpan.CheckNext, hnext.first_eq,
    hnext.arenaAddress_eq, arenaAddress_innerSpan hj]
  apply Iff.intro
  · rintro ⟨_, _, _, _, _, _, _, hbefore, hlt, _⟩
    rw [hlast, hspace] at hbefore
    exact ⟨hbefore, (cell_lt_cell_iff (Nat.le_of_lt hj) hnext.le).mp hlt⟩
  · rintro ⟨hbefore, hlt⟩
    have hposi := A.cell_pos i
    have hposj := A.cell_pos j
    have haddr := A.address_lt
    simp only [ArenaSize] at haddr
    have hfirst : (A.innerSpan i j).first = A.cell i := rfl
    refine ⟨by omega, by omega, by omega, by omega, by omega, ?_, ?_, ?_, ?_, rfl, ?_⟩
    · obtain ⟨s, hs⟩ := A.eight_dvd_tail i
      obtain ⟨t, ht⟩ := A.eight_dvd_tail j
      rw [CellSize, hfirst, hlast]
      omega
    · exact cell_sub_and (Nat.lt_of_le_of_lt hij hj)
    · rw [hlast, hspace]
      exact hbefore
    · exact cell_lt_cell hlt hnext.le
    · intro hempty
      rw [← hnext.first_eq] at hempty ⊢
      exact hnext.empty hempty

/-- A list starts with a span of the arena. -/
theorem FreeSpanList.isSpan (h : A.FreeSpanList mem span spans a) : A.IsSpan span (start spans a) := by
  cases spans with
  | nil => exact Or.inr ⟨h.1, h.2.1⟩
  | cons pair rest =>
    obtain ⟨hij, hj, hspan, _⟩ := h
    exact Or.inl ⟨_, hij, hj, hspan⟩

/-- Each span passes the assertions. -/
theorem FreeSpanList.checkSpan (h : A.FreeSpanList mem span spans a) : span.checkSpan mem := by
  cases spans with
  | nil => exact h.2.2
  | cons pair rest => exact h.2.2.2.1

/-- The list ends within the arena. -/
theorem FreeSpanList.le (h : A.FreeSpanList mem span spans a) : a ≤ A.thingsPerArena := by
  induction spans generalizing span with
  | nil => exact h.1
  | cons pair rest ih => exact ih h.2.2.2.2

/-- Spans in ascending order start after the bound. -/
theorem Ascending.le_start (h : Ascending gap lo spans a) : lo ≤ start spans a := by
  cases spans with
  | nil => exact h
  | cons pair rest => exact h.1

/-- Spans in ascending order end after the bound. -/
theorem Ascending.le (h : Ascending gap lo spans a) : lo ≤ a := by
  induction spans generalizing lo with
  | nil => exact h
  | cons pair rest ih =>
    have hle := ih h.2.2
    have hlo := h.1
    have hij := h.2.1
    omega

/-- A lower bound may go down. -/
theorem Ascending.of_le (h : Ascending gap lo spans a) (hb : b ≤ lo) : Ascending gap b spans a := by
  cases spans with
  | nil => exact Nat.le_trans hb h
  | cons pair rest => exact ⟨Nat.le_trans hb h.1, h.2⟩

/-- The end may go up. -/
theorem Ascending.mono (h : Ascending gap lo spans a) (hab : a ≤ b) : Ascending gap lo spans b := by
  induction spans generalizing lo with
  | nil => exact Nat.le_trans h hab
  | cons pair rest ih => exact ⟨h.1, h.2.1, ih h.2.2⟩

/-- A span may come after the others. -/
theorem Ascending.append (h : Ascending gap lo spans i) (hij : i ≤ j) (hb : j + gap ≤ b) :
    Ascending gap lo (spans ++ [(i, j)]) b := by
  induction spans generalizing lo with
  | nil => exact ⟨h, hij, hb⟩
  | cons pair rest ih => exact ⟨h.1, h.2.1, ih h.2.2⟩

/-- The spans of a list are in ascending order, as the assertions have it. -/
theorem FreeSpanList.ascending (h : A.FreeSpanList mem span spans a) (hlo : lo ≤ start spans a) :
    Ascending 1 lo spans a := by
  induction spans generalizing span lo with
  | nil => exact hlo
  | cons pair rest ih =>
    obtain ⟨hij, hj, hspan, hcheck, hrest⟩ := h
    rw [hspan, checkSpan_innerSpan_iff hij hj hrest.isSpan] at hcheck
    exact ⟨hlo, hij, ih hrest hcheck.2⟩

/-- A list depends on the cells that hold its links. -/
theorem FreeSpanList.congr (h : A.FreeSpanList mem span spans a)
    (hmem : ∀ c ∈ A.links spans, mem' (.cell c) = mem (.cell c)) :
    A.FreeSpanList mem' span spans a := by
  induction spans generalizing span with
  | nil => exact ⟨h.1, h.2.1, h.2.1 ▸ checkSpan_lastSpan h.1⟩
  | cons pair rest ih =>
    obtain ⟨hij, hj, hspan, hcheck, hrest⟩ := h
    have hnext : mem' (.cell (A.cell pair.2)) = mem (.cell (A.cell pair.2)) :=
      hmem _ List.mem_cons_self
    have hrest' := ih hrest fun c hc => hmem c (List.mem_cons_of_mem _ hc)
    refine ⟨hij, hj, hspan, ?_, hnext ▸ hrest'⟩
    rw [hspan] at hcheck ⊢
    rw [checkSpan_innerSpan_iff hij hj hrest.isSpan] at hcheck
    rw [checkSpan_innerSpan_iff hij hj (hnext ▸ hrest'.isSpan)]
    exact hcheck

/-- The numbers of spans in ascending order are between their bounds. -/
theorem Ascending.mem_spanNumbers (h : Ascending gap lo spans a) (hgap : 1 ≤ gap)
    (hk : k ∈ spanNumbers spans) : lo ≤ k ∧ k < a := by
  induction spans generalizing lo with
  | nil => cases hk
  | cons pair rest ih =>
    obtain ⟨hlo, hij, hrest⟩ := h
    rw [spanNumbers, List.flatMap_cons, List.mem_append, List.mem_range'_1] at hk
    rcases hk with hk | hk
    · have hle := hrest.le
      omega
    · have hk' := ih hrest hk
      omega

/-- The numbers of spans in ascending order ascend. -/
theorem Ascending.pairwise_spanNumbers (h : Ascending gap lo spans a) (hgap : 1 ≤ gap) :
    (spanNumbers spans).Pairwise (· < ·) := by
  induction spans generalizing lo with
  | nil => exact List.Pairwise.nil
  | cons pair rest ih =>
    obtain ⟨hlo, hij, hrest⟩ := h
    rw [spanNumbers, List.flatMap_cons, List.pairwise_append]
    refine ⟨List.pairwise_lt_range', ih hrest, ?_⟩
    intro k hk k' hk'
    rw [List.mem_range'_1] at hk
    have hlt := hrest.mem_spanNumbers hgap hk'
    omega

/-- The free cells of a list are between its start and the end of the arena. -/
theorem Ascending.mem_freeNumbers (h : Ascending gap lo spans a) (hgap : 1 ≤ gap)
    (ha : a ≤ A.thingsPerArena) (hk : k ∈ A.freeNumbers spans a) :
    lo ≤ k ∧ k < A.thingsPerArena := by
  rw [freeNumbers, List.mem_append, List.mem_range'_1] at hk
  rcases hk with hk | hk
  · have hk' := h.mem_spanNumbers hgap hk
    omega
  · have hle := h.le
    omega

/-- The free cells of a list ascend. -/
theorem Ascending.pairwise_freeNumbers (h : Ascending gap lo spans a) (hgap : 1 ≤ gap) :
    (A.freeNumbers spans a).Pairwise (· < ·) := by
  rw [freeNumbers, List.pairwise_append]
  refine ⟨h.pairwise_spanNumbers hgap, List.pairwise_lt_range', ?_⟩
  intro k hk k' hk'
  rw [List.mem_range'_1] at hk'
  have hlt := h.mem_spanNumbers hgap hk
  omega

/-- The free cells of a list ascend. -/
theorem FreeSpanList.pairwise_freeCells (h : A.FreeSpanList mem span spans a) :
    (A.freeCells spans a).Pairwise (· < ·) := by
  have hasc := h.ascending (Nat.le_refl _)
  rw [freeCells, List.pairwise_map]
  apply (hasc.pairwise_freeNumbers (Nat.le_refl 1)).imp_of_mem
  intro k k' _ hk' hlt
  have hle := hasc.mem_freeNumbers (Nat.le_refl 1) h.le hk'
  exact cell_lt_cell hlt (Nat.le_of_lt hle.2)

/-- The cell of a link is free. -/
theorem exists_of_mem_links (h : Ascending gap lo spans a) (c : ℕ) (hc : c ∈ A.links spans) :
    ∃ k ∈ spanNumbers spans, c = A.cell k := by
  induction spans generalizing lo with
  | nil => cases hc
  | cons pair rest ih =>
    obtain ⟨_, hij, hrest⟩ := h
    rcases List.mem_cons.mp hc with heq | hmem
    · refine ⟨pair.2, List.mem_append_left _ ?_, heq⟩
      rw [List.mem_range'_1]
      omega
    · obtain ⟨k, hk, heq⟩ := ih hrest hmem
      exact ⟨k, List.mem_append_right _ hk, heq⟩

end SpiderMonkey.Gc.Arena
