import SpiderMonkey.Gc.HeapNewList

/-!
# Allocation from an arena

Cells are taken off the list one by one, while the head of the list may be stored to the header of
the arena and read from it again, and the program may write anything in the cells that it uses.
-/

namespace SpiderMonkey.Gc.Arena

variable {A : Arena} {mem : Memory} {span : FreeSpan} {spans : List (ℕ × ℕ)} {a i j k : ℕ}

/-- The offsets of a span, as one number. -/
theorem encodeOffsets_eq {first last : ℕ} (hfirst : first ≤ 4096) (hlast : last < 4096)
    (hle : first ≤ (last + 1) / 2 * 2) :
    FreeSpan.encodeOffsets first last = some (2 ^ 16 * last + first) := by
  have hor : first ||| (last <<< 16) = 2 ^ 16 * last + first := by
    have hlt : first < 2 ^ 16 := by omega
    rw [Nat.two_pow_add_eq_or_of_lt hlt, Nat.or_comm, Nat.shiftLeft_eq, Nat.mul_comm]
  have hfirst' : first ≤ ArenaSize := hfirst
  have hlast' : last < ArenaSize := hlast
  simp only [FreeSpan.encodeOffsets, hfirst', hlast', hle, hor, guard_true, Option.bind_eq_bind,
    Option.pure_def, Option.bind_some]

/-- Offsets within an arena are read as they were written. -/
theorem decodeOffsets_eq {first last : ℕ} (A : Arena) (hfirst : first ≤ 4096) (hlast : last < 4096)
    (hcheck : FreeSpan.checkSpan mem ⟨A.address + first, A.address + last⟩) :
    FreeSpan.decodeOffsets mem A.address (2 ^ 16 * last + first) =
      some ⟨A.address + first, A.address + last⟩ := by
  obtain ⟨q, hq⟩ := A.exists_address_eq
  have haligned : A.address &&& ArenaMask = 0 := by
    rw [and_arenaMask]
    omega
  have hlow : (2 ^ 16 * last + first) &&& 0xFFFF = first := by
    rw [show 0xFFFF = 2 ^ 16 - 1 from rfl, Nat.and_two_pow_sub_one_eq_mod]
    omega
  have hhigh : (2 ^ 16 * last + first) >>> 16 = last := by
    rw [Nat.shiftRight_eq_div_pow]
    omega
  have hor : A.address ||| last = A.address + last := by
    have hlt : last < 2 ^ 12 := hlast
    rw [hq]
    exact (Nat.two_pow_add_eq_or_of_lt hlt q).symm
  have hfirst' : first ≤ ArenaSize := hfirst
  have hlast' : last < ArenaSize := hlast
  simp only [FreeSpan.decodeOffsets, haligned, hlow, hhigh, hor, hcheck, hfirst', hlast', guard_true,
    Option.bind_eq_bind, Option.pure_def, Option.bind_some]

/-- The offsets of a span of the arena give it back. -/
theorem IsSpan.encodeAsOffsets (h : A.IsSpan span i) (hcheck : span.checkSpan mem) :
    ∃ offsets, span.encodeAsOffsets mem = some offsets ∧
      FreeSpan.decodeOffsets mem A.address offsets = some span := by
  have hfirst := h.first_eq
  have hcell := A.cell_add_tail i
  have htail := A.tail_le i
  have hsub : span.first - A.address = 4096 - A.tail i := by omega
  -- the end of the span, as an offset
  have hlast : ∃ last, span.last &&& ArenaMask = last ∧ span.last = A.address + last ∧
      last < 4096 ∧ 4096 - A.tail i ≤ (last + 1) / 2 * 2 := by
    rcases h with ⟨j, hij, hj, rfl⟩ | ⟨hi, rfl⟩
    · have hj' := A.cell_add_tail j
      have hle := thingSize_le_tail hj
      have hbounds := A.thingSize_bounds
      have htailj := A.tail_le j
      obtain ⟨t, ht⟩ := A.eight_dvd_tail j
      have hmono : A.tail j ≤ A.tail i := by
        rcases Nat.lt_or_eq_of_le hij with hlt | heq
        · exact Nat.le_trans (Nat.le_add_right _ _) (tail_add_le hlt (Nat.le_of_lt hj))
        · rw [heq]
      refine ⟨4096 - A.tail j, cell_and_arenaMask hj, ?_, by omega, by omega⟩
      simp only [innerSpan]
      omega
    · refine ⟨4095, ?_, A.lastByte_eq, by omega, by omega⟩
      simp only [lastSpan, A.lastByte_and_arenaMask]
      rfl
  obtain ⟨last, hmask, hlast, hlt, hle⟩ := hlast
  have hspan : span = ⟨A.address + (4096 - A.tail i), A.address + last⟩ := by
    rw [← hlast, show A.address + (4096 - A.tail i) = span.first by omega]
  refine ⟨2 ^ 16 * last + (4096 - A.tail i), ?_, ?_⟩
  · simp only [FreeSpan.encodeAsOffsets, FreeSpan.arenaAddress, hcheck, guard_true,
      h.arenaAddress_eq, hsub, hmask, Option.bind_eq_bind, Option.pure_def, Option.bind_some]
    exact encodeOffsets_eq (by omega) hlt hle
  · rw [hspan] at hcheck
    rw [A.decodeOffsets_eq (by omega) hlt hcheck, ← hspan]

/-- The size of things is made of cells. -/
theorem thingSize_mod (A : Arena) : A.thingSize % CellSize = 0 :=
  Nat.mod_eq_zero_of_dvd A.cellSize_dvd

/-- Nothing is left of an empty list. -/
theorem FreeSpanList.allocate_nil (h : A.FreeSpanList mem span spans a)
    (hnil : A.freeNumbers spans a = []) : span.allocate mem A.thingSize = some (none, span) := by
  rw [freeNumbers, List.append_eq_nil_iff, List.range'_eq_nil_iff] at hnil
  cases spans with
  | nil =>
    obtain ⟨ha, hspan, hcheck⟩ := h
    have heq : a = A.thingsPerArena := by omega
    have hend : A.cell a = A.lastByte + 1 := by
      rw [heq, cell_thingsPerArena]
      rfl
    have hlt : ¬ span.first < span.last := by
      rw [hspan]
      simp only [lastSpan]
      omega
    have hne : ¬ span.first = span.last := by
      rw [hspan]
      simp only [lastSpan]
      omega
    simp only [FreeSpan.allocate, A.thingSize_mod, hcheck, guard_true, Option.bind_eq_bind,
      Option.pure_def, Option.bind_some, if_neg hlt, if_neg hne]
  | cons pair rest =>
    obtain ⟨hij, _⟩ := h
    have hlength := congrArg List.length hnil.1
    rw [spanNumbers, List.flatMap_cons, List.length_append, List.length_range',
      List.length_nil] at hlength
    omega

/-- Taking a cell off the span of more than one. -/
theorem allocate_of_lt (hcheck : span.checkSpan mem) (hlt : span.first < span.last)
    (hcheck' : FreeSpan.checkSpan mem ⟨span.first + A.thingSize, span.last⟩) :
    span.allocate mem A.thingSize = some (some span.first, ⟨span.first + A.thingSize, span.last⟩) := by
  simp only [FreeSpan.allocate, A.thingSize_mod, hcheck, hcheck', hlt, guard_true, if_true,
    Option.bind_eq_bind, Option.pure_def, Option.bind_some]

/-- The first cell of a list is taken off it. -/
theorem FreeSpanList.allocate_cons {rest : List ℕ} (h : A.FreeSpanList mem span spans a)
    (hcons : A.freeNumbers spans a = k :: rest) :
    ∃ span' spans' a', span.allocate mem A.thingSize = some (some (A.cell k), span') ∧
      A.FreeSpanList mem span' spans' a' ∧ A.freeNumbers spans' a' = rest := by
  cases spans with
  | nil =>
    obtain ⟨ha, hspan, hcheck⟩ := h
    have hlt : a < A.thingsPerArena := by
      by_contra hge
      rw [freeNumbers, show A.thingsPerArena - a = 0 by omega] at hcons
      cases hcons
    have hlength : A.thingsPerArena - a = A.thingsPerArena - (a + 1) + 1 := by omega
    rw [freeNumbers, hlength, List.range'_succ] at hcons
    obtain ⟨hk, hrest⟩ := List.cons.inj hcons
    have hcheck' : (A.lastSpan (a + 1)).checkSpan mem := checkSpan_lastSpan hlt
    refine ⟨A.lastSpan (a + 1), [], a + 1, ?_, ⟨hlt, rfl, hcheck'⟩, hrest⟩
    have hshort : A.lastSpan (a + 1) = ⟨A.cell a + A.thingSize, A.lastByte⟩ := by
      rw [lastSpan, cell_succ hlt]
    rw [hshort] at hcheck' ⊢
    rw [hspan] at hcheck ⊢
    rw [← hk]
    exact allocate_of_lt hcheck (cell_lt_lastByte hlt) hcheck'
  | cons pair spans =>
    obtain ⟨i, j⟩ := pair
    obtain ⟨hij, hj, hspan, hcheck, hnext⟩ := h
    have hcheck' := hcheck
    rw [hspan, checkSpan_innerSpan_iff hij hj hnext.isSpan] at hcheck'
    rw [freeNumbers, spanNumbers, List.flatMap_cons] at hcons
    rcases Nat.lt_or_eq_of_le hij with hlt | heq
    · have hlength : j + 1 - i = j + 1 - (i + 1) + 1 := by omega
      rw [hlength, List.range'_succ] at hcons
      obtain ⟨hk, hrest⟩ := List.cons.inj hcons
      have hi : i < A.thingsPerArena := by omega
      have hshort : (A.innerSpan (i + 1) j).checkSpan mem :=
        (checkSpan_innerSpan_iff hlt hj hnext.isSpan).mpr hcheck'
      refine ⟨A.innerSpan (i + 1) j, (i + 1, j) :: spans, a, ?_, ⟨hlt, hj, rfl, hshort, hnext⟩, hrest⟩
      have heq : A.innerSpan (i + 1) j = ⟨A.cell i + A.thingSize, A.cell j⟩ := by
        rw [innerSpan, cell_succ hi]
      rw [heq] at hshort ⊢
      rw [hspan] at hcheck ⊢
      rw [← hk]
      exact allocate_of_lt hcheck (cell_lt_cell hlt (Nat.le_of_lt hj)) hshort
    · subst heq
      rw [show i + 1 - i = 1 by omega, List.range'_one] at hcons
      obtain ⟨hk, hrest⟩ := List.cons.inj hcons
      refine ⟨mem (.cell (A.cell i)), spans, a, ?_, hnext, hrest⟩
      have hfirst : span.first = A.cell i := by rw [hspan]; rfl
      have hlast : span.last = A.cell i := by rw [hspan]; rfl
      simp only [FreeSpan.allocate, A.thingSize_mod, hcheck, guard_true, Option.bind_eq_bind,
        Option.pure_def, Option.bind_some, hfirst, hlast, Nat.lt_irrefl, if_false, if_true,
        hnext.checkSpan, ← hk]

/-- What the program and the collector do with an arena between two sweeps. -/
inductive Request where
  /-- Allocate a cell. -/
  | allocate
  /-- Store the head of the list to the header, and read it again. -/
  | reload
  /-- Write two words at the start of a cell that is in use. -/
  | write (address : ℕ) (words : FreeSpan)

/-- An arena that cells are allocated from. -/
structure Allocator where
  /-- The head of the list. -/
  head : FreeSpan
  /-- The words in memory. -/
  mem : Memory
  /-- The cells that the program uses. -/
  inUse : List ℕ

/-- Serve a request, with the result of each allocation. -/
def Allocator.serve (A : Arena) (s : Allocator) : Request → Option (Allocator × List (Option ℕ))
  | .allocate => do
    let (thing, head) ← s.head.allocate s.mem A.thingSize
    some ({ s with head := head, inUse := thing.toList ++ s.inUse }, [thing])
  | .reload => do
    let offsets ← A.setFirstFreeSpan s.mem s.head
    let head ← A.getFirstFreeSpan s.mem offsets
    some ({ s with head := head }, [])
  | .write address words =>
    if address ∈ s.inUse then some ({ s with mem := s.mem.write (.cell address) words }, [])
    else some (s, [])

/-- Serve requests in order. -/
def Allocator.run (A : Arena) : Allocator → List Request → Option (List (Option ℕ))
  | _, [] => some []
  | s, request :: rest => do
    let (s', results) ← s.serve A request
    let results' ← Allocator.run A s' rest
    some (results ++ results')

/-- The requests for a cell. -/
def allocations (requests : List Request) : ℕ :=
  requests.countP fun request =>
    match request with
    | .allocate => true
    | _ => false

/-- The head of the list is stored and read again. -/
theorem FreeSpanList.reload (h : A.FreeSpanList mem span spans a) :
    ∃ offsets, A.setFirstFreeSpan mem span = some offsets ∧
      A.getFirstFreeSpan mem offsets = some span := by
  obtain ⟨offsets, hencode, hdecode⟩ := h.isSpan.encodeAsOffsets h.checkSpan
  refine ⟨offsets, ?_, hdecode⟩
  simp only [setFirstFreeSpan, FreeSpan.arenaAddress, h.checkSpan, h.isSpan.arenaAddress_eq,
    hencode, guard_true, Option.bind_eq_bind, Option.pure_def, Option.bind_some]

/-- A cell that holds a link is free. -/
theorem FreeSpanList.mem_freeCells (h : A.FreeSpanList mem span spans a) {c : ℕ}
    (hc : c ∈ A.links spans) : c ∈ A.freeCells spans a := by
  obtain ⟨k, hk, rfl⟩ := exists_of_mem_links (h.ascending (Nat.le_refl _)) c hc
  exact List.mem_map_of_mem (List.mem_append_left _ hk)

/-- Requests are served from the list: each allocation gives the next free cell, while there is
one. -/
theorem Allocator.run_eq (requests : List Request) {s : Allocator}
    (h : A.FreeSpanList s.mem s.head spans a) (huse : ∀ c ∈ s.inUse, c ∉ A.freeCells spans a) :
    s.run A requests =
      some ((List.range (allocations requests)).map fun t => (A.freeCells spans a)[t]?) := by
  induction requests generalizing s spans a with
  | nil => rfl
  | cons request rest ih =>
    cases request with
    | allocate =>
      have hcount : allocations (.allocate :: rest) = allocations rest + 1 :=
        List.countP_cons_of_pos rfl
      have hresults : ∀ free : List ℕ,
          (List.range (allocations rest + 1)).map (fun t => free[t]?) =
            free[0]? :: (List.range (allocations rest)).map (fun t => free.tail[t]?) := by
        intro free
        rw [List.range_succ_eq_map, List.map_cons, List.map_map]
        congr 1
        apply List.map_congr_left
        intro t _
        rw [List.getElem?_tail]
        rfl
      rw [hcount, hresults]
      rcases hnumbers : A.freeNumbers spans a with _ | ⟨k, numbers⟩
      · have hfree : A.freeCells spans a = [] := by rw [freeCells, hnumbers, List.map_nil]
        have hrun := @ih spans a ⟨s.head, s.mem, s.inUse⟩ h huse
        simp only [Allocator.run, Allocator.serve, h.allocate_nil hnumbers, Option.bind_eq_bind,
          Option.bind_some, Option.toList_none, List.nil_append]
        rw [hrun, hfree]
        rfl
      · obtain ⟨head, spans', a', hallocate, hlist, hrest⟩ := h.allocate_cons hnumbers
        have hfree : A.freeCells spans a = A.cell k :: A.freeCells spans' a' := by
          rw [freeCells, hnumbers, List.map_cons, freeCells, hrest]
        have hlater : ∀ c ∈ A.freeCells spans' a', A.cell k < c := by
          have hpairwise := h.pairwise_freeCells
          rw [hfree, List.pairwise_cons] at hpairwise
          exact hpairwise.1
        have hrun := @ih spans' a' ⟨head, s.mem, A.cell k :: s.inUse⟩ hlist <| by
          intro c hc hmem
          rcases List.mem_cons.mp hc with rfl | hc
          · exact Nat.lt_irrefl _ (hlater _ hmem)
          · apply huse c hc
            rw [hfree]
            exact List.mem_cons_of_mem _ hmem
        simp only [Allocator.run, Allocator.serve, hallocate, Option.bind_eq_bind, Option.bind_some,
          Option.toList_some, List.singleton_append]
        rw [hrun, hfree]
        rfl
    | reload =>
      obtain ⟨offsets, hset, hget⟩ := h.reload
      have hrun := @ih spans a ⟨s.head, s.mem, s.inUse⟩ h huse
      simp only [Allocator.run, Allocator.serve, hset, hget, Option.bind_eq_bind, Option.bind_some,
        List.nil_append]
      rw [hrun]
      rfl
    | write address words =>
      have hcount : allocations (.write address words :: rest) = allocations rest :=
        List.countP_cons_of_neg Bool.false_ne_true
      rw [hcount]
      by_cases huses : address ∈ s.inUse
      · have hlist : A.FreeSpanList (s.mem.write (.cell address) words) s.head spans a := by
          apply h.congr
          intro c hc
          apply write_of_ne
          intro heq
          rw [SpanRef.cell.injEq] at heq
          exact huse address huses (heq ▸ h.mem_freeCells hc)
        have hrun := @ih spans a ⟨s.head, s.mem.write (.cell address) words, s.inUse⟩ hlist huse
        simp only [Allocator.run, Allocator.serve, if_pos huses, Option.bind_eq_bind,
          Option.bind_some, List.nil_append]
        rw [hrun]
        rfl
      · have hrun := ih h huse
        simp only [Allocator.run, Allocator.serve, if_neg huses, Option.bind_eq_bind,
          Option.bind_some, List.nil_append]
        rw [hrun]
        rfl

end SpiderMonkey.Gc.Arena
