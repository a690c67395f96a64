import SpiderMonkey.Gc.HeapSpans

/-!
# The list a sweep makes

While the new list grows, all its spans but the last are linked from the local head to the place
where the last one will be written. Each cell that is written then is before the cells still to be
swept, so what is linked stays as it is.
-/

namespace SpiderMonkey.Gc.Arena

variable (A : Arena)

/-- Spans linked from one place to another, which holds nothing yet. -/
def Linked (mem : Memory) : SpanRef → List (ℕ × ℕ) → SpanRef → Prop
  | ref, [], stop => ref = stop
  | ref, (i, j) :: rest, stop =>
    mem ref = A.innerSpan i j ∧ Linked mem (.cell (A.cell j)) rest stop

/-- A place that is not a cell from some number on. -/
def Before (ref : SpanRef) (lo : ℕ) : Prop :=
  ∀ k, lo ≤ k → k ≤ A.thingsPerArena → ref ≠ .cell (A.cell k)

variable {A} {mem : Memory} {ref stop : SpanRef} {value : FreeSpan} {spans : List (ℕ × ℕ)}
  {a i j k lo : ℕ}

/-- What was written is read. -/
theorem write_self : mem.write ref value ref = value := by
  rw [Memory.write]
  exact Function.update_self ref value mem

/-- Other places keep what they have. -/
theorem write_of_ne (h : ref ≠ stop) : mem.write stop value ref = mem ref := by
  rw [Memory.write]
  exact Function.update_of_ne h value mem

/-- The local head is not a cell. -/
theorem before_newListHead : A.Before .newListHead lo := by
  intro k _ _ h
  cases h

/-- A cell is not a later one. -/
theorem before_cell (h : j < lo) : A.Before (.cell (A.cell j)) lo := by
  intro k hk hle heq
  rw [SpanRef.cell.injEq] at heq
  have heq' := cell_inj (by omega) hle heq
  omega

/-- A place before some cells is before later ones. -/
theorem Before.mono (h : A.Before ref i) (hij : i ≤ j) : A.Before ref j := by
  intro k hk
  exact h k (Nat.le_trans hij hk)

/-- The end of linked spans is where they start, or one of their cells. -/
theorem Linked.stop_eq (h : A.Linked mem ref spans stop) (hasc : Ascending 2 lo spans a) :
    (spans = [] ∧ ref = stop) ∨ ∃ k, lo ≤ k ∧ k + 2 ≤ a ∧ stop = .cell (A.cell k) := by
  induction spans generalizing ref lo with
  | nil => exact Or.inl ⟨rfl, h⟩
  | cons pair rest ih =>
    obtain ⟨hlo, hij, hrest⟩ := hasc
    apply Or.inr
    rcases ih h.2 hrest with ⟨hnil, hstop⟩ | ⟨k, hk, hka, hstop⟩
    · exact ⟨pair.2, by omega, hrest.le, hstop.symm⟩
    · exact ⟨k, by omega, hka, hstop⟩

/-- Linked spans stay when their end is written. -/
theorem Linked.write_stop (h : A.Linked mem ref spans stop) (hasc : Ascending 2 lo spans a)
    (ha : a ≤ A.thingsPerArena) (href : A.Before ref lo) :
    A.Linked (mem.write stop value) ref spans stop := by
  induction spans generalizing ref lo with
  | nil => exact h
  | cons pair rest ih =>
    have hne : ref ≠ stop := by
      rcases h.stop_eq hasc with ⟨hnil, _⟩ | ⟨k, hk, hka, rfl⟩
      · cases hnil
      · exact href k hk (by omega)
    apply And.intro
    · rw [write_of_ne hne]
      exact h.1
    · exact ih h.2 hasc.2.2 (before_cell (by omega))

/-- Linked spans stay when a cell after them is written. -/
theorem Linked.write_cell (h : A.Linked mem ref spans stop) (hasc : Ascending 2 lo spans a)
    (hk : a ≤ k) (hkn : k ≤ A.thingsPerArena) (href : A.Before ref lo) :
    A.Linked (mem.write (.cell (A.cell k)) value) ref spans stop := by
  induction spans generalizing ref lo with
  | nil => exact h
  | cons pair rest ih =>
    apply And.intro
    · rw [write_of_ne (href k (Nat.le_trans hasc.le hk) hkn)]
      exact h.1
    · exact ih h.2 hasc.2.2 (before_cell (by omega))

/-- Writing a span at the end of linked spans links one more. -/
theorem Linked.append (h : A.Linked mem ref spans stop) (hasc : Ascending 2 lo spans a)
    (ha : a ≤ A.thingsPerArena) (href : A.Before ref lo) :
    A.Linked (mem.write stop (A.innerSpan i j)) ref (spans ++ [(i, j)]) (.cell (A.cell j)) := by
  induction spans generalizing ref lo with
  | nil =>
    cases h
    exact ⟨write_self, rfl⟩
  | cons pair rest ih =>
    have hstay : A.Linked (mem.write stop (A.innerSpan i j)) ref (pair :: rest) stop :=
      h.write_stop hasc ha href
    exact ⟨hstay.1, ih h.2 hasc.2.2 (before_cell (by omega))⟩

/-- Linked spans and a last one are a list. -/
theorem Linked.freeSpanList (h : A.Linked mem ref spans stop) (hasc : Ascending 2 lo spans a)
    (ha : a ≤ A.thingsPerArena) (hstop : mem stop = A.lastSpan a) :
    A.FreeSpanList mem (mem ref) spans a := by
  induction spans generalizing ref lo with
  | nil =>
    cases h
    rw [hstop]
    exact ⟨ha, rfl, checkSpan_lastSpan ha⟩
  | cons pair rest ih =>
    obtain ⟨hlo, hij, hrest⟩ := hasc
    have hlist := ih h.2 hrest
    have hle := hrest.le
    have hj : pair.2 < A.thingsPerArena := by omega
    refine ⟨hij, hj, h.1, ?_, hlist⟩
    rw [h.1, checkSpan_innerSpan_iff hij hj hlist.isSpan]
    apply And.intro
    · have htail := tail_eq_add hj
      have hnext := thingSize_le_tail (show pair.2 + 1 < A.thingsPerArena by omega)
      have hbounds := A.thingSize_bounds
      omega
    · have hstart := hrest.le_start
      omega

end SpiderMonkey.Gc.Arena
