import SpiderMonkey.Gc.Heap

/-!
# The cells of an arena

Cells are counted from the start of the arena, and the number after that of the last cell stands for
the end. What the assertions say of spans is said of these numbers.
-/

namespace SpiderMonkey.Gc.Arena

variable (A : Arena)

/-- The bytes from a cell to the end of the arena. -/
def tail (i : ℕ) : ℕ := (A.thingsPerArena - i) * A.thingSize

/-- The address of a cell. -/
def cell (i : ℕ) : ℕ := A.thingsEnd - A.tail i

variable {A} {i j : ℕ}

/-- The bits of an address within its arena. -/
theorem and_arenaMask (a : ℕ) : a &&& ArenaMask = a % 4096 :=
  Nat.and_two_pow_sub_one_eq_mod a 12

/-- A thing has space for a span, and fits after the header. -/
theorem thingSize_bounds (A : Arena) : 16 ≤ A.thingSize ∧ A.thingSize ≤ 4064 :=
  ⟨A.sizeofFreeSpan_le, A.thingSize_le⟩

/-- The address of an arena is a multiple of its size. -/
theorem exists_address_eq (A : Arena) : ∃ q, A.address = 4096 * q := A.aligned

/-- The distance from the end goes down by one thing. -/
theorem tail_eq_add (h : i < A.thingsPerArena) : A.tail i = A.tail (i + 1) + A.thingSize := by
  have hsub : A.thingsPerArena - i = A.thingsPerArena - (i + 1) + 1 := by omega
  rw [tail, tail, hsub, Nat.add_mul, Nat.one_mul]

/-- All things are after the header. -/
theorem tail_le (A : Arena) (i : ℕ) : A.tail i ≤ 4064 := by
  have hle : A.tail i ≤ A.thingsPerArena * A.thingSize :=
    Nat.mul_le_mul_right _ (Nat.sub_le _ _)
  exact Nat.le_trans hle (Nat.div_mul_le_self _ _)

/-- Distances from the end are made of cells. -/
theorem eight_dvd_tail (A : Arena) (i : ℕ) : 8 ∣ A.tail i :=
  Nat.dvd_trans A.cellSize_dvd (Nat.dvd_mul_left _ _)

/-- Things divide the distance from the end. -/
theorem tail_mod_thingSize (A : Arena) (i : ℕ) : A.tail i % A.thingSize = 0 :=
  Nat.mul_mod_left _ _

/-- There is nothing after the last cell. -/
@[simp] theorem tail_thingsPerArena (A : Arena) : A.tail A.thingsPerArena = 0 := by
  rw [tail, Nat.sub_self, Nat.zero_mul]

/-- A later cell is nearer to the end by its own size at least. -/
theorem tail_add_le (hij : i < j) (hj : j ≤ A.thingsPerArena) :
    A.tail j + A.thingSize ≤ A.tail i := by
  have hsub : A.thingsPerArena - j + 1 ≤ A.thingsPerArena - i := by omega
  calc
    A.tail j + A.thingSize = (A.thingsPerArena - j + 1) * A.thingSize := by
      rw [tail, Nat.add_mul, Nat.one_mul]
    _ ≤ A.tail i := Nat.mul_le_mul_right _ hsub

/-- A cell before the end has its own size after it. -/
theorem thingSize_le_tail (h : i < A.thingsPerArena) : A.thingSize ≤ A.tail i := by
  have h' := tail_add_le h (Nat.le_refl _)
  rw [tail_thingsPerArena] at h'
  omega

/-- The number after that of the last cell stands for the end. -/
@[simp] theorem cell_thingsPerArena (A : Arena) : A.cell A.thingsPerArena = A.thingsEnd := by
  rw [cell, tail_thingsPerArena, Nat.sub_zero]

/-- A cell, from the end of the arena. -/
theorem cell_add_tail (A : Arena) (i : ℕ) : A.cell i + A.tail i = A.address + 4096 := by
  have htail := A.tail_le i
  rw [cell, thingsEnd, ArenaSize]
  omega

/-- The cell after a cell. -/
theorem cell_succ (h : i < A.thingsPerArena) : A.cell (i + 1) = A.cell i + A.thingSize := by
  have htail := tail_eq_add h
  have hi := A.cell_add_tail i
  have hsucc := A.cell_add_tail (i + 1)
  omega

/-- The first cell is where the things start. -/
@[simp] theorem cell_zero (A : Arena) : A.cell 0 = A.thingsStart := by
  obtain ⟨q, hq⟩ := A.exists_address_eq
  have htail : A.tail 0 + 4064 % A.thingSize = 4064 := by
    rw [tail, Nat.sub_zero, thingsPerArena, Nat.mul_comm]
    exact Nat.div_add_mod 4064 A.thingSize
  have hoffset : A.firstThingOffset + A.tail 0 = 4096 := by
    have hdef : A.firstThingOffset = 32 + 4064 % A.thingSize := rfl
    omega
  have hlt : A.firstThingOffset < 2 ^ 12 := by
    have hpos : 0 < A.thingsPerArena :=
      Nat.div_pos A.thingSize_le (by have := A.thingSize_bounds; omega)
    have hle := thingSize_le_tail hpos
    have hbounds := A.thingSize_bounds
    omega
  have hor : A.thingsStart = A.address + A.firstThingOffset := by
    rw [thingsStart, hq]
    exact (Nat.two_pow_add_eq_or_of_lt hlt q).symm
  have hcell := A.cell_add_tail 0
  omega

/-- Cells are in the order of their numbers, and do not overlap. -/
theorem cell_add_le (hij : i < j) (hj : j ≤ A.thingsPerArena) :
    A.cell i + A.thingSize ≤ A.cell j := by
  have htail := tail_add_le hij hj
  have hi := A.cell_add_tail i
  have hcell := A.cell_add_tail j
  omega

/-- Cells are in the order of their numbers. -/
theorem cell_lt_cell (hij : i < j) (hj : j ≤ A.thingsPerArena) : A.cell i < A.cell j := by
  have hle := cell_add_le hij hj
  have hbounds := A.thingSize_bounds
  omega

/-- The order of addresses is that of numbers. -/
theorem cell_lt_cell_iff (hi : i ≤ A.thingsPerArena) (hj : j ≤ A.thingsPerArena) :
    A.cell i < A.cell j ↔ i < j := by
  apply Iff.intro
  · intro h
    by_contra hle
    rcases Nat.lt_or_eq_of_le (Nat.le_of_not_lt hle) with hlt | heq
    · exact Nat.lt_asymm h (cell_lt_cell hlt hi)
    · rw [heq] at h
      exact Nat.lt_irrefl _ h
  · intro h
    exact cell_lt_cell h hj

/-- A cell has one number. -/
theorem cell_inj (hi : i ≤ A.thingsPerArena) (hj : j ≤ A.thingsPerArena)
    (h : A.cell i = A.cell j) : i = j := by
  rcases Nat.lt_trichotomy i j with hlt | heq | hgt
  · exact absurd h (Nat.ne_of_lt (cell_lt_cell hlt hj))
  · exact heq
  · exact absurd h.symm (Nat.ne_of_lt (cell_lt_cell hgt hi))

/-- No cell is at zero. -/
theorem cell_pos (A : Arena) (i : ℕ) : 32 ≤ A.cell i := by
  have htail := A.tail_le i
  have hcell := A.cell_add_tail i
  omega

/-- The last byte, from the address of the arena. -/
theorem lastByte_eq (A : Arena) : A.lastByte = A.address + 4095 := by
  rw [lastByte, thingsEnd, ArenaSize]
  omega

/-- Every cell is aligned, and so is the end. -/
theorem isAligned_cell (A : Arena) (i : ℕ) : IsAligned (A.cell i) A.thingSize := by
  obtain ⟨q, hq⟩ := A.exists_address_eq
  have htail := A.tail_le i
  have hcell := A.cell_add_tail i
  have hlt := A.address_lt
  have hmod : ((2 ^ 64 + ArenaSize - A.cell i) % 2 ^ 64) % 4096 = A.tail i := by
    simp only [ArenaSize] at hlt ⊢
    omega
  rw [IsAligned, and_arenaMask, hmod]
  exact A.tail_mod_thingSize i

/-- Addresses are even. -/
theorem cell_mod_two (A : Arena) (i : ℕ) : A.cell i % 2 = 0 := by
  obtain ⟨q, hq⟩ := A.exists_address_eq
  obtain ⟨k, hk⟩ := A.eight_dvd_tail i
  have hcell := A.cell_add_tail i
  omega

/-- The place of a cell within its arena. -/
theorem cell_and_arenaMask (h : i < A.thingsPerArena) :
    A.cell i &&& ArenaMask = 4096 - A.tail i := by
  obtain ⟨q, hq⟩ := A.exists_address_eq
  have htail := A.tail_le i
  have hcell := A.cell_add_tail i
  have hle := thingSize_le_tail h
  have hbounds := A.thingSize_bounds
  rw [and_arenaMask]
  omega

/-- The arena of a cell. -/
theorem cell_sub_and (h : i < A.thingsPerArena) :
    A.cell i - (A.cell i &&& ArenaMask) = A.address := by
  have htail := A.tail_le i
  have hcell := A.cell_add_tail i
  rw [cell_and_arenaMask h]
  omega

/-- The last byte is the last of its arena. -/
theorem lastByte_and_arenaMask (A : Arena) : A.lastByte &&& ArenaMask = ArenaMask := by
  obtain ⟨q, hq⟩ := A.exists_address_eq
  rw [and_arenaMask, lastByte_eq, ArenaMask, ArenaSize]
  omega

/-- The arena of the last byte. -/
theorem lastByte_sub_and (A : Arena) : A.lastByte - (A.lastByte &&& ArenaMask) = A.address := by
  rw [lastByte_and_arenaMask, lastByte_eq, ArenaMask, ArenaSize]
  omega

/-- The last byte is odd. -/
theorem lastByte_mod_two (A : Arena) : A.lastByte % 2 = 1 := by
  obtain ⟨q, hq⟩ := A.exists_address_eq
  rw [lastByte_eq]
  omega

/-- The last byte is before the end, and not before any cell. -/
theorem cell_le_lastByte_succ (A : Arena) (i : ℕ) : A.cell i ≤ A.lastByte + 1 := by
  have hcell := A.cell_add_tail i
  rw [lastByte_eq]
  omega

/-- A cell before the end is at least a span before the last byte. -/
theorem cell_lt_lastByte (h : i < A.thingsPerArena) : A.cell i < A.lastByte := by
  have hle := thingSize_le_tail h
  have hbounds := A.thingSize_bounds
  have hcell := A.cell_add_tail i
  rw [lastByte_eq]
  omega

/-- No cell is the last byte. -/
theorem cell_ne_lastByte (A : Arena) (i : ℕ) : A.cell i ≠ A.lastByte := by
  intro h
  have hcell := A.cell_mod_two i
  have hlast := A.lastByte_mod_two
  rw [h, hlast] at hcell
  exact absurd hcell (by decide)

end SpiderMonkey.Gc.Arena
