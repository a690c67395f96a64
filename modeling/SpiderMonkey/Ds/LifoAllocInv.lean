import SpiderMonkey.Ds.LifoAlloc
import Mathlib.Data.List.Perm.Subperm

/-!
# Positions of an allocator

The position of an allocator is the list of its chunks up to the latest one, each with its bump
pointer. Positions grow while blocks are allocated, and a mark is a position to go back to. The
chunks after the latest one have nothing in them, whatever their bump pointers are.
-/

namespace SpiderMonkey.Ds

/-- A chunk at an address is laid out within the address space. -/
structure BumpChunk.Wf (c : ℕ) (chunk : BumpChunk) : Prop where
  aligned : 8 ∣ c
  limit_eq : chunk.limit = c + 32 + chunk.bumpSpaceSize
  limit_lt : chunk.limit < 2 ^ 64
  le_bump : c + 32 ≤ chunk.bump
  bump_le : chunk.bump ≤ chunk.limit

/-- The chunks in memory are laid out, and apart from each other. -/
structure Heap.Wf (h : Heap) : Prop where
  nodup : h.addresses.Nodup
  mem_iff : ∀ c, c ∈ h.addresses ↔ (h.chunk c).isSome
  wf : ∀ c chunk, h.chunk c = some chunk → chunk.Wf c
  apart : ∀ c chunk c' chunk', h.chunk c = some chunk → h.chunk c' = some chunk' → c ≠ c' →
    chunk.limit ≤ c' ∨ chunk'.limit ≤ c

/-- The size of the chunk at an address. -/
def Heap.sizeOf (h : Heap) (c : ℕ) : ℕ :=
  ((h.chunk c).map fun chunk => chunk.computedSizeOfIncludingThis c).getD 0

/-- Chunks with their bump pointers, the latest one at the end. -/
abbrev Position := List (ℕ × ℕ)

/-- The chunks of a position. -/
def Position.chunks (u : Position) : List ℕ := u.map Prod.fst

/-- A position grows: the last chunk is filled further, and others come after it. -/
def Extends (u v : Position) : Prop :=
  u = [] ∨ ∃ pre c p b post, u = pre ++ [(c, p)] ∧ v = pre ++ (c, b) :: post ∧ p ≤ b

/-- Blocks do not overlap. -/
def Block.Apart (b b' : Block) : Prop :=
  b.start + b.size ≤ b'.start ∨ b'.start + b'.size ≤ b.start

/-- Blocks are aligned, and each is in a chunk of a position, before its bump pointer. -/
def BlocksIn (u : Position) (blocks : List Block) : Prop :=
  ∀ b ∈ blocks, 8 ∣ b.start ∧ ∃ cb ∈ u, cb.1 + 32 ≤ b.start ∧ b.start + b.size ≤ cb.2

/-- A mark is that of a position. -/
def Mark.IsAt (m : Mark) (u : Position) : Prop :=
  match u.getLast? with
  | none => m.chunk = none
  | some (c, p) => m.chunk = some c ∧ m.markInChunk = p ∧ c + 32 ≤ p

/-- Marks are those of positions that grew to the next one and to the present one, and the blocks
that there were then are in the position. -/
def MarksIn : Position → List Block → List Mark → Prop
  | _, _, [] => True
  | u, blocks, m :: marks => ∃ v, Extends v u ∧ m.IsAt v ∧ m.blocks ≤ blocks.length ∧
      BlocksIn v (blocks.take m.blocks) ∧ MarksIn v (blocks.take m.blocks) marks

/-- The blocks and marks of an allocator, at a position. -/
structure Holds (u : Position) (blocks : List Block) (marks : List Mark) : Prop where
  blocksIn : BlocksIn u blocks
  apart : blocks.Pairwise Block.Apart
  marksIn : MarksIn u blocks marks

/-- The chain of an allocator: the chunks of its position, and then unused ones. -/
structure IsChain (h : Heap) (a : LifoAlloc) (u : Position) (after : List ℕ) : Prop where
  linked : Linked h.next a.first (u.chunks ++ after)
  nodup : (u.chunks ++ after).Nodup
  bump_eq : ∀ cb ∈ u, ∃ chunk, h.chunk cb.1 = some chunk ∧ chunk.bump = cb.2
  isSome : ∀ c ∈ after, (h.chunk c).isSome
  latest_eq : a.latest = u.getLast?.map Prod.fst
  last_eq : a.last = (u.chunks ++ after).getLast?
  after_eq : u = [] → after = []
  curSize_eq : a.curSize_ = ((u.chunks ++ after).map h.sizeOf).sum
  default_eq : ∃ k, a.defaultChunkSize_ = 2 ^ k
  le_default : sizeofBumpChunk ≤ a.defaultChunkSize_

variable {h h' : Heap} {a : LifoAlloc} {u v w : Position} {after : List ℕ} {blocks : List Block}
  {marks : List Mark} {c p b n : ℕ} {chunk : BumpChunk}

/-- Alignment goes up to a multiple of eight. -/
theorem alignPtr_spec (p : ℕ) : 8 ∣ alignPtr p ∧ p ≤ alignPtr p ∧ alignPtr p < p + 8 := by
  rw [alignPtr, LIFO_ALLOC_ALIGN]
  refine ⟨Nat.dvd_mul_left 8 _, ?_, ?_⟩ <;> omega

/-- Aligned addresses stay. -/
theorem alignPtr_of_dvd (hp : 8 ∣ p) : alignPtr p = p := by
  rw [alignPtr, LIFO_ALLOC_ALIGN]
  omega

/-- The start of the data of a chunk. -/
theorem BumpChunk.Wf.bumpBase_eq (hw : chunk.Wf c) : chunk.bumpBase = c + 32 := by
  rw [BumpChunk.bumpBase, hw.limit_eq]
  omega

/-- What a chunk contains. -/
theorem BumpChunk.Wf.contains_iff (hw : chunk.Wf c) :
    chunk.Contains p ↔ c + 32 ≤ p ∧ p ≤ chunk.limit := by
  rw [BumpChunk.Contains, hw.bumpBase_eq]

/-- The bump pointer can move within the chunk. -/
theorem BumpChunk.Wf.setBump_eq (hw : chunk.Wf c) (hle : c + 32 ≤ p) (hlimit : p ≤ chunk.limit) :
    chunk.setBump p = some { chunk with bump := p } := by
  have hp : chunk.Contains p := hw.contains_iff.mpr ⟨hle, hlimit⟩
  have hbump : chunk.Contains chunk.bump := hw.contains_iff.mpr ⟨hw.le_bump, hw.bump_le⟩
  simp only [BumpChunk.setBump, hp, hbump, guard_true, Option.bind_eq_bind, Option.pure_def,
    Option.bind_some]

/-- A position extends itself. -/
theorem Extends.refl (u : Position) : Extends u u := by
  rcases List.eq_nil_or_concat u with rfl | ⟨pre, ⟨c, p⟩, rfl⟩
  · exact Or.inl rfl
  · exact Or.inr ⟨pre, c, p, p, [], List.concat_eq_append, List.concat_eq_append, Nat.le_refl p⟩

/-- Growing further. -/
theorem Extends.trans (huv : Extends u v) (hvw : Extends v w) : Extends u w := by
  rcases huv with rfl | ⟨pre, c, p, b, post, rfl, rfl, hpb⟩
  · exact Or.inl rfl
  rcases hvw with hnil | ⟨pre', c', p', b', post', hv, rfl, hpb'⟩
  · exact absurd hnil (List.append_ne_nil_of_right_ne_nil _ (List.cons_ne_nil _ _))
  apply Or.inr
  rcases List.eq_nil_or_concat post with rfl | ⟨post, last, rfl⟩
  · obtain ⟨rfl, hlast⟩ := List.append_inj' hv rfl
    rw [List.cons.injEq, Prod.mk.injEq] at hlast
    obtain ⟨⟨rfl, rfl⟩, _⟩ := hlast
    exact ⟨pre, c, p, b', post', rfl, rfl, Nat.le_trans hpb hpb'⟩
  · rw [List.concat_eq_append, ← List.cons_append, ← List.append_assoc] at hv
    obtain ⟨rfl, _⟩ := List.append_inj' hv rfl
    refine ⟨pre, c, p, b, post ++ (c', b') :: post', rfl, ?_, hpb⟩
    rw [List.append_assoc, List.cons_append]

/-- More chunks come after a position. -/
theorem extends_append (u extra : Position) : Extends u (u ++ extra) := by
  rcases List.eq_nil_or_concat u with rfl | ⟨pre, ⟨c, p⟩, rfl⟩
  · exact Or.inl rfl
  · refine Or.inr ⟨pre, c, p, p, extra, List.concat_eq_append, ?_, Nat.le_refl p⟩
    rw [List.concat_eq_append, List.append_assoc]
    rfl

/-- The last chunk is filled further. -/
theorem extends_last {pre : Position} (hpb : p ≤ b) : Extends (pre ++ [(c, p)]) (pre ++ [(c, b)]) :=
  Or.inr ⟨pre, c, p, b, [], rfl, rfl, hpb⟩

/-- Blocks stay in a position that grows. -/
theorem BlocksIn.mono (hb : BlocksIn u blocks) (huv : Extends u v) : BlocksIn v blocks := by
  intro block hblock
  obtain ⟨hdvd, ⟨c, q⟩, hmem, hstart, hend⟩ := hb block hblock
  rcases huv with rfl | ⟨pre, c', p, b, post, rfl, rfl, hpb⟩
  · cases hmem
  · rcases List.mem_append.mp hmem with hpre | hlast
    · exact ⟨hdvd, _, List.mem_append_left _ hpre, hstart, hend⟩
    · rw [List.mem_singleton] at hlast
      cases hlast
      exact ⟨hdvd, _, List.mem_append_right _ List.mem_cons_self, hstart, Nat.le_trans hend hpb⟩

/-- Marks stay when a position grows and blocks are added. -/
theorem MarksIn.mono (hm : MarksIn u blocks marks) (huv : Extends u v) (more : List Block) :
    MarksIn v (blocks ++ more) marks := by
  cases marks with
  | nil => trivial
  | cons m marks =>
    obtain ⟨w, hwu, hat, hle, hblocks, hmarks⟩ := hm
    refine ⟨w, hwu.trans huv, hat, ?_, ?_, ?_⟩
    · rw [List.length_append]
      omega
    · rw [List.take_append_of_le_length hle]
      exact hblocks
    · rw [List.take_append_of_le_length hle]
      exact hmarks

/-- What an allocator holds stays when its position grows. -/
theorem Holds.mono (hh : Holds u blocks marks) (huv : Extends u v) : Holds v blocks marks := by
  refine ⟨hh.blocksIn.mono huv, hh.apart, ?_⟩
  have hmono := hh.marksIn.mono huv []
  rw [List.append_nil] at hmono
  exact hmono

/-- The present position is marked. -/
theorem Holds.mark (hh : Holds u blocks marks) {m : Mark} (hat : m.IsAt u)
    (hlength : m.blocks = blocks.length) : Holds u blocks (m :: marks) := by
  refine ⟨hh.blocksIn, hh.apart, ?_⟩
  refine ⟨u, Extends.refl u, hat, Nat.le_of_eq hlength, ?_, ?_⟩
  · rw [hlength, List.take_length]
    exact hh.blocksIn
  · rw [hlength, List.take_length]
    exact hh.marksIn

/-- Going back to the newest mark. -/
theorem Holds.release {m : Mark} (hh : Holds u blocks (m :: marks)) :
    ∃ v, Extends v u ∧ m.IsAt v ∧ Holds v (blocks.take m.blocks) marks := by
  obtain ⟨v, hvu, hat, _, hblocks, hmarks⟩ := hh.marksIn
  exact ⟨v, hvu, hat, hblocks, hh.apart.sublist (List.take_sublist _ _), hmarks⟩

/-- Nothing is held anywhere. -/
theorem holds_nil (u : Position) : Holds u [] [] :=
  ⟨nofun, List.Pairwise.nil, trivial⟩

/-- A chain depends on its own chunks. -/
theorem IsChain.congr (hc : IsChain h a u after)
    (heq : ∀ c ∈ u.chunks ++ after, h'.chunk c = h.chunk c) : IsChain h' a u after := by
  have hsize : (u.chunks ++ after).map h'.sizeOf = (u.chunks ++ after).map h.sizeOf := by
    apply List.map_congr_left
    intro c hmem
    rw [Heap.sizeOf, heq c hmem, Heap.sizeOf]
  constructor
  · apply hc.linked.congr
    intro c hmem
    rw [Heap.next, heq c hmem, Heap.next]
  · exact hc.nodup
  · intro cb hmem
    rw [heq cb.1 (List.mem_append_left _ (List.mem_map_of_mem hmem))]
    exact hc.bump_eq cb hmem
  · intro c hmem
    rw [heq c (List.mem_append_right _ hmem)]
    exact hc.isSome c hmem
  · exact hc.latest_eq
  · exact hc.last_eq
  · exact hc.after_eq
  · rw [hsize]
    exact hc.curSize_eq
  · exact hc.default_eq
  · exact hc.le_default

/-- The chunks of a chain are in memory. -/
theorem IsChain.exists_chunk (hc : IsChain h a u after) (hmem : c ∈ u.chunks ++ after) :
    ∃ chunk, h.chunk c = some chunk := by
  rcases List.mem_append.mp hmem with hu | hafter
  · obtain ⟨cb, hcb, rfl⟩ := List.mem_map.mp hu
    obtain ⟨chunk, hchunk, _⟩ := hc.bump_eq cb hcb
    exact ⟨chunk, hchunk⟩
  · exact Option.isSome_iff_exists.mp (hc.isSome c hafter)

theorem IsChain.chunk_isSome (hc : IsChain h a u after) (hmem : c ∈ u.chunks ++ after) :
    (h.chunk c).isSome :=
  Option.isSome_iff_exists.mpr (hc.exists_chunk hmem)

/-- A chain is no longer than the list of all chunks. -/
theorem IsChain.length_le (hc : IsChain h a u after) (hw : h.Wf) :
    (u.chunks ++ after).length ≤ h.addresses.length := by
  apply (List.subperm_of_subset hc.nodup _).length_le
  intro c hmem
  exact (hw.mem_iff c).mpr (hc.chunk_isSome hmem)

end SpiderMonkey.Ds
