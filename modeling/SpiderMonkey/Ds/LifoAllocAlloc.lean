import SpiderMonkey.Ds.LifoAllocGrow

/-!
# One allocator

A block comes after the bump pointer of the latest chunk, which an allocation first moves on where
that chunk has no space. What the operations on one allocator keep follows: a block is taken off, memory is
made sure of, a position is marked and gone back to, and all chunks are freed.
-/

namespace SpiderMonkey.Ds

section Allocation

variable {h h' : Heap} {a : LifoAlloc} {u pre extra : Position} {after : List ℕ}
  {blocks : List Block} {marks : List Mark} {c b n start : ℕ} {malloc : Option ℕ}

/-- The chunks of a position that has grown. -/
theorem chunks_append : (u ++ extra).chunks = u.chunks ++ extra.chunks := List.map_append

/-- The chunks that are passed. -/
theorem chunks_resetChunks (ds : List ℕ) : (resetChunks ds).chunks = ds := by
  rw [resetChunks, Position.chunks, List.map_map]
  exact List.map_id ds

/-- Chunks that are passed one after the other. -/
theorem resetChunks_append (ds ds' : List ℕ) :
    resetChunks (ds ++ ds') = resetChunks ds ++ resetChunks ds' := List.map_append

/-- There is a latest chunk if there is one at all. -/
theorem IsChain.ne_nil (hc : IsChain h a u after) (hfirst : a.first = some c) : u ≠ [] := by
  intro hu
  have hhead := hc.linked.head?_eq
  rw [hc.after_eq hu, hu, hfirst] at hhead
  cases hhead

/-- Without a first chunk there is none. -/
theorem IsChain.eq_nil (hc : IsChain h a u after) (hfirst : a.first = none) : u = [] := by
  have hhead := hc.linked.head?_eq
  rw [hfirst] at hhead
  have hnil := List.head?_eq_none_iff.mp hhead.symm
  exact List.map_eq_nil_iff.mp (List.append_eq_nil_iff.mp hnil).1

/-- Moving over unused chunks. -/
theorem moveToUnused_spec (hw : h.Wf) (hc : IsChain h a u after) (n : ℕ) :
    ∃ h' a' found ds rest, a.moveToUnused h n = some (h', a', found) ∧ h'.Wf ∧
      IsChain h' a' (u ++ resetChunks ds) rest ∧ a'.markCount = a.markCount ∧
      a'.defaultChunkSize_ = a.defaultChunkSize_ ∧ (found = false → rest = []) ∧
      (found = true → ds ≠ []) ∧
      Frame h h' (u.chunks ++ after) ((u ++ resetChunks ds).chunks ++ rest) ∧
      h'.addresses = h.addresses ∧ ∀ x, h'.sizeOf x = h.sizeOf x := by
  rw [LifoAlloc.moveToUnused]
  cases hfirst : a.first with
  | none =>
    obtain rfl := hc.eq_nil hfirst
    obtain rfl := hc.after_eq rfl
    exact ⟨h, a, false, [], [], rfl, hw, hc, rfl, rfl, fun _ => rfl, nofun, Frame.refl h _, rfl,
      fun _ => rfl⟩
  | some first =>
    obtain ⟨pre, c, b, chunk, hu, hlatest, hchunk, _⟩ := hc.exists_latest (hc.ne_nil hfirst)
    have hlength := hc.length_le hw
    rw [List.length_append] at hlength
    have hfuel : after.length < h.addresses.length + 1 := by omega
    obtain ⟨h', c', found, ds, rest, hfind, rfl, hw', hc', hrest, hds, haddr, hsizes, hother⟩ :=
      findUnused_spec (n := n) hw hc hlatest hfuel
    have hchunks : (u ++ resetChunks ds).chunks ++ rest = u.chunks ++ (ds ++ rest) := by
      rw [chunks_append, chunks_resetChunks, List.append_assoc]
    refine ⟨h', { a with latest := some c' }, found, ds, rest, ?_, hw', hc', rfl, rfl, hrest, hds,
      ?_, haddr, hsizes⟩
    · simp only [hlatest, hfind, Option.bind_eq_bind, Option.bind_some]
      rw [hfirst]
    · rw [hchunks]
      constructor
      · intro x hx _
        exact hother x fun hx' => hx (List.mem_append_right _ hx')
      · intro x hx
        exact Or.inl hx

/-- Moving to an unused chunk or to a new one. -/
theorem getOrCreateChunk_spec (hw : h.Wf) (hc : IsChain h a u after) (hn : n < 2 ^ 64)
    (hf : ∀ d size, malloc = some d → a.chunkSize n = some size → Fresh h size d) :
    ∃ h' a' found ds rest, a.getOrCreateChunk h n malloc = some (h', a', found) ∧ h'.Wf ∧
      IsChain h' a' (u ++ resetChunks ds) rest ∧ a'.markCount = a.markCount ∧
      (found = true → ds ≠ []) ∧
      Frame h h' (u.chunks ++ after) ((u ++ resetChunks ds).chunks ++ rest) := by
  obtain ⟨h₁, a₁, found, ds, rest, hmove, hw₁, hc₁, hmark₁, hdefault₁, hrest, hds, hframe₁, haddr,
    hsizes⟩ := moveToUnused_spec hw hc n
  simp only [LifoAlloc.getOrCreateChunk, hmove, Option.bind_eq_bind, Option.bind_some]
  cases found with
  | true => exact ⟨h₁, a₁, true, ds, rest, rfl, hw₁, hc₁, hmark₁, hds, hframe₁⟩
  | false =>
    obtain rfl := hrest rfl
    cases hsize : a₁.chunkSize n with
    | none => exact ⟨h₁, a₁, false, ds, [], rfl, hw₁, hc₁, hmark₁, nofun, hframe₁⟩
    | some size =>
      cases malloc with
      | none => exact ⟨h₁, a₁, false, ds, [], rfl, hw₁, hc₁, hmark₁, nofun, hframe₁⟩
      | some d =>
        have hsize' : a.chunkSize n = some size := by
          rw [← hsize, LifoAlloc.chunkSize, LifoAlloc.chunkSize, hdefault₁]
        have hfresh := hf d size rfl hsize'
        have hfresh₁ : Fresh h₁ size d := by
          refine ⟨hfresh.aligned, hfresh.lt, ?_⟩
          intro x hx
          rw [haddr] at hx
          rw [hsizes]
          exact hfresh.apart x hx
        obtain ⟨⟨k, hpow⟩, h32⟩ := chunkSize_spec hn hc₁.default_eq hc₁.le_default hsize
        obtain ⟨h₂, a₂, hadd, hw₂, hc₂, hmark₂, hframe₂⟩ := addChunk_spec hw₁ hc₁ hfresh₁ hpow h32
        rw [List.append_assoc, ← resetChunks_append] at hc₂ hframe₂
        rw [List.append_nil] at hframe₁
        refine ⟨h₂, a₂, true, ds ++ [d], [], ?_, hw₂, hc₂, hmark₂.trans hmark₁,
          fun _ => List.append_ne_nil_of_right_ne_nil _ (List.cons_ne_nil _ _), ?_⟩
        · simp only [hadd, if_false, Bool.false_eq_true, Option.bind_some]
        · rw [List.append_nil]
          exact hframe₁.trans hframe₂

/-- What a block is taken from: the latest chunk, after its bump pointer. -/
theorem tryAlloc_spec (hw : h.Wf) (hc : IsChain h a (pre ++ [(c, b)]) after)
    (hwrap : alignPtr b + n < 2 ^ 64 + b) :
    a.tryAlloc h n = some (h, none) ∨
      ∃ h' start, a.tryAlloc h n = some (h', some start) ∧ h'.Wf ∧
        IsChain h' a (pre ++ [(c, start + n)]) after ∧ 8 ∣ start ∧ b ≤ start ∧ c + 32 ≤ start ∧
        Frame h h' ((pre ++ [(c, b)]).chunks ++ after)
          ((pre ++ [(c, start + n)]).chunks ++ after) := by
  obtain ⟨chunk, hchunk, hbump⟩ := hc.bump_eq (c, b) (List.mem_append_right _ List.mem_cons_self)
  have hlatest : a.latest = some c := by
    rw [hc.latest_eq, List.getLast?_concat]
    rfl
  have hwf := hw.wf c chunk hchunk
  obtain ⟨hdvd, hle, hlt⟩ := alignPtr_spec b
  have hbump' : chunk.bump = b := hbump
  have hlimit := hwf.limit_lt
  have hble := hwf.le_bump
  by_cases hfits : alignPtr b + n ≤ chunk.limit
  · apply Or.inr
    have hmod : (alignPtr b + n) % addressSpace = alignPtr b + n := by
      apply Nat.mod_eq_of_lt
      rw [addressSpace]
      omega
    have hset := hwf.setBump_eq (p := alignPtr b + n) (by omega) hfits
    have htry : chunk.tryAlloc n =
        some (some (alignPtr b), { chunk with bump := alignPtr b + n }) := by
      have hgt : ¬chunk.limit < alignPtr b + n := Nat.not_lt.mpr hfits
      have hge : ¬alignPtr b + n < b := by omega
      simp only [BumpChunk.tryAlloc, hbump', hmod, hgt, hge, hset, if_false, Option.bind_eq_bind,
        Option.bind_some]
    refine ⟨_, alignPtr b, ?_, ?_, hc.setBump hchunk, hdvd, hle, by omega, ?_⟩
    · simp only [LifoAlloc.tryAlloc, hlatest, hchunk, htry, Option.bind_eq_bind, Option.bind_some]
    · refine hw.set hchunk rfl ⟨hwf.aligned, hwf.limit_eq, hwf.limit_lt, ?_, hfits⟩
      show c + 32 ≤ alignPtr b + n
      omega
    · have hchunks (p : ℕ) : (pre ++ [(c, p)]).chunks = pre.chunks ++ [c] := chunks_append
      rw [hchunks, hchunks]
      apply Frame.of_set
      · exact List.mem_append_left _ (List.mem_append_right _ List.mem_cons_self)
      · exact fun _ hx => hx
  · apply Or.inl
    have htry : chunk.tryAlloc n = some (none, chunk) := by
      simp only [BumpChunk.tryAlloc, hbump']
      by_cases hover : alignPtr b + n < 2 ^ 64
      · have hmod : (alignPtr b + n) % addressSpace = alignPtr b + n :=
          Nat.mod_eq_of_lt hover
        rw [hmod, if_pos (Nat.not_le.mp hfits)]
      · -- the end of the block wraps to before the bump pointer
        have hmod : (alignPtr b + n) % addressSpace < b := by
          rw [addressSpace]
          omega
        rw [if_pos hmod, ite_self]
    simp only [LifoAlloc.tryAlloc, hlatest, hchunk, htry, Heap.set_eq_self hchunk,
      Option.bind_eq_bind, Option.bind_some]

/-- The blocks of a position are within chunks. -/
theorem IsChain.block_mem (hc : IsChain h a u after) (hw : h.Wf) (hb : BlocksIn u blocks)
    {block : Block} (hmem : block ∈ blocks) :
    8 ∣ block.start ∧ ∃ c ∈ u.chunks, ∃ chunk, h.chunk c = some chunk ∧ c + 32 ≤ block.start ∧
      block.start + block.size ≤ chunk.limit := by
  obtain ⟨hdvd, cb, hcb, hstart, hend⟩ := hb block hmem
  obtain ⟨chunk, hchunk, hbump⟩ := hc.bump_eq cb hcb
  have hle := (hw.wf cb.1 chunk hchunk).bump_le
  rw [hbump] at hle
  exact ⟨hdvd, cb.1, List.mem_map_of_mem hcb, chunk, hchunk, hstart, Nat.le_trans hend hle⟩

/-- A block that comes after the bump pointer of the latest chunk is apart from the others. -/
theorem Holds.alloc (hh : Holds (pre ++ [(c, b)]) blocks marks) (hw : h.Wf)
    (hc : IsChain h a (pre ++ [(c, start + n)]) after) (hdvd : 8 ∣ start) (hb : b ≤ start)
    (hstart : c + 32 ≤ start) :
    Holds (pre ++ [(c, start + n)]) (blocks ++ [⟨start, n⟩]) marks := by
  have hextends : Extends (pre ++ [(c, b)]) (pre ++ [(c, start + n)]) :=
    extends_last (Nat.le_trans hb (Nat.le_add_right _ _))
  constructor
  · intro block hblock
    rcases List.mem_append.mp hblock with hold | hnew
    · exact hh.blocksIn.mono hextends block hold
    · rw [List.mem_singleton] at hnew
      rw [hnew]
      exact ⟨hdvd, _, List.mem_append_right _ List.mem_cons_self, hstart, Nat.le_refl _⟩
  · rw [List.pairwise_append]
    refine ⟨hh.apart, List.pairwise_singleton _ _, ?_⟩
    intro block hblock block' hblock'
    rw [List.mem_singleton] at hblock'
    rw [hblock', Block.Apart]
    obtain ⟨_, cb, hcb, hstart', hend'⟩ := hh.blocksIn block hblock
    rcases List.mem_append.mp hcb with hpre | hlast
    · -- the block is in an earlier chunk
      obtain ⟨chunk, hchunk, hbump⟩ := hc.bump_eq cb (List.mem_append_left _ hpre)
      obtain ⟨chunk', hchunk', hbump'⟩ :=
        hc.bump_eq (c, start + n) (List.mem_append_right _ List.mem_cons_self)
      have hne : cb.1 ≠ c := by
        intro heq
        have hnodup := hc.nodup
        rw [chunks_append, List.append_assoc] at hnodup
        exact (List.nodup_append.mp hnodup).2.2 _ (List.mem_map_of_mem hpre) _ List.mem_cons_self heq
      have hle := (hw.wf cb.1 chunk hchunk).bump_le
      have hle' := (hw.wf c chunk' hchunk').bump_le
      dsimp only at hbump'
      rcases hw.apart cb.1 chunk c chunk' hchunk hchunk' hne with hbefore | hafter
      · exact Or.inl (by dsimp only; omega)
      · exact Or.inr (by dsimp only; omega)
    · rw [List.mem_singleton] at hlast
      rw [hlast] at hend'
      exact Or.inl (Nat.le_trans hend' hb)
  · exact hh.marksIn.mono hextends _

/-- The block that is in the latest chunk does not wrap. -/
def LifoAlloc.NoWrap (a : LifoAlloc) (h : Heap) (n : ℕ) : Prop :=
  ∀ c chunk, a.latest = some c → h.chunk c = some chunk →
    alignPtr chunk.bump + n < addressSpace + chunk.bump

/-- The blocks after an allocation. -/
def addBlock (blocks : List Block) (n : ℕ) : Option ℕ → List Block
  | none => blocks
  | some start => blocks ++ [⟨start, n⟩]

/-- What allocating in the latest chunk keeps. -/
theorem tryAlloc_holds (hw : h.Wf) (hc : IsChain h a u after) (hwrap : a.NoWrap h n)
    (hh : Holds u blocks marks) :
    ∃ h' u' result, a.tryAlloc h n = some (h', result) ∧ h'.Wf ∧ IsChain h' a u' after ∧
      Holds u' (addBlock blocks n result) marks ∧ (result = none → h' = h ∧ u' = u) ∧
      Frame h h' (u.chunks ++ after) (u'.chunks ++ after) := by
  by_cases hu : u = []
  · have hlatest : a.latest = none := by
      rw [hc.latest_eq, hu]
      rfl
    refine ⟨h, u, none, ?_, hw, hc, hh, fun _ => ⟨rfl, rfl⟩, Frame.refl h _⟩
    simp only [LifoAlloc.tryAlloc, hlatest]
  · obtain ⟨pre, c, b, chunk, rfl, hlatest, hchunk, rfl⟩ := hc.exists_latest hu
    rcases tryAlloc_spec hw hc (hwrap c chunk hlatest hchunk) with
      hnone | ⟨h', start, htry, hw', hc', hdvd, hb, hstart, hframe⟩
    · exact ⟨h, _, none, hnone, hw, hc, hh, fun _ => ⟨rfl, rfl⟩, Frame.refl h _⟩
    · exact ⟨h', _, some start, htry, hw', hc', hh.alloc hw' hc' hdvd hb hstart, nofun, hframe⟩

end Allocation

section Operations

variable {h h' : Heap} {a a' : LifoAlloc} {u v pre extra : Position} {after l l' : List ℕ}
  {blocks : List Block} {marks : List Mark} {c n fuel : ℕ} {malloc : Option ℕ}

/-- An allocator at a position, with the blocks and the marks it has handed out. -/
structure LifoAlloc.Inv (h : Heap) (a : LifoAlloc) (u : Position) (after : List ℕ)
    (blocks : List Block) (marks : List Mark) : Prop where
  chain : IsChain h a u after
  holds : Holds u blocks marks
  marks_le : marks.length ≤ a.markCount

/-- The marks of an allocator that counts none. -/
theorem LifoAlloc.Inv.marks_eq_nil (hi : a.Inv h u after blocks marks)
    (hcount : a.markCount = 0) : marks = [] := by
  have hle := hi.marks_le
  rw [hcount] at hle
  exact List.length_eq_zero_iff.mp (Nat.le_zero.mp hle)

/-- What is left by an operation on the allocator with the chunks `l`. -/
def Leaves (h h' : Heap) (l : List ℕ) (a' : LifoAlloc) (blocks : List Block) (marks : List Mark) :
    Prop :=
  h'.Wf ∧ ∃ u after, a'.Inv h' u after blocks marks ∧ Frame h h' l (u.chunks ++ after)

/-- The chain of an allocator does not depend on its marks. -/
theorem IsChain.of_eq (hc : IsChain h a u after) (hfirst : a'.first = a.first)
    (hlatest : a'.latest = a.latest) (hlast : a'.last = a.last) (hsize : a'.curSize_ = a.curSize_)
    (hdefault : a'.defaultChunkSize_ = a.defaultChunkSize_) : IsChain h a' u after := by
  constructor
  · rw [hfirst]
    exact hc.linked
  · exact hc.nodup
  · exact hc.bump_eq
  · exact hc.isSome
  · rw [hlatest]
    exact hc.latest_eq
  · rw [hlast]
    exact hc.last_eq
  · exact hc.after_eq
  · rw [hsize]
    exact hc.curSize_eq
  · rw [hdefault]
    exact hc.default_eq
  · rw [hdefault]
    exact hc.le_default

/-! ## Allocation -/

/-- Blocks that are not as large as all memory do not wrap. -/
theorem noWrap_of_le (a : LifoAlloc) (h : Heap) (hn : n + sizeofBumpChunk ≤ addressSpace) :
    a.NoWrap h n := by
  intro c chunk _ _
  have hlt := (alignPtr_spec chunk.bump).2.2
  rw [sizeofBumpChunk, addressSpace] at hn
  rw [addressSpace]
  omega

/-- A block is taken off the latest chunk, an unused one or a new one. -/
theorem alloc_spec (malloc : Option ℕ) (hw : h.Wf) (hi : a.Inv h u after blocks marks)
    (hn : n + sizeofBumpChunk ≤ addressSpace)
    (hf : ∀ d size, malloc = some d → a.chunkSize n = some size → Fresh h size d) :
    ∃ h' a' result, a.alloc h n malloc = some (h', a', result) ∧
      Leaves h h' (u.chunks ++ after) a' (addBlock blocks n result) marks := by
  obtain ⟨h₁, u₁, result, htry, hw₁, hc₁, hh₁, hsame, hframe₁⟩ :=
    tryAlloc_holds hw hi.chain (noWrap_of_le a h hn) hi.holds
  cases result with
  | some start =>
    refine ⟨h₁, a, some start, ?_, hw₁, u₁, after, ⟨hc₁, hh₁, hi.marks_le⟩, hframe₁⟩
    simp only [LifoAlloc.alloc, htry, Option.bind_eq_bind, Option.bind_some]
  | none =>
    obtain ⟨rfl, rfl⟩ := hsame rfl
    have hn' : n < 2 ^ 64 := by
      rw [sizeofBumpChunk, addressSpace] at hn
      omega
    obtain ⟨h₂, a₂, found, ds, rest, hget, hw₂, hc₂, hcount, _, hframe₂⟩ :=
      getOrCreateChunk_spec hw hi.chain hn' hf
    have hh₂ := hi.holds.mono (extends_append u₁ (resetChunks ds))
    have hmarks : marks.length ≤ a₂.markCount := by
      rw [hcount]
      exact hi.marks_le
    cases found with
    | false =>
      refine ⟨h₂, a₂, none, ?_, hw₂, _, rest, ⟨hc₂, hh₂, hmarks⟩, hframe₂⟩
      simp only [LifoAlloc.alloc, htry, hget, Option.bind_eq_bind, Option.bind_some, if_false,
        Bool.false_eq_true]
    | true =>
      obtain ⟨h₃, u₃, result, htry₃, hw₃, hc₃, hh₃, _, hframe₃⟩ :=
        tryAlloc_holds hw₂ hc₂ (noWrap_of_le a₂ h₂ hn) hh₂
      refine ⟨h₃, a₂, result, ?_, hw₃, u₃, rest, ⟨hc₃, hh₃, hmarks⟩, hframe₂.trans hframe₃⟩
      simp only [LifoAlloc.alloc, htry, hget, htry₃, Option.bind_eq_bind, Option.bind_some, if_true]

/-- The bytes that are left are counted to the end of the chain. -/
theorem hasUnused_isSome (n fuel total : ℕ) {start : Option ℕ} (hl : Linked h.next start l)
    (hsome : ∀ x ∈ l, (h.chunk x).isSome) (hfuel : l.length < fuel) :
    ∃ found, LifoAlloc.hasUnused n h fuel start total = some found := by
  induction l generalizing start total fuel with
  | nil =>
    obtain ⟨fuel, rfl⟩ := Nat.exists_eq_succ_of_ne_zero (Nat.ne_zero_of_lt hfuel)
    obtain rfl : start = none := hl
    exact ⟨false, rfl⟩
  | cons x l ih =>
    obtain ⟨fuel, rfl⟩ := Nat.exists_eq_succ_of_ne_zero (Nat.ne_zero_of_lt hfuel)
    obtain ⟨rfl, hl⟩ := hl
    obtain ⟨chunk, hchunk⟩ := Option.isSome_iff_exists.mp (hsome x List.mem_cons_self)
    rw [Heap.next, hchunk, Option.bind_some] at hl
    simp only [LifoAlloc.hasUnused, hchunk, Option.bind_eq_bind, Option.bind_some]
    split
    · exact ⟨true, rfl⟩
    · exact ih _ _ hl (fun y hy => hsome y (List.mem_cons_of_mem _ hy)) (Nat.lt_of_succ_lt_succ hfuel)

/-- The chunks from the latest one on. -/
theorem IsChain.linked_latest (hc : IsChain h a u after) :
    ∃ l, Linked h.next a.latest l ∧ (∀ x ∈ l, (h.chunk x).isSome) ∧
      l.length ≤ (u.chunks ++ after).length := by
  by_cases hu : u = []
  · refine ⟨[], ?_, by simp, Nat.zero_le _⟩
    rw [hc.latest_eq, hu]
    rfl
  · obtain ⟨pre, c, b, chunk, rfl, hlatest, _, _⟩ := hc.exists_latest hu
    have hlinked := hc.linked
    rw [chunks_append, List.append_assoc] at hlinked
    obtain ⟨mid, _, hmid⟩ := linkedTo_append.mp hlinked
    have hstart := hmid.head?_eq
    refine ⟨c :: after, ?_, ?_, ?_⟩
    · rw [hlatest]
      rw [hstart] at hmid
      exact hmid
    · intro x hx
      have hmem : x ∈ Position.chunks (pre ++ [(c, b)]) ++ after := by
        rw [chunks_append, List.append_assoc]
        exact List.mem_append_right _ hx
      obtain ⟨chunk', hchunk'⟩ := hc.exists_chunk hmem
      rw [hchunk']
      rfl
    · rw [chunks_append, List.append_assoc, List.length_append]
      exact Nat.le_add_left _ _

/-- Some memory is made sure of, and the position stays. -/
theorem ensureUnusedApproximate_spec (malloc : Option ℕ) (hw : h.Wf) (hi : a.Inv h u after blocks marks)
    (hn : n + sizeofBumpChunk ≤ addressSpace)
    (hf : ∀ d size, malloc = some d → a.chunkSize n = some size → Fresh h size d) :
    ∃ h' a' found, a.ensureUnusedApproximate h n malloc = some (h', a', found) ∧
      Leaves h h' (u.chunks ++ after) a' blocks marks := by
  obtain ⟨l, hlinked, hsome, hlength⟩ := hi.chain.linked_latest
  have hle := hi.chain.length_le hw
  obtain ⟨enough, henough⟩ := hasUnused_isSome n (h.addresses.length + 1) 0
    hlinked hsome (by omega)
  cases enough with
  | true =>
    refine ⟨h, a, true, ?_, hw, u, after, hi, Frame.refl h _⟩
    simp only [LifoAlloc.ensureUnusedApproximate, henough, Option.bind_eq_bind, Option.bind_some,
      if_true]
  | false =>
    have hn' : n < 2 ^ 64 := by
      rw [sizeofBumpChunk, addressSpace] at hn
      omega
    obtain ⟨h₁, a₁, found, ds, rest, hget, hw₁, hc₁, hcount, _, hframe₁⟩ :=
      getOrCreateChunk_spec hw hi.chain hn' hf
    have hmarks : marks.length ≤ a₁.markCount := by
      rw [hcount]
      exact hi.marks_le
    have hgrown : a₁.Inv h₁ (u ++ resetChunks ds) rest blocks marks :=
      ⟨hc₁, hi.holds.mono (extends_append u (resetChunks ds)), hmarks⟩
    cases found with
    | false =>
      refine ⟨h₁, a₁, false, ?_, hw₁, _, rest, hgrown, hframe₁⟩
      simp only [LifoAlloc.ensureUnusedApproximate, henough, hget, Option.bind_eq_bind,
        Option.bind_some, if_false, Bool.false_eq_true]
    | true =>
      cases hlatest : a.latest with
      | none =>
        rw [hlatest] at henough
        refine ⟨h₁, a₁, true, ?_, hw₁, _, rest, hgrown, hframe₁⟩
        simp only [LifoAlloc.ensureUnusedApproximate, henough, hget, hlatest, Option.bind_eq_bind,
          Option.bind_some, if_false, if_true, Bool.false_eq_true]
      | some latest =>
        have hne : u ≠ [] := by
          rintro rfl
          rw [hi.chain.latest_eq] at hlatest
          cases hlatest
        have hback := hc₁.back hne
        rw [← hi.chain.latest_eq, hlatest] at hback
        rw [hlatest] at henough
        refine ⟨h₁, { a₁ with latest := some latest }, true, ?_, hw₁, u, _,
          ⟨hback, hi.holds, hmarks⟩, ?_⟩
        · simp only [LifoAlloc.ensureUnusedApproximate, henough, hget, hlatest, Option.bind_eq_bind,
            Option.bind_some, if_false, if_true, Bool.false_eq_true]
        · rw [chunks_append, List.append_assoc] at hframe₁
          exact hframe₁

/-! ## Marks -/

/-- The present position is marked. -/
theorem mark_spec {m : Mark} (hi : a.Inv h u after blocks marks) (hat : m.IsAt u)
    (hlength : m.blocks = blocks.length) :
    ({ a with markCount := a.markCount + 1 } : LifoAlloc).Inv h u after blocks (m :: marks) :=
  ⟨hi.chain.of_eq rfl rfl rfl rfl rfl, hi.holds.mark hat hlength, Nat.succ_le_succ hi.marks_le⟩

/-- An allocator goes back to its first chunk. -/
theorem rewind_spec (hw : h.Wf) (hc : IsChain h a u after) :
    ∃ h' a' u' after', a.rewind h = some (h', a') ∧ h'.Wf ∧ IsChain h' a' u' after' ∧
      a'.markCount = a.markCount ∧ Frame h h' (u.chunks ++ after) (u'.chunks ++ after') := by
  cases hfirst : a.first with
  | none =>
    obtain rfl := hc.eq_nil hfirst
    obtain rfl := hc.after_eq rfl
    refine ⟨h, { a with latest := none }, [], [], ?_, hw, ?_, rfl, Frame.refl h _⟩
    · simp only [LifoAlloc.rewind, hfirst]
    · exact hc.of_eq rfl hc.latest_eq.symm rfl rfl rfl
  | some first =>
    obtain ⟨rest, hrest⟩ : ∃ rest, u.chunks ++ after = first :: rest := by
      have hhead := hc.linked.head?_eq
      rw [hfirst] at hhead
      exact List.head?_eq_some_iff.mp hhead.symm
    have hmem : first ∈ u.chunks ++ after := by
      rw [hrest]
      exact List.mem_cons_self
    obtain ⟨chunk, hchunk⟩ := hc.exists_chunk hmem
    obtain ⟨hreset, hwf⟩ := hw.resetBump hchunk
    have hlinked := hc.linked
    rw [hfirst, hrest] at hlinked
    have hnodup := hc.nodup
    have hlast := hc.last_eq
    have hsize := hc.curSize_eq
    rw [hrest] at hnodup hlast hsize
    have hsome : ∀ x ∈ rest, (h.chunk x).isSome := by
      intro x hx
      have hx' : x ∈ u.chunks ++ after := by
        rw [hrest]
        exact List.mem_cons_of_mem _ hx
      exact hc.chunk_isSome hx'
    have hchain : IsChain h { a with latest := some first } ([] ++ [(first, chunk.bump)]) rest :=
      isChain_of_linked hlinked hnodup hchunk hsome hfirst rfl hlast hsize hc.default_eq hc.le_default
    refine ⟨_, _, _, rest, ?_, hwf, hchain.setBump (p := first + 32) hchunk, rfl, ?_⟩
    · simp only [LifoAlloc.rewind, hfirst, hreset, Option.bind_eq_bind, Option.bind_some]
    · apply Frame.of_set hmem
      intro x hx
      rw [hrest]
      exact hx

/-- An allocator goes back to a position it was at. -/
theorem release_spec {p : ℕ} (hw : h.Wf) (hc : IsChain h a u after)
    (hext : Extends (pre ++ [(c, p)]) u) (hle : c + 32 ≤ p) :
    ∃ chunk chunk' after', h.chunk c = some chunk ∧ chunk.release p = some chunk' ∧
      (h.set c chunk').Wf ∧
      IsChain (h.set c chunk') { a with latest := some c } (pre ++ [(c, p)]) after' ∧
      Frame h (h.set c chunk') (u.chunks ++ after)
        (Position.chunks (pre ++ [(c, p)]) ++ after') := by
  obtain ⟨b, post, rfl, hpb⟩ : ∃ b post, u = pre ++ (c, b) :: post ∧ p ≤ b := by
    rcases hext with hnil | ⟨pre', c', p', b, post, heq, hu, hpb⟩
    · exact absurd hnil (List.append_ne_nil_of_right_ne_nil _ (List.cons_ne_nil _ _))
    · obtain ⟨rfl, hlast⟩ := List.append_inj' heq rfl
      rw [List.cons.injEq, Prod.mk.injEq] at hlast
      obtain ⟨⟨rfl, rfl⟩, _⟩ := hlast
      exact ⟨b, post, hu, hpb⟩
  have hsplit : pre ++ (c, b) :: post = (pre ++ [(c, b)]) ++ post := by
    rw [List.append_assoc]
    rfl
  obtain ⟨chunk, hchunk, hbump⟩ := hc.bump_eq (c, b) (by simp)
  have hwf := hw.wf c chunk hchunk
  have hbump' : chunk.bump = b := hbump
  have hlimit : p ≤ chunk.limit := by
    have := hwf.bump_le
    omega
  rw [hsplit] at hc
  have hback := hc.back (List.append_ne_nil_of_right_ne_nil _ (List.cons_ne_nil _ _))
  rw [List.getLast?_concat] at hback
  have hcontains : chunk.Contains p := hwf.contains_iff.mpr ⟨hle, hlimit⟩
  have hset := hwf.setBump_eq hle hlimit
  have hrelease : chunk.release p = some { chunk with bump := p } := by
    have hpb' : p ≤ chunk.bump := by omega
    simp only [BumpChunk.release, hcontains, hpb', hset, guard_true, Option.bind_eq_bind,
      Option.pure_def, Option.bind_some]
  refine ⟨chunk, _, Position.chunks post ++ after, hchunk, hrelease, ?_, hback.setBump hchunk, ?_⟩
  · exact hw.set hchunk rfl ⟨hwf.aligned, hwf.limit_eq, hwf.limit_lt, hle, hlimit⟩
  · have hchunks : Position.chunks (pre ++ [(c, p)]) ++ (Position.chunks post ++ after) =
        Position.chunks (pre ++ (c, b) :: post) ++ after := by
      rw [hsplit, chunks_append, chunks_append, chunks_append, List.append_assoc, List.append_assoc,
        List.append_assoc]
      rfl
    rw [hchunks]
    apply Frame.of_set
    · apply List.mem_append_left
      exact List.mem_map_of_mem (f := Prod.fst) (by simp : (c, b) ∈ pre ++ (c, b) :: post)
    · exact fun _ hx => hx

/-! ## Freeing -/

/-- The chunk that is freed. -/
theorem Heap.delete_self : (h.delete_ c).chunk c = none := by
  rw [Heap.delete_]
  exact Function.update_self c none h.chunk

/-- The other chunks stay. -/
theorem Heap.delete_of_ne {x : ℕ} (hne : x ≠ c) : (h.delete_ c).chunk x = h.chunk x := by
  rw [Heap.delete_]
  exact Function.update_of_ne hne none h.chunk

/-- A chunk leaves memory. -/
theorem Heap.Wf.delete_ (hw : h.Wf) (c : ℕ) : (h.delete_ c).Wf := by
  have hchunk (x : ℕ) (y : BumpChunk) (hy : (h.delete_ c).chunk x = some y) : h.chunk x = some y := by
    by_cases hx : x = c
    · rw [hx, Heap.delete_self] at hy
      cases hy
    · rw [Heap.delete_of_ne hx] at hy
      exact hy
  constructor
  · exact hw.nodup.erase c
  · intro x
    show x ∈ h.addresses.erase c ↔ _
    rw [hw.nodup.mem_erase_iff, hw.mem_iff]
    by_cases hx : x = c
    · rw [hx, Heap.delete_self]
      simp
    · rw [Heap.delete_of_ne hx]
      exact and_iff_right hx
  · intro x y hy
    exact hw.wf x y (hchunk x y hy)
  · intro x y x' y' hy hy' hne
    exact hw.apart x y x' y' (hchunk x y hy) (hchunk x' y' hy') hne

/-- The chunks of a chain are freed, from the first one on. -/
theorem freeChunks_spec (hw : h.Wf) (hl : Linked h.next a.first l) (hnodup : l.Nodup)
    (hsome : ∀ x ∈ l, (h.chunk x).isSome) (hsize : a.curSize_ = (l.map h.sizeOf).sum)
    (hfuel : l.length < fuel) :
    ∃ h', LifoAlloc.freeChunks fuel h a = some (h', { a with first := none, curSize_ := 0 }) ∧
      h'.Wf ∧ ∀ x ∉ l, h'.chunk x = h.chunk x := by
  induction l generalizing h a fuel with
  | nil =>
    obtain ⟨fuel, rfl⟩ := Nat.exists_eq_succ_of_ne_zero (Nat.ne_zero_of_lt hfuel)
    have hfirst : a.first = none := hl
    have hzero : a.curSize_ = 0 := hsize
    refine ⟨h, ?_, hw, fun _ _ => rfl⟩
    simp only [LifoAlloc.freeChunks, hfirst]
    rw [← hfirst, ← hzero]
  | cons c l ih =>
    obtain ⟨fuel, rfl⟩ := Nat.exists_eq_succ_of_ne_zero (Nat.ne_zero_of_lt hfuel)
    obtain ⟨hfirst, hl⟩ := hl
    obtain ⟨hc, hnodup⟩ := List.nodup_cons.mp hnodup
    obtain ⟨chunk, hchunk⟩ := Option.isSome_iff_exists.mp (hsome c List.mem_cons_self)
    have hsizeOf : h.sizeOf c = chunk.computedSizeOfIncludingThis c := by
      rw [Heap.sizeOf, hchunk]
      rfl
    rw [List.map_cons, List.sum_cons, hsizeOf] at hsize
    have hguard : chunk.computedSizeOfIncludingThis c ≤ a.curSize_ := by
      rw [hsize]
      exact Nat.le_add_right _ _
    have hne : ∀ x ∈ l, x ≠ c := by
      rintro x hx rfl
      exact hc hx
    rw [Heap.next, hchunk, Option.bind_some] at hl
    have hl' : Linked (h.delete_ c).next chunk.next_ l := by
      apply LinkedTo.congr hl
      intro x hx
      rw [Heap.next, Heap.delete_of_ne (hne x hx), Heap.next]
    have hsome' : ∀ x ∈ l, ((h.delete_ c).chunk x).isSome := by
      intro x hx
      rw [Heap.delete_of_ne (hne x hx)]
      exact hsome x (List.mem_cons_of_mem _ hx)
    have hsize' : a.curSize_ - chunk.computedSizeOfIncludingThis c =
        (l.map (h.delete_ c).sizeOf).sum := by
      have hmap : l.map (h.delete_ c).sizeOf = l.map h.sizeOf := by
        apply List.map_congr_left
        intro x hx
        rw [Heap.sizeOf, Heap.delete_of_ne (hne x hx), Heap.sizeOf]
      rw [hmap, hsize]
      exact Nat.add_sub_cancel_left _ _
    obtain ⟨h', hfree, hw', hother⟩ := ih (hw.delete_ c)
      (a := { a with
        first := chunk.next_
        curSize_ := a.curSize_ - chunk.computedSizeOfIncludingThis c })
      hl' hnodup hsome' hsize' (Nat.lt_of_succ_lt_succ hfuel)
    refine ⟨h', ?_, hw', ?_⟩
    · simp only [LifoAlloc.freeChunks, hfirst, hchunk, LifoAlloc.decrementCurSize, hguard, guard_true,
        Option.bind_eq_bind, Option.pure_def, Option.bind_some]
      exact hfree
    · intro x hx
      rw [List.mem_cons, not_or] at hx
      rw [hother x hx.2, Heap.delete_of_ne hx.1]

/-- All chunks are freed. -/
theorem freeAll_spec (hw : h.Wf) (hc : IsChain h a u after) :
    ∃ h' a', a.freeAll h = some (h', a') ∧ h'.Wf ∧ a'.Inv h' [] [] [] [] ∧
      Frame h h' (u.chunks ++ after) [] := by
  obtain ⟨h', hfree, hw', hother⟩ := freeChunks_spec hw hc.linked hc.nodup
    (fun _ hx => hc.chunk_isSome hx) hc.curSize_eq
    (Nat.lt_succ_of_le (hc.length_le hw))
  refine ⟨h', { a with first := none, latest := none, last := none, curSize_ := 0 }, ?_, hw', ?_, ?_⟩
  · simp only [LifoAlloc.freeAll, hfree, guard_true, Option.bind_eq_bind, Option.pure_def,
      Option.bind_some]
  · refine ⟨?_, holds_nil [], Nat.zero_le _⟩
    constructor
    · rfl
    · exact List.nodup_nil
    · simp
    · simp
    · rfl
    · rfl
    · simp
    · rfl
    · exact hc.default_eq
    · exact hc.le_default
  · exact ⟨fun x hx _ => hother x hx, by simp⟩

end Operations

end SpiderMonkey.Ds
