import SpiderMonkey.Ds.LifoAllocAlloc

/-!
# Two allocators

What the operations that move chunks from one allocator to another keep. The chunks of an allocator
go as used ones, with the blocks in them, or as unused ones.
-/

namespace SpiderMonkey.Ds

variable {h h' : Heap} {a a' other : LifoAlloc} {u v w pre : Position} {after after' l : List ℕ}
  {blocks blocks' : List Block} {marks : List Mark} {c b start last fuel : ℕ} {chunk : BumpChunk}

/-- Chunks at the positions where their bump pointers are. -/
def Heap.positions (h : Heap) (ds : List ℕ) : Position :=
  ds.map fun d => (d, ((h.chunk d).map BumpChunk.bump).getD 0)

/-- The chunks at their positions. -/
@[simp] theorem chunks_positions (h : Heap) (ds : List ℕ) : (h.positions ds).chunks = ds := by
  rw [Heap.positions, Position.chunks, List.map_map]
  exact List.map_id ds

/-- The bump pointers at positions. -/
theorem bump_positions (hsome : ∀ d ∈ l, (h.chunk d).isSome) :
    ∀ cb ∈ h.positions l, ∃ chunk, h.chunk cb.1 = some chunk ∧ chunk.bump = cb.2 := by
  intro cb hcb
  obtain ⟨d, hd, rfl⟩ := List.mem_map.mp hcb
  obtain ⟨chunk, hchunk⟩ := Option.isSome_iff_exists.mp (hsome d hd)
  refine ⟨chunk, hchunk, ?_⟩
  show chunk.bump = ((h.chunk d).map BumpChunk.bump).getD 0
  rw [hchunk]
  rfl

/-- The latest chunk of a chain may be another one. -/
theorem IsChain.reposition (hc : IsChain h a u after) (heq : w.chunks ++ after' = u.chunks ++ after)
    (hbump : ∀ cb ∈ w, ∃ chunk, h.chunk cb.1 = some chunk ∧ chunk.bump = cb.2)
    (hnil : w = [] → after' = []) :
    IsChain h { a with latest := w.getLast?.map Prod.fst } w after' := by
  constructor
  · rw [heq]
    exact hc.linked
  · rw [heq]
    exact hc.nodup
  · exact hbump
  · intro x hx
    have hmem : x ∈ u.chunks ++ after := by
      rw [← heq]
      exact List.mem_append_right _ hx
    exact hc.chunk_isSome hmem
  · rfl
  · rw [heq]
    exact hc.last_eq
  · exact hnil
  · rw [heq]
    exact hc.curSize_eq
  · exact hc.default_eq
  · exact hc.le_default

/-- Blocks in different chunks are apart. -/
theorem apart_of_disjoint (hw : h.Wf) (hc : IsChain h a u after) (hb : BlocksIn u blocks)
    (hc' : IsChain h a' v after') (hb' : BlocksIn v blocks') (hd : u.chunks.Disjoint v.chunks)
    {block block' : Block} (hmem : block ∈ blocks) (hmem' : block' ∈ blocks') :
    block.Apart block' := by
  obtain ⟨_, c, hcmem, chunk, hchunk, hstart, hend⟩ := hc.block_mem hw hb hmem
  obtain ⟨_, c', hcmem', chunk', hchunk', hstart', hend'⟩ := hc'.block_mem hw hb' hmem'
  have hne : c ≠ c' := by
    rintro rfl
    exact hd hcmem hcmem'
  rcases hw.apart c chunk c' chunk' hchunk hchunk' hne with hbefore | hafter
  · exact Or.inl (by omega)
  · exact Or.inr (by omega)

/-- An allocator takes all chunks of another one. -/
theorem steal_spec (hi : other.Inv h v after blocks marks) (hcount : other.markCount = 0) :
    ∃ a' other', a.steal other = some (a', other') ∧ a'.Inv h v after blocks [] ∧
      other'.Inv h [] [] [] [] := by
  obtain rfl := hi.marks_eq_nil hcount
  refine ⟨{ other with peakSize_ := max a.peakSize_ other.curSize_ },
    other.reset other.defaultChunkSize_, ?_,
    ⟨hi.chain.of_eq rfl rfl rfl rfl rfl, hi.holds, Nat.zero_le _⟩, ?_⟩
  · simp only [LifoAlloc.steal, hcount, guard_true, Option.bind_eq_bind, Option.pure_def,
      Option.bind_some]
  · refine ⟨?_, holds_nil [], Nat.zero_le _⟩
    constructor
    · rfl
    · exact List.nodup_nil
    · simp
    · simp
    · rfl
    · rfl
    · simp
    · rfl
    · exact hi.chain.default_eq
    · exact hi.chain.le_default

/-- Chunks that are linked to each other are chained to the end. -/
theorem appendUnused_spec (a₀ : LifoAlloc) (hw : h.Wf) (hc : IsChain h a u after)
    (hl : Linked h.next (some start) l)
    (hsome : ∀ x ∈ l, (h.chunk x).isSome) (hnodup : (u.chunks ++ after ++ l).Nodup)
    (hlast : l.getLast? = some last) (hfirst₀ : a₀.first = a.first)
    (hlatest₀ : a₀.latest = a.latest) (hlast₀ : a₀.last = a.last)
    (hsize₀ : a₀.curSize_ = a.curSize_ + (l.map h.sizeOf).sum)
    (hdefault₀ : a₀.defaultChunkSize_ = a.defaultChunkSize_) :
    ∃ h' a' u' after', a₀.appendUnused h start last = some (h', a') ∧ h'.Wf ∧
      IsChain h' a' u' after' ∧ u'.chunks ++ after' = u.chunks ++ after ++ l ∧ Extends u u' ∧
      a'.markCount = a₀.markCount ∧ (∀ x ∉ u.chunks ++ after, h'.chunk x = h.chunk x) ∧
      (∀ x, h'.sizeOf x = h.sizeOf x) ∧
      ∀ x chunk, h.chunk x = some chunk → ∃ chunk', h'.chunk x = some chunk' ∧
        chunk'.bump = chunk.bump := by
  by_cases hu : u = []
  · obtain rfl := hu
    obtain rfl := hc.after_eq rfl
    have hnone : a₀.last = none := by
      rw [hlast₀, hc.last_eq]
      rfl
    obtain ⟨rest, rfl⟩ : ∃ rest, l = start :: rest :=
      List.head?_eq_some_iff.mp hl.head?_eq.symm
    obtain ⟨first', hfirst'⟩ := Option.isSome_iff_exists.mp (hsome start List.mem_cons_self)
    have hcur := hc.curSize_eq
    have hchain : IsChain h
        { a₀ with first := some start, latest := some start, last := some last }
        [(start, first'.bump)] rest := by
      apply isChain_of_linked hl
      · exact hnodup
      · exact hfirst'
      · exact fun x hx => hsome x (List.mem_cons_of_mem _ hx)
      · rfl
      · rfl
      · exact hlast.symm
      · show a₀.curSize_ = _
        rw [hsize₀, hcur]
        exact Nat.zero_add _
      · show ∃ k, a₀.defaultChunkSize_ = 2 ^ k
        rw [hdefault₀]
        exact hc.default_eq
      · show sizeofBumpChunk ≤ a₀.defaultChunkSize_
        rw [hdefault₀]
        exact hc.le_default
    refine ⟨h, _, _, rest, ?_, hw, hchain, rfl, Or.inl rfl, rfl, fun _ _ => rfl, fun _ => rfl,
      fun _ chunk hx => ⟨chunk, hx, rfl⟩⟩
    simp only [LifoAlloc.appendUnused, hnone]
  · obtain ⟨e, chunk, hlaste, hmem, hchunk, happend⟩ := hc.append hu hl hsome hnodup
    obtain ⟨hset, hwf⟩ := hw.setNext hchunk (some start)
    refine ⟨_, { a₀ with last := some last }, u, after ++ l, ?_, hwf,
      happend { a₀ with last := some last } hfirst₀ hlatest₀ hlast.symm hsize₀ hdefault₀,
      (List.append_assoc _ _ _).symm, Extends.refl u, rfl, ?_, Heap.sizeOf_setNext hchunk,
      fun x y hy => Heap.exists_setNext (some start) hchunk hy⟩
    · rw [← hlast₀] at hlaste
      simp only [LifoAlloc.appendUnused, hlaste, hset, Option.bind_eq_bind, Option.bind_some]
    · intro x hx
      apply Heap.set_of_ne
      rintro rfl
      exact hx hmem

/-- Whether an allocator is empty is read off its latest chunk. -/
theorem isEmpty_spec (hc : IsChain h a u after) : ∃ empty, a.isEmpty h = some empty := by
  by_cases hu : u = []
  · refine ⟨true, ?_⟩
    rw [LifoAlloc.isEmpty, hc.latest_eq, hu]
    rfl
  · obtain ⟨pre, c, b, chunk, _, hlatest, hchunk, _⟩ := hc.exists_latest hu
    refine ⟨decide (chunk.used = 0), ?_⟩
    simp only [LifoAlloc.isEmpty, hlatest, hchunk, Option.map_some]

/-- Without a chunk there is nothing. -/
theorem isChain_nil {default : ℕ} (hdefault : ∃ k, default = 2 ^ k)
    (hle : sizeofBumpChunk ≤ default) (hfirst : a.first = none) (hlatest : a.latest = none)
    (hlast : a.last = none) (hsize : a.curSize_ = 0) (heq : a.defaultChunkSize_ = default) :
    IsChain h a [] [] := by
  constructor
  · exact hfirst
  · exact List.nodup_nil
  · simp
  · simp
  · exact hlatest
  · exact hlast
  · simp
  · exact hsize
  · rw [heq]
    exact hdefault
  · rw [heq]
    exact hle

/-- A position without chunks holds no blocks. -/
theorem BlocksIn.eq_nil (hb : BlocksIn [] blocks) : blocks = [] := by
  cases blocks with
  | nil => rfl
  | cons block blocks =>
    obtain ⟨_, cb, hcb, _⟩ := hb block List.mem_cons_self
    cases hcb

/-- The blocks of two positions, one after the other. -/
theorem Holds.append (hh : Holds u blocks []) (hh' : Holds v blocks' [])
    (hu : Extends u w) (hv : ∀ cb ∈ v, cb ∈ w)
    (hcross : ∀ block ∈ blocks, ∀ block' ∈ blocks', block.Apart block') :
    Holds w (blocks ++ blocks') [] := by
  refine ⟨?_, List.pairwise_append.mpr ⟨hh.apart, hh'.apart, hcross⟩, trivial⟩
  intro block hblock
  rcases List.mem_append.mp hblock with hold | hnew
  · exact hh.blocksIn.mono hu block hold
  · obtain ⟨hdvd, cb, hcb, hin⟩ := hh'.blocksIn block hnew
    exact ⟨hdvd, cb, hv cb hcb, hin⟩

/-- An allocator takes all chunks of another one, after its own. The blocks are those of both, if
there are none in an allocator that looks empty. -/
theorem transferFrom_spec {marks' : List Mark} (hw : h.Wf) (hi : a.Inv h u after blocks marks)
    (hj : other.Inv h v after' blocks' marks') (hcount : a.markCount = 0)
    (hcount' : other.markCount = 0) (hd : (u.chunks ++ after).Disjoint (v.chunks ++ after'))
    (hempty : other.isEmpty h = some true → blocks' = []) :
    ∃ h' a' other' w rest, a.transferFrom other h = some (h', a', other') ∧ h'.Wf ∧
      a'.Inv h' w rest (blocks ++ blocks') [] ∧ other'.Inv h' [] [] [] [] ∧
      (∀ x ∈ w.chunks ++ rest, x ∈ u.chunks ++ after ∨ x ∈ v.chunks ++ after') ∧
      ∀ x ∉ u.chunks ++ after, h'.chunk x = h.chunk x := by
  obtain rfl := hi.marks_eq_nil hcount
  obtain rfl := hj.marks_eq_nil hcount'
  cases hfirst : other.first with
  | none =>
    obtain rfl := hj.chain.eq_nil hfirst
    obtain rfl := hj.chain.after_eq rfl
    obtain rfl := hj.holds.blocksIn.eq_nil
    refine ⟨h, a, other, u, after, ?_, hw, ?_, hj, fun x hx => Or.inl hx, fun _ _ => rfl⟩
    · simp only [LifoAlloc.transferFrom, hcount, hcount', hfirst, guard_true, Option.bind_eq_bind,
        Option.pure_def, Option.bind_some]
    · rw [List.append_nil]
      exact hi
  | some first =>
    obtain ⟨pre, c, b, chunk, hv, hlatest, hchunk, hbump⟩ :=
      hj.chain.exists_latest (hj.chain.ne_nil hfirst)
    have hlinked := hj.chain.linked
    rw [hfirst] at hlinked
    have hnonnil : v.chunks ++ after' ≠ [] := by
      intro hnil
      rw [hnil] at hlinked
      exact Option.some_ne_none _ hlinked
    obtain ⟨last, hlast⟩ : ∃ last, (v.chunks ++ after').getLast? = some last :=
      ⟨_, List.getLast?_eq_some_getLast hnonnil⟩
    have hlastj : other.last = some last := hj.chain.last_eq.trans hlast
    have hsome : ∀ x ∈ v.chunks ++ after', (h.chunk x).isSome := fun _ hx => hj.chain.chunk_isSome hx
    have hnodup : (u.chunks ++ after ++ (v.chunks ++ after')).Nodup := by
      rw [List.nodup_append]
      refine ⟨hi.chain.nodup, hj.chain.nodup, ?_⟩
      rintro x hx y hy rfl
      exact hd hx hy
    have hsize : (a.incrementCurSize other.curSize_).curSize_ =
        a.curSize_ + ((v.chunks ++ after').map h.sizeOf).sum := by
      rw [← hj.chain.curSize_eq]
      rfl
    obtain ⟨h', a', u', rest, happend, hw', hc', hchunks, hextends, hcount₁, hframe, _, hbumps⟩ :=
      appendUnused_spec (a.incrementCurSize other.curSize_) hw hi.chain hlinked hsome hnodup hlast rfl
        rfl rfl hsize rfl
    have hother : ({ other with first := none, last := none, latest := none, curSize_ := 0 } :
        LifoAlloc).Inv h' [] [] [] [] :=
      ⟨isChain_nil hj.chain.default_eq hj.chain.le_default rfl rfl rfl rfl rfl, holds_nil [],
        Nat.zero_le _⟩
    have hcases : ∀ x ∈ u.chunks ++ after ++ (v.chunks ++ after'),
        x ∈ u.chunks ++ after ∨ x ∈ v.chunks ++ after' := fun x hx => List.mem_append.mp hx
    obtain ⟨empty, hisEmpty⟩ := isEmpty_spec hj.chain
    cases empty with
    | true =>
      obtain rfl := hempty hisEmpty
      refine ⟨h', a', _, u', rest, ?_, hw', ⟨hc', ?_, Nat.zero_le _⟩, hother, ?_, hframe⟩
      · simp only [LifoAlloc.transferFrom, hcount, hcount', hfirst, hlatest, hlastj, hisEmpty, happend,
          guard_true, if_true, Option.bind_eq_bind, Option.pure_def, Option.bind_some]
      · rw [List.append_nil]
        exact hi.holds.mono hextends
      · rw [hchunks]
        exact hcases
    | false =>
      have hchunks' : Position.chunks (u ++ (h'.positions after ++ v)) ++ after' =
          u'.chunks ++ rest := by
        rw [hchunks, chunks_append, chunks_append, chunks_positions]
        simp only [List.append_assoc]
      have hkept : ∀ (cb : ℕ × ℕ) (chunk : BumpChunk), h.chunk cb.1 = some chunk → chunk.bump = cb.2 →
          ∃ chunk', h'.chunk cb.1 = some chunk' ∧ chunk'.bump = cb.2 := by
        intro cb chunk hcb hb
        obtain ⟨chunk', hchunk', hbump'⟩ := hbumps cb.1 chunk hcb
        exact ⟨chunk', hchunk', hbump'.trans hb⟩
      have hafter : ∀ d ∈ after, (h'.chunk d).isSome := by
        intro d hdmem
        obtain ⟨y, hy⟩ := Option.isSome_iff_exists.mp (hi.chain.isSome d hdmem)
        obtain ⟨y', hy', _⟩ := hbumps d y hy
        rw [hy']
        rfl
      have hne : u ++ (h'.positions after ++ v) ≠ [] := by
        rw [hv]
        simp
      have hchain := hc'.reposition hchunks'
        (by
          intro cb hcb
          rcases List.mem_append.mp hcb with hu | hcb
          · obtain ⟨y, hy, hb⟩ := hi.chain.bump_eq cb hu
            exact hkept cb y hy hb
          rcases List.mem_append.mp hcb with ha | hcb
          · exact bump_positions hafter cb ha
          · obtain ⟨y, hy, hb⟩ := hj.chain.bump_eq cb hcb
            exact hkept cb y hy hb)
        (fun hnil => absurd hnil hne)
      have hgetLast : (u ++ (h'.positions after ++ v)).getLast?.map Prod.fst = some c := by
        rw [hv, ← List.append_assoc, ← List.append_assoc, List.getLast?_concat]
        rfl
      rw [hgetLast] at hchain
      refine ⟨h', { a' with latest := some c }, _, _, after', ?_, hw', ⟨hchain, ?_, Nat.zero_le _⟩,
        hother, ?_, hframe⟩
      · simp only [LifoAlloc.transferFrom, LifoAlloc.appendUsed, hcount, hcount', hfirst, hlatest,
          hlastj, hisEmpty, happend, guard_true, if_false, Bool.false_eq_true, Option.bind_eq_bind,
          Option.pure_def, Option.bind_some]
      · apply hi.holds.append hj.holds (extends_append u _)
        · intro cb hcb
          exact List.mem_append_right _ (List.mem_append_right _ hcb)
        · intro block hblock block' hblock'
          apply apart_of_disjoint hw hi.chain hi.holds.blocksIn hj.chain hj.holds.blocksIn _ hblock
            hblock'
          exact fun x hx hx' => hd (List.mem_append_left _ hx) (List.mem_append_left _ hx')
      · rw [hchunks', hchunks]
        exact hcases

/-- The sizes of chunks are counted for another allocator. -/
theorem moveSizes_spec (a other : LifoAlloc) (fuel : ℕ) {start : Option ℕ} (hl : Linked h.next start l)
    (hsome : ∀ x ∈ l, (h.chunk x).isSome) (hle : (l.map h.sizeOf).sum ≤ other.curSize_)
    (hfuel : l.length < fuel) :
    ∃ peak, LifoAlloc.moveSizes h fuel start a other =
      some ({ a with curSize_ := a.curSize_ + (l.map h.sizeOf).sum, peakSize_ := peak },
        { other with curSize_ := other.curSize_ - (l.map h.sizeOf).sum }) := by
  induction l generalizing start a other fuel with
  | nil =>
    obtain ⟨fuel, rfl⟩ := Nat.exists_eq_succ_of_ne_zero (Nat.ne_zero_of_lt hfuel)
    obtain rfl : start = none := hl
    exact ⟨a.peakSize_, rfl⟩
  | cons x l ih =>
    obtain ⟨fuel, rfl⟩ := Nat.exists_eq_succ_of_ne_zero (Nat.ne_zero_of_lt hfuel)
    obtain ⟨rfl, hl⟩ := hl
    obtain ⟨chunk, hchunk⟩ := Option.isSome_iff_exists.mp (hsome x List.mem_cons_self)
    have hsizeOf : h.sizeOf x = chunk.computedSizeOfIncludingThis x := by
      rw [Heap.sizeOf, hchunk]
      rfl
    rw [Heap.next, hchunk, Option.bind_some] at hl
    rw [List.map_cons, List.sum_cons, hsizeOf] at hle ⊢
    have hguard : chunk.computedSizeOfIncludingThis x ≤ other.curSize_ :=
      Nat.le_trans (Nat.le_add_right _ _) hle
    obtain ⟨peak, hmove⟩ := ih (a.incrementCurSize (chunk.computedSizeOfIncludingThis x))
      { other with curSize_ := other.curSize_ - chunk.computedSizeOfIncludingThis x } fuel
      hl (fun y hy => hsome y (List.mem_cons_of_mem _ hy)) (Nat.le_sub_of_add_le' hle)
      (Nat.lt_of_succ_lt_succ hfuel)
    refine ⟨peak, ?_⟩
    rw [← Nat.add_assoc, ← Nat.sub_sub]
    simp only [LifoAlloc.moveSizes, hchunk, LifoAlloc.decrementCurSize, hguard, guard_true,
      Option.bind_eq_bind, Option.pure_def, Option.bind_some]
    exact hmove

/-- A chain is cut after its latest chunk. -/
theorem IsChain.cut (hc : IsChain h a (pre ++ [(c, b)]) after) (hchunk : h.chunk c = some chunk)
    (hfirst : a'.first = a.first) (hlatest : a'.latest = a.latest) (hlast : a'.last = a.latest)
    (hsize : a'.curSize_ = a.curSize_ - (after.map h.sizeOf).sum)
    (hdefault : a'.defaultChunkSize_ = a.defaultChunkSize_) :
    IsChain (h.set c { chunk with next_ := none }) a' (pre ++ [(c, b)]) [] := by
  have hnodup := hc.nodup
  have hlinked := hc.linked
  have hcur := hc.curSize_eq
  rw [chunks_append, List.append_assoc] at hlinked
  constructor
  · rw [List.append_nil, chunks_append, hfirst]
    obtain ⟨mid, hpre, hmid⟩ := linkedTo_append.mp hlinked
    have hstart : mid = some c := hmid.1
    rw [Linked, linkedTo_append]
    refine ⟨mid, hpre.congr ?_, hstart, ?_⟩
    · intro x hx
      have hne : x ≠ c := by
        rintro rfl
        rw [chunks_append, List.append_assoc] at hnodup
        exact (List.nodup_append.mp hnodup).2.2 x hx x List.mem_cons_self rfl
      rw [Heap.next, Heap.set_of_ne hne, Heap.next]
    · show (h.set c { chunk with next_ := none }).next c = none
      rw [Heap.next, Heap.set_self]
      rfl
  · rw [List.append_nil]
    exact (List.nodup_append.mp hnodup).1
  · intro cb hcb
    obtain ⟨y, hy, hbump⟩ := hc.bump_eq cb hcb
    obtain ⟨y', hy', hbump'⟩ := Heap.exists_setNext none hchunk hy
    exact ⟨y', hy', hbump'.trans hbump⟩
  · simp
  · rw [hlatest]
    exact hc.latest_eq
  · rw [hlast, hc.latest_eq, List.append_nil, chunks_append, List.getLast?_concat]
    exact List.getLast?_concat.symm
  · intro hnil
    exact absurd hnil (List.append_ne_nil_of_right_ne_nil _ (List.cons_ne_nil _ _))
  · rw [List.map_append, List.sum_append] at hcur
    rw [hsize, hcur, Nat.add_sub_cancel, List.append_nil]
    congr 1
    apply List.map_congr_left
    intro x _
    exact (Heap.sizeOf_setNext hchunk x).symm
  · rw [hdefault]
    exact hc.default_eq
  · rw [hdefault]
    exact hc.le_default

/-- The chunks after the latest one. -/
theorem IsChain.linked_after (hc : IsChain h a u (start :: after)) :
    Linked h.next (some start) (start :: after) := by
  obtain ⟨mid, _, hmid⟩ := linkedTo_append.mp hc.linked
  have hstart := hmid.head?_eq
  rw [List.head?_cons] at hstart
  rw [hstart] at hmid
  exact hmid

/-- Where the latest chunk is the first one there is no other one before it. -/
theorem IsChain.eq_singleton (hc : IsChain h a (pre ++ [(c, b)]) after) (heq : a.latest = a.first) :
    pre = [] := by
  have hlatest := hc.latest_eq
  have hhead := hc.linked.head?_eq
  have hnodup := hc.nodup
  rw [List.getLast?_concat, Option.map_some] at hlatest
  rw [← heq, hlatest, chunks_append, List.append_assoc] at hhead
  rw [chunks_append, List.append_assoc] at hnodup
  cases pre with
  | nil => rfl
  | cons cb pre =>
    have hcb : c = cb.1 := Option.some_inj.mp hhead
    have hmem : c ∈ Position.chunks (cb :: pre) := by
      rw [hcb]
      exact List.mem_cons_self
    exact absurd rfl ((List.nodup_append.mp hnodup).2.2 c hmem c List.mem_cons_self)

/-- The chunks of another allocator after its latest one come to the end of a chain, and are cut off
the one they were on. -/
theorem appendAfter_spec {marks' : List Mark} (hw : h.Wf) (hi : a.Inv h u after blocks marks)
    (hj : other.Inv h (pre ++ [(c, b)]) (start :: after') blocks' marks')
    (hchunk : h.chunk c = some chunk)
    (hd : (u.chunks ++ after).Disjoint (Position.chunks (pre ++ [(c, b)]) ++ start :: after'))
    (peak : ℕ) :
    ∃ last h₁ h₂ a₁ w rest, other.last = some last ∧
      ({ a with
        curSize_ := a.curSize_ + ((start :: after').map h.sizeOf).sum
        peakSize_ := peak } : LifoAlloc).appendUnused h start last = some (h₁, a₁) ∧
      h₁.setNext c none = some h₂ ∧ h₂.Wf ∧ a₁.Inv h₂ w rest blocks marks ∧
      ({ other with
        curSize_ := other.curSize_ - ((start :: after').map h.sizeOf).sum
        last := other.latest } : LifoAlloc).Inv h₂ (pre ++ [(c, b)]) [] blocks' marks' ∧
      w.chunks ++ rest = u.chunks ++ after ++ (start :: after') ∧
      ∀ x, x ∉ u.chunks ++ after → x ≠ c → h₂.chunk x = h.chunk x := by
  have hvnodup := hj.chain.nodup
  have hnodup : (u.chunks ++ after ++ (start :: after')).Nodup := by
    rw [List.nodup_append]
    refine ⟨hi.chain.nodup, (List.nodup_append.mp hvnodup).2.1, ?_⟩
    rintro x hx y hy rfl
    exact hd hx (List.mem_append_right _ hy)
  obtain ⟨last, hlast⟩ : ∃ last, (start :: after').getLast? = some last :=
    ⟨_, List.getLast?_eq_some_getLast (List.cons_ne_nil _ _)⟩
  have hlastj : other.last = some last := by
    rw [hj.chain.last_eq, List.getLast?_append_of_ne_nil _ (List.cons_ne_nil _ _), hlast]
  have hcv : c ∈ Position.chunks (pre ++ [(c, b)]) := by
    rw [chunks_append]
    exact List.mem_append_right _ List.mem_cons_self
  have hcu : c ∉ u.chunks ++ after := fun hx => hd hx (List.mem_append_left _ hcv)
  have hcafter : c ∉ start :: after' := fun hx => (List.nodup_append.mp hvnodup).2.2 c hcv c hx rfl
  obtain ⟨h₁, a₁, w, rest, happend, hw₁, hc₁, hchunks, hextends, hcount₁, hframe, hsizeOf, _⟩ :=
    appendUnused_spec
      { a with
        curSize_ := a.curSize_ + ((start :: after').map h.sizeOf).sum
        peakSize_ := peak }
      hw hi.chain hj.chain.linked_after hj.chain.isSome hnodup hlast rfl rfl rfl rfl rfl
  have hchunk₁ : h₁.chunk c = some chunk := by
    rw [hframe c hcu, hchunk]
  obtain ⟨hset, hwf⟩ := hw₁.setNext hchunk₁ none
  refine ⟨last, h₁, _, a₁, w, rest, hlastj, happend, hset, hwf,
    ⟨hc₁.congr ?_, hi.holds.mono hextends, ?_⟩, ⟨?_, hj.holds, hj.marks_le⟩, hchunks, ?_⟩
  · intro x hx
    apply Heap.set_of_ne
    rintro rfl
    rw [hchunks] at hx
    rcases List.mem_append.mp hx with hx | hx
    · exact hcu hx
    · exact hcafter hx
  · rw [hcount₁]
    exact hi.marks_le
  · have hsame : IsChain h₁ other (pre ++ [(c, b)]) (start :: after') := by
      apply hj.chain.congr
      intro x hx
      exact hframe x fun hx' => hd hx' hx
    refine hsame.cut hchunk₁ ?_ ?_ ?_ ?_ ?_
    · rfl
    · rfl
    · rfl
    · show other.curSize_ - _ = other.curSize_ - _
      rw [List.map_congr_left fun x _ => hsizeOf x]
    · rfl
  · intro x hx hxc
    rw [Heap.set_of_ne hxc, hframe x hx]

/-- What two allocators are left as when unused chunks went from one to the other. -/
def UnusedMoved (h h' : Heap) (a' other' : LifoAlloc) (l l' : List ℕ) (v : Position)
    (blocks blocks' : List Block) (marks marks' : List Mark) : Prop :=
  h'.Wf ∧ ∃ w rest rest', a'.Inv h' w rest blocks marks ∧ other'.Inv h' v rest' blocks' marks' ∧
    (∀ x ∈ w.chunks ++ rest, x ∈ l ∨ x ∈ l') ∧ (∀ x ∈ v.chunks ++ rest', x ∈ l') ∧
    (w.chunks ++ rest).Disjoint (v.chunks ++ rest') ∧
    ∀ x, x ∉ l → x ∉ l' → h'.chunk x = h.chunk x

/-- An allocator takes the unused chunks of another one, after its own. -/
theorem transferUnusedFrom_spec {marks' : List Mark} (hw : h.Wf) (hi : a.Inv h u after blocks marks)
    (hj : other.Inv h v after' blocks' marks') (hcount : a.markCount = 0)
    (hlatest : a.latest = a.first) (hd : (u.chunks ++ after).Disjoint (v.chunks ++ after')) :
    ∃ h' a' other', a.transferUnusedFrom other h = some (h', a', other') ∧
      UnusedMoved h h' a' other' (u.chunks ++ after) (v.chunks ++ after') v blocks blocks' marks
        marks' := by
  have hsame : UnusedMoved h h a other (u.chunks ++ after) (v.chunks ++ after') v blocks blocks' marks
      marks' :=
    ⟨hw, u, after, after', hi, hj, fun _ hx => Or.inl hx, fun _ hx => hx, hd, fun _ _ _ => rfl⟩
  simp only [LifoAlloc.transferUnusedFrom, hcount, hlatest, guard_true, Option.bind_eq_bind,
    Option.pure_def, Option.bind_some]
  cases hfirst : other.first with
  | none => exact ⟨h, a, other, rfl, hsame⟩
  | some first =>
    dsimp only
    by_cases hmarks : other.markCount ≠ 0
    · rw [if_pos hmarks]
      exact ⟨h, a, other, rfl, hsame⟩
    rw [if_neg hmarks]
    obtain ⟨pre, c, b, chunk, rfl, hlatestj, hchunk, hbump⟩ :=
      hj.chain.exists_latest (hj.chain.ne_nil hfirst)
    have hnext := hj.chain.next_latest
    rw [Heap.next, hchunk, Option.bind_some] at hnext
    cases after' with
    | nil =>
      rw [List.head?_nil] at hnext
      simp only [hlatestj, hchunk, hnext, Option.bind_some]
      exact ⟨h, a, other, rfl, hsame⟩
    | cons start after' =>
      rw [List.head?_cons] at hnext
      have hvnodup := hj.chain.nodup
      have hcv : c ∈ Position.chunks (pre ++ [(c, b)]) := by
        rw [chunks_append]
        exact List.mem_append_right _ List.mem_cons_self
      have hcur := hj.chain.curSize_eq
      rw [List.map_append, List.sum_append] at hcur
      have hle : ((start :: after').map h.sizeOf).sum ≤ other.curSize_ := by
        rw [hcur]
        exact Nat.le_add_left _ _
      have hmoved : ∀ {h₂ : Heap} {a₁ other₁ : LifoAlloc} {w : Position} {rest : List ℕ}, h₂.Wf →
          a₁.Inv h₂ w rest blocks marks →
          other₁.Inv h₂ (pre ++ [(c, b)]) [] blocks' marks' →
          w.chunks ++ rest = u.chunks ++ after ++ (start :: after') →
          (∀ x, x ∉ u.chunks ++ after → x ≠ c → h₂.chunk x = h.chunk x) →
          UnusedMoved h h₂ a₁ other₁ (u.chunks ++ after)
            (Position.chunks (pre ++ [(c, b)]) ++ start :: after') (pre ++ [(c, b)]) blocks blocks'
            marks marks' := by
        intro h₂ a₁ other₁ w rest hwf ha₁ hother hchunks hframe
        refine ⟨hwf, w, rest, [], ha₁, hother, ?_, ?_, ?_, ?_⟩
        · intro x hx
          rw [hchunks] at hx
          rcases List.mem_append.mp hx with hx | hx
          · exact Or.inl hx
          · exact Or.inr (List.mem_append_right _ hx)
        · intro x hx
          rw [List.append_nil] at hx
          exact List.mem_append_left _ hx
        · rw [hchunks, List.append_nil]
          intro x hx hx'
          rcases List.mem_append.mp hx with hx | hx
          · exact hd hx (List.mem_append_left _ hx')
          · exact (List.nodup_append.mp hvnodup).2.2 x hx' x hx rfl
        · intro x hx hx'
          apply hframe x hx
          rintro rfl
          exact hx' (List.mem_append_left _ hcv)
      simp only [hlatestj, hchunk, hnext, Option.bind_some]
      by_cases hlf : some c = some first
      · rw [if_pos hlf]
        obtain rfl : c = first := Option.some_inj.mp hlf
        obtain rfl : pre = [] := by
          apply hj.chain.eq_singleton
          rw [hlatestj, hfirst]
        have hsizeOf : h.sizeOf c = chunk.computedSizeOfIncludingThis c := by
          rw [Heap.sizeOf, hchunk]
          rfl
        have hdelta : other.curSize_ - chunk.computedSizeOfIncludingThis c =
            ((start :: after').map h.sizeOf).sum := by
          rw [hcur, ← hsizeOf]
          exact Nat.add_sub_cancel_left _ _
        obtain ⟨last, h₁, h₂, a₁, w, rest, hlastj, happend, hset, hwf, ha₁, hother, hchunks, hframe⟩ :=
          appendAfter_spec hw hi hj hchunk hd
            (max a.peakSize_ (a.curSize_ + ((start :: after').map h.sizeOf).sum))
        refine ⟨h₂, a₁, _, ?_, hmoved hwf ha₁ hother hchunks hframe⟩
        simp only [hchunk, hdelta, LifoAlloc.decrementCurSize, hle, guard_true, hlastj, hset,
          LifoAlloc.incrementCurSize, happend, Option.bind_eq_bind, Option.bind_some, Option.pure_def,
          hlatestj]
      · rw [if_neg hlf]
        have hlength := hj.chain.length_le hw
        rw [List.length_append] at hlength
        obtain ⟨peak, hmove⟩ := moveSizes_spec a other (h.addresses.length + 1)
          hj.chain.linked_after hj.chain.isSome hle (by omega)
        obtain ⟨last, h₁, h₂, a₁, w, rest, hlastj, happend, hset, hwf, ha₁, hother, hchunks, hframe⟩ :=
          appendAfter_spec hw hi hj hchunk hd peak
        refine ⟨h₂, a₁, _, ?_, hmoved hwf ha₁ hother hchunks hframe⟩
        simp only [hmove, hlastj, happend, hset, Option.bind_some, hlatestj]

end SpiderMonkey.Ds
