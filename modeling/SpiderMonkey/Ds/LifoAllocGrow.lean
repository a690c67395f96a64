import SpiderMonkey.Ds.LifoAllocChunks
import Mathlib.Algebra.BigOperators.Group.List.Basic
import Mathlib.Tactic.Ring

/-!
# Growing a chain

Chunks come to the end of a chain, new ones or those of another chain, and a chain is cut after its
latest chunk. Allocation moves the position of an allocator on.
-/

namespace SpiderMonkey.Ds

/-- Memory at an address is not in any chunk. -/
structure Fresh (h : Heap) (size d : ℕ) : Prop where
  aligned : 8 ∣ d
  lt : d + size < 2 ^ 64
  apart : ∀ c ∈ h.addresses, d + size ≤ c ∨ c + h.sizeOf c ≤ d

/-- Only the chunks of a chain may change, and those that the chain has afterwards were on it or are
new. -/
structure Frame (h h' : Heap) (l l' : List ℕ) : Prop where
  same : ∀ x ∉ l, (h.chunk x).isSome → h'.chunk x = h.chunk x
  mem : ∀ x ∈ l', x ∈ l ∨ h.chunk x = none

/-- A chunk comes to memory. -/
def Heap.add (h : Heap) (size d : ℕ) : Heap :=
  ⟨Function.update h.chunk d (some (BumpChunk.make d (size - sizeofBumpChunk))), d :: h.addresses⟩

variable {h h' h'' : Heap} {a a' : LifoAlloc} {u pre : Position} {after l l' l'' : List ℕ}
  {c d b n k size start : ℕ} {chunk : BumpChunk} {succ malloc : Option ℕ}

/-- Nothing changes. -/
theorem Frame.refl (h : Heap) (l : List ℕ) : Frame h h l l :=
  ⟨fun _ _ _ => rfl, fun _ hx => Or.inl hx⟩

/-- Changes after others. -/
theorem Frame.trans (hf : Frame h h' l l') (hf' : Frame h' h'' l' l'') : Frame h h'' l l'' := by
  constructor
  · intro x hx hsome
    have hsame := hf.same x hx hsome
    have hx' : x ∉ l' := by
      intro hmem
      rcases hf.mem x hmem with hl | hnone
      · exact hx hl
      · rw [hnone] at hsome
        cases hsome
    rw [hf'.same x hx' (by rw [hsame]; exact hsome), hsame]
  · intro x hx
    rcases hf'.mem x hx with hl' | hnone
    · exact hf.mem x hl'
    · by_cases hl : x ∈ l
      · exact Or.inl hl
      · apply Or.inr
        cases hchunk : h.chunk x with
        | none => rfl
        | some chunk =>
          rw [hf.same x hl (by rw [hchunk]; rfl), hchunk] at hnone
          exact hnone

/-- One chunk of a chain changes. -/
theorem Frame.of_set (hc : c ∈ l) (hl : ∀ x ∈ l', x ∈ l) : Frame h (h.set c chunk) l l' := by
  constructor
  · intro x hx _
    exact Heap.set_of_ne fun heq => hx (heq ▸ hc)
  · intro x hx
    exact Or.inl (hl x hx)

/-- The size of a chunk reaches up to its limit. -/
theorem Heap.Wf.add_sizeOf (hw : h.Wf) (hchunk : h.chunk c = some chunk) :
    c + h.sizeOf c = chunk.limit := by
  have hlimit := (hw.wf c chunk hchunk).limit_eq
  rw [Heap.sizeOf, hchunk, Option.map_some, Option.getD_some,
    BumpChunk.computedSizeOfIncludingThis]
  omega

/-- There is no chunk at fresh memory. -/
theorem Fresh.chunk_eq_none (hf : Fresh h size d) (hw : h.Wf) (hsize : 32 ≤ size) :
    h.chunk d = none := by
  cases hchunk : h.chunk d with
  | none => rfl
  | some chunk =>
    have hmem : d ∈ h.addresses := by
      rw [hw.mem_iff, hchunk]
      rfl
    have hlimit := (hw.wf d chunk hchunk).limit_eq
    have hapart := hf.apart d hmem
    rw [hw.add_sizeOf hchunk] at hapart
    omega

/-- What is in memory with a new chunk. -/
theorem Heap.add_self (h : Heap) (size d : ℕ) :
    (h.add size d).chunk d = some (BumpChunk.make d (size - sizeofBumpChunk)) := by
  rw [Heap.add]
  exact Function.update_self d _ h.chunk

/-- The other chunks stay. -/
theorem Heap.add_of_ne {x : ℕ} (hne : x ≠ d) : (h.add size d).chunk x = h.chunk x := by
  rw [Heap.add]
  exact Function.update_of_ne hne _ h.chunk

/-- A new chunk is laid out. -/
theorem Fresh.wf_make (hf : Fresh h size d) (hsize : 32 ≤ size) :
    (BumpChunk.make d (size - sizeofBumpChunk)).Wf d := by
  have hlt := hf.lt
  constructor
  · exact hf.aligned
  · rfl
  · show d + 32 + (size - 32) < 2 ^ 64
    omega
  · exact Nat.le_refl _
  · exact Nat.le_add_right _ _

/-- Fresh memory becomes a chunk. -/
theorem Heap.Wf.new_ (hw : h.Wf) (hf : Fresh h size d) (hpow : size = 2 ^ k) (hsize : 32 ≤ size) :
    h.new_ size d = some (h.add size d) ∧ (h.add size d).Wf := by
  have hnone := hf.chunk_eq_none hw hsize
  have hbump : alignPtr (BumpChunk.make d (size - sizeofBumpChunk)).bump =
      (BumpChunk.make d (size - sizeofBumpChunk)).bump := by
    apply alignPtr_of_dvd
    exact Nat.dvd_add hf.aligned (by decide)
  apply And.intro
  · have hclog : 2 ^ Nat.clog 2 size = size := by
      rw [hpow, Nat.clog_pow 2 k (Nat.lt_succ_self 1)]
    simp only [Heap.new_, hclog, hbump, guard_true, Option.bind_eq_bind, Option.pure_def,
      Option.bind_some]
    rfl
  constructor
  · apply List.nodup_cons.mpr
    apply And.intro
    · rw [hw.mem_iff, hnone]
      nofun
    · exact hw.nodup
  · intro x
    by_cases hx : x = d
    · rw [hx, Heap.add_self]
      exact iff_of_true List.mem_cons_self rfl
    · rw [Heap.add_of_ne hx, ← hw.mem_iff]
      exact List.mem_cons.trans (or_iff_right hx)
  · intro x y hy
    by_cases hx : x = d
    · rw [hx, Heap.add_self, Option.some_inj] at hy
      rw [hx, ← hy]
      exact hf.wf_make hsize
    · rw [Heap.add_of_ne hx] at hy
      exact hw.wf x y hy
  · -- a chunk other than the new one is apart from it
    have hother (x : ℕ) (y : BumpChunk) (hy : h.chunk x = some y) :
        d + size ≤ x ∨ y.limit ≤ d := by
      have hmem : x ∈ h.addresses := by
        rw [hw.mem_iff, hy]
        rfl
      have hapart := hf.apart x hmem
      rw [hw.add_sizeOf hy] at hapart
      exact hapart
    have hlimit : (BumpChunk.make d (size - sizeofBumpChunk)).limit = d + size := by
      show d + 32 + (size - 32) = d + size
      omega
    intro x y x' y' hy hy' hne
    by_cases hx : x = d
    · have hx' : x' ≠ d := fun heq => hne (hx.trans heq.symm)
      rw [hx, Heap.add_self, Option.some_inj] at hy
      rw [Heap.add_of_ne hx'] at hy'
      rw [hx, ← hy, hlimit]
      exact hother x' y' hy'
    · rw [Heap.add_of_ne hx] at hy
      by_cases hx' : x' = d
      · rw [hx', Heap.add_self, Option.some_inj] at hy'
        rw [hx', ← hy', hlimit]
        exact (hother x y hy).symm
      · rw [Heap.add_of_ne hx'] at hy'
        exact hw.apart x y x' y' hy hy' hne

/-- Linking a chunk moves no bump pointer and changes no size. -/
theorem Heap.sizeOf_setNext (hchunk : h.chunk c = some chunk) (x : ℕ) :
    (h.set c { chunk with next_ := succ }).sizeOf x = h.sizeOf x := by
  by_cases hx : x = c
  · rw [hx, Heap.sizeOf, Heap.sizeOf, Heap.set_self, hchunk]
    rfl
  · rw [Heap.sizeOf, Heap.sizeOf, Heap.set_of_ne hx]

/-- A chunk is linked to another one. -/
theorem Heap.Wf.setNext (hw : h.Wf) (hchunk : h.chunk c = some chunk) (succ : Option ℕ) :
    h.setNext c succ = some (h.set c { chunk with next_ := succ }) ∧
      (h.set c { chunk with next_ := succ }).Wf := by
  have hwf := hw.wf c chunk hchunk
  apply And.intro
  · simp only [Heap.setNext, hchunk, Option.bind_eq_bind, Option.bind_some]
  · exact hw.set hchunk rfl ⟨hwf.aligned, hwf.limit_eq, hwf.limit_lt, hwf.le_bump, hwf.bump_le⟩

/-- What is in the other chunks and the bump pointers are as before when a chunk is linked. -/
theorem Heap.exists_setNext {x : ℕ} {y : BumpChunk} (succ : Option ℕ)
    (hchunk : h.chunk c = some chunk) (hy : h.chunk x = some y) :
    ∃ y', (h.set c { chunk with next_ := succ }).chunk x = some y' ∧ y'.bump = y.bump := by
  by_cases hx : x = c
  · rw [hx, hchunk, Option.some_inj] at hy
    rw [hx, ← hy, Heap.set_self]
    exact ⟨_, rfl, rfl⟩
  · rw [Heap.set_of_ne hx]
    exact ⟨y, hy, rfl⟩

/-- Chunks that are linked to each other come to the end of a chain. -/
theorem IsChain.append (hc : IsChain h a u after) (hne : u ≠ [])
    (hl : Linked h.next (some start) l) (hsome : ∀ x ∈ l, (h.chunk x).isSome)
    (hnodup : (u.chunks ++ after ++ l).Nodup) :
    ∃ c chunk, a.last = some c ∧ c ∈ u.chunks ++ after ∧ h.chunk c = some chunk ∧
      ∀ a' : LifoAlloc, a'.first = a.first → a'.latest = a.latest → a'.last = l.getLast? →
        a'.curSize_ = a.curSize_ + (l.map h.sizeOf).sum →
        a'.defaultChunkSize_ = a.defaultChunkSize_ →
        IsChain (h.set c { chunk with next_ := some start }) a' u (after ++ l) := by
  obtain ⟨xs, c, hxs⟩ : ∃ xs c, u.chunks ++ after = xs ++ [c] := by
    rcases List.eq_nil_or_concat (u.chunks ++ after) with hnil | ⟨xs, c, hxs⟩
    · rw [List.append_eq_nil_iff, Position.chunks, List.map_eq_nil_iff] at hnil
      exact absurd hnil.1 hne
    · rw [List.concat_eq_append] at hxs
      exact ⟨xs, c, hxs⟩
  have hmem : c ∈ u.chunks ++ after := by
    rw [hxs]
    exact List.mem_append_right _ List.mem_cons_self
  obtain ⟨chunk, hchunk⟩ := hc.exists_chunk hmem
  refine ⟨c, chunk, ?_, hmem, hchunk, ?_⟩
  · rw [hc.last_eq, hxs, List.getLast?_concat]
  intro a' hfirst hlatest hlast hsize hdefault
  have hnil : l ≠ [] := by
    rintro rfl
    exact Option.some_ne_none _ hl
  have hassoc : u.chunks ++ (after ++ l) = xs ++ c :: l := by
    rw [← List.append_assoc, hxs, List.append_assoc]
    rfl
  have hnodup' := hnodup
  rw [List.append_assoc] at hnodup'
  constructor
  · have hlinked := hc.linked
    rw [hxs] at hlinked
    rw [hassoc] at hnodup' ⊢
    rw [hfirst]
    have hxs' := (List.nodup_append.mp hnodup').2.2
    have hcl := (List.nodup_cons.mp (List.nodup_append.mp hnodup').2.1).1
    apply hlinked.join (fun hx => hxs' c hx c List.mem_cons_self rfl) hl hcl
    · rw [Heap.next, Heap.set_self]
      rfl
    · intro w hw
      rw [Heap.next, Heap.set_of_ne hw, Heap.next]
  · exact hnodup'
  · intro cb hcb
    obtain ⟨y, hy, hbump⟩ := hc.bump_eq cb hcb
    obtain ⟨y', hy', hbump'⟩ := Heap.exists_setNext (some start) hchunk hy
    exact ⟨y', hy', hbump'.trans hbump⟩
  · intro x hx
    have hx' : (h.chunk x).isSome := by
      rcases List.mem_append.mp hx with hx | hx
      · exact hc.isSome x hx
      · exact hsome x hx
    obtain ⟨y, hy⟩ := Option.isSome_iff_exists.mp hx'
    obtain ⟨y', hy', _⟩ := Heap.exists_setNext (some start) hchunk hy
    rw [hy']
    rfl
  · rw [hlatest]
    exact hc.latest_eq
  · rw [hlast, ← List.append_assoc, List.getLast?_append_of_ne_nil _ hnil]
  · intro hu
    exact absurd hu hne
  · rw [hsize, hc.curSize_eq, ← List.sum_append, ← List.map_append, List.append_assoc]
    congr 1
    apply List.map_congr_left
    intro x _
    exact (Heap.sizeOf_setNext hchunk x).symm
  · rw [hdefault]
    exact hc.default_eq
  · rw [hdefault]
    exact hc.le_default

/-- Chunks that are linked to each other become a chain. -/
theorem isChain_of_linked {first : ℕ} {rest : List ℕ} {first' : BumpChunk}
    (hl : Linked h.next (some first) (first :: rest)) (hnodup : (first :: rest).Nodup)
    (hfirst' : h.chunk first = some first') (hsome : ∀ x ∈ rest, (h.chunk x).isSome)
    (hfirst : a.first = some first) (hlatest : a.latest = some first)
    (hlast : a.last = (first :: rest).getLast?)
    (hsize : a.curSize_ = ((first :: rest).map h.sizeOf).sum)
    (hdefault : ∃ k, a.defaultChunkSize_ = 2 ^ k) (hle : sizeofBumpChunk ≤ a.defaultChunkSize_) :
    IsChain h a [(first, first'.bump)] rest := by
  constructor
  · rw [hfirst]
    exact hl
  · exact hnodup
  · intro cb hcb
    rw [List.mem_singleton] at hcb
    rw [hcb]
    exact ⟨first', hfirst', rfl⟩
  · exact hsome
  · exact hlatest
  · exact hlast
  · nofun
  · exact hsize
  · exact hdefault
  · exact hle

/-- The size of a new chunk is a power of two with space for the block. -/
theorem chunkSize_spec (hn : n < 2 ^ 64) (hdefault : ∃ k, a.defaultChunkSize_ = 2 ^ k)
    (hle : sizeofBumpChunk ≤ a.defaultChunkSize_) (hsize : a.chunkSize n = some size) :
    (∃ k, size = 2 ^ k) ∧ 32 ≤ size := by
  simp only [LifoAlloc.chunkSize] at hsize
  split at hsize
  · split at hsize
    · cases hsize
    · rename_i hover
      rw [Option.some_inj] at hsize
      rw [← hsize]
      refine ⟨⟨_, rfl⟩, ?_⟩
      have hclog : (n + sizeofBumpChunk) % addressSpace ≤
          2 ^ Nat.clog 2 ((n + sizeofBumpChunk) % addressSpace) :=
        Nat.le_pow_clog (Nat.lt_succ_self 1) _
      rw [sizeofBumpChunk, addressSpace] at hover hclog
      rw [not_or, not_lt] at hover
      rw [sizeofBumpChunk, addressSpace]
      omega
  · rw [Option.some_inj] at hsize
    rw [← hsize]
    exact ⟨hdefault, hle⟩

/-- A new chunk comes to the end of a chain without unused ones. -/
theorem addChunk_spec (hw : h.Wf) (hc : IsChain h a u []) (hf : Fresh h size d)
    (hpow : size = 2 ^ k) (hsize : 32 ≤ size) :
    ∃ h' a', a.addChunk h size d = some (h', a') ∧ h'.Wf ∧
      IsChain h' a' (u ++ resetChunks [d]) [] ∧ a'.markCount = a.markCount ∧
      Frame h h' u.chunks ((u ++ resetChunks [d]).chunks) := by
  obtain ⟨hnew, hwf⟩ := hw.new_ hf hpow hsize
  have hnone := hf.chunk_eq_none hw hsize
  have hself := Heap.add_self h size d
  have hcomputed :
      (BumpChunk.make d (size - sizeofBumpChunk)).computedSizeOfIncludingThis d = size := by
    show d + 32 + (size - 32) - d = size
    omega
  have hsizeOf : (h.add size d).sizeOf d = size := by
    rw [Heap.sizeOf, hself, Option.map_some, Option.getD_some, hcomputed]
  have hchunks : (u ++ resetChunks [d]).chunks = u.chunks ++ [d] := by
    rw [Position.chunks, List.map_append]
    rfl
  have hd : d ∉ u.chunks := by
    intro hd
    obtain ⟨y, hy⟩ := hc.exists_chunk (List.mem_append_left [] hd)
    rw [hnone] at hy
    cases hy
  have hkept : ∀ x, (h.chunk x).isSome → (h.add size d).chunk x = h.chunk x := by
    intro x hx
    apply Heap.add_of_ne
    rintro rfl
    rw [hnone] at hx
    cases hx
  have hold : ∀ x ∈ u.chunks ++ [], (h.add size d).chunk x = h.chunk x :=
    fun x hx => hkept x (hc.chunk_isSome hx)
  have hmem : ∀ x ∈ (u ++ resetChunks [d]).chunks, x ∈ u.chunks ∨ h.chunk x = none := by
    intro x hx
    rw [hchunks, List.mem_append, List.mem_singleton] at hx
    rcases hx with hx | rfl
    · exact Or.inl hx
    · exact Or.inr hnone
  have hlinked : Linked (h.add size d).next (some d) [d] := by
    apply And.intro rfl
    show (h.add size d).next d = none
    rw [Heap.next, hself]
    rfl
  cases hfirst : a.first with
  | none =>
    have hu : u = [] := by
      have hhead := hc.linked.head?_eq
      rw [hfirst, List.append_nil] at hhead
      exact List.map_eq_nil_iff.mp (List.head?_eq_none_iff.mp hhead.symm)
    subst hu
    refine ⟨h.add size d, { a with
      first := some d
      latest := some d
      last := some d }.incrementCurSize size, ?_, hwf, ?_, rfl, ?_, hmem⟩
    · simp only [LifoAlloc.addChunk, hnew, hself, hcomputed, hfirst, guard_true,
        Option.bind_eq_bind, Option.pure_def, Option.bind_some]
    · refine isChain_of_linked hlinked (List.nodup_cons.mpr ⟨List.not_mem_nil, List.nodup_nil⟩) hself (by simp) rfl rfl
        rfl ?_ hc.default_eq hc.le_default
      have hcur := hc.curSize_eq
      rw [LifoAlloc.incrementCurSize, hcur, List.map_singleton, List.sum_singleton, hsizeOf]
      exact Nat.zero_add size
    · exact fun x _ hx => hkept x hx
  | some first =>
    have hne : u ≠ [] := by
      rintro rfl
      have hhead := hc.linked.head?_eq
      rw [hfirst] at hhead
      cases hhead
    have hc' := hc.congr hold
    have hsome : ∀ x ∈ [d], ((h.add size d).chunk x).isSome := by
      intro x hx
      rw [List.mem_singleton.mp hx, hself]
      rfl
    have hnodup : (u.chunks ++ [] ++ [d]).Nodup := by
      rw [List.nodup_append]
      refine ⟨hc.nodup, List.nodup_cons.mpr ⟨List.not_mem_nil, List.nodup_nil⟩, ?_⟩
      rintro x hx y hy rfl
      rw [List.append_nil] at hx
      exact hd (List.mem_singleton.mp hy ▸ hx)
    obtain ⟨pre, latest, b, chunk, hu, hlatest, hchunk, hbump⟩ := hc'.exists_latest hne
    obtain ⟨c, chunk', hlast, hmemc, hchunk', happend⟩ := hc'.append hne hlinked hsome hnodup
    -- the latest chunk is the last one
    have hlatest' : c = latest := by
      have hlast' := hc.last_eq
      rw [hlast, List.append_nil, hu, Position.chunks, List.map_append, List.map_singleton,
        List.getLast?_concat, Option.some_inj] at hlast'
      exact hlast'
    subst hlatest'
    have hchunkeq : chunk' = chunk := Option.some_inj.mp (hchunk'.symm.trans hchunk)
    subst hchunkeq
    have hnext : chunk'.next_ = none := by
      rw [hu] at hc'
      have hnext := hc'.next_latest
      rw [Heap.next, hchunk'] at hnext
      exact hnext
    obtain ⟨hset, hwf'⟩ := hwf.setNext hchunk' (some d)
    have hchain := happend ({ a with last := some d }.incrementCurSize size) rfl rfl rfl
      (by rw [List.map_singleton, List.sum_singleton, hsizeOf]; rfl) rfl
    have hcd : d ≠ c := by
      rintro rfl
      rw [List.append_nil] at hmemc
      exact hd hmemc
    have hself' : ((h.add size d).set c { chunk' with next_ := some d }).chunk d =
        some (BumpChunk.make d (size - sizeofBumpChunk)) := by
      rw [Heap.set_of_ne hcd, hself]
    refine ⟨_, { a with latest := some d, last := some d }.incrementCurSize size, ?_, hwf',
      hchain.advance hself', rfl, ?_, hmem⟩
    · simp only [LifoAlloc.addChunk, hnew, hself, hcomputed, hfirst, hlatest, hchunk', hnext, hset,
        guard_true, Option.bind_eq_bind, Option.pure_def, Option.bind_some]
    · intro x hx hxsome
      rw [List.append_nil] at hmemc
      have hxc : x ≠ c := by
        rintro rfl
        exact hx hmemc
      rw [Heap.set_of_ne hxc]
      exact hkept x hxsome

end SpiderMonkey.Ds
