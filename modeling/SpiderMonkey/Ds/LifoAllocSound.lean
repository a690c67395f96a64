import SpiderMonkey.Ds.LifoAllocTransfer

/-!
# LIFO allocation hands out no memory twice

Any number of allocators take turns, and chunks go from one to the other. The chains of different
allocators have no chunk in common, so that an operation leaves all other allocators as they were.
-/

namespace SpiderMonkey.Ds

/-- Where `malloc` gives memory for a chunk, it is new memory. -/
def MallocFresh (h : Heap) (a : LifoAlloc) (n : ℕ) (malloc : Option ℕ) : Prop :=
  ∀ d ∈ malloc, ∀ size ∈ a.chunkSize n, Fresh h size d

/-- What the callers of an operation see to. Blocks are smaller than all memory, an allocator does not
take its own chunks, the assertions hold, and all chunks are taken of an allocator only if it has no
blocks where it looks empty. -/
def State.Permitted (s : State) : Op → Prop
  | .alloc i n malloc => n + sizeofBumpChunk ≤ addressSpace ∧ MallocFresh s.heap (s.lifo i) n malloc
  | .ensureUnusedApproximate i n malloc =>
    n + sizeofBumpChunk ≤ addressSpace ∧ MallocFresh s.heap (s.lifo i) n malloc
  | .mark _ => True
  | .release i => s.marks i ≠ []
  | .releaseAll i => (s.lifo i).markCount = 0
  | .freeAll _ => True
  | .steal i j => i ≠ j ∧ s.marks i = [] ∧ (s.lifo j).markCount = 0
  | .transferFrom i j => i ≠ j ∧ (s.lifo i).markCount = 0 ∧ (s.lifo j).markCount = 0 ∧
    ((s.lifo j).isEmpty s.heap = some true → s.blocks j = [])
  | .transferUnusedFrom i j => i ≠ j ∧ (s.lifo i).markCount = 0 ∧ (s.lifo i).latest = (s.lifo i).first

instance (h : Heap) (size d : ℕ) : Decidable (Fresh h size d) :=
  decidable_of_iff (8 ∣ d ∧ d + size < 2 ^ 64 ∧ ∀ c ∈ h.addresses, d + size ≤ c ∨ c + h.sizeOf c ≤ d)
    ⟨fun hf => ⟨hf.1, hf.2.1, hf.2.2⟩, fun hf => ⟨hf.aligned, hf.lt, hf.apart⟩⟩

instance (h : Heap) (a : LifoAlloc) (n : ℕ) (malloc : Option ℕ) : Decidable (MallocFresh h a n malloc) :=
  inferInstanceAs (Decidable (∀ d ∈ malloc, ∀ size ∈ a.chunkSize n, Fresh h size d))

instance (s : State) (op : Op) : Decidable (s.Permitted op) := by
  cases op <;> unfold State.Permitted <;> infer_instance

/-- A run whose operations are all permitted. -/
def State.PermittedRun : State → List Op → Prop
  | _, [] => True
  | s, op :: ops => s.Permitted op ∧
    match s.step op with
    | none => True
    | some s' => s'.PermittedRun ops

/-- Whether a run is permitted is found out by running it. -/
instance State.decidablePermittedRun : ∀ (ops : List Op) (s : State), Decidable (s.PermittedRun ops)
  | [], _ => isTrue trivial
  | op :: ops, s =>
    have : Decidable (match s.step op with
        | none => True
        | some s' => s'.PermittedRun ops) :=
      match s.step op with
      | none => isTrue trivial
      | some s' => State.decidablePermittedRun ops s'
    inferInstanceAs (Decidable (_ ∧ _))

/-- Operations, one after the other. -/
def State.run : State → List Op → Option State
  | s, [] => some s
  | s, op :: ops => do
    let s ← s.step op
    s.run ops

/-- The memory of all allocators is in order. Each allocator has its chunks on a chain, with the latest
one among them and the last one at the end, and its size is theirs. Each block is aligned, inside a
chunk of the allocator that has it, and apart from all others. -/
structure State.Sound (s : State) : Prop where
  chain : ∀ i, ∃ l, Linked s.heap.next (s.lifo i).first l ∧ l.Nodup ∧
    (∀ c ∈ (s.lifo i).latest, c ∈ l) ∧ (s.lifo i).last = l.getLast? ∧
    (s.lifo i).curSize_ = (l.map s.heap.sizeOf).sum ∧
    ∀ block ∈ s.blocks i, LIFO_ALLOC_ALIGN ∣ block.start ∧ ∃ c ∈ l, ∃ chunk,
      s.heap.chunk c = some chunk ∧ c + sizeofBumpChunk ≤ block.start ∧
      block.start + block.size ≤ chunk.limit
  apart : ∀ i, (s.blocks i).Pairwise Block.Apart
  apart_of_ne : ∀ i j, i ≠ j → ∀ block ∈ s.blocks i, ∀ block' ∈ s.blocks j, block.Apart block'

/-- All allocators are at positions, with chains of their own. -/
structure State.Inv (s : State) (u : ℕ → Position) (after : ℕ → List ℕ) : Prop where
  wf : s.heap.Wf
  inv : ∀ i, (s.lifo i).Inv s.heap (u i) (after i) (s.blocks i) (s.marks i)
  disjoint : ∀ i j, i ≠ j → ((u i).chunks ++ after i).Disjoint ((u j).chunks ++ after j)

variable {s s' : State} {u : ℕ → Position} {after : ℕ → List ℕ} {h' : Heap} {a other : LifoAlloc}
  {i j : ℕ} {blocks blocks' : List Block} {marks marks' : List Mark}

/-- Allocators at positions are in order. -/
theorem State.Inv.sound (hi : s.Inv u after) : s.Sound := by
  constructor
  · intro k
    have hc := (hi.inv k).chain
    refine ⟨(u k).chunks ++ after k, hc.linked, hc.nodup, ?_, hc.last_eq, hc.curSize_eq, ?_⟩
    · intro c hlatest
      rw [hc.latest_eq, Option.mem_def, Option.map_eq_some_iff] at hlatest
      obtain ⟨cb, hcb, rfl⟩ := hlatest
      exact List.mem_append_left _ (List.mem_map_of_mem (List.mem_of_getLast? hcb))
    · intro block hblock
      obtain ⟨hdvd, c, hc', hin⟩ := hc.block_mem hi.wf (hi.inv k).holds.blocksIn hblock
      exact ⟨hdvd, c, List.mem_append_left _ hc', hin⟩
  · intro k
    exact (hi.inv k).holds.apart
  · intro k k' hne block hblock block' hblock'
    apply apart_of_disjoint hi.wf (hi.inv k).chain (hi.inv k).holds.blocksIn (hi.inv k').chain
      (hi.inv k').holds.blocksIn _ hblock hblock'
    intro x hx hx'
    exact hi.disjoint k k' hne (List.mem_append_left _ hx) (List.mem_append_left _ hx')

/-- An allocator does not notice what happens to the chunks of others. -/
theorem LifoAlloc.Inv.congr {h : Heap} {v : Position} {rest l : List ℕ} (hi : a.Inv h v rest blocks marks)
    (hd : (v.chunks ++ rest).Disjoint l)
    (hsame : ∀ x ∉ l, (h.chunk x).isSome → h'.chunk x = h.chunk x) : a.Inv h' v rest blocks marks := by
  refine ⟨hi.chain.congr ?_, hi.holds, hi.marks_le⟩
  intro x hx
  exact hsame x (fun hx' => hd hx hx') (hi.chain.chunk_isSome hx)

/-- An allocator is the same in two states, apart from the memory. -/
structure SameAt (s s' : State) (k : ℕ) : Prop where
  lifo : s'.lifo k = s.lifo k
  blocks : s'.blocks k = s.blocks k
  marks : s'.marks k = s.marks k

/-- What one allocator does to its own chunks keeps all allocators in order. -/
theorem State.Inv.change (hi : s.Inv u after) (s' : State) (i : ℕ)
    (hl : Leaves s.heap s'.heap ((u i).chunks ++ after i) (s'.lifo i) (s'.blocks i) (s'.marks i))
    (hsame : ∀ k, k ≠ i → SameAt s s' k) : ∃ u' after', s'.Inv u' after' := by
  obtain ⟨hw, v, rest, ha, hframe⟩ := hl
  refine ⟨Function.update u i v, Function.update after i rest, hw, ?_, ?_⟩
  · intro k
    by_cases hk : k = i
    · subst hk
      rw [Function.update_self, Function.update_self]
      exact ha
    · rw [Function.update_of_ne hk, Function.update_of_ne hk, (hsame k hk).lifo, (hsame k hk).blocks,
        (hsame k hk).marks]
      exact (hi.inv k).congr (hi.disjoint k i hk) hframe.same
  · -- new chunks are on no chain
    have hnew (k : ℕ) (hk : k ≠ i) : (v.chunks ++ rest).Disjoint ((u k).chunks ++ after k) := by
      intro x hx hx'
      rcases hframe.mem x hx with hold | hnone
      · exact hi.disjoint k i hk hx' hold
      · obtain ⟨chunk, hchunk⟩ := (hi.inv k).chain.exists_chunk hx'
        rw [hchunk] at hnone
        cases hnone
    intro k k' hne
    by_cases hk : k = i
    · subst hk
      rw [Function.update_self, Function.update_self, Function.update_of_ne hne.symm,
        Function.update_of_ne hne.symm]
      exact hnew k' hne.symm
    · by_cases hk' : k' = i
      · subst hk'
        rw [Function.update_self, Function.update_self, Function.update_of_ne hk,
          Function.update_of_ne hk]
        exact (hnew k hk).symm
      · rw [Function.update_of_ne hk, Function.update_of_ne hk, Function.update_of_ne hk',
          Function.update_of_ne hk']
        exact hi.disjoint k k' hne

/-- Chunks that go from one allocator to another keep all allocators in order. -/
theorem State.Inv.changeTwo (hi : s.Inv u after) (hij : i ≠ j) (s' : State) (hw : s'.heap.Wf)
    (v : Position) (rest : List ℕ) (w : Position) (rest' : List ℕ)
    (ha : (s'.lifo i).Inv s'.heap v rest (s'.blocks i) (s'.marks i))
    (hother : (s'.lifo j).Inv s'.heap w rest' (s'.blocks j) (s'.marks j))
    (hd : (v.chunks ++ rest).Disjoint (w.chunks ++ rest'))
    (hv : ∀ x ∈ v.chunks ++ rest, x ∈ (u i).chunks ++ after i ∨ x ∈ (u j).chunks ++ after j)
    (hw' : ∀ x ∈ w.chunks ++ rest', x ∈ (u i).chunks ++ after i ∨ x ∈ (u j).chunks ++ after j)
    (hframe : ∀ x, x ∉ (u i).chunks ++ after i → x ∉ (u j).chunks ++ after j →
      s'.heap.chunk x = s.heap.chunk x)
    (hsame : ∀ k, k ≠ i → k ≠ j → SameAt s s' k) : ∃ u' after', s'.Inv u' after' := by
  have hapart (k : ℕ) (hki : k ≠ i) (hkj : k ≠ j) {l : List ℕ}
      (hl : ∀ x ∈ l, x ∈ (u i).chunks ++ after i ∨ x ∈ (u j).chunks ++ after j) :
      l.Disjoint ((u k).chunks ++ after k) := by
    intro x hx hx'
    rcases hl x hx with hxi | hxj
    · exact hi.disjoint k i hki hx' hxi
    · exact hi.disjoint k j hkj hx' hxj
  refine ⟨Function.update (Function.update u j w) i v,
    Function.update (Function.update after j rest') i rest, hw, ?_, ?_⟩
  · intro k
    by_cases hki : k = i
    · subst hki
      rw [Function.update_self, Function.update_self]
      exact ha
    by_cases hkj : k = j
    · subst hkj
      rw [Function.update_of_ne hki, Function.update_of_ne hki, Function.update_self,
        Function.update_self]
      exact hother
    · rw [Function.update_of_ne hki, Function.update_of_ne hki, Function.update_of_ne hkj,
        Function.update_of_ne hkj, (hsame k hki hkj).lifo, (hsame k hki hkj).blocks,
        (hsame k hki hkj).marks]
      refine ⟨(hi.inv k).chain.congr ?_, (hi.inv k).holds, (hi.inv k).marks_le⟩
      intro x hx
      exact hframe x (fun hx' => hi.disjoint k i hki hx hx') fun hx' => hi.disjoint k j hkj hx hx'
  · -- the chunks of the two stay among themselves
    have hcases (k : ℕ) : (k = i ∧ Function.update (Function.update u j w) i v k = v ∧
          Function.update (Function.update after j rest') i rest k = rest) ∨
        (k = j ∧ Function.update (Function.update u j w) i v k = w ∧
          Function.update (Function.update after j rest') i rest k = rest') ∨
        (k ≠ i ∧ k ≠ j ∧ Function.update (Function.update u j w) i v k = u k ∧
          Function.update (Function.update after j rest') i rest k = after k) := by
      by_cases hki : k = i
      · subst hki
        exact Or.inl ⟨rfl, Function.update_self _ _ _, Function.update_self _ _ _⟩
      by_cases hkj : k = j
      · subst hkj
        rw [Function.update_of_ne hki, Function.update_of_ne hki]
        exact Or.inr (Or.inl ⟨rfl, Function.update_self _ _ _, Function.update_self _ _ _⟩)
      · rw [Function.update_of_ne hki, Function.update_of_ne hki, Function.update_of_ne hkj,
          Function.update_of_ne hkj]
        exact Or.inr (Or.inr ⟨hki, hkj, rfl, rfl⟩)
    intro k k' hne
    rcases hcases k with ⟨hk, hu, hafter⟩ | ⟨hk, hu, hafter⟩ | ⟨hki, hkj, hu, hafter⟩ <;>
      rcases hcases k' with ⟨hk', hu', hafter'⟩ | ⟨hk', hu', hafter'⟩ | ⟨hki', hkj', hu', hafter'⟩ <;>
      rw [hu, hafter, hu', hafter']
    · exact absurd (hk.trans hk'.symm) hne
    · exact hd
    · exact hapart k' hki' hkj' hv
    · exact hd.symm
    · exact absurd (hk.trans hk'.symm) hne
    · exact hapart k' hki' hkj' hw'
    · exact (hapart k hki hkj hv).symm
    · exact (hapart k hki hkj hw').symm
    · exact hi.disjoint k k' hne

/-- An allocator hands out a block. -/
theorem State.Inv.alloc {k n : ℕ} {malloc : Option ℕ} (hi : s.Inv u after)
    (hp : s.Permitted (.alloc k n malloc)) :
    ∃ s' u' after', s.step (.alloc k n malloc) = some s' ∧ s'.Inv u' after' := by
  obtain ⟨hn, hf⟩ := hp
  obtain ⟨h', a', result, halloc, hl⟩ := alloc_spec malloc hi.wf (hi.inv k) hn
    (fun d size hd hsize => hf d hd size hsize)
  cases result with
  | none =>
    obtain ⟨u', after', hi'⟩ := hi.change (s.setLifo k h' a') k
      (by simpa only [State.setLifo, Function.update_self, addBlock] using hl)
      (fun k' hk => ⟨Function.update_of_ne hk _ _, rfl, rfl⟩)
    refine ⟨_, u', after', ?_, hi'⟩
    simp only [State.step, halloc, Option.bind_eq_bind, Option.bind_some]
  | some start =>
    obtain ⟨u', after', hi'⟩ := hi.change
      ((s.setLifo k h' a').setBlocks k (s.blocks k ++ [⟨start, n⟩])) k
      (by simpa only [State.setLifo, State.setBlocks, Function.update_self, addBlock] using hl)
      (fun k' hk => ⟨Function.update_of_ne hk _ _, Function.update_of_ne hk _ _, rfl⟩)
    refine ⟨_, u', after', ?_, hi'⟩
    simp only [State.step, halloc, Option.bind_eq_bind, Option.bind_some]

/-- An allocator makes sure of memory. -/
theorem State.Inv.ensureUnusedApproximate {k n : ℕ} {malloc : Option ℕ} (hi : s.Inv u after)
    (hp : s.Permitted (.ensureUnusedApproximate k n malloc)) :
    ∃ s' u' after', s.step (.ensureUnusedApproximate k n malloc) = some s' ∧ s'.Inv u' after' := by
  obtain ⟨hn, hf⟩ := hp
  obtain ⟨h', a', found, hensure, hl⟩ := ensureUnusedApproximate_spec malloc hi.wf
    (hi.inv k) hn (fun d size hd hsize => hf d hd size hsize)
  obtain ⟨u', after', hi'⟩ := hi.change (s.setLifo k h' a') k
    (by simpa only [State.setLifo, Function.update_self] using hl)
    (fun k' hk => ⟨Function.update_of_ne hk _ _, rfl, rfl⟩)
  refine ⟨_, u', after', ?_, hi'⟩
  simp only [State.step, hensure, Option.bind_eq_bind, Option.bind_some]

/-- The position of an allocator is marked. -/
theorem State.Inv.mark (hi : s.Inv u after)
    (k : ℕ) :
    ∃ s' u' after', s.step (.mark k) = some s' ∧ s'.Inv u' after' := by
  cases hlatest : (s.lifo k).latest with
  | none =>
    have hu : u k = [] := by
      have heq := (hi.inv k).chain.latest_eq
      rw [hlatest] at heq
      exact List.getLast?_eq_none_iff.mp (Option.map_eq_none_iff.mp heq.symm)
    have hat : (⟨none, 0, (s.blocks k).length⟩ : Mark).IsAt (u k) := by
      rw [hu]
      rfl
    have hmark := mark_spec (hi.inv k) hat rfl
    obtain ⟨u', after', hi'⟩ := hi.change
      ((s.setLifo k s.heap
        { s.lifo k with markCount := (s.lifo k).markCount + 1 }).setMarks k
          (⟨none, 0, (s.blocks k).length⟩ :: s.marks k)) k
      ⟨hi.wf, u k, after k,
        by simpa only [State.setLifo, State.setMarks, Function.update_self] using hmark,
        Frame.refl _ _⟩
      (fun k' hk => ⟨Function.update_of_ne hk _ _, rfl, Function.update_of_ne hk _ _⟩)
    refine ⟨_, u', after', ?_, hi'⟩
    simp only [State.step, State.mark, hlatest]
  | some latest =>
    have hne : u k ≠ [] := by
      intro hu
      have heq := (hi.inv k).chain.latest_eq
      rw [hlatest, hu] at heq
      cases heq
    obtain ⟨pre, c, b, chunk, hu, hlatest', hchunk, hbump⟩ := (hi.inv k).chain.exists_latest hne
    obtain rfl : latest = c := Option.some_inj.mp (hlatest.symm.trans hlatest')
    have hat : (⟨some latest, chunk.bump, (s.blocks k).length⟩ : Mark).IsAt (u k) := by
      rw [hu, Mark.IsAt, List.getLast?_concat]
      exact ⟨rfl, hbump, by rw [← hbump]; exact (hi.wf.wf latest chunk hchunk).le_bump⟩
    have hmark := mark_spec (hi.inv k) hat rfl
    obtain ⟨u', after', hi'⟩ := hi.change
      ((s.setLifo k s.heap
        { s.lifo k with markCount := (s.lifo k).markCount + 1 }).setMarks k
          (⟨some latest, chunk.bump, (s.blocks k).length⟩ :: s.marks k)) k
      ⟨hi.wf, u k, after k,
        by simpa only [State.setLifo, State.setMarks, Function.update_self] using hmark,
        Frame.refl _ _⟩
      (fun k' hk => ⟨Function.update_of_ne hk _ _, rfl, Function.update_of_ne hk _ _⟩)
    refine ⟨_, u', after', ?_, hi'⟩
    simp only [State.step, State.mark, hlatest, hchunk, Option.bind_eq_bind, Option.bind_some]

/-- An allocator goes back to its newest mark. -/
theorem State.Inv.release {k : ℕ} (hi : s.Inv u after)
    (hp : s.marks k ≠ []) :
    ∃ s' u' after', s.step (.release k) = some s' ∧ s'.Inv u' after' := by
  obtain ⟨m, marks, hmarks⟩ := List.exists_cons_of_ne_nil hp
  have hinv := hi.inv k
  rw [hmarks] at hinv
  obtain ⟨v, hext, hat, hholds⟩ := hinv.holds.release
  have hcount : marks.length ≤ (s.lifo k).markCount - 1 := Nat.le_sub_one_of_lt hinv.marks_le
  have hchain : IsChain s.heap { s.lifo k with markCount := (s.lifo k).markCount - 1 } (u k) (after k) :=
    hinv.chain.of_eq rfl rfl rfl rfl rfl
  rcases List.eq_nil_or_concat v with rfl | ⟨pre, ⟨c, p⟩, hv⟩
  · have hm : m.chunk = none := hat
    obtain ⟨h', a', v', rest, hrewind, hw', hc', hcount', hframe⟩ := rewind_spec hi.wf hchain
    obtain ⟨u', after', hi'⟩ := hi.change
      (((s.setLifo k h' a').setMarks k marks).setBlocks k ((s.blocks k).take m.blocks)) k
      ⟨hw', v', rest, by
        simp only [State.setLifo, State.setMarks, State.setBlocks, Function.update_self]
        exact ⟨hc', hholds.mono (Or.inl rfl), by rw [hcount']; exact hcount⟩, hframe⟩
      (fun k' hk => ⟨Function.update_of_ne hk _ _, Function.update_of_ne hk _ _,
        Function.update_of_ne hk _ _⟩)
    refine ⟨_, u', after', ?_, hi'⟩
    simp only [State.step, State.release, hmarks, hm, hrewind, Option.bind_eq_bind, Option.bind_some]
  · rw [List.concat_eq_append] at hv
    subst hv
    rw [Mark.IsAt, List.getLast?_concat] at hat
    obtain ⟨hm, hmark, hle⟩ := hat
    obtain ⟨chunk, chunk', rest, hchunk, hrelease, hw', hc', hframe⟩ :=
      release_spec hi.wf hchain hext hle
    obtain ⟨u', after', hi'⟩ := hi.change
      (((s.setLifo k (s.heap.set c chunk')
        { s.lifo k with
          latest := some c
          markCount := (s.lifo k).markCount - 1 }).setMarks k marks).setBlocks k
            ((s.blocks k).take m.blocks)) k
      ⟨hw', pre ++ [(c, p)], rest, by
        simp only [State.setLifo, State.setMarks, State.setBlocks, Function.update_self]
        exact ⟨hc', hholds, hcount⟩, hframe⟩
      (fun k' hk => ⟨Function.update_of_ne hk _ _, Function.update_of_ne hk _ _,
        Function.update_of_ne hk _ _⟩)
    refine ⟨_, u', after', ?_, hi'⟩
    simp only [State.step, State.release, hmarks, hm, hmark, hchunk, hrelease, Option.bind_eq_bind,
      Option.bind_some]

/-- An allocator goes back to its start. -/
theorem State.Inv.releaseAll {k : ℕ} (hi : s.Inv u after)
    (hcount : (s.lifo k).markCount = 0) :
    ∃ s' u' after', s.step (.releaseAll k) = some s' ∧ s'.Inv u' after' := by
  have hinv := hi.inv k
  obtain ⟨h', a', v', rest, hrewind, hw', hc', hcount', hframe⟩ := rewind_spec hi.wf hinv.chain
  have hmarks := hinv.marks_eq_nil hcount
  obtain ⟨u', after', hi'⟩ := hi.change ((s.setLifo k h' a').setBlocks k []) k
    ⟨hw', v', rest, by
      simp only [State.setLifo, State.setBlocks, Function.update_self, hmarks]
      exact ⟨hc', holds_nil v', Nat.zero_le _⟩, hframe⟩
    (fun k' hk => ⟨Function.update_of_ne hk _ _, Function.update_of_ne hk _ _, rfl⟩)
  refine ⟨_, u', after', ?_, hi'⟩
  simp only [State.step, hcount, hrewind, guard_true, Option.bind_eq_bind, Option.pure_def,
    Option.bind_some]

/-- An allocator frees its memory. -/
theorem State.Inv.freeAll (hi : s.Inv u after)
    (k : ℕ) :
    ∃ s' u' after', s.step (.freeAll k) = some s' ∧ s'.Inv u' after' := by
  obtain ⟨h', a', hfree, hw', ha', hframe⟩ := freeAll_spec hi.wf (hi.inv k).chain
  obtain ⟨u', after', hi'⟩ := hi.change
      (((s.setLifo k h' a').setBlocks k []).setMarks k []) k
    ⟨hw', [], [], by
      simpa only [State.setLifo, State.setBlocks, State.setMarks, Function.update_self] using ha',
      hframe⟩
    (fun k' hk => ⟨Function.update_of_ne hk _ _, Function.update_of_ne hk _ _,
      Function.update_of_ne hk _ _⟩)
  refine ⟨_, u', after', ?_, hi'⟩
  simp only [State.step, hfree, Option.bind_eq_bind, Option.bind_some]

/-- An allocator takes the chunks of another one in place of its own. -/
theorem State.Inv.steal (hi : s.Inv u after) (hp : s.Permitted (.steal i j)) :
    ∃ s' u' after', s.step (.steal i j) = some s' ∧ s'.Inv u' after' := by
  obtain ⟨hij, hmarks, hcount⟩ := hp
  have hmarks' := (hi.inv j).marks_eq_nil hcount
  obtain ⟨a, other, hsteal, ha, hother⟩ := steal_spec (a := s.lifo i) (hi.inv j) hcount
  obtain ⟨u', after', hi'⟩ := hi.changeTwo hij
    ((((s.setLifo i s.heap a).setLifo j s.heap other).setBlocks i (s.blocks j)).setBlocks j [])
    hi.wf (u j) (after j) [] []
    (by
      simp only [State.setLifo, State.setBlocks, Function.update_of_ne hij, Function.update_self, hmarks]
      exact ha)
    (by
      simp only [State.setLifo, State.setBlocks, Function.update_self, hmarks']
      exact hother)
    (List.disjoint_nil_right _) (fun x hx => Or.inr hx) (fun x hx => absurd hx List.not_mem_nil)
    (fun _ _ _ => rfl)
    (fun k hki hkj => ⟨by simp [State.setLifo, State.setBlocks, hki, hkj],
      by simp [State.setLifo, State.setBlocks, hki, hkj], rfl⟩)
  refine ⟨_, u', after', ?_, hi'⟩
  simp only [State.step, hsteal, Option.bind_eq_bind, Option.bind_some]

/-- An allocator takes the chunks of another one after its own. -/
theorem State.Inv.transferFrom (hi : s.Inv u after) (hp : s.Permitted (.transferFrom i j)) :
    ∃ s' u' after', s.step (.transferFrom i j) = some s' ∧ s'.Inv u' after' := by
  obtain ⟨hij, hcount, hcount', hempty⟩ := hp
  have hmarks := (hi.inv i).marks_eq_nil hcount
  have hmarks' := (hi.inv j).marks_eq_nil hcount'
  obtain ⟨h', a, other, w, rest, htransfer, hw, ha, hother, hmem, hframe⟩ :=
    transferFrom_spec hi.wf (hi.inv i) (hi.inv j) hcount hcount' (hi.disjoint i j hij) hempty
  obtain ⟨u', after', hi'⟩ := hi.changeTwo hij
    ((((s.setLifo i h' a).setLifo j h' other).setBlocks i
      (s.blocks i ++ s.blocks j)).setBlocks j [])
    hw w rest [] []
    (by
      simp only [State.setLifo, State.setBlocks, Function.update_of_ne hij, Function.update_self, hmarks]
      exact ha)
    (by
      simp only [State.setLifo, State.setBlocks, Function.update_self, hmarks']
      exact hother)
    (List.disjoint_nil_right _) hmem (fun x hx => absurd hx List.not_mem_nil)
    (fun x hx _ => hframe x hx)
    (fun k hki hkj => ⟨by simp [State.setLifo, State.setBlocks, hki, hkj],
      by simp [State.setLifo, State.setBlocks, hki, hkj], rfl⟩)
  refine ⟨_, u', after', ?_, hi'⟩
  simp only [State.step, htransfer, Option.bind_eq_bind, Option.bind_some]

/-- An allocator takes the unused chunks of another one. -/
theorem State.Inv.transferUnusedFrom (hi : s.Inv u after)
    (hp : s.Permitted (.transferUnusedFrom i j)) :
    ∃ s' u' after', s.step (.transferUnusedFrom i j) = some s' ∧ s'.Inv u' after' := by
  obtain ⟨hij, hcount, hlatest⟩ := hp
  obtain ⟨h', a, other, htransfer, hw, w, rest, rest', ha, hother, hmem, hmem', hd, hframe⟩ :=
    transferUnusedFrom_spec hi.wf (hi.inv i) (hi.inv j) hcount hlatest (hi.disjoint i j hij)
  obtain ⟨u', after', hi'⟩ := hi.changeTwo hij ((s.setLifo i h' a).setLifo j h' other)
    hw w rest (u j) rest'
    (by
      simp only [State.setLifo, Function.update_of_ne hij, Function.update_self]
      exact ha)
    (by
      simp only [State.setLifo, Function.update_self]
      exact hother)
    hd hmem (fun x hx => Or.inr (hmem' x hx)) hframe
    (fun k hki hkj => ⟨by simp [State.setLifo, hki, hkj], rfl, rfl⟩)
  refine ⟨_, u', after', ?_, hi'⟩
  simp only [State.step, htransfer, Option.bind_eq_bind, Option.bind_some]

/-- An operation that is permitted keeps all allocators in order, and its assertions hold. -/
theorem State.Inv.step {op : Op} (hi : s.Inv u after) (hp : s.Permitted op) :
    ∃ s' u' after', s.step op = some s' ∧ s'.Inv u' after' := by
  cases op with
  | alloc k n malloc => exact hi.alloc hp
  | ensureUnusedApproximate k n malloc => exact hi.ensureUnusedApproximate hp
  | mark k => exact hi.mark k
  | release k => exact hi.release hp
  | releaseAll k => exact hi.releaseAll hp
  | freeAll k => exact hi.freeAll k
  | steal k k' => exact hi.steal hp
  | transferFrom k k' => exact hi.transferFrom hp
  | transferUnusedFrom k k' => exact hi.transferUnusedFrom hp

/-- At the start there is nothing. -/
theorem inv_init {default : ℕ → ℕ} (hdefault : ∀ i, ∃ k, default i = 2 ^ k)
    (hle : ∀ i, sizeofBumpChunk ≤ default i) : (State.init default).Inv (fun _ => []) fun _ => [] := by
  refine ⟨⟨List.nodup_nil, by simp [State.init], by simp [State.init], by simp [State.init]⟩, ?_, ?_⟩
  · intro k
    exact ⟨isChain_nil (hdefault k) (hle k) rfl rfl rfl rfl rfl, holds_nil [], Nat.zero_le _⟩
  · intro k k' _
    exact List.disjoint_nil_left _

/-- Permitted operations keep all allocators in order. -/
theorem State.Inv.run {ops : List Op} (hi : s.Inv u after) (hp : s.PermittedRun ops) :
    ∃ s' u' after', s.run ops = some s' ∧ s'.Inv u' after' := by
  induction ops generalizing s u after with
  | nil => exact ⟨s, u, after, rfl, hi⟩
  | cons op ops ih =>
    obtain ⟨hpermitted, hrest⟩ := hp
    obtain ⟨s₁, u₁, after₁, hstep, hi₁⟩ := hi.step hpermitted
    rw [hstep] at hrest
    obtain ⟨s', u', after', hrun, hi'⟩ := ih hi₁ hrest
    refine ⟨s', u', after', ?_, hi'⟩
    simp only [State.run, hstep, Option.bind_eq_bind, Option.bind_some]
    exact hrun

/-- The latest chunk of the second allocator is empty after `malloc` failed, though there is a block in
the chunk before it. Taken for unused, that chunk is filled again. -/
example : ((State.init fun _ => 4096).run
    [.alloc 1 16 (some 65536), .ensureUnusedApproximate 1 5000 (some 131072), .alloc 1 10000 none,
      .alloc 0 4000 (some 262144), .transferFrom 0 1, .alloc 0 4000 none]).map (fun s => s.blocks 0) =
    some [⟨262176, 4000⟩, ⟨65568, 16⟩, ⟨65568, 4000⟩] := by
  decide +kernel

end SpiderMonkey.Ds
