import SpiderMonkey.Ds.LifoAllocInv

/-!
# Moving along a chain

The latest chunk moves forward over unused chunks, whose bump pointers are reset, or back to where it
was, and a new chunk comes to the end.
-/

namespace SpiderMonkey.Ds

variable {h h' : Heap} {a : LifoAlloc} {u extra : Position} {after : List ℕ} {c d p b n : ℕ}
  {chunk chunk' : BumpChunk}

/-- The chunk that was changed. -/
@[simp] theorem Heap.set_self : (h.set c chunk).chunk c = some chunk := by
  rw [Heap.set]
  exact Function.update_self c (some chunk) h.chunk

/-- The other chunks stay. -/
theorem Heap.set_of_ne (hne : d ≠ c) : (h.set c chunk).chunk d = h.chunk d := by
  rw [Heap.set]
  exact Function.update_of_ne hne (some chunk) h.chunk

/-- Setting a chunk to what it is. -/
theorem Heap.set_eq_self (hchunk : h.chunk c = some chunk) : h.set c chunk = h := by
  rw [Heap.set, ← hchunk, Function.update_eq_self]

/-- A chunk may change, but not its place. -/
theorem Heap.Wf.set (hw : h.Wf) (hchunk : h.chunk c = some chunk) (hlimit : chunk'.limit = chunk.limit)
    (hwf : chunk'.Wf c) : (h.set c chunk').Wf := by
  constructor
  · exact hw.nodup
  · intro x
    rw [show (h.set c chunk').addresses = h.addresses from rfl, hw.mem_iff]
    by_cases hx : x = c
    · rw [hx, hchunk, Heap.set_self]
      exact Iff.rfl
    · rw [Heap.set_of_ne hx]
  · intro x y hy
    by_cases hx : x = c
    · rw [hx, Heap.set_self, Option.some_inj] at hy
      rw [hx, ← hy]
      exact hwf
    · rw [Heap.set_of_ne hx] at hy
      exact hw.wf x y hy
  · -- each chunk is where the one before it was
    have hbefore (x : ℕ) (y : BumpChunk) (hy : (h.set c chunk').chunk x = some y) :
        ∃ y', h.chunk x = some y' ∧ y.limit = y'.limit := by
      by_cases hx : x = c
      · rw [hx, Heap.set_self, Option.some_inj] at hy
        exact ⟨chunk, by rw [hx, hchunk], by rw [← hy, hlimit]⟩
      · rw [Heap.set_of_ne hx] at hy
        exact ⟨y, hy, rfl⟩
    intro x y x' y' hy hy' hne
    obtain ⟨z, hz, hlimz⟩ := hbefore x y hy
    obtain ⟨z', hz', hlimz'⟩ := hbefore x' y' hy'
    rw [hlimz, hlimz']
    exact hw.apart x z x' z' hz hz' hne

/-- Changing the bump pointer of a chunk changes no link and no size. -/
theorem Heap.next_setBump (hchunk : h.chunk c = some chunk) (x : ℕ) :
    (h.set c { chunk with bump := p }).next x = h.next x ∧
      (h.set c { chunk with bump := p }).sizeOf x = h.sizeOf x := by
  by_cases hx : x = c
  · rw [hx, Heap.next, Heap.next, Heap.sizeOf, Heap.sizeOf, Heap.set_self, hchunk]
    exact ⟨rfl, rfl⟩
  · rw [Heap.next, Heap.next, Heap.sizeOf, Heap.sizeOf, Heap.set_of_ne hx]
    exact ⟨rfl, rfl⟩

/-- The bump pointer of the latest chunk is part of the position. -/
theorem IsChain.setBump {pre : Position} (hc : IsChain h a (pre ++ [(c, b)]) after)
    (hchunk : h.chunk c = some chunk) :
    IsChain (h.set c { chunk with bump := p }) a (pre ++ [(c, p)]) after := by
  have hchunks : Position.chunks (pre ++ [(c, p)]) = Position.chunks (pre ++ [(c, b)]) := by
    rw [Position.chunks, Position.chunks, List.map_append, List.map_append]
    rfl
  have hnodup := hc.nodup
  constructor
  · rw [hchunks]
    exact hc.linked.congr fun x _ => (Heap.next_setBump hchunk x).1
  · rw [hchunks]
    exact hnodup
  · intro cb hmem
    rcases List.mem_append.mp hmem with hpre | hlast
    · have hne : cb.1 ≠ c := by
        rintro rfl
        rw [Position.chunks, List.map_append, List.append_assoc] at hnodup
        exact (List.nodup_append.mp hnodup).2.2 _ (List.mem_map_of_mem hpre) _ List.mem_cons_self rfl
      rw [Heap.set_of_ne hne]
      exact hc.bump_eq cb (List.mem_append_left _ hpre)
    · rw [List.mem_singleton] at hlast
      rw [hlast, Heap.set_self]
      exact ⟨_, rfl, rfl⟩
  · intro x hx
    by_cases hxc : x = c
    · rw [hxc, Heap.set_self]
      rfl
    · rw [Heap.set_of_ne hxc]
      exact hc.isSome x hx
  · rw [hc.latest_eq, List.getLast?_concat, List.getLast?_concat]
    rfl
  · rw [hchunks]
    exact hc.last_eq
  · intro hnil
    exact absurd hnil (List.append_ne_nil_of_right_ne_nil _ (List.cons_ne_nil _ _))
  · rw [hchunks, hc.curSize_eq]
    congr 1
    apply List.map_congr_left
    intro x _
    exact (Heap.next_setBump hchunk x).2.symm
  · exact hc.default_eq
  · exact hc.le_default

/-- The latest chunk may go back. -/
theorem IsChain.back (hc : IsChain h a (u ++ extra) after) (hne : u ≠ []) :
    IsChain h { a with latest := u.getLast?.map Prod.fst } u (extra.chunks ++ after) := by
  have hchunks : u.chunks ++ (extra.chunks ++ after) = Position.chunks (u ++ extra) ++ after := by
    rw [← List.append_assoc, Position.chunks, Position.chunks, Position.chunks, List.map_append]
  constructor
  · rw [hchunks]
    exact hc.linked
  · rw [hchunks]
    exact hc.nodup
  · intro cb hmem
    exact hc.bump_eq cb (List.mem_append_left _ hmem)
  · intro x hx
    rcases List.mem_append.mp hx with hextra | hafter
    · obtain ⟨cb, hcb, rfl⟩ := List.mem_map.mp hextra
      obtain ⟨y, hy, _⟩ := hc.bump_eq cb (List.mem_append_right _ hcb)
      rw [hy]
      rfl
    · exact hc.isSome x hafter
  · rfl
  · rw [hchunks]
    exact hc.last_eq
  · intro hnil
    exact absurd hnil hne
  · rw [hchunks]
    exact hc.curSize_eq
  · exact hc.default_eq
  · exact hc.le_default

/-- The latest chunk may go on to the next one. -/
theorem IsChain.advance (hc : IsChain h a u (d :: after)) (hchunk : h.chunk d = some chunk) :
    IsChain h { a with latest := some d } (u ++ [(d, chunk.bump)]) after := by
  have hchunks : Position.chunks (u ++ [(d, chunk.bump)]) ++ after = u.chunks ++ d :: after := by
    rw [Position.chunks, List.map_append, List.append_assoc]
    rfl
  constructor
  · rw [hchunks]
    exact hc.linked
  · rw [hchunks]
    exact hc.nodup
  · intro cb hmem
    rcases List.mem_append.mp hmem with hu | hlast
    · exact hc.bump_eq cb hu
    · rw [List.mem_singleton] at hlast
      rw [hlast]
      exact ⟨chunk, hchunk, rfl⟩
  · intro x hx
    exact hc.isSome x (List.mem_cons_of_mem _ hx)
  · rw [List.getLast?_concat]
    rfl
  · rw [hchunks]
    exact hc.last_eq
  · intro hnil
    exact absurd hnil (List.append_ne_nil_of_right_ne_nil _ (List.cons_ne_nil _ _))
  · rw [hchunks]
    exact hc.curSize_eq
  · exact hc.default_eq
  · exact hc.le_default

/-- The latest chunk points to the first unused one. -/
theorem IsChain.next_latest {pre : Position} (hc : IsChain h a (pre ++ [(c, b)]) after) :
    h.next c = after.head? := by
  have hlinked := hc.linked
  rw [Position.chunks, List.map_append, List.append_assoc] at hlinked
  exact (LinkedTo.next_of_append hlinked).head?_eq

/-- The chunk at the end of a position. -/
theorem IsChain.exists_latest (hc : IsChain h a u after) (hne : u ≠ []) :
    ∃ pre c b chunk, u = pre ++ [(c, b)] ∧ a.latest = some c ∧ h.chunk c = some chunk ∧
      chunk.bump = b := by
  rcases List.eq_nil_or_concat u with hnil | ⟨pre, ⟨c, b⟩, hu⟩
  · exact absurd hnil hne
  · rw [List.concat_eq_append] at hu
    obtain ⟨chunk, hchunk, hbump⟩ := hc.bump_eq (c, b) (by rw [hu]; simp)
    refine ⟨pre, c, b, chunk, hu, ?_, hchunk, hbump⟩
    rw [hc.latest_eq, hu, List.getLast?_concat]
    rfl

/-- A chunk is reset. -/
theorem Heap.Wf.resetBump (hw : h.Wf) (hchunk : h.chunk c = some chunk) :
    h.resetBump c = some (h.set c { chunk with bump := c + 32 }) ∧
      (h.set c { chunk with bump := c + 32 }).Wf := by
  have hwf := hw.wf c chunk hchunk
  have hlimit : c + 32 ≤ chunk.limit := Nat.le_trans hwf.le_bump hwf.bump_le
  have hset : chunk.resetBump c = some { chunk with bump := c + 32 } :=
    hwf.setBump_eq (Nat.le_refl _) hlimit
  apply And.intro
  · simp only [Heap.resetBump, hchunk, hset, Option.bind_eq_bind, Option.bind_some]
  · exact hw.set hchunk rfl ⟨hwf.aligned, hwf.limit_eq, hwf.limit_lt, Nat.le_refl _, hlimit⟩

/-- The chunks that are passed on the way, each with nothing in it. -/
def resetChunks (ds : List ℕ) : Position := ds.map fun d => (d, d + 32)

/-- The search for space in unused chunks. -/
theorem findUnused_spec {fuel : ℕ} (hw : h.Wf) (hc : IsChain h a u after) (hlatest : a.latest = some c)
    (hfuel : after.length < fuel) :
    ∃ h' c' found ds rest, LifoAlloc.findUnused n fuel h c = some (h', c', found) ∧
      after = ds ++ rest ∧ h'.Wf ∧
      IsChain h' { a with latest := some c' } (u ++ resetChunks ds) rest ∧
      (found = false → rest = []) ∧ (found = true → ds ≠ []) ∧ h'.addresses = h.addresses ∧
      (∀ x, h'.sizeOf x = h.sizeOf x) ∧ ∀ x ∉ after, h'.chunk x = h.chunk x := by
  induction fuel generalizing h a u after c with
  | zero => exact absurd hfuel (Nat.not_lt_zero _)
  | succ fuel ih =>
    have hne : u ≠ [] := by
      intro hnil
      rw [hc.latest_eq, hnil] at hlatest
      cases hlatest
    obtain ⟨pre, c', b, chunk, rfl, hlatest', hchunk, hbump⟩ := hc.exists_latest hne
    obtain rfl : c' = c := Option.some_inj.mp (hlatest'.symm.trans hlatest)
    have hnext := hc.next_latest
    rw [Heap.next, hchunk, Option.bind_some] at hnext
    cases after with
    | nil =>
      refine ⟨h, c', false, [], [], ?_, rfl, hw, ?_, fun _ => rfl, by rintro ⟨⟩, rfl, fun _ => rfl,
        fun _ _ => rfl⟩
      · simp only [LifoAlloc.findUnused, hchunk, hnext, Option.bind_eq_bind, Option.bind_some,
          List.head?_nil]
      · rw [resetChunks, List.map_nil, List.append_nil, ← hlatest]
        exact hc
    | cons d after =>
      obtain ⟨chunkd, hchunkd⟩ := hc.exists_chunk (List.mem_append_right _ List.mem_cons_self)
      obtain ⟨hreset, hwf⟩ := hw.resetBump hchunkd
      have hchain := (hc.advance hchunkd).setBump (p := d + 32) hchunkd
      have hframe : ∀ x ∉ d :: after, (h.set d { chunkd with bump := d + 32 }).chunk x = h.chunk x := by
        intro x hx
        rw [List.mem_cons, not_or] at hx
        exact Heap.set_of_ne hx.1
      have hsizes (x : ℕ) := (Heap.next_setBump (p := d + 32) hchunkd x).2
      rw [List.head?_cons] at hnext
      by_cases hcan : ({ chunkd with bump := d + 32 } : BumpChunk).canAlloc d n = true
      · refine ⟨_, d, true, [d], after, ?_, rfl, hwf, hchain, by rintro ⟨⟩,
          fun _ => List.cons_ne_nil _ _, rfl, hsizes, hframe⟩
        simp only [LifoAlloc.findUnused, hchunk, hnext, hreset, Heap.set_self, hcan, if_true,
          Option.bind_eq_bind, Option.bind_some]
      · obtain ⟨h', c'', found, ds, rest, hfind, rfl, hw', hchain', hrest, hds, haddr, hsize, hother⟩ :=
          ih hwf hchain rfl (Nat.lt_of_succ_lt_succ hfuel)
        refine ⟨h', c'', found, d :: ds, rest, ?_, rfl, hw', ?_, hrest,
          fun _ => List.cons_ne_nil _ _, haddr, fun x => (hsize x).trans (hsizes x), ?_⟩
        · simp only [LifoAlloc.findUnused, hchunk, hnext, hreset, Heap.set_self, hcan, if_false,
            Option.bind_eq_bind, Option.bind_some, Bool.false_eq_true]
          exact hfind
        · rw [List.append_assoc] at hchain'
          exact hchain'
        · intro x hx
          have hx' := hx
          rw [List.mem_cons, not_or] at hx'
          rw [hother x hx'.2, hframe x hx]

end SpiderMonkey.Ds
