import SpiderMonkey.Jit.MoveResolver
import Mathlib.Data.List.Chain

/-!
# The ordered moves perform the parallel assignment

The invariant of the traversal speaks about the store reached by emitting the output so far.
Every emitted destination holds the value its source had at first, and no move still to come
reads an overwritten operand, except a root whose cycle has begun: its value is saved.

Destinations are distinct, so the chain can only close on the root, and the move that closes it
is the only one that overwrites the root's source.
-/

namespace SpiderMonkey.Jit

namespace MoveResolver

/-- What the callers of the resolver promise about the moves they add. -/
structure Parallel (moves : List MoveOp) : Prop where
  distinct : (moves.map MoveOp.toOp).Nodup
  from_ne_to : ∀ m ∈ moves, m.fromOp ≠ m.toOp
  writable : ∀ m ∈ moves, m.toOp.isEffectiveAddress = false
  base_kept : ∀ m ∈ moves, ∀ n ∈ moves, ∀ base,
    n.fromOp.base? = some base ∨ n.toOp.base? = some base → m.toOp ≠ .reg base

variable {V : Type*} (lea : V → ℤ → V)

/-- A store that results from assigning all sources to their destinations at once. -/
structure AssignedInParallel (moves : List MoveOp) (before after : MoveStore V) : Prop where
  assigned : ∀ m ∈ moves, after m.toOp = m.fromOp.read lea before
  kept : ∀ operand, (∀ m ∈ moves, m.toOp ≠ operand) → after operand = before operand

/-- The moves of a search, emitted or not, without their annotations. -/
def Search.moves (s : Search) : List MoveOp :=
  (s.orderedMoves ++ (s.pending ++ (s.chain ++ [s.root]))).map MoveOp.unflagged

/-- The root's cycle is not found, found with the root's source intact, or begun. -/
inductive RootState (s : Search) (before : MoveStore V) : Option V → Prop
  | acyclic : s.root.cycleEnd = false → (∀ m ∈ s.orderedMoves, m.toOp ≠ s.root.fromOp) →
      (∀ c ∈ s.chain, c.toOp ≠ s.root.fromOp) → RootState s before none
  | closed : s.root.cycleEnd = true → (∀ m ∈ s.orderedMoves, m.toOp ≠ s.root.fromOp) →
      (∃ c ∈ s.chain, c.toOp = s.root.fromOp) → RootState s before none
  | begun : s.root.cycleEnd = true → (∃ m ∈ s.orderedMoves, m.toOp = s.root.fromOp) →
      RootState s before (some (before s.root.fromOp))

/-- The invariant of a traversal over the store its output produces. -/
structure Invariant (moves : List MoveOp) (before : MoveStore V) (s : Search)
    (after : MoveStore V) (saved : Option V) : Prop where
  perm : s.moves.Perm moves
  emitted : emitMoves lea (before, none) s.orderedMoves = some (after, saved)
  assigned : AssignedInParallel lea s.orderedMoves before after
  pending_unflagged : ∀ m ∈ s.pending, m.unflagged = m
  linked : ((s.chain ++ [s.root]).map MoveOp.unflagged).IsChain fun above below =>
    above.fromOp = below.toOp
  chain_begin : ∀ c ∈ s.chain, c.cycleEnd = false ∧ (c.cycleBegin = true ↔ c.toOp = s.root.fromOp)
  root_begin : s.root.cycleBegin = false
  sources_kept : ∀ m ∈ s.orderedMoves, ∀ r ∈ s.pending ++ s.chain, m.toOp ≠ r.fromOp
  not_both : ∀ m ∈ s.orderedMoves, m.cycleBegin = true → m.cycleEnd = false
  rootState : RootState s before saved

/-- In a chain with a last element, every other element is related to a later one. -/
theorem exists_next_of_isChain {α : Type*} {r : α → α → Prop} {l : List α} {x : α}
    (h : (l ++ [x]).IsChain r) : ∀ a ∈ l, ∃ b ∈ l.tail ++ [x], r a b := by
  induction l with
  | nil => simp
  | cons head l ih =>
    intro a ha
    rw [List.cons_append, List.isChain_cons] at h
    rcases List.mem_cons.mp ha with rfl | ha
    · cases l with
      | nil => exact ⟨x, by simp, h.1 x (by simp)⟩
      | cons b l => exact ⟨b, by simp, h.1 b (by simp)⟩
    · obtain ⟨b, hb, hab⟩ := ih h.2 a ha
      refine ⟨b, ?_, hab⟩
      simp only [List.tail_cons, List.mem_append] at hb ⊢
      exact hb.imp List.mem_of_mem_tail id

section Steps

variable {lea} {moves : List MoveOp} {before after : MoveStore V} {s : Search} {saved : Option V}

/-- Every move of the search was added, up to its annotations. -/
theorem Invariant.mem_moves (h : Invariant lea moves before s after saved) {m : MoveOp}
    (hm : m ∈ s.orderedMoves ++ (s.pending ++ (s.chain ++ [s.root]))) : m.unflagged ∈ moves :=
  h.perm.mem_iff.mp (List.mem_map_of_mem hm)

/-- The destinations of the search are distinct. -/
theorem Invariant.nodup (h : Invariant lea moves before s after saved) (hp : Parallel moves) :
    ((s.orderedMoves ++ (s.pending ++ (s.chain ++ [s.root]))).map MoveOp.toOp).Nodup := by
  have hnodup := (h.perm.map MoveOp.toOp).nodup_iff.mpr hp.distinct
  simpa only [Search.moves, List.map_map, Function.comp_def, MoveOp.unflagged_toOp] using hnodup

/-- Emitted moves and moves still to come have different destinations. -/
theorem Invariant.toOp_ne (h : Invariant lea moves before s after saved) (hp : Parallel moves)
    {m r : MoveOp} (hm : m ∈ s.orderedMoves) (hr : r ∈ s.pending ++ (s.chain ++ [s.root])) :
    m.toOp ≠ r.toOp := by
  have hnodup := h.nodup hp
  rw [List.map_append] at hnodup
  exact fun heq => (List.disjoint_of_nodup_append hnodup) (List.mem_map_of_mem hm)
    (heq ▸ List.mem_map_of_mem hr)

/-- Pending moves and moves on the stack have different destinations. -/
theorem Invariant.pending_toOp_ne (h : Invariant lea moves before s after saved)
    (hp : Parallel moves) {m r : MoveOp} (hm : m ∈ s.pending) (hr : r ∈ s.chain ++ [s.root]) :
    m.toOp ≠ r.toOp := by
  have hnodup := h.nodup hp
  rw [List.map_append, List.map_append] at hnodup
  exact fun heq => (List.disjoint_of_nodup_append hnodup.of_append_right) (List.mem_map_of_mem hm)
    (heq ▸ List.mem_map_of_mem hr)

/-- An operand that no emitted move overwrites still reads as it did at first. -/
theorem Invariant.read_kept (h : Invariant lea moves before s after saved) (hp : Parallel moves)
    {r : MoveOp} (hr : r ∈ s.orderedMoves ++ (s.pending ++ (s.chain ++ [s.root])))
    (hkept : ∀ m ∈ s.orderedMoves, m.toOp ≠ r.fromOp) :
    r.fromOp.read lea after = r.fromOp.read lea before := by
  cases hfrom : r.fromOp with
  | effectiveAddress base disp =>
    have hbase : ∀ m ∈ s.orderedMoves, m.toOp ≠ .reg base := fun m hm =>
      hp.base_kept m.unflagged (h.mem_moves (List.mem_append_left _ hm)) r.unflagged
        (h.mem_moves hr) base (Or.inl (by simp [hfrom, MoveOperand.base?]))
    simp only [MoveOperand.read, h.assigned.kept _ hbase]
  | _ => exact h.assigned.kept _ (hfrom ▸ hkept)

/-- The added moves of a search after moving a pending one to the stack. -/
theorem perm_push {s : Search} {blocking : MoveOp} (hmem : blocking ∈ s.pending) :
    (s.orderedMoves ++ (s.pending.erase blocking ++ (blocking :: s.chain ++ [s.root]))).Perm
      (s.orderedMoves ++ (s.pending ++ (s.chain ++ [s.root]))) := by
  refine List.Perm.append_left _ ?_
  exact List.perm_middle.trans ((List.perm_cons_erase hmem).symm.append_right _)

/-- The first element of the stack is the most recent move. -/
theorem Search.head?_stack (s : Search) : (s.chain ++ [s.root]).head? = some s.last := by
  cases hchain : s.chain <;> simp [Search.last, hchain]

/-- Pushing a move that reads the most recent destination keeps the stack linked. -/
theorem Invariant.linked_push (h : Invariant lea moves before s after saved) {blocking : MoveOp}
    (hfrom : blocking.fromOp = s.last.toOp) :
    ((blocking :: s.chain ++ [s.root]).map MoveOp.unflagged).IsChain fun above below =>
      above.fromOp = below.toOp := by
  rw [List.cons_append, List.map_cons, List.isChain_cons]
  refine ⟨fun b hb => ?_, h.linked⟩
  rw [List.head?_map, s.head?_stack] at hb
  obtain rfl : s.last.unflagged = b := by simpa using hb
  exact hfrom

/-- Closing a cycle keeps the invariant. -/
theorem Invariant.closeCycle (h : Invariant lea moves before s after saved) (hp : Parallel moves)
    {blocking : MoveOp} (hfind : findBlockingMove s.pending s.last = some blocking)
    (hto : blocking.toOp = s.root.fromOp) :
    Invariant lea moves before (s.closeCycle blocking) after saved := by
  obtain ⟨hmem, hfrom⟩ := Search.mem_of_findBlockingMove hfind
  have hflags := h.pending_unflagged blocking hmem
  refine ⟨?_, h.emitted, h.assigned, fun m hm => h.pending_unflagged m (List.mem_of_mem_erase hm),
    ?_, fun c hc => ?_, h.root_begin, fun m hm r hr => ?_, h.not_both, ?_⟩
  · refine List.Perm.trans ?_ (((perm_push hmem).map MoveOp.unflagged).trans h.perm)
    simp [Search.moves, Search.closeCycle]
  · have hlinked := h.linked_push hfrom
    simpa [Search.closeCycle] using hlinked
  · rcases List.mem_cons.mp hc with rfl | hc
    · refine ⟨?_, fun _ => hto, fun _ => rfl⟩
      rw [MoveOp.setCycleBegin_cycleEnd, ← hflags]
      rfl
    · exact h.chain_begin c hc
  · rcases List.mem_append.mp hr with hr | hr
    · exact h.sources_kept m hm r (List.mem_append_left _ (List.mem_of_mem_erase hr))
    · rcases List.mem_cons.mp hr with rfl | hr
      · exact h.sources_kept m hm blocking (List.mem_append_left _ hmem)
      · exact h.sources_kept m hm r (List.mem_append_right _ hr)
  · -- No other move of the search writes the root's source.
    cases h.rootState with
    | acyclic hend hordered hchain =>
      exact .closed rfl hordered ⟨_, List.mem_cons_self, hto⟩
    | closed hend hordered hchain =>
      obtain ⟨c, hc, hcto⟩ := hchain
      exact absurd (hto.trans hcto.symm) (h.pending_toOp_ne hp hmem (List.mem_append_left _ hc))
    | begun hend hordered =>
      obtain ⟨m, hm, hmto⟩ := hordered
      exact absurd (hmto.trans hto.symm) (h.toOp_ne hp hm (List.mem_append_left _ hmem))

/-- Extending the chain keeps the invariant. -/
theorem Invariant.extend (h : Invariant lea moves before s after saved)
    {blocking : MoveOp} (hfind : findBlockingMove s.pending s.last = some blocking)
    (hto : blocking.toOp ≠ s.root.fromOp) :
    Invariant lea moves before (s.extend blocking) after saved := by
  obtain ⟨hmem, hfrom⟩ := Search.mem_of_findBlockingMove hfind
  have hflags := h.pending_unflagged blocking hmem
  refine ⟨((perm_push hmem).map MoveOp.unflagged).trans h.perm, h.emitted, h.assigned,
    fun m hm => h.pending_unflagged m (List.mem_of_mem_erase hm), h.linked_push hfrom,
    fun c hc => ?_, h.root_begin, fun m hm r hr => ?_, h.not_both, ?_⟩
  · rcases List.mem_cons.mp hc with rfl | hc
    · rw [← hflags]
      exact ⟨rfl, nofun, fun heq => absurd heq hto⟩
    · exact h.chain_begin c hc
  · rcases List.mem_append.mp hr with hr | hr
    · exact h.sources_kept m hm r (List.mem_append_left _ (List.mem_of_mem_erase hr))
    · rcases List.mem_cons.mp hr with rfl | hr
      · exact h.sources_kept m hm r (List.mem_append_left _ hmem)
      · exact h.sources_kept m hm r (List.mem_append_right _ hr)
  · cases h.rootState with
    | acyclic hend hordered hchain =>
      exact .acyclic hend hordered fun c hc => by
        rcases List.mem_cons.mp hc with rfl | hc
        · exact hto
        · exact hchain c hc
    | closed hend hordered hchain =>
      obtain ⟨c, hc, hcto⟩ := hchain
      exact .closed hend hordered ⟨c, List.mem_cons_of_mem _ hc, hcto⟩
    | begun hend hordered => exact .begun hend hordered

/-- Emitting a move whose source still reads as at first keeps the parallel assignment. -/
theorem AssignedInParallel.append {ordered : List MoveOp} (h : AssignedInParallel lea ordered before after)
    {done : MoveOp} (hne : ∀ m ∈ ordered, m.toOp ≠ done.toOp) {value : V}
    (hvalue : value = done.fromOp.read lea before) :
    AssignedInParallel lea (ordered ++ [done]) before (Function.update after done.toOp value) := by
  refine ⟨fun m hm => ?_, fun operand hkept => ?_⟩
  · rcases List.mem_append.mp hm with hm | hm
    · rw [Function.update_of_ne (hne m hm), h.assigned m hm]
    · obtain rfl := List.mem_singleton.mp hm
      rw [Function.update_self, hvalue]
  · have hdone : operand ≠ done.toOp := fun heq => hkept done (by simp) heq.symm
    rw [Function.update_of_ne hdone, h.kept operand fun m hm => hkept m (List.mem_append_left _ hm)]

/-- Emitting one more move continues from the store of the moves before it. -/
theorem emitMoves_append_singleton {state state' : MoveStore V × Option V} {ordered : List MoveOp}
    {move : MoveOp} (h : emitMoves lea state ordered = some state') :
    emitMoves lea state (ordered ++ [move]) = emitMove lea state' move := by
  unfold emitMoves at h ⊢
  rw [List.foldlM_append, h]
  simp

/-- A completed move keeps the invariant once emitted, saving its destination if it begins a cycle. -/
theorem Invariant.finish (h : Invariant lea moves before s after saved) (hp : Parallel moves)
    {done : MoveOp} {rest : List MoveOp} (hfind : findBlockingMove s.pending s.last = none)
    (hchain : s.chain = done :: rest) :
    ∃ after' saved', Invariant lea moves before (s.finish done rest) after' saved' := by
  have hlast : s.last = done := by simp [Search.last, hchain]
  have hfree := hlast ▸ Search.of_findBlockingMove_none hfind
  have hdone : done ∈ s.chain := hchain ▸ List.mem_cons_self
  have hdoneStack : done ∈ s.pending ++ (s.chain ++ [s.root]) :=
    List.mem_append_right _ (List.mem_append_left _ hdone)
  have hrest {r : MoveOp} (hr : r ∈ rest) : r ∈ s.chain := hchain ▸ List.mem_cons_of_mem _ hr
  have hne (m : MoveOp) (hm : m ∈ s.orderedMoves) : m.toOp ≠ done.toOp := h.toOp_ne hp hm hdoneStack
  have hkept (m : MoveOp) (hm : m ∈ s.orderedMoves) : m.toOp ≠ done.fromOp :=
    h.sources_kept m hm done (List.mem_append_right _ hdone)
  have hread := h.read_kept hp (List.mem_append_right _ hdoneStack) hkept
  have hstackNodup : done.toOp ∉ (rest ++ [s.root]).map MoveOp.toOp := by
    have hnodup := h.nodup hp
    rw [hchain, List.map_append, List.map_append] at hnodup
    exact (List.nodup_cons.mp hnodup.of_append_right.of_append_right).1
  -- A move left on the stack reads the destination of the move below it.
  have hrestFrom (r : MoveOp) (hr : r ∈ rest) : done.toOp ≠ r.fromOp := by
    have hlinked := h.linked
    rw [hchain, List.cons_append, List.map_cons, List.isChain_cons, List.map_append,
      List.map_singleton] at hlinked
    obtain ⟨below, hbelow, hfrom⟩ :=
      exists_next_of_isChain hlinked.2 r.unflagged (List.mem_map_of_mem hr)
    intro heq
    have hmem : below.toOp ∈ (rest ++ [s.root]).map MoveOp.toOp := by
      rcases List.mem_append.mp hbelow with hb | hb
      · obtain ⟨c, hc, rfl⟩ := List.mem_map.mp (List.mem_of_mem_tail hb)
        exact List.mem_map.mpr ⟨c, List.mem_append_left _ hc, rfl⟩
      · obtain rfl := List.mem_singleton.mp hb
        simp
    exact hstackNodup (heq.trans hfrom ▸ hmem)
  have hsources : ∀ m ∈ s.orderedMoves ++ [done], ∀ r ∈ s.pending ++ rest, m.toOp ≠ r.fromOp := by
    intro m hm r hr
    rcases List.mem_append.mp hm with hm | hm
    · exact h.sources_kept m hm r ((List.mem_append.mp hr).elim (List.mem_append_left _)
        fun hr => List.mem_append_right _ (hrest hr))
    · obtain rfl := List.mem_singleton.mp hm
      exact (List.mem_append.mp hr).elim (fun hr => (hfree r hr).symm) (hrestFrom r)
  have hperm : (s.finish done rest).moves.Perm moves := by
    refine List.Perm.trans (List.Perm.map _ ?_) h.perm
    simp only [Search.finish, hchain, List.append_assoc, List.nil_append, List.cons_append]
    exact List.Perm.append_left _ (List.perm_middle.symm)
  have hlinked : ((rest ++ [s.root]).map MoveOp.unflagged).IsChain fun above below =>
      above.fromOp = below.toOp := by
    have hlinked := h.linked
    rw [hchain] at hlinked
    exact hlinked.tail
  obtain ⟨hend, hbegin⟩ := h.chain_begin done hdone
  have hboth : ∀ m ∈ s.orderedMoves ++ [done], m.cycleBegin = true → m.cycleEnd = false := by
    intro m hm
    rcases List.mem_append.mp hm with hm | hm
    · exact h.not_both m hm
    · exact fun _ => List.mem_singleton.mp hm ▸ hend
  have hassigned := h.assigned.append hne hread
  have hstep (saved' : Option V) (hemit : emitMove lea (after, saved) done =
      some (Function.update after done.toOp (done.fromOp.read lea after), saved'))
      (hroot : RootState (s.finish done rest) before saved') :
      Invariant lea moves before (s.finish done rest)
        (Function.update after done.toOp (done.fromOp.read lea after)) saved' :=
    ⟨hperm, (emitMoves_append_singleton h.emitted).trans hemit, hassigned, h.pending_unflagged,
      hlinked, fun c hc => h.chain_begin c (hrest hc), h.root_begin, hsources, hboth, hroot⟩
  by_cases hto : done.toOp = s.root.fromOp
  · -- The move closes the cycle: the root's source is saved before it is overwritten.
    have hflag := hbegin.mpr hto
    cases h.rootState with
    | acyclic hrend hordered hacyclic => exact absurd hto (hacyclic done hdone)
    | begun hrend hordered =>
      obtain ⟨m, hm, hmto⟩ := hordered
      exact absurd (hmto.trans hto.symm) (hne m hm)
    | closed hrend hordered hclosed =>
      have hvalue : after done.toOp = before s.root.fromOp := by
        rw [hto, h.assigned.kept _ hordered]
      refine ⟨_, some (before s.root.fromOp), hstep _ ?_ ?_⟩
      · simp [emitMove, hend, hflag, hvalue]
      · exact .begun hrend ⟨done, List.mem_append_right _ (List.mem_singleton_self _), hto⟩
  · have hflag : done.cycleBegin = false := by simpa using mt hbegin.mp hto
    refine ⟨_, saved, hstep saved (by simp [emitMove, hend, hflag]) ?_⟩
    have hordered' (hordered : ∀ m ∈ s.orderedMoves, m.toOp ≠ s.root.fromOp) :
        ∀ m ∈ s.orderedMoves ++ [done], m.toOp ≠ s.root.fromOp := by
      intro m hm
      rcases List.mem_append.mp hm with hm | hm
      · exact hordered m hm
      · exact List.mem_singleton.mp hm ▸ hto
    cases h.rootState with
    | acyclic hrend hordered hacyclic =>
      exact .acyclic hrend (hordered' hordered) fun c hc => hacyclic c (hrest hc)
    | closed hrend hordered hclosed =>
      obtain ⟨c, hc, hcto⟩ := hclosed
      refine .closed hrend (hordered' hordered) ⟨c, ?_, hcto⟩
      rw [hchain] at hc
      exact (List.mem_cons.mp hc).resolve_left fun heq => hto (heq ▸ hcto)
    | begun hrend hordered =>
      obtain ⟨m, hm, hmto⟩ := hordered
      exact .begun hrend ⟨m, List.mem_append_left _ hm, hmto⟩

end Steps

/-- What holds between two traversals: no temporary is in use, and the pending moves can still read
their sources. -/
structure Between (moves : List MoveOp) (before : MoveStore V) (pending ordered : List MoveOp)
    (after : MoveStore V) : Prop where
  perm : ((ordered ++ pending).map MoveOp.unflagged).Perm moves
  emitted : emitMoves lea (before, none) ordered = some (after, none)
  assigned : AssignedInParallel lea ordered before after
  pending_unflagged : ∀ m ∈ pending, m.unflagged = m
  sources_kept : ∀ m ∈ ordered, ∀ r ∈ pending, m.toOp ≠ r.fromOp
  not_both : ∀ m ∈ ordered, m.cycleBegin = true → m.cycleEnd = false

section Runs

variable {lea} {moves : List MoveOp} {before : MoveStore V}

/-- Starting a traversal from the last pending move establishes its invariant. -/
theorem Between.start {pending ordered : List MoveOp} {after : MoveStore V} {root : MoveOp}
    (h : Between lea moves before pending ordered after) (hlast : pending.getLast? = some root)
    (hasCycles : Bool) :
    Invariant lea moves before (.start pending root ordered hasCycles) after none := by
  obtain ⟨init, rfl⟩ := List.getLast?_eq_some_iff.mp hlast
  rw [Search.start, List.dropLast_concat]
  have hroot := h.pending_unflagged root (by simp)
  refine ⟨h.perm, h.emitted, h.assigned,
    fun m hm => h.pending_unflagged m (List.mem_append_left _ hm), by simp, by simp, ?_,
    fun m hm r hr => ?_, h.not_both, .acyclic ?_ (fun m hm => h.sources_kept m hm root (by simp)) (by simp)⟩
  · exact hroot ▸ rfl
  · rw [List.append_nil] at hr
    exact h.sources_kept m hm r (List.mem_append_left _ hr)
  · exact hroot ▸ rfl

/-- Emitting a root that nothing blocks ends the traversal with the temporary unused. -/
theorem Invariant.emitRoot {s : Search} {after : MoveStore V} {saved : Option V}
    (h : Invariant lea moves before s after saved) (hp : Parallel moves) (hchain : s.chain = [])
    (hfind : findBlockingMove s.pending s.root = none) :
    ∃ after', Between lea moves before s.pending (s.orderedMoves ++ [s.root]) after' := by
  have hstack : s.root ∈ s.pending ++ (s.chain ++ [s.root]) := by simp
  have hne (m : MoveOp) (hm : m ∈ s.orderedMoves) : m.toOp ≠ s.root.toOp := h.toOp_ne hp hm hstack
  have hperm : ((s.orderedMoves ++ [s.root] ++ s.pending).map MoveOp.unflagged).Perm moves := by
    refine List.Perm.trans (List.Perm.map _ ?_) h.perm
    rw [hchain, List.nil_append, List.append_assoc]
    exact List.Perm.append_left _ List.perm_append_comm
  have hsources : ∀ m ∈ s.orderedMoves ++ [s.root], ∀ r ∈ s.pending, m.toOp ≠ r.fromOp := by
    intro m hm r hr
    rcases List.mem_append.mp hm with hm | hm
    · exact h.sources_kept m hm r (List.mem_append_left _ hr)
    · exact List.mem_singleton.mp hm ▸ (Search.of_findBlockingMove_none hfind r hr).symm
  have hboth : ∀ m ∈ s.orderedMoves ++ [s.root], m.cycleBegin = true → m.cycleEnd = false := by
    intro m hm hbegin
    rcases List.mem_append.mp hm with hm | hm
    · exact h.not_both m hm hbegin
    · rw [List.mem_singleton.mp hm, h.root_begin] at hbegin
      cases hbegin
  have hstep (value : V) (hvalue : value = s.root.fromOp.read lea before)
      (hemit : emitMove lea (after, saved) s.root =
        some (Function.update after s.root.toOp value, none)) :
      ∃ after', Between lea moves before s.pending (s.orderedMoves ++ [s.root]) after' :=
    ⟨_, hperm, (emitMoves_append_singleton h.emitted).trans hemit, h.assigned.append hne hvalue,
      h.pending_unflagged, hsources, hboth⟩
  cases h.rootState with
  | acyclic hend hordered hacyclic =>
    exact hstep _ (h.read_kept hp (List.mem_append_right _ hstack) hordered)
      (by simp [emitMove, hend, h.root_begin])
  | closed hend hordered hclosed =>
    obtain ⟨c, hc, -⟩ := hclosed
    simp [hchain] at hc
  | begun hend hordered =>
    obtain ⟨m, hm, hmto⟩ := hordered
    -- The root's source was overwritten, so it is a location and not an address.
    have hwritable := hp.writable m.unflagged (h.mem_moves (List.mem_append_left _ hm))
    rw [MoveOp.unflagged_toOp, hmto] at hwritable
    refine hstep (before s.root.fromOp) ?_ (by simp [emitMove, hend])
    cases hfrom : s.root.fromOp with
    | effectiveAddress base disp => simp [hfrom, MoveOperand.isEffectiveAddress] at hwritable
    | _ => rfl

/-- A traversal leads from one state between traversals to the next. -/
theorem Between.resolveChain {pending ordered : List MoveOp} {after : MoveStore V} {root : MoveOp}
    (h : Between lea moves before pending ordered after) (hp : Parallel moves)
    (hlast : pending.getLast? = some root) (hasCycles : Bool) :
    ∃ after', Between lea moves before (Search.start pending root ordered hasCycles).resolveChain.pending
      (Search.start pending root ordered hasCycles).resolveChain.orderedMoves after' := by
  obtain ⟨t, ⟨after', saved', ht⟩, hchain, hfind, heq⟩ := Search.resolveChain_invariant
    (fun s => ∃ after saved, Invariant lea moves before s after saved)
    (fun s blocking ⟨_, _, hs⟩ hfind hto => ⟨_, _, hs.closeCycle hp hfind hto⟩)
    (fun s blocking ⟨_, _, hs⟩ hfind hto => ⟨_, _, hs.extend hfind hto⟩)
    (fun s done rest ⟨_, _, hs⟩ hfind hchain => hs.finish hp hfind hchain)
    (.start pending root ordered hasCycles) ⟨after, none, h.start hlast hasCycles⟩
  rw [heq]
  exact ht.emitRoot hp hchain hfind

/-- The loop ends with every added move emitted. -/
theorem Between.resolveLoop {pending ordered : List MoveOp} {after : MoveStore V}
    (h : Between lea moves before pending ordered after) (hp : Parallel moves) (hasCycles : Bool) :
    ∃ after', Between lea moves before [] (resolveLoop pending ordered hasCycles).1 after' := by
  induction pending, ordered, hasCycles using resolveLoop.induct_unfolding generalizing after with
  | case1 pending ordered hasCycles hlast => exact ⟨after, List.getLast?_eq_none_iff.mp hlast ▸ h⟩
  | case2 pending ordered hasCycles root hlast ih =>
    obtain ⟨after', hnext⟩ := h.resolveChain hp hlast hasCycles
    exact ih hnext

end Runs

/-- Each added move is pending as it was added. -/
theorem addMoves_eq_map (requests : List (MoveOperand × MoveOperand × MoveType)) :
    addMoves requests = requests.map fun r => ⟨r.1, r.2.1, r.2.2, false, false, none⟩ := by
  induction requests using List.reverseRecOn with
  | nil => rfl
  | append_singleton requests r ih =>
    rw [addMoves, List.foldl_append, ← addMoves, ih]
    simp [addMove]

/-- A move that begins a cycle is followed by the move that ends it, and no other cycle begins or
ends between them. -/
def CyclesDisjoint (moves : List MoveOp) : Prop :=
  ∀ earlier move later, moves = earlier ++ move :: later → move.cycleBegin = true →
    ∃ inside last rest, later = inside ++ last :: rest ∧ last.cycleEnd = true ∧
      ∀ m ∈ inside, m.cycleBegin = false ∧ m.cycleEnd = false

/-- From inside a cycle, emission reaches the cycle's end before any other annotation. -/
theorem exists_cycleEnd {lea} {store after : MoveStore V} {value : V} {moves : List MoveOp}
    (h : emitMoves lea (store, some value) moves = some (after, none)) :
    ∃ inside last rest, moves = inside ++ last :: rest ∧ last.cycleEnd = true ∧
      ∀ m ∈ inside, m.cycleBegin = false ∧ m.cycleEnd = false := by
  induction moves generalizing store with
  | nil => simp [emitMoves] at h
  | cons move moves ih =>
    cases hend : move.cycleEnd
    · cases hbegin : move.cycleBegin
      · have htail : emitMoves lea (Function.update store move.toOp (move.fromOp.read lea store),
            some value) moves = some (after, none) := by
          simpa [emitMoves, emitMove, hend, hbegin] using h
        obtain ⟨inside, last, rest, rfl, hlast, hinside⟩ := ih htail
        refine ⟨move :: inside, last, rest, rfl, hlast, fun m hm => ?_⟩
        rcases List.mem_cons.mp hm with rfl | hm
        · exact ⟨hbegin, hend⟩
        · exact hinside m hm
      · simp [emitMoves, emitMove, hend, hbegin] at h
    · exact ⟨[], move, moves, rfl, hend, by simp⟩

/-- Emission that starts and ends without a temporary keeps its cycles apart. -/
theorem cyclesDisjoint_of_emitMoves {lea} {store after : MoveStore V} {moves : List MoveOp}
    (h : emitMoves lea (store, none) moves = some (after, none))
    (hboth : ∀ m ∈ moves, m.cycleBegin = true → m.cycleEnd = false) : CyclesDisjoint moves := by
  rintro earlier move later rfl hbegin
  have hend := hboth move (by simp) hbegin
  unfold emitMoves at h
  rw [List.foldlM_append] at h
  obtain ⟨⟨store', saved⟩, -, h⟩ := Option.bind_eq_some_iff.mp h
  cases saved with
  | none =>
    have hlater : emitMoves lea (Function.update store' move.toOp (move.fromOp.read lea store'),
        some (store' move.toOp)) later = some (after, none) := by
      simpa [emitMoves, emitMove, hend, hbegin] using h
    exact exists_cycleEnd hlater
  | some value => simp [emitMove, hend, hbegin] at h

/-- The resolver yields every added move exactly once, in an order whose emission assigns all
sources to their destinations at once and keeps the cycles apart. -/
theorem resolve_assigns_in_parallel (requests : List (MoveOperand × MoveOperand × MoveType))
    (hp : Parallel (addMoves requests)) (before : MoveStore V) :
    ((resolve (addMoves requests)).1.map MoveOp.unflagged).Perm (addMoves requests) ∧
      CyclesDisjoint (resolve (addMoves requests)).1 ∧
      ∃ after, emitMoves lea (before, none) (resolve (addMoves requests)).1 = some (after, none) ∧
        AssignedInParallel lea (addMoves requests) before after := by
  have hflags : ∀ m ∈ addMoves requests, m.unflagged = m := by
    rw [addMoves_eq_map]
    intro m hm
    obtain ⟨r, -, rfl⟩ := List.mem_map.mp hm
    rfl
  have hstart : Between lea (addMoves requests) before (addMoves requests) [] before :=
    ⟨by rw [List.nil_append, List.map_congr_left hflags, List.map_id'], rfl,
      ⟨by simp, fun _ _ => rfl⟩, hflags, by simp, by simp⟩
  obtain ⟨after, h⟩ := hstart.resolveLoop hp false
  have hperm : ((resolve (addMoves requests)).1.map MoveOp.unflagged).Perm (addMoves requests) := by
    simpa [resolve] using h.perm
  refine ⟨hperm, cyclesDisjoint_of_emitMoves h.emitted h.not_both, after, h.emitted, ?_, ?_⟩
  · intro m hm
    obtain ⟨r, hr, rfl⟩ := List.mem_map.mp (hperm.mem_iff.mpr hm)
    exact h.assigned.assigned r hr
  · intro operand hkept
    refine h.assigned.kept operand fun m hm => ?_
    exact hkept m.unflagged (hperm.mem_iff.mp (List.mem_map_of_mem hm))

/-- A swap of two registers, a second reader of one of them and an address computation. -/
def swapRequests : List (MoveOperand × MoveOperand × MoveType) :=
  [(.reg 0, .reg 1, .general), (.reg 1, .reg 0, .int32), (.reg 0, .memory 3 8, .general),
    (.effectiveAddress 3 16, .reg 2, .general)]

/-- The resolver at a swap whose first register is also stored, over integer values. -/
theorem resolve_assigns_in_parallel_swap :
    ((resolve (addMoves swapRequests)).1.map MoveOp.unflagged).Perm (addMoves swapRequests) ∧
      CyclesDisjoint (resolve (addMoves swapRequests)).1 ∧
      ∃ after, emitMoves (fun base disp => base + disp) (fun _ => (5 : ℤ), none)
          (resolve (addMoves swapRequests)).1 = some (after, none) ∧
        AssignedInParallel (fun base disp => base + disp) (addMoves swapRequests) (fun _ => 5) after :=
  resolve_assigns_in_parallel _ swapRequests
    ⟨by decide, by decide, by decide,
      by simp [swapRequests, addMoves, addMove, MoveOperand.base?]⟩ _

end MoveResolver

end SpiderMonkey.Jit
