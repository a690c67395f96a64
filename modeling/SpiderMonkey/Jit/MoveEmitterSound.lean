import SpiderMonkey.Jit.MoveEmitter
import SpiderMonkey.Jit.MoveResolverSound

/-!
# Exchanging a cycle agrees with breaking it

The resolver puts the type of the last move of a cycle into the first one. Between them are no other cycles. So the
characterization stops at the last move, and a cycle that it accepts moves each register into the one before it. Then
both forms leave the same values, though the bits above a value that is narrower than a register may differ.
-/

namespace SpiderMonkey.Jit

namespace MoveResolver

/-! ## The types of cycles -/

/-- The type that is saved inside of a cycle, after a move. It is that of the move that ends the cycle. -/
def cycleType (saved : Option MoveType) (move : MoveOp) : Option (Option MoveType) :=
  if move.cycleEnd then if saved = some move.type then some none else none
  else if move.cycleBegin then
    match saved with
    | none => move.endCycleType.map some
    | some _ => none
  else some saved

/-- The types of the cycles of a list of moves. -/
def cycleTypes (saved : Option MoveType) (moves : List MoveOp) : Option (Option MoveType) :=
  moves.foldlM cycleType saved

theorem cycleTypes_append_singleton {saved saved' : Option MoveType} {ordered : List MoveOp} {m : MoveOp}
    (h : cycleTypes saved ordered = some saved') :
    cycleTypes saved (ordered ++ [m]) = cycleType saved' m := by
  unfold cycleTypes at h ⊢
  rw [List.foldlM_append, h]
  simp

section Types

variable {moves : List MoveOp}

/-- The unit store, in which only the flags matter. -/
def unitStore : MoveStore Unit := fun _ => ()

/-- Reading an address from the unit store. -/
def unitLea : Unit → ℤ → Unit := fun _ _ => ()

/-- The invariant of a traversal, with the type of the root for the cycle that it ends. -/
structure TypedInvariant (moves : List MoveOp) (s : Search) (after : MoveStore Unit) (saved : Option Unit) :
    Prop where
  invariant : Invariant unitLea moves unitStore s after saved
  types : cycleTypes none s.orderedMoves = some (saved.map fun _ => s.root.type)
  chain : ∀ c ∈ s.chain, c.cycleBegin = true → c.endCycleType = some s.root.type

/-- A step of a traversal keeps the types. -/
theorem TypedInvariant.closeCycle {s : Search} {after : MoveStore Unit} {saved : Option Unit}
    (h : TypedInvariant moves s after saved) (hp : Parallel moves) {blocking : MoveOp}
    (hfind : findBlockingMove s.pending s.last = some blocking) (hto : blocking.toOp = s.root.fromOp) :
    TypedInvariant moves (s.closeCycle blocking) after saved := by
  refine ⟨h.invariant.closeCycle hp hfind hto, h.types, fun c hc hbegin => ?_⟩
  rcases List.mem_cons.mp hc with rfl | hc
  · rfl
  · exact h.chain c hc hbegin

theorem TypedInvariant.extend {s : Search} {after : MoveStore Unit} {saved : Option Unit}
    (h : TypedInvariant moves s after saved) {blocking : MoveOp}
    (hfind : findBlockingMove s.pending s.last = some blocking) (hto : blocking.toOp ≠ s.root.fromOp) :
    TypedInvariant moves (s.extend blocking) after saved := by
  refine ⟨h.invariant.extend hfind hto, h.types, fun c hc hbegin => ?_⟩
  rcases List.mem_cons.mp hc with rfl | hc
  · have hflags := h.invariant.pending_unflagged c (Search.mem_of_findBlockingMove hfind).1
    rw [← hflags] at hbegin
    cases hbegin
  · exact h.chain c hc hbegin

/-- The flags of a move decide what an emission saves. -/
theorem saved_of_emitMove {after after' : MoveStore Unit} {saved saved' : Option Unit} {m : MoveOp}
    (h : emitMove unitLea (after, saved) m = some (after', saved')) {type : MoveType}
    (hend : m.cycleEnd = true → m.type = type) (hbegin : m.cycleBegin = true → m.endCycleType = some type) :
    cycleType (saved.map fun _ => type) m = some (saved'.map fun _ => type) := by
  unfold emitMove at h
  unfold cycleType
  cases hmEnd : m.cycleEnd with
  | true =>
    cases saved with
    | none => simp [hmEnd] at h
    | some u =>
      simp [hmEnd] at h
      simp [hend hmEnd, ← h.2]
  | false =>
    cases hmBegin : m.cycleBegin with
    | true =>
      cases saved with
      | none =>
        simp [hmEnd, hmBegin] at h
        simp [hbegin hmBegin, ← h.2]
      | some u => simp [hmEnd, hmBegin] at h
    | false =>
      simp [hmEnd, hmBegin] at h
      simp [h.2]

theorem TypedInvariant.finish {s : Search} {after : MoveStore Unit} {saved : Option Unit}
    (h : TypedInvariant moves s after saved) (hp : Parallel moves)
    (hfind : findBlockingMove s.pending s.last = none) {done : MoveOp} {rest : List MoveOp}
    (hchain : s.chain = done :: rest) :
    ∃ after' saved', TypedInvariant moves (s.finish done rest) after' saved' := by
  obtain ⟨after', saved', hnext⟩ := h.invariant.finish hp hfind hchain
  have hdone : done ∈ s.chain := by
    rw [hchain]
    exact List.mem_cons_self
  have hemit := (emitMoves_append_singleton h.invariant.emitted).symm.trans hnext.emitted
  refine ⟨after', saved', hnext, ?_, fun c hc hbegin => ?_⟩
  · refine (cycleTypes_append_singleton h.types).trans (saved_of_emitMove hemit (fun hend => ?_) (h.chain done hdone))
    rw [(h.invariant.chain_begin done hdone).1] at hend
    cases hend
  · refine h.chain c ?_ hbegin
    rw [hchain]
    exact List.mem_cons_of_mem done hc

/-- A traversal keeps the types. -/
theorem types_resolveChain {pending ordered : List MoveOp} {after : MoveStore Unit} {root : MoveOp}
    (h : Between unitLea moves unitStore pending ordered after) (hp : Parallel moves)
    (hlast : pending.getLast? = some root) (hasCycles : Bool) (htypes : cycleTypes none ordered = some none) :
    (∃ after', Between unitLea moves unitStore
        (Search.start pending root ordered hasCycles).resolveChain.pending
        (Search.start pending root ordered hasCycles).resolveChain.orderedMoves after') ∧
      cycleTypes none (Search.start pending root ordered hasCycles).resolveChain.orderedMoves = some none := by
  obtain ⟨t, ⟨after', saved', ht⟩, hchain, hfind, heq⟩ := Search.resolveChain_invariant
    (fun s => ∃ after saved, TypedInvariant moves s after saved)
    (fun s blocking ⟨_, _, hs⟩ hfind hto => ⟨_, _, hs.closeCycle hp hfind hto⟩)
    (fun s blocking ⟨_, _, hs⟩ hfind hto => ⟨_, _, hs.extend hfind hto⟩)
    (fun s done rest ⟨_, _, hs⟩ hfind hchain => hs.finish hp hfind hchain)
    (.start pending root ordered hasCycles)
    ⟨after, none, h.start hlast hasCycles, htypes, fun c hc => by cases hc⟩
  rw [heq]
  obtain ⟨last, hbetween⟩ := ht.invariant.emitRoot hp hchain hfind
  refine ⟨⟨last, hbetween⟩, ?_⟩
  have hemit := (emitMoves_append_singleton ht.invariant.emitted).symm.trans hbetween.emitted
  refine (cycleTypes_append_singleton ht.types).trans (saved_of_emitMove hemit (fun _ => rfl) fun hbegin => ?_)
  rw [ht.invariant.root_begin] at hbegin
  cases hbegin

/-- The loop keeps the types. -/
theorem types_resolveLoop {pending ordered : List MoveOp} {after : MoveStore Unit}
    (h : Between unitLea moves unitStore pending ordered after) (hp : Parallel moves) (hasCycles : Bool)
    (htypes : cycleTypes none ordered = some none) :
    cycleTypes none (resolveLoop pending ordered hasCycles).1 = some none := by
  induction pending, ordered, hasCycles using resolveLoop.induct_unfolding generalizing after with
  | case1 pending ordered hasCycles hlast => exact htypes
  | case2 pending ordered hasCycles root hlast ih =>
    obtain ⟨⟨after', hnext⟩, htypes'⟩ := types_resolveChain h hp hlast hasCycles htypes
    exact ih hnext htypes'

/-- Each cycle of the output has the type of its last move, and no move begins one and ends one. -/
theorem types_resolve (requests : List (MoveOperand × MoveOperand × MoveType))
    (hp : Parallel (addMoves requests)) : cycleTypes none (resolve (addMoves requests)).1 = some none ∧
      ∀ m ∈ (resolve (addMoves requests)).1, m.cycleBegin = true → m.cycleEnd = false := by
  have hflags : ∀ m ∈ addMoves requests, m.unflagged = m := by
    rw [addMoves_eq_map]
    intro m hm
    obtain ⟨r, -, rfl⟩ := List.mem_map.mp hm
    rfl
  have hstart : Between unitLea (addMoves requests) unitStore (addMoves requests) [] unitStore :=
    ⟨by rw [List.nil_append, List.map_congr_left hflags, List.map_id'], rfl,
      ⟨by simp, fun _ _ => rfl⟩, hflags, by simp, by simp⟩
  obtain ⟨_, hbetween⟩ := hstart.resolveLoop hp false
  exact ⟨types_resolveLoop hstart hp false rfl, hbetween.not_both⟩

/-- Inside of a cycle, the next flag is that of its last move. -/
theorem exists_last {type : MoveType} (h : cycleTypes (some type) moves = some none) :
    ∃ inside last rest, moves = inside ++ last :: rest ∧ last.cycleEnd = true ∧ last.type = type ∧
      ∀ m ∈ inside, m.cycleBegin = false ∧ m.cycleEnd = false := by
  induction moves with
  | nil => cases h
  | cons m moves ih =>
    rw [cycleTypes, List.foldlM_cons] at h
    cases hend : m.cycleEnd with
    | true =>
      have htype : type = m.type := by
        by_contra hne
        simp [cycleType, hend, hne] at h
      exact ⟨[], m, moves, rfl, hend, htype.symm, fun m hm => by cases hm⟩
    | false =>
      cases hbegin : m.cycleBegin with
      | true => simp [cycleType, hend, hbegin] at h
      | false =>
        have hrest : cycleTypes (some type) moves = some none := by
          simpa [cycleType, hend, hbegin, cycleTypes] using h
        obtain ⟨inside, last, rest, rfl, hlast, htype, hinside⟩ := ih hrest
        refine ⟨m :: inside, last, rest, rfl, hlast, htype, fun m' hm' => ?_⟩
        rcases List.mem_cons.mp hm' with rfl | hm'
        · exact ⟨hbegin, hend⟩
        · exact hinside m' hm'

/-- A cycle runs from its first move to its last one, whose type it has. -/
structure IsCycle (first : MoveOp) (inside : List MoveOp) (last : MoveOp) : Prop where
  first_end : first.cycleEnd = false
  first_begin : first.cycleBegin = true
  last_end : last.cycleEnd = true
  type : first.endCycleType = some last.type
  inside : ∀ m ∈ inside, m.cycleBegin = false ∧ m.cycleEnd = false

/-- A move of the output that begins a cycle is followed by the rest of it. -/
theorem exists_cycle {earlier later : List MoveOp} {first : MoveOp}
    (h : cycleTypes none (earlier ++ first :: later) = some none) (hbegin : first.cycleBegin = true)
    (hend : first.cycleEnd = false) :
    ∃ inside last rest, later = inside ++ last :: rest ∧ IsCycle first inside last := by
  rw [cycleTypes, List.foldlM_append] at h
  obtain ⟨saved, -, h⟩ := Option.bind_eq_some_iff.mp h
  rw [List.foldlM_cons] at h
  obtain ⟨saved', hfirst, hlater⟩ := Option.bind_eq_some_iff.mp h
  cases saved with
  | some type => simp [cycleType, hend, hbegin] at hfirst
  | none =>
    simp only [cycleType, hend, hbegin, Bool.false_eq_true, if_false, if_true] at hfirst
    obtain ⟨type, htype, rfl⟩ := Option.map_eq_some_iff.mp hfirst
    obtain ⟨inside, last, rest, rfl, hlast, rfl, hinside⟩ := exists_last hlater
    exact ⟨inside, last, rest, rfl, hend, hbegin, hlast, htype, hinside⟩

end Types

end MoveResolver

namespace MoveEmitter

/-! ## The characterization -/

section Characterize

variable {i k n : ℕ} {m : ℕ → MoveOp}

/-- The moves from `i` to `i + n`. -/
def Window (moves : List MoveOp) (i n : ℕ) (m : ℕ → MoveOp) : Prop := ∀ k ≤ n, moves[i + k]? = some (m k)

/-- What an accepted cycle satisfies from its move `k` on. -/
structure Accepts (m : ℕ → MoveOp) (n k : ℕ) (allGeneralRegs allFloatRegs : Bool) (c : Characterization) :
    Prop where
  swapCount : c.swapCount = some n
  next : ∀ j, k ≤ j → j < n → (m j).fromOp = (m (j + 1)).toOp
  back : (m n).fromOp = (m 0).toOp
  general : c.allGeneralRegs = true →
    allGeneralRegs = true ∧ ∀ j, k ≤ j → j ≤ n → (m j).toOp.isGeneralReg = true
  float : c.allFloatRegs = true → allFloatRegs = true ∧ ∀ j, k ≤ j → j ≤ n → (m j).toOp.isFloatReg = true

/-- A turn of the loop. -/
theorem characterizeLoop_eq {moves : List MoveOp} {j swapCount : ℕ} {allGeneralRegs allFloatRegs : Bool}
    {move : MoveOp} (h : moves[j]? = some move) :
    characterizeLoop moves i j swapCount allGeneralRegs allFloatRegs =
      if !(allGeneralRegs && move.toOp.isGeneralReg) && !(allFloatRegs && move.toOp.isFloatReg) then some .failed
      else if j ≠ i ∧ move.cycleEnd then do
        let move' ← moves[i + swapCount]?
        let first ← moves[i]?
        if move'.fromOp ≠ first.toOp then some .failed
        else some ⟨some swapCount, allGeneralRegs && move.toOp.isGeneralReg,
          allFloatRegs && move.toOp.isFloatReg⟩
      else
        match moves[j + 1]? with
        | none => none
        | some next =>
          if move.fromOp ≠ next.toOp then some .failed
          else characterizeLoop moves i (j + 1) (swapCount + 1) (allGeneralRegs && move.toOp.isGeneralReg)
            (allFloatRegs && move.toOp.isFloatReg) := by
  rw [characterizeLoop]
  split
  next hnone => cases hnone.symm.trans h
  next move' hsome =>
    obtain rfl := Option.some.inj (hsome.symm.trans h)
    rfl

/-- The loop stops at the last move of a cycle, or fails before. -/
theorem characterizeLoop_spec (hn : 0 < n) (hend : (m n).cycleEnd = true)
    (hinside : ∀ j < n, (m j).cycleEnd = false) (k : ℕ) (hk : k ≤ n) (allGeneralRegs allFloatRegs : Bool) :
    ∃ c, (∀ moves, Window moves i n m →
        characterizeLoop moves i (i + k) k allGeneralRegs allFloatRegs = some c) ∧
      (c = .failed ∨ Accepts m n k allGeneralRegs allFloatRegs c) := by
  by_cases hflags : (!(allGeneralRegs && (m k).toOp.isGeneralReg) && !(allFloatRegs && (m k).toOp.isFloatReg)) = true
  · refine ⟨.failed, fun moves hw => ?_, .inl rfl⟩
    rw [characterizeLoop_eq (hw k hk), if_pos hflags]
  rcases hk.eq_or_lt with rfl | hlt
  · have hne : i + k ≠ i := by omega
    by_cases hback : (m k).fromOp = (m 0).toOp
    · refine ⟨⟨some k, allGeneralRegs && (m k).toOp.isGeneralReg, allFloatRegs && (m k).toOp.isFloatReg⟩,
        fun moves hw => ?_, .inr ⟨rfl, fun j hle hlt => absurd hlt (not_lt.mpr hle), hback, fun hgeneral => ?_,
          fun hfloat => ?_⟩⟩
      · have hfirst : moves[i]? = some (m 0) := hw 0 (Nat.zero_le k)
        rw [characterizeLoop_eq (hw k le_rfl), if_neg hflags, if_pos ⟨hne, hend⟩, hw k le_rfl, hfirst]
        simp [hback]
      · rw [Bool.and_eq_true] at hgeneral
        exact ⟨hgeneral.1, fun j hle hle' => le_antisymm hle hle' ▸ hgeneral.2⟩
      · rw [Bool.and_eq_true] at hfloat
        exact ⟨hfloat.1, fun j hle hle' => le_antisymm hle hle' ▸ hfloat.2⟩
    · refine ⟨.failed, fun moves hw => ?_, .inl rfl⟩
      have hfirst : moves[i]? = some (m 0) := hw 0 (Nat.zero_le k)
      rw [characterizeLoop_eq (hw k le_rfl), if_neg hflags, if_pos ⟨hne, hend⟩, hw k le_rfl, hfirst]
      simp [hback]
  · have hcontinue : ¬ (i + k ≠ i ∧ (m k).cycleEnd = true) := fun h => by
      rw [hinside k hlt] at h
      cases h.2
    by_cases hnext : (m k).fromOp = (m (k + 1)).toOp
    · obtain ⟨c, hc, hcases⟩ := characterizeLoop_spec hn hend hinside (k + 1) hlt
        (allGeneralRegs && (m k).toOp.isGeneralReg) (allFloatRegs && (m k).toOp.isFloatReg)
      refine ⟨c, fun moves hw => ?_, hcases.imp_right fun h => ⟨h.swapCount, fun j hle hj => ?_, h.back,
        fun hgeneral => ?_, fun hfloat => ?_⟩⟩
      · have hsucc : moves[i + k + 1]? = some (m (k + 1)) := hw (k + 1) hlt
        rw [characterizeLoop_eq (hw k hk), if_neg hflags, if_neg hcontinue, hsucc]
        simp only [ne_eq, hnext, not_true_eq_false, if_false]
        exact hc moves hw
      · rcases hle.eq_or_lt with rfl | hgt
        · exact hnext
        · exact h.next j hgt hj
      · obtain ⟨hflag, hrest⟩ := h.general hgeneral
        rw [Bool.and_eq_true] at hflag
        refine ⟨hflag.1, fun j hle hj => ?_⟩
        rcases hle.eq_or_lt with rfl | hgt
        · exact hflag.2
        · exact hrest j hgt hj
      · obtain ⟨hflag, hrest⟩ := h.float hfloat
        rw [Bool.and_eq_true] at hflag
        refine ⟨hflag.1, fun j hle hj => ?_⟩
        rcases hle.eq_or_lt with rfl | hgt
        · exact hflag.2
        · exact hrest j hgt hj
    · refine ⟨.failed, fun moves hw => ?_, .inl rfl⟩
      have hsucc : moves[i + k + 1]? = some (m (k + 1)) := hw (k + 1) hlt
      rw [characterizeLoop_eq (hw k hk), if_neg hflags, if_neg hcontinue, hsucc]
      simp [hnext]
termination_by n - k

end Characterize

/-! ## Both forms -/

section Forms

variable {w : ℕ} {type : MoveType} {a b : ℕ} {s t : Registers w} {moves : List MoveOp}

/-- A type of general registers. -/
def IsWord (type : MoveType) : Prop := type = .general ∨ type = .int32

/-- What a move of a type copies of a general register. -/
def carried (type : MoveType) (v : BitVec w) : BitVec w :=
  match type with
  | .int32 => low32 v
  | _ => v

/-- A move between general registers. -/
theorem emitRegisterMove_reg (h : IsWord type) (a b : ℕ) (s : Registers w) :
    emitRegisterMove type (.reg a) (.reg b) s =
      some { s with general := Function.update s.general b (carried type (s.general a)) } := by
  rcases h with rfl | rfl <;> rfl

/-- What is saved of a general register is restored. -/
theorem exists_breakCycle_reg (h : IsWord type) (a : ℕ) (s : Registers w) :
    ∃ saved, breakCycle (.reg a) type s = some saved ∧ ∀ b (t : Registers w),
      completeCycle (.reg b) type saved t =
        some { t with general := Function.update t.general b (carried type (s.general a)) } := by
  rcases h with rfl | rfl
  · exact ⟨_, rfl, fun _ _ => rfl⟩
  · refine ⟨_, rfl, fun b t => ?_⟩
    have hslot : (((s.general a).setWidth 32).setWidth 64).setWidth 32 = (s.general a).setWidth 32 := by
      rw [BitVec.setWidth_setWidth_of_le _ (by decide), BitVec.setWidth_eq]
    simp only [completeCycle, hslot]
    rfl

/-- Two sets of registers that differ only above the values that were moved. -/
structure Agrees (moves : List MoveOp) (s t : Registers w) : Prop where
  value : ∀ m ∈ moves, valueIn m.type m.toOp s = valueIn m.type m.toOp t
  general : ∀ r, (∀ m ∈ moves, m.toOp ≠ .reg r) → s.general r = t.general r
  float : ∀ r, (∀ m ∈ moves, m.toOp ≠ .floatReg r) → s.float r = t.float r

/-- A copy has the value that is copied. -/
theorem valueIn_of_carried (u : BitVec w) (h : IsWord type) (hs : s.general a = carried type u)
    (ht : t.general a = u) : valueIn type (.reg a) s = valueIn type (.reg a) t := by
  subst ht
  rcases h with rfl | rfl
  · simp only [valueIn, hs]
    rfl
  · have hlow : (low32 (t.general a)).toNat % 2 ^ 32 = (t.general a).toNat % 2 ^ 32 := by
      have hlt := (t.general a).isLt
      have hle := Nat.mod_le (t.general a).toNat (2 ^ 32)
      rw [low32, BitVec.toNat_setWidth, BitVec.toNat_setWidth, Nat.mod_eq_of_lt (hle.trans_lt hlt), Nat.mod_mod]
    simp only [valueIn, hs]
    exact congrArg some hlow

/-- The first move of a cycle between general registers. -/
theorem emitThroughStack_first {first : MoveOp} (hbegin : first.cycleBegin = true) (hend : first.cycleEnd = false)
    (hendType : first.endCycleType = some type) (hfrom : first.fromOp = .reg b) (hto : first.toOp = .reg a)
    (hword : IsWord first.type) (htype : IsWord type) (s : Registers w) :
    ∃ saved, emitThroughStack (s, none) first =
        some ({ s with general := Function.update s.general a (carried first.type (s.general b)) }, some saved) ∧
      ∀ c (t : Registers w), completeCycle (.reg c) type saved t =
        some { t with general := Function.update t.general c (carried type (s.general a)) } := by
  obtain ⟨saved, hbreak, hcomplete⟩ := exists_breakCycle_reg htype a s
  refine ⟨saved, ?_, hcomplete⟩
  simp [emitThroughStack, hend, hbegin, hendType, hto, hbreak, hfrom, emitRegisterMove_reg hword]

/-- The last move of a cycle between general registers. -/
theorem emitThroughStack_last {last : MoveOp} {saved : Saved w} (hend : last.cycleEnd = true)
    (hto : last.toOp = .reg a) {t' : Registers w} (hcomplete : completeCycle (.reg a) last.type saved t = some t') :
    emitThroughStack (t, some saved) last = some (t', none) := by
  simp [emitThroughStack, hend, hto, hcomplete]

/-- A move inside of a cycle between general registers. -/
theorem emitThroughStack_inside {move : MoveOp} {saved : Option (Saved w)} (hbegin : move.cycleBegin = false)
    (hend : move.cycleEnd = false) (hfrom : move.fromOp = .reg b) (hto : move.toOp = .reg a)
    (hword : IsWord move.type) (s : Registers w) :
    emitThroughStack (s, saved) move =
      some ({ s with general := Function.update s.general a (carried move.type (s.general b)) }, saved) := by
  simp [emitThroughStack, hend, hbegin, hto, hfrom, emitRegisterMove_reg hword]

/-- One exchange is a cycle of two moves. -/
theorem agrees_xchg {first last : MoveOp} (hcycle : MoveResolver.IsCycle first [] last)
    (hfirst : first.toOp = .reg a) (hlast : last.toOp = .reg b) (hnext : first.fromOp = last.toOp)
    (hback : last.fromOp = first.toOp) (hne : a ≠ b) (hword : IsWord first.type) (hword' : IsWord last.type)
    (s : Registers w) :
    ∃ after, [first, last].foldlM emitThroughStack (s, none) = some (after, none) ∧
      Agrees [first, last] after (runOptimized s [.xchg a b]) := by
  obtain ⟨saved, hemit, hcomplete⟩ := emitThroughStack_first hcycle.first_begin hcycle.first_end hcycle.type
    (hnext.trans hlast) hfirst hword hword' s
  refine ⟨⟨Function.update (Function.update s.general a (carried first.type (s.general b))) b
    (carried last.type (s.general a)), s.float⟩, ?_, ?_⟩
  · rw [List.foldlM_cons, hemit, Option.bind_eq_bind, Option.bind_some, List.foldlM_cons,
      emitThroughStack_last hcycle.last_end hlast (hcomplete b _)]
    rfl
  · constructor
    · intro m hm
      rcases List.mem_cons.mp hm with rfl | hm
      · rw [hfirst]
        refine valueIn_of_carried (s.general b) hword ?_ ?_
        · simp [hne]
        · simp [runOptimized, Instruction.run, hne]
      · rw [List.mem_singleton.mp hm, hlast]
        refine valueIn_of_carried (s.general a) hword' ?_ ?_
        · simp
        · simp [runOptimized, Instruction.run]
    · intro r hr
      have ha : r ≠ a := fun h => hr first (by simp) (h ▸ hfirst)
      have hb : r ≠ b := fun h => hr last (by simp) (h ▸ hlast)
      simp [runOptimized, Instruction.run, ha, hb]
    · intro r _
      rfl

/-- Two exchanges are a cycle of three moves. -/
theorem agrees_xchg_xchg {first move last : MoveOp} {c : ℕ} (hcycle : MoveResolver.IsCycle first [move] last)
    (hfirst : first.toOp = .reg a) (hmove : move.toOp = .reg b) (hlast : last.toOp = .reg c)
    (hnext : first.fromOp = move.toOp) (hnext' : move.fromOp = last.toOp) (hne : a ≠ b) (hne' : a ≠ c)
    (hne'' : b ≠ c) (hword : IsWord first.type) (hword' : IsWord move.type) (hword'' : IsWord last.type)
    (s : Registers w) :
    ∃ after, [first, move, last].foldlM emitThroughStack (s, none) = some (after, none) ∧
      Agrees [first, move, last] after (runOptimized s [.xchg a b, .xchg b c]) := by
  obtain ⟨saved, hemit, hcomplete⟩ := emitThroughStack_first hcycle.first_begin hcycle.first_end hcycle.type
    (hnext.trans hmove) hfirst hword hword'' s
  obtain ⟨hbegin, hend⟩ := hcycle.inside move List.mem_cons_self
  refine ⟨⟨Function.update (Function.update (Function.update s.general a (carried first.type (s.general b))) b
    (carried move.type (s.general c))) c (carried last.type (s.general a)), s.float⟩, ?_, ?_⟩
  · rw [List.foldlM_cons, hemit, Option.bind_eq_bind, Option.bind_some, List.foldlM_cons,
      emitThroughStack_inside hbegin hend (hnext'.trans hlast) hmove hword', Option.bind_eq_bind,
      Option.bind_some, List.foldlM_cons, emitThroughStack_last hcycle.last_end hlast (hcomplete c _)]
    simp only [Function.update_of_ne hne'.symm]
    rfl
  · constructor
    · intro m hm
      rcases List.mem_cons.mp hm with rfl | hm
      · rw [hfirst]
        refine valueIn_of_carried (s.general b) hword ?_ ?_
        · simp [hne, hne']
        · simp [runOptimized, Instruction.run, hne, hne']
      rcases List.mem_cons.mp hm with rfl | hm
      · rw [hmove]
        refine valueIn_of_carried (s.general c) hword' ?_ ?_
        · simp [hne'']
        · simp [runOptimized, Instruction.run, hne'', hne'.symm, hne''.symm]
      · rw [List.mem_singleton.mp hm, hlast]
        refine valueIn_of_carried (s.general a) hword'' ?_ ?_
        · simp
        · simp [runOptimized, Instruction.run]
    · intro r hr
      have ha : r ≠ a := fun h => hr first (by simp) (h ▸ hfirst)
      have hb : r ≠ b := fun h => hr move (by simp) (h ▸ hmove)
      have hc : r ≠ c := fun h => hr last (by simp) (h ▸ hlast)
      simp [runOptimized, Instruction.run, ha, hb, hc]
    · intro r _
      rfl

/-- A type of float registers. -/
def IsFloat (type : MoveType) : Prop := type = .float32 ∨ type = .double

/-- A move between float registers copies all of them. -/
theorem emitRegisterMove_floatReg (h : IsFloat type) (a b : ℕ) (s : Registers w) :
    emitRegisterMove type (.floatReg a) (.floatReg b) s =
      some { s with float := Function.update s.float b (s.float a) } := by
  rcases h with rfl | rfl <;> rfl

/-- What is saved of a float register is its value. -/
theorem exists_breakCycle_floatReg (h : IsFloat type) (a : ℕ) (s : Registers w) :
    ∃ saved, breakCycle (.floatReg a) type s = some saved ∧ ∃ v : BitVec 128,
      (∀ b (t : Registers w), completeCycle (.floatReg b) type saved t =
        some { t with float := Function.update t.float b v }) ∧
      ∀ b (t u : Registers w), t.float b = v → u.float b = s.float a →
        valueIn type (.floatReg b) t = valueIn type (.floatReg b) u := by
  rcases h with rfl | rfl
  · refine ⟨_, rfl, _, fun _ _ => rfl, fun b t u ht hu => ?_⟩
    have hlow : (((s.float a).setWidth 32).setWidth 64).setWidth 32 = (s.float a).setWidth 32 := by
      rw [BitVec.setWidth_setWidth_of_le _ (by decide), BitVec.setWidth_eq]
    rw [hlow] at ht
    simp only [valueIn, ht, hu, BitVec.toNat_setWidth]
    congr 1
    omega
  · refine ⟨_, rfl, _, fun _ _ => rfl, fun b t u ht hu => ?_⟩
    simp only [valueIn, ht, hu, BitVec.toNat_setWidth]
    congr 1
    omega

/-- Three exclusive disjunctions are a cycle of two moves. -/
theorem agrees_xorpd {first last : MoveOp} (hcycle : MoveResolver.IsCycle first [] last)
    (hfirst : first.toOp = .floatReg a) (hlast : last.toOp = .floatReg b) (hnext : first.fromOp = last.toOp)
    (hne : a ≠ b) (hfloat : IsFloat first.type) (hfloat' : IsFloat last.type) (s : Registers w) :
    ∃ after, [first, last].foldlM emitThroughStack (s, none) = some (after, none) ∧
      Agrees [first, last] after (runOptimized s [.xorpd a b, .xorpd b a, .xorpd a b]) := by
  obtain ⟨saved, hbreak, v, hcomplete, hvalue⟩ := exists_breakCycle_floatReg hfloat' a s
  have hfirstEnd := hcycle.first_end
  have hfirstBegin := hcycle.first_begin
  have hendType := hcycle.type
  have hlastEnd := hcycle.last_end
  have hswap : (runOptimized s [.xorpd a b, .xorpd b a, .xorpd a b]).float =
      Function.update (Function.update s.float a (s.float b)) b (s.float a) := by
    have hfront : s.float a ^^^ (s.float b ^^^ s.float a) = s.float b := by
      rw [BitVec.xor_comm (s.float b), ← BitVec.xor_assoc, BitVec.xor_self, BitVec.zero_xor]
    have hback : s.float b ^^^ s.float a ^^^ s.float b = s.float a := by
      rw [BitVec.xor_comm (s.float b), BitVec.xor_assoc, BitVec.xor_self, BitVec.xor_zero]
    funext r
    by_cases hb : r = b
    · subst hb
      simp [runOptimized, Instruction.run, hne, hne.symm, hfront, hback]
    by_cases ha : r = a
    · subst ha
      simp [runOptimized, Instruction.run, hb, hfront]
    · simp [runOptimized, Instruction.run, ha, hb]
  refine ⟨⟨s.general, Function.update (Function.update s.float a (s.float b)) b v⟩, ?_, ?_⟩
  · have hemit : emitThroughStack (s, none) first =
        some (⟨s.general, Function.update s.float a (s.float b)⟩, some saved) := by
      simp [emitThroughStack, hfirstEnd, hfirstBegin, hendType, hfirst, hbreak, hnext, hlast,
        emitRegisterMove_floatReg hfloat]
    rw [List.foldlM_cons, hemit, Option.bind_eq_bind, Option.bind_some, List.foldlM_cons]
    simp [emitThroughStack, hlastEnd, hlast, hcomplete]
  · constructor
    · intro m hm
      rcases List.mem_cons.mp hm with rfl | hm
      · have hsame : (runOptimized s [.xorpd a b, .xorpd b a, .xorpd a b]).float a = s.float b := by
          rw [hswap]
          simp [hne]
        rw [hfirst]
        rcases hfloat with h | h <;> simp [valueIn, h, hsame, hne]
      · rw [List.mem_singleton.mp hm, hlast]
        refine hvalue b _ _ (by simp) ?_
        rw [hswap]
        simp
    · intro r _
      rfl
    · intro r hr
      have ha : r ≠ a := fun h => hr first (by simp) (h ▸ hfirst)
      have hb : r ≠ b := fun h => hr last (by simp) (h ▸ hlast)
      rw [hswap]
      simp [ha, hb]

end Forms

/-! ## Cycles of the resolver -/

/-- A register that a move of a type can write. -/
def Carries (type : MoveType) (operand : MoveOperand) : Prop :=
  match operand with
  | .reg _ => IsWord type
  | .floatReg _ => IsFloat type
  | _ => True

/-- Registers of general moves agree in all bits. -/
theorem Agrees.eq {w : ℕ} {s t : Registers w} {moves : List MoveOp} (h : Agrees moves s t)
    (hgeneral : ∀ m ∈ moves, m.type = .general) : s.general = t.general := by
  funext r
  by_cases hr : ∀ m ∈ moves, m.toOp ≠ .reg r
  · exact h.general r hr
  · push Not at hr
    obtain ⟨m, hm, hto⟩ := hr
    have hvalue := h.value m hm
    rw [hgeneral m hm, hto] at hvalue
    exact BitVec.eq_of_toNat_eq (Option.some.inj hvalue)

section Cycle

variable {w n : ℕ} {earlier inside rest : List MoveOp} {first last : MoveOp}

/-- A general register. -/
theorem exists_reg {operand : MoveOperand} (h : operand.isGeneralReg = true) : ∃ a, operand = .reg a := by
  cases operand with
  | reg a => exact ⟨a, rfl⟩
  | _ => cases h

/-- A float register. -/
theorem exists_floatReg {operand : MoveOperand} (h : operand.isFloatReg = true) : ∃ a, operand = .floatReg a := by
  cases operand with
  | floatReg a => exact ⟨a, rfl⟩
  | _ => cases h

/-- The moves of a cycle in a list. -/
theorem getElem?_cycle (earlier rest : List MoveOp) (first last : MoveOp) (inside : List MoveOp) (k : ℕ)
    (hk : k ≤ inside.length + 1) :
    (earlier ++ first :: (inside ++ last :: rest))[earlier.length + k]? =
      (first :: (inside ++ [last]))[k]? := by
  rw [List.getElem?_append_right (Nat.le_add_right _ _), Nat.add_sub_cancel_left]
  cases k with
  | zero => rfl
  | succ k =>
    rw [List.getElem?_cons_succ, List.getElem?_cons_succ]
    rcases (Nat.le_of_succ_le_succ hk).lt_or_eq with hlt | rfl
    · rw [List.getElem?_append_left hlt, List.getElem?_append_left hlt]
    · rw [List.getElem?_append_right le_rfl, List.getElem?_append_right le_rfl, Nat.sub_self]
      rfl

/-- An exchange of two registers. -/
theorem xchgNext_eq {moves : List MoveOp} {k a b : ℕ} {m m' : MoveOp} (hm : moves[k]? = some m)
    (hm' : moves[k + 1]? = some m') (ha : m.toOp = .reg a) (hb : m'.toOp = .reg b) :
    xchgNext moves k = some (.xchg a b) := by
  simp [xchgNext, hm, hm', ha, hb]

/-- An accepted cycle, in both forms. -/
theorem agrees_of_accepts {c : Characterization} {code : List Instruction}
    (hcycle : MoveResolver.IsCycle first inside last)
    (hnodup : ((first :: (inside ++ [last])).map MoveOp.toOp).Nodup)
    (hcarries : ∀ m ∈ first :: (inside ++ [last]), Carries m.type m.toOp)
    (haccepts : Accepts (fun k => (first :: (inside ++ [last])).getD k last) (inside.length + 1) 0 true true c)
    (hcode : maybeEmitOptimizedCycle (earlier ++ first :: (inside ++ last :: rest)) earlier.length c = some code)
    (s : Registers w) :
    ∃ after, (first :: (inside ++ [last])).foldlM emitThroughStack (s, none) = some (after, none) ∧
      Agrees (first :: (inside ++ [last])) after (runOptimized s code) := by
  obtain ⟨hcount, hnext, hback, hgeneral, hfloat⟩ := haccepts
  have hget := getElem?_cycle earlier rest first last inside
  rw [maybeEmitOptimizedCycle, hcount] at hcode
  simp only [Option.bind_eq_bind, Option.bind_some] at hcode
  split at hcode
  next hregs =>
    obtain ⟨-, hregs'⟩ := hgeneral hregs.1
    cases inside with
    | nil =>
      obtain ⟨a, ha⟩ : ∃ a, first.toOp = .reg a := exists_reg (hregs' 0 le_rfl (Nat.zero_le _))
      obtain ⟨b, hb⟩ : ∃ b, last.toOp = .reg b := exists_reg (hregs' 1 (Nat.zero_le _) le_rfl)
      have hcarries0 := hcarries first (by simp)
      have hcarries1 := hcarries last (by simp)
      rw [ha] at hcarries0
      rw [hb] at hcarries1
      have hne : a ≠ b := by
        rintro rfl
        simp [ha, hb] at hnodup
      have hx : xchgNext (earlier ++ first :: last :: rest) earlier.length = some (.xchg a b) :=
        xchgNext_eq (hget 0 (by simp)) (hget 1 (by simp)) ha hb
      have hlist : code = [.xchg a b] := by
        simpa [List.range_succ, hx] using hcode.symm
      subst hlist
      exact agrees_xchg hcycle ha hb (hnext 0 le_rfl Nat.one_pos) hback hne hcarries0 hcarries1 s
    | cons move inside =>
      cases inside with
      | nil =>
        obtain ⟨a, ha⟩ : ∃ a, first.toOp = .reg a := exists_reg (hregs' 0 le_rfl (Nat.zero_le _))
        obtain ⟨b, hb⟩ : ∃ b, move.toOp = .reg b := exists_reg (hregs' 1 (Nat.zero_le _) (by simp))
        obtain ⟨c, hc⟩ : ∃ c, last.toOp = .reg c := exists_reg (hregs' 2 (Nat.zero_le _) le_rfl)
        have hcarries0 := hcarries first (by simp)
        have hcarries1 := hcarries move (by simp)
        have hcarries2 := hcarries last (by simp)
        rw [ha] at hcarries0
        rw [hb] at hcarries1
        rw [hc] at hcarries2
        have hdistinct : a ≠ b ∧ a ≠ c ∧ b ≠ c := by
          simpa [ha, hb, hc, and_assoc] using hnodup
        have hx : xchgNext (earlier ++ first :: move :: last :: rest) earlier.length = some (.xchg a b) :=
          xchgNext_eq (hget 0 (by simp)) (hget 1 (by simp)) ha hb
        have hy : xchgNext (earlier ++ first :: move :: last :: rest) (earlier.length + 1) = some (.xchg b c) :=
          xchgNext_eq (hget 1 (by simp)) (hget 2 (by simp)) hb hc
        have hlist : code = [.xchg a b, .xchg b c] := by
          simpa [List.range_succ, hx, hy] using hcode.symm
        subst hlist
        exact agrees_xchg_xchg hcycle ha hb hc (hnext 0 le_rfl (by simp)) (hnext 1 (Nat.zero_le _) (by simp))
          hdistinct.1 hdistinct.2.1 hdistinct.2.2 hcarries0 hcarries1 hcarries2 s
      | cons move' inside =>
        have hle := hregs.2
        simp only [List.length_cons] at hle
        omega
  next =>
    split at hcode
    next hfloats =>
      obtain ⟨-, hregs'⟩ := hfloat hfloats.1
      obtain rfl : inside = [] := List.eq_nil_of_length_eq_zero (by omega)
      obtain ⟨a, ha⟩ : ∃ a, first.toOp = .floatReg a := exists_floatReg (hregs' 0 le_rfl (Nat.zero_le _))
      obtain ⟨b, hb⟩ : ∃ b, last.toOp = .floatReg b := exists_floatReg (hregs' 1 (Nat.zero_le _) le_rfl)
      have hcarries0 := hcarries first (by simp)
      have hcarries1 := hcarries last (by simp)
      rw [ha] at hcarries0
      rw [hb] at hcarries1
      have hne : a ≠ b := by
        rintro rfl
        simp [ha, hb] at hnodup
      have hlist : code = [.xorpd a b, .xorpd b a, .xorpd a b] := by
        have hzero := hget 0 (by simp)
        have hone := hget 1 (by simp)
        rw [Nat.add_zero] at hzero
        rw [hzero, hone] at hcode
        simpa [ha, hb] using hcode.symm
      subst hlist
      exact agrees_xorpd hcycle ha hb (hnext 0 le_rfl Nat.one_pos) hne hcarries0 hcarries1 s
    next => cases hcode

end Cycle

/-- The cycle that begins at `i` has `n + 1` moves, and its characterization reads no move after them. If it chooses
exchanges, they stand for exactly these moves, and leave the values that the moves through the stack leave. -/
def CycleAgrees (w : ℕ) (moves : List MoveOp) (i : ℕ) : Prop :=
  ∃ n last c, 0 < n ∧ moves[i + n]? = some last ∧ last.cycleEnd = true ∧
    characterizeCycle moves i = some c ∧ characterizeCycle (moves.take (i + n + 1)) i = some c ∧
    ∀ code, maybeEmitOptimizedCycle moves i c = some code → c.swapCount = some n ∧
      ∀ s : Registers w, ∃ after,
        ((moves.drop i).take (n + 1)).foldlM emitThroughStack (s, none) = some (after, none) ∧
        Agrees ((moves.drop i).take (n + 1)) after (runOptimized s code) ∧
        ((∀ m ∈ (moves.drop i).take (n + 1), m.type = .general) → after.general = (runOptimized s code).general)

/-- Both forms of each cycle that the resolver orders leave the same values: the exchanges, and the moves through the
stack. A register that an int32, a float or a double is moved to may differ above that value. Every other one
agrees in all bits. -/
theorem optimizedCycle_agrees (w : ℕ) (requests : List (MoveOperand × MoveOperand × MoveType))
    (hp : MoveResolver.Parallel (MoveResolver.addMoves requests))
    (hcarries : ∀ r ∈ requests, Carries r.2.2 r.2.1) {i : ℕ} {first : MoveOp}
    (hfirst : (MoveResolver.resolve (MoveResolver.addMoves requests)).1[i]? = some first)
    (hbegin : first.cycleBegin = true) :
    CycleAgrees w (MoveResolver.resolve (MoveResolver.addMoves requests)).1 i := by
  obtain ⟨htypes, hboth⟩ := MoveResolver.types_resolve requests hp
  have hperm := (MoveResolver.resolve_assigns_in_parallel MoveResolver.unitLea requests hp
    MoveResolver.unitStore).1
  generalize (MoveResolver.resolve (MoveResolver.addMoves requests)).1 = moves at *
  have hend := hboth first (List.mem_of_getElem? hfirst) hbegin
  obtain ⟨earlier, later, rfl, rfl⟩ : ∃ earlier later, moves = earlier ++ first :: later ∧
      earlier.length = i := by
    obtain ⟨hlt, rfl⟩ := List.getElem?_eq_some_iff.mp hfirst
    exact ⟨moves.take i, moves.drop (i + 1), by simp, List.length_take_of_le hlt.le⟩
  obtain ⟨inside, last, rest, rfl, hcycle⟩ := MoveResolver.exists_cycle htypes hbegin hend
  have hget (k : ℕ) (hk : k ≤ inside.length + 1) :
      (earlier ++ first :: (inside ++ last :: rest))[earlier.length + k]? =
        some ((first :: (inside ++ [last])).getD k last) := by
    have hlt : k < (first :: (inside ++ [last])).length := by
      simp
      omega
    rw [getElem?_cycle earlier rest first last inside k hk, List.getD_eq_getElem?_getD,
      List.getElem?_eq_getElem hlt]
    rfl
  have hlast : (first :: (inside ++ [last])).getD (inside.length + 1) last = last := by simp
  have hinside : ∀ j < inside.length + 1, ((first :: (inside ++ [last])).getD j last).cycleEnd = false := by
    intro j hj
    cases j with
    | zero => exact hcycle.first_end
    | succ j =>
      have hlt : j < inside.length := Nat.lt_of_succ_lt_succ hj
      rw [List.getD_cons_succ, List.getD_eq_getElem?_getD, List.getElem?_append_left hlt,
        List.getElem?_eq_getElem hlt]
      exact (hcycle.inside _ (List.getElem_mem hlt)).2
  obtain ⟨c, hc, hcases⟩ := characterizeLoop_spec (i := earlier.length) (Nat.succ_pos inside.length)
    (by rw [hlast]; exact hcycle.last_end) hinside 0 (Nat.zero_le _) true true
  have hmoves : ((earlier ++ first :: (inside ++ last :: rest)).drop earlier.length).take
      (inside.length + 1 + 1) = first :: (inside ++ [last]) := by
    have hsplit : inside ++ last :: rest = (inside ++ [last]) ++ rest := by simp
    rw [List.drop_left, List.take_succ_cons, hsplit, List.take_left' (by simp)]
  have hmem : ∀ m ∈ first :: (inside ++ [last]), m ∈ earlier ++ first :: (inside ++ last :: rest) := by
    intro m hm
    simp only [List.mem_cons, List.mem_append, List.not_mem_nil, or_false] at hm ⊢
    tauto
  refine ⟨inside.length + 1, last, c, Nat.succ_pos _, ?_, hcycle.last_end, hc _ hget, hc _ ?_, ?_⟩
  · rw [hget _ le_rfl, hlast]
  · intro k hk
    rw [List.getElem?_take, if_pos (by omega)]
    exact hget k hk
  · intro code hcode
    rcases hcases with rfl | haccepts
    · cases hcode
    refine ⟨haccepts.swapCount, fun s => ?_⟩
    rw [hmoves]
    suffices h : ∃ after, (first :: (inside ++ [last])).foldlM emitThroughStack (s, none) = some (after, none) ∧
        Agrees (first :: (inside ++ [last])) after (runOptimized s code) by
      obtain ⟨after, hemit, hagrees⟩ := h
      exact ⟨after, hemit, hagrees, hagrees.eq⟩
    refine agrees_of_accepts hcycle ?_ (fun m hm => ?_) haccepts hcode s
    · have hnodup := hp.distinct
      rw [← (hperm.map MoveOp.toOp).nodup_iff, List.map_map] at hnodup
      refine List.Nodup.sublist (List.Sublist.map _ ?_) hnodup
      rw [← hmoves]
      exact (List.take_sublist _ _).trans (List.drop_sublist _ _)
    · have hrequest := hperm.mem_iff.mp (List.mem_map_of_mem (f := MoveOp.unflagged) (hmem m hm))
      rw [MoveResolver.addMoves_eq_map] at hrequest
      obtain ⟨r, hr, heq⟩ := List.mem_map.mp hrequest
      have hcarry := hcarries r hr
      have htype : r.2.2 = m.type := congrArg MoveOp.type heq
      have hto : r.2.1 = m.toOp := congrArg MoveOp.toOp heq
      rwa [htype, hto] at hcarry

/-- A swap of two registers with int32 values. -/
def exchangeRequests : List (MoveOperand × MoveOperand × MoveType) :=
  [(.reg 0, .reg 1, .int32), (.reg 1, .reg 0, .int32)]

/-- The resolver orders a swap as one cycle. -/
theorem resolve_exchange : (MoveResolver.resolve (MoveResolver.addMoves exchangeRequests)).1 =
    [⟨.reg 0, .reg 1, .int32, true, false, some .int32⟩, ⟨.reg 1, .reg 0, .int32, false, true, none⟩] := by
  decide +kernel

/-- Both forms of a swap of int32 values. -/
theorem optimizedCycle_agrees_exchange :
    CycleAgrees 64 (MoveResolver.resolve (MoveResolver.addMoves exchangeRequests)).1 0 :=
  optimizedCycle_agrees 64 exchangeRequests
    ⟨by decide, by decide, by decide, by simp [exchangeRequests, MoveResolver.addMoves, MoveResolver.addMove,
      MoveOperand.base?]⟩
    (by simp [exchangeRequests, Carries, IsWord])
    (by rw [resolve_exchange]; rfl) rfl

/-- An exchange keeps the upper halves of registers, and moves of int32 values clear them. -/
theorem not_optimizedCycle_eq :
    characterizeCycle (MoveResolver.resolve (MoveResolver.addMoves exchangeRequests)).1 0 =
        some ⟨some 1, true, false⟩ ∧
      maybeEmitOptimizedCycle (MoveResolver.resolve (MoveResolver.addMoves exchangeRequests)).1 0
        ⟨some 1, true, false⟩ = some [.xchg 1 0] ∧
      ∃ after : Registers 64,
        (MoveResolver.resolve (MoveResolver.addMoves exchangeRequests)).1.foldlM emitThroughStack
          (⟨fun _ => 0x100000000, fun _ => 0⟩, none) = some (after, none) ∧
        after.general 0 ≠ (runOptimized ⟨fun _ => 0x100000000, fun _ => 0⟩ [.xchg 1 0]).general 0 := by
  rw [resolve_exchange]
  exact ⟨by decide +kernel, by decide, _, rfl, by decide⟩

end MoveEmitter

end SpiderMonkey.Jit
