import Mathlib.Data.List.Perm.Basic
import Mathlib.Data.List.Nodup
import Mathlib.Data.Int.Order.Basic
import Mathlib.Logic.Function.Basic

/-!
# Ordering the moves of a parallel assignment

`MoveResolver::resolve` and the meaning of the list it yields. The traversal stack is kept
as the root, whose flags change while it lies at the bottom, and the chain of moves above it
with the most recent one first.

A store gives every register and memory operand a value; an effective address has no value of
its own and is computed from its base register. Emitting a list keeps one temporary, filled
when a cycle begins and emptied when it ends.
-/

namespace SpiderMonkey.Jit

/-- A register, a memory region, or the address of a memory region. -/
inductive MoveOperand where
  | reg (code : ℕ)
  | floatReg (code : ℕ)
  | memory (base : ℕ) (disp : ℤ)
  | effectiveAddress (base : ℕ) (disp : ℤ)
  deriving DecidableEq, Repr

namespace MoveOperand

/-- The address at an offset from a register, which is the register itself at offset zero. -/
def ofAddress (base : ℕ) (disp : ℤ) : MoveOperand :=
  if disp = 0 then reg base else effectiveAddress base disp

/-- The base register of a memory region or of an address. -/
def base? : MoveOperand → Option ℕ
  | memory base _ => some base
  | effectiveAddress base _ => some base
  | _ => none

/-- Whether the operand is an address, which can be read but not written. -/
def isEffectiveAddress : MoveOperand → Bool
  | effectiveAddress _ _ => true
  | _ => false

end MoveOperand

/-- The value class of a move. -/
inductive MoveType where
  | general
  | int32
  | float32
  | double
  deriving DecidableEq, Repr

/-- A move with its cycle annotations; the type saved for the cycle's last move is present once the
move begins a cycle. -/
structure MoveOp where
  fromOp : MoveOperand
  toOp : MoveOperand
  type : MoveType
  cycleBegin : Bool := false
  cycleEnd : Bool := false
  endCycleType : Option MoveType := none
  deriving DecidableEq, Repr

namespace MoveOp

/-- Annotate the move that must first save its destination. -/
def setCycleBegin (m : MoveOp) (endCycleType : MoveType) : MoveOp :=
  { m with cycleBegin := true, endCycleType := some endCycleType }

/-- Annotate the move that reads the saved value. -/
def setCycleEnd (m : MoveOp) : MoveOp := { m with cycleEnd := true }

/-- The move as it was added, without annotations. -/
def unflagged (m : MoveOp) : MoveOp := ⟨m.fromOp, m.toOp, m.type, false, false, none⟩

@[simp] theorem setCycleBegin_fromOp (m : MoveOp) (t : MoveType) :
    (m.setCycleBegin t).fromOp = m.fromOp := rfl

@[simp] theorem setCycleBegin_toOp (m : MoveOp) (t : MoveType) :
    (m.setCycleBegin t).toOp = m.toOp := rfl

@[simp] theorem setCycleBegin_cycleEnd (m : MoveOp) (t : MoveType) :
    (m.setCycleBegin t).cycleEnd = m.cycleEnd := rfl

@[simp] theorem setCycleEnd_fromOp (m : MoveOp) : m.setCycleEnd.fromOp = m.fromOp := rfl

@[simp] theorem setCycleEnd_toOp (m : MoveOp) : m.setCycleEnd.toOp = m.toOp := rfl

@[simp] theorem setCycleEnd_cycleBegin (m : MoveOp) :
    m.setCycleEnd.cycleBegin = m.cycleBegin := rfl

@[simp] theorem unflagged_fromOp (m : MoveOp) : m.unflagged.fromOp = m.fromOp := rfl

@[simp] theorem unflagged_toOp (m : MoveOp) : m.unflagged.toOp = m.toOp := rfl

@[simp] theorem unflagged_setCycleBegin (m : MoveOp) (t : MoveType) :
    (m.setCycleBegin t).unflagged = m.unflagged := rfl

@[simp] theorem unflagged_setCycleEnd (m : MoveOp) : m.setCycleEnd.unflagged = m.unflagged := rfl

end MoveOp

namespace MoveResolver

/-- Append a new pending move. -/
def addMove (pending : List MoveOp) (fromOp toOp : MoveOperand) (type : MoveType) : List MoveOp :=
  pending ++ [⟨fromOp, toOp, type, false, false, none⟩]

/-- The pending list after a sequence of calls to `addMove`. -/
def addMoves (requests : List (MoveOperand × MoveOperand × MoveType)) : List MoveOp :=
  requests.foldl (fun pending r => addMove pending r.1 r.2.1 r.2.2) []

/-- One depth-first traversal: the pending list, the stack above the root, the root and the output. -/
structure Search where
  pending : List MoveOp
  chain : List MoveOp
  root : MoveOp
  orderedMoves : List MoveOp
  hasCycles : Bool

/-- The first pending move whose source is the destination of `last`. -/
def findBlockingMove (pending : List MoveOp) (last : MoveOp) : Option MoveOp :=
  pending.find? fun other => other.fromOp == last.toOp

namespace Search

/-- Pop the last pending move as the root of a new traversal. -/
def start (pending : List MoveOp) (root : MoveOp) (orderedMoves : List MoveOp) (hasCycles : Bool) :
    Search := ⟨pending.dropLast, [], root, orderedMoves, hasCycles⟩

/-- The most recent move on the stack. -/
def last (s : Search) : MoveOp := s.chain.headD s.root

/-- Push a blocking move that overwrites the root's source, annotating both ends of the cycle. -/
def closeCycle (s : Search) (blocking : MoveOp) : Search where
  pending := s.pending.erase blocking
  chain := blocking.setCycleBegin s.root.type :: s.chain
  root := s.root.setCycleEnd
  orderedMoves := s.orderedMoves
  hasCycles := true

/-- Push a blocking move that is a new link of the chain. -/
def extend (s : Search) (blocking : MoveOp) : Search where
  pending := s.pending.erase blocking
  chain := blocking :: s.chain
  root := s.root
  orderedMoves := s.orderedMoves
  hasCycles := s.hasCycles

/-- Pop a completed move to the output. -/
def finish (s : Search) (done : MoveOp) (rest : List MoveOp) : Search where
  pending := s.pending
  chain := rest
  root := s.root
  orderedMoves := s.orderedMoves ++ [done]
  hasCycles := s.hasCycles

/-- A blocking move found is pending. -/
theorem mem_of_findBlockingMove {pending : List MoveOp} {last blocking : MoveOp}
    (h : findBlockingMove pending last = some blocking) :
    blocking ∈ pending ∧ blocking.fromOp = last.toOp := by
  refine ⟨List.mem_of_find?_eq_some h, ?_⟩
  simpa using List.find?_some h

/-- Without a blocking move, no pending move reads the destination. -/
theorem of_findBlockingMove_none {pending : List MoveOp} {last : MoveOp}
    (h : findBlockingMove pending last = none) : ∀ m ∈ pending, m.fromOp ≠ last.toOp := by
  simpa [findBlockingMove] using h

/-- Removing a pending move shortens the list by one. -/
theorem length_erase_lt {pending : List MoveOp} {blocking : MoveOp} (h : blocking ∈ pending) :
    (pending.erase blocking).length + 1 = pending.length := by
  rw [List.length_erase_of_mem h]
  have := List.length_pos_of_mem h
  omega

set_option linter.unusedVariables false in
/-- Traverse from the root until the stack is empty. -/
def resolveChain (s : Search) : Search :=
  match h : findBlockingMove s.pending s.last with
  | some blocking =>
    if blocking.toOp = s.root.fromOp then resolveChain (s.closeCycle blocking)
    else resolveChain (s.extend blocking)
  | none =>
    match hchain : s.chain with
    | done :: rest => resolveChain (s.finish done rest)
    | [] => { s with orderedMoves := s.orderedMoves ++ [s.root] }
termination_by 2 * s.pending.length + s.chain.length
decreasing_by
  · have := length_erase_lt (mem_of_findBlockingMove h).1
    simp only [closeCycle, List.length_cons]
    omega
  · have := length_erase_lt (mem_of_findBlockingMove h).1
    simp only [extend, List.length_cons]
    omega
  · simp only [finish, hchain, List.length_cons]
    omega

/-- A property that every step of the traversal preserves holds when the root alone is left and
nothing blocks it. -/
theorem resolveChain_invariant (P : Search → Prop)
    (hclose : ∀ s blocking, P s → findBlockingMove s.pending s.last = some blocking →
      blocking.toOp = s.root.fromOp → P (s.closeCycle blocking))
    (hextend : ∀ s blocking, P s → findBlockingMove s.pending s.last = some blocking →
      blocking.toOp ≠ s.root.fromOp → P (s.extend blocking))
    (hfinish : ∀ s done rest, P s → findBlockingMove s.pending s.last = none →
      s.chain = done :: rest → P (s.finish done rest))
    (s : Search) (hs : P s) :
    ∃ t : Search, P t ∧ t.chain = [] ∧ findBlockingMove t.pending t.root = none ∧
      resolveChain s = { t with orderedMoves := t.orderedMoves ++ [t.root] } := by
  induction s using resolveChain.induct_unfolding with
  | case1 s blocking h hto ih => exact ih (hclose s blocking hs h hto)
  | case2 s blocking h hto ih => exact ih (hextend s blocking hs h hto)
  | case3 s h done rest hchain ih => exact ih (hfinish s done rest hs h hchain)
  | case4 s h hchain =>
    have hlast : s.last = s.root := by simp [last, hchain]
    exact ⟨s, hs, hchain, hlast ▸ h, rfl⟩

/-- A traversal never adds pending moves. -/
theorem resolveChain_pending_length (s : Search) :
    (resolveChain s).pending.length ≤ s.pending.length := by
  obtain ⟨t, ht, -, -, heq⟩ := resolveChain_invariant
    (fun t => t.pending.length ≤ s.pending.length)
    (fun t blocking ht _ _ => Nat.le_trans List.length_erase_le ht)
    (fun t blocking ht _ _ => Nat.le_trans List.length_erase_le ht)
    (fun t done rest ht _ _ => ht) s (Nat.le_refl _)
  rw [heq]
  exact ht

end Search

set_option linter.unusedVariables false in
/-- Traverse from the last pending move until no move is pending. -/
def resolveLoop (pending orderedMoves : List MoveOp) (hasCycles : Bool) : List MoveOp × Bool :=
  match hlast : pending.getLast? with
  | none => (orderedMoves, hasCycles)
  | some root =>
    resolveLoop (Search.start pending root orderedMoves hasCycles).resolveChain.pending
      (Search.start pending root orderedMoves hasCycles).resolveChain.orderedMoves
      (Search.start pending root orderedMoves hasCycles).resolveChain.hasCycles
termination_by pending.length
decreasing_by
  have hne : pending ≠ [] := by
    rintro rfl
    simp at hlast
  have hpos := List.length_pos_iff.mpr hne
  have hle := Search.resolveChain_pending_length (Search.start pending root orderedMoves hasCycles)
  simp only [Search.start, List.length_dropLast] at hle ⊢
  omega

/-- Order the pending moves, reporting whether any cycle was found. -/
def resolve (pending : List MoveOp) : List MoveOp × Bool := resolveLoop pending [] false

end MoveResolver

/-- The value of every register and memory operand. -/
abbrev MoveStore (V : Type*) := MoveOperand → V

section Emit

variable {V : Type*} (lea : V → ℤ → V)

/-- Read an operand; an address is computed from its base register. -/
def MoveOperand.read (store : MoveStore V) : MoveOperand → V
  | .effectiveAddress base disp => lea (store (.reg base)) disp
  | operand => store operand

/-- Emit one move. The temporary is present inside a cycle only. -/
def emitMove (state : MoveStore V × Option V) (move : MoveOp) : Option (MoveStore V × Option V) :=
  if move.cycleEnd then
    state.2.map fun saved => (Function.update state.1 move.toOp saved, none)
  else if move.cycleBegin then
    match state.2 with
    | some _ => none
    | none => some (Function.update state.1 move.toOp (move.fromOp.read lea state.1),
        some (state.1 move.toOp))
  else some (Function.update state.1 move.toOp (move.fromOp.read lea state.1), state.2)

/-- Emit a list of moves in order, failing where a cycle nests or ends without a beginning. -/
def emitMoves (state : MoveStore V × Option V) (moves : List MoveOp) :
    Option (MoveStore V × Option V) :=
  moves.foldlM (emitMove lea) state

end Emit

end SpiderMonkey.Jit
