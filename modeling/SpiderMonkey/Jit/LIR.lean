import Mathlib.Data.Int.Notation
import Mathlib.Data.List.Basic
import Mathlib.Data.List.Nodup
import Mathlib.Logic.Function.Basic
import Mathlib.Tactic.Common

/-!
# The low-level graph

Instructions read and write virtual registers at first. Register allocation replaces these in place by
registers, stack slots and arguments, and adds groups of moves.

How an allocation packs its kind and data in a word is left out. Distinct allocations are taken to be
distinct storage, as the allocators and their checks do.
-/

namespace SpiderMonkey.Jit.LIR

/-- A general or a floating-point register, by its code. -/
inductive AnyRegister where
  | gpr (code : ℕ)
  | fpu (code : ℕ)
  deriving DecidableEq

/-- Whether a register is a floating-point register. -/
def AnyRegister.isFloat : AnyRegister → Bool
  | gpr _ => false
  | fpu _ => true

/-- What a use asks of its storage. -/
inductive UsePolicy where
  | any | register | fixed | keepalive | recoveredInput
  deriving DecidableEq

/-- A use of a virtual register. -/
structure LUse where
  virtualRegister : ℕ
  policy : UsePolicy
  registerCode : ℕ
  usedAtStart : Bool
  deriving DecidableEq

/-- Storage for an operand, or a use that has none yet. -/
inductive LAllocation where
  | use (u : LUse)
  | constantValue (value : ℕ)
  | constantIndex (index : ℕ)
  | register (reg : AnyRegister)
  | stackSlot (slot : ℕ)
  | argument (index : ℤ)
  deriving DecidableEq

namespace LAllocation

/-- Whether there is no storage yet. -/
def isUse : LAllocation → Bool
  | use _ => true
  | _ => false

/-- The use. -/
def toUse : LAllocation → Option LUse
  | use u => some u
  | _ => none

/-- Whether storage is a register. -/
def isRegister : LAllocation → Bool
  | register _ => true
  | _ => false

/-- The register. -/
def toRegister : LAllocation → Option AnyRegister
  | register reg => some reg
  | _ => none

/-- Whether storage is an argument. -/
def isArgument : LAllocation → Bool
  | argument _ => true
  | _ => false

/-- Whether an operand is a constant index. -/
def isConstantIndex : LAllocation → Bool
  | constantIndex _ => true
  | _ => false

end LAllocation

/-- What a definition asks of its storage. -/
inductive DefinitionPolicy where
  | default | preset | mustReuseInput | passthrough
  deriving DecidableEq

/-- The type of what a virtual register holds. -/
inductive LType where
  | general | int32 | object | slots | float32 | double | type | payload | box
  deriving DecidableEq

/-- A definition of a virtual register. -/
structure LDefinition where
  virtualRegister : ℕ
  type : LType
  policy : DefinitionPolicy
  output : LAllocation
  deriving DecidableEq

namespace LDefinition

/-- Whether the virtual register is held in a floating-point register. -/
def isFloatReg (d : LDefinition) : Bool :=
  d.type = .float32 || d.type = .double

/-- Whether a temporary is none. -/
def isBogusTemp (d : LDefinition) : Bool :=
  d.policy = .preset && d.output.isConstantIndex

/-- The operand whose storage is reused. -/
def reusedInput (d : LDefinition) : Option ℕ :=
  match d.policy, d.output with
  | .mustReuseInput, .constantIndex index => some index
  | _, _ => none

/-- Whether an instruction writes the definition. -/
def writes (d : LDefinition) : Bool :=
  d.policy ≠ .passthrough

/-- A definition with its storage. -/
def setOutput (d : LDefinition) (a : LAllocation) : LDefinition :=
  { d with output := a, policy := if a.isUse then d.policy else .preset }

end LDefinition

/-- The registers and stack slots that hold something the collector must know of at an instruction. -/
structure LSafepoint where
  liveRegs : List AnyRegister
  gcRegs : List ℕ
  gcSlots : List ℕ
  valueRegs : List ℕ
  valueSlots : List ℕ
  slotsOrElementsRegs : List ℕ
  slotsOrElementsSlots : List ℕ
  nunboxParts : List (LAllocation × LAllocation)

namespace LSafepoint

/-- Whether storage is among registers or slots. Storage that is neither has an answer of its own. -/
def hasIn (regs slots : List ℕ) (other : LAllocation → Bool) : LAllocation → Bool
  | .register (.gpr code) => code ∈ regs
  -- A floating-point register has no place in a set of general registers.
  | .register (.fpu _) => false
  | .stackSlot slot => slot ∈ slots
  | a => other a

/-- Whether a pointer is recorded. -/
def hasGcPointer (s : LSafepoint) : LAllocation → Bool :=
  hasIn s.gcRegs s.gcSlots LAllocation.isArgument

/-- Whether a pointer to slots or elements is recorded. -/
def hasSlotsOrElementsPointer (s : LSafepoint) : LAllocation → Bool :=
  hasIn s.slotsOrElementsRegs s.slotsOrElementsSlots fun _ => false

/-- Whether a value in one word is recorded. -/
def hasBoxedValue (s : LSafepoint) : LAllocation → Bool :=
  hasIn s.valueRegs s.valueSlots LAllocation.isArgument

/-- Whether the payload of a value in two words is recorded. -/
def hasNunboxPayload (s : LSafepoint) (payload : LAllocation) : Bool :=
  payload.isArgument ||
    (match payload with
    | .stackSlot slot => decide (slot ∈ s.valueSlots)
    | _ => false) ||
    s.nunboxParts.any fun parts => parts.2 = payload

end LSafepoint

/-- A move from storage to storage. -/
structure LMove where
  source : LAllocation
  dest : LAllocation
  type : LType
  deriving DecidableEq

/-- A move takes place at the same time as the others of its group. -/
structure LMoveGroup where
  moves : List LMove
  nodup_dest : (moves.map LMove.dest).Nodup

namespace LMoveGroup

/-- No moves. -/
def empty : LMoveGroup := ⟨[], List.nodup_nil⟩

/-- The storage that storage takes its new contents from. -/
def sourceOf (group : LMoveGroup) (a : LAllocation) : LAllocation :=
  ((group.moves.find? (·.dest = a)).map LMove.source).getD a

/-- Add a move that takes place at the same time as the others. Assertions make this fail. -/
def add (group : LMoveGroup) (m : LMove) : Option LMoveGroup :=
  if h : m.source ≠ m.dest ∧ m.dest ∉ group.moves.map LMove.dest then
    some ⟨group.moves ++ [m], by
      rw [List.map_append, List.map_singleton]
      exact List.nodup_append.mpr ⟨group.nodup_dest, List.nodup_singleton _,
        fun a ha b hb => fun heq => h.2 (List.mem_singleton.mp hb ▸ heq ▸ ha)⟩⟩
  else none

/-- Replace the move to the storage that a move is to. -/
def replaceMove (m : LMove) (moves : List LMove) : List LMove :=
  moves.map fun other => if other.dest = m.dest then m else other

/-- A replaced move is to the same storage. -/
theorem map_dest_replaceMove (m : LMove) (moves : List LMove) :
    (replaceMove m moves).map LMove.dest = moves.map LMove.dest := by
  rw [replaceMove, List.map_map]
  apply List.map_congr_left
  intro other _
  rw [Function.comp_apply]
  split_ifs with h
  · exact h.symm
  · rfl

/-- Add a move that takes place after the others, as one that takes place at the same time. -/
def addAfter (group : LMoveGroup) (m : LMove) : LMoveGroup :=
  let m := { m with source := group.sourceOf m.source }
  if hself : m.source = m.dest then group
  else if hdest : m.dest ∈ group.moves.map LMove.dest then
    ⟨replaceMove m group.moves, by rw [map_dest_replaceMove]; exact group.nodup_dest⟩
  else
    (group.add m).get (by rw [add, dif_pos ⟨hself, hdest⟩]; rfl)

variable {group : LMoveGroup} {m : LMove} {a : LAllocation}

/-- Storage that no move is to keeps its contents. -/
theorem sourceOf_of_not_mem (h : a ∉ group.moves.map LMove.dest) : group.sourceOf a = a := by
  have hnone : group.moves.find? (·.dest = a) = none := by
    rw [List.find?_eq_none]
    intro other hother
    rw [decide_eq_true_eq]
    exact fun hdest => h (hdest ▸ List.mem_map_of_mem hother)
  rw [sourceOf, hnone]
  rfl

/-- A replaced move is not to other storage. -/
theorem find?_replaceMove_of_ne (ha : a ≠ m.dest) (moves : List LMove) :
    (replaceMove m moves).find? (·.dest = a) = moves.find? (·.dest = a) := by
  induction moves with
  | nil => rfl
  | cons first rest ih =>
    rw [replaceMove, List.map_cons, List.find?_cons, List.find?_cons, ← ih, replaceMove]
    by_cases hfirst : first.dest = m.dest
    · rw [if_pos hfirst, hfirst, decide_eq_false (Ne.symm ha)]
    · rw [if_neg hfirst]

/-- A replaced move is found. -/
theorem find?_replaceMove_self {moves : List LMove} (hdest : m.dest ∈ moves.map LMove.dest) :
    (replaceMove m moves).find? (·.dest = m.dest) = some m := by
  induction moves with
  | nil => exact absurd hdest List.not_mem_nil
  | cons first rest ih =>
    rw [replaceMove, List.map_cons, List.find?_cons]
    by_cases hfirst : first.dest = m.dest
    · rw [if_pos hfirst, decide_eq_true rfl]
    · rw [if_neg hfirst, decide_eq_false hfirst]
      exact ih ((List.mem_cons.mp hdest).resolve_left (Ne.symm hfirst))

/-- The moves of a group after one more. -/
theorem addAfter_cases (group : LMoveGroup) (m : LMove) :
    let m' : LMove := ⟨group.sourceOf m.source, m.dest, m.type⟩
    group.sourceOf m.source = m.dest ∧ group.addAfter m = group ∨
      m.dest ∈ group.moves.map LMove.dest ∧
        (group.addAfter m).moves = replaceMove m' group.moves ∨
      m.dest ∉ group.moves.map LMove.dest ∧ (group.addAfter m).moves = group.moves ++ [m'] := by
  unfold addAfter
  dsimp only
  split_ifs with hself hdest
  · exact .inl ⟨hself, rfl⟩
  · exact .inr (.inl ⟨hdest, rfl⟩)
  · refine .inr (.inr ⟨hdest, ?_⟩)
    simp only [add, dif_pos (And.intro hself hdest), Option.get_some]

/-- A move after others gives its storage what its source gets from them. The group is left alone
instead, if that is what the storage had before and another move is to it. -/
theorem sourceOf_addAfter (group : LMoveGroup) (m : LMove) :
    (∀ a, (group.addAfter m).sourceOf a =
      if a = m.dest then group.sourceOf m.source else group.sourceOf a) ∨
    group.addAfter m = group ∧ group.sourceOf m.source = m.dest ∧
      m.dest ∈ group.moves.map LMove.dest := by
  rcases addAfter_cases group m with ⟨hself, hgroup⟩ | ⟨hdest, hmoves⟩ | ⟨hdest, hmoves⟩
  · by_cases hdest : m.dest ∈ group.moves.map LMove.dest
    · exact .inr ⟨hgroup, hself, hdest⟩
    · refine .inl fun a => ?_
      rw [hgroup]
      by_cases ha : a = m.dest
      · rw [if_pos ha, ha, sourceOf_of_not_mem hdest, hself]
      · rw [if_neg ha]
  · refine .inl fun a => ?_
    rw [sourceOf, hmoves]
    by_cases ha : a = m.dest
    · have hfind := find?_replaceMove_self (m := ⟨group.sourceOf m.source, m.dest, m.type⟩) hdest
      rw [if_pos ha, ha, hfind]
      rfl
    · have hfind := find?_replaceMove_of_ne (m := ⟨group.sourceOf m.source, m.dest, m.type⟩) ha
      rw [if_neg ha, hfind, sourceOf]
  · refine .inl fun a => ?_
    rw [sourceOf, hmoves, List.find?_append, List.find?_singleton]
    by_cases ha : a = m.dest
    · have hnone : group.moves.find? (·.dest = a) = none := by
        rw [List.find?_eq_none]
        intro other hother
        rw [decide_eq_true_eq]
        exact fun heq => hdest (ha ▸ heq ▸ List.mem_map_of_mem hother)
      rw [if_pos ha, hnone, decide_eq_true ha.symm]
      rfl
    · rw [if_neg ha, decide_eq_false (Ne.symm ha), if_neg (by decide), Option.or_none, sourceOf]

/-- The moves of a group are to storage that was moved to before, or to that of the last move. -/
theorem dest_addAfter {group : LMoveGroup} {m : LMove} {a : LAllocation}
    (h : a ∈ (group.addAfter m).moves.map LMove.dest) :
    a ∈ group.moves.map LMove.dest ∨ a = m.dest := by
  rcases addAfter_cases group m with ⟨-, hgroup⟩ | ⟨-, hmoves⟩ | ⟨-, hmoves⟩
  · exact .inl (hgroup ▸ h)
  · rw [hmoves, map_dest_replaceMove] at h
    exact .inl h
  · rw [hmoves, List.map_append, List.mem_append] at h
    exact h.imp_right fun hlast => List.mem_singleton.mp hlast

end LMoveGroup

/-- An instruction other than a group of moves. The entries of its snapshot are inputs too. -/
structure LNode where
  id : ℕ
  isCall : Bool
  operands : List LAllocation
  snapshot : List LAllocation
  temps : List LDefinition
  defs : List LDefinition
  safepoint : Option LSafepoint

/-- The inputs of an instruction, in the order of `InputIterator`. -/
def LNode.inputs (n : LNode) : List LAllocation :=
  n.operands ++ n.snapshot

/-- An instruction. -/
inductive LInstruction where
  | moveGroup (group : LMoveGroup)
  | node (n : LNode)

/-- The instruction, if it is not a group of moves. -/
def LInstruction.toNode : LInstruction → Option LNode
  | moveGroup _ => none
  | node n => some n

/-- A phi. It has an operand for each predecessor. -/
structure LPhi where
  output : LDefinition
  operands : List LAllocation

/-- A block. What its middle-level block says about edges is given by block numbers. -/
structure LBlock where
  phis : List LPhi
  instructions : List LInstruction
  predecessors : List ℕ

/-- The instructions of a block other than groups of moves. -/
def LBlock.nodes (b : LBlock) : List LNode :=
  b.instructions.filterMap LInstruction.toNode

/-- A graph. The entry block is the first. -/
structure LIRGraph where
  blocks : List LBlock
  numInstructions : ℕ
  numVirtualRegisters : ℕ

namespace LIRGraph

/-- The block of a number. -/
def block (g : LIRGraph) (b : ℕ) : LBlock :=
  g.blocks.getD b ⟨[], [], []⟩

/-- The instructions of a graph other than groups of moves. -/
def nodes (g : LIRGraph) : List LNode :=
  g.blocks.flatMap LBlock.nodes

end LIRGraph

/-- The virtual registers of an instruction or a phi, as they were before allocation. -/
structure InstructionInfo where
  inputs : List LAllocation
  temps : List LDefinition
  outputs : List LDefinition
  deriving DecidableEq

/-- The virtual registers of an instruction. -/
def LNode.info (n : LNode) : InstructionInfo :=
  ⟨n.inputs, n.temps, n.defs⟩

/-- The virtual registers of a phi. -/
def LPhi.info (phi : LPhi) : InstructionInfo :=
  ⟨phi.operands, [], [phi.output]⟩

end SpiderMonkey.Jit.LIR
