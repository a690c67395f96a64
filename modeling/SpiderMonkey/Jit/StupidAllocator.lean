import SpiderMonkey.Jit.LIRMachine

/-!
# The simple register allocator

Registers carry virtual registers across the instructions of a block, but not across blocks. A virtual
register that no register carries is in a stack slot of its own. Instructions get their storage in a
single pass over each block, and what has to be moved for an instruction is moved in one group before
it.

The allocator reads definitions whose storage it may have filled in. The one thing it asks of that is
whether a definition is an argument, which filling in does not change, so the definitions before
allocation are read here. Where the source runs out of registers, or an assertion or a look-up fails,
there is no result.
-/

namespace SpiderMonkey.Jit.LIR

/-- What a register holds. -/
structure AllocatedRegister where
  type : LType
  /-- The virtual register that it backs. -/
  vreg : Option ℕ
  /-- The instruction that used it last. -/
  age : ℕ
  /-- Whether it is not synced with the stack slot. -/
  dirty : Bool

/-- A register that holds nothing. -/
def AllocatedRegister.missing (r : AllocatedRegister) : AllocatedRegister :=
  { r with vreg := none, age := 0, dirty := false }

/-- What the pass knows throughout: the registers that it may use, and the definitions of virtual
registers. -/
structure StupidAllocator where
  allRegisters : List AnyRegister
  virtualRegisters : ℕ → Option LDefinition

/-- What the pass changes at an instruction: what registers hold, the moves before the instruction, the
moves for phis after those, and the instruction. -/
structure AllocState where
  registers : AnyRegister → AllocatedRegister
  input : Option LMoveGroup
  phiMoves : Option LMoveGroup
  ins : LNode

/-- The definitions of an instruction or a phi that are looked up, in the order in which `init` stores
them. -/
def LBlock.definitions (b : LBlock) : List LDefinition :=
  (b.nodes.flatMap fun n =>
    n.defs.filter LDefinition.writes ++ n.temps.filter fun t => !t.isBogusTemp) ++
  b.phis.map LPhi.output

/-- The definitions of a graph. -/
def LIRGraph.definitions (g : LIRGraph) : List LDefinition :=
  g.blocks.flatMap LBlock.definitions

/-- The successor for whose phis a block moves values, and the edge to it. Only blocks with more
predecessors than one have phis. -/
def LIRGraph.successorWithPhis (g : LIRGraph) (p : ℕ) : Option (ℕ × ℕ) :=
  ((List.range g.blocks.length).flatMap fun b =>
    if (g.block b).predecessors.length < 2 then []
    else ((g.block b).predecessors.zipIdx.filter (·.1 = p)).map fun edge => (b, edge.2)).getLast?

/-- Replace an input of an instruction. -/
def LNode.replaceInput (n : LNode) (i : ℕ) (a : LAllocation) : LNode :=
  if i < n.operands.length then { n with operands := n.operands.set i a }
  else { n with snapshot := n.snapshot.set (i - n.operands.length) a }

namespace AllocState

/-- Change what a register holds. -/
def setRegister (s : AllocState) (reg : AnyRegister) (r : AllocatedRegister) : AllocState :=
  { s with registers := Function.update s.registers reg r }

/-- The register that was changed. -/
@[simp] theorem setRegister_self (s : AllocState) (reg : AnyRegister) (r : AllocatedRegister) :
    (s.setRegister reg r).registers reg = r := by
  simp only [setRegister, Function.update_self]

/-- The other registers are as they were. -/
theorem setRegister_of_ne (s : AllocState) {reg reg' : AnyRegister} (r : AllocatedRegister)
    (h : reg' ≠ reg) : (s.setRegister reg r).registers reg' = s.registers reg' := by
  simp only [setRegister, Function.update_of_ne h]

/-- The moves before the instruction. -/
def inputMoves (s : AllocState) : LMoveGroup :=
  s.input.getD LMoveGroup.empty

/-- Add a move before the instruction, after those that are there. -/
def addInputMove (s : AllocState) (m : LMove) : AllocState :=
  { s with input := some (s.inputMoves.addAfter m) }

/-- Replace an input. -/
def replaceInput (s : AllocState) (i : ℕ) (a : LAllocation) : AllocState :=
  { s with ins := s.ins.replaceInput i a }

/-- The moves before the instruction, and the instruction. -/
def emit (s : AllocState) : List LInstruction :=
  s.input.toList.map .moveGroup ++ s.phiMoves.toList.map .moveGroup ++ [.node s.ins]

end AllocState

namespace StupidAllocator

variable (alloc : StupidAllocator)

/-- The allocator of a graph. -/
def init (allRegisters : List AnyRegister) (g : LIRGraph) : StupidAllocator where
  allRegisters := allRegisters
  virtualRegisters v := (g.definitions.filter (·.virtualRegister = v)).getLast?

/-- The stack slot of a virtual register. Values are of eight bytes. -/
def defaultStackSlot (v : ℕ) : ℕ := v * 8

/-- The memory of a virtual register: an argument stays where it is. -/
def stackLocation (v : ℕ) : LAllocation :=
  match alloc.virtualRegisters v with
  | none => .stackSlot (defaultStackSlot v)
  | some d =>
    if d.policy = .preset ∧ d.output.isArgument then d.output else .stackSlot (defaultStackSlot v)

/-- The type of a virtual register. -/
def typeOf (v : ℕ) : LType :=
  ((alloc.virtualRegisters v).map LDefinition.type).getD .general

/-- The register that a use asks for. -/
def fixedRegister (u : LUse) : AnyRegister :=
  if (alloc.virtualRegisters u.virtualRegister).any LDefinition.isFloatReg then .fpu u.registerCode
  else .gpr u.registerCode

/-- Whether storage is a register, or a use that asks for it. -/
def allocationRequiresRegister (reg : AnyRegister) : LAllocation → Bool
  | .register reg' => reg' = reg
  | .use u => u.policy = .fixed && alloc.fixedRegister u = reg
  | _ => false

/-- Whether a register is reserved for an input or output of an instruction. -/
def registerIsReserved (n : LNode) (reg : AnyRegister) : Bool :=
  n.inputs.any (alloc.allocationRequiresRegister reg) ||
    n.temps.any (fun t => alloc.allocationRequiresRegister reg t.output) ||
    n.defs.any fun d => alloc.allocationRequiresRegister reg d.output

/-- Move what a register holds to memory, if it is not there. -/
def syncRegister (reg : AnyRegister) (s : AllocState) : AllocState :=
  let r := s.registers reg
  match r.dirty, r.vreg with
  | true, some v =>
    (s.addInputMove ⟨.register reg, alloc.stackLocation v, r.type⟩).setRegister reg
      { r with dirty := false }
  | _, _ => s

/-- Make a register hold nothing. -/
def evictRegister (reg : AnyRegister) (s : AllocState) : AllocState :=
  let s := alloc.syncRegister reg s
  s.setRegister reg (s.registers reg).missing

/-- Move a virtual register from memory to a register. -/
def loadRegister (v : ℕ) (reg : AnyRegister) (s : AllocState) : AllocState :=
  (s.addInputMove ⟨alloc.stackLocation v, .register reg, alloc.typeOf v⟩).setRegister reg
    ⟨alloc.typeOf v, some v, s.ins.id, false⟩

/-- The register that holds a virtual register. -/
def findExistingRegister (v : ℕ) (s : AllocState) : Option AnyRegister :=
  alloc.allRegisters.find? fun reg => (s.registers reg).vreg = some v

/-- The better of the best register so far and another one: one that holds nothing, or the one that
was used longer ago. -/
def betterRegister (isFloat : Bool) (s : AllocState) (best : Option AnyRegister) (reg : AnyRegister) :
    Option AnyRegister :=
  if reg.isFloat ≠ isFloat then best
  else if alloc.registerIsReserved s.ins reg then best
  else if (s.registers reg).vreg = none ||
      best.all fun reg' => decide ((s.registers reg').age > (s.registers reg).age) then some reg
  else best

/-- Pick a register that is not reserved. -/
def allocateRegister (v : ℕ) (s : AllocState) : Option (AnyRegister × AllocState) :=
  match alloc.virtualRegisters v with
  | none => none
  | some d =>
    match alloc.allRegisters.foldl (alloc.betterRegister d.isFloatReg s) none with
    | none => none
    | some best => some (best, alloc.evictRegister best s)

/-- Pick a register, and load a virtual register. -/
def allocateAndLoad (v : ℕ) (s : AllocState) : Option (AnyRegister × AllocState) :=
  match alloc.allocateRegister v s with
  | none => none
  | some (best, s) => some (best, alloc.loadRegister v best s)

/-- Make a register hold a virtual register. -/
def ensureHasRegister (v : ℕ) (s : AllocState) : Option (AnyRegister × AllocState) :=
  match alloc.findExistingRegister v s with
  | some existing =>
    if alloc.registerIsReserved s.ins existing then
      alloc.allocateAndLoad v (alloc.evictRegister existing s)
    else
      some (existing, s.setRegister existing { s.registers existing with age := s.ins.id })
  | none => alloc.allocateAndLoad v s

/-- Make a register hold nothing, if there is one. -/
def evictExisting (v : ℕ) (s : AllocState) : AllocState :=
  match alloc.findExistingRegister v s with
  | some existing => alloc.evictRegister existing s
  | none => s

/-- Make a register that is asked for hold a virtual register. -/
def loadFixed (v : ℕ) (reg : AnyRegister) (s : AllocState) : AllocState :=
  if (s.registers reg).vreg = some v then s
  else alloc.loadRegister v reg (alloc.evictExisting v (alloc.evictRegister reg s))

/-- Allocate for an input that has to be in a register. -/
def allocateRequired (s : AllocState) (i : ℕ) : Option AllocState :=
  match s.ins.inputs[i]? with
  | some (.use u) =>
    match u.policy with
    | .register =>
      (alloc.ensureHasRegister u.virtualRegister s).map fun (reg, s) => s.replaceInput i (.register reg)
    | .fixed =>
      let reg := alloc.fixedRegister u
      if reg ∈ alloc.allRegisters then
        some ((alloc.loadFixed u.virtualRegister reg s).replaceInput i (.register reg))
      else none
    | _ => some s
  | _ => some s

/-- Spill what a register holds, and make it hold the result of the instruction. -/
def defineRegister (v : ℕ) (reg : AnyRegister) (s : AllocState) : AllocState :=
  (alloc.evictRegister reg s).setRegister reg ⟨alloc.typeOf v, some v, s.ins.id, true⟩

/-- Allocate for a temporary or an output. -/
def allocateForDefinition (d : LDefinition) (s : AllocState) : Option (LAllocation × AllocState) :=
  let v := d.virtualRegister
  let define (reg : AnyRegister) : Option (LAllocation × AllocState) :=
    if reg ∈ alloc.allRegisters then some (.register reg, alloc.defineRegister v reg s) else none
  match d.policy, d.output with
  | .preset, .register reg => define reg
  | .preset, _ => some (alloc.stackLocation v, s)
  | .mustReuseInput, _ => (d.reusedInput.bind fun i => (s.ins.operands[i]?).bind (·.toRegister)).bind define
  | _, _ =>
    (alloc.allocateRegister v s).map fun (best, s) =>
      (.register best, s.setRegister best ⟨alloc.typeOf v, some v, s.ins.id, true⟩)

/-- Allocate for a temporary. -/
def allocateTemp (s : AllocState) (k : ℕ) : Option AllocState :=
  match s.ins.temps[k]? with
  | none => some s
  | some t =>
    if t.isBogusTemp then some s
    else
      (alloc.allocateForDefinition t s).map fun (a, s) =>
        { s with ins := { s.ins with temps := s.ins.temps.set k (t.setOutput a) } }

/-- Allocate for an output. -/
def allocateDef (s : AllocState) (k : ℕ) : Option AllocState :=
  match s.ins.defs[k]? with
  | none => some s
  | some d =>
    if d.writes then
      (alloc.allocateForDefinition d s).map fun (a, s) =>
        { s with ins := { s.ins with defs := s.ins.defs.set k (d.setOutput a) } }
    else some s

/-- Allocate for an input that need not be in a register. -/
def allocateRemaining (s : AllocState) (i : ℕ) : AllocState :=
  match s.ins.inputs[i]? with
  | some (.use u) =>
    match alloc.findExistingRegister u.virtualRegister s with
    | none => s.replaceInput i (alloc.stackLocation u.virtualRegister)
    | some reg =>
      (s.setRegister reg { s.registers reg with age := s.ins.id }).replaceInput i (.register reg)
  | _ => s

/-- Move what registers hold to memory. -/
def syncAll (s : AllocState) : AllocState :=
  alloc.allRegisters.foldl (fun s reg => alloc.syncRegister reg s) s

/-- A call leaves its outputs in registers. -/
def evictClean (s : AllocState) : AllocState :=
  { s with registers := fun reg =>
      if reg ∈ alloc.allRegisters ∧ (s.registers reg).dirty = false then (s.registers reg).missing
      else s.registers reg }

/-- Allocate for an instruction. -/
def allocateForInstruction (s : AllocState) : Option AllocState := do
  let isCall := s.ins.isCall
  let s := if isCall then alloc.syncAll s else s
  let s ← (List.range s.ins.inputs.length).foldlM alloc.allocateRequired s
  let s ← (List.range s.ins.temps.length).foldlM alloc.allocateTemp s
  let s ← (List.range s.ins.defs.length).foldlM alloc.allocateDef s
  let s := (List.range s.ins.inputs.length).foldl alloc.allocateRemaining s
  some (if isCall then alloc.evictClean s else s)

/-- Move values to the phis of a block on an edge. All moves take place at the same time. -/
def phiMoves (phis : List LPhi) (position : ℕ) : Option LMoveGroup :=
  phis.foldlM (fun group phi =>
    match (phi.operands[position]?).bind LAllocation.toUse with
    | none => none
    | some u =>
      if u.virtualRegister = phi.output.virtualRegister then some group
      else
        group.add ⟨alloc.stackLocation u.virtualRegister,
          alloc.stackLocation phi.output.virtualRegister, phi.output.type⟩) LMoveGroup.empty

/-- Sync registers at the end of a block, and move values to the phis of its successor, after the moves
that are there. -/
def syncForBlockEnd (g : LIRGraph) (b : ℕ) (s : AllocState) : Option AllocState :=
  let s := alloc.syncAll s
  match g.successorWithPhis b with
  | none => some s
  | some (successor, position) =>
    (alloc.phiMoves (g.block successor).phis position).map fun group =>
      if group.moves.isEmpty then s
      else if s.inputMoves.moves.isEmpty then { s with input := some group }
      else { s with phiMoves := some group }

/-- Allocate for the instructions of a block, from a place on. -/
def allocateNodes (g : LIRGraph) (b : ℕ) :
    List LNode → (AnyRegister → AllocatedRegister) → Option (List LInstruction)
  | [], _ => some []
  | n :: rest, registers => do
    let s : AllocState := ⟨registers, none, none, n⟩
    let s ← if rest.isEmpty then alloc.syncForBlockEnd g b s else some s
    let s ← alloc.allocateForInstruction s
    let after ← allocateNodes g b rest s.registers
    some (s.emit ++ after)

/-- Allocate for a block. -/
def allocateBlock (g : LIRGraph) (b : ℕ) : Option LBlock :=
  (alloc.allocateNodes g b (g.block b).nodes fun _ => ⟨.general, none, 0, false⟩).map
    fun instructions => { g.block b with instructions }

/-- Allocate for a graph. -/
def go (allRegisters : List AnyRegister) (g : LIRGraph) : Option LIRGraph :=
  ((List.range g.blocks.length).mapM ((init allRegisters g).allocateBlock g)).map
    fun blocks => { g with blocks }

end StupidAllocator

end SpiderMonkey.Jit.LIR
