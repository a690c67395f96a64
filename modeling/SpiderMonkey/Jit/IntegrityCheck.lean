import SpiderMonkey.Jit.LIRMachine
import SpiderMonkey.Lib.Worklist

/-!
# The check of an allocation

The virtual registers of a graph are recorded before allocation. The check follows each input of an
allocated instruction back through the graph, along all paths, to the definition of the virtual register
that it had. What is to hold at the end of a block is looked at once, whichever inputs it comes from.

Assertions make the check fail. It does not fill in safepoints here.
-/

namespace SpiderMonkey.Jit.LIR

/-- Storage that is to hold a virtual register at the end of a block. -/
structure IntegrityItem where
  block : ℕ
  vreg : ℕ
  alloc : LAllocation
  deriving DecidableEq

/-- What is recorded of instructions, of the phis of blocks, and of virtual registers. -/
structure AllocationIntegrityState where
  instructions : List InstructionInfo
  blocks : List (List InstructionInfo)
  virtualRegisters : List (Option LDefinition)

namespace AllocationIntegrityState

/-- Record definitions. -/
def recordDefinitions (st : AllocationIntegrityState) (ds : List LDefinition) :
    AllocationIntegrityState :=
  { st with
    virtualRegisters := ds.foldl (fun vs d => vs.set d.virtualRegister (some d)) st.virtualRegisters }

/-- Record an instruction. -/
def recordNode (st : AllocationIntegrityState) (n : LNode) : AllocationIntegrityState :=
  let st := st.recordDefinitions (n.temps ++ n.defs)
  { st with
    instructions := st.instructions.modify n.id fun info =>
      ⟨info.inputs ++ n.inputs, info.temps ++ n.temps, info.outputs ++ n.defs⟩ }

/-- Record a block. -/
def recordBlock (st : AllocationIntegrityState) (b : LBlock) : AllocationIntegrityState :=
  let st := st.recordDefinitions (b.phis.map LPhi.output)
  b.nodes.foldl recordNode { st with blocks := st.blocks ++ [b.phis.map LPhi.info] }

/-- Record a graph, unless one was recorded. -/
def record (g : LIRGraph) (st : AllocationIntegrityState) : AllocationIntegrityState :=
  if !st.instructions.isEmpty then st
  else
    g.blocks.foldl recordBlock
      { st with
        instructions := List.replicate g.numInstructions ⟨[], [], []⟩
        virtualRegisters := List.replicate g.numVirtualRegisters none }

/-- Nothing is recorded yet. -/
def initial : AllocationIntegrityState := ⟨[], [], []⟩

variable (st : AllocationIntegrityState)

/-- What is recorded of an instruction. -/
def info (id : ℕ) : InstructionInfo :=
  st.instructions.getD id ⟨[], [], []⟩

/-- The type of a virtual register. -/
def typeOf (v : ℕ) : LType :=
  match st.virtualRegisters[v]? with
  | some (some d) => d.type
  | _ => .general

/-- What a safepoint has to say of storage that holds a virtual register. -/
def checkSafepointAllocation (s : LSafepoint) (isCall : Bool) (v : ℕ) (a : LAllocation) : Bool :=
  if isCall && a.isRegister then true
  else
    a.toRegister.all (fun reg => decide (reg ∈ s.liveRegs)) &&
      match st.typeOf v with
      | .object => s.hasGcPointer a
      | .slots => s.hasSlotsOrElementsPointer a
      | .payload => s.hasNunboxPayload a
      | .box => s.hasBoxedValue a
      | _ => true

/-- The storage that a move group moves to storage: its last move there counts. -/
def followMoves (group : LMoveGroup) (a : LAllocation) : LAllocation :=
  ((group.moves.reverse.find? (·.dest = a)).map LMove.source).getD a

/-- Whether an output is the definition of a virtual register. It has to be in the storage then, and no
other output may be. Outputs after the definition are not looked at. -/
def scanDefs (v : ℕ) (a : LAllocation) : List (LDefinition × LDefinition) → Option Bool
  | [] => some false
  | (d, old) :: rest =>
    if d.policy = .passthrough then scanDefs v a rest
    else if old.virtualRegister = v then
      if d.output = a then some true else none
    else if d.output = a then none
    else scanDefs v a rest

/-- Following storage back ends at the definition, or at the start of the block. -/
inductive Scan where
  | found
  | start (a : LAllocation)

/-- Follow storage back through the instructions of a block, which come last first. -/
def scan (v : ℕ) : List LInstruction → LAllocation → Option Scan
  | [], a => some (.start a)
  | .moveGroup group :: rest, a => scan v rest (followMoves group a)
  | .node n :: rest, a =>
    match scanDefs v a (n.defs.zip (st.info n.id).outputs) with
    | none => none
    | some true => some .found
    | some false =>
      if n.temps.any fun t => !t.isBogusTemp && t.output = a then none
      else if n.safepoint.all fun s => st.checkSafepointAllocation s n.isCall v a then scan v rest a
      else none

/-- Follow storage back to the start of a block, and give what is to hold at the ends of the blocks
before it. -/
def checkIntegrity (g : LIRGraph) (b : ℕ) (before : List LInstruction) (v : ℕ) (a : LAllocation) :
    Option (List IntegrityItem) :=
  match st.scan v before a with
  | none => none
  | some .found => some []
  | some (.start a) =>
    match (st.blocks.getD b []).find? (·.isPhiOf v) with
    | some phi =>
      (phi.inputs.zip (g.block b).predecessors).mapM fun (input, p) =>
        input.toUse.map fun u => ⟨p, u.virtualRegister, a⟩
    | none => some ((g.block b).predecessors.map fun p => ⟨p, v, a⟩)

/-- Follow storage back from the end of a block. -/
def visit (g : LIRGraph) (item : IntegrityItem) : Option (List IntegrityItem) :=
  st.checkIntegrity g item.block (g.block item.block).instructions.reverse item.vreg item.alloc

/-- Whether reused storage is the storage of the operand. -/
def checkReused (n : LNode) (old d : LDefinition) : Bool :=
  old.policy ≠ .mustReuseInput || old.reusedInput.any fun i => n.operands[i]? = some d.output

/-- Whether all operands and definitions of an instruction have storage. -/
def checkAssigned (n : LNode) : Bool :=
  (n.inputs.all fun a => !a.isUse) &&
    ((n.defs.zip (st.info n.id).outputs).all fun (d, old) =>
      (!d.writes || !d.output.isUse) && checkReused n old d) &&
    ((n.temps.zip (st.info n.id).temps).all fun (t, old) =>
      (t.isBogusTemp || t.output.isRegister) && checkReused n old t)

/-- What the safepoint of an instruction has to say of its temporaries. -/
def checkTemps (n : LNode) : Bool :=
  n.safepoint.all fun s =>
    ((n.temps.zip (st.info n.id).temps).all fun (t, old) =>
      st.checkSafepointAllocation s n.isCall old.virtualRegister t.output) &&
    (!n.isCall || s.liveRegs.isEmpty)

/-- Check an input of an instruction, and all that is due because of it. -/
def checkInput (g : LIRGraph) (fuel b : ℕ) (before : List LInstruction) (n : LNode)
    (w : Worklist IntegrityItem) (input : LAllocation × LAllocation) :
    Option (Worklist IntegrityItem) :=
  match input.1.toUse with
  | none => some w
  | some u =>
    if n.safepoint.all fun s =>
        u.usedAtStart || st.checkSafepointAllocation s n.isCall u.virtualRegister input.2 then
      -- Start before the instruction, in case it reuses its input register for an output.
      match st.checkIntegrity g b before u.virtualRegister input.2 with
      | none => none
      | some items => (w.addAll items).drain (st.visit g) fuel
    else none

/-- Check the inputs of an instruction. -/
def checkNode (g : LIRGraph) (fuel b : ℕ) (before : List LInstruction) (n : LNode)
    (w : Worklist IntegrityItem) : Option (Worklist IntegrityItem) :=
  if st.checkTemps n then
    ((st.info n.id).inputs.zip n.inputs).foldlM (st.checkInput g fuel b before n) w
  else none

/-- Check instructions of a block, from a place on. -/
def checkInstructions (g : LIRGraph) (fuel b : ℕ) : List LInstruction → List LInstruction →
    Worklist IntegrityItem → Option (Worklist IntegrityItem)
  | _, [], w => some w
  | before, .moveGroup group :: rest, w =>
    checkInstructions g fuel b (.moveGroup group :: before) rest w
  | before, .node n :: rest, w =>
    match st.checkNode g fuel b before n w with
    | none => none
    | some w => checkInstructions g fuel b (.node n :: before) rest w

/-- Check the blocks of a graph. -/
def checkBlocks (g : LIRGraph) (fuel : ℕ) : Option (Worklist IntegrityItem) :=
  (List.range g.blocks.length).foldlM
    (fun w b => st.checkInstructions g fuel b [] (g.block b).instructions w) ⟨[], []⟩

/-- Whether the check of an allocated graph completes, with no assertion failing. -/
def check (g : LIRGraph) (fuel : ℕ) : Bool :=
  !st.instructions.isEmpty && g.nodes.all st.checkAssigned && (st.checkBlocks g fuel).isSome

end AllocationIntegrityState

end SpiderMonkey.Jit.LIR
