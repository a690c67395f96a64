import SpiderMonkey.Lib.Linked

/-!
# Strongly connected components of the zone graph

Tarjan's algorithm over nodes that carry their own links. One link field holds the search stack
first and the output list later. When the native stack is full the search stops descending, and
every node still on its stack ends up in one leading group.

The clock counts discovered nodes and is not bounded here; it would reach the code for finished
nodes only after four billion of them. The native stack check is a function of the clock, which
differs between any two checks. Searches return `none` where they run out of fuel or follow a null
pointer.
-/

namespace SpiderMonkey.Gc

/-- When a node was discovered, with the two special values `Undefined` and `Finished`. -/
inductive DiscoveryTime where
  | undefined
  | time (t : ℕ)
  | finished
  deriving DecidableEq, Repr

/-- The fields every graph node carries. -/
structure GraphNode (V : Type*) where
  gcNextGraphNode : Option V
  gcNextGraphComponent : Option V
  gcDiscoveryTime : DiscoveryTime
  gcLowLink : ℕ

/-- The low link of an undiscovered node. -/
def undefinedLowLink : ℕ := 0

/-- A node with its search fields cleared. -/
def GraphNode.reset {V : Type*} (node : GraphNode V) : GraphNode V :=
  { node with gcDiscoveryTime := .undefined, gcLowLink := undefinedLowLink }

variable {V : Type*} [DecidableEq V]

/-- The next node of the same group. -/
def nextNodeInGroup (nodes : V → GraphNode V) (v : V) : Option V :=
  match (nodes v).gcNextGraphNode with
  | some w =>
    if (nodes w).gcNextGraphComponent = (nodes v).gcNextGraphComponent then some w else none
  | none => none

/-- The first node of the next group. -/
def nextGroup (nodes : V → GraphNode V) (v : V) : Option V := (nodes v).gcNextGraphComponent

/-- The state of a search, with all nodes. -/
structure ComponentFinder (V : Type*) where
  nodes : V → GraphNode V
  clock : ℕ
  stack : Option V
  firstComponent : Option V
  cur : Option V
  stackFull : Bool

namespace ComponentFinder

/-- A new finder. -/
def init (nodes : V → GraphNode V) : ComponentFinder V where
  nodes := nodes
  clock := 1
  stack := none
  firstComponent := none
  cur := none
  stackFull := false

/-- Stamp an undiscovered node and push it on the stack. -/
def discover (s : ComponentFinder V) (v : V) : ComponentFinder V :=
  { s with
    nodes := Function.update s.nodes v
      { s.nodes v with
        gcDiscoveryTime := .time s.clock
        gcLowLink := s.clock
        gcNextGraphNode := s.stack }
    clock := s.clock + 1
    stack := some v }

/-- Lower the low link of the current node. -/
def lowerLowLink (s : ComponentFinder V) (t : ℕ) : Option (ComponentFinder V) :=
  match s.cur with
  | none => none
  | some v => some { s with
      nodes := Function.update s.nodes v
        { s.nodes v with gcLowLink := min (s.nodes v).gcLowLink t } }

/-- Move the top of the stack to the front of the output. -/
def emit (s : ComponentFinder V) (w : V) (nextComponent : Option V) : ComponentFinder V :=
  { s with
    nodes := Function.update s.nodes w
      { s.nodes w with
        gcDiscoveryTime := .finished
        gcNextGraphComponent := nextComponent
        gcNextGraphNode := s.firstComponent }
    stack := (s.nodes w).gcNextGraphNode
    firstComponent := some w }

/-- Pop the stack into the output up to and including a node. -/
def popComponent (v : V) (nextComponent : Option V) :
    ℕ → ComponentFinder V → Option (ComponentFinder V)
  | 0, _ => none
  | fuel + 1, s =>
    match s.stack with
    | none => none
    | some w =>
      if w = v then some (s.emit w nextComponent)
      else popComponent v nextComponent fuel (s.emit w nextComponent)

/-- Handle an edge from the current node, searching from its target if that is new. -/
def addEdgeTo (processNode : V → ComponentFinder V → Option (ComponentFinder V))
    (s : ComponentFinder V) (w : V) : Option (ComponentFinder V) :=
  match (s.nodes w).gcDiscoveryTime with
  | .undefined => do
    let s ← processNode w s
    s.lowerLowLink (s.nodes w).gcLowLink
  | .time t => s.lowerLowLink t
  | .finished => some s

/-- After the edges of a node: emit its component if it is the first discovered node of one. -/
def finishNode (v : V) (s : ComponentFinder V) : Option (ComponentFinder V) :=
  if s.stackFull then some s
  else if (s.nodes v).gcDiscoveryTime = .time (s.nodes v).gcLowLink then
    popComponent v s.firstComponent s.clock s
  else some s

/-- Search from a new node. `full` tells whether the native stack check fails. -/
def processNode (edges : V → List V) (full : ℕ → Bool) :
    ℕ → V → ComponentFinder V → Option (ComponentFinder V)
  | 0, _, _ => none
  | fuel + 1, v, s =>
    if s.stackFull || full s.clock then some { s.discover v with stackFull := true }
    else do
      let s' ← (edges v).foldlM (addEdgeTo (processNode edges full fuel))
        { s.discover v with cur := some v }
      finishNode v { s' with cur := s.cur }

/-- Search from a node unless it was found before. -/
def addNode (edges : V → List V) (full : ℕ → Bool) (fuel : ℕ) (v : V) (s : ComponentFinder V) :
    Option (ComponentFinder V) :=
  if (s.nodes v).gcDiscoveryTime = .undefined then processNode edges full fuel v s else some s

/-- Force all later nodes into one component. -/
def useOneComponent (s : ComponentFinder V) : ComponentFinder V := { s with stackFull := true }

/-- Prepend what is left on the stack to the output as one component. -/
def mergeStack (firstGoodComponent : Option V) :
    ℕ → ComponentFinder V → Option (ComponentFinder V)
  | 0, s => if s.stack = none then some s else none
  | fuel + 1, s =>
    match s.stack with
    | none => some s
    | some v => mergeStack firstGoodComponent fuel { s with
        nodes := Function.update s.nodes v
          { s.nodes v with
            gcNextGraphComponent := firstGoodComponent
            gcNextGraphNode := s.firstComponent }
        stack := (s.nodes v).gcNextGraphNode
        firstComponent := some v }

/-- Clear the search fields of the nodes of a list. -/
def resetNodes : ℕ → Option V → (V → GraphNode V) → Option (V → GraphNode V)
  | _, none, nodes => some nodes
  | 0, some _, _ => none
  | fuel + 1, some v, nodes =>
    resetNodes fuel (nodes v).gcNextGraphNode (Function.update nodes v (nodes v).reset)

/-- After a stack overflow, make the nodes left on the stack one component of their own. -/
def mergeRemaining (s : ComponentFinder V) : Option (ComponentFinder V) :=
  if s.stackFull then
    (mergeStack s.firstComponent s.clock s).map fun s => { s with stackFull := false }
  else some s

/-- Take the output: its first node, and the finder without it. -/
def getResultsList (s : ComponentFinder V) : Option (Option V × ComponentFinder V) := do
  let s ← s.mergeRemaining
  let nodes ← resetNodes s.clock s.firstComponent s.nodes
  pure (s.firstComponent, { s with nodes := nodes, firstComponent := none })

/-- What a user of the finder does before it takes the results. -/
inductive Call (V : Type*) where
  | addNode (v : V)
  | useOneComponent
  deriving DecidableEq

/-- One call. -/
def call (edges : V → List V) (full : ℕ → Bool) (fuel : ℕ) (s : ComponentFinder V) :
    Call V → Option (ComponentFinder V)
  | .addNode v => s.addNode edges full fuel v
  | .useOneComponent => some s.useOneComponent

end ComponentFinder

end SpiderMonkey.Gc
