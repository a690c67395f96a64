import SpiderMonkey.Lib.Dominance
import Mathlib.Logic.Function.Basic
import Mathlib.Order.Basic

/-!
# Immediate dominators of the control-flow graph

The iterative dominator computation over blocks numbered in reverse postorder, for an entry
block and an optional second root where on-stack replacement enters. A block known to have no
dominator but itself is its own immediate dominator.

Reading the immediate dominator of a missing block is a null dereference in the source. The
functions return `none` there, and where a loop runs out of the fuel it is given.
-/

namespace SpiderMonkey.Jit

/-- The blocks of a graph by number, with their predecessors in order. -/
structure MIRGraph where
  numBlocks : ℕ
  predecessors : ℕ → List ℕ
  osrBlock : Option ℕ

namespace MIRGraph

/-- The entry block is the first one in reverse postorder. -/
def startBlock : ℕ := 0

/-- Whether a block is the entry block or the on-stack-replacement block. -/
def IsRoot (g : MIRGraph) (b : ℕ) : Prop := b = startBlock ∨ g.osrBlock = some b

instance (g : MIRGraph) (b : ℕ) : Decidable (g.IsRoot b) := inferInstanceAs (Decidable (_ ∨ _))

/-- A control-flow edge. -/
def Edge (g : MIRGraph) (u v : ℕ) : Prop := v < g.numBlocks ∧ u ∈ g.predecessors v

/-- What every graph handed to the dominator computation satisfies: all blocks are reachable, and
the first predecessor of a block comes before it, as only a loop's backedge, which is never the
first predecessor, may come later. -/
structure Numbered (g : MIRGraph) : Prop where
  start_lt : startBlock < g.numBlocks
  osr_lt : ∀ b, g.osrBlock = some b → b < g.numBlocks
  predecessors_lt : ∀ b < g.numBlocks, ∀ p ∈ g.predecessors b, p < g.numBlocks
  reachable : ∀ b < g.numBlocks, RootReachable g.Edge g.IsRoot b
  first_lt : ∀ b < g.numBlocks, ¬ g.IsRoot b → ∀ p ∈ (g.predecessors b).head?, p < b

end MIRGraph

/-- The immediate dominator of each block, where known. -/
abbrev ImmediateDominators := ℕ → Option ℕ

/-- Walk two fingers up the dominator tree to their first common block. The later finger moves, as
in the nested loops of the source; a self-dominating block ends the walk with no intersection. -/
def intersectDominators (idom : ImmediateDominators) : ℕ → ℕ → ℕ → Option (Option ℕ)
  | 0, _, _ => none
  | fuel + 1, finger1, finger2 =>
    if finger1 = finger2 then some (some finger1)
    else if finger2 < finger1 then
      match idom finger1 with
      | none => none
      | some d => if d = finger1 then some none else intersectDominators idom fuel d finger2
    else
      match idom finger2 with
      | none => none
      | some d => if d = finger2 then some none else intersectDominators idom fuel finger1 d

/-- Intersect the dominators found so far with those of the remaining predecessors, skipping
predecessors that have not been processed. -/
def intersectPredecessors (idom : ImmediateDominators) : List ℕ → ℕ → Option (Option ℕ)
  | [], newIdom => some (some newIdom)
  | pred :: rest, newIdom =>
    if idom pred = none then intersectPredecessors idom rest newIdom
    else
      match intersectDominators idom (pred + newIdom + 1) pred newIdom with
      | none => none
      | some none => some none
      | some (some d) => intersectPredecessors idom rest d

/-- Recompute the immediate dominator of one block, and whether it changed. -/
def updateBlock (g : MIRGraph) (idom : ImmediateDominators) (block : ℕ) :
    Option (ImmediateDominators × Bool) :=
  if idom block = some block then some (idom, false)
  else
    match g.predecessors block with
    | [] => none
    | first :: rest =>
      match intersectPredecessors idom rest first with
      | none => none
      | some none => some (Function.update idom block (some block), true)
      | some (some newIdom) =>
        if idom block = some newIdom then some (idom, false)
        else some (Function.update idom block (some newIdom), true)

/-- Recompute the blocks of a list in order, and whether any changed. -/
def updateBlocks (g : MIRGraph) (idom : ImmediateDominators) :
    List ℕ → Option (ImmediateDominators × Bool)
  | [] => some (idom, false)
  | block :: rest => do
    let (idom', changed) ← updateBlock g idom block
    let (idom'', changed') ← updateBlocks g idom' rest
    pure (idom'', changed || changed')

/-- One pass over all blocks in reverse postorder. -/
def dominatorPass (g : MIRGraph) (idom : ImmediateDominators) :
    Option (ImmediateDominators × Bool) :=
  updateBlocks g idom (List.range g.numBlocks)

/-- The roots dominate themselves; nothing else is known. -/
def initialDominators (g : MIRGraph) : ImmediateDominators :=
  fun b => if g.IsRoot b then some b else none

/-- Repeat passes until one changes nothing. -/
def dominatorLoop (g : MIRGraph) : ℕ → ImmediateDominators → Option ImmediateDominators
  | 0, _ => none
  | fuel + 1, idom =>
    match dominatorPass g idom with
    | none => none
    | some (idom', changed) => if changed then dominatorLoop g fuel idom' else some idom'

/-- Compute the immediate dominators with at most `fuel` passes. -/
def computeImmediateDominators (g : MIRGraph) (fuel : ℕ) : Option ImmediateDominators :=
  dominatorLoop g fuel (initialDominators g)

/-- The dominator tree being built: each block's children in the order they are added, and the
number of blocks below it. -/
structure DominatedBlocks where
  immediatelyDominatedBlocks : ℕ → List ℕ
  numDominated : ℕ → ℕ

/-- Add a block below its immediate dominator, unless it has none but itself. -/
def addChild (idom : ImmediateDominators) (t : DominatedBlocks) (child : ℕ) :
    Option DominatedBlocks :=
  match idom child with
  | none => none
  | some parent =>
    if child = parent then some t
    else some {
      immediatelyDominatedBlocks := Function.update t.immediatelyDominatedBlocks parent
        (t.immediatelyDominatedBlocks parent ++ [child])
      numDominated := Function.update t.numDominated parent
        (t.numDominated parent + (t.numDominated child + 1)) }

/-- Add the blocks of a list in order. -/
def addChildren (idom : ImmediateDominators) : List ℕ → DominatedBlocks → Option DominatedBlocks
  | [], t => some t
  | child :: rest, t => addChild idom t child >>= addChildren idom rest

/-- Number the blocks in preorder from a worklist whose head is its last element. -/
def numberBlocks (children : ℕ → List ℕ) :
    ℕ → List ℕ → ℕ → (ℕ → ℕ) → Option (ℕ → ℕ)
  | _, [], _, domIndex => some domIndex
  | 0, _ :: _, _, _ => none
  | fuel + 1, block :: worklist, index, domIndex =>
    numberBlocks children fuel ((children block).reverse ++ worklist) (index + 1)
      (Function.update domIndex block index)

/-- The dominator information of every block. -/
structure DominatorTree where
  immediateDominator : ImmediateDominators
  numDominated : ℕ → ℕ
  domIndex : ℕ → ℕ

/-- Compute the dominators, link the tree in postorder and number it. The fuel bounds the passes
of the first step and the blocks taken from the worklist in the last. -/
def buildDominatorTree (g : MIRGraph) (fuel : ℕ) : Option DominatorTree := do
  let idom ← computeImmediateDominators g fuel
  let t ← addChildren idom (List.range g.numBlocks).reverse ⟨fun _ => [], fun _ => 0⟩
  let selfDominating := (List.range g.numBlocks).filter fun b => idom b = some b
  let domIndex ← numberBlocks t.immediatelyDominatedBlocks fuel selfDominating.reverse 0 fun _ => 0
  pure ⟨idom, t.numDominated, domIndex⟩

end SpiderMonkey.Jit
