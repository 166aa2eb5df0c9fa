import FlowGraph.Graph.Basic

/-!
# Consistency of edges

Every edge is recorded twice, in a successor slot of its source and in a predecessor entry of its
target. The check goes through the live blocks in the order of their ids, first through the
successors of a block and then through its predecessors, and reports the first disagreement.

## Main definitions

* `Graph.checkEdges`: the first disagreement, if there is one
-/

namespace FlowGraph.Graph

/-- An edge out of `block` has to lead to a live block that records it as often as `block` does. -/
def checkSuccessor (g : Graph) (block : Block) (successor : BlockId) : Except Error Unit := do
  let target ← g.find successor
  let forward := block.successors.count successor
  let backward := target.predecessors.count block.id
  if target.isDetached || forward != backward then
    throw (.unbalancedEdge block.id successor forward backward)

/-- A predecessor entry of `block` has to name a live block with an edge to it. -/
def checkPredecessor (g : Graph) (block : Block) (predecessor : BlockId) : Except Error Unit := do
  let source ← g.find predecessor
  if source.isDetached || !source.successors.contains block.id then
    throw (.strayPredecessor predecessor block.id)

/-- Checks the edges of one block. -/
def checkBlock (g : Graph) (block : Block) : Except Error Unit := do
  block.successors.forM (g.checkSuccessor block)
  block.predecessors.forM (g.checkPredecessor block)

/-- Checks that the successor and predecessor lists of all live blocks agree. -/
def checkEdges (g : Graph) : Except Error Unit :=
  g.live.forM g.checkBlock

end FlowGraph.Graph
