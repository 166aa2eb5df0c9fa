import FlowGraph.Graph.Keeps

/-!
# Pruning unreachable blocks

Blocks that the entry does not lead to are detached, and with them their edges into the rest of the
graph, so that they no longer count as predecessors there.

## Main definitions

* `Graph.unreachable`: the live blocks that the entry does not lead to
* `Edit.prune`: detach them
-/

namespace FlowGraph

/-- The live blocks that the entry does not lead to. -/
def Graph.unreachable (g : Graph) : List BlockId :=
  let reached := g.reachable
  (g.live.map (·.id)).filter fun block => !reached.contains block

namespace Edit

/-- Removes the predecessor entries that the edges out of a block have made. -/
def dropOutgoing (id : BlockId) : Edit Unit := do
  let b ← block id
  b.successors.forM fun successor => update successor (·.dropPredecessor id)

/-- Detaches every live block that the entry does not lead to, and answers their number. -/
def prune : Edit Nat := do
  let dead := (← get).unreachable
  -- A detached block has lost its successors, so all edges go before any block does.
  dead.forM dropOutgoing
  dead.forM fun id => update id (·.detach)
  pure dead.length

end Edit

end FlowGraph
