import FlowGraph.Traversal.Unvisited

/-!
# Depth-first pre-order

The nodes that a start node leads to, each listed once, before everything that is first reached
through it. Edges that lead out of the range of nodes are not followed.

## Main definitions

* `preorder`: the depth-first pre-order from a start node
-/

namespace FlowGraph.Traversal

/-- The pre-order of what the nodes on a stack lead to, outside of the nodes seen so far. A node is
seen when it leaves the stack, and its successors take its place. -/
def preorderFrom (bound : Nat) (next : Nat → List Nat) (stack : List Nat)
    (seen : Std.TreeSet Nat) : List Nat :=
  match stack with
  | [] => []
  | node :: rest =>
    if _new : node < bound ∧ node ∉ seen then
      node :: preorderFrom bound next (next node ++ rest) (seen.insert node)
    else
      preorderFrom bound next rest seen
termination_by (unvisited bound seen, stack.length)
decreasing_by
  · exact Prod.Lex.left _ _ (unvisited_insert_lt _new.1 _new.2)
  · exact Prod.Lex.right _ (Nat.lt_succ_self _)

/-- The depth-first pre-order from `start` among the nodes below `bound`. It is empty if `start`
itself is out of range. -/
def preorder (bound : Nat) (next : Nat → List Nat) (start : Nat) : List Nat :=
  preorderFrom bound next [start] ∅

end FlowGraph.Traversal
