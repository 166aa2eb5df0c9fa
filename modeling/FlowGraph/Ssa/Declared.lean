import FlowGraph.Graph.Basic

/-!
# Declared variables

The variables that get phi nodes are those declared in reachable blocks. Parameters count, because
the first block of a function holds their declarations; names that are only assigned do not.

## Main definitions

* `Block.declared`: the names that the statements of a block declare
* `Graph.declared`: the names declared in reachable blocks
-/

namespace FlowGraph

/-- The name that a statement declares. -/
def Node.declared? : Node → Option String
  | .declaration name .. => some name
  | _ => none

/-- The names that the statements of a block declare, in order. -/
def Block.declared (block : Block) : List String :=
  block.statements.filterMap Node.declared?

/-- The names declared in reachable blocks. -/
def Graph.declared (g : Graph) : Std.TreeSet String :=
  .ofList (g.reachableBlocks.flatMap Block.declared)

end FlowGraph
