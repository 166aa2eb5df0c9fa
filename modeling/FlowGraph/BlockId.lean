/-!
# Block ids

The blocks of a graph are numbered from zero in the order they were added, and a number is never
given to another block later.
-/

namespace FlowGraph

/-- The number of a block in its graph. -/
abbrev BlockId := Nat

/-- A block id as it is printed in graphs and messages. -/
def blockName (block : BlockId) : String :=
  s!"B{block}"

end FlowGraph
