import FlowGraph.BlockId
import FlowGraph.Syntax.Node

/-!
# Errors

Every way in which reading a tree or changing a graph can fail, as a cause with the values it is
about. The wording is kept apart in `Error.message`.
-/

namespace FlowGraph

/-- A cause of failure. -/
inductive Error
  /-- A jump stands outside of every loop. -/
  | notInLoop (jump : Jump)
  /-- Statements are nested more deeply than `limit`. -/
  | tooDeep (limit : Nat)
  /-- A block id is out of range. -/
  | noSuchBlock (block : BlockId)
  /-- The successor and predecessor lists disagree about the edges from `source` to `target`. -/
  | unbalancedEdge (source target : BlockId) (forward backward : Nat)
  /-- A predecessor entry of `block` has no edge behind it. -/
  | strayPredecessor (predecessor block : BlockId)
  /-- A block cannot be given two branches. -/
  | takesNoBranches (block : BlockId)
  /-- A condition block takes no part in absorption. -/
  | absorbsNoCondition (block : BlockId)
  /-- A block can only absorb its single successor. -/
  | notSoleSuccessor (block next : BlockId) (successors : List BlockId)
  /-- A block that is entered more than once, or never, cannot be absorbed. -/
  | sharedSuccessor (block next : BlockId) (predecessors : Nat)
  /-- A block is not empty with one other successor, so it cannot be bypassed. -/
  | notForwarding (block : BlockId)
  /-- No operator is spelled that way. -/
  | unknownOperator
  deriving DecidableEq, Repr

/-- A list of block ids as messages show it. -/
def blockList (blocks : List BlockId) : String :=
  "[" ++ ", ".intercalate (blocks.map fun block => s!"NodeId({block})") ++ "]"

/-- What is said about an error. -/
def Error.message : Error → String
  | notInLoop jump => jump.keyword ++ " not in a loop"
  | tooDeep limit => s!"Reach the maximum recursion level allowed - {limit}"
  | noSuchBlock block => s!"Block {blockName block} does not exist in the graph"
  | unbalancedEdge source target forward backward =>
    s!"edge {blockName source} -> {blockName target} is not mirrored " ++
      s!"({forward} forward, {backward} backward)"
  | strayPredecessor predecessor block =>
    s!"predecessor {blockName predecessor} of {blockName block} has no matching edge"
  | takesNoBranches block => s!"block {blockName block} cannot take branch successors"
  | absorbsNoCondition block => s!"condition block {blockName block} cannot be merged"
  | notSoleSuccessor block next successors =>
    s!"block {blockName block} must have {blockName next} as its only successor to absorb it, " ++
      s!"has {blockList successors}"
  | sharedSuccessor block next predecessors =>
    s!"block {blockName next} has {predecessors} predecessors and cannot be merged into " ++
      blockName block
  | notForwarding block => s!"block {blockName block} is not an empty forwarding block"
  | unknownOperator => "Matching variant not found"

end FlowGraph
