import FlowGraph.BlockId

/-!
# Edges

Edges are not stored. The slot in which a block lists a successor says what kind of edge leads
there.
-/

namespace FlowGraph

/-- The kinds of edge. -/
inductive EdgeKind
  | unconditional
  /-- Taken when a condition holds. -/
  | onTrue
  /-- Taken when a condition does not hold. -/
  | onFalse
  deriving DecidableEq, Repr

namespace EdgeKind

/-- The kind of the edge in successor slot `slot`. Slot 0 of a condition block is its true edge, any
other slot of it a false edge. -/
def ofSlot (isCondition : Bool) (slot : Nat) : EdgeKind :=
  if isCondition then if slot = 0 then onTrue else onFalse else unconditional

/-- Whether an edge depends on a condition. -/
def isConditional : EdgeKind → Bool
  | unconditional => false
  | onTrue | onFalse => true

/-- The color an edge is drawn in. -/
def color : EdgeKind → String
  | unconditional => "black"
  | onTrue => "#2b782a"
  | onFalse => "red"

end EdgeKind

/-- An edge between two blocks. -/
structure Edge where
  source : BlockId
  target : BlockId
  kind : EdgeKind
  deriving DecidableEq, Repr

end FlowGraph
