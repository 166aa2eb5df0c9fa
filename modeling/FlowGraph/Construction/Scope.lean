import FlowGraph.BlockId
import FlowGraph.Syntax.Node

/-!
# Jump targets

Where `continue` and `break` lead at a place in a tree. Entering a loop makes a new scope for its
body and leaves the scope around it as it is.
-/

namespace FlowGraph

/-- The jump targets at a place in a tree. -/
structure Scope where
  /-- Where `continue` leads, inside of a loop. -/
  onContinue : Option BlockId
  /-- Where `break` leads, inside of a loop. -/
  onBreak : Option BlockId
  /-- The block set aside for returns. No edge is made to it. -/
  sink : BlockId
  deriving DecidableEq, Repr

namespace Scope

/-- The scope outside of every loop. -/
def top (sink : BlockId) : Scope :=
  { onContinue := none, onBreak := none, sink }

/-- The scope of the body of a loop. -/
def enterLoop (scope : Scope) (onContinue onBreak : BlockId) : Scope :=
  { scope with onContinue := some onContinue, onBreak := some onBreak }

/-- Where a jump leads. -/
def target? (scope : Scope) : Jump → Option BlockId
  | .continueLoop => scope.onContinue
  | .breakLoop => scope.onBreak

end Scope

end FlowGraph
