/-!
# Construction options
-/

namespace FlowGraph

/-- How graphs are built. -/
structure Options where
  /-- Whether a graph is simplified once it is built. -/
  simplify : Bool := true
  /-- How deeply statements may be nested. -/
  maxDepth : Nat := 256
  deriving DecidableEq, Repr

namespace Options

/-- The options that keep every block of the construction. -/
def raw : Options :=
  { simplify := false }

/-- The same options with another bound on nesting. -/
def withMaxDepth (options : Options) (maxDepth : Nat) : Options :=
  { options with maxDepth := maxDepth }

end Options

end FlowGraph
