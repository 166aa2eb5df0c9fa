import FlowGraph.Diagnostic
import FlowGraph.Simplification.Fixpoint

/-!
# Events

What the library tells about its own work while it runs. Events are kept beside the diagnostics,
which are about the tree that is read.

## Main definitions

* `Event`: one event with the values it reports
* `Log`: diagnostics and events in the order they came about
-/

namespace FlowGraph

/-- What is told about a conversion to single assignment form. -/
structure ConversionReport where
  /-- The name of the graph. -/
  function : String
  /-- The number of declared variables. -/
  declared : Nat
  /-- The number of phi nodes added. -/
  placeholders : Nat
  /-- The number of versions given to declared variables. -/
  versions : Nat
  deriving DecidableEq, Repr

/-- An event. -/
inductive Event
  /-- A node is kept as it is because nothing is known about the control flow in it. -/
  | unknownNode (node function : String)
  /-- A graph was built. -/
  | built (function : String) (blocks : Nat)
  /-- A graph was simplified. -/
  | simplified (report : SimplificationReport)
  /-- A graph was converted. -/
  | converted (report : ConversionReport)
  deriving DecidableEq, Repr

namespace Event

/-- The level at which an event is told. -/
def level : Event → String
  | unknownNode .. => "WARN"
  | built .. | simplified .. | converted .. => "DEBUG"

/-- The text of an event. -/
def message : Event → String
  | unknownNode .. => "no handler for node, keeping it as an opaque statement"
  | built .. => "built control flow graph"
  | simplified .. => "simplified control flow graph"
  | converted .. => "converted to ssa form"

end Event

/-- Diagnostics and events in the order they came about. -/
structure Log where
  diagnostics : Diagnostics := {}
  events : Array Event := #[]
  deriving DecidableEq, Repr

namespace Log

instance : Inhabited Log := ⟨{}⟩

/-- Adds a diagnostic. -/
def report (log : Log) (d : Diagnostic) : Log :=
  { log with diagnostics := log.diagnostics.push d }

/-- Adds an event. -/
def tell (log : Log) (event : Event) : Log :=
  { log with events := log.events.push event }

end Log

end FlowGraph
