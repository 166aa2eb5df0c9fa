import FlowGraph.Event
import FlowGraph.Ssa.Placement
import FlowGraph.Ssa.Renaming

/-!
# Conversion to single assignment form

A graph is converted by placing phi nodes for its declared variables and renaming it.

## Main definitions

* `Edit.convert`: convert a graph in place
* `Graph.converted`: a converted copy
* `convertAll`: converted copies of a list of graphs
-/

namespace FlowGraph

/-- Converts a graph, and answers what is told about it. -/
def Edit.convert : Edit ConversionReport := do
  let g ← get
  let declared := g.declared
  let placeholders ← placePhis declared
  let versions ← rename declared
  pure
    { function := g.displayName
      declared := declared.size
      placeholders
      versions := declared.foldl (fun total name => total + versions.count name) 0 }

/-- A converted copy of a graph, with what is told about it. -/
def Graph.converted (g : Graph) : Except Error (Graph × ConversionReport) :=
  match Edit.convert.run g with
  | .ok report converted => .ok (converted, report)
  | .error e _ => .error e

/-- Converted copies of a list of graphs. -/
def convertAll (graphs : List Graph) : Except Error (List Graph) :=
  graphs.mapM fun g => (·.1) <$> g.converted

end FlowGraph
