import FlowGraph.Construction.Layout
import FlowGraph.Construction.Survey
import FlowGraph.Options

/-!
# Building graphs

A tree is surveyed, laid out and, unless the options say otherwise, simplified.

## Main definitions

* `Node.build`: the graph of one tree
* `buildAll`: the graphs of a list of trees
-/

namespace FlowGraph

/-- Builds the graph of a tree. What was reported before a failure stays in the log. -/
def Node.build (options : Options) (node : Node) : EStateM Error Log Graph := do
  node.survey ⟨options.maxDepth, node.functionName?⟩ false 0
  -- The survey has found a target for every jump, so that the layout leaves no edge out.
  let g := node.toGraph
  modify (·.tell (.built g.displayName g.liveCount))
  if options.simplify then
    match Edit.simplify.run g with
    | .ok report simplified =>
      modify (·.tell (.simplified report))
      pure simplified
    | .error e _ => throw e
  else
    pure g

/-- Builds the graphs of a list of trees, up to the first failure. -/
def buildAll (options : Options) (nodes : List Node) : EStateM Error Log (List Graph) :=
  nodes.mapM (·.build options)

end FlowGraph
