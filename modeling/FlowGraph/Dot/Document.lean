import FlowGraph.Dot.Escape
import FlowGraph.Graph.Basic
import FlowGraph.Syntax.Text

/-!
# Graphs as DOT documents

A document draws the reachable part of a graph: one node statement for each block in depth-first
order, then one edge statement for each successor slot.

## Main definitions

* `Block.caption`: the lines shown in a block, each ended by a left-justified line break
* `Block.appearance`: caption, color and shape of a block
* `Graph.toDot`: the document
-/

namespace FlowGraph

/-- A line of a caption. Its angle brackets are protected, and it ends in a left-justified break. -/
def Dot.captionLine (text : String) : String :=
  Dot.escapeAngles text ++ "\\l"

/-- The texts shown in a block: its label, its phi nodes and its statements. -/
def Block.captionTexts (block : Block) : List String :=
  block.label.toList ++ block.phis.map Phi.text ++ block.statements.map Node.text

/-- The lines shown in a block. -/
def Block.caption (block : Block) : String :=
  String.join (block.captionTexts.map Dot.captionLine)

/-- The shape of a drawn node. -/
inductive Dot.Shape
  | record | diamond
  deriving DecidableEq, Repr

/-- The name of a shape. -/
def Dot.Shape.text : Dot.Shape → String
  | record => "record"
  | diamond => "diamond"

/-- How a block is drawn. -/
structure Dot.Appearance where
  caption : String
  color : String
  shape : Dot.Shape
  deriving DecidableEq, Repr

/-- How a block is drawn. A condition block is a white diamond, any other block a record filled with
its own color. -/
def Block.appearance (block : Block) : Dot.Appearance where
  caption := block.caption
  color := if block.isCondition then BlockColor.plain.text else block.color.text
  shape := if block.isCondition then .diamond else .record

/-- The node statement of a block. -/
def Dot.nodeStatement (id : BlockId) (look : Dot.Appearance) : String :=
  "    " ++ blockName id ++ " [label=\"" ++ Dot.escapeQuotes look.caption ++ "\", shape=" ++
    look.shape.text ++ ", fillcolor=\"" ++ look.color ++ "\"];\n"

/-- The edge statement of an edge. -/
def Dot.edgeStatement (edge : Edge) : String :=
  "    " ++ blockName edge.source ++ " -> " ++ blockName edge.target ++ " [color=\"" ++
    edge.kind.color ++ "\"];\n"

/-- The statements that give a document its title. -/
def Dot.titleStatements (title : String) : String :=
  "    label=\"" ++ Dot.escapeText title ++ "\";\n    labelloc=t;\n"

/-- The document that draws the reachable part of a graph. -/
def Graph.toDot (g : Graph) (title : Option String) : String :=
  let nodes := g.reachable.map fun id =>
    (g.block? id).elim "" fun block => Dot.nodeStatement id block.appearance
  "strict digraph CFG \x7b\n" ++ title.elim "" Dot.titleStatements ++
    "    node [style=filled, fontname=\"Courier\", fontsize=10];\n\n" ++
    String.join nodes ++ "\n" ++ String.join (g.edges.map Dot.edgeStatement) ++ "\x7d\n"

end FlowGraph
