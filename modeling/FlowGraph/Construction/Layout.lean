import FlowGraph.Construction.Completion
import FlowGraph.Construction.Scope
import FlowGraph.Graph.Basic

/-!
# Laying out the graph of a tree

Every statement is laid out as a piece of graph with one block where it starts and one block where
it ends, and the pieces are connected. Layout is total: it relies on the survey for jumps to have a
target, and an edge is left out where control cannot pass the end of a statement.

* A function definition starts with a labelled block that holds its parameters.
* A compound statement starts with an empty block, followed by its items. An item that control does
  not come to is laid out but not connected.
* A conditional is an empty block, a condition block, the two branches and a block where they join.
* A `while` loop is an empty block, a condition block, the body, which leads back to the condition,
  and a block after the loop.
* A `for` loop is a block with the initial statements, a condition block, a block with the step, the
  body, which leads to the step, and a block after the loop.
* A return and a jump are final blocks. A jump has an edge to its target.
* Any other node is a block that holds it.

## Main definitions

* `Span`: where a piece of graph starts and ends
* `Node.layOut`: add the piece of a node to a graph
* `Node.toGraph`: the graph of a tree
-/

namespace FlowGraph

/-- Where a piece of graph starts and ends. -/
structure Span where
  start : BlockId
  stop : BlockId
  deriving DecidableEq, Repr

namespace Graph

/-- Adds an edge if `connected` says so. -/
def connectIf (g : Graph) (connected : Bool) (source target : BlockId) : Graph :=
  if connected then g.connect source target else g

/-- Marks a block as final if `final` says so. -/
def markFinalIf (g : Graph) (final : Bool) (block : BlockId) : Graph :=
  if final then g.modify block (·.markFinal) else g

/-- Adds a block that holds some statements. -/
def addStatementBlock (g : Graph) (kind : BlockKind) (statements : List Node) : Graph :=
  (g.addBlock kind).addStatements g.size statements

/-- Adds a single block for a node. -/
def addSingle (g : Graph) (node : Node) (final : Bool) : Graph × Span :=
  ((g.addStatementBlock .base [node]).markFinalIf final g.size, ⟨g.size, g.size⟩)

/-- Adds the first block of a function: its parameters under its name. -/
def addHeader (g : Graph) (declarator : Node) : Graph :=
  (g.addStatementBlock .base declarator.functionParams).modify g.size fun block =>
    { block with label := some ("function " ++ declarator.functionName?.getD "" ++ " start") }

/-- Adds the final block of a jump, with an edge to the target if there is one. -/
def addJump (g : Graph) (target : Option BlockId) : Graph × Span :=
  let jump := (g.addBlock .base).markFinalIf true g.size
  (target.elim jump (jump.connect g.size), ⟨g.size, g.size⟩)

end Graph

namespace Node

mutual

/-- Adds the piece of a node to a graph, and answers where it starts and ends. -/
def layOut (scope : Scope) (g : Graph) (node : Node) : Graph × Span :=
  match node with
  | function decl body =>
    let header := g.size
    let (g, inner) := body.layOut scope (g.addHeader decl)
    (g.connect header inner.start, ⟨header, inner.stop⟩)
  | compound items =>
    let first := g.size
    let (g, last) := layOutItems scope (g.addBlock .base) first true items
    (g, ⟨first, last⟩)
  | branch cond onTrue onFalse =>
    let first := g.size
    let test := first + 1
    let g := ((g.addBlock .base).addStatementBlock .condition [cond]).connect first test
    let (g, yes) := onTrue.layOut scope g
    let (g, no) := layOutOptional scope g onFalse
    let join := g.size
    let g := (g.addBlock .base).connectBranches test yes.start no.start
    let g := g.connectIf onTrue.completes yes.stop join
    let g := g.connectIf (completesOptional onFalse) no.stop join
    (g.markFinalIf (!onTrue.completes && !completesOptional onFalse) join, ⟨first, join⟩)
  | whileLoop cond body =>
    let first := g.size
    let test := first + 1
    let after := first + 2
    -- The blocks that jumps lead to are there before the body is.
    let g := ((g.addBlock .base).addStatementBlock .condition [cond]).addBlock .base
    let (g, inner) := body.layOut (scope.enterLoop test after) (g.connect first test)
    let g := g.connectBranches test inner.start after
    (g.connectIf body.completes inner.stop test, ⟨first, after⟩)
  | forLoop init cond step body =>
    let first := g.size
    let test := first + 1
    let next := first + 2
    let after := first + 3
    -- As for a `while` loop, but `continue` leads to the step.
    let g := g.addStatementBlock .base init.statements
    let g := g.addStatementBlock .condition [cond.getD (int 1)]
    let g := (g.addStatementBlock .base step.toList).addBlock .base
    let (g, inner) := body.layOut (scope.enterLoop next after) g
    let g := (g.connect first test).connectBranches test inner.start after
    let g := g.connectIf body.completes inner.stop next
    (g.connect next test, ⟨first, after⟩)
  | ret value => g.addSingle (ret value) true
  | jump kind => g.addJump (scope.target? kind)
  | node => g.addSingle node false

/-- Adds the pieces of the items of a compound statement after the block `current`, and answers the
block where they end. Control comes to the next item if `running` says so. -/
def layOutItems (scope : Scope) (g : Graph) (current : BlockId) (running : Bool)
    (items : List Node) : Graph × BlockId :=
  match items with
  | [] => (g, current)
  | item :: rest =>
    let (g, piece) := item.layOut scope g
    if running then
      layOutItems scope (g.connect current piece.start) piece.stop item.completes rest
    else
      layOutItems scope g current false rest

/-- Adds the piece of a branch. An absent branch is an empty block. -/
def layOutOptional (scope : Scope) (g : Graph) (node : Option Node) : Graph × Span :=
  match node with
  | none => (g.addBlock .base, ⟨g.size, g.size⟩)
  | some node => node.layOut scope g

end

/-- The graph of a tree. Its first block is set aside for returns, and it is named after the
function that the tree defines or declares. -/
def toGraph (node : Node) : Graph :=
  let sink := ({} : Graph).addBlock .base
  let (g, span) := node.layOut (.top 0) sink
  { g with name := node.functionName?, entry := span.start, exit := span.stop }

end Node

end FlowGraph
