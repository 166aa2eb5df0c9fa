import FlowGraph.Construction.Layout
import FlowGraph.Construction.Survey
import FlowGraph.Graph.Edit
import FlowGraph.Options

/-!
# Building graphs in one traversal

A tree can be built without a survey: one traversal adds blocks by checked edits, looks up in the
block where a statement ends whether control passes its end, and makes its remarks on the way. A
jump that has no target stops it at once, with the blocks added so far left behind.

## Main definitions

* `Drafting`: an action on a graph under construction and on what is reported
* `Edit.openBranch`, `Edit.closeBranch`, ...: the edits around the parts of a statement
* `Node.construct`: the traversal
* `Node.buildInOnePass`: the graph of one tree
-/

namespace FlowGraph

/-- A graph under construction, with what was reported so far. -/
structure Draft where
  graph : Graph
  log : Log

/-- An action on a graph under construction, which may fail. -/
abbrev Drafting :=
  EStateM Error Draft

namespace Drafting

variable {α : Type}

/-- Changes the graph. -/
def edit (change : Edit α) : Drafting α := fun draft =>
  match change.run draft.graph with
  | .ok answer graph => .ok answer { draft with graph }
  | .error e graph => .error e { draft with graph }

/-- Makes remarks. -/
def report (remarks : EStateM Error Log α) : Drafting α := fun draft =>
  match remarks.run draft.log with
  | .ok answer log => .ok answer { draft with log }
  | .error e log => .error e { draft with log }

theorem run_edit (change : Edit α) (draft : Draft) :
    (edit change).run draft =
      match change.run draft.graph with
      | .ok answer graph => .ok answer { draft with graph }
      | .error e graph => .error e { draft with graph } :=
  rfl

theorem run_report (remarks : EStateM Error Log α) (draft : Draft) :
    (report remarks).run draft =
      match remarks.run draft.log with
      | .ok answer log => .ok answer { draft with log }
      | .error e log => .error e { draft with log } :=
  rfl

end Drafting

namespace Edit

/-- Whether a block is final. -/
def isFinal (id : BlockId) : Edit Bool := do
  let b ← block id
  pure b.isFinal

/-- Marks a block as final if `final` says so. -/
def markFinalIf (final : Bool) (id : BlockId) : Edit Unit :=
  if final then update id (·.markFinal) else pure ()

/-- Adds an edge unless `final` says that control does not pass its source. -/
def linkUnless (final : Bool) (source target : BlockId) : Edit Unit :=
  if final then pure () else link source target

/-- Adds a block that holds some statements. -/
def addStatementBlock (kind : BlockKind) (statements : List Node) : Edit BlockId := do
  let id ← addBlock kind
  update id (·.addStatements statements)
  pure id

/-- Adds a single block for a node. -/
def addSingle (node : Node) (final : Bool) : Edit Span := do
  let id ← addStatementBlock .base [node]
  markFinalIf final id
  pure ⟨id, id⟩

/-- Adds the final block of a jump with an edge to its target. -/
def addJump (target : BlockId) : Edit Span := do
  let id ← addBlock .base
  markFinalIf true id
  link id target
  pure ⟨id, id⟩

/-- Adds the first block of a function. -/
def addHeader (declarator : Node) : Edit BlockId := do
  let id ← addStatementBlock .base declarator.functionParams
  update id fun block =>
    { block with label := some ("function " ++ declarator.functionName?.getD "" ++ " start") }
  pure id

/-- Adds the blocks in front of the branches of a condition. -/
def openBranch (cond : Node) : Edit (BlockId × BlockId) := do
  let first ← addBlock .base
  let test ← addBlock .condition
  link first test
  update test (·.addStatements [cond])
  pure (first, test)

/-- Connects the branches of a condition with it and with the block where they join. -/
def closeBranch (test : BlockId) (yes no : Span) : Edit BlockId := do
  let join ← addBlock .base
  linkBranches test yes.start no.start
  let yesFinal ← isFinal yes.stop
  let noFinal ← isFinal no.stop
  linkUnless yesFinal yes.stop join
  linkUnless noFinal no.stop join
  markFinalIf (yesFinal && noFinal) join
  pure join

/-- Adds the blocks of a `while` loop around its body. -/
def openWhile (cond : Node) : Edit (BlockId × BlockId × BlockId) := do
  let first ← addBlock .base
  let test ← addBlock .condition
  let after ← addBlock .base
  link first test
  update test (·.addStatements [cond])
  pure (first, test, after)

/-- Connects the body of a `while` loop. -/
def closeWhile (test after : BlockId) (body : Span) : Edit Unit := do
  linkBranches test body.start after
  let final ← isFinal body.stop
  linkUnless final body.stop test

/-- Adds the blocks of a `for` loop around its body. -/
def openFor (init : List Node) (cond : Node) (step : List Node) :
    Edit (BlockId × BlockId × BlockId × BlockId) := do
  let first ← addStatementBlock .base init
  let test ← addStatementBlock .condition [cond]
  let next ← addStatementBlock .base step
  let after ← addBlock .base
  pure (first, test, next, after)

/-- Connects the body and the step of a `for` loop. -/
def closeFor (first test next after : BlockId) (body : Span) : Edit Unit := do
  link first test
  linkBranches test body.start after
  let final ← isFinal body.stop
  linkUnless final body.stop next
  link next test

end Edit

namespace Node

open Drafting

mutual

/-- Adds the blocks of a node, and answers where they start and end. -/
def construct (s : Survey) (scope : Scope) (depth : Nat) (node : Node) : Drafting Span :=
  if s.maxDepth < depth then
    throw (.tooDeep s.maxDepth)
  else
    match node with
    | function decl body => do
      let header ← edit (.addHeader decl)
      let inner ← body.construct s scope (depth + 1)
      edit (.link header inner.start)
      pure ⟨header, inner.stop⟩
    | compound items => do
      let first ← edit (.addBlock .base)
      let last ← constructItems s scope (depth + 1) first items
      pure ⟨first, last⟩
    | branch cond onTrue onFalse => do
      let (first, test) ← edit (.openBranch cond)
      let yes ← onTrue.construct s scope (depth + 1)
      let no ← constructOptional s scope (depth + 1) onFalse
      let join ← edit (.closeBranch test yes no)
      pure ⟨first, join⟩
    | whileLoop cond body => do
      let (first, test, after) ← edit (.openWhile cond)
      let inner ← body.construct s (scope.enterLoop test after) (depth + 1)
      edit (.closeWhile test after inner)
      pure ⟨first, after⟩
    | forLoop init cond step body => do
      let (first, test, next, after) ←
        edit (.openFor init.statements (cond.getD (int 1)) step.toList)
      let inner ← body.construct s (scope.enterLoop next after) (depth + 1)
      edit (.closeFor first test next after inner)
      pure ⟨first, after⟩
    | ret value => edit (.addSingle (ret value) true)
    | jump kind =>
      match scope.target? kind with
      | some target => edit (.addJump target)
      | none => throw (.notInLoop kind)
    | node => do
      if node.isUnknown then report (s.warnUnknown node)
      edit (.addSingle node false)

/-- Adds the blocks of the items of a compound statement after the block `current`, and answers the
block where they end. Nothing is connected to a block that is final. -/
def constructItems (s : Survey) (scope : Scope) (depth : Nat) (current : BlockId) :
    List Node → Drafting BlockId
  | [] => pure current
  | item :: rest => do
    let piece ← item.construct s scope depth
    let final ← edit (.isFinal current)
    if final then
      report (s.reportUnless false item)
      constructItems s scope depth current rest
    else
      edit (.link current piece.start)
      constructItems s scope depth piece.stop rest

/-- Adds the blocks of a branch. An absent branch is an empty block. -/
def constructOptional (s : Survey) (scope : Scope) (depth : Nat) : Option Node → Drafting Span
  | none => do
    let id ← edit (.addBlock .base)
    pure ⟨id, id⟩
  | some node => node.construct s scope depth

end

/-- The traversal of a whole tree behind the block that is set aside for returns. -/
def constructAll (options : Options) (node : Node) : Drafting Span := do
  let sink ← edit (.addBlock .base)
  node.construct ⟨options.maxDepth, node.functionName?⟩ (.top sink) 0

/-- The graph of a tree, without simplification. What was reported before a failure stays. -/
def draft (options : Options) (node : Node) : EStateM Error Log Graph := fun log =>
  match (node.constructAll options).run ⟨{}, log⟩ with
  | .ok span ⟨g, log⟩ =>
    .ok { g with name := node.functionName?, entry := span.start, exit := span.stop } log
  | .error e ⟨_, log⟩ => .error e log

theorem run_draft (options : Options) (node : Node) (log : Log) :
    (node.draft options).run log =
      match (node.constructAll options).run ⟨{}, log⟩ with
      | .ok span ⟨g, log⟩ =>
        .ok { g with name := node.functionName?, entry := span.start, exit := span.stop } log
      | .error e ⟨_, log⟩ => .error e log :=
  rfl

end Node

/-- Tells that a graph was built, and simplifies it if the options say so. -/
def finishBuild (options : Options) (g : Graph) : EStateM Error Log Graph := do
  modify (·.tell (.built g.displayName g.liveCount))
  if options.simplify then
    match Edit.simplify.run g with
    | .ok report simplified =>
      modify (·.tell (.simplified report))
      pure simplified
    | .error e _ => throw e
  else
    pure g

/-- Builds the graph of a tree in one traversal. -/
def Node.buildInOnePass (options : Options) (node : Node) : EStateM Error Log Graph := do
  let g ← node.draft options
  finishBuild options g

end FlowGraph
