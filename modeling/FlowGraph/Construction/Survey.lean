import FlowGraph.Construction.Completion
import FlowGraph.Event
import FlowGraph.Syntax.Text

/-!
# Surveying a tree

Before its graph is laid out, a tree is read once in the order of the text. The survey stops with an
error at the first statement that is nested too deeply and at the first jump outside of a loop. It
reports every statement that stands after one whose end control cannot pass, and every node in
statement position that it knows no control flow for.

## Main definitions

* `Node.survey`: read a tree, collecting diagnostics and events
* `Node.isUnknown`: the nodes that are kept as they are, with a warning
-/

namespace FlowGraph

/-- Whether no control flow is known for a node in statement position. -/
def Node.isUnknown : Node → Bool
  | .unary .. | .ident .. | .constant .. | .call .. => true
  | _ => false

/-- The diagnostic for a node that is kept as it is. -/
def Diagnostic.unknownNode (function : Option String) (node : Node) : Diagnostic where
  severity := .warning
  category := .traversal
  message := "Unknown node " ++ node.kind ++ " kept as an opaque statement: " ++ node.text
  node := some node.kind
  function := function

/-- The diagnostic for a statement that control never comes to. -/
def Diagnostic.unreachableItem (function : Option String) (item : Node) : Diagnostic where
  severity := .info
  category := .reachability
  message := "Unreachable " ++ item.kind ++ " after a jump statement"
  node := some item.kind
  function := function

/-- What stays the same in a survey. -/
structure Survey where
  /-- How deeply statements may be nested. -/
  maxDepth : Nat
  /-- The function that is read. -/
  function : Option String

namespace Survey

/-- Warns about a node that is kept as it is. -/
def warnUnknown (survey : Survey) (node : Node) : EStateM Error Log Unit :=
  modify fun log =>
    (log.tell (.unknownNode node.kind (survey.function.getD "<anonymous>"))).report
      (.unknownNode survey.function node)

/-- Reports an item of a compound statement unless control comes to it. -/
def reportUnless (survey : Survey) (running : Bool) (item : Node) : EStateM Error Log Unit :=
  modify fun log => if running then log else log.report (.unreachableItem survey.function item)

end Survey

namespace Node

mutual

/-- Surveys a node at some depth, inside of a loop or not. -/
def survey (s : Survey) (inLoop : Bool) (depth : Nat) (node : Node) : EStateM Error Log Unit :=
  if s.maxDepth < depth then
    throw (.tooDeep s.maxDepth)
  else
    match node with
    | function _ body => body.survey s inLoop (depth + 1)
    | compound items => surveyItems s inLoop (depth + 1) true items
    | branch _ onTrue onFalse => do
      onTrue.survey s inLoop (depth + 1)
      surveyOptional s inLoop (depth + 1) onFalse
    | whileLoop _ body => body.survey s true (depth + 1)
    | forLoop _ _ _ body => body.survey s true (depth + 1)
    | jump kind => if inLoop then pure () else throw (.notInLoop kind)
    | node => if node.isUnknown then s.warnUnknown node else pure ()

/-- Surveys the items of a compound statement. Control comes to the next one if `running` says
so. -/
def surveyItems (s : Survey) (inLoop : Bool) (depth : Nat) (running : Bool) :
    List Node → EStateM Error Log Unit
  | [] => pure ()
  | item :: rest => do
    item.survey s inLoop depth
    s.reportUnless running item
    surveyItems s inLoop depth (running && item.completes) rest

/-- Surveys a branch that may be absent. -/
def surveyOptional (s : Survey) (inLoop : Bool) (depth : Nat) :
    Option Node → EStateM Error Log Unit
  | none => pure ()
  | some node => node.survey s inLoop depth

end

end Node

end FlowGraph
