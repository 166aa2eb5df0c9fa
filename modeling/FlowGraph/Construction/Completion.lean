import FlowGraph.Syntax.Node

/-!
# Completion

Whether control can pass the end of a statement, read off its shape. A loop always can be left, even
one whose condition is a constant, and a conditional can be passed if one of its branches can.

## Main definitions

* `Node.completes`: control can pass the end of a node
-/

namespace FlowGraph.Node

mutual

/-- Whether control can pass the end of a node. -/
def completes : Node → Bool
  | function _ body => body.completes
  | compound items => completesAll items
  | branch _ onTrue onFalse => onTrue.completes || completesOptional onFalse
  | ret _ | jump _ => false
  | _ => true

/-- Whether control can pass through a list of statements. -/
def completesAll : List Node → Bool
  | [] => true
  | item :: rest => item.completes && completesAll rest

/-- Whether control can pass the end of a branch that may be absent. -/
def completesOptional : Option Node → Bool
  | none => true
  | some node => node.completes

end

@[simp] theorem completesAll_eq_all (items : List Node) :
    completesAll items = items.all completes := by
  induction items with
  | nil => simp [completesAll]
  | cons item rest ih => simp [completesAll, ih]

end FlowGraph.Node
