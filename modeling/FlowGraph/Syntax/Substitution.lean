import FlowGraph.Syntax.Node

/-!
# Substitution of identifiers

A substitution replaces the identifiers that a statement reads or assigns: those in initial values,
on both sides of assignments, in operands, in returned values and in call arguments. Declared names,
callee names and every other shape stay as they are. Each identifier is looked up under the name it
had before, so swapping two names is one substitution.

## Main definitions

* `Node.substitute`: replace every reached identifier for which a look-up has an answer
* `Node.rename`: replace one identifier

## Main results

* `Node.substituteAll_eq_map`: call arguments are replaced one by one
-/

namespace FlowGraph.Node

mutual

/-- Replaces each reached identifier by its image under `lookup`, if it has one. -/
def substitute (lookup : String → Option String) : Node → Node
  | declaration name type init => declaration name type (substituteOptional lookup init)
  | assignment op target value =>
    assignment op (target.substitute lookup) (value.substitute lookup)
  | binary op left right => binary op (left.substitute lookup) (right.substitute lookup)
  | unary op operand => unary op (operand.substitute lookup)
  | ret value => ret (substituteOptional lookup value)
  | call callee args => call callee (substituteAll lookup args)
  | ident name => ident ((lookup name).getD name)
  | node => node

/-- Replaces the identifiers of a child that may be absent. -/
def substituteOptional (lookup : String → Option String) : Option Node → Option Node
  | none => none
  | some node => some (node.substitute lookup)

/-- Replaces the identifiers of each node of a list. -/
def substituteAll (lookup : String → Option String) : List Node → List Node
  | [] => []
  | node :: rest => node.substitute lookup :: substituteAll lookup rest

end

@[simp] theorem substituteOptional_eq_map (lookup : String → Option String) (node : Option Node) :
    substituteOptional lookup node = node.map (·.substitute lookup) := by
  cases node <;> simp [substituteOptional]

@[simp] theorem substituteAll_eq_map (lookup : String → Option String) (nodes : List Node) :
    substituteAll lookup nodes = nodes.map (·.substitute lookup) := by
  induction nodes with
  | nil => simp [substituteAll]
  | cons node rest ih => simp [substituteAll, ih]

/-- Replaces the identifier `old` by `new`. -/
def rename (old new : String) (node : Node) : Node :=
  node.substitute fun name => if name == old then some new else none

end FlowGraph.Node
