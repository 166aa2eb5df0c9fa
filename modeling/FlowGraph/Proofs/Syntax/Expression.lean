import FlowGraph.Syntax.Node

/-!
# Expressions

Expressions are made of identifiers, literals, calls, operators and assignments, one inside the
other. Which names and which literals occur in them is left open.

## Main definitions

* `Node.IsExpression`: trees of operators, assignments and calls
* `Node.identifiers`: the identifiers at the leaves of a tree
-/

namespace FlowGraph.Node

/-- Trees of operators, assignments and calls over identifiers and literals. `isName` holds for all
names in them, those of callees included, and `isLiteral` for the type and value of all literals. -/
inductive IsExpression (isName : String → Prop) (isLiteral : String → String → Prop) : Node → Prop
  | ident {name : String} (hname : isName name) : IsExpression isName isLiteral (ident name)
  | constant {type value : String} (hvalue : isLiteral type value) :
    IsExpression isName isLiteral (constant type value)
  | call {callee : String} {args : List Node} (hcallee : isName callee)
    (hargs : ∀ arg ∈ args, IsExpression isName isLiteral arg) :
    IsExpression isName isLiteral (call callee args)
  | binary {op : Operator.Binary} {left right : Node}
    (hleft : IsExpression isName isLiteral left) (hright : IsExpression isName isLiteral right) :
    IsExpression isName isLiteral (binary op left right)
  | unary {op : Operator.Unary} {operand : Node} (h : IsExpression isName isLiteral operand) :
    IsExpression isName isLiteral (unary op operand)
  | assignment {op : Operator.Assign} {target value : Node}
    (htarget : IsExpression isName isLiteral target)
    (hvalue : IsExpression isName isLiteral value) :
    IsExpression isName isLiteral (assignment op target value)

/-- Expressions over any names and literals. -/
def IsPureExpression : Node → Prop :=
  IsExpression (fun _ => True) fun _ _ => True

mutual

/-- The identifiers at the leaves of a tree, in order, wherever they stand. -/
def identifiers : Node → List String
  | function decl body => decl.identifiers ++ body.identifiers
  | declarator _ _ params => identifiersOptional params
  | parameters params => identifiersAll params
  | declaration _ _ init => identifiersOptional init
  | compound items => identifiersAll items
  | branch cond onTrue onFalse =>
    cond.identifiers ++ onTrue.identifiers ++ identifiersOptional onFalse
  | whileLoop cond body => cond.identifiers ++ body.identifiers
  | forLoop init cond step body =>
    identifiersInit init ++ identifiersOptional cond ++ identifiersOptional step ++
      body.identifiers
  | ret value => identifiersOptional value
  | jump _ => []
  | binary _ left right => left.identifiers ++ right.identifiers
  | unary _ operand => operand.identifiers
  | assignment _ target value => target.identifiers ++ value.identifiers
  | ident name => [name]
  | constant .. => []
  | call _ args => identifiersAll args

/-- The identifiers in an initial clause. -/
def identifiersInit : ForInit → List String
  | .absent => []
  | .decls items => identifiersAll items
  | .expr value => value.identifiers

/-- The identifiers in a child that may be absent. -/
def identifiersOptional : Option Node → List String
  | none => []
  | some node => node.identifiers

/-- The identifiers in the nodes of a list. -/
def identifiersAll : List Node → List String
  | [] => []
  | node :: rest => node.identifiers ++ identifiersAll rest

end

end FlowGraph.Node
