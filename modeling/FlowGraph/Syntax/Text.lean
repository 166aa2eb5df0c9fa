import FlowGraph.Syntax.Node

/-!
# The text of a node

Every node has one line of text. Declarations and expressions carry no semicolon, `return`, `break`
and `continue` do, and a control statement is written as its header alone. Operands are wrapped in
parentheses unless they are identifiers, literals or calls.

## Main definitions

* `Node.text`: the text of a node
* `Node.isSimple`: the nodes that stand as operands without parentheses

## Main results

* `Node.texts_eq_map`: a list of nodes is written item by item
-/

namespace FlowGraph.Node

/-- Identifiers, literals and calls stand as operands without parentheses. -/
def isSimple : Node → Bool
  | ident .. | constant .. | call .. => true
  | _ => false

/-- Whether a node is an assignment. -/
def isAssignment : Node → Bool
  | assignment .. => true
  | _ => false

/-- Puts a text into parentheses if `wrap` says so. -/
def wrapIf (wrap : Bool) (text : String) : String :=
  if wrap then "(" ++ text ++ ")" else text

/-- Texts separated by a comma and a blank. -/
def commaList (texts : List String) : String :=
  ", ".intercalate texts

mutual

/-- The text of a node. -/
def text : Node → String
  | function decl _ => decl.text
  | declarator name type params => type ++ " " ++ name ++ "(" ++ optionalText "" params ++ ")"
  | parameters params => commaList (texts params)
  | declaration name type init => type ++ " " ++ name ++ optionalText " = " init
  | compound items => "\x7b" ++ String.join ((texts items).map (" " ++ ·)) ++ " \x7d"
  | branch cond _ _ => "if (" ++ cond.text ++ ")"
  | whileLoop cond _ => "while (" ++ cond.text ++ ")"
  | forLoop init cond step _ =>
    "for (" ++ initText init ++ ";" ++ optionalText " " cond ++ ";" ++ optionalText " " step ++ ")"
  | ret value => "return" ++ optionalText " " value ++ ";"
  | jump kind => kind.keyword ++ ";"
  | binary op left right =>
    wrapIf (!left.isSimple) left.text ++ " " ++ op.spelling ++ " " ++
      wrapIf (!right.isSimple) right.text
  | unary .postInc operand => wrapIf (!operand.isSimple) operand.text ++ "++"
  | unary .postDec operand => wrapIf (!operand.isSimple) operand.text ++ "--"
  | unary .sizeof operand => "sizeof(" ++ operand.text ++ ")"
  | unary op operand => op.spelling ++ wrapIf (!operand.isSimple) operand.text
  | assignment op target value =>
    target.text ++ " " ++ op.spelling ++ " " ++ wrapIf value.isAssignment value.text
  | ident name => name
  | constant _ value => value
  | call callee args => callee ++ "(" ++ commaList (texts args) ++ ")"

/-- The texts of a list of nodes. -/
def texts : List Node → List String
  | [] => []
  | node :: rest => node.text :: texts rest

/-- The text of a child after `lead`, or nothing where the child is absent. -/
def optionalText (lead : String) : Option Node → String
  | none => ""
  | some node => lead ++ node.text

/-- The text of the initial clause of a `for` loop. -/
def initText : ForInit → String
  | .absent => ""
  | .decls items => commaList (texts items)
  | .expr value => value.text

end

@[simp] theorem texts_eq_map (nodes : List Node) : texts nodes = nodes.map text := by
  induction nodes with
  | nil => simp [texts]
  | cons node rest ih => simp [texts, ih]

end FlowGraph.Node
