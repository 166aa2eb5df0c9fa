import FlowGraph.Syntax.Operator

/-!
# Syntax trees

The trees that the library reads: function definitions, declarations, structured control statements
and the expressions inside them. One type covers all of them, and any tree may stand in any child
position; nothing here asks a tree to be a sensible program.

## Main definitions

* `Node`: a statement or expression
* `Node.kind`: the name of a node's shape, as diagnostics print it
* `Node.functionName?`, `Node.functionParams`: what a definition or declarator declares
* `Node.defined?`, `Node.withDefined`: the variable that a statement defines

## Main results

* `Node.defined?_withDefined`: replacing the defined variable is seen by `defined?`
* `Node.withDefined_of_defined?_eq_none`: a statement that defines nothing is left alone
-/

namespace FlowGraph

/-- The two statements that leave a loop body early. -/
inductive Jump
  /-- Leaves the innermost loop. -/
  | breakLoop
  /-- Goes on with the next round of the innermost loop. -/
  | continueLoop
  deriving DecidableEq, Repr

/-- The keyword of a jump. -/
def Jump.keyword : Jump → String
  | breakLoop => "break"
  | continueLoop => "continue"

mutual

/-- A statement or an expression. -/
inductive Node where
  /-- A function definition: a declarator and a body. -/
  | function (declarator body : Node)
  /-- A function declarator: name, return type and, unless it is absent, a parameter list. -/
  | declarator (name type : String) (params : Option Node)
  /-- A list of formal parameters. -/
  | parameters (params : List Node)
  /-- A variable declaration with an optional initial value. -/
  | declaration (name type : String) (init : Option Node)
  /-- A braced sequence of statements. -/
  | compound (items : List Node)
  /-- A conditional statement with an optional alternative. -/
  | branch (cond onTrue : Node) (onFalse : Option Node)
  /-- A loop that tests its condition before each round. -/
  | whileLoop (cond body : Node)
  /-- A loop with an initial clause, a condition, a step and a body. -/
  | forLoop (init : ForInit) (cond step : Option Node) (body : Node)
  /-- A return statement. -/
  | ret (value : Option Node)
  /-- A jump out of a loop body. -/
  | jump (kind : Jump)
  /-- A binary operation. -/
  | binary (op : Operator.Binary) (left right : Node)
  /-- A unary operation. -/
  | unary (op : Operator.Unary) (operand : Node)
  /-- An assignment of `value` to `target`. -/
  | assignment (op : Operator.Assign) (target value : Node)
  /-- An identifier. -/
  | ident (name : String)
  /-- A literal of some type. -/
  | constant (type value : String)
  /-- A call of the function `callee`. -/
  | call (callee : String) (args : List Node)

/-- The initial clause of a `for` loop. -/
inductive ForInit where
  /-- There is no initial clause. -/
  | absent
  /-- Declarations, separated by commas. -/
  | decls (items : List Node)
  /-- A single expression. -/
  | expr (value : Node)

end

/-- The statements that an initial clause runs. -/
def ForInit.statements : ForInit → List Node
  | absent => []
  | decls items => items
  | expr value => [value]

namespace Node

instance : Inhabited Node := ⟨ident ""⟩

/-- The integer literal of type `int`. -/
def int (n : Int) : Node :=
  constant "int" (toString n)

/-- The definition of a function that returns `int`. Without parameters the declarator has no
parameter list at all. -/
def intFunction (name : String) (params body : List Node) : Node :=
  let list := if params.isEmpty then none else some (parameters params)
  function (declarator name "int" list) (compound body)

/-- The name of a node's shape. -/
def kind : Node → String
  | function .. => "FuncDef"
  | declarator .. => "FuncDecl"
  | parameters .. => "ParamList"
  | declaration .. => "Decl"
  | compound .. => "Compound"
  | branch .. => "If"
  | whileLoop .. => "While"
  | forLoop .. => "For"
  | ret .. => "Return"
  | jump .breakLoop => "Break"
  | jump .continueLoop => "Continue"
  | binary .. => "BinaryOp"
  | unary .. => "UnaryOp"
  | assignment .. => "Assignment"
  | ident .. => "ID"
  | constant .. => "Constant"
  | call .. => "FuncCall"

/-- The name that a function definition or declarator declares. -/
def functionName? : Node → Option String
  | function decl _ => decl.functionName?
  | declarator name .. => some name
  | _ => none

/-- The formal parameters of a function definition or declarator. -/
def functionParams : Node → List Node
  | function decl _ => decl.functionParams
  | declarator _ _ (some (parameters params)) => params
  | _ => []

/-- The variable that a statement defines: the declared name, or the target of an assignment to a
plain identifier. -/
def defined? : Node → Option String
  | declaration name .. => some name
  | assignment _ (ident name) _ => some name
  | _ => none

/-- The statement with `name` in place of the variable it defines. -/
def withDefined (name : String) : Node → Node
  | declaration _ type init => declaration name type init
  | assignment op (ident _) value => assignment op (ident name) value
  | node => node

@[simp] theorem withDefined_of_defined?_eq_none {node : Node} (h : node.defined? = none)
    (name : String) : node.withDefined name = node := by
  unfold withDefined
  split <;> simp_all [defined?]

@[simp] theorem defined?_withDefined (name : String) (node : Node) :
    (node.withDefined name).defined? = node.defined?.map fun _ => name := by
  unfold withDefined
  split
  · simp [defined?]
  · simp [defined?]
  · rename_i hdecl hassign
    have : node.defined? = none := by
      unfold defined?
      split <;> simp_all
    simp [this]

end Node

end FlowGraph
