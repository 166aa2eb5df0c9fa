import FlowGraph.BlockId

/-!
# Phi nodes

A phi node at a block with several incoming edges selects the version of a variable that arrived
over the edge control took. It starts as a placeholder that knows its variable only; renaming gives
it a result and one operand for each incoming edge that brings a version.

## Main definitions

* `Phi`, `Phi.Operand`: a phi node and one of its operands
* `Phi.placeholder`, `Phi.resolve`, `Phi.addOperand`: how a phi node comes about
* `Phi.insert`: a placeholder put among sorted phi nodes
-/

namespace FlowGraph

/-- The version that arrives over the edges from one block. -/
structure Phi.Operand where
  value : String
  predecessor : BlockId
  deriving DecidableEq, Repr

/-- The text of an operand. -/
def Phi.Operand.text (operand : Phi.Operand) : String :=
  operand.value ++ " from " ++ blockName operand.predecessor

/-- A phi node. -/
structure Phi where
  /-- The variable it stands for. -/
  base : String
  /-- The version it defines, once there is one. -/
  result : Option String := none
  /-- The versions it selects from, in the order they were added. -/
  operands : List Phi.Operand := []
  deriving DecidableEq, Repr

namespace Phi

/-- A phi node without result and operands. -/
def placeholder (name : String) : Phi :=
  { base := name }

/-- The version a phi node defines, or its variable as long as there is none. -/
def name (phi : Phi) : String :=
  phi.result.getD phi.base

/-- Whether a phi node has a result. -/
def isResolved (phi : Phi) : Bool :=
  phi.result.isSome

/-- Sets the version that a phi node defines. -/
def resolve (phi : Phi) (version : String) : Phi :=
  { phi with result := some version }

/-- Adds an operand after the others. -/
def addOperand (phi : Phi) (operand : Operand) : Phi :=
  { phi with operands := phi.operands ++ [operand] }

/-- The first operand that arrives from `predecessor`. -/
def operandFrom? (phi : Phi) (predecessor : BlockId) : Option Operand :=
  phi.operands.find? (·.predecessor == predecessor)

/-- The text of a phi node. -/
def text (phi : Phi) : String :=
  phi.name ++ " = phi(" ++ ", ".intercalate (phi.operands.map (·.value)) ++ ")"

/-- Puts a placeholder for `name` in front of the first phi node whose variable is greater. -/
def insert (name : String) : List Phi → List Phi
  | [] => [placeholder name]
  | phi :: rest =>
    if name < phi.base then placeholder name :: phi :: rest
    else phi :: insert name rest

end Phi

end FlowGraph
