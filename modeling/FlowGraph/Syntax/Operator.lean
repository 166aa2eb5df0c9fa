/-!
# Operators and their spellings

The binary, unary and assignment operators of the statement language. Every operator has one
spelling, and an operator is read back by looking its spelling up among all operators of its family.

## Main definitions

* `Operator.Binary`, `Operator.Unary`, `Operator.Assign`: the three families
* `spelling`: the text of an operator
* `ofSpelling?`: the operator with a given text, if there is one

## Main results

* `ofSpelling?_spelling`: reading a spelling gives the operator back
-/

namespace FlowGraph.Operator

/-- Operators written between two operands. -/
inductive Binary
  | add | sub | mul | div | mod
  | lt | le | gt | ge | eq | ne
  | and | or
  | bitAnd | bitOr | bitXor | shl | shr
  deriving DecidableEq, Repr

/-- Operators with one operand. The postfix forms are kept apart from the forms written in front. -/
inductive Unary
  | neg | plus | not | bitNot | deref | addrOf
  | preInc | preDec | postInc | postDec
  | sizeof
  deriving DecidableEq, Repr

/-- Plain assignment and the compound assignments that read their target first. -/
inductive Assign
  | assign | addAssign | subAssign | mulAssign | divAssign | modAssign
  deriving DecidableEq, Repr

namespace Binary

/-- The text of a binary operator. -/
def spelling : Binary → String
  | add => "+" | sub => "-" | mul => "*" | div => "/" | mod => "%"
  | lt => "<" | le => "<=" | gt => ">" | ge => ">=" | eq => "==" | ne => "!="
  | and => "&&" | or => "||"
  | bitAnd => "&" | bitOr => "|" | bitXor => "^" | shl => "<<" | shr => ">>"

/-- Every binary operator. -/
def all : List Binary :=
  [add, sub, mul, div, mod, lt, le, gt, ge, eq, ne, and, or, bitAnd, bitOr, bitXor, shl, shr]

/-- The binary operator spelled `text`. -/
def ofSpelling? (text : String) : Option Binary :=
  all.find? (·.spelling == text)

@[simp] theorem ofSpelling?_spelling (op : Binary) : ofSpelling? op.spelling = some op := by
  cases op <;> decide

end Binary

namespace Unary

/-- The text of a unary operator. The postfix forms are spelled with a leading `p`, because `++` and
`--` alone name the forms written in front of the operand. -/
def spelling : Unary → String
  | neg => "-" | plus => "+" | not => "!" | bitNot => "~" | deref => "*" | addrOf => "&"
  | preInc => "++" | preDec => "--" | postInc => "p++" | postDec => "p--"
  | sizeof => "sizeof"

/-- Every unary operator. -/
def all : List Unary :=
  [neg, plus, not, bitNot, deref, addrOf, preInc, preDec, postInc, postDec, sizeof]

/-- The unary operator spelled `text`. -/
def ofSpelling? (text : String) : Option Unary :=
  all.find? (·.spelling == text)

@[simp] theorem ofSpelling?_spelling (op : Unary) : ofSpelling? op.spelling = some op := by
  cases op <;> decide

end Unary

namespace Assign

/-- The text of an assignment operator. -/
def spelling : Assign → String
  | assign => "=" | addAssign => "+=" | subAssign => "-="
  | mulAssign => "*=" | divAssign => "/=" | modAssign => "%="

/-- Every assignment operator. -/
def all : List Assign :=
  [assign, addAssign, subAssign, mulAssign, divAssign, modAssign]

/-- The assignment operator spelled `text`. -/
def ofSpelling? (text : String) : Option Assign :=
  all.find? (·.spelling == text)

@[simp] theorem ofSpelling?_spelling (op : Assign) : ofSpelling? op.spelling = some op := by
  cases op <;> decide

end Assign

end FlowGraph.Operator
