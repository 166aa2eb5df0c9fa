import FlowGraph.Proofs.Syntax.Expression
import FlowGraph.Syntax.Text
import Mathlib.Data.List.Basic

/-!
# The tokens of an expression

The text of an expression is taken apart into names and numbers, operators, parentheses, commas and
blanks. Names and operators are taken as long as they can be, so what is written next to each other
has to be kept apart by the way in which expressions are written. A parenthesis belongs to the name
directly before it.

## Main definitions

* `Syntax.Token`, `Syntax.lex`: take a text apart
* `Syntax.isName`: the names that can be read
* `Node.IsSpelled`: expressions over such names and natural numbers
* `Node.tokens`: the tokens that an expression is written with

## Main results

* `Node.lex_text`: the text of an expression is taken apart into its tokens
-/

namespace FlowGraph

namespace Syntax

/-- A token of an expression. -/
inductive Token
  /-- A name or a number. -/
  | word (chars : List Char)
  | operator (chars : List Char)
  /-- An opening parenthesis with the name that stands directly before it. -/
  | opening (callee : List Char)
  | closing
  | comma
  | blank
  deriving DecidableEq, Repr

/-- The characters of names and numbers. -/
def isNameChar (c : Char) : Bool :=
  c.isAlphanum || c == '_'

/-- A name begins with a letter or an underscore and goes on with letters, digits and underscores.
The keyword `sizeof` is not a name. -/
def isName (name : String) : Bool :=
  match name.toList with
  | [] => false
  | first :: rest => (first.isAlpha || first == '_') && rest.all isNameChar && name != "sizeof"

/-- Puts a character of a name or number in front. -/
def attachName (c : Char) : List Token → List Token
  | .word chars :: rest => .word (c :: chars) :: rest
  | .opening callee :: rest => .opening (c :: callee) :: rest
  | rest => .word [c] :: rest

/-- Puts a character of an operator in front. -/
def attachOperator (c : Char) : List Token → List Token
  | .operator chars :: rest => .operator (c :: chars) :: rest
  | rest => .operator [c] :: rest

/-- Puts a character in front of a text that was taken apart. -/
def attach (c : Char) (tokens : List Token) : List Token :=
  match c with
  | ' ' => .blank :: tokens
  | ',' => .comma :: tokens
  | '(' => .opening [] :: tokens
  | ')' => .closing :: tokens
  | c => if isNameChar c then attachName c tokens else attachOperator c tokens

/-- Takes a text apart. -/
def lex (text : List Char) : List Token :=
  text.foldr attach []

/-- Whether a name or number ends where a text that was taken apart goes on in this way. -/
def endsWord : List Token → Bool
  | .word _ :: _ | .opening _ :: _ => false
  | _ => true

/-- Whether an operator ends where a text that was taken apart goes on in this way. -/
def endsOperator : List Token → Bool
  | .operator _ :: _ => false
  | _ => true

/-- Whether a text is taken apart into tokens, wherever it goes on in the right way. -/
def Lexes (after : List Token → Bool) (text : String) (tokens : List Token) : Prop :=
  ∀ rest, after (lex rest) = true → lex (text.toList ++ rest) = tokens ++ lex rest

namespace Lexes

variable {after after' : List Token → Bool} {first second : String} {tokens tokens' : List Token}

/-- One text after the other. -/
theorem append (hfirst : Lexes after first tokens) (hsecond : Lexes after' second tokens')
    (h : ∀ rest, after' rest = true → after (tokens' ++ rest) = true) :
    Lexes after' (first ++ second) (tokens ++ tokens') := by
  intro rest hrest
  have hnext := hsecond rest hrest
  rw [String.toList_append, List.append_assoc, hfirst, hnext, List.append_assoc]
  rw [hnext]
  exact h _ hrest

theorem mono (h : Lexes after first tokens)
    (hafter : ∀ rest, after' rest = true → after rest = true) : Lexes after' first tokens :=
  fun rest hrest => h rest (hafter _ hrest)

end Lexes

/-! ### Tokens of more than one character -/

/-- Characters that make a token of a kind and are put in front of it make one such token. -/
private theorem lex_append_eq_cons {mk : List Char → Token} {chars rest : List Char}
    (hne : chars ≠ []) (hlast : ∀ c ∈ chars, attach c (lex rest) = mk [c] :: lex rest)
    (hbefore : ∀ c ∈ chars, ∀ token,
      attach c (mk token :: lex rest) = mk (c :: token) :: lex rest) :
    lex (chars ++ rest) = mk chars :: lex rest := by
  induction chars with
  | nil => exact absurd rfl hne
  | cons c chars ih =>
    obtain ⟨hlastc, hlast⟩ := List.forall_mem_cons.1 hlast
    obtain ⟨hbeforec, hbefore⟩ := List.forall_mem_cons.1 hbefore
    cases chars with
    | nil => exact hlastc
    | cons d chars =>
      change attach c (lex ((d :: chars) ++ rest)) = _
      rw [ih (List.cons_ne_nil d chars) hlast hbefore, hbeforec]

theorem attach_of_isNameChar {c : Char} (h : isNameChar c = true) (tokens : List Token) :
    attach c tokens = attachName c tokens := by
  unfold attach
  split
  iterate 4 cases h
  rw [if_pos h]

/-- Names and numbers are taken as long as they can be. -/
theorem lexes_word {text : String} (hne : text.toList ≠ [])
    (h : ∀ c ∈ text.toList, isNameChar c = true) : Lexes endsWord text [.word text.toList] := by
  intro rest hrest
  refine lex_append_eq_cons hne (fun c hc => ?_) fun c hc token => ?_
  · rw [attach_of_isNameChar (h c hc)]
    unfold attachName
    split <;> simp_all [endsWord]
  · rw [attach_of_isNameChar (h c hc), attachName]

/-- A name directly before a parenthesis belongs to it. -/
theorem lexes_opening {callee : String} (h : ∀ c ∈ callee.toList, isNameChar c = true) :
    Lexes (fun _ => true) (callee ++ "(") [.opening callee.toList] := by
  intro rest _
  rw [String.toList_append, List.append_assoc]
  generalize callee.toList = chars at h ⊢
  induction chars with
  | nil => rfl
  | cons c chars ih =>
    obtain ⟨hc, hchars⟩ := List.forall_mem_cons.1 h
    change attach c (lex (chars ++ _)) = _
    rw [ih hchars, attach_of_isNameChar hc]
    rfl

/-- The characters of operators: all that no other token is made of. -/
def isOperatorChar (c : Char) : Bool :=
  !isNameChar c && !"(), ".toList.contains c

/-- Whether a text is taken for an operator. -/
def isOperator (text : String) : Bool :=
  !text.toList.isEmpty && text.toList.all isOperatorChar

theorem attach_of_isOperatorChar {c : Char} (h : isOperatorChar c = true) (tokens : List Token) :
    attach c tokens = attachOperator c tokens := by
  unfold attach
  split
  iterate 4 cases h
  rw [isOperatorChar, Bool.and_eq_true, Bool.not_eq_true'] at h
  rw [h.1, if_neg Bool.false_ne_true]

/-- Operators are taken as long as they can be. -/
theorem lexes_operator {text : String} (h : isOperator text = true) :
    Lexes endsOperator text [.operator text.toList] := by
  intro rest hrest
  rw [isOperator, Bool.and_eq_true, Bool.not_eq_true', List.isEmpty_eq_false_iff,
    List.all_eq_true] at h
  refine lex_append_eq_cons h.1 (fun c hc => ?_) fun c hc token => ?_
  · rw [attach_of_isOperatorChar (h.2 c hc)]
    unfold attachOperator
    split <;> simp_all [endsOperator]
  · rw [attach_of_isOperatorChar (h.2 c hc), attachOperator]

theorem lexes_blank : Lexes (fun _ => true) " " [.blank] :=
  fun _ _ => rfl

theorem lexes_openParen : Lexes (fun _ => true) "(" [.opening []] :=
  fun _ _ => rfl

theorem lexes_closing : Lexes (fun _ => true) ")" [.closing] :=
  fun _ _ => rfl

theorem lexes_separator : Lexes (fun _ => true) ", " [.comma, .blank] :=
  fun _ _ => rfl

theorem isNameChar_of_isName {name : String} (h : isName name = true) :
    name.toList ≠ [] ∧ ∀ c ∈ name.toList, isNameChar c = true := by
  unfold isName at h
  split at h
  · cases h
  · rename_i first rest hname
    simp only [Bool.and_eq_true, List.all_eq_true] at h
    have hfirst : isNameChar first = true := by
      rw [isNameChar, Char.isAlphanum]
      have := h.1.1
      grind
    rw [hname]
    exact ⟨List.cons_ne_nil first rest, List.forall_mem_cons.2 ⟨hfirst, h.1.2⟩⟩

/-- A natural number is written with digits. -/
theorem isDigit_of_mem_toString {n : Nat} {c : Char} (h : c ∈ (toString (n : Int)).toList) :
    c.isDigit = true := by
  change c ∈ n.repr.toList at h
  rw [Nat.toList_repr] at h
  exact Nat.isDigit_of_mem_toDigits (by decide) (by decide) h

theorem toList_toString_ne_nil (n : Nat) : (toString (n : Int)).toList ≠ [] := by
  change n.repr.toList ≠ []
  rw [Nat.toList_repr]
  exact Nat.toDigits_ne_nil

theorem isNameChar_of_isDigit {c : Char} (h : c.isDigit = true) : isNameChar c = true := by
  rw [isNameChar, Char.isAlphanum, h, Bool.or_true, Bool.true_or]

end Syntax

namespace Node

open Syntax

/-- Expressions over names that can be read and natural numbers. -/
def IsSpelled : Node → Prop :=
  IsExpression (fun name => isName name = true) fun type value =>
    ∃ n : Nat, constant type value = int n

/-- Puts tokens into parentheses if `wrap` says so. -/
def wrapTokens (wrap : Bool) (tokens : List Token) : List Token :=
  if wrap then [.opening []] ++ tokens ++ [.closing] else tokens

mutual

/-- The tokens that an expression is written with. -/
def tokens : Node → List Token
  | binary op left right =>
    wrapTokens (!left.isSimple) left.tokens ++ [.blank] ++ [.operator op.spelling.toList] ++
      [.blank] ++ wrapTokens (!right.isSimple) right.tokens
  | unary .postInc operand =>
    wrapTokens (!operand.isSimple) operand.tokens ++ [.operator ['+', '+']]
  | unary .postDec operand =>
    wrapTokens (!operand.isSimple) operand.tokens ++ [.operator ['-', '-']]
  | unary .sizeof operand => [.opening "sizeof".toList] ++ operand.tokens ++ [.closing]
  | unary op operand =>
    [.operator op.spelling.toList] ++ wrapTokens (!operand.isSimple) operand.tokens
  | assignment op target value =>
    target.tokens ++ [.blank] ++ [.operator op.spelling.toList] ++ [.blank] ++
      wrapTokens value.isAssignment value.tokens
  | ident name => [.word name.toList]
  | constant _ value => [.word value.toList]
  | call callee args =>
    [.opening callee.toList] ++ [Token.comma, Token.blank].intercalate (tokensAll args) ++
      [.closing]
  | _ => []

/-- The tokens of each node of a list. -/
def tokensAll : List Node → List (List Token)
  | [] => []
  | node :: rest => node.tokens :: tokensAll rest

end

/-- Whether an expression ends where a text that was taken apart goes on in this way. -/
def endsExpression (rest : List Token) : Bool :=
  endsWord rest && endsOperator rest

/-- An operand is written so that an operator may stand directly before it. -/
theorem endsOperator_wrapTokens (node : Node) (rest : List Token) (h : node.IsSpelled) :
    endsOperator (wrapTokens (!node.isSimple) node.tokens ++ rest) = true := by
  -- What begins with an operator is not simple, so there is a parenthesis in front of it.
  cases h <;> rfl

/-- The text of an expression is taken apart into its tokens, where it is written as a whole and
where it is written as an operand. -/
structure IsLexed (node : Node) : Prop where
  whole : Lexes endsExpression node.text node.tokens
  operand : Lexes endsWord (wrapIf (!node.isSimple) node.text)
    (wrapTokens (!node.isSimple) node.tokens)

theorem lexes_wrapped {text : String} {tokens : List Token}
    (h : Lexes endsExpression text tokens) :
    Lexes (fun _ => true) ("(" ++ text ++ ")") ([.opening []] ++ tokens ++ [.closing]) :=
  (lexes_openParen.append h fun _ _ => rfl).append lexes_closing fun _ _ => rfl

namespace IsLexed

variable {node : Node}

theorem of_isSimple (h : node.isSimple = true) (hlexes : Lexes endsWord node.text node.tokens) :
    node.IsLexed where
  whole := hlexes.mono fun _ hrest => (Bool.and_eq_true_iff.1 hrest).1
  operand := by
    rw [h]
    exact hlexes

theorem of_not_isSimple (h : node.isSimple = false)
    (hlexes : Lexes endsExpression node.text node.tokens) : node.IsLexed where
  whole := hlexes
  operand := by
    rw [h]
    exact (lexes_wrapped hlexes).mono fun _ _ => rfl

/-- The value of an assignment is in parentheses if it is an assignment itself. -/
theorem value (h : node.IsLexed) : Lexes endsExpression (wrapIf node.isAssignment node.text)
    (wrapTokens node.isAssignment node.tokens) := by
  cases node.isAssignment with
  | false => exact h.whole
  | true => exact (lexes_wrapped h.whole).mono fun _ _ => rfl

variable {spelling : String}

/-- An operator in front of its operand. -/
theorem prefixed (h : node.IsLexed) (hspelled : node.IsSpelled)
    (hspelling : Lexes endsOperator spelling [.operator spelling.toList]) :
    Lexes endsExpression (spelling ++ wrapIf (!node.isSimple) node.text)
      ([.operator spelling.toList] ++ wrapTokens (!node.isSimple) node.tokens) :=
  (hspelling.append h.operand fun rest _ => endsOperator_wrapTokens node rest hspelled).mono
    fun _ hrest => (Bool.and_eq_true_iff.1 hrest).1

/-- An operator behind its operand. -/
theorem postfixed (h : node.IsLexed)
    (hspelling : Lexes endsOperator spelling [.operator spelling.toList]) :
    Lexes endsExpression (wrapIf (!node.isSimple) node.text ++ spelling)
      (wrapTokens (!node.isSimple) node.tokens ++ [.operator spelling.toList]) :=
  (h.operand.append hspelling fun _ _ => rfl).mono fun _ hrest => (Bool.and_eq_true_iff.1 hrest).2

theorem sized (h : node.IsLexed) : Lexes endsExpression ("sizeof(" ++ node.text ++ ")")
    ([.opening "sizeof".toList] ++ node.tokens ++ [.closing]) :=
  (((@lexes_opening "sizeof" (List.all_eq_true.1 rfl)).append h.whole fun _ _ => rfl).append
    lexes_closing fun _ _ => rfl).mono fun _ _ => rfl

end IsLexed

theorem lexes_binarySpelling (op : Operator.Binary) :
    Lexes endsOperator op.spelling [.operator op.spelling.toList] := by
  cases op <;> exact lexes_operator rfl

theorem lexes_assignSpelling (op : Operator.Assign) :
    Lexes endsOperator op.spelling [.operator op.spelling.toList] := by
  cases op <;> exact lexes_operator rfl

/-- The arguments of a call. -/
theorem lexes_commaList {nodes : List Node} (h : ∀ node ∈ nodes, node.IsLexed) :
    Lexes endsExpression (commaList (texts nodes))
      ([Token.comma, Token.blank].intercalate (tokensAll nodes)) := by
  induction nodes with
  | nil => exact fun _ _ => rfl
  | cons node rest ih =>
    obtain ⟨hnode, hrest⟩ := List.forall_mem_cons.1 h
    rw [commaList, texts, tokensAll]
    cases rest with
    | nil =>
      rw [texts, tokensAll, String.intercalate_singleton, List.intercalate_singleton]
      exact hnode.whole
    | cons next rest =>
      have hlater := ih hrest
      rw [commaList, texts, tokensAll] at hlater
      rw [texts, tokensAll, String.intercalate_cons_cons, List.intercalate_cons_cons]
      exact (hnode.whole.append lexes_separator fun _ _ => rfl).append hlater fun _ _ => rfl

theorem IsSpelled.isLexed {node : Node} (h : node.IsSpelled) : node.IsLexed := by
  induction h with
  | @ident name hname =>
    obtain ⟨hne, hchars⟩ := isNameChar_of_isName hname
    exact .of_isSimple rfl (by rw [text, tokens]; exact lexes_word hne hchars)
  | @constant type value hvalue =>
    obtain ⟨n, hn⟩ := hvalue
    obtain ⟨rfl, rfl⟩ := Node.constant.inj hn
    refine .of_isSimple rfl ?_
    rw [text, tokens]
    exact lexes_word (toList_toString_ne_nil n) fun c hc =>
      isNameChar_of_isDigit (isDigit_of_mem_toString hc)
  | @call callee args hcallee _ ih =>
    refine .of_isSimple rfl ?_
    rw [text, tokens]
    exact (((lexes_opening (isNameChar_of_isName hcallee).2).append (lexes_commaList ih)
      fun _ _ => rfl).append lexes_closing fun _ _ => rfl).mono fun _ _ => rfl
  | @binary op left right _ _ hleft hright =>
    refine .of_not_isSimple rfl ?_
    rw [text, tokens]
    exact ((((hleft.operand.append lexes_blank fun _ _ => rfl).append (lexes_binarySpelling op)
      fun _ _ => rfl).append lexes_blank fun _ _ => rfl).append hright.operand fun _ _ => rfl).mono
        fun _ hrest => (Bool.and_eq_true_iff.1 hrest).1
  | @unary op operand hspelled ih =>
    refine .of_not_isSimple rfl ?_
    -- All operators but these three stand in front of their operand.
    cases op with
    | postInc => exact ih.postfixed (lexes_operator rfl)
    | postDec => exact ih.postfixed (lexes_operator rfl)
    | sizeof => exact ih.sized
    | _ => exact ih.prefixed hspelled (lexes_operator rfl)
  | @assignment op target value _ _ htarget hvalue =>
    refine .of_not_isSimple rfl ?_
    rw [text, tokens]
    exact (((htarget.whole.append lexes_blank fun _ _ => rfl).append (lexes_assignSpelling op)
      fun _ _ => rfl).append lexes_blank fun _ _ => rfl).append hvalue.value fun _ _ => rfl

/-- The text of an expression is taken apart into its tokens. -/
theorem lex_text {node : Node} (h : node.IsSpelled) : lex node.text.toList = node.tokens := by
  have hnil : lex [] = [] := rfl
  have hlex := h.isLexed.whole [] rfl
  rwa [List.append_nil, hnil, List.append_nil] at hlex

end Node

end FlowGraph
