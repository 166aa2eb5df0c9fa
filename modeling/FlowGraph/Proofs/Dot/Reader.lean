import FlowGraph.Dot.Escape
import Mathlib.Data.List.Basic

/-!
# Reading DOT documents

What a document says is what a reader finds in it. The reader takes a text apart into tokens, by one
character at a time, and the tokens into statements. Inside quotes a backslash protects the
character after it, and the first quote that is not protected ends the quoted text. In a label, the
same rule tells characters from line ends.

## Main definitions

* `Dot.Lexer`: a reader in the middle of a text
* `Dot.Statement`, `Dot.Document`: what is read
* `Dot.read`: read a document
* `Dot.marks`: read a label

## Main results

* `Dot.read_eq_some_iff`: which tokens are read as a document
* `Dot.Lexer.run_quoted`: a text in which all quotes are protected is read up to its end
* `Dot.Lexer.tokens_suffix_run`: what was read is not read otherwise later
-/

namespace FlowGraph.Dot

/-- The characters that stand for themselves outside of quotes. -/
inductive Symbol
  | openBrace | closeBrace | openBracket | closeBracket
  | equals | comma | semicolon | dash | greater
  deriving DecidableEq, Repr

/-- The symbol that a character is. -/
def Symbol.ofChar? : Char → Option Symbol
  | '\x7b' => some openBrace
  | '\x7d' => some closeBrace
  | '[' => some openBracket
  | ']' => some closeBracket
  | '=' => some equals
  | ',' => some comma
  | ';' => some semicolon
  | '-' => some dash
  | '>' => some greater
  | _ => none

/-- A word, or a quoted text as it is written between its quotes. -/
inductive Value
  | word (text : String)
  | quoted (text : String)
  deriving DecidableEq, Repr

/-- A token of a document. -/
inductive Token
  | value (value : Value)
  | symbol (symbol : Symbol)
  deriving DecidableEq, Repr

/-- Where a reader is in a text, with what it has read of the current token, the last character
first. -/
inductive Mode
  | between
  | word (chars : List Char)
  | quoted (chars : List Char)
  /-- Inside quotes, and the next character is protected. -/
  | escaped (chars : List Char)
  deriving DecidableEq, Repr

/-- A reader in the middle of a text. -/
structure Lexer where
  mode : Mode := .between
  /-- The tokens that were read, the last one first. -/
  tokens : List Token := []
  deriving DecidableEq, Repr

/-- Whether a character may stand in a word. -/
def isOrdinary (c : Char) : Bool :=
  c != '"' && (Symbol.ofChar? c).isNone && !c.isWhitespace

namespace Lexer

/-- Reads a character between tokens. -/
def start (tokens : List Token) (c : Char) : Lexer :=
  if c = '"' then ⟨.quoted [], tokens⟩
  else match Symbol.ofChar? c with
    | some symbol => ⟨.between, .symbol symbol :: tokens⟩
    | none => if c.isWhitespace then ⟨.between, tokens⟩ else ⟨.word [c], tokens⟩

/-- Reads a character. -/
def step (s : Lexer) (c : Char) : Lexer :=
  match s.mode with
  | .between => start s.tokens c
  | .word chars =>
    if isOrdinary c then ⟨.word (c :: chars), s.tokens⟩
    else start (.value (.word (.ofList chars.reverse)) :: s.tokens) c
  | .quoted chars =>
    if c = '"' then ⟨.between, .value (.quoted (.ofList chars.reverse)) :: s.tokens⟩
    else if c = '\\' then ⟨.escaped chars, s.tokens⟩
    else ⟨.quoted (c :: chars), s.tokens⟩
  | .escaped chars => ⟨.quoted (c :: '\\' :: chars), s.tokens⟩

/-- Reads characters one after the other. -/
def run (s : Lexer) (text : List Char) : Lexer :=
  text.foldl step s

/-- The tokens of a text that ends here, unless it ends inside quotes. -/
def finish (s : Lexer) : Option (List Token) :=
  match s.mode with
  | .between => some s.tokens.reverse
  | .word chars => some (.value (.word (.ofList chars.reverse)) :: s.tokens).reverse
  | .quoted _ | .escaped _ => none

end Lexer

/-- The tokens of a text. -/
def tokens? (text : String) : Option (List Token) :=
  (Lexer.run {} text.toList).finish

/-- A name and a value for it. -/
abbrev Attribute := String × Value

/-- A statement of a document. -/
inductive Statement
  | setting (name : String) (value : Value)
  /-- About one node, or about all nodes if its name is `node`. -/
  | node (name : String) (attributes : List Attribute)
  | edge (source target : String) (attributes : List Attribute)
  deriving DecidableEq, Repr

/-- A document: the name of its graph and its statements. -/
structure Document where
  name : String
  statements : List Statement
  deriving DecidableEq, Repr

/-- Reads the attributes of a statement up to the closing bracket. -/
def attributes? : List Token → Option (List Attribute)
  | [.value (.word name), .symbol .equals, .value value, .symbol .closeBracket] =>
    some [(name, value)]
  | .value (.word name) :: .symbol .equals :: .value value :: .symbol .comma :: rest =>
    (attributes? rest).map ((name, value) :: ·)
  | _ => none

/-- Reads a statement. -/
def Statement.ofTokens? : List Token → Option Statement
  | [.value (.word name), .symbol .equals, .value value] => some (setting name value)
  | .value (.word name) :: .symbol .openBracket :: rest => (attributes? rest).map (node name)
  | .value (.word source) :: .symbol .dash :: .symbol .greater :: .value (.word target) ::
      .symbol .openBracket :: rest => (attributes? rest).map (edge source target)
  | _ => none

/-- Reads statements, given the tokens between semicolons. A closing brace comes last. -/
def statements? : List (List Token) → Option (List Statement)
  | [] => none
  | [last] => if last = [.symbol .closeBrace] then some [] else none
  | first :: rest => (Statement.ofTokens? first).bind fun statement =>
    (statements? rest).map (statement :: ·)

/-- Reads a document. -/
def Document.ofTokens? : List Token → Option Document
  | .value (.word strict) :: .value (.word digraph) :: .value (.word name) ::
      .symbol .openBrace :: body =>
    if strict = "strict" ∧ digraph = "digraph" then
      (statements? (body.splitOn (.symbol .semicolon))).map (⟨name, ·⟩)
    else none
  | _ => none

/-- Reads the text of a document. -/
def read (text : String) : Option Document :=
  (tokens? text).bind Document.ofTokens?

/-- What a label is made of. -/
inductive Mark
  | char (c : Char)
  | lineEnd
  deriving DecidableEq, Repr

/-- Reads a label: a protected `l` ends a line, any other protected character stands for itself. -/
def marks : List Char → List Mark
  | '\\' :: c :: rest => (if c = 'l' then .lineEnd else .char c) :: marks rest
  | c :: rest => .char c :: marks rest
  | [] => []

theorem marks_cons_of_ne {c : Char} (h : c ≠ '\\') (rest : List Char) :
    marks (c :: rest) = .char c :: marks rest := by
  cases rest <;> simp [marks, h]

/-! ### Tokens and statements -/

/-- The tokens of attributes in brackets, after the opening one. -/
def attributeTokens : List Attribute → List Token
  | [] => []
  | [(name, value)] =>
    [.value (.word name), .symbol .equals, .value value, .symbol .closeBracket]
  | (name, value) :: rest =>
    .value (.word name) :: .symbol .equals :: .value value :: .symbol .comma :: attributeTokens rest

/-- The tokens of a statement. -/
def Statement.tokens : Statement → List Token
  | setting name value => [.value (.word name), .symbol .equals, .value value]
  | node name attributes =>
    .value (.word name) :: .symbol .openBracket :: attributeTokens attributes
  | edge source target attributes =>
    .value (.word source) :: .symbol .dash :: .symbol .greater :: .value (.word target) ::
      .symbol .openBracket :: attributeTokens attributes

/-- A statement and the semicolon that ends it. -/
def Statement.ended (statement : Statement) : List Token :=
  statement.tokens ++ [.symbol .semicolon]

/-- The tokens before the statements of a document. -/
def openingTokens (name : String) : List Token :=
  [.value (.word "strict"), .value (.word "digraph"), .value (.word name), .symbol .openBrace]

/-- The tokens of a document. -/
def Document.tokens (document : Document) : List Token :=
  openingTokens document.name ++ document.statements.flatMap Statement.ended ++
    [.symbol .closeBrace]

/-- A statement in which the brackets, if there are any, are not empty. -/
def Statement.IsFilled : Statement → Prop
  | setting .. => True
  | node _ attributes | edge _ _ attributes => attributes ≠ []

theorem attributes?_eq_some_iff {tokens : List Token} {attributes : List Attribute} :
    attributes? tokens = some attributes ↔
      attributes ≠ [] ∧ attributeTokens attributes = tokens := by
  constructor
  · intro h
    fun_induction attributes? tokens generalizing attributes with
    | case1 name value =>
      obtain rfl := Option.some.inj h
      exact ⟨List.cons_ne_nil _ _, rfl⟩
    | case2 name value rest ih =>
      obtain ⟨attributes, hrest, rfl⟩ := Option.map_eq_some_iff.1 h
      obtain ⟨hne, rfl⟩ := ih hrest
      obtain ⟨first, attributes, rfl⟩ := List.exists_cons_of_ne_nil hne
      exact ⟨List.cons_ne_nil _ _, rfl⟩
    | case3 => cases h
  · rintro ⟨hne, rfl⟩
    fun_induction attributeTokens attributes with
    | case1 => exact absurd rfl hne
    | case2 name value => rfl
    | case3 name value rest hrest ih =>
      rw [attributes?, ih hrest, Option.map_some]

theorem Statement.ofTokens?_eq_some_iff {tokens : List Token} {statement : Statement} :
    ofTokens? tokens = some statement ↔ statement.IsFilled ∧ statement.tokens = tokens := by
  constructor
  · intro h
    unfold ofTokens? at h
    split at h
    · obtain rfl := Option.some.inj h
      exact ⟨trivial, rfl⟩
    · obtain ⟨attributes, hattributes, rfl⟩ := Option.map_eq_some_iff.1 h
      obtain ⟨hne, rfl⟩ := attributes?_eq_some_iff.1 hattributes
      exact ⟨hne, rfl⟩
    · obtain ⟨attributes, hattributes, rfl⟩ := Option.map_eq_some_iff.1 h
      obtain ⟨hne, rfl⟩ := attributes?_eq_some_iff.1 hattributes
      exact ⟨hne, rfl⟩
    · cases h
  · rintro ⟨hfilled, rfl⟩
    cases statement with
    | setting name value => rfl
    | node name attributes =>
      rw [tokens, ofTokens?, attributes?_eq_some_iff.2 ⟨hfilled, rfl⟩, Option.map_some]
    | edge source target attributes =>
      rw [tokens, ofTokens?, attributes?_eq_some_iff.2 ⟨hfilled, rfl⟩, Option.map_some]

theorem statements?_eq_some_iff {groups : List (List Token)} {statements : List Statement} :
    statements? groups = some statements ↔ (∀ statement ∈ statements, statement.IsFilled) ∧
      statements.map Statement.tokens ++ [[.symbol .closeBrace]] = groups := by
  constructor
  · intro h
    fun_induction statements? groups generalizing statements with
    | case1 => cases h
    | case2 =>
      obtain rfl := Option.some.inj h
      exact ⟨nofun, rfl⟩
    | case3 => cases h
    | case4 first rest _ ih =>
      obtain ⟨statement, hfirst, h⟩ := Option.bind_eq_some_iff.1 h
      obtain ⟨statements, hrest, rfl⟩ := Option.map_eq_some_iff.1 h
      obtain ⟨hfilled, rfl⟩ := Statement.ofTokens?_eq_some_iff.1 hfirst
      obtain ⟨hall, rfl⟩ := ih hrest
      exact ⟨List.forall_mem_cons.2 ⟨hfilled, hall⟩, rfl⟩
  · rintro ⟨hall, rfl⟩
    induction statements with
    | nil => rfl
    | cons statement statements ih =>
      obtain ⟨hfilled, hall⟩ := List.forall_mem_cons.1 hall
      have hne : statements.map Statement.tokens ++ [[Token.symbol .closeBrace]] ≠ [] := by simp
      obtain ⟨group, groups, hgroups⟩ := List.exists_cons_of_ne_nil hne
      rw [List.map_cons, List.cons_append, hgroups, statements?, ← hgroups, ih hall,
        Statement.ofTokens?_eq_some_iff.2 ⟨hfilled, rfl⟩]
      · rfl
      · exact nofun

/-- No semicolon stands inside a statement. -/
theorem Statement.semicolon_not_mem_tokens (statement : Statement) :
    Token.symbol .semicolon ∉ statement.tokens := by
  have hattributes (attributes : List Attribute) :
      Token.symbol .semicolon ∉ attributeTokens attributes := by
    fun_induction attributeTokens attributes with
    | case1 => exact List.not_mem_nil
    | case2 name value => simp
    | case3 name value rest _ ih => simp [ih]
  cases statement <;> simp [tokens, hattributes]

/-- Between the semicolons of a document stand its statements. -/
theorem splitOn_flatMap_ended (statements : List Statement) :
    (statements.flatMap Statement.ended ++ [Token.symbol .closeBrace]).splitOn
        (.symbol .semicolon) =
      statements.map Statement.tokens ++ [[.symbol .closeBrace]] := by
  have hjoined : statements.flatMap Statement.ended ++ [.symbol .closeBrace] =
      [.symbol .semicolon].intercalate
        (statements.map Statement.tokens ++ [[.symbol .closeBrace]]) := by
    induction statements with
    | nil => rfl
    | cons statement statements ih =>
      have hne : statements.map Statement.tokens ++ [[Token.symbol .closeBrace]] ≠ [] := by simp
      rw [List.flatMap_cons, List.append_assoc, ih, List.map_cons, List.cons_append,
        List.intercalate_cons_of_ne_nil hne, Statement.ended]
  rw [hjoined, List.splitOn_intercalate]
  · intro group hgroup hmem
    rcases List.mem_append.1 hgroup with hgroup | hgroup
    · obtain ⟨statement, -, rfl⟩ := List.mem_map.1 hgroup
      exact statement.semicolon_not_mem_tokens hmem
    · rw [List.mem_singleton.1 hgroup] at hmem
      cases List.mem_singleton.1 hmem
  · simp

/-- A document whose brackets are not empty is read from its tokens, and from no others. -/
theorem Document.ofTokens?_eq_some_iff {tokens : List Token} {document : Document} :
    ofTokens? tokens = some document ↔
      (∀ statement ∈ document.statements, statement.IsFilled) ∧ document.tokens = tokens := by
  constructor
  · intro h
    unfold ofTokens? at h
    split at h
    · split at h
      · rename_i hname
        obtain ⟨statements, hstatements, rfl⟩ := Option.map_eq_some_iff.1 h
        obtain ⟨hfilled, hgroups⟩ := statements?_eq_some_iff.1 hstatements
        refine ⟨hfilled, ?_⟩
        have hbody := congrArg (List.intercalate [Token.symbol .semicolon]) hgroups
        rw [List.intercalate_splitOn, ← splitOn_flatMap_ended, List.intercalate_splitOn] at hbody
        rw [Document.tokens, List.append_assoc, hbody, hname.1, hname.2]
        rfl
      · cases h
    · cases h
  · rintro ⟨hfilled, rfl⟩
    have hhead (name : String) (body : List Token) :
        ofTokens? (openingTokens name ++ body) =
          (statements? (body.splitOn (.symbol .semicolon))).map (⟨name, ·⟩) := by
      simp [openingTokens, ofTokens?]
    rw [Document.tokens, List.append_assoc, hhead, splitOn_flatMap_ended,
      statements?_eq_some_iff.2 ⟨hfilled, rfl⟩]
    rfl

/-- The tokens from which a document is read. -/
theorem read_eq_some_iff {text : String} {document : Document} :
    read text = some document ↔ (∀ statement ∈ document.statements, statement.IsFilled) ∧
      tokens? text = some document.tokens := by
  rw [read, Option.bind_eq_some_iff]
  constructor
  · rintro ⟨tokens, htokens, hdocument⟩
    obtain ⟨hfilled, rfl⟩ := Document.ofTokens?_eq_some_iff.1 hdocument
    exact ⟨hfilled, htokens⟩
  · rintro ⟨hfilled, htokens⟩
    exact ⟨_, htokens, Document.ofTokens?_eq_some_iff.2 ⟨hfilled, rfl⟩⟩

namespace Lexer

variable {chars text : List Char} {tokens all : List Token}

theorem run_append (s : Lexer) (first second : List Char) :
    s.run (first ++ second) = (s.run first).run second :=
  List.foldl_append

/-- A word is read up to its end. -/
theorem run_word (h : ∀ c ∈ text, isOrdinary c = true) :
    run ⟨.word chars, tokens⟩ text = ⟨.word (text.reverse ++ chars), tokens⟩ := by
  induction text generalizing chars with
  | nil => rfl
  | cons c text ih =>
    obtain ⟨hc, htext⟩ := List.forall_mem_cons.1 h
    have hstep : step ⟨.word chars, tokens⟩ c = ⟨.word (c :: chars), tokens⟩ := by
      rw [step]
      exact if_pos hc
    rw [run, List.foldl_cons, hstep, List.reverse_cons, List.append_assoc]
    exact ih htext

end Lexer

/-- Whether all quotes in a text are protected, and no backslash at its end protects what follows
it. -/
def isEnclosed : List Char → Bool
  | '\\' :: _ :: rest => isEnclosed rest
  | c :: rest => c != '\\' && c != '"' && isEnclosed rest
  | [] => true

theorem isEnclosed_cons_of_ne {c : Char} (h : c ≠ '\\') (rest : List Char) :
    isEnclosed (c :: rest) = (c != '"' && isEnclosed rest) := by
  cases rest <;> rw [isEnclosed, bne_iff_ne.2 h, Bool.true_and] <;> simp [h]

theorem isEnclosed_append {first : List Char} (h : isEnclosed first = true) (second : List Char) :
    isEnclosed (first ++ second) = isEnclosed second := by
  fun_induction isEnclosed first with
  | case1 c rest ih => exact ih h
  | case2 c rest _ ih =>
    simp only [Bool.and_eq_true, bne_iff_ne] at h
    rw [List.cons_append, isEnclosed_cons_of_ne h.1.1, ih h.2, bne_iff_ne.2 h.1.2, Bool.true_and]
  | case3 => rfl

namespace Lexer

variable {chars text : List Char} {tokens all : List Token}

/-- A text in which all quotes are protected is read up to its end. -/
theorem run_quoted (h : isEnclosed text = true) :
    run ⟨.quoted chars, tokens⟩ text = ⟨.quoted (text.reverse ++ chars), tokens⟩ := by
  fun_induction isEnclosed text generalizing chars with
  | case1 c rest ih =>
    rw [List.reverse_cons, List.reverse_cons, List.append_assoc, List.append_assoc]
    exact ih h
  | case2 c rest _ ih =>
    simp only [Bool.and_eq_true, bne_iff_ne] at h
    have hstep : step ⟨.quoted chars, tokens⟩ c = ⟨.quoted (c :: chars), tokens⟩ := by
      simp only [step, if_neg h.1.2, if_neg h.1.1]
    rw [run, List.foldl_cons, hstep, List.reverse_cons, List.append_assoc]
    exact ih h.2
  | case3 => rfl

theorem tokens_suffix_start (tokens : List Token) (c : Char) :
    tokens <:+ (start tokens c).tokens := by
  unfold start
  split
  · exact List.suffix_refl tokens
  · split
    · exact List.suffix_cons _ tokens
    · split <;> exact List.suffix_refl tokens

theorem tokens_suffix_step (s : Lexer) (c : Char) : s.tokens <:+ (s.step c).tokens := by
  unfold step
  split
  · exact tokens_suffix_start s.tokens c
  · split
    · exact List.suffix_refl s.tokens
    · exact (List.suffix_cons _ s.tokens).trans (tokens_suffix_start _ c)
  · split
    · exact List.suffix_cons _ s.tokens
    · split <;> exact List.suffix_refl s.tokens
  · exact List.suffix_refl s.tokens

/-- What was read stays. -/
theorem tokens_suffix_run (s : Lexer) (text : List Char) : s.tokens <:+ (s.run text).tokens := by
  induction text generalizing s with
  | nil => exact List.suffix_refl s.tokens
  | cons c text ih => exact (s.tokens_suffix_step c).trans (ih (s.step c))

/-- The tokens of a text begin with those that were read before its end. -/
theorem prefix_of_finish_run {s : Lexer} (h : (s.run text).finish = some all) :
    s.tokens.reverse <+: all := by
  have hrun := List.reverse_prefix.2 (s.tokens_suffix_run text)
  refine hrun.trans ?_
  unfold finish at h
  split at h
  · obtain rfl := Option.some.inj h
    exact List.prefix_refl _
  · obtain rfl := Option.some.inj h
    rw [List.reverse_cons]
    exact List.prefix_append _ _
  · cases h
  · cases h

end Lexer

end FlowGraph.Dot
