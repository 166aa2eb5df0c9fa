import FlowGraph.Proofs.Syntax.Token

/-!
# Reading expressions back

An expression is read from its tokens, one at a time and without looking ahead. Between two
parentheses the reader keeps the assignments that were begun and the operand or operator that was
read last, and for each open parenthesis it keeps what it had read before it. Whatever expression
was written is what is read, so different expressions have different texts.

## Main definitions

* `Syntax.Level`: what was read since the last parenthesis or comma
* `Syntax.Reader`: a reader in the middle of an expression
* `Syntax.read?`: read a text

## Main results

* `Node.IsSpelled.isReadable`: which levels the tokens of an expression lead to
* `Node.read?_text`: the text of an expression is read as that expression
* `Node.text_eq_text_iff`: different expressions have different texts
-/

namespace FlowGraph

namespace Syntax

/-- What was read last. -/
inductive Phase
  | start
  /-- An operator in front of the operand that is to come. -/
  | prefixed (op : Operator.Unary)
  | operand (node : Node)
  /-- An operand and an operator behind it, before the operand that is to come. -/
  | infixed (left : Node) (op : Operator.Binary)

/-- Reads an operand. There is no room for one directly after another. -/
def Phase.put? (phase : Phase) (node : Node) : Option Phase :=
  match phase with
  | start => some (operand node)
  | prefixed op => some (operand (.unary op node))
  | infixed left op => some (operand (.binary op left node))
  | operand _ => none

/-- What was read since the last parenthesis or comma. -/
structure Level where
  /-- The target of the assignment whose value is being read. -/
  target : Option (Node × Operator.Assign) := none
  phase : Phase := .start

namespace Level

/-- Reads an operand. -/
def put? (level : Level) (node : Node) : Option Level :=
  (level.phase.put? node).map fun phase => { level with phase }

/-- The expression that was read, if it ends here. -/
def finish? : Level → Option Node
  | ⟨none, .operand node⟩ => some node
  | ⟨some (target, op), .operand node⟩ => some (.assignment op target node)
  | _ => none

/-- Reads an operator behind an operand. Behind that of an assignment, what was read so far is the
target of the next one. -/
def continue? (level : Level) (node : Node) (spelling : String) : Option Level :=
  -- An operator behind an operand completes it, and another one may follow.
  if spelling = "++" then some { level with phase := .operand (.unary .postInc node) }
  else if spelling = "--" then some { level with phase := .operand (.unary .postDec node) }
  else match Operator.Binary.ofSpelling? spelling with
    | some op => some { level with phase := .infixed node op }
    | none => (Operator.Assign.ofSpelling? spelling).bind fun op =>
      level.finish?.map fun target => { target := some (target, op) }

/-- Reads an operator, which stands behind an operand or at the beginning. -/
def operate? (level : Level) (spelling : String) : Option Level :=
  match level.phase with
  | .start => (Operator.Unary.ofSpelling? spelling).map fun op =>
    { level with phase := .prefixed op }
  | .operand node => level.continue? node spelling
  | _ => none

end Level

/-- An open parenthesis. -/
structure Frame where
  /-- What was read before it. -/
  level : Level
  /-- The name directly before it. -/
  callee : List Char
  /-- The arguments that were read behind it. -/
  args : List Node := []

/-- A reader in the middle of an expression. -/
structure Reader where
  level : Level := {}
  /-- The open parentheses, the last one first. -/
  frames : List Frame := []

/-- The expression that is written as a single word. -/
def leaf (chars : List Char) : Node :=
  if chars.head?.any Char.isDigit then .constant "int" (.ofList chars) else .ident (.ofList chars)

/-- The expression that is written with `args` in parentheses and a name before them. Without a name
the parentheses are around an operand or a value. -/
def enclosed? (callee : List Char) (args : List Node) : Option Node :=
  if callee = [] then args.head?.filter fun _ => args.length = 1
  else if callee = "sizeof".toList then
    (args.head?.filter fun _ => args.length = 1).map (.unary .sizeof)
  else some (.call (.ofList callee) args)

namespace Frame

/-- The arguments, when the last one ends with a level. There need not be any. -/
def finish? (frame : Frame) : Level → Option (List Node)
  | ⟨none, .start⟩ => if frame.args = [] then some [] else none
  | level => level.finish?.map fun arg => frame.args ++ [arg]

/-- Reads a closing parenthesis. -/
def close? (frame : Frame) (level : Level) : Option Level :=
  (frame.finish? level).bind fun args => (enclosed? frame.callee args).bind frame.level.put?

end Frame

namespace Reader

/-- Reads a token. -/
def step (r : Reader) : Token → Option Reader
  | .blank => some r
  | .word chars => (r.level.put? (leaf chars)).map fun level => { r with level }
  | .operator chars => (r.level.operate? (.ofList chars)).map fun level => { r with level }
  | .opening callee => some { frames := { level := r.level, callee } :: r.frames }
  | .comma =>
    -- The parenthesis stays open, and the next argument begins as an expression of its own.
    match r.frames with
    | [] => none
    | frame :: frames => r.level.finish?.map fun arg =>
      { frames := { frame with args := frame.args ++ [arg] } :: frames }
  | .closing =>
    match r.frames with
    | [] => none
    | frame :: frames => (frame.close? r.level).map fun level => { level, frames }

/-- Reads tokens one after the other. -/
def run (r : Reader) (tokens : List Token) : Option Reader :=
  tokens.foldlM step r

/-- The expression that was read, if no parenthesis is open. -/
def finish? (r : Reader) : Option Node :=
  match r.frames with
  | [] => r.level.finish?
  | _ => none

end Reader

/-- Reads the text of an expression. -/
def read? (text : String) : Option Node :=
  (Reader.run {} (lex text.toList)).bind Reader.finish?

/-- Tokens that lead from one level to another, whatever parentheses are open. -/
def Leads (before : Level) (tokens : List Token) (after : Level) : Prop :=
  ∀ frames, Reader.run ⟨before, frames⟩ tokens = some ⟨after, frames⟩

namespace Level

/-- The level at the end of an expression. -/
def of : Node → Level
  | .assignment op target value => ⟨some (target, op), .operand value⟩
  | node => ⟨none, .operand node⟩

theorem of_eq {node : Node} (h : node.isAssignment = false) : of node = ⟨none, .operand node⟩ := by
  cases node <;> first | rfl | cases h

@[simp] theorem finish?_of (node : Node) : (of node).finish? = some node := by
  cases node <;> rfl

theorem frame_finish?_of (frame : Frame) (node : Node) :
    frame.finish? (of node) = some (frame.args ++ [node]) := by
  cases node <;> rfl

end Level

theorem Reader.run_append (r : Reader) (tokens tokens' : List Token) :
    r.run (tokens ++ tokens') = (r.run tokens).bind (·.run tokens') :=
  List.foldlM_append

namespace Leads

variable {before middle after level level' : Level} {tokens tokens' : List Token}

theorem append (hfirst : Leads before tokens middle) (hsecond : Leads middle tokens' after) :
    Leads before (tokens ++ tokens') after := by
  intro frames
  rw [Reader.run_append, hfirst frames]
  exact hsecond frames

theorem blank (level : Level) : Leads level [.blank] level :=
  fun _ => rfl

theorem word {chars : List Char} (h : level.put? (leaf chars) = some level') :
    Leads level [.word chars] level' := by
  intro frames
  simp [Reader.run, Reader.step, h]

theorem operator {chars : List Char} (h : level.operate? (.ofList chars) = some level') :
    Leads level [.operator chars] level' := by
  intro frames
  simp [Reader.run, Reader.step, h]

end Leads

end Syntax

namespace Node

open Syntax

/-- An expression whose tokens are read as the expression: as a whole, as the value of any
assignment unless it is one itself, and as an operand wherever there is room for one. -/
structure IsReadable (node : Node) : Prop where
  whole : Leads {} node.tokens (.of node)
  value : node.isAssignment = false →
    ∀ target, Leads ⟨target, .start⟩ node.tokens ⟨target, .operand node⟩
  operand : ∀ {level level' : Level}, level.put? node = some level' →
    Leads level (wrapTokens (!node.isSimple) node.tokens) level'

/-- Behind an opening parenthesis, expressions with commas between them are read up to the closing
parenthesis. -/
theorem run_args {nodes args : List Node} {level : Level} {callee : List Char}
    {frames : List Frame} (h : ∀ node ∈ nodes, Leads {} node.tokens (.of node))
    (hargs : nodes = [] → args = []) :
    Reader.run ⟨{}, ⟨level, callee, args⟩ :: frames⟩
        ([Token.comma, Token.blank].intercalate (tokensAll nodes) ++ [.closing]) =
      ((enclosed? callee (args ++ nodes)).bind level.put?).map fun level => ⟨level, frames⟩ := by
  -- The arguments that were read grow as the list of those that are to come gets shorter.
  induction nodes generalizing args with
  | nil =>
    obtain rfl := hargs rfl
    simp [tokensAll, Reader.run, Reader.step, Frame.close?, Frame.finish?]
  | cons node rest ih =>
    obtain ⟨hnode, hrest⟩ := List.forall_mem_cons.1 h
    cases rest with
    | nil =>
      rw [tokensAll, tokensAll, List.intercalate_singleton, Reader.run_append, hnode]
      simp [Reader.run, Reader.step, Frame.close?, Level.frame_finish?_of]
    | cons next rest =>
      have hcomma : Reader.run ⟨.of node, ⟨level, callee, args⟩ :: frames⟩ [.comma, .blank] =
          some ⟨{}, ⟨level, callee, args ++ [node]⟩ :: frames⟩ := by
        simp [Reader.run, Reader.step]
      have hlater : Reader.run ⟨{}, ⟨level, callee, args ++ [node]⟩ :: frames⟩ _ = _ :=
        ih hrest fun hnil => absurd hnil (List.cons_ne_nil next rest)
      rw [tokensAll] at hlater
      rw [tokensAll, tokensAll, List.intercalate_cons_cons, List.append_assoc, List.append_assoc,
        Reader.run_append, hnode, Option.bind_some, Reader.run_append, hcomma, Option.bind_some,
        hlater, List.append_assoc, List.singleton_append]

theorem leads_call {nodes : List Node} {level level' : Level} {callee : List Char}
    (h : ∀ node ∈ nodes, Leads {} node.tokens (.of node))
    (henclosed : (enclosed? callee nodes).bind level.put? = some level') :
    Leads level ([.opening callee] ++ [Token.comma, Token.blank].intercalate (tokensAll nodes) ++
      [.closing]) level' := by
  intro frames
  have hopening : Reader.run ⟨level, frames⟩ [.opening callee] =
      some ⟨{}, ⟨level, callee, []⟩ :: frames⟩ := rfl
  rw [List.append_assoc, Reader.run_append, hopening, Option.bind_some, run_args h fun _ => rfl,
    List.nil_append, henclosed, Option.map_some]

/-- An expression in parentheses. -/
theorem leads_enclosed {node : Node} {level level' : Level} {callee : List Char}
    (h : Leads {} node.tokens (.of node))
    (henclosed : (enclosed? callee [node]).bind level.put? = some level') :
    Leads level ([.opening callee] ++ node.tokens ++ [.closing]) level' := by
  have hcall := leads_call (List.forall_mem_singleton.2 h) henclosed
  rwa [tokensAll, tokensAll, List.intercalate_singleton] at hcall

namespace IsReadable

variable {node : Node}

theorem of_isSimple (h : node.isSimple = true)
    (hlevel : ∀ {level level' : Level}, level.put? node = some level' →
      Leads level node.tokens level') : node.IsReadable := by
  have hassignment : node.isAssignment = false := by
    cases node <;> first | rfl | cases h
  exact {
    whole := by
      rw [Level.of_eq hassignment]
      exact hlevel rfl
    value := fun _ _ => hlevel rfl
    operand := fun hput => by
      rw [h]
      exact hlevel hput }

theorem of_whole (h : node.isSimple = false) (hwhole : Leads {} node.tokens (.of node))
    (hvalue : node.isAssignment = false →
      ∀ target, Leads ⟨target, .start⟩ node.tokens ⟨target, .operand node⟩) :
    node.IsReadable where
  whole := hwhole
  value := hvalue
  operand := fun hput => by
    rw [h]
    exact leads_enclosed hwhole hput

/-- An expression that is neither an assignment nor an operand as it stands. -/
theorem of_value (hsimple : node.isSimple = false) (hassignment : node.isAssignment = false)
    (hvalue : ∀ target, Leads ⟨target, .start⟩ node.tokens ⟨target, .operand node⟩) :
    node.IsReadable :=
  of_whole hsimple (by rw [Level.of_eq hassignment]; exact hvalue none) fun _ => hvalue

/-- The value of an assignment is in parentheses if it is an assignment itself. -/
theorem assigned (h : node.IsReadable) (target : Option (Node × Operator.Assign)) :
    Leads ⟨target, .start⟩ (wrapTokens node.isAssignment node.tokens)
      ⟨target, .operand node⟩ := by
  cases hassignment : node.isAssignment with
  | false => exact h.value hassignment target
  | true => exact leads_enclosed h.whole rfl

end IsReadable

/-- Letters come after the digits. -/
private theorem isDigit_eq_false_of_isAlpha {c : Char} (h : c.isAlpha = true) :
    c.isDigit = false := by
  have hletter : 'A'.val ≤ c.val := by
    rcases Bool.or_eq_true_iff.1 h with hupper | hlower
    · exact (of_decide_eq_true hupper).1
    · have hlower : 'a'.val ≤ c.val := of_decide_eq_true (Bool.and_eq_true_iff.1 hlower).1
      exact UInt32.le_trans (by decide) hlower
  rw [Bool.eq_false_iff]
  intro hdigit
  have hlast : c.val ≤ '9'.val := of_decide_eq_true (Bool.and_eq_true_iff.1 hdigit).2
  exact absurd (UInt32.le_trans hletter hlast) (by decide)

/-- No name begins with a digit. -/
theorem leaf_of_isName {name : String} (h : isName name = true) :
    leaf name.toList = ident name := by
  unfold isName at h
  split at h
  · cases h
  · rename_i first rest hname
    simp only [Bool.and_eq_true, Bool.or_eq_true, beq_iff_eq] at h
    have hfirst : first.isDigit = false := by
      rcases h.1.1 with halpha | rfl
      · exact isDigit_eq_false_of_isAlpha halpha
      · rfl
    rw [leaf, String.ofList_toList, hname]
    simp [hfirst]

theorem leaf_toString (n : Nat) : leaf (toString (n : Int)).toList = int n := by
  obtain ⟨first, rest, hdigits⟩ := List.exists_cons_of_ne_nil (toList_toString_ne_nil n)
  have hfirst : first.isDigit = true :=
    isDigit_of_mem_toString (hdigits ▸ List.mem_cons_self)
  rw [leaf, String.ofList_toList, hdigits, int]
  simp [hfirst]

theorem enclosed?_of_isName {callee : String} (h : isName callee = true) (args : List Node) :
    enclosed? callee.toList args = some (call callee args) := by
  have hsizeof : callee.toList ≠ "sizeof".toList := by
    intro heq
    rw [String.toList_inj.1 heq] at h
    exact absurd h (by decide)
  rw [enclosed?, if_neg (isNameChar_of_isName h).1, if_neg hsizeof, String.ofList_toList]

section Operators

variable (target : Option (Node × Operator.Assign)) (node : Node)

theorem leads_binary (op : Operator.Binary) :
    Leads ⟨target, .operand node⟩ [.operator op.spelling.toList] ⟨target, .infixed node op⟩ := by
  refine Leads.operator ?_
  rw [String.ofList_toList]
  cases op <;> rfl

theorem leads_assign (op : Operator.Assign) :
    Leads (.of node) [.operator op.spelling.toList] ⟨some (node, op), .start⟩ := by
  obtain ⟨value, hphase⟩ : ∃ value, (Level.of node).phase = .operand value := by
    cases node <;> exact ⟨_, rfl⟩
  refine Leads.operator ?_
  rw [String.ofList_toList, Level.operate?, hphase]
  -- The spelling is none of the operators that are tried first.
  cases op <;> exact congrArg (Option.map _) (Level.finish?_of node)

end Operators

theorem IsSpelled.isReadable {node : Node} (h : node.IsSpelled) : node.IsReadable := by
  induction h with
  | ident hname =>
    refine .of_isSimple rfl fun hput => .word ?_
    rwa [leaf_of_isName hname]
  | @constant type value hvalue =>
    obtain ⟨n, hn⟩ := hvalue
    obtain ⟨rfl, rfl⟩ := Node.constant.inj hn
    refine .of_isSimple rfl fun hput => .word ?_
    rwa [leaf_toString]
  | @call callee args hcallee _ ih =>
    refine .of_isSimple rfl fun hput => ?_
    rw [tokens]
    refine leads_call (fun arg harg => (ih arg harg).whole) ?_
    rwa [enclosed?_of_isName hcallee, Option.bind_some]
  | @binary op left right _ _ hleft hright =>
    refine .of_value rfl rfl fun target => ?_
    rw [tokens]
    exact ((((hleft.operand rfl).append (.blank _)).append (leads_binary target left op)).append
      (.blank _)).append (hright.operand rfl)
  | @unary op operand _ ih =>
    refine .of_value rfl rfl fun target => ?_
    cases op with
    | postInc => exact (ih.operand rfl).append (.operator rfl)
    | postDec => exact (ih.operand rfl).append (.operator rfl)
    | sizeof => exact leads_enclosed ih.whole rfl
    | _ => exact (Leads.operator rfl).append (ih.operand rfl)
  | @assignment op target value _ _ htarget hvalue =>
    refine .of_whole rfl ?_ fun hassignment => Bool.noConfusion hassignment
    rw [tokens]
    -- The target is read as a whole, since an assignment stands there without parentheses.
    exact (((htarget.whole.append (.blank _)).append (leads_assign target op)).append
      (.blank _)).append (hvalue.assigned _)

/-- The text of an expression is read as that expression. -/
theorem read?_text {node : Node} (h : node.IsSpelled) : read? node.text = some node := by
  rw [read?, lex_text h, h.isReadable.whole, Option.bind_some, Reader.finish?]
  exact Level.finish?_of node

/-- Two expressions over names and natural numbers have the same text only if they are the same
expression, however operators, calls and assignments are nested in them. -/
theorem text_eq_text_iff {node node' : Node} (h : node.IsSpelled) (h' : node'.IsSpelled) :
    node.text = node'.text ↔ node = node' := by
  constructor
  · intro htext
    have hread := read?_text h
    rw [htext, read?_text h'] at hread
    exact (Option.some.inj hread).symm
  · exact congrArg text

/-- An assignment to an assignment of the negation of a decrement. -/
private def leftwards : Node :=
  assignment .subAssign (assignment .assign (ident "a") (ident "b"))
    (unary .neg (unary .preDec (ident "c")))

/-- An assignment of an assignment of the decrement of a negation. -/
private def rightwards : Node :=
  assignment .assign (ident "a")
    (assignment .subAssign (ident "b") (unary .preDec (unary .neg (ident "c"))))

theorem text_eq_text_iff_decrementing :
    leftwards.IsSpelled ∧ rightwards.IsSpelled ∧ leftwards.text = "a = b -= -(--c)" ∧
      rightwards.text = "a = (b -= --(-c))" ∧
      (leftwards.text = rightwards.text ↔ leftwards = rightwards) := by
  have hleftwards : leftwards.IsSpelled :=
    .assignment (.assignment (.ident rfl) (.ident rfl)) (.unary (.unary (.ident rfl)))
  have hrightwards : rightwards.IsSpelled :=
    .assignment (.ident rfl) (.assignment (.ident rfl) (.unary (.unary (.ident rfl))))
  exact ⟨hleftwards, hrightwards, by decide, by decide, text_eq_text_iff hleftwards hrightwards⟩

end Node

end FlowGraph
