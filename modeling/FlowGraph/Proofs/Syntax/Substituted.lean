import FlowGraph.Proofs.Ssa.Definition
import FlowGraph.Proofs.Syntax.Expression
import Mathlib.Logic.Function.Basic

/-!
# Substitution is simultaneous

A substitution replaces the identifiers that it reaches, each by the answer to its own name, and
leaves the rest of a tree as it is. This determines it: no other tree differs from the one before in
those identifiers only and has the answers in their places. So two substitutions in a row are one,
with the look-ups composed, and a renaming that keeps names apart can be undone.

## Main definitions

* `Node.Resembles`: trees that differ at most in identifiers that a substitution reaches
* `Node.composed`: two look-ups, one after the other

## Main results

* `Node.substitute_eq_iff`: which tree a substitution makes
* `Node.substitute_substitute`: two substitutions in a row
* `Node.substitute_isSimultaneous`: what substitution is, for one tree
-/

namespace FlowGraph.Node

mutual

/-- Two trees that are the same but for identifiers in initial values, on both sides of assignments,
in operands, in returned values and in arguments of calls. -/
inductive Resembles : Node → Node → Prop
  | same (node : Node) : Resembles node node
  | ident (name name' : String) : Resembles (ident name) (ident name')
  | declaration {name type : String} {init init' : Option Node}
    (hinit : ResemblesOptional init init') :
    Resembles (declaration name type init) (declaration name type init')
  | assignment {op : Operator.Assign} {target target' value value' : Node}
    (htarget : Resembles target target') (hvalue : Resembles value value') :
    Resembles (assignment op target value) (assignment op target' value')
  | binary {op : Operator.Binary} {left left' right right' : Node}
    (hleft : Resembles left left') (hright : Resembles right right') :
    Resembles (binary op left right) (binary op left' right')
  | unary {op : Operator.Unary} {operand operand' : Node} (h : Resembles operand operand') :
    Resembles (unary op operand) (unary op operand')
  | ret {value value' : Option Node} (h : ResemblesOptional value value') :
    Resembles (ret value) (ret value')
  | call {callee : String} {args args' : List Node} (h : ResemblesAll args args') :
    Resembles (call callee args) (call callee args')

/-- The same for children that may be absent. -/
inductive ResemblesOptional : Option Node → Option Node → Prop
  | none : ResemblesOptional none none
  | some {node node' : Node} (h : Resembles node node') :
    ResemblesOptional (some node) (some node')

/-- The same for the nodes of two lists. -/
inductive ResemblesAll : List Node → List Node → Prop
  | nil : ResemblesAll [] []
  | cons {node node' : Node} {rest rest' : List Node} (h : Resembles node node')
    (hrest : ResemblesAll rest rest') : ResemblesAll (node :: rest) (node' :: rest')

end

/-! ### What a substitution makes of a tree -/

section Determined

variable {lookup : String → Option String}

mutual

/-- Trees that resemble each other have equally many identifiers that a substitution reaches. -/
theorem Resembles.length_reached {node node' : Node} :
    Resembles node node' → node'.reached.length = node.reached.length
  | .same _ => rfl
  | .ident _ _ => rfl
  | .declaration hinit => by
    rw [reached, reached, hinit.length_reached]
  | .assignment htarget hvalue => by
    rw [reached, reached, List.length_append, List.length_append, htarget.length_reached,
      hvalue.length_reached]
  | .binary hleft hright => by
    rw [reached, reached, List.length_append, List.length_append, hleft.length_reached,
      hright.length_reached]
  | .unary h => by
    rw [reached, reached, h.length_reached]
  | .ret h => by
    rw [reached, reached, h.length_reached]
  | .call h => by
    rw [reached, reached, h.length_reached]

theorem ResemblesOptional.length_reached {node node' : Option Node} :
    ResemblesOptional node node' →
      (reachedOptional node').length = (reachedOptional node).length
  | .none => rfl
  | .some h => by
    rw [reachedOptional, reachedOptional, h.length_reached]

theorem ResemblesAll.length_reached {nodes nodes' : List Node} :
    ResemblesAll nodes nodes' → (reachedAll nodes').length = (reachedAll nodes).length
  | .nil => rfl
  | .cons h hrest => by
    rw [reachedAll, reachedAll, List.length_append, List.length_append, h.length_reached,
      hrest.length_reached]

end

mutual

theorem resembles_substitute : (node : Node) → Resembles node (node.substitute lookup)
  | declaration _ _ init => by
    rw [substitute]
    exact .declaration (resemblesOptional_substitute init)
  | assignment _ target value => by
    rw [substitute]
    exact .assignment (resembles_substitute target) (resembles_substitute value)
  | binary _ left right => by
    rw [substitute]
    exact .binary (resembles_substitute left) (resembles_substitute right)
  | unary _ operand => by
    rw [substitute]
    exact .unary (resembles_substitute operand)
  | ret value => by
    rw [substitute]
    exact .ret (resemblesOptional_substitute value)
  | call _ args => by
    rw [substitute]
    exact .call (resemblesAll_substitute args)
  | ident name => .ident name _
  | function .. | declarator .. | parameters .. | compound .. | branch .. | whileLoop ..
  | forLoop .. | jump .. | constant .. => .same _

theorem resemblesOptional_substitute : (node : Option Node) →
    ResemblesOptional node (substituteOptional lookup node)
  | none => .none
  | some node => by
    rw [substituteOptional]
    exact .some (resembles_substitute node)

theorem resemblesAll_substitute : (nodes : List Node) →
    ResemblesAll nodes (substituteAll lookup nodes)
  | [] => .nil
  | node :: rest => by
    rw [substituteAll]
    exact .cons (resembles_substitute node) (resemblesAll_substitute rest)

end

mutual

/-- A substitution that answers with the names that it is asked for changes nothing. -/
theorem substitute_eq_self : (node : Node) →
    (∀ name ∈ node.reached, (lookup name).getD name = name) → node.substitute lookup = node
  | declaration _ _ init, h => by
    rw [reached] at h
    rw [substitute, substituteOptional_eq_self init h]
  | assignment _ target value, h => by
    rw [reached, List.forall_mem_append] at h
    rw [substitute, substitute_eq_self target h.1, substitute_eq_self value h.2]
  | binary _ left right, h => by
    rw [reached, List.forall_mem_append] at h
    rw [substitute, substitute_eq_self left h.1, substitute_eq_self right h.2]
  | unary _ operand, h => by
    rw [reached] at h
    rw [substitute, substitute_eq_self operand h]
  | ret value, h => by
    rw [reached] at h
    rw [substitute, substituteOptional_eq_self value h]
  | call _ args, h => by
    rw [reached] at h
    rw [substitute, substituteAll_eq_self args h]
  | ident name, h => by
    rw [reached, List.forall_mem_singleton] at h
    rw [substitute, h]
  | function .., _ | declarator .., _ | parameters .., _ | compound .., _ | branch .., _
  | whileLoop .., _ | forLoop .., _ | jump .., _ | constant .., _ => rfl

theorem substituteOptional_eq_self : (node : Option Node) →
    (∀ name ∈ reachedOptional node, (lookup name).getD name = name) →
      substituteOptional lookup node = node
  | none, _ => rfl
  | some node, h => by
    rw [reachedOptional] at h
    rw [substituteOptional, substitute_eq_self node h]

theorem substituteAll_eq_self : (nodes : List Node) →
    (∀ name ∈ reachedAll nodes, (lookup name).getD name = name) →
      substituteAll lookup nodes = nodes
  | [], _ => rfl
  | node :: rest, h => by
    rw [reachedAll, List.forall_mem_append] at h
    rw [substituteAll, substitute_eq_self node h.1, substituteAll_eq_self rest h.2]

end

/-- Where two lists are put together from parts that answer to each other, so do the parts. -/
private theorem eq_map_of_append_eq_map {f : String → String}
    {first second first' second' : List String} (hlength : first'.length = first.length)
    (h : first' ++ second' = (first ++ second).map f) :
    first' = first.map f ∧ second' = second.map f := by
  rw [List.map_append] at h
  exact List.append_inj h (by rw [hlength, List.length_map])

mutual

/-- A tree that resembles another one and has the answers in the right places is what the
substitution makes of it. -/
theorem Resembles.substitute_eq {node node' : Node} : Resembles node node' →
    node'.reached = node.reached.map (fun name => (lookup name).getD name) →
      node.substitute lookup = node'
  | .same node, h => by
    -- Each identifier stands where its answer stands, so that they are the same.
    have hid : (node.reached.map fun name => (lookup name).getD name) = node.reached.map id := by
      rw [List.map_id, ← h]
    exact substitute_eq_self node (List.map_eq_map_iff.1 hid)
  | .ident name name', h => by
    rw [reached, reached, List.map_singleton, List.singleton_inj] at h
    rw [substitute, h]
  | .declaration hinit, h => by
    rw [reached, reached] at h
    rw [substitute, hinit.substitute_eq h]
  | .assignment htarget hvalue, h => by
    rw [reached, reached] at h
    obtain ⟨hfirst, hsecond⟩ := eq_map_of_append_eq_map htarget.length_reached h
    rw [substitute, htarget.substitute_eq hfirst, hvalue.substitute_eq hsecond]
  | .binary hleft hright, h => by
    rw [reached, reached] at h
    obtain ⟨hfirst, hsecond⟩ := eq_map_of_append_eq_map hleft.length_reached h
    rw [substitute, hleft.substitute_eq hfirst, hright.substitute_eq hsecond]
  | .unary hoperand, h => by
    rw [reached, reached] at h
    rw [substitute, hoperand.substitute_eq h]
  | .ret hvalue, h => by
    rw [reached, reached] at h
    rw [substitute, hvalue.substitute_eq h]
  | .call hargs, h => by
    rw [reached, reached] at h
    rw [substitute, hargs.substitute_eq h]

theorem ResemblesOptional.substitute_eq {node node' : Option Node} : ResemblesOptional node node' →
    reachedOptional node' = (reachedOptional node).map (fun name => (lookup name).getD name) →
      substituteOptional lookup node = node'
  | .none, _ => rfl
  | .some hnode, h => by
    rw [reachedOptional, reachedOptional] at h
    rw [substituteOptional, hnode.substitute_eq h]

theorem ResemblesAll.substitute_eq {nodes nodes' : List Node} : ResemblesAll nodes nodes' →
    reachedAll nodes' = (reachedAll nodes).map (fun name => (lookup name).getD name) →
      substituteAll lookup nodes = nodes'
  | .nil, _ => rfl
  | .cons hnode hrest, h => by
    rw [reachedAll, reachedAll] at h
    obtain ⟨hfirst, hsecond⟩ := eq_map_of_append_eq_map hnode.length_reached h
    rw [substituteAll, hnode.substitute_eq hfirst, hrest.substitute_eq hsecond]

end

/-- A substitution makes the one tree that resembles the tree before and has, in the same order,
the answers in the places of the identifiers, and the identifiers themselves where there is no
answer. -/
theorem substitute_eq_iff {node node' : Node} : node.substitute lookup = node' ↔
    Resembles node node' ∧
      node'.reached = node.reached.map fun name => (lookup name).getD name := by
  constructor
  · rintro rfl
    exact ⟨resembles_substitute node, reached_substitute lookup node⟩
  · rintro ⟨hresembles, h⟩
    exact hresembles.substitute_eq h

end Determined

/-! ### Laws of substitution -/

/-- The look-up that answers with what `second` says about the answer of `first`. -/
def composed (first second : String → Option String) (name : String) : Option String :=
  (second ((first name).getD name)).or (first name)

theorem getD_composed (first second : String → Option String) (name : String) :
    (composed first second name).getD name =
      (second ((first name).getD name)).getD ((first name).getD name) := by
  rw [composed]
  cases second ((first name).getD name) <;> rfl

mutual

/-- Two substitutions in a row are one, with the look-ups composed. -/
theorem substitute_substitute (f g : String → Option String) : (node : Node) →
    (node.substitute f).substitute g = node.substitute (composed f g)
  | declaration _ _ init => by
    rw [substitute, substitute, substitute, substituteOptional_substituteOptional f g init]
  | assignment _ target value => by
    rw [substitute, substitute, substitute, substitute_substitute f g target,
      substitute_substitute f g value]
  | binary _ left right => by
    rw [substitute, substitute, substitute, substitute_substitute f g left,
      substitute_substitute f g right]
  | unary _ operand => by
    rw [substitute, substitute, substitute, substitute_substitute f g operand]
  | ret value => by
    rw [substitute, substitute, substitute, substituteOptional_substituteOptional f g value]
  | call _ args => by
    rw [substitute, substitute, substitute, substituteAll_substituteAll f g args]
  | ident name => by
    rw [substitute, substitute, substitute, getD_composed]
  | function .. | declarator .. | parameters .. | compound .. | branch .. | whileLoop ..
  | forLoop .. | jump .. | constant .. => rfl

theorem substituteOptional_substituteOptional (f g : String → Option String) :
    (node : Option Node) →
      substituteOptional g (substituteOptional f node) = substituteOptional (composed f g) node
  | none => rfl
  | some node => by
    rw [substituteOptional, substituteOptional, substituteOptional, substitute_substitute f g node]

theorem substituteAll_substituteAll (f g : String → Option String) : (nodes : List Node) →
    substituteAll g (substituteAll f nodes) = substituteAll (composed f g) nodes
  | [] => rfl
  | node :: rest => by
    rw [substituteAll, substituteAll, substituteAll, substitute_substitute f g node,
      substituteAll_substituteAll f g rest]

end

/-- A renaming is undone by a look-up that finds the names before. -/
theorem substitute_undo {rename : String → String} {lookup : String → Option String}
    (h : ∀ name, lookup (rename name) = some name) (node : Node) :
    (node.substitute fun name => some (rename name)).substitute lookup = node := by
  rw [substitute_substitute]
  refine substitute_eq_self node fun name _ => ?_
  rw [getD_composed, Option.getD_some, h, Option.getD_some]

private theorem reachedAll_eq_identifiersAll {nodes : List Node}
    (h : ∀ node ∈ nodes, node.reached = node.identifiers) :
    reachedAll nodes = identifiersAll nodes := by
  induction nodes with
  | nil => rfl
  | cons node rest ih =>
    obtain ⟨hnode, hrest⟩ := List.forall_mem_cons.1 h
    rw [reachedAll, identifiersAll, hnode, ih hrest]

/-- In an expression, a substitution reaches every identifier. -/
theorem IsExpression.reached_eq_identifiers {isName : String → Prop}
    {isLiteral : String → String → Prop} {node : Node} (h : IsExpression isName isLiteral node) :
    node.reached = node.identifiers := by
  induction h with
  | ident => rfl
  | constant => rfl
  | call _ _ ih => rw [reached, identifiers, reachedAll_eq_identifiersAll ih]
  | binary _ _ ihleft ihright => rw [reached, identifiers, ihleft, ihright]
  | unary _ ih => rw [reached, identifiers, ih]
  | assignment _ _ ihtarget ihvalue => rw [reached, identifiers, ihtarget, ihvalue]

/-- A substitution makes the one tree that differs from the tree before in reached identifiers only
and has `f name`, or else `name`, in the place of each `name` of them; in an expression these are
all its identifiers. A second substitution with `g` is seen as one with the look-ups composed, and
an injective renaming is undone by its inverse. -/
theorem substitute_isSimultaneous (f g : String → Option String) (node : Node) :
    (∀ node', node.substitute f = node' ↔ Resembles node node' ∧
      node'.reached = node.reached.map fun name => (f name).getD name) ∧
    (node.IsPureExpression → node.reached = node.identifiers) ∧
    (node.substitute f).substitute g = node.substitute (composed f g) ∧
    ∀ rename : String → String, Function.Injective rename →
      (node.substitute fun name => some (rename name)).substitute (Function.partialInv rename) =
        node :=
  ⟨fun _ => substitute_eq_iff, fun h => h.reached_eq_identifiers, substitute_substitute f g node,
    fun _ hinjective => substitute_undo (Function.partialInv_left hinjective) node⟩

/-- A call of a function that is named like the variable it is assigned to. -/
private def swapping : Node :=
  assignment .assign (ident "x") (call "x" [ident "y", unary .neg (ident "x")])

private def swap (name : String) : Option String :=
  if name = "x" then some "y" else if name = "y" then some "x" else none

theorem substitute_isSimultaneous_swapping :
    swapping.substitute swap =
      assignment .assign (ident "y") (call "x" [ident "x", unary .neg (ident "y")]) ∧
    swapping.IsPureExpression ∧ swapping.reached = swapping.identifiers ∧
    (swapping.substitute swap).substitute swap = swapping.substitute (composed swap swap) ∧
    Function.Injective (fun name : String => name ++ "_0") ∧
    (swapping.substitute fun name => some (name ++ "_0")).substitute
      (Function.partialInv fun name => name ++ "_0") = swapping := by
  have hexpression : swapping.IsPureExpression :=
    .assignment (.ident trivial) (.call trivial (List.forall_mem_cons.2
      ⟨.ident trivial, List.forall_mem_singleton.2 (.unary (.ident trivial))⟩))
  have hinjective : Function.Injective (fun name : String => name ++ "_0") :=
    fun _ _ h => String.append_left_inj _ |>.1 h
  obtain ⟨hdetermined, hleaves, htwice, hundone⟩ := substitute_isSimultaneous swap swap swapping
  refine ⟨(hdetermined _).2 ⟨?_, ?_⟩, hexpression, hleaves hexpression, htwice, hinjective,
    hundone _ hinjective⟩
  · exact .assignment (.ident _ _) (.call (.cons (.ident _ _) (.cons (.unary (.ident _ _)) .nil)))
  · decide

end FlowGraph.Node
