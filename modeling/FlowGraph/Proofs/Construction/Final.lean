import FlowGraph.Proofs.Construction.Untouched

/-!
# Final blocks of a layout

A layout reads off the tree whether control passes the end of a statement. The block where the
statement ends tells the same: it is marked as final exactly if control does not pass. Only jumps,
returns and joins that no branch leads to are marked, and no later change takes a mark away.

## Main definitions

* `Graph.final?`: the mark of a block

## Main results

* `Graph.final?_connect`, `Graph.final?_addBlock`, ...: the mark after each change
* `Node.final?_layOut`: the mark of the block where a node ends
-/

namespace FlowGraph

namespace Graph

/-- Whether a block is final, if there is one. -/
def final? (g : Graph) (i : BlockId) : Option Bool :=
  (g.block? i).map (·.isFinal)

theorem lt_size_of_final? {g : Graph} {i : BlockId} {final : Bool} (h : g.final? i = some final) :
    i < g.size := by
  obtain ⟨b, hb, -⟩ := Option.map_eq_some_iff.1 h
  exact block?_isSome_iff.1 (Option.isSome_of_eq_some hb)

/-- A change of a block that keeps its mark. -/
theorem final?_modify (g : Graph) (block i : BlockId) {f : Block → Block}
    (hf : ∀ b, (f b).isFinal = b.isFinal) : (g.modify block f).final? i = g.final? i := by
  rw [final?, final?, block?_modify]
  split <;> cases g.block? i <;> simp [hf]

@[simp] theorem final?_connect (g : Graph) (source target i : BlockId) :
    (g.connect source target).final? i = g.final? i := by
  rw [connect, final?_modify, final?_modify] <;> exact fun _ => rfl

@[simp] theorem final?_connectIf (g : Graph) (connected : Bool) (source target i : BlockId) :
    (g.connectIf connected source target).final? i = g.final? i := by
  unfold connectIf
  split <;> simp

@[simp] theorem final?_connectBranches (g : Graph) (cond onTrue onFalse i : BlockId) :
    (g.connectBranches cond onTrue onFalse).final? i = g.final? i := by
  rw [connectBranches, final?_modify, final?_modify, final?_modify] <;> exact fun _ => rfl

theorem final?_addBlock (g : Graph) (kind : BlockKind) (i : BlockId) :
    (g.addBlock kind).final? i = if i = g.size then some false else g.final? i := by
  rw [final?, block?_addBlock]
  split <;> rfl

theorem final?_addStatementBlock (g : Graph) (kind : BlockKind) (statements : List Node)
    (i : BlockId) : (g.addStatementBlock kind statements).final? i =
      if i = g.size then some false else g.final? i := by
  rw [addStatementBlock, addStatements, final?_modify, final?_addBlock]
  exact fun _ => rfl

/-- The mark of a block that has not been final. -/
theorem final?_markFinalIf_self {g : Graph} {i : BlockId} (h : g.final? i = some false)
    (final : Bool) : (g.markFinalIf final i).final? i = some final := by
  obtain ⟨b, hb, hfalse⟩ := Option.map_eq_some_iff.1 h
  cases final with
  | false => exact h
  | true =>
    rw [markFinalIf, if_pos rfl, final?, block?_modify_self, hb]
    rfl

theorem final?_addSingle (g : Graph) (node : Node) (final : Bool) :
    (g.addSingle node final).1.final? (g.addSingle node final).2.stop = some final :=
  final?_markFinalIf_self (by rw [final?_addStatementBlock, if_pos rfl]) final

theorem final?_addJump (g : Graph) (target : Option BlockId) :
    (g.addJump target).1.final? (g.addJump target).2.stop = some true := by
  have hjump : ((g.addBlock .base).markFinalIf true g.size).final? g.size = some true :=
    final?_markFinalIf_self (by rw [final?_addBlock, if_pos rfl]) true
  cases target with
  | none => exact hjump
  | some target => exact (final?_connect _ _ _ _).trans hjump

/-- The join of two branches is final if control passes neither. -/
theorem final?_addJoin (g : Graph) (test : BlockId) (yes no : Span) (yesPasses noPasses : Bool) :
    (g.addJoin test yes no yesPasses noPasses).final? g.size =
      some (!yesPasses && !noPasses) :=
  final?_markFinalIf_self (by simp [final?_addBlock]) _

theorem final?_addWhile_after (g : Graph) (cond : Node) :
    (g.addWhile cond).final? (g.size + 2) = some false := by
  simp [addWhile, final?_addBlock]

theorem final?_addFor_after (g : Graph) (init : List Node) (cond : Node) (step : List Node) :
    (g.addFor init cond step).final? (g.size + 3) = some false := by
  simp [addFor, final?_addBlock]

end Graph

/-- Blocks that are only entered keep their marks. -/
theorem Untouched.final?_eq {n i : Nat} {g g' : Graph} (h : Untouched n g g') (hn : i < n)
    (hi : i < g.size) : g'.final? i = g.final? i := by
  obtain ⟨b, hb⟩ := Option.isSome_iff_exists.1 (Graph.block?_isSome_iff.2 hi)
  obtain ⟨entries, -, hb'⟩ := h.block i b hn hb
  rw [Graph.final?, Graph.final?, hb, hb']
  rfl

namespace Node

/-- A layout keeps the marks of the blocks in front of it. -/
theorem final?_layOut_of_lt {node : Node} {scope : Scope} {g g' : Graph} {span : Span} {i : Nat}
    (h : node.layOut scope g = (g', span)) (hi : i < g.size) : g'.final? i = g.final? i :=
  (untouched_layOut node h (Nat.le_refl _)).final?_eq hi hi

mutual

/-- The block where a node ends is final if control does not pass the end of the node. -/
theorem final?_layOut : ∀ (node : Node) {scope : Scope} {g g' : Graph} {span : Span},
    node.layOut scope g = (g', span) → g'.final? span.stop = some (!node.completes)
  | function decl body, _, g, _, _ => by
    intro h
    obtain ⟨g₁, inner, hg₁, rfl, rfl⟩ := layOut_function h
    rw [completes]
    exact (g₁.final?_connect g.size inner.start inner.stop).trans (final?_layOut body hg₁)
  | compound items, _, g, _, _ => by
    intro h
    obtain ⟨last, hlast, rfl⟩ := layOut_compound h
    have hfirst : (g.addBlock .base).final? g.size = some (!true) := by
      rw [Graph.final?_addBlock, if_pos rfl]
      rfl
    rw [completes]
    exact final?_layOutItems items hlast hfirst
  | branch cond onTrue onFalse, _, g, _, _ => by
    intro h
    obtain ⟨g₁, yes, g₂, no, -, -, rfl, rfl⟩ := layOut_branch h
    rw [Graph.final?_addJoin, completes, Bool.not_or]
  | whileLoop cond body, _, g, _, _ => by
    intro h
    obtain ⟨g₁, inner, hg₁, rfl, rfl⟩ := layOut_whileLoop h
    have hkept : g₁.final? (g.size + 2) = some false :=
      (final?_layOut_of_lt hg₁ (by simp)).trans (g.final?_addWhile_after cond)
    rw [Graph.closeWhile, Graph.final?_connectIf, Graph.final?_connectBranches, hkept]
    simp only [completes, Bool.not_true]
  | forLoop init cond step body, _, g, _, _ => by
    intro h
    obtain ⟨g₁, inner, hg₁, rfl, rfl⟩ := layOut_forLoop h
    have hkept : g₁.final? (g.size + 3) = some false :=
      (final?_layOut_of_lt hg₁ (by simp)).trans (g.final?_addFor_after _ _ _)
    rw [Graph.closeFor, Graph.final?_connect, Graph.final?_connectIf,
      Graph.final?_connectBranches, Graph.final?_connect, hkept]
    simp only [completes, Bool.not_true]
  | jump kind, scope, g, _, _ => by
    intro h
    rw [layOut] at h
    have hfinal := g.final?_addJump (scope.target? kind)
    rw [h] at hfinal
    rw [hfinal, completes]
    rfl
  | ret value, _, g, _, _ => by
    intro h
    rw [layOut] at h
    have hfinal := g.final?_addSingle (ret value) true
    rw [h] at hfinal
    rw [hfinal, completes]
    rfl
  | declarator .., _, g, _, _ | parameters _, _, g, _, _ | declaration .., _, g, _, _
  | binary .., _, g, _, _ | unary .., _, g, _, _ | assignment .., _, g, _, _ | ident _, _, g, _, _
  | constant .., _, g, _, _ | call .., _, g, _, _ => by
    intro h
    simp only [layOut] at h
    obtain ⟨rfl, rfl⟩ := Prod.mk.inj h
    exact g.final?_addSingle _ false

/-- The block where items end is final if control does not pass through them. -/
theorem final?_layOutItems : ∀ (items : List Node) {scope : Scope} {g g' : Graph}
    {current last : BlockId} {running : Bool},
    layOutItems scope g current running items = (g', last) →
      g.final? current = some (!running) → g'.final? last = some (!(running && completesAll items))
  | [], _, _, _, _, _, running => by
    intro h hcurrent
    rw [layOutItems] at h
    obtain ⟨rfl, rfl⟩ := Prod.mk.inj h
    rw [completesAll, Bool.and_true]
    exact hcurrent
  | item :: rest, scope, g, _, current, _, running => by
    intro h hcurrent
    obtain ⟨g₁, piece, hg₁, h⟩ := layOutItems_cons h
    rw [completesAll]
    cases running with
    | false =>
      have hkept := final?_layOut_of_lt hg₁ (Graph.lt_size_of_final? hcurrent)
      exact final?_layOutItems rest h (hkept.trans hcurrent)
    | true =>
      have hstop := final?_layOut item hg₁
      rw [← Graph.final?_connect g₁ current piece.start] at hstop
      exact final?_layOutItems rest h hstop

end

/-- The block where a branch ends is final if control does not pass the end of the branch. -/
theorem final?_layOutOptional {node : Option Node} {scope : Scope} {g g' : Graph} {span : Span}
    (h : layOutOptional scope g node = (g', span)) :
    g'.final? span.stop = some (!completesOptional node) := by
  cases node with
  | none =>
    rw [layOutOptional] at h
    obtain ⟨rfl, rfl⟩ := Prod.mk.inj h
    rw [Graph.final?_addBlock, if_pos rfl, completesOptional]
    rfl
  | some node =>
    rw [layOutOptional] at h
    rw [completesOptional]
    exact final?_layOut node h

end Node

end FlowGraph
