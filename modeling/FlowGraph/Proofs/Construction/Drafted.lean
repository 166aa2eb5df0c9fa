import FlowGraph.Construction.Build
import FlowGraph.Construction.Draft
import FlowGraph.Proofs.Construction.Final

/-!
# Construction in one traversal

A survey and a layout together do what one traversal does: the traversal makes the remarks of the
survey in the same order and stops with its error, and if there is none, all edits that it makes go
through and lead to the graph of the layout. So the marks that the traversal looks up say what the
layout reads off the tree.

## Main definitions

* `Drafting.Follows`: an action that goes along with a survey and comes to a given graph

## Main results

* `Edit.run_openBranch`, `Edit.run_closeBranch`, ...: the edits around the parts of a statement
* `Node.follows_construct`: the traversal of a node
* `Node.build_eq_buildInOnePass`: construction in one traversal
-/

namespace FlowGraph

namespace Graph

variable {g : Graph}

/-- Statements can be added before an edge or after it. -/
theorem addStatements_connect (g : Graph) (source target id : BlockId) (statements : List Node) :
    (g.connect source target).addStatements id statements =
      (g.addStatements id statements).connect source target := by
  refine ext_block? rfl (fun i => ?_) rfl rfl
  simp only [connect, addStatements, block?_modify]
  split_ifs <;> cases g.block? i <;> rfl

/-- Statements can be added to a block before the next block or after it. -/
theorem addStatements_addBlock {id : Nat} (h : id < g.size) (kind : BlockKind)
    (statements : List Node) :
    (g.addBlock kind).addStatements id statements =
      (g.addStatements id statements).addBlock kind := by
  refine ext_block? rfl (fun i => ?_) rfl rfl
  simp only [addStatements, block?_modify, block?_addBlock, size_modify]
  by_cases hi : i = g.size
  · rw [if_neg (hi ▸ Nat.ne_of_lt h), if_pos hi, if_pos hi]
  · simp [hi]

end Graph

namespace Edit

variable {g : Graph} {i : BlockId} {final passes : Bool}

theorem run_isFinal (h : g.final? i = some final) : (isFinal i).run g = .ok final g := by
  obtain ⟨b, hb, rfl⟩ := Option.map_eq_some_iff.1 h
  rw [isFinal, run_bind_of_run_eq_ok (run_block_eq_ok_iff.2 ⟨hb, rfl⟩)]
  rfl

theorem run_markFinalIf (hi : i < g.size) :
    (markFinalIf final i).run g = .ok () (g.markFinalIf final i) := by
  cases final with
  | false => rfl
  | true => exact run_update_eq_ok_iff.2 ⟨hi, rfl⟩

theorem run_link {source target : Nat} (hsource : source < g.size) (htarget : target < g.size) :
    (link source target).run g = .ok () (g.connect source target) :=
  run_link_eq_ok_iff.2 ⟨hsource, htarget, rfl⟩

theorem run_linkUnless {source target : Nat} (hsource : source < g.size)
    (htarget : target < g.size) :
    (linkUnless (!passes) source target).run g = .ok () (g.connectIf passes source target) := by
  cases passes with
  | false => rfl
  | true => exact run_link hsource htarget

theorem run_linkBranches {cond onTrue onFalse : BlockId} {statements : List Node}
    (hcond : g.code cond = some ⟨.condition, statements, []⟩) (htrue : onTrue < g.size)
    (hfalse : onFalse < g.size) :
    (linkBranches cond onTrue onFalse).run g = .ok () (g.connectBranches cond onTrue onFalse) := by
  obtain ⟨b, hb, hcode⟩ := Option.map_eq_some_iff.1 hcond
  obtain ⟨bt, hbt⟩ := Option.isSome_iff_exists.1 (Graph.block?_isSome_iff.2 htrue)
  obtain ⟨bf, hbf⟩ := Option.isSome_iff_exists.1 (Graph.block?_isSome_iff.2 hfalse)
  have hkind : b.kind = .condition := congrArg Code.kind hcode
  have hsuccessors : b.successors = [] := congrArg Code.successors hcode
  rw [linkBranches, run_bind_of_run_eq_ok (run_block_eq_ok_iff.2 ⟨hbt, rfl⟩),
    run_bind_of_run_eq_ok (run_block_eq_ok_iff.2 ⟨hbf, rfl⟩),
    run_bind_of_run_eq_ok (run_block_eq_ok_iff.2 ⟨hb, rfl⟩), Block.isCondition, hkind, hsuccessors]
  rfl

theorem run_update_of_lt_size (f : Block → Block) (hi : i < g.size) :
    (update i f).run g = .ok () (g.modify i f) :=
  run_update_eq_ok_iff.2 ⟨hi, rfl⟩

theorem run_addBlock (g : Graph) (kind : BlockKind) :
    (addBlock kind).run g = .ok g.size (g.addBlock kind) :=
  rfl

theorem run_addStatementBlock (g : Graph) (kind : BlockKind) (statements : List Node) :
    (addStatementBlock kind statements).run g =
      .ok g.size (g.addStatementBlock kind statements) := by
  rw [addStatementBlock, run_bind_of_run_eq_ok (run_addBlock g kind),
    run_bind_of_run_eq_ok (run_update_of_lt_size _ (by simp))]
  rfl

theorem run_addSingle (g : Graph) (node : Node) (final : Bool) :
    (addSingle node final).run g = .ok (g.addSingle node final).2 (g.addSingle node final).1 := by
  rw [addSingle, run_bind_of_run_eq_ok (run_addStatementBlock g .base [node]),
    run_bind_of_run_eq_ok (run_markFinalIf (by simp))]
  rfl

theorem run_addJump {target : Nat} (h : target < g.size) :
    (addJump target).run g = .ok (g.addJump (some target)).2 (g.addJump (some target)).1 := by
  rw [addJump, run_bind_of_run_eq_ok (run_addBlock g .base),
    run_bind_of_run_eq_ok (run_markFinalIf (by simp)),
    run_bind_of_run_eq_ok (run_link (by simp) (by simpa using Nat.lt_succ_of_lt h))]
  rfl

theorem run_addHeader (g : Graph) (declarator : Node) :
    (addHeader declarator).run g = .ok g.size (g.addHeader declarator) := by
  rw [addHeader, run_bind_of_run_eq_ok (run_addStatementBlock g .base declarator.functionParams),
    run_bind_of_run_eq_ok (run_update_of_lt_size _ (by simp))]
  rfl

theorem run_openBranch (g : Graph) (cond : Node) :
    (openBranch cond).run g = .ok (g.size, g.size + 1) (g.addTest cond) := by
  have hlink : (link g.size (g.size + 1)).run ((g.addBlock .base).addBlock .condition) =
      .ok () (((g.addBlock .base).addBlock .condition).connect g.size (g.size + 1)) :=
    run_link (by simp only [Graph.size_addBlock]; omega) (by simp)
  have hstatements := ((g.addBlock .base).addBlock .condition).addStatements_connect g.size
    (g.size + 1) (g.size + 1) [cond]
  rw [openBranch, run_bind_of_run_eq_ok (run_addBlock g .base),
    run_bind_of_run_eq_ok (run_addBlock _ .condition), Graph.size_addBlock,
    run_bind_of_run_eq_ok hlink, run_bind_of_run_eq_ok (run_update_of_lt_size _ (by simp)),
    ← Graph.addStatements, hstatements, Graph.addTest, Graph.addStatementBlock,
    Graph.size_addBlock]
  rfl

/-- The branches of a condition are connected with it and with their join. -/
theorem run_closeBranch {test : Nat} {yes no : Span} {statements : List Node}
    {yesPasses noPasses : Bool} (htest : g.code test = some ⟨.condition, statements, []⟩)
    (hyes : yes.start < g.size) (hno : no.start < g.size)
    (hyesFinal : g.final? yes.stop = some (!yesPasses))
    (hnoFinal : g.final? no.stop = some (!noPasses)) :
    (closeBranch test yes no).run g =
      .ok g.size (g.addJoin test yes no yesPasses noPasses) := by
  have hold {i : Nat} (hi : i < g.size) : i < (g.addBlock .base).size := by
    rw [Graph.size_addBlock]
    exact Nat.lt_succ_of_lt hi
  have hcode : (g.addBlock .base).code test = some ⟨.condition, statements, []⟩ := by
    rw [Graph.code_addBlock_of_lt _ _ (Graph.lt_size_of_code htest), htest]
  have hflag {i : Nat} {final : Bool} (hi : g.final? i = some final) :
      ((g.addBlock .base).connectBranches test yes.start no.start).final? i = some final := by
    rw [Graph.final?_connectBranches, Graph.final?_addBlock,
      if_neg (Nat.ne_of_lt (Graph.lt_size_of_final? hi)), hi]
  have hyesStop := Graph.lt_size_of_final? hyesFinal
  have hnoStop := Graph.lt_size_of_final? hnoFinal
  rw [closeBranch, run_bind_of_run_eq_ok (run_addBlock g .base),
    run_bind_of_run_eq_ok (run_linkBranches hcode (hold hyes) (hold hno)),
    run_bind_of_run_eq_ok (run_isFinal (hflag hyesFinal)),
    run_bind_of_run_eq_ok (run_isFinal (hflag hnoFinal)),
    run_bind_of_run_eq_ok (run_linkUnless (by simpa using hold hyesStop) (by simp)),
    run_bind_of_run_eq_ok (run_linkUnless (by simpa using hold hnoStop) (by simp)),
    run_bind_of_run_eq_ok (run_markFinalIf (by simp))]
  rfl

theorem run_openWhile (g : Graph) (cond : Node) :
    (openWhile cond).run g = .ok (g.size, g.size + 1, g.size + 2) (g.addWhile cond) := by
  have hlink : (link g.size (g.size + 1)).run
      (((g.addBlock .base).addBlock .condition).addBlock .base) =
      .ok () ((((g.addBlock .base).addBlock .condition).addBlock .base).connect g.size
        (g.size + 1)) :=
    run_link (by simp only [Graph.size_addBlock]; omega) (by simp)
  have hstatements := Graph.addStatements_connect
    (((g.addBlock .base).addBlock .condition).addBlock .base) g.size (g.size + 1) (g.size + 1)
    [cond]
  have htest : g.size + 1 < ((g.addBlock .base).addBlock .condition).size := by simp
  have hblock := Graph.addStatements_addBlock htest .base [cond]
  rw [openWhile, run_bind_of_run_eq_ok (run_addBlock g .base),
    run_bind_of_run_eq_ok (run_addBlock _ .condition),
    run_bind_of_run_eq_ok (run_addBlock _ .base), Graph.size_addBlock, Graph.size_addBlock,
    run_bind_of_run_eq_ok hlink, run_bind_of_run_eq_ok (run_update_of_lt_size _ (by simp)),
    ← Graph.addStatements, hstatements, hblock, Graph.addWhile, Graph.addStatementBlock,
    Graph.size_addBlock]
  rfl

/-- The body of a `while` loop is connected with the condition. -/
theorem run_closeWhile {test after : Nat} {body : Span} {statements : List Node} {passes : Bool}
    (htest : g.code test = some ⟨.condition, statements, []⟩) (hafter : after < g.size)
    (hstart : body.start < g.size) (hfinal : g.final? body.stop = some (!passes)) :
    (closeWhile test after body).run g = .ok () (g.closeWhile test after body passes) := by
  rw [closeWhile, run_bind_of_run_eq_ok (run_linkBranches htest hstart hafter),
    run_bind_of_run_eq_ok (run_isFinal ((g.final?_connectBranches _ _ _ _).trans hfinal)),
    run_linkUnless (by simpa using Graph.lt_size_of_final? hfinal)
      (by simpa using Graph.lt_size_of_code htest)]
  rfl

theorem run_openFor (g : Graph) (init : List Node) (cond : Node) (step : List Node) :
    (openFor init cond step).run g =
      .ok (g.size, g.size + 1, g.size + 2, g.size + 3) (g.addFor init cond step) := by
  rw [openFor, run_bind_of_run_eq_ok (run_addStatementBlock g .base init),
    run_bind_of_run_eq_ok (run_addStatementBlock _ .condition [cond]),
    run_bind_of_run_eq_ok (run_addStatementBlock _ .base step),
    run_bind_of_run_eq_ok (run_addBlock _ .base)]
  simp [Graph.addFor]

/-- The body of a `for` loop is connected with the condition and the step. -/
theorem run_closeFor {first test next after : Nat} {body : Span} {statements : List Node}
    {passes : Bool} (hfirst : first < g.size) (hne : first ≠ test)
    (htest : g.code test = some ⟨.condition, statements, []⟩) (hnext : next < g.size)
    (hafter : after < g.size) (hstart : body.start < g.size)
    (hfinal : g.final? body.stop = some (!passes)) :
    (closeFor first test next after body).run g =
      .ok () (g.closeFor first test next after body passes) := by
  have hlt := Graph.lt_size_of_code htest
  have hcode : (g.connect first test).code test = some ⟨.condition, statements, []⟩ := by
    rw [g.code_connect_of_ne _ hne.symm, htest]
  have hflag : ((g.connect first test).connectBranches test body.start after).final? body.stop =
      some (!passes) := by
    rw [Graph.final?_connectBranches, Graph.final?_connect, hfinal]
  rw [closeFor, run_bind_of_run_eq_ok (run_link hfirst hlt),
    run_bind_of_run_eq_ok (run_linkBranches hcode (by simpa using hstart) (by simpa using hafter)),
    run_bind_of_run_eq_ok (run_isFinal hflag),
    run_bind_of_run_eq_ok (run_linkUnless (by simpa using Graph.lt_size_of_final? hfinal)
      (by simpa using hnext)),
    run_link (by simpa using hnext) (by simpa using hlt)]
  rfl

end Edit

namespace Drafting

/-- On the graph `g`, an action does to the log what a survey does. It comes to the graph and the
answer in `result` if the survey succeeds, and otherwise it fails as the survey does. -/
structure Follows {α : Type} (x : Drafting α) (survey : EStateM Error Log Unit) (g : Graph)
    (result : Graph × α) : Prop where
  succeeds : ∀ {log log'}, survey.run log = .ok () log' →
    x.run ⟨g, log⟩ = .ok result.2 ⟨result.1, log'⟩
  fails : ∀ {log e log'}, survey.run log = .error e log' →
    ∃ g', x.run ⟨g, log⟩ = .error e ⟨g', log'⟩

namespace Follows

variable {α β : Type} {x : Drafting α} {f : α → Drafting β}
  {survey survey' : EStateM Error Log Unit} {g g₁ : Graph} {a : α} {result : Graph × α}
  {result' : Graph × β}

theorem pure (g : Graph) (a : α) : Follows (pure a) (pure ()) g (g, a) where
  succeeds h := by
    cases h
    rfl
  fails h := nomatch h

theorem throw (e : Error) (g : Graph) (result : Graph × α) :
    Follows (throw e) (throw e) g result where
  succeeds h := nomatch h
  fails h := by
    cases h
    exact ⟨g, rfl⟩

theorem report (remarks : EStateM Error Log Unit) (g : Graph) :
    Follows (report remarks) remarks g (g, ()) where
  succeeds h := by rw [run_report, h]
  fails h := ⟨g, by rw [run_report, h]⟩

theorem edit {change : Edit α} (h : change.run g = .ok a g₁) :
    Follows (edit change) (Pure.pure ()) g (g₁, a) where
  succeeds hlog := by
    cases hlog
    rw [run_edit, h]
  fails hlog := nomatch hlog

/-- An action after another follows the two surveys. -/
theorem andThen (h : Follows x survey g (g₁, a)) (h' : Follows (f a) survey' g₁ result') :
    Follows (x >>= f) (do survey; survey') g result' where
  succeeds {log log'} hlog := by
    obtain ⟨⟨⟩, log₁, hlog₁, hlog'⟩ := Node.ok_of_bind hlog
    rw [EStateM.run_bind, h.succeeds hlog₁]
    exact h'.succeeds hlog'
  fails {log e log'} hlog := by
    rw [EStateM.run_bind] at hlog ⊢
    cases hsurvey : survey.run log with
    | ok u log₁ =>
      rw [hsurvey] at hlog
      rw [h.succeeds hsurvey]
      exact h'.fails hlog
    | error e₁ log₁ =>
      rw [hsurvey] at hlog
      obtain ⟨g', hrun⟩ := h.fails hsurvey
      cases hlog
      exact ⟨g', by rw [hrun]⟩

/-- An edit that goes through leaves no trace in the log. -/
theorem edit_bind {change : Edit α} (h : change.run g = .ok a g₁)
    (h' : Follows (f a) survey g₁ result') :
    Follows (Drafting.edit change >>= f) survey g result' := by
  simpa using (edit h).andThen h'

theorem bind_edit (h : Follows x survey g (g₁, a)) (h' : Follows (f a) (Pure.pure ()) g₁ result') :
    Follows (x >>= f) survey g result' := by
  simpa using h.andThen h'

/-- What may be too deep is so for both. -/
theorem guard (h : Follows x survey g result) (maxDepth depth : Nat) :
    Follows (if maxDepth < depth then MonadExcept.throw (.tooDeep maxDepth) else x)
      (if maxDepth < depth then MonadExcept.throw (.tooDeep maxDepth) else survey) g result := by
  split
  · exact .throw _ g result
  · exact h

end Follows

end Drafting

namespace Scope

/-- Jumps have targets in the scope exactly if they stand in a loop. -/
def Fits (scope : Scope) (inLoop : Bool) : Prop :=
  ∀ kind, (scope.target? kind).isSome = inLoop

theorem fits_top (sink : BlockId) : (top sink).Fits false := by
  rintro (_ | _) <;> rfl

theorem fits_enterLoop (scope : Scope) (onContinue onBreak : BlockId) :
    (scope.enterLoop onContinue onBreak).Fits true := by
  rintro (_ | _) <;> rfl

end Scope

namespace Survey

@[simp] theorem reportUnless_true (s : Survey) (item : Node) : s.reportUnless true item = pure () :=
  rfl

end Survey

namespace Node

open Drafting

/-- The traversal of a node follows its survey and comes to its layout. -/
def Constructs (node : Node) : Prop :=
  ∀ {s scope inLoop depth g g' span}, node.layOut scope g = (g', span) → scope.Below g.size →
    scope.Fits inLoop →
      Follows (node.construct s scope depth) (node.survey s inLoop depth) g (g', span)

/-- The same for a branch that may be absent. -/
def ConstructsOptional (node : Option Node) : Prop :=
  ∀ {s scope inLoop depth g g' span}, layOutOptional scope g node = (g', span) →
    scope.Below g.size → scope.Fits inLoop →
      Follows (constructOptional s scope depth node) (surveyOptional s inLoop depth node) g
        (g', span)

/-- The same for items behind a block, which is final unless control comes to the items. -/
def ConstructsItems (items : List Node) : Prop :=
  ∀ {s scope inLoop depth g g' current last running},
    layOutItems scope g current running items = (g', last) → scope.Below g.size →
      scope.Fits inLoop → g.final? current = some (!running) →
        Follows (constructItems s scope depth current items)
          (surveyItems s inLoop depth running items) g (g', last)

/-- A node that is a single block, without a remark. -/
theorem constructs_single {node : Node} (final : Bool)
    (hconstruct : ∀ s scope depth, node.construct s scope depth =
      if s.maxDepth < depth then throw (.tooDeep s.maxDepth) else edit (.addSingle node final))
    (hsurvey : ∀ s inLoop depth, node.survey s inLoop depth =
      if s.maxDepth < depth then throw (.tooDeep s.maxDepth) else pure ())
    (hlayOut : ∀ scope g, node.layOut scope g = g.addSingle node final) : Constructs node := by
  intro s scope inLoop depth g g' span h _ _
  rw [← h, hconstruct, hsurvey, hlayOut]
  exact .guard (.edit (Edit.run_addSingle g node final)) _ _

/-- A node that is a single block, with a remark. -/
theorem constructs_unknown {node : Node}
    (hconstruct : ∀ s scope depth, node.construct s scope depth =
      if s.maxDepth < depth then throw (.tooDeep s.maxDepth)
      else do report (s.warnUnknown node); edit (.addSingle node false))
    (hsurvey : ∀ s inLoop depth, node.survey s inLoop depth =
      if s.maxDepth < depth then throw (.tooDeep s.maxDepth) else s.warnUnknown node)
    (hlayOut : ∀ scope g, node.layOut scope g = g.addSingle node false) : Constructs node := by
  intro s scope inLoop depth g g' span h _ _
  rw [← h, hconstruct, hsurvey, hlayOut]
  exact .guard ((Follows.report _ g).bind_edit (.edit (Edit.run_addSingle g node false))) _ _

theorem constructs_jump (kind : Jump) : Constructs (jump kind) := by
  intro s scope inLoop depth g g' span h hbelow hfits
  rw [layOut] at h
  rw [construct, survey]
  refine Follows.guard ?_ _ _
  cases htarget : scope.target? kind with
  | none =>
    have hout : inLoop = false := by rw [← hfits kind, htarget]; rfl
    rw [if_neg (by simp [hout])]
    exact .throw _ g _
  | some target =>
    have hin : inLoop = true := by rw [← hfits kind, htarget]; rfl
    rw [htarget] at h
    rw [if_pos hin, ← h]
    exact .edit (Edit.run_addJump (hbelow kind target htarget))

theorem constructs_function {decl body : Node} (hbody : Constructs body) :
    Constructs (function decl body) := by
  intro s scope inLoop depth g g' span h hbelow hfits
  obtain ⟨g₁, inner, hg₁, rfl, rfl⟩ := layOut_function h
  have hpiece := piece_layOut hg₁
  have hheader : g.size < g₁.size := Nat.lt_trans (by simp) hpiece.size_lt
  rw [construct, survey]
  refine Follows.guard ?_ _ _
  exact .edit_bind (Edit.run_addHeader g decl)
    ((hbody hg₁ (hbelow.mono (by simp)) hfits).bind_edit
      (.edit_bind (Edit.run_link hheader hpiece.start_lt) (.pure _ _)))

theorem constructs_compound {items : List Node} (hitems : ConstructsItems items) :
    Constructs (compound items) := by
  intro s scope inLoop depth g g' span h hbelow hfits
  obtain ⟨last, hlast, rfl⟩ := layOut_compound h
  have hfirst : (g.addBlock .base).final? g.size = some (!true) := by
    rw [Graph.final?_addBlock, if_pos rfl]
    rfl
  rw [construct, survey]
  refine Follows.guard ?_ _ _
  exact .edit_bind (Edit.run_addBlock g .base)
    ((hitems hlast (hbelow.mono (by simp)) hfits hfirst).bind_edit (.pure _ _))

theorem constructs_branch {cond onTrue : Node} {onFalse : Option Node} (hyes : Constructs onTrue)
    (hno : ConstructsOptional onFalse) : Constructs (branch cond onTrue onFalse) := by
  intro s scope inLoop depth g g' span h hbelow hfits
  obtain ⟨g₁, yes, g₂, no, hg₁, hg₂, rfl, rfl⟩ := layOut_branch h
  have pieceYes := piece_layOut hg₁
  have pieceNo := piece_layOutOptional hg₂
  have hsize := pieceYes.size_lt
  rw [Graph.size_addTest] at hsize
  -- The condition block has not been touched since it was added.
  have htest : g₂.code (g.size + 1) = some ⟨.condition, [cond], []⟩ := by
    rw [pieceNo.keeps _ (by omega), pieceYes.keeps _ (by simp), Graph.code_addTest]
    simp
  have hyesFinal : g₂.final? yes.stop = some (!onTrue.completes) :=
    (untouched_layOutOptional onFalse hg₂ (Nat.le_refl _)).final?_eq pieceYes.stop_lt
      pieceYes.stop_lt |>.trans (final?_layOut onTrue hg₁)
  have hclose := Edit.run_closeBranch htest (Nat.lt_trans pieceYes.start_lt pieceNo.size_lt)
    pieceNo.start_lt hyesFinal (final?_layOutOptional hg₂)
  rw [construct, survey]
  refine Follows.guard ?_ _ _
  exact .edit_bind (Edit.run_openBranch g cond)
    ((hyes hg₁ (hbelow.mono (by simp)) hfits).andThen
      ((hno hg₂ (hbelow.mono (by omega)) hfits).bind_edit (.edit_bind hclose (.pure _ _))))

theorem constructs_whileLoop {cond body : Node} (hbody : Constructs body) :
    Constructs (whileLoop cond body) := by
  intro s scope inLoop depth g g' span h hbelow hfits
  obtain ⟨g₁, inner, hg₁, rfl, rfl⟩ := layOut_whileLoop h
  have hpiece := piece_layOut hg₁
  have hsize := hpiece.size_lt
  rw [Graph.size_addWhile] at hsize
  have htest : g₁.code (g.size + 1) = some ⟨.condition, [cond], []⟩ := by
    rw [hpiece.keeps _ (by simp), Graph.code_addWhile]
    simp
  have hafter : g.size + 2 < g₁.size := by omega
  have hclose := Edit.run_closeWhile htest hafter hpiece.start_lt (final?_layOut body hg₁)
  rw [construct, survey]
  refine Follows.guard ?_ _ _
  exact .edit_bind (Edit.run_openWhile g cond)
    ((hbody hg₁ (Scope.below_enterLoop (by simp) (by simp)) (scope.fits_enterLoop _ _)).bind_edit
      (.edit_bind hclose (.pure _ _)))

theorem constructs_forLoop {init : ForInit} {cond step : Option Node} {body : Node}
    (hbody : Constructs body) : Constructs (forLoop init cond step body) := by
  intro s scope inLoop depth g g' span h hbelow hfits
  obtain ⟨g₁, inner, hg₁, rfl, rfl⟩ := layOut_forLoop h
  have hpiece := piece_layOut hg₁
  have hsize := hpiece.size_lt
  rw [Graph.size_addFor] at hsize
  have htest : g₁.code (g.size + 1) = some ⟨.condition, [cond.getD (int 1)], []⟩ := by
    rw [hpiece.keeps _ (by simp), Graph.code_addFor]
    simp
  have hfirst : g.size < g₁.size := by omega
  have hnext : g.size + 2 < g₁.size := by omega
  have hafter : g.size + 3 < g₁.size := by omega
  have hclose := Edit.run_closeFor hfirst (by omega) htest hnext hafter hpiece.start_lt
    (final?_layOut body hg₁)
  rw [construct, survey]
  refine Follows.guard ?_ _ _
  exact .edit_bind (Edit.run_openFor g _ _ _)
    ((hbody hg₁ (Scope.below_enterLoop (by simp) (by simp)) (scope.fits_enterLoop _ _)).bind_edit
      (.edit_bind hclose (.pure _ _)))

theorem constructsItems_nil : ConstructsItems [] := by
  intro s scope inLoop depth g g' current last running h _ _ _
  rw [layOutItems] at h
  obtain ⟨rfl, rfl⟩ := Prod.mk.inj h
  rw [constructItems, surveyItems]
  exact .pure g current

/-- The mark of the block in front of an item tells whether the item is reported. -/
theorem constructsItems_cons {item : Node} {rest : List Node} (hitem : Constructs item)
    (hrest : ConstructsItems rest) : ConstructsItems (item :: rest) := by
  intro s scope inLoop depth g g' current last running h hbelow hfits hcurrent
  obtain ⟨g₁, piece, hg₁, h⟩ := layOutItems_cons h
  have hpiece := piece_layOut hg₁
  have hlt := Graph.lt_size_of_final? hcurrent
  have hmark : g₁.final? current = some (!running) :=
    (final?_layOut_of_lt hg₁ hlt).trans hcurrent
  have hbelow' := hbelow.mono (Nat.le_of_lt hpiece.size_lt)
  rw [constructItems, surveyItems]
  refine (hitem hg₁ hbelow hfits).andThen (.edit_bind (Edit.run_isFinal hmark) ?_)
  cases running with
  | false =>
    exact (Follows.report _ g₁).andThen (hrest h hbelow' hfits hmark)
  | true =>
    have hstop := (g₁.final?_connect current piece.start piece.stop).trans
      (final?_layOut item hg₁)
    have hlink := Edit.run_link (Nat.lt_trans hlt hpiece.size_lt) hpiece.start_lt
    rw [Survey.reportUnless_true, pure_bind]
    exact .edit_bind hlink (hrest h (by simpa using hbelow') hfits hstop)

theorem constructsOptional_none : ConstructsOptional none := by
  intro s scope inLoop depth g g' span h _ _
  rw [layOutOptional] at h
  rw [← h, constructOptional, surveyOptional]
  exact .edit_bind (Edit.run_addBlock g .base) (.pure _ _)

theorem constructsOptional_some {node : Node} (h : Constructs node) :
    ConstructsOptional (some node) := by
  intro s scope inLoop depth g g' span hlay
  rw [layOutOptional] at hlay
  rw [constructOptional, surveyOptional]
  exact h hlay

mutual

/-- The traversal of every node follows its survey and comes to its layout. -/
theorem constructs : ∀ node : Node, Constructs node
  | function _ body => constructs_function (constructs body)
  | compound items => constructs_compound (constructsItems items)
  | branch _ onTrue onFalse => constructs_branch (constructs onTrue) (constructsOptional onFalse)
  | whileLoop _ body => constructs_whileLoop (constructs body)
  | forLoop _ _ _ body => constructs_forLoop (constructs body)
  | jump kind => constructs_jump kind
  | ret _ =>
    constructs_single true (fun _ _ _ => by rw [construct])
      (fun _ _ _ => by simp only [survey, isUnknown]; rfl) (fun _ _ => by rw [layOut])
  | declarator .. | parameters .. | declaration .. | binary .. | assignment .. =>
    constructs_single false (fun _ _ _ => by simp only [construct, isUnknown]; rfl)
      (fun _ _ _ => by simp only [survey, isUnknown]; rfl) (fun _ _ => by simp only [layOut])
  | unary .. | ident .. | constant .. | call .. =>
    constructs_unknown (fun _ _ _ => by simp only [construct, isUnknown]; rfl)
      (fun _ _ _ => by simp only [survey, isUnknown]; rfl) (fun _ _ => by simp only [layOut])

theorem constructsItems : ∀ items : List Node, ConstructsItems items
  | [] => constructsItems_nil
  | item :: rest => constructsItems_cons (constructs item) (constructsItems rest)

theorem constructsOptional : ∀ node : Option Node, ConstructsOptional node
  | none => constructsOptional_none
  | some node => constructsOptional_some (constructs node)

end

variable {node : Node}

/-- The traversal of a whole tree follows its survey. -/
theorem follows_constructAll (options : Options) {g : Graph} {span : Span}
    (h : node.layOut (.top 0) (({} : Graph).addBlock .base) = (g, span)) :
    Follows (node.constructAll options)
      (node.survey ⟨options.maxDepth, node.functionName?⟩ false 0) {} (g, span) :=
  .edit_bind (Edit.run_addBlock {} .base) (constructs node h below_top (Scope.fits_top 0))

/-- The traversal builds the graph of the layout, unless the survey fails. -/
theorem draft_eq (options : Options) (node : Node) :
    node.draft options = (do
      node.survey ⟨options.maxDepth, node.functionName?⟩ false 0
      pure node.toGraph) := by
  rcases hlay : node.layOut (.top 0) (({} : Graph).addBlock .base) with ⟨g, span⟩
  have hfollows := follows_constructAll options hlay
  have hgraph : node.toGraph =
      { g with name := node.functionName?, entry := span.start, exit := span.stop } := by
    rw [toGraph, hlay]
  funext log
  change (node.draft options).run log = EStateM.run (_ >>= _) log
  rw [run_draft, EStateM.run_bind]
  cases hsurvey : (node.survey ⟨options.maxDepth, node.functionName?⟩ false 0).run log with
  | ok u log' =>
    rw [hfollows.succeeds hsurvey, hgraph]
    rfl
  | error e log' =>
    obtain ⟨g', hrun⟩ := hfollows.fails hsurvey
    rw [hrun]

/-- A survey and a layout come to the graph, the remarks and the error of one traversal. -/
theorem build_eq_buildInOnePass (options : Options) (node : Node) :
    node.build options = node.buildInOnePass options := by
  rw [buildInOnePass, draft_eq, bind_assoc]
  rfl

end Node

end FlowGraph
