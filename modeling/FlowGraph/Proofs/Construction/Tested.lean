import FlowGraph.Proofs.Construction.WellFormed
import FlowGraph.Proofs.Simplification.Kept

/-!
# Loops with a test

Every loop of a graph that is built goes through a condition block, also if the source has no
condition there. So control that goes on in a piece comes to a test, to a jump target or to the end
of the piece; around it there is the piece of another node, up to the whole tree.

## Main definitions

* `Drains`, `Node.DrainsItems`: a layout whose blocks lead to a test, to their end or to a jump
  target

## Main results

* `Node.drains_layOut`: the pieces of all nodes
* `Node.tested_of_build`: the graphs that are built
-/

namespace FlowGraph

namespace Graph

variable {g : Graph} {i j : BlockId} {c : Code}

/-- What follows a block can be read off its code. -/
theorem acc_of_code (h : g.code i = some c)
    (hnext : c.kind = .base → ∀ j ∈ c.successors, Acc g.Follows j) : Acc g.Follows i := by
  refine .intro i ?_
  rintro j ⟨b, hb, hbase, hj⟩
  rw [code, hb, Option.map_some] at h
  obtain rfl := Option.some.inj h
  exact hnext hbase j hj

/-- A base block that goes on with one other block. -/
theorem acc_of_code_singleton {statements : List Node}
    (h : g.code i = some ⟨.base, statements, [j]⟩) (hj : Acc g.Follows j) : Acc g.Follows i :=
  acc_of_code h fun _ _ hk => List.mem_singleton.1 hk ▸ hj

theorem acc_of_code_condition (h : g.code i = some c) (hkind : c.kind = .condition) :
    Acc g.Follows i :=
  acc_of_code h fun hbase => nomatch hbase.symm.trans hkind

theorem acc_of_code_nil (h : g.code i = some c) (hnone : c.successors = []) : Acc g.Follows i :=
  acc_of_code h fun _ _ hj => absurd hj (by rw [hnone]; exact List.not_mem_nil)

end Graph

/-- A way to lay out something such that control goes on from each of its blocks to a test, to a
jump target or to its end, if these are not on an endless way themselves. -/
def Drains (layOut : Scope → Graph → Graph × Span) (passes : Bool) : Prop :=
  ∀ {scope : Scope} {g g' : Graph} {span : Span}, layOut scope g = (g', span) →
    ∀ {G : Graph}, Continues G g' (g.size ≤ ·) span.stop passes →
      (∀ {kind target}, scope.target? kind = some target → Acc G.Follows target) →
      (passes = true → Acc G.Follows span.stop) →
      ∀ i : Nat, g.size ≤ i → i < g'.size → Acc G.Follows i

namespace Node

/-- The same for the items of a compound statement. -/
def DrainsItems (items : List Node) : Prop :=
  ∀ {scope : Scope} {g g' : Graph} {current last : BlockId} {running : Bool},
    layOutItems scope g current running items = (g', last) → g.size > current →
    (running = true → ∃ statements, g.code current = some ⟨.base, statements, []⟩) →
    ∀ {G : Graph}, Continues G g' (fun i => running = true ∧ i = current ∨ g.size ≤ i) last
        (running && completesAll items) →
      (∀ {kind target}, scope.target? kind = some target → Acc G.Follows target) →
      (running = true → completesAll items = true → Acc G.Follows last) →
      (∀ i : Nat, g.size ≤ i → i < g'.size → Acc G.Follows i) ∧
        (running = true → Acc G.Follows current)

variable {cond onTrue body decl item : Node} {onFalse : Option Node} {items rest : List Node}

theorem drains_addSingle (node : Node) (final passes : Bool) :
    Drains (fun _ g => g.addSingle node final) passes := by
  intro scope g g' span h G hG _ hstop i hi hlt
  obtain rfl : (g.addSingle node final).1 = g' := congrArg Prod.fst h
  obtain rfl : (⟨g.size, g.size⟩ : Span) = span := congrArg Prod.snd h
  rw [Graph.size_addSingle] at hlt
  obtain rfl := Nat.le_antisymm (Nat.le_of_lt_succ hlt) hi
  cases passes with
  | true => exact hstop rfl
  | false =>
    have hcode : G.code g.size = some ⟨.base, [node], []⟩ := by
      rw [hG.code_eq g.size hi (by simp) nofun, Graph.code_addSingle]
      exact if_pos rfl
    exact Graph.acc_of_code_nil hcode rfl

theorem drains_addJump (kind : Jump) :
    Drains (fun scope g => g.addJump (scope.target? kind)) false := by
  intro scope g g' span h G hG htargets _ i hi hlt
  obtain rfl : (g.addJump (scope.target? kind)).1 = g' := congrArg Prod.fst h
  obtain rfl : (⟨g.size, g.size⟩ : Span) = span := congrArg Prod.snd h
  rw [Graph.size_addJump] at hlt
  obtain rfl := Nat.le_antisymm (Nat.le_of_lt_succ hlt) hi
  refine Graph.acc_of_code ((hG.code_eq g.size hi (by simp) nofun).trans
    ((g.code_addJump _ g.size).trans (if_pos rfl))) fun _ j hj => ?_
  exact htargets (Option.mem_toList.1 hj)

theorem drains_absent : Drains (fun _ g => (g.addBlock .base, ⟨g.size, g.size⟩)) true := by
  intro scope g g' span h G _ _ hstop i hi hlt
  obtain ⟨rfl, rfl⟩ := Prod.mk.inj h
  rw [Graph.size_addBlock] at hlt
  obtain rfl := Nat.le_antisymm (Nat.le_of_lt_succ hlt) hi
  exact hstop rfl

theorem drains_function (hbody : Drains body.layOut body.completes) :
    Drains (function decl body).layOut (function decl body).completes := by
  intro scope g g' span h G hG htargets hstop i hi hlt
  obtain ⟨g₁, inner, hg₁, rfl, rfl⟩ := layOut_function h
  have piece := piece_layOut hg₁
  rw [completes] at hG hstop
  have hinner : Continues G g₁ ((g.addHeader decl).size ≤ ·) inner.stop body.completes :=
    hG.part (fun i hi => Nat.le_trans (by simp) hi) (by simp [Graph.closeFunction]) piece.le_stop
      fun i hi _ => Piece.code_function_body hi
  have hblocks := hbody hg₁ hinner htargets hstop
  by_cases hheader : i = g.size
  -- The header goes on with the body.
  · subst hheader
    have hcode : G.code g.size = some ⟨.base, decl.functionParams, [inner.start]⟩ := by
      rw [hG.code_eq _ (Nat.le_refl _) piece.function.start_lt fun _ =>
        Nat.ne_of_lt (Nat.lt_of_lt_of_le (by simp) piece.le_stop), piece.code_function_header]
    exact Graph.acc_of_code_singleton hcode (hblocks _ piece.le_start piece.start_lt)
  · have hsize : (g₁.closeFunction g.size inner).size = g₁.size := Graph.size_connect ..
    exact hblocks i (by rw [Graph.size_addHeader]; omega) (hsize ▸ hlt)

/-- Both branches go on with the join. -/
theorem drains_branch (hyes : Drains onTrue.layOut onTrue.completes)
    (hno : Drains (fun scope g => layOutOptional scope g onFalse) (completesOptional onFalse)) :
    Drains (branch cond onTrue onFalse).layOut (branch cond onTrue onFalse).completes := by
  intro scope g g' span h G hG htargets hstop i hi hlt
  obtain ⟨g₁, yes, g₂, no, hg₁, hg₂, rfl, rfl⟩ := layOut_branch h
  have pieceYes := piece_layOut hg₁
  have pieceNo := piece_layOutOptional hg₂
  have hsizeYes := pieceYes.size_lt
  have hsizeNo := pieceNo.size_lt
  rw [Graph.size_addTest] at hsizeYes
  rw [Graph.size_addJoin] at hlt
  have hG' : ∀ i : Nat, g.size ≤ i → i < g₂.size → G.code i = (g₂.addJoin (g.size + 1) yes no
      onTrue.completes (completesOptional onFalse)).code i := fun i hi hlt =>
    hG.code_eq i hi (by rw [Graph.size_addJoin]; exact Nat.lt_succ_of_lt hlt)
      fun _ => Nat.ne_of_lt hlt
  have htest : Acc G.Follows (g.size + 1) := by
    have hcode := (hG' _ (by omega) (by omega)).trans (pieceYes.code_branch_test pieceNo)
    exact Graph.acc_of_code_condition hcode rfl
  have hjoin : Acc G.Follows g₂.size := by
    cases hcompletes : (branch cond onTrue onFalse).completes with
    | true => exact hstop hcompletes
    | false =>
      rw [hcompletes] at hG
      have hcode := (hG.code_eq g₂.size (by omega) (by simp) nofun).trans
        (pieceYes.code_branch_join pieceNo)
      exact Graph.acc_of_code_nil hcode rfl
  obtain ⟨hG₁, hedge₁⟩ := hG.inside pieceYes (by simp)
    (by rw [Graph.size_addJoin]; exact Nat.le_succ_of_le (Nat.le_of_lt hsizeNo))
    (fun i _ hi => Nat.ne_of_lt (Nat.lt_trans hi hsizeNo))
    (fun i => pieceYes.code_branch_yes pieceNo) (pieceYes.code_branch_yes_stop pieceNo)
  obtain ⟨hG₂, hedge₂⟩ := hG.inside pieceNo (by omega) (by simp) (fun i _ hi => Nat.ne_of_lt hi)
    (fun i => pieceYes.code_branch_no pieceNo) (pieceYes.code_branch_no_stop pieceNo)
  have hyes := hyes hg₁ hG₁ htargets fun hpasses => by
    obtain ⟨_, hcode⟩ := hedge₁ hpasses
    exact Graph.acc_of_code_singleton hcode hjoin
  have hno := hno hg₂ hG₂ htargets fun hpasses => by
    obtain ⟨_, hcode⟩ := hedge₂ hpasses
    exact Graph.acc_of_code_singleton hcode hjoin
  rw [Graph.size_addTest] at hyes
  -- The blocks are the empty one in front, the test, the two branches and the join.
  rcases Nat.lt_or_ge i (g.size + 2) with hfront | hbehind
  · rcases Nat.lt_or_ge i (g.size + 1) with hfirst | hsecond
    · obtain rfl : i = g.size := by omega
      have hcode := (hG' _ hi (by omega)).trans (pieceYes.code_branch_first pieceNo)
      exact Graph.acc_of_code_singleton hcode htest
    · obtain rfl : i = g.size + 1 := by omega
      exact htest
  · rcases Nat.lt_or_ge i g₁.size with hmem | hmem
    · exact hyes i hbehind hmem
    · rcases Nat.lt_or_ge i g₂.size with hlt' | hge
      · exact hno i hmem hlt'
      · obtain rfl : i = g₂.size := by omega
        exact hjoin

/-- The body goes on with the test. -/
theorem drains_whileLoop (hbody : Drains body.layOut body.completes) :
    Drains (whileLoop cond body).layOut (whileLoop cond body).completes := by
  intro scope g g' span h G hG htargets hstop i hi hlt
  have hcompletes : (whileLoop cond body).completes = true := by simp only [completes]
  obtain ⟨g₁, inner, hg₁, rfl, rfl⟩ := layOut_whileLoop h
  have piece := piece_layOut hg₁
  have hsize := piece.size_lt
  rw [Graph.size_addWhile] at hsize
  rw [Graph.size_closeWhile] at hlt
  have hG' : ∀ i : Nat, g.size ≤ i → i < g.size + 2 → G.code i =
      (g₁.closeWhile (g.size + 1) (g.size + 2) inner body.completes).code i := fun i hi hlt =>
    hG.code_eq i hi (by rw [Graph.size_closeWhile]; omega) fun _ => Nat.ne_of_lt hlt
  have htest : Acc G.Follows (g.size + 1) :=
    Graph.acc_of_code_condition ((hG' _ (by omega) (by omega)).trans piece.code_while_test) rfl
  have hafter : Acc G.Follows (g.size + 2) := hstop hcompletes
  obtain ⟨hG₁, hedge⟩ := hG.inside piece (by simp) (by simp)
    (fun i hi _ => by simp at hi; exact Nat.ne_of_gt hi) (fun i hi _ => Piece.code_while_body hi)
    piece.code_while_stop
  have hblocks := hbody hg₁ hG₁ (fun {kind target} htarget => by
    cases kind with
    | breakLoop => exact Option.some.inj htarget ▸ hafter
    | continueLoop => exact Option.some.inj htarget ▸ htest) fun hpasses => by
      obtain ⟨_, hcode⟩ := hedge hpasses
      exact Graph.acc_of_code_singleton hcode htest
  rw [Graph.size_addWhile] at hblocks
  rcases Nat.lt_or_ge i (g.size + 3) with hfront | hbehind
  · obtain rfl | rfl | rfl : i = g.size ∨ i = g.size + 1 ∨ i = g.size + 2 := by omega
    · exact Graph.acc_of_code_singleton ((hG' _ hi (by omega)).trans piece.code_while_first) htest
    · exact htest
    · exact hafter
  · exact hblocks i hbehind hlt

/-- The body goes on with the step, and the step with the test. -/
theorem drains_forLoop {init : ForInit} {cond step : Option Node}
    (hbody : Drains body.layOut body.completes) :
    Drains (forLoop init cond step body).layOut (forLoop init cond step body).completes := by
  intro scope g g' span h G hG htargets hstop i hi hlt
  have hcompletes : (forLoop init cond step body).completes = true := by simp only [completes]
  obtain ⟨g₁, inner, hg₁, rfl, rfl⟩ := layOut_forLoop h
  have piece := piece_layOut hg₁
  have hsize := piece.size_lt
  rw [Graph.size_addFor] at hsize
  rw [Graph.size_closeFor] at hlt
  have hG' : ∀ i : Nat, g.size ≤ i → i < g.size + 3 → G.code i =
      (g₁.closeFor g.size (g.size + 1) (g.size + 2) (g.size + 3) inner body.completes).code i :=
    fun i hi hlt => hG.code_eq i hi (by rw [Graph.size_closeFor]; omega) fun _ => Nat.ne_of_lt hlt
  have htest : Acc G.Follows (g.size + 1) :=
    Graph.acc_of_code_condition ((hG' _ (by omega) (by omega)).trans piece.code_for_test) rfl
  have hnext : Acc G.Follows (g.size + 2) :=
    Graph.acc_of_code_singleton ((hG' _ (by omega) (by omega)).trans piece.code_for_next) htest
  have hafter : Acc G.Follows (g.size + 3) := hstop hcompletes
  obtain ⟨hG₁, hedge⟩ := hG.inside piece (by simp) (by simp)
    (fun i hi _ => by simp at hi; exact Nat.ne_of_gt hi) (fun i hi _ => Piece.code_for_body hi)
    piece.code_for_stop
  have hblocks := hbody hg₁ hG₁ (fun {kind target} htarget => by
    cases kind with
    | breakLoop => exact Option.some.inj htarget ▸ hafter
    | continueLoop => exact Option.some.inj htarget ▸ hnext) fun hpasses => by
      obtain ⟨_, hcode⟩ := hedge hpasses
      exact Graph.acc_of_code_singleton hcode hnext
  rw [Graph.size_addFor] at hblocks
  rcases Nat.lt_or_ge i (g.size + 4) with hfront | hbehind
  · obtain rfl | rfl | rfl | rfl :
        i = g.size ∨ i = g.size + 1 ∨ i = g.size + 2 ∨ i = g.size + 3 := by omega
    · exact Graph.acc_of_code_singleton ((hG' _ hi (by omega)).trans piece.code_for_first) htest
    · exact htest
    · exact hnext
    · exact hafter
  · exact hblocks i hbehind hlt

theorem drainsItems_nil : DrainsItems [] := by
  intro scope g g' current last running h hcurrent _ G _ _ hlast
  rw [layOutItems] at h
  obtain ⟨rfl, rfl⟩ := Prod.mk.inj h
  refine ⟨fun i hi hlt => absurd hlt (Nat.not_lt_of_le hi), fun hrunning => ?_⟩
  exact hlast hrunning (by rw [completesAll])

theorem drainsItems_cons (hitem : Drains item.layOut item.completes) (hrest : DrainsItems rest) :
    DrainsItems (item :: rest) := by
  intro scope g g' current last running h hcurrent hopen G hG htargets hlast
  obtain ⟨g₁, span, hg₁, h⟩ := layOutItems_cons h
  have piece := piece_layOut hg₁
  cases running with
  | false =>
    -- Nothing leads from the item to the ones behind it.
    have hclosed {p : Prop} (h : false = true) : p := absurd h Bool.false_ne_true
    have hcurrent' : g₁.size > current := Nat.lt_trans hcurrent piece.size_lt
    have chain := chain_layOutItems h hcurrent' hclosed
    have hitemG : ∀ i : Nat, g.size ≤ i → i < g₁.size → G.code i = g₁.code i := fun i hi hlt =>
      (hG.code_eq i (.inr hi) (Nat.lt_of_lt_of_le hlt chain.size_le) hclosed).trans
        (chain.keeps i hlt hclosed)
    have hfirst := hitem hg₁ ⟨fun i hi hlt _ => hitemG i hi hlt, fun _ c hc =>
        ⟨c.successors, by rw [hitemG _ piece.le_stop piece.stop_lt, hc]⟩⟩ htargets fun hpasses => by
      obtain ⟨statements, hcode⟩ := piece.code_stop hpasses
      exact Graph.acc_of_code_nil ((hitemG _ piece.le_stop piece.stop_lt).trans hcode) rfl
    have hrestG : Continues G g' (fun i => false = true ∧ i = current ∨ g₁.size ≤ i) last false :=
      ⟨fun i hi hlt _ => hG.code_eq i
        (hi.imp_right (Nat.le_trans (Nat.le_of_lt piece.size_lt))) hlt hclosed, hclosed⟩
    obtain ⟨hothers, -⟩ := hrest h hcurrent' hclosed hrestG htargets hclosed
    refine ⟨fun i hi hlt => ?_, hclosed⟩
    rcases Nat.lt_or_ge i g₁.size with hmem | hmem
    · exact hfirst i hi hmem
    · exact hothers i hmem hlt
  | true =>
    obtain ⟨statements, hcode⟩ := hopen rfl
    have hstop : span.stop ≠ current := Nat.ne_of_gt (Nat.lt_of_lt_of_le hcurrent piece.le_stop)
    have hopen' : item.completes = true → ∃ statements,
        (g₁.connect current span.start).code span.stop = some ⟨.base, statements, []⟩ :=
      fun hcompletes => by
        rw [g₁.code_connect_of_ne _ hstop]
        exact piece.code_stop hcompletes
    simp only [if_true] at h
    have chain := chain_layOutItems h (by simpa using piece.stop_lt) hopen'
    rw [completesAll_cons, Bool.true_and] at hG
    have hregion : Continues G g' (fun i => i = current ∨ g.size ≤ i) last
        (item.completes && completesAll rest) :=
      ⟨fun i hi => hG.code_eq i (hi.imp_left fun hi => ⟨rfl, hi⟩), hG.code_stop⟩
    -- The items behind come first, since control goes on from this one to them.
    have hrest' := continues_rest piece chain hregion
    have hothers := hrest h (by simpa using piece.stop_lt) hopen'
      ⟨fun i hi => hrest'.code_eq i (hi.imp_left And.right), hrest'.code_stop⟩ htargets
      fun hcompletes hall => hlast rfl (by rw [completesAll_cons, hcompletes, hall]; rfl)
    have hfirst := hitem hg₁ (continues_item piece chain hcurrent hregion) htargets hothers.2
    have hblocks : ∀ i : Nat, g.size ≤ i → i < g'.size → Acc G.Follows i := fun i hi hlt => by
      rcases Nat.lt_or_ge i g₁.size with hmem | hmem
      · exact hfirst i hi hmem
      · exact hothers.1 i (by simpa using hmem) hlt
    refine ⟨hblocks, fun _ => ?_⟩
    have hcodeG : G.code current = some ⟨.base, statements, [span.start]⟩ := by
      have hchain := piece.chain_connected chain hcurrent hcode
      rw [hregion.code_eq current (.inl rfl) (Nat.lt_of_lt_of_le hcurrent hchain.size_le) fun _ =>
        Nat.ne_of_lt (Nat.lt_of_lt_of_le hcurrent (piece.le_last_of_chain chain)),
        piece.code_current_of_chain chain hcurrent hcode]
    exact Graph.acc_of_code_singleton hcodeG (hfirst _ piece.le_start piece.start_lt)

theorem drains_compound (hitems : DrainsItems items) :
    Drains (compound items).layOut (compound items).completes := by
  intro scope g g' span h G hG htargets hstop i hi hlt
  obtain ⟨last, hlast, rfl⟩ := layOut_compound h
  have hfirst := g.code_addBlock_self .base
  have hmem : g.size ≤ last := (piece_layOut h).le_stop
  rw [completes] at hG hstop
  have hblocks := hitems hlast (by simp) (fun _ => ⟨[], hfirst⟩)
    (hG.part (fun i hi => by simp at hi; omega) (Nat.le_refl _) (by simp; omega) fun _ _ _ => rfl)
    htargets fun _ => hstop
  by_cases hi' : i = g.size
  · exact hi' ▸ hblocks.2 rfl
  · exact hblocks.1 i (by rw [Graph.size_addBlock]; omega) hlt

private theorem layOutCases_drains : LayOutCases Drains DrainsItems where
  single := drains_addSingle
  jump := drains_addJump
  absent := drains_absent
  function := drains_function
  branch := drains_branch
  whileLoop := drains_whileLoop
  forLoop := drains_forLoop
  nil := drainsItems_nil
  cons := drainsItems_cons
  compound := drains_compound

/-- Control that goes on in the piece of a node comes to a test, to a jump target or to the end of
the piece. -/
theorem drains_layOut (node : Node) : Drains node.layOut node.completes :=
  layOutCases_drains.layOut node

/-- Every loop of the graph of a tree has a test. -/
theorem tested_toGraph (node : Node) : node.toGraph.Tested := by
  rcases hlay : node.layOut (.top 0) (({} : Graph).addBlock .base) with ⟨g, span⟩
  have piece := piece_layOut hlay
  have hgraph : node.toGraph =
      { g with name := node.functionName?, entry := span.start, exit := span.stop } := by
    rw [toGraph, hlay]
  rw [hgraph]
  refine ⟨fun i => ?_⟩
  have hcode (i : BlockId) : Graph.code
      { g with name := node.functionName?, entry := span.start, exit := span.stop } i = g.code i :=
    rfl
  rcases Nat.lt_or_ge i 1 with hsink | hmem
  -- The block set aside for returns has no successors.
  · have hempty : (({} : Graph).addBlock .base).code i = some ⟨.base, [], []⟩ := by
      obtain rfl := Nat.lt_one_iff.1 hsink
      rfl
    exact Graph.acc_of_code_nil ((hcode i).trans ((piece.keeps i hsink).trans hempty)) rfl
  · rcases Nat.lt_or_ge i g.size with hlt | hge
    · refine drains_layOut node hlay ⟨fun _ _ _ _ => rfl, fun _ c hc => ⟨c.successors, hc⟩⟩ ?_ ?_ i
        hmem hlt
      · rintro (_ | _) target htarget <;> cases htarget
      · intro hcompletes
        obtain ⟨statements, hstop⟩ := piece.code_stop hcompletes
        exact Graph.acc_of_code_nil ((hcode _).trans hstop) rfl
    · refine .intro i ?_
      rintro j ⟨b, hb, -⟩
      have hnone := (hcode i).trans (Graph.code_eq_none hge)
      rw [Graph.code, hb, Option.map_some] at hnone
      cases hnone

/-- Every loop of a graph that is built has a test, whether or not the graph is simplified. -/
theorem tested_of_build {node : Node} {options : Options} {log log' : Log} {g : Graph}
    (hbuild : (node.build options).run log = .ok g log') : g.Tested := by
  rcases graph_eq_of_build hbuild with ⟨-, rfl⟩ | ⟨-, report, hrun⟩
  · exact tested_toGraph node
  · exact ((wellFormed_toGraph node).rewritesTo_of_run_simplify hrun).preserves
      (fun step => step.tested) (tested_toGraph node).pruned

end Node

end FlowGraph
