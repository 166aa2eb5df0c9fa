import FlowGraph.Proofs.Construction.WellFormed

/-!
# Slots of the blocks of a layout

A condition block has one statement and two branches, and a base block goes on with one other block
at most. Layout draws at most one edge from the end of a piece, and only if control passes the end;
the end of such a piece had no edge before.

## Main definitions

* `Code.IsFormed`: a condition with two branches, or a base block with one successor at most

## Main results

* `Node.isFormed_layOut`: the blocks that are added for a node
* `Node.isFormed_toGraph`: the blocks of the graph of a tree
-/

namespace FlowGraph

/-- A condition has one statement and two branches. A base block has one successor at most. -/
structure Code.IsFormed (c : Code) : Prop where
  condition : c.kind = .condition → c.statements.length = 1 ∧ c.successors.length = 2
  base : c.kind = .base → c.successors.length ≤ 1

namespace Graph

variable {g g' : Graph} {i next : Nat} {statements : List Node}

/-- Whatever is a block from `n` on is formed. -/
def FormedFrom (g : Graph) (n : Nat) : Prop :=
  ∀ i c, n ≤ i → g.code i = some c → c.IsFormed

theorem isFormed_condition (cond : Node) (onTrue onFalse : BlockId) :
    (⟨.condition, [cond], [onTrue, onFalse]⟩ : Code).IsFormed :=
  ⟨fun _ => ⟨rfl, rfl⟩, nofun⟩

theorem isFormed_single (statements : List Node) (next : BlockId) :
    (⟨.base, statements, [next]⟩ : Code).IsFormed :=
  ⟨nofun, fun _ => Nat.le_refl _⟩

theorem isFormed_end (statements : List Node) : (⟨.base, statements, []⟩ : Code).IsFormed :=
  ⟨nofun, fun _ => Nat.zero_le _⟩

end Graph

/-- The blocks of a piece are formed if the next block around it was connected to its end. -/
theorem Piece.isFormed {g₀ g g' : Graph} {span : Span} {passes : Bool} {next : BlockId}
    (piece : Piece g₀ g span passes) (hformed : g.FormedFrom g₀.size)
    (hcode : ∀ i : Nat, g₀.size ≤ i → i < g.size → (passes = true → i ≠ span.stop) →
      g'.code i = g.code i)
    (hstop : passes = true → g'.code span.stop = (g.code span.stop).map (·.addSuccessor next))
    {i : Nat} {c : Code} (hi : g₀.size ≤ i) (hlt : i < g.size) (hc : g'.code i = some c) :
    c.IsFormed := by
  by_cases hend : passes = true ∧ i = span.stop
  · obtain ⟨hpasses, rfl⟩ := hend
    obtain ⟨statements, hopen⟩ := piece.code_stop hpasses
    rw [hstop hpasses, hopen] at hc
    obtain rfl := Option.some.inj hc
    exact Graph.isFormed_single statements next
  · refine hformed i c hi ?_
    rw [← hc, hcode i hi hlt fun hpasses hne => hend ⟨hpasses, hne⟩]

namespace Node

/-- A way to lay out something with blocks that are formed. -/
def FormsLayOut (layOut : Scope → Graph → Graph × Span) : Prop :=
  ∀ {scope : Scope} {g g' : Graph} {span : Span}, layOut scope g = (g', span) →
    g'.FormedFrom g.size

/-- The same for the items of a compound statement, with the block that they are laid out behind. -/
def FormsItems (items : List Node) : Prop :=
  ∀ {scope : Scope} {g g' : Graph} {current last : BlockId} {running : Bool},
    layOutItems scope g current running items = (g', last) → g.size > current →
    (running = true → ∃ statements, g.code current = some ⟨.base, statements, []⟩) →
    g'.FormedFrom g.size ∧
      (running = true → ∀ c, g'.code current = some c → c.IsFormed)

variable {cond onTrue body decl item : Node} {onFalse : Option Node} {items rest : List Node}

theorem forms_addSingle (node : Node) (final : Bool) :
    FormsLayOut fun _ g => g.addSingle node final := by
  intro scope g g' span h i c hi hc
  obtain rfl : (g.addSingle node final).1 = g' := congrArg Prod.fst h
  rw [Graph.code_addSingle] at hc
  split at hc
  · exact Option.some.inj hc ▸ Graph.isFormed_end [node]
  · exact absurd hi (Nat.not_le_of_lt (Graph.lt_size_of_code hc))

theorem forms_addJump (kind : Jump) :
    FormsLayOut fun scope g => g.addJump (scope.target? kind) := by
  intro scope g g' span h i c hi hc
  obtain rfl : (g.addJump (scope.target? kind)).1 = g' := congrArg Prod.fst h
  rw [Graph.code_addJump] at hc
  split at hc
  · obtain rfl := Option.some.inj hc
    cases scope.target? kind with
    | none => exact Graph.isFormed_end []
    | some target => exact Graph.isFormed_single [] target
  · exact absurd hi (Nat.not_le_of_lt (Graph.lt_size_of_code hc))

theorem forms_absent : FormsLayOut fun _ g => (g.addBlock .base, ⟨g.size, g.size⟩) := by
  intro scope g g' span h i c hi hc
  obtain ⟨rfl, rfl⟩ := Prod.mk.inj h
  rw [Graph.code_addBlock] at hc
  split at hc
  · exact Option.some.inj hc ▸ Graph.isFormed_end []
  · exact absurd hi (Nat.not_le_of_lt (Graph.lt_size_of_code hc))

theorem forms_function (hbody : FormsLayOut body.layOut) :
    FormsLayOut (function decl body).layOut := by
  intro scope g g' span h i c hi hc
  obtain ⟨g₁, inner, hg₁, rfl, rfl⟩ := layOut_function h
  have piece := piece_layOut hg₁
  by_cases hheader : i = g.size
  · subst hheader
    rw [piece.code_function_header] at hc
    exact Option.some.inj hc ▸ Graph.isFormed_single _ _
  · have hi' : (g.addHeader decl).size ≤ i := by
      rw [Graph.size_addHeader]
      omega
    rw [Piece.code_function_body hi'] at hc
    exact hbody hg₁ i c hi' hc

theorem forms_branch (hyes : FormsLayOut onTrue.layOut)
    (hno : FormsLayOut fun scope g => layOutOptional scope g onFalse) :
    FormsLayOut (branch cond onTrue onFalse).layOut := by
  intro scope g g' span h i c hi hc
  obtain ⟨g₁, yes, g₂, no, hg₁, hg₂, rfl, rfl⟩ := layOut_branch h
  have pieceYes := piece_layOut hg₁
  have pieceNo := piece_layOutOptional hg₂
  have hlt := Graph.lt_size_of_code hc
  rw [Graph.size_addJoin] at hlt
  -- The blocks are the empty one in front, the test, the two branches and the join.
  rcases Nat.lt_or_ge i (g.size + 2) with hfront | hbehind
  · obtain rfl | rfl : i = g.size ∨ i = g.size + 1 := by omega
    · rw [pieceYes.code_branch_first pieceNo] at hc
      exact Option.some.inj hc ▸ Graph.isFormed_single _ _
    · rw [pieceYes.code_branch_test pieceNo] at hc
      exact Option.some.inj hc ▸ Graph.isFormed_condition _ _ _
  · rcases Nat.lt_or_ge i g₁.size with hmem | hmem
    · exact pieceYes.isFormed (hyes hg₁) (fun i => pieceYes.code_branch_yes pieceNo)
        (pieceYes.code_branch_yes_stop pieceNo) (by rwa [Graph.size_addTest]) hmem hc
    · rcases Nat.lt_or_ge i g₂.size with hlt' | hge
      · exact pieceNo.isFormed (hno hg₂) (fun i => pieceYes.code_branch_no pieceNo)
          (pieceYes.code_branch_no_stop pieceNo) hmem hlt' hc
      · obtain rfl := Nat.le_antisymm (Nat.le_of_lt_succ hlt) hge
        rw [pieceYes.code_branch_join pieceNo] at hc
        exact Option.some.inj hc ▸ Graph.isFormed_end _

theorem forms_whileLoop (hbody : FormsLayOut body.layOut) :
    FormsLayOut (whileLoop cond body).layOut := by
  intro scope g g' span h i c hi hc
  obtain ⟨g₁, inner, hg₁, rfl, rfl⟩ := layOut_whileLoop h
  have piece := piece_layOut hg₁
  have hlt := Graph.lt_size_of_code hc
  rw [Graph.size_closeWhile] at hlt
  rcases Nat.lt_or_ge i (g.size + 3) with hfront | hbehind
  · obtain rfl | rfl | rfl : i = g.size ∨ i = g.size + 1 ∨ i = g.size + 2 := by omega
    · rw [piece.code_while_first] at hc
      exact Option.some.inj hc ▸ Graph.isFormed_single _ _
    · rw [piece.code_while_test] at hc
      exact Option.some.inj hc ▸ Graph.isFormed_condition _ _ _
    · rw [piece.code_while_after] at hc
      exact Option.some.inj hc ▸ Graph.isFormed_end _
  · exact piece.isFormed (hbody hg₁) (fun i hi _ => Piece.code_while_body hi)
      piece.code_while_stop (by rwa [Graph.size_addWhile]) hlt hc

theorem forms_forLoop {init : ForInit} {cond step : Option Node}
    (hbody : FormsLayOut body.layOut) : FormsLayOut (forLoop init cond step body).layOut := by
  intro scope g g' span h i c hi hc
  obtain ⟨g₁, inner, hg₁, rfl, rfl⟩ := layOut_forLoop h
  have piece := piece_layOut hg₁
  have hlt := Graph.lt_size_of_code hc
  rw [Graph.size_closeFor] at hlt
  rcases Nat.lt_or_ge i (g.size + 4) with hfront | hbehind
  · obtain rfl | rfl | rfl | rfl :
        i = g.size ∨ i = g.size + 1 ∨ i = g.size + 2 ∨ i = g.size + 3 := by omega
    · rw [piece.code_for_first] at hc
      exact Option.some.inj hc ▸ Graph.isFormed_single _ _
    · rw [piece.code_for_test] at hc
      exact Option.some.inj hc ▸ Graph.isFormed_condition _ _ _
    · rw [piece.code_for_next] at hc
      exact Option.some.inj hc ▸ Graph.isFormed_single _ _
    · rw [piece.code_for_after] at hc
      exact Option.some.inj hc ▸ Graph.isFormed_end _
  · exact piece.isFormed (hbody hg₁) (fun i hi _ => Piece.code_for_body hi) piece.code_for_stop
      (by rwa [Graph.size_addFor]) hlt hc

theorem formsItems_nil : FormsItems [] := by
  intro scope g g' current last running h hcurrent hopen
  rw [layOutItems] at h
  obtain ⟨rfl, rfl⟩ := Prod.mk.inj h
  refine ⟨fun i c hi hc => absurd hi (Nat.not_le_of_lt (Graph.lt_size_of_code hc)),
    fun hrunning c hc => ?_⟩
  obtain ⟨statements, hcode⟩ := hopen hrunning
  obtain rfl := Option.some.inj (hcode.symm.trans hc)
  exact Graph.isFormed_end statements

theorem formsItems_cons (hitem : FormsLayOut item.layOut) (hrest : FormsItems rest) :
    FormsItems (item :: rest) := by
  intro scope g g' current last running h hcurrent hopen
  obtain ⟨g₁, span, hg₁, h⟩ := layOutItems_cons h
  have piece := piece_layOut hg₁
  cases running with
  | false =>
    have hcurrent' : g₁.size > current := Nat.lt_trans hcurrent piece.size_lt
    have hnot {P : Prop} (h : false = true) : P := absurd h Bool.false_ne_true
    have chain := chain_layOutItems h hcurrent' hnot
    refine ⟨fun i c hi hc => ?_, hnot⟩
    rcases Nat.lt_or_ge i g₁.size with hlt | hge
    · exact hitem hg₁ i c hi ((chain.keeps i hlt hnot).symm.trans hc)
    · exact (hrest h hcurrent' hnot).1 i c hge hc
  | true =>
    obtain ⟨statements, hcode⟩ := hopen rfl
    have hstop : span.stop ≠ current := Nat.ne_of_gt (Nat.lt_of_lt_of_le hcurrent piece.le_stop)
    have hopen' : item.completes = true → ∃ statements,
        (g₁.connect current span.start).code span.stop = some ⟨.base, statements, []⟩ :=
      fun hcompletes => by
        rw [g₁.code_connect_of_ne _ hstop]
        exact piece.code_stop hcompletes
    simp only [if_true] at h
    have chain := chain_layOutItems h (by simpa using piece.stop_lt) hopen'
    have hothers := hrest h (by simpa using piece.stop_lt) hopen'
    refine ⟨fun i c hi hc => ?_, fun _ c hc => ?_⟩
    · rcases Nat.lt_or_ge i g₁.size with hlt | hge
      -- Only the end of the item goes on with the items behind.
      · by_cases hend : item.completes = true ∧ i = span.stop
        · exact hothers.2 hend.1 c (hend.2 ▸ hc)
        · have hne : i ≠ current := Nat.ne_of_gt (Nat.lt_of_lt_of_le hcurrent hi)
          rw [chain.keeps i (by simpa using hlt) fun hpasses heq => hend ⟨hpasses, heq⟩,
            g₁.code_connect_of_ne _ hne] at hc
          exact hitem hg₁ i c hi hc
      · exact hothers.1 i c (by simpa using hge) hc
    · rw [piece.code_current_of_chain chain hcurrent hcode] at hc
      exact Option.some.inj hc ▸ Graph.isFormed_single _ _

theorem forms_compound (hitems : FormsItems items) : FormsLayOut (compound items).layOut := by
  intro scope g g' span h i c hi hc
  obtain ⟨last, hlast, rfl⟩ := layOut_compound h
  obtain ⟨hothers, hfirst⟩ := hitems hlast (by simp) fun _ => ⟨[], g.code_addBlock_self .base⟩
  by_cases hi' : i = g.size
  · exact hfirst rfl c (hi' ▸ hc)
  · exact hothers i c (by rw [Graph.size_addBlock]; omega) hc

private theorem layOutCases_forms :
    LayOutCases (fun layOut _ => FormsLayOut layOut) FormsItems where
  single := fun node final _ => @forms_addSingle node final
  jump := forms_addJump
  absent := @forms_absent
  function := forms_function
  branch := forms_branch
  whileLoop := forms_whileLoop
  forLoop := forms_forLoop
  nil := formsItems_nil
  cons := formsItems_cons
  compound := forms_compound

/-- The blocks that are added for a node are formed. -/
theorem isFormed_layOut (node : Node) : FormsLayOut node.layOut :=
  layOutCases_forms.layOut node

/-- The blocks of the graph of a tree are formed. -/
theorem isFormed_toGraph (node : Node) : node.toGraph.FormedFrom 0 := by
  intro i c _ hc
  rcases hlay : node.layOut (.top 0) (({} : Graph).addBlock .base) with ⟨g, span⟩
  rw [toGraph, hlay] at hc
  have hc : g.code i = some c := hc
  rcases Nat.lt_or_ge i 1 with hsink | hmem
  · rw [(piece_layOut hlay).keeps i hsink] at hc
    obtain rfl := Nat.lt_one_iff.1 hsink
    exact Option.some.inj hc ▸ Graph.isFormed_end []
  · exact isFormed_layOut node hlay i c hmem hc

end Node

end FlowGraph
