import FlowGraph.Proofs.Construction.Colored

/-!
# Branches behind their conditions

Control comes to the branches of a condition over the condition only. The blocks of a piece behind
its test are entered from the test and from each other: nothing older than the piece leads there,
and nothing that is laid out later does. So a branch is reachable only if its condition is.

## Main definitions

* `Graph.Fenced`: blocks that are entered from each other and from the block in front of them
* `Graph.Guarded`: the branches of conditions lie in such fences behind their conditions

## Main results

* `Node.guards_layOut`: the layout of a node
* `Node.mem_reachable_of_branches`: the condition of a reachable branch is reachable
-/

namespace FlowGraph

namespace Graph

variable {g g' g₁ : Graph} {low high n cond slot i : Nat}

/-- The blocks between `low` and `high` are entered from each other and from block `low` only. -/
def Fenced (g : Graph) (low high : Nat) : Prop :=
  ∀ i, low < i → i < high → ∀ p ∈ g.entries i, low ≤ p ∧ high > p

/-- Control comes to a fence that it does not start in over the block in front of it. -/
theorem Fenced.mem_reachable (h : g.Fenced low high) (hg : g.Pristine) (hentry : low ≥ g.entry)
    (hi : i ∈ g.reachable) (hlow : low < i) (hhigh : i < high) : low ∈ g.reachable := by
  obtain ⟨hsize, hpath⟩ := mem_reachable_iff.1 hi
  clear hi
  -- The induction is on the way to the block: the edge into the fence is the last one from outside.
  induction hpath with
  | refl => exact absurd hlow (Nat.not_lt_of_le hentry)
  | @tail p j hpath step ih =>
    obtain ⟨b, hb⟩ := hg.exists_live step.2
    have hp : p < g.size := by
      refine Nat.lt_of_not_le fun hle => ?_
      have hnone : g.block? p = none := by
        rw [← Option.not_isSome_iff_eq_none, block?_isSome_iff]
        exact Nat.not_lt.2 hle
      have hedge := step.1
      rw [successors, hnone] at hedge
      cases hedge
    obtain ⟨c, hc⟩ := hg.exists_live hp
    have hentered : p ∈ g.entries j := by
      rw [entries, hb.1, Option.elim_some, hg.consistent.mirrored.mem_predecessors_iff hc hb]
      exact hc.successors ▸ step.1
    obtain ⟨hle, hlt⟩ := h j hlow hhigh p hentered
    rcases Nat.eq_or_lt_of_le hle with rfl | hinside
    · exact mem_reachable_iff.2 ⟨hsize, hpath⟩
    · exact ih hinside hlt

/-- The branches of a condition from block `n` on lie in a fence behind the condition. -/
def Guarded (g : Graph) (n : Nat) : Prop :=
  ∀ cond slot i : Nat, n ≤ cond → g.Branches cond slot i →
    ∃ high, cond < i ∧ i < high ∧ high ≤ g.size ∧ g.Fenced cond high

theorem Branches.lt_size (h : g.Branches cond slot i) : cond < g.size := by
  obtain ⟨b, hb, -⟩ := h
  exact block?_isSome_iff.1 (Option.isSome_of_eq_some hb)

/-- A fence stays when the blocks in it are not entered any more. -/
theorem Fenced.of_entries_eq (h : g.Fenced low high)
    (hentries : ∀ i, low < i → i < high → g'.entries i = g.entries i) : g'.Fenced low high := by
  intro i hlow hhigh
  rw [hentries i hlow hhigh]
  exact h i hlow hhigh

/-- The conditions of a part of a graph whose blocks behind the first one are not entered any
more. -/
theorem Guarded.inside (h : g₁.Guarded n) (hsize : g₁.size ≤ g'.size)
    (hbranches : ∀ {slot i}, g'.Branches cond slot i → g₁.Branches cond slot i)
    (hentries : ∀ i : Nat, n < i → i < g₁.size → g'.entries i = g₁.entries i) (hcond : n ≤ cond)
    (hi : g'.Branches cond slot i) :
    ∃ high, cond < i ∧ i < high ∧ high ≤ g'.size ∧ g'.Fenced cond high := by
  obtain ⟨high, hlt, hhigh, hle, hfenced⟩ := h cond slot i hcond (hbranches hi)
  refine ⟨high, hlt, hhigh, Nat.le_trans hle hsize, hfenced.of_entries_eq fun j hj hj' => ?_⟩
  exact hentries j (Nat.lt_of_le_of_lt hcond hj) (Nat.lt_of_lt_of_le hj' hle)

/-- A base block has no branches. -/
theorem not_branches_of_code {c : Code} (hc : g.code cond = some c) (hbase : c.kind = .base) :
    ¬g.Branches cond slot i := by
  rw [branches_iff_code]
  rintro ⟨d, hd, hcond, -⟩
  obtain rfl := Option.some.inj (hc.symm.trans hd)
  cases hcond.symm.trans hbase

theorem branches_congr (h : g'.code cond = g.code cond) :
    g'.Branches cond slot i ↔ g.Branches cond slot i := by
  rw [branches_iff_code, branches_iff_code, h]

/-- The two branches of a test. -/
theorem eq_of_branches {statements : List Node} {onTrue onFalse : BlockId}
    (hcode : g.code cond = some ⟨.condition, statements, [onTrue, onFalse]⟩)
    (h : g.Branches cond slot i) : i = onTrue ∨ i = onFalse := by
  obtain ⟨c, hc, -, hslot⟩ := branches_iff_code.1 h
  obtain rfl := Option.some.inj (hcode.symm.trans hc)
  simpa using List.mem_of_getElem? hslot

theorem entries_connectIf_of_ne (g : Graph) {connected : Bool} {source target i : BlockId}
    (h : target ≠ i) : (g.connectIf connected source target).entries i = g.entries i := by
  unfold connectIf
  split
  · exact g.entries_connect_of_ne h
  · rfl

theorem entries_markFinalIf (g : Graph) (final : Bool) (block i : BlockId) :
    (g.markFinalIf final block).entries i = g.entries i := by
  unfold markFinalIf
  split
  · exact entries_modify _ _ _ fun _ => rfl
  · rfl

theorem entries_addJoin_of_ne (g : Graph) {test i : Nat} {yes no : Span} {yesPasses noPasses : Bool}
    (hyes : i ≠ yes.start) (hno : i ≠ no.start) (hjoin : i ≠ g.size) :
    (g.addJoin test yes no yesPasses noPasses).entries i = g.entries i := by
  rw [addJoin, entries_markFinalIf, entries_connectIf_of_ne _ hjoin.symm,
    entries_connectIf_of_ne _ hjoin.symm, entries_connectBranches_of_ne _ hyes.symm hno.symm,
    entries_addBlock]

end Graph

namespace Piece

variable {g₀ g g' : Graph} {span : Span} {passes : Bool} {cond slot i : Nat}

/-- The end of a piece is no condition when control passes it, so a piece of which only the end goes
on in another way keeps its branches. -/
theorem branches_of_code_eq (piece : Piece g₀ g span passes)
    (hcode : (passes = true → cond ≠ span.stop) → g'.code cond = g.code cond)
    (hstop : passes = true → ∀ c, g.code span.stop = some c →
      ∃ successors, g'.code span.stop = some { c with successors := successors })
    (h : g'.Branches cond slot i) : g.Branches cond slot i := by
  by_cases hend : passes = true ∧ cond = span.stop
  · obtain ⟨hpasses, rfl⟩ := hend
    obtain ⟨statements, hopen⟩ := piece.code_stop hpasses
    obtain ⟨successors, hclosed⟩ := hstop hpasses _ hopen
    exact absurd h (Graph.not_branches_of_code hclosed rfl)
  · exact (Graph.branches_congr (hcode fun hpasses heq => hend ⟨hpasses, heq⟩)).1 h

/-- The same for a piece of which the end was connected to the block `next`. -/
theorem branches_of_code {next : BlockId} (piece : Piece g₀ g span passes)
    (hcode : (passes = true → cond ≠ span.stop) → g'.code cond = g.code cond)
    (hstop : passes = true → g'.code span.stop = (g.code span.stop).map (·.addSuccessor next))
    (h : g'.Branches cond slot i) : g.Branches cond slot i := by
  refine piece.branches_of_code_eq hcode (fun hpasses c hc => ⟨c.successors ++ [next], ?_⟩) h
  rw [hstop hpasses, hc]
  rfl

/-- What comes behind the test of a piece is fenced. -/
theorem fenced {statements : List Node} (piece : Piece g g' span passes) (hg : g.Pristine)
    (hg' : g'.Pristine) (hfirst : g'.code g.size = some ⟨.base, statements, [g.size + 1]⟩) :
    g'.Fenced (g.size + 1) g'.size := by
  intro i hlow hhigh p hp
  obtain ⟨b, hb⟩ := hg'.exists_live hhigh
  rw [Graph.entries, hb.1, Option.elim_some] at hp
  obtain ⟨c, hc, hedge⟩ := hg'.consistent.mirrored.exists_predecessor hb hp
  refine ⟨Nat.le_of_not_lt fun hlt => ?_, hc.lt_size⟩
  have hcode : g'.code p = some c.code := by rw [Graph.code, hc.1, Option.map_some]
  rcases Nat.lt_succ_iff_lt_or_eq.1 hlt with hold | rfl
  -- An older block leads where it did before, which is not to the blocks of the piece.
  · obtain ⟨d, hd⟩ := hg.exists_live hold
    rw [piece.keeps p hold, Graph.code, hd.1, Option.map_some] at hcode
    have hsame : d.successors = c.successors :=
      congrArg Code.successors (Option.some.inj hcode)
    obtain ⟨e, he⟩ := hg.consistent.mirrored.successor_live hd (hsame ▸ hedge)
    exact absurd he.lt_size (Nat.not_lt_of_lt (Nat.lt_of_succ_lt hlow))
  · have hsame : c.successors = [g.size + 1] :=
      congrArg Code.successors (Option.some.inj (hcode.symm.trans hfirst))
    rw [hsame, List.mem_singleton] at hedge
    exact Nat.lt_irrefl _ (hedge ▸ hlow)

end Piece

namespace Node

/-- A way to lay out something such that the branches of its conditions are fenced. -/
def Guards (layOut : Scope → Graph → Graph × Span) : Prop :=
  ∀ {scope : Scope} {g g' : Graph} {span : Span}, layOut scope g = (g', span) →
    scope.Below g.size → g.Pristine → g'.Guarded g.size

/-- The same for the items of a compound statement, behind a base block. -/
def GuardsItems (items : List Node) : Prop :=
  ∀ {scope : Scope} {g g' : Graph} {current last : BlockId} {running : Bool},
    layOutItems scope g current running items = (g', last) → g.size > current →
    (running = true → ∃ statements, g.code current = some ⟨.base, statements, []⟩) →
    scope.Below g.size → g.Pristine → g'.Guarded g.size

variable {cond onTrue body decl item : Node} {onFalse : Option Node} {items rest : List Node}

/-- A piece of base blocks. -/
theorem guarded_of_code {g' : Graph} {n : Nat}
    (h : ∀ i c, n ≤ i → g'.code i = some c → c.kind = .base) : g'.Guarded n := by
  intro cond slot i hcond hi
  obtain ⟨c, hc, hkind, -⟩ := Graph.branches_iff_code.1 hi
  cases hkind.symm.trans (h cond c hcond hc)

theorem guards_addSingle (node : Node) (final : Bool) :
    Guards fun _ g => g.addSingle node final := by
  intro scope g g' span h _ _
  obtain rfl : (g.addSingle node final).1 = g' := congrArg Prod.fst h
  refine guarded_of_code fun i c hi hc => ?_
  rw [Graph.code_addSingle] at hc
  split at hc
  · exact Option.some.inj hc ▸ rfl
  · exact absurd hi (Nat.not_le_of_lt (Graph.lt_size_of_code hc))

theorem guards_addJump (kind : Jump) : Guards fun scope g => g.addJump (scope.target? kind) := by
  intro scope g g' span h _ _
  obtain rfl : (g.addJump (scope.target? kind)).1 = g' := congrArg Prod.fst h
  refine guarded_of_code fun i c hi hc => ?_
  rw [Graph.code_addJump] at hc
  split at hc
  · exact Option.some.inj hc ▸ rfl
  · exact absurd hi (Nat.not_le_of_lt (Graph.lt_size_of_code hc))

theorem guards_absent : Guards fun _ g => (g.addBlock .base, ⟨g.size, g.size⟩) := by
  intro scope g g' span h _ _
  obtain ⟨rfl, rfl⟩ := Prod.mk.inj h
  refine guarded_of_code fun i c hi hc => ?_
  rw [Graph.code_addBlock] at hc
  split at hc
  · exact Option.some.inj hc ▸ rfl
  · exact absurd hi (Nat.not_le_of_lt (Graph.lt_size_of_code hc))

/-- The header of a function is entered by nothing, and it enters the start of the body only. -/
theorem guards_function (hbody : Guards body.layOut) : Guards (function decl body).layOut := by
  intro scope g g' span h hbelow hg cond slot i hcond hi
  obtain ⟨g₁, inner, hg₁, rfl, rfl⟩ := layOut_function h
  have piece := piece_layOut hg₁
  have hbelow' : scope.Below (g.addHeader decl).size := hbelow.mono (by simp)
  have hstart := (adds_layOut body hg₁ hbelow').1
  have hheader : (g.addHeader decl).Pristine :=
    ((Extends.refl (fun _ => True) g).addHeader decl).pristine hg
  rcases Nat.eq_or_lt_of_le hcond with rfl | hlt
  · exact absurd hi (Graph.not_branches_of_code piece.code_function_header rfl)
  · have hle : (g.addHeader decl).size ≤ cond := by rwa [Graph.size_addHeader]
    refine (hbody hg₁ hbelow' hheader).inside (Nat.le_of_eq (Graph.size_connect ..).symm) ?_ ?_
      hle hi
    · exact (Graph.branches_congr (Piece.code_function_body hle)).1
    · intro j hj _
      exact g₁.entries_connect_of_ne (Nat.ne_of_lt (hstart ▸ hj))

/-- The test of a loop guards the body and the block behind the loop. -/
theorem guards_whileLoop (hbody : Guards body.layOut) : Guards (whileLoop cond body).layOut := by
  intro scope g g' span h hbelow hg test slot i htest hi
  have hg' := (adds_layOut _ h hbelow).2.pristine hg
  have whole := piece_layOut h
  obtain ⟨g₁, inner, hg₁, rfl, rfl⟩ := layOut_whileLoop h
  have piece := piece_layOut hg₁
  have hbelow' : (scope.enterLoop (g.size + 1) (g.size + 2)).Below (g.addWhile cond).size :=
    Scope.below_enterLoop (by simp) (by simp)
  have hstart := (adds_layOut body hg₁ hbelow').1
  have hfront : (g.addWhile cond).Pristine :=
    (((((Extends.refl (fun _ => True) g).addBlock _).addStatementBlock _ _).addBlock _).connect
      (by simp; omega) (by simp) trivial).pristine hg
  have hsize := piece.size_lt
  rw [Graph.size_addWhile] at hsize hstart
  rcases Nat.lt_or_ge test (g.size + 3) with hlt | hge
  · obtain rfl | rfl | rfl : test = g.size ∨ test = g.size + 1 ∨ test = g.size + 2 := by omega
    · exact absurd hi (Graph.not_branches_of_code piece.code_while_first rfl)
    · have hbounds : g.size + 1 < i ∧ i < g₁.size := by
        rcases Graph.eq_of_branches piece.code_while_test hi with rfl | rfl <;> omega
      refine ⟨_, hbounds.1, ?_, Nat.le_refl _, whole.fenced hg hg' piece.code_while_first⟩
      rw [Graph.size_closeWhile]
      exact hbounds.2
    · exact absurd hi (Graph.not_branches_of_code piece.code_while_after rfl)
  · have hle : (g.addWhile cond).size ≤ test := by rwa [Graph.size_addWhile]
    refine (hbody hg₁ hbelow' hfront).inside (Nat.le_of_eq (Graph.size_closeWhile ..).symm) ?_ ?_
      hle hi
    · exact piece.branches_of_code (Piece.code_while_body hle) piece.code_while_stop
    · intro j hj _
      rw [Graph.size_addWhile] at hj
      have hinner : inner.start ≠ j := Nat.ne_of_lt (hstart ▸ hj)
      have htest : g.size + 1 ≠ j := by omega
      have hafter : g.size + 2 ≠ j := by omega
      rw [Graph.closeWhile, Graph.entries_connectIf_of_ne _ htest,
        Graph.entries_connectBranches_of_ne _ hinner hafter]

theorem guards_forLoop {init : ForInit} {cond step : Option Node} (hbody : Guards body.layOut) :
    Guards (forLoop init cond step body).layOut := by
  intro scope g g' span h hbelow hg test slot i htest hi
  have hg' := (adds_layOut _ h hbelow).2.pristine hg
  have whole := piece_layOut h
  obtain ⟨g₁, inner, hg₁, rfl, rfl⟩ := layOut_forLoop h
  have piece := piece_layOut hg₁
  have hbelow' : (scope.enterLoop (g.size + 2) (g.size + 3)).Below
      (g.addFor init.statements (cond.getD (int 1)) step.toList).size :=
    Scope.below_enterLoop (by simp) (by simp)
  have hstart := (adds_layOut body hg₁ hbelow').1
  have hfront : (g.addFor init.statements (cond.getD (int 1)) step.toList).Pristine :=
    (((((Extends.refl (fun _ => True) g).addStatementBlock _ _).addStatementBlock _
      _).addStatementBlock _ _).addBlock _).pristine hg
  have hsize := piece.size_lt
  rw [Graph.size_addFor] at hsize hstart
  rcases Nat.lt_or_ge test (g.size + 4) with hlt | hge
  · obtain rfl | rfl | rfl | rfl :
        test = g.size ∨ test = g.size + 1 ∨ test = g.size + 2 ∨ test = g.size + 3 := by omega
    · exact absurd hi (Graph.not_branches_of_code piece.code_for_first rfl)
    · have hbounds : g.size + 1 < i ∧ i < g₁.size := by
        rcases Graph.eq_of_branches piece.code_for_test hi with rfl | rfl <;> omega
      refine ⟨_, hbounds.1, ?_, Nat.le_refl _, whole.fenced hg hg' piece.code_for_first⟩
      rw [Graph.size_closeFor]
      exact hbounds.2
    · exact absurd hi (Graph.not_branches_of_code piece.code_for_next rfl)
    · exact absurd hi (Graph.not_branches_of_code piece.code_for_after rfl)
  · have hle : (g.addFor init.statements (cond.getD (int 1)) step.toList).size ≤ test := by
      rwa [Graph.size_addFor]
    refine (hbody hg₁ hbelow' hfront).inside (Nat.le_of_eq (Graph.size_closeFor ..).symm) ?_ ?_
      hle hi
    · exact piece.branches_of_code (Piece.code_for_body hle) piece.code_for_stop
    · intro j hj _
      rw [Graph.size_addFor] at hj
      have hinner : inner.start ≠ j := Nat.ne_of_lt (hstart ▸ hj)
      have htest : g.size + 1 ≠ j := by omega
      have hnext : g.size + 2 ≠ j := by omega
      have hafter : g.size + 3 ≠ j := by omega
      rw [Graph.closeFor, Graph.entries_connect_of_ne _ htest,
        Graph.entries_connectIf_of_ne _ hnext, Graph.entries_connectBranches_of_ne _ hinner hafter,
        Graph.entries_connect_of_ne _ htest]

/-- The test of a conditional guards both branches. -/
theorem guards_branch (hyes : Guards onTrue.layOut)
    (hno : Guards fun scope g => layOutOptional scope g onFalse) :
    Guards (branch cond onTrue onFalse).layOut := by
  intro scope g g' span h hbelow hg test slot i htest hi
  have hg' := (adds_layOut _ h hbelow).2.pristine hg
  have whole := piece_layOut h
  obtain ⟨g₁, yes, g₂, no, hg₁, hg₂, rfl, rfl⟩ := layOut_branch h
  have pieceYes := piece_layOut hg₁
  have pieceNo := piece_layOutOptional hg₂
  have hbelowYes : scope.Below (g.addTest cond).size := hbelow.mono (by simp)
  obtain ⟨hstartYes, hextendsYes⟩ := adds_layOut onTrue hg₁ hbelowYes
  have hsizeYes := pieceYes.size_lt
  rw [Graph.size_addTest] at hsizeYes
  have hbelowNo : scope.Below g₁.size := hbelow.mono (by omega)
  obtain ⟨hstartNo, hextendsNo⟩ := adds_layOutOptional onFalse hg₂ hbelowNo
  have hsizeNo := pieceNo.size_lt
  have hfront : (g.addTest cond).Pristine :=
    ((((Extends.refl (fun _ => True) g).addBlock _).addStatementBlock _ _).connect
      (by rw [Graph.size_addStatementBlock, Graph.size_addBlock]; omega) (by simp)
        trivial).pristine hg
  have hmiddle := hextendsYes.pristine hfront
  rw [Graph.size_addTest] at hstartYes
  -- The blocks are the empty one in front, the test, the two branches and the join.
  rcases Nat.lt_or_ge test (g.size + 2) with hlt | hge
  · obtain rfl | rfl : test = g.size ∨ test = g.size + 1 := by omega
    · exact absurd hi (Graph.not_branches_of_code (pieceYes.code_branch_first pieceNo) rfl)
    · have hbounds : g.size + 1 < i ∧ i < g₂.size := by
        rcases Graph.eq_of_branches (pieceYes.code_branch_test pieceNo) hi with rfl | rfl <;> omega
      refine ⟨_, hbounds.1, ?_, Nat.le_refl _,
        whole.fenced hg hg' (pieceYes.code_branch_first pieceNo)⟩
      rw [Graph.size_addJoin]
      exact Nat.lt_succ_of_lt hbounds.2
  · rcases Nat.lt_or_ge test g₁.size with hmem | hmem
    · have hle : (g.addTest cond).size ≤ test := by rwa [Graph.size_addTest]
      refine (hyes hg₁ hbelowYes hfront).inside (by rw [Graph.size_addJoin]; omega) ?_ ?_ hle hi
      · exact pieceYes.branches_of_code (pieceYes.code_branch_yes pieceNo hle hmem)
          (pieceYes.code_branch_yes_stop pieceNo)
      · intro j hj hlt
        rw [Graph.size_addTest] at hj
        rw [g₂.entries_addJoin_of_ne (by omega) (by omega) (by omega)]
        -- The other branch enters blocks of its own, and jump targets in front of the piece.
        refine hextendsNo.entries j ?_
        rintro (⟨kind, htarget⟩ | hlate)
        · have htarget := hbelow kind j htarget
          omega
        · omega
    · rcases Nat.lt_or_ge test g₂.size with hlt' | hge'
      · refine (hno hg₂ hbelowNo hmiddle).inside (by simp) ?_ ?_ hmem hi
        · exact pieceNo.branches_of_code (pieceYes.code_branch_no pieceNo hmem hlt')
            (pieceYes.code_branch_no_stop pieceNo)
        · intro j hj hlt
          exact g₂.entries_addJoin_of_ne (by omega) (by omega) (by omega)
      · have hlt := hi.lt_size
        rw [Graph.size_addJoin] at hlt
        obtain rfl := Nat.le_antisymm (Nat.le_of_lt_succ hlt) hge'
        exact absurd hi (Graph.not_branches_of_code (pieceYes.code_branch_join pieceNo) rfl)

theorem guardsItems_nil : GuardsItems [] := by
  intro scope g g' current last running h _ _ _ _
  rw [layOutItems] at h
  obtain ⟨rfl, rfl⟩ := Prod.mk.inj h
  intro cond slot i hcond hi
  exact absurd hi.lt_size (Nat.not_lt_of_le hcond)

theorem guardsItems_cons (hitem : Guards item.layOut) (hrest : GuardsItems rest) :
    GuardsItems (item :: rest) := by
  intro scope g g' current last running h hcurrent hopen hbelow hg cond slot i hcond hi
  obtain ⟨g₁, span, hg₁, h⟩ := layOutItems_cons h
  have piece := piece_layOut hg₁
  obtain ⟨hstart, hextends⟩ := adds_layOut item hg₁ hbelow
  have hpristine := hextends.pristine hg
  have hlt := piece.size_lt
  have hbelow' := hbelow.mono (Nat.le_of_lt hlt)
  have hcurrent' : g₁.size > current := Nat.lt_trans hcurrent hlt
  -- The items behind enter blocks of their own, and jump targets in front of all items.
  have hinner (j : Nat) (hj : g.size < j) (hlt : j < g₁.size) :
      ¬((∃ kind, scope.target? kind = some j) ∨ g₁.size ≤ j) := by
    rintro (⟨kind, htarget⟩ | hlate)
    · exact Nat.lt_asymm hj (hbelow kind j htarget)
    · exact Nat.not_lt_of_le hlate hlt
  cases running with
  | false =>
    have hadds := adds_layOutItems rest h hbelow' hcurrent'
    have chain := chain_layOutItems h hcurrent' nofun
    rcases Nat.lt_or_ge cond g₁.size with hmem | hmem
    · refine (hitem hg₁ hbelow hg).inside hadds.size_le ?_ ?_ hcond hi
      · exact (Graph.branches_congr (chain.keeps cond hmem nofun)).1
      · exact fun j hj hlt => hadds.entries j (hinner j hj hlt)
    · exact hrest h hcurrent' nofun hbelow' hpristine cond slot i hmem hi
  | true =>
    obtain ⟨statements, hcode⟩ := hopen rfl
    simp only [if_true] at h
    have hne : span.stop ≠ current := Nat.ne_of_gt (Nat.lt_of_lt_of_le hcurrent piece.le_stop)
    have hstop : (g₁.connect current span.start).size > span.stop := by simpa using piece.stop_lt
    have hopen' (hpasses : item.completes = true) : ∃ statements,
        (g₁.connect current span.start).code span.stop = some ⟨.base, statements, []⟩ := by
      rw [g₁.code_connect_of_ne _ hne]
      exact piece.code_stop hpasses
    have hbelow'' : scope.Below (g₁.connect current span.start).size := by
      rwa [Graph.size_connect]
    have hadds := adds_layOutItems rest h hbelow'' hstop
    have chain := chain_layOutItems h hstop hopen'
    rw [Graph.size_connect] at hadds
    rcases Nat.lt_or_ge cond g₁.size with hmem | hmem
    · refine (hitem hg₁ hbelow hg).inside (by simpa using hadds.size_le) ?_ ?_ hcond hi
      · refine piece.branches_of_code_eq (fun hnot => ?_) fun hpasses c hc => ?_
        · rw [chain.keeps cond (by simpa using hmem) hnot,
            g₁.code_connect_of_ne _ (Nat.ne_of_gt (Nat.lt_of_lt_of_le hcurrent hcond))]
        · exact chain.code_current c ((g₁.code_connect_of_ne _ hne).trans hc)
      · intro j hj hlt
        have hne' : span.start ≠ j := Nat.ne_of_lt (hstart ▸ hj)
        rw [hadds.entries j (hinner j hj hlt), g₁.entries_connect_of_ne hne']
    · have hconnected := hpristine.connect hcurrent' piece.start_lt
      exact hrest h hstop hopen' hbelow'' hconnected cond slot i (by simpa using hmem) hi

theorem guards_compound (hitems : GuardsItems items) : Guards (compound items).layOut := by
  intro scope g g' span h hbelow hg cond slot i hcond hi
  have hstart := piece_layOut h
  obtain ⟨last, hlast, rfl⟩ := layOut_compound h
  have hfirst := g.code_addBlock_self .base
  have hguarded := hitems hlast (by simp) (fun _ => ⟨[], hfirst⟩) (hbelow.mono (by simp))
    (hg.addBlock .base)
  have chain := chain_layOutItems hlast (by simp) fun _ => ⟨[], hfirst⟩
  rcases Nat.eq_or_lt_of_le hcond with rfl | hlt
  · obtain ⟨_, hcode⟩ := chain.code_current _ hfirst
    exact absurd hi (Graph.not_branches_of_code hcode rfl)
  · exact hguarded cond slot i (by rwa [Graph.size_addBlock]) hi

private theorem layOutCases_guards : LayOutCases (fun layOut _ => Guards layOut) GuardsItems where
  single := fun node final _ => guards_addSingle node final
  jump := guards_addJump
  absent := guards_absent
  function := guards_function
  branch := guards_branch
  whileLoop := guards_whileLoop
  forLoop := guards_forLoop
  nil := guardsItems_nil
  cons := guardsItems_cons
  compound := guards_compound

/-- The branches of the conditions of a node are fenced. -/
theorem guards_layOut (node : Node) : Guards node.layOut :=
  layOutCases_guards.layOut node

/-- A branch is reachable only if its condition is. -/
theorem mem_reachable_of_branches (node : Node) {cond slot i : Nat}
    (h : node.toGraph.Branches cond slot i) (hi : i ∈ node.toGraph.reachable) :
    cond ∈ node.toGraph.reachable := by
  rcases hlay : node.layOut (.top 0) (({} : Graph).addBlock .base) with ⟨g, span⟩
  have hempty : ({} : Graph).Pristine :=
    ⟨.empty, fun hb => by simp [Graph.block?] at hb, fun hb => by simp [Graph.block?] at hb⟩
  have hguarded := guards_layOut node hlay below_top (hempty.addBlock .base)
  have hstart := (adds_layOut node hlay below_top).1
  have hpristine := pristine_toGraph node
  have hgraph : node.toGraph =
      { g with name := node.functionName?, entry := span.start, exit := span.stop } := by
    rw [toGraph, hlay]
  rw [hgraph] at h hi hpristine ⊢
  -- The block set aside for returns is no condition.
  have hcond : 1 ≤ cond := by
    refine Nat.one_le_iff_ne_zero.2 ?_
    rintro rfl
    have hsink := (piece_layOut hlay).keeps 0 (by simp)
    exact Graph.not_branches_of_code (hsink.trans (Graph.code_addBlock_self {} .base)) rfl h
  obtain ⟨high, hlow, hhigh, -, hfenced⟩ := hguarded cond slot i hcond h
  exact Graph.Fenced.mem_reachable hfenced hpristine (hstart ▸ hcond) hi hlow hhigh

end Node

end FlowGraph
