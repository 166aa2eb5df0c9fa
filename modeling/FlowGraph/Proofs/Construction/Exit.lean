import FlowGraph.Proofs.Construction.WellFormed
import FlowGraph.Proofs.Simplification.NormalForm

/-!
# The exit of a graph that is built

The exit is the block in which a tree ends. Absorbing and bypassing that block moves the exit, but
pruning does not, and pruning detaches the exit when control never comes to it. That depends on the
last statement that control comes to: if it is a conditional both of whose branches jump or return,
then the block in which its branches join has no predecessors.

## Main definitions

* `Node.reachesEnd`: control comes to the block in which a tree ends
* `Ends`: a piece whose start leads to its end, or whose end is not entered

## Main results

* `Node.ends_layOut`: the pieces of all nodes
* `Graph.RewritesTo.exists_live_exit_iff`: simplification moves the exit with its block
* `Node.live_exit_iff_of_build`: when the exit of a graph that is built is live
-/

namespace FlowGraph

namespace Node

mutual

/-- Whether control comes to the block in which a node ends. A loop always has a block behind it,
and a conditional ends where its branches join. -/
def reachesEnd : Node → Bool
  | function _ body => body.reachesEnd
  | compound items => reachesEndAll items
  | branch _ onTrue onFalse => onTrue.completes || completesOptional onFalse
  | _ => true

/-- Whether control comes to the block in which a list of statements ends, which is that of the
first statement whose end control cannot pass. -/
def reachesEndAll : List Node → Bool
  | [] => true
  | item :: rest => if item.completes then reachesEndAll rest else item.reachesEnd

end

end Node

namespace Graph

variable {g g' g'' : Graph} {i j source target : BlockId}

/-- Edges lead from one block to another. -/
def Connects (g : Graph) : BlockId → BlockId → Prop :=
  Relation.ReflTransGen fun i j => j ∈ g.successors i

/-- All edges of `g` are edges of `g'`. -/
def EdgesIn (g g' : Graph) : Prop :=
  ∀ ⦃i j⦄, j ∈ g.successors i → j ∈ g'.successors i

theorem Connects.mono (h : g.Connects i j) (hedges : g.EdgesIn g') : g'.Connects i j :=
  Relation.ReflTransGen.mono (fun _ _ hj => hedges hj) _ _ h

theorem Connects.of_code {c : Code} (h : g.code i = some c) (hj : j ∈ c.successors) :
    g.Connects i j :=
  .single (by rwa [successors_of_code h])

namespace EdgesIn

theorem refl (g : Graph) : g.EdgesIn g :=
  fun _ _ => id

theorem trans (h : g.EdgesIn g') (h' : g'.EdgesIn g'') : g.EdgesIn g'' :=
  fun _ _ hj => h' (h hj)

theorem of_code (h : ∀ i c, g.code i = some c →
    ∃ c', g'.code i = some c' ∧ c.successors ⊆ c'.successors) : g.EdgesIn g' := by
  intro i j hj
  cases hi : g.code i with
  | none =>
    rw [successors_eq_code, hi] at hj
    cases hj
  | some c =>
    obtain ⟨c', hc', hsubset⟩ := h i c hi
    rw [successors_of_code hi] at hj
    rw [successors_of_code hc']
    exact hsubset hj

theorem addBlock (h : g.EdgesIn g') (kind : BlockKind) : g.EdgesIn (g'.addBlock kind) :=
  h.trans (of_code fun i c hc =>
    ⟨c, by rw [code_addBlock_of_lt _ _ (lt_size_of_code hc), hc], List.Subset.refl _⟩)

theorem connect (h : g.EdgesIn g') (source target : BlockId) :
    g.EdgesIn (g'.connect source target) := by
  refine h.trans (of_code fun i c hc => ?_)
  rw [code_connect, hc]
  split
  · exact ⟨_, rfl, List.subset_append_left _ _⟩
  · exact ⟨c, rfl, List.Subset.refl _⟩

theorem connectIf (h : g.EdgesIn g') (connected : Bool) (source target : BlockId) :
    g.EdgesIn (g'.connectIf connected source target) := by
  unfold Graph.connectIf
  split
  · exact h.connect source target
  · exact h

theorem markFinalIf (h : g.EdgesIn g') (final : Bool) (block : BlockId) :
    g.EdgesIn (g'.markFinalIf final block) :=
  h.trans (of_code fun i c hc => ⟨c, by rw [code_markFinalIf, hc], List.Subset.refl _⟩)

/-- Branches are given to a condition that had no edges before. -/
theorem connectBranches (h : g.EdgesIn g') {cond : BlockId} {code : Code}
    (hcond : g'.code cond = some code) (hnone : code.successors = []) (onTrue onFalse : BlockId) :
    g.EdgesIn (g'.connectBranches cond onTrue onFalse) := by
  refine h.trans (of_code fun i c hc => ?_)
  rw [code_connectBranches, hc]
  split
  · rename_i hi
    obtain rfl := Option.some.inj (hcond.symm.trans (hi ▸ hc))
    exact ⟨_, rfl, by simp [hnone]⟩
  · exact ⟨c, rfl, List.Subset.refl _⟩

end EdgesIn

end Graph

theorem Piece.edgesIn {g g' : Graph} {span : Span} {passes : Bool} (p : Piece g g' span passes) :
    g.EdgesIn g' :=
  .of_code fun i c hc =>
    ⟨c, by rw [p.keeps i (Graph.lt_size_of_code hc), hc], List.Subset.refl _⟩

/-- The end of a piece from which control goes on leads to the block that it was connected to. -/
theorem Piece.connects_of_code_stop {g g' G : Graph} {span : Span} {passes : Bool}
    {target : BlockId} (p : Piece g g' span passes) (hpasses : passes = true)
    (hlast : G.code span.stop = (g'.code span.stop).map (·.addSuccessor target)) :
    G.Connects span.stop target := by
  obtain ⟨_, hstop⟩ := p.code_stop hpasses
  rw [hstop] at hlast
  exact .of_code hlast (by simp [Code.addSuccessor])

/-- The start of a piece leads to its end if `reached` says so. Otherwise its end is another block,
and it has no predecessors. -/
structure Ends (g : Graph) (span : Span) (reached : Bool) : Prop where
  connects : reached = true → g.Connects span.start span.stop
  ne : reached = false → span.start ≠ span.stop
  entries : reached = false → g.entries span.stop = []

theorem Ends.of_eq {g : Graph} {id : BlockId} : Ends g ⟨id, id⟩ true :=
  ⟨fun _ => .refl, nofun, nofun⟩

namespace Node

variable {scope : Scope} {g g' : Graph} {span : Span} {current last : BlockId}

mutual

/-- Control that passes the end of a node comes to the block in which it ends. -/
theorem reachesEnd_of_completes : ∀ node : Node, node.completes = true → node.reachesEnd = true
  | function _ body, h => by
    rw [completes] at h
    rw [reachesEnd]
    exact reachesEnd_of_completes body h
  | compound items, h => by
    rw [completes] at h
    rw [reachesEnd]
    exact reachesEndAll_of_completes items h
  | branch .., h => by
    rw [completes] at h
    rw [reachesEnd]
    exact h
  | ret .., _ | jump .., _ | whileLoop .., _ | forLoop .., _ | declarator .., _ | parameters .., _
  | declaration .., _ | binary .., _ | unary .., _ | assignment .., _ | ident .., _
  | constant .., _ | call .., _ => by simp only [reachesEnd]

private theorem reachesEndAll_of_completes : ∀ items : List Node, completesAll items = true →
    reachesEndAll items = true
  | [], _ => by rw [reachesEndAll]
  | item :: rest, h => by
    rw [completesAll, Bool.and_eq_true] at h
    rw [reachesEndAll, if_pos h.1]
    exact reachesEndAll_of_completes rest h.2

end

/-- A way to lay out something whose start leads to its end if `reached` says so. -/
def EndsLayOut (layOut : Scope → Graph → Graph × Span) (reached : Bool) : Prop :=
  ∀ {scope g g' span}, layOut scope g = (g', span) → scope.Below g.size → Ends g' span reached

theorem ends_function {decl body : Node} (hbody : EndsLayOut body.layOut body.reachesEnd) :
    EndsLayOut (function decl body).layOut (function decl body).reachesEnd := by
  intro scope g g' span h hbelow
  obtain ⟨g₁, inner, hg₁, rfl, rfl⟩ := layOut_function h
  have hpiece := piece_layOut hg₁
  have hends := hbody hg₁ (hbelow.mono (by simp))
  have hle := hpiece.le_stop
  rw [Graph.size_addHeader] at hle
  rw [reachesEnd]
  exact
    { connects := fun hreached =>
        (Graph.Connects.of_code hpiece.code_function_header List.mem_cons_self).trans
          ((hends.connects hreached).mono ((Graph.EdgesIn.refl g₁).connect _ _))
      ne := fun _ => Nat.ne_of_lt hle
      entries := fun hnot => by
        rw [Graph.closeFunction, Graph.entries_connect_of_ne _ (hends.ne hnot),
          hends.entries hnot] }

/-- Control comes to the block behind a conditional over the branches whose end it can pass. -/
theorem ends_branch {cond onTrue : Node} {onFalse : Option Node}
    (hyes : EndsLayOut onTrue.layOut onTrue.reachesEnd)
    (hno : ∀ {scope g g' span}, layOutOptional scope g onFalse = (g', span) →
      scope.Below g.size → completesOptional onFalse = true → g'.Connects span.start span.stop) :
    EndsLayOut (branch cond onTrue onFalse).layOut (branch cond onTrue onFalse).reachesEnd := by
  intro scope g g' span h hbelow
  obtain ⟨g₁, yes, g₂, no, hg₁, hg₂, rfl, rfl⟩ := layOut_branch h
  have hpieceYes := piece_layOut hg₁
  have hpieceNo := piece_layOutOptional hg₂
  have hsizeYes := hpieceYes.size_lt
  have hsizeNo := hpieceNo.size_lt
  rw [Graph.size_addTest] at hsizeYes
  have hjoin : g.size < g₂.size := by omega
  have hcode : (g₂.addBlock .base).code (g.size + 1) = some ⟨.condition, [cond], []⟩ := by
    rw [g₂.code_addBlock_of_lt _ (by omega), hpieceNo.keeps _ (by omega),
      hpieceYes.keeps _ (by rw [Graph.size_addTest]; omega), Graph.code_addTest]
    simp
  have hedges : g₂.EdgesIn
      (g₂.addJoin (g.size + 1) yes no onTrue.completes (completesOptional onFalse)) :=
    (((((Graph.EdgesIn.refl g₂).addBlock .base).connectBranches hcode rfl _ _).connectIf _ _
      _).connectIf _ _ _).markFinalIf _ _
  have htest := hpieceYes.code_branch_test hpieceNo
  have hfirst := Graph.Connects.of_code (hpieceYes.code_branch_first hpieceNo) List.mem_cons_self
  rw [reachesEnd]
  refine ⟨fun hreached => hfirst.trans ?_, fun _ => Nat.ne_of_lt hjoin, fun hnot => ?_⟩
  · rcases Bool.or_eq_true_iff.1 hreached with hcompletes | hcompletes
    · have hinner := ((hyes hg₁ (hbelow.mono (by simp))).connects
        (reachesEnd_of_completes _ hcompletes)).mono (hpieceNo.edgesIn.trans hedges)
      have hlast := hpieceYes.connects_of_code_stop hcompletes
        (hpieceYes.code_branch_yes_stop hpieceNo hcompletes)
      exact ((Graph.Connects.of_code htest (by simp)).trans hinner).trans hlast
    · have hinner := (hno hg₂ (hbelow.mono (by omega)) hcompletes).mono hedges
      have hlast := hpieceNo.connects_of_code_stop hcompletes
        (hpieceYes.code_branch_no_stop hpieceNo hcompletes)
      exact ((Graph.Connects.of_code htest (by simp)).trans hinner).trans hlast
  · obtain ⟨hyesNot, hnoNot⟩ := Bool.or_eq_false_iff.1 hnot
    have hyesStart := Nat.lt_trans hpieceYes.start_lt hsizeNo
    rw [Graph.addJoin, hyesNot, hnoNot, Graph.markFinalIf]
    simp only [Graph.connectIf, Bool.false_eq_true, if_false, Bool.not_false, Bool.and_self,
      if_true]
    rw [Graph.entries_modify _ _ _ (f := (·.markFinal)) fun _ => rfl,
      Graph.entries_connectBranches_of_ne _ (Nat.ne_of_lt hyesStart)
        (Nat.ne_of_lt hpieceNo.start_lt), Graph.entries_addBlock,
      Graph.entries_of_size_le (Nat.le_refl _)]

theorem ends_whileLoop (cond body : Node) :
    EndsLayOut (whileLoop cond body).layOut (whileLoop cond body).reachesEnd := by
  rintro scope g g' span h -
  obtain ⟨g₁, inner, hg₁, rfl, rfl⟩ := layOut_whileLoop h
  have hpiece := piece_layOut hg₁
  simp only [reachesEnd]
  exact ⟨fun _ => (Graph.Connects.of_code hpiece.code_while_first List.mem_cons_self).trans
    (Graph.Connects.of_code hpiece.code_while_test (by simp)), nofun, nofun⟩

theorem ends_forLoop (init : ForInit) (cond step : Option Node) (body : Node) :
    EndsLayOut (forLoop init cond step body).layOut (forLoop init cond step body).reachesEnd := by
  rintro scope g g' span h -
  obtain ⟨g₁, inner, hg₁, rfl, rfl⟩ := layOut_forLoop h
  have hpiece := piece_layOut hg₁
  simp only [reachesEnd]
  exact ⟨fun _ => (Graph.Connects.of_code hpiece.code_for_first List.mem_cons_self).trans
    (Graph.Connects.of_code hpiece.code_for_test (by simp)), nofun, nofun⟩

/-- The items of a compound statement keep all edges. -/
theorem edgesIn_layOutItems {items : List Node} {running : Bool}
    (h : layOutItems scope g current running items = (g', last)) : g.EdgesIn g' := by
  induction items generalizing g current running with
  | nil =>
    rw [layOutItems] at h
    obtain ⟨rfl, rfl⟩ := Prod.mk.inj h
    exact .refl g
  | cons item rest ih =>
    obtain ⟨g₁, span, hg₁, h⟩ := layOutItems_cons h
    have hpiece := piece_layOut hg₁
    cases running with
    | false => exact hpiece.edgesIn.trans (ih h)
    | true => exact (hpiece.edgesIn.connect _ _).trans (ih h)

/-- Items that control does not come to leave the end where it is. -/
theorem layOutItems_unreached {items : List Node}
    (h : layOutItems scope g current false items = (g', last)) : last = current := by
  induction items generalizing g with
  | nil =>
    rw [layOutItems] at h
    exact (Prod.mk.inj h).2.symm
  | cons item rest ih =>
    rw [layOutItems] at h
    exact ih h

/-- Items behind a block that control comes to. They end in that block or in one that they add. -/
private def EndsItems (items : List Node) : Prop :=
  ∀ {scope g g' current last}, layOutItems scope g current true items = (g', last) →
    scope.Below g.size → current < g.size →
      (last = current ∨ g.size ≤ last) ∧ Ends g' ⟨current, last⟩ (reachesEndAll items)

private theorem endsItems_nil : EndsItems [] := by
  rintro scope g g' current last h - -
  rw [layOutItems] at h
  obtain ⟨rfl, rfl⟩ := Prod.mk.inj h
  rw [reachesEndAll]
  exact ⟨.inl rfl, .of_eq⟩

private theorem endsItems_cons {item : Node} {rest : List Node}
    (hitem : EndsLayOut item.layOut item.reachesEnd) (hrest : EndsItems rest) :
    EndsItems (item :: rest) := by
  intro scope g g' current last h hbelow hcurrent
  obtain ⟨g₁, span, hg₁, h⟩ := layOutItems_cons h
  simp only [if_true] at h
  have hpiece := piece_layOut hg₁
  have hends := hitem hg₁ hbelow
  have hsize : (g₁.connect current span.start).size = g₁.size := Graph.size_connect ..
  have hlt := hpiece.size_lt
  have hle := hpiece.le_stop
  -- Control goes on with the item, whatever comes after it.
  have hedges := edgesIn_layOutItems h
  have hmem : span.start ∈ (g₁.connect current span.start).successors current := by
    obtain ⟨c, hc⟩ := g₁.exists_code (Nat.lt_trans hcurrent hlt)
    rw [Graph.successors_eq_code, Graph.code_connect_self, hc]
    simp [Code.addSuccessor]
  have hstart : g'.Connects current span.start := .single (hedges hmem)
  have hinner (hreached : item.reachesEnd = true) : g'.Connects current span.stop :=
    hstart.trans ((hends.connects hreached).mono
      (((Graph.EdgesIn.refl g₁).connect _ _).trans hedges))
  rw [reachesEndAll]
  cases hcompletes : item.completes with
  | true =>
    rw [hcompletes] at h
    obtain ⟨hlast, hbehind⟩ := hrest h (hsize ▸ hbelow.mono (Nat.le_of_lt hlt))
      (hsize ▸ hpiece.stop_lt)
    rw [hsize] at hlast
    have hafter : g.size ≤ last := by
      rcases hlast with rfl | hlast <;> omega
    exact ⟨.inr hafter, fun hreached => (hinner (reachesEnd_of_completes _ hcompletes)).trans
      (hbehind.connects hreached), fun _ => Nat.ne_of_lt (Nat.lt_of_lt_of_le hcurrent hafter),
      hbehind.entries⟩
  | false =>
    rw [hcompletes] at h
    obtain rfl := layOutItems_unreached h
    refine ⟨.inr hle, hinner, fun _ => Nat.ne_of_lt (Nat.lt_of_lt_of_le hcurrent hle), ?_⟩
    intro hnot
    -- What control does not come to enters jump targets and its own blocks only.
    have hrest := adds_layOutItems rest h (hsize ▸ hbelow.mono (Nat.le_of_lt hlt))
      (hsize ▸ hpiece.stop_lt)
    dsimp only at hnot ⊢
    rw [hrest.entries _ ?_, Graph.entries_connect_of_ne _ (hends.ne hnot), hends.entries hnot]
    rw [hsize]
    rintro (⟨kind, htarget⟩ | hover)
    · exact Nat.not_lt_of_le hle (hbelow kind _ htarget)
    · exact Nat.not_lt_of_le hover hpiece.stop_lt

theorem ends_compound {items : List Node} (hitems : EndsItems items) :
    EndsLayOut (compound items).layOut (compound items).reachesEnd := by
  intro scope g g' span h hbelow
  obtain ⟨last, hlast, rfl⟩ := layOut_compound h
  rw [reachesEnd]
  exact (hitems hlast (hbelow.mono (by simp)) (by simp)).2

private theorem ends_of_single {node : Node} (hreached : node.reachesEnd = true)
    (hlayOut : ∀ scope g, ∃ g', node.layOut scope g = (g', ⟨g.size, g.size⟩)) :
    EndsLayOut node.layOut node.reachesEnd := by
  rintro scope g g' span h -
  obtain ⟨g'', hg''⟩ := hlayOut scope g
  obtain ⟨-, rfl⟩ := Prod.mk.inj (h.symm.trans hg'')
  rw [hreached]
  exact .of_eq

mutual

/-- The start of a piece leads to its end, or nothing does. -/
theorem ends_layOut : ∀ node : Node, EndsLayOut node.layOut node.reachesEnd
  | function _ body => ends_function (ends_layOut body)
  | compound items => ends_compound (ends_layOutItems items)
  | branch _ onTrue none => ends_branch (ends_layOut onTrue) fun h _ _ => by
    rw [layOutOptional] at h
    obtain ⟨-, rfl⟩ := Prod.mk.inj h
    exact .refl
  | branch _ onTrue (some onFalse) =>
    ends_branch (ends_layOut onTrue) fun h hbelow hcompletes => by
      rw [layOutOptional] at h
      rw [completesOptional] at hcompletes
      exact (ends_layOut onFalse h hbelow).connects (reachesEnd_of_completes _ hcompletes)
  | whileLoop cond body => ends_whileLoop cond body
  | forLoop init cond step body => ends_forLoop init cond step body
  | ret _ | jump _ | declarator .. | parameters .. | declaration .. | binary .. | unary ..
  | assignment .. | ident .. | constant .. | call .. =>
    ends_of_single (by simp only [reachesEnd]) fun _ _ => by simp only [layOut]; exact ⟨_, rfl⟩

private theorem ends_layOutItems : ∀ items : List Node, EndsItems items
  | [] => endsItems_nil
  | item :: rest => endsItems_cons (ends_layOut item) (ends_layOutItems rest)

end

end Node

namespace Graph

variable {g g' : Graph} {i : BlockId} {e : Block}

theorem Mirrored.mem_reachable_of_connects (hg : g.Mirrored) (hentry : g.Live g.entry e)
    (h : g.Connects g.entry i) : i ∈ g.reachable := by
  induction h with
  | refl => exact mem_reachable_iff.2 ⟨hentry.lt_size, .refl⟩
  | tail _ step ih =>
    obtain ⟨c, hc⟩ := hg.exists_live_of_mem_reachable hentry ih
    exact hg.mem_reachable hc ih (hc.successors ▸ step)

/-- Of the blocks without predecessors the entry alone is reachable. -/
theorem Mirrored.not_mem_reachable (hg : g.Mirrored) (hentry : g.Live g.entry e)
    (hne : g.entry ≠ i) (hnone : g.entries i = []) : i ∉ g.reachable := by
  intro hi
  obtain ⟨c, hc⟩ := hg.exists_live_of_mem_reachable hentry hi
  obtain ⟨p, hp, hedge⟩ := exists_reachable_predecessor hi hne.symm
  obtain ⟨d, hd⟩ := hg.exists_live_of_mem_reachable hentry hp
  rw [hd.successors, ← hg.mem_predecessors_iff hd hc] at hedge
  rw [entries, hc.1, Option.elim_some] at hnone
  rw [hnone] at hedge
  cases hedge

/-- A step of simplification that detaches the exit moves it to a live block. -/
theorem Rewrites.exists_live_exit_iff (h : g.Rewrites g') (hg : g.Mirrored) :
    (∃ b, g'.Live g'.exit b) ↔ ∃ b, g.Live g.exit b := by
  cases h with
  | @absorb id next b n absorbs hne =>
    rw [exit_absorbed]
    split
    · rename_i hexit
      exact iff_of_true ⟨_, live_absorbed_iff.2 ⟨b, absorbs.source, hne, rfl⟩⟩
        ⟨n, hexit ▸ absorbs.target⟩
    · rename_i hexit
      simp only [live_absorbed_iff]
      exact ⟨fun ⟨_, b, hb, _⟩ => ⟨b, hb⟩, fun ⟨b, hb⟩ => ⟨_, b, hb, hexit, rfl⟩⟩
  | @bypass id target b bypasses =>
    rw [exit_bypassed]
    split
    · rename_i hexit
      obtain ⟨t, ht⟩ := hg.successor_live bypasses.source (j := target)
        (by simp [bypasses.successors])
      exact iff_of_true ⟨_, live_bypassed_iff.2 ⟨t, ht, bypasses.ne, rfl⟩⟩
        ⟨b, hexit ▸ bypasses.source⟩
    · rename_i hexit
      simp only [live_bypassed_iff]
      exact ⟨fun ⟨_, b, hb, _⟩ => ⟨b, hb⟩, fun ⟨b, hb⟩ => ⟨_, b, hb, hexit, rfl⟩⟩

theorem Rewrites.exit_lt_size (h : g.Rewrites g') (hg : g.Mirrored) (hexit : g.exit < g.size) :
    g'.exit < g'.size := by
  rw [h.size_eq]
  cases h with
  | absorb absorbs =>
    rw [exit_absorbed]
    split
    · exact absorbs.source.lt_size
    · exact hexit
  | @bypass id target b bypasses =>
    rw [exit_bypassed]
    split
    · obtain ⟨t, ht⟩ := hg.successor_live bypasses.source (j := target)
        (by simp [bypasses.successors])
      exact ht.lt_size
    · exact hexit

namespace RewritesTo

/-- The exit is live after any number of steps if it was so before. -/
theorem exists_live_exit_iff (h : g.RewritesTo g') (hg : g.Consistent) :
    (∃ b, g'.Live g'.exit b) ↔ ∃ b, g.Live g.exit b :=
  (h.preserves (P := fun k => k.Consistent ∧ ((∃ b, k.Live k.exit b) ↔ ∃ b, g.Live g.exit b))
    (fun step hk => ⟨step.consistent hk.1, (step.exists_live_exit_iff hk.1.mirrored).trans hk.2⟩)
    ⟨hg, Iff.rfl⟩).2

theorem exit_lt_size (h : g.RewritesTo g') (hg : g.Consistent) (hexit : g.exit < g.size) :
    g'.exit < g'.size :=
  (h.preserves (P := fun k => k.Consistent ∧ k.exit < k.size)
    (fun step hk => ⟨step.consistent hk.1, step.exit_lt_size hk.1.mirrored hk.2⟩) ⟨hg, hexit⟩).2

end RewritesTo

end Graph

namespace Node

variable {node : Node} {options : Options} {log log' : Log} {g : Graph}

theorem exit_lt_size_toGraph (node : Node) : node.toGraph.exit < node.toGraph.size := by
  rcases hlay : node.layOut (.top 0) (({} : Graph).addBlock .base) with ⟨g, span⟩
  rw [toGraph, hlay]
  exact (piece_layOut hlay).stop_lt

/-- The exit of the graph of a tree is reachable if control comes to the end of the tree. -/
theorem exit_mem_reachable_toGraph_iff (node : Node) :
    node.toGraph.exit ∈ node.toGraph.reachable ↔ node.reachesEnd = true := by
  have hg := wellFormed_toGraph node
  rcases hlay : node.layOut (.top 0) (({} : Graph).addBlock .base) with ⟨g, span⟩
  have hends := ends_layOut node hlay below_top
  have hgraph : node.toGraph =
      { g with name := node.functionName?, entry := span.start, exit := span.stop } := by
    rw [toGraph, hlay]
  rw [hgraph] at hg ⊢
  obtain ⟨e, he, -⟩ := hg.rooted
  cases hreached : node.reachesEnd with
  | true =>
    exact iff_of_true (hg.consistent.mirrored.mem_reachable_of_connects he
      (hends.connects hreached)) rfl
  | false =>
    exact iff_of_false (hg.consistent.mirrored.not_mem_reachable he (hends.ne hreached)
      (hends.entries hreached)) Bool.false_ne_true

/-- The exit of a graph that is built is one of its blocks. It is live unless the graph was
simplified and control does not come to the end of the tree. -/
theorem live_exit_iff_of_build (hbuild : (node.build options).run log = .ok g log') :
    ∃ b, g.block? g.exit = some b ∧
      (b.isDetached = false ↔ (options.simplify = true → node.reachesEnd = true)) := by
  have hraw := wellFormed_toGraph node
  have hexit := exit_lt_size_toGraph node
  obtain ⟨b, hb⟩ := (pristine_toGraph node).exists_live hexit
  have hsame : g.exit < g.size ∧
      ((∃ c, g.Live g.exit c) ↔ (options.simplify = true → node.reachesEnd = true)) := by
    rcases graph_eq_of_build hbuild with ⟨hoption, rfl⟩ | ⟨hoption, report, hrun⟩
    · exact ⟨hexit, iff_of_true ⟨b, hb⟩ (by simp [hoption])⟩
    · obtain ⟨e, he, -⟩ := hraw.pruned.rooted
      obtain ⟨report', g', hrun', hrewrites⟩ :=
        Edit.exists_run_simplify hraw.consistent he.settled
      cases hrun.symm.trans hrun'
      refine ⟨hrewrites.exit_lt_size hraw.pruned.consistent
        (by rw [Graph.size_pruned]; exact hexit), ?_⟩
      rw [hrewrites.exists_live_exit_iff hraw.pruned.consistent, hoption,
        forall_prop_of_true rfl, ← exit_mem_reachable_toGraph_iff]
      -- Pruning leaves the exit where it is, live or not.
      change (∃ c, node.toGraph.pruned.Live node.toGraph.exit c) ↔ _
      simp only [Graph.live_pruned_iff hraw.consistent.numbered]
      exact ⟨fun ⟨_, _, _, hi, _⟩ => hi, fun hi => ⟨_, b, hb, hi, rfl⟩⟩
  obtain ⟨c, hc⟩ := Option.isSome_iff_exists.1 (Graph.block?_isSome_iff.2 hsame.1)
  refine ⟨c, hc, Iff.trans ⟨fun hlive => ⟨c, hc, hlive⟩, ?_⟩ hsame.2⟩
  rintro ⟨d, hd, hlive⟩
  rwa [Option.some.inj (hc.symm.trans hd)]

/-- A function both of whose branches return. -/
private def deciding : Node :=
  intFunction "f" []
    [branch (ident "c") (ret (some (int 1))) (some (ret (some (int 2))))]

/-- Its graph once it is simplified. -/
private def decided : Graph :=
  { name := some "f"
    blocks := #[
      { id := 0, kind := .base, isDetached := true },
      { id := 1, kind := .base, successors := [4], label := some "function f start" },
      { id := 2, kind := .base, isDetached := true },
      { id := 3, kind := .base, isDetached := true },
      { id := 4, kind := .condition, statements := [.ident "c"], predecessors := [1],
        successors := [5, 6] },
      { id := 5, kind := .base, statements := [.ret (some (int 1))], predecessors := [4],
        color := .onTrue, isFinal := true },
      { id := 6, kind := .base, statements := [.ret (some (int 2))], predecessors := [4],
        color := .onFalse, isFinal := true },
      { id := 7, kind := .base, isFinal := true, isDetached := true }]
    entry := 1
    exit := 7 }

private theorem build_deciding : ∃ log, (deciding.build {}).run {} = .ok decided log :=
  ⟨_, by cbv⟩

/-- The block in which the branches would join was pruned, but it is still the exit. -/
theorem exit_detached_of_deciding :
    ∃ g log, (deciding.build {}).run {} = .ok g log ∧ ¬∃ b, g.Live g.exit b := by
  obtain ⟨log, hbuild⟩ := build_deciding
  refine ⟨decided, log, hbuild, ?_⟩
  rintro ⟨b, hb, hlive⟩
  cases hb
  cases hlive

theorem live_exit_iff_of_build_deciding :
    ∃ g log, (deciding.build {}).run {} = .ok g log ∧ ∃ b, g.block? g.exit = some b ∧
      (b.isDetached = false ↔
        (({} : Options).simplify = true → deciding.reachesEnd = true)) := by
  obtain ⟨log, hbuild⟩ := build_deciding
  exact ⟨decided, log, hbuild, live_exit_iff_of_build hbuild⟩

end Node

end FlowGraph
