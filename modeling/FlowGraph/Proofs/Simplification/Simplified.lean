import FlowGraph.Proofs.Graph.Reachability
import FlowGraph.Proofs.Traversal.Walk
import FlowGraph.Simplification.Fixpoint

/-!
# What simplification leaves

Simplification passes over a graph until a pass changes nothing. That pass has come to every
reachable block, and it has found nothing to absorb and nothing to bypass there.

## Main definitions

* `Graph.Idle`: nothing is left to do at a block
* `Graph.Simplified`: nothing is left to do at any reachable block

## Main results

* `Edit.simplified_of_run_pass`: a pass that changes nothing has looked at all reachable blocks
* `Edit.simplified_of_run_simplify`: graphs that were simplified
-/

namespace FlowGraph

/-- A block has nothing to absorb and nothing to bypass. -/
def Graph.Idle (g : Graph) (i : BlockId) : Prop :=
  g.absorbable? i = .ok none ∧ g.bypassable? i = .ok none

/-- No reachable block has anything to absorb or to bypass. -/
def Graph.Simplified (g : Graph) : Prop :=
  ∀ i ∈ g.reachable, g.Idle i

namespace ShrinkingStep

variable {s : ShrinkingStep} {g g' : Graph} {count : Nat}

/-- A step is repeated until it answers that it has changed nothing. -/
theorem exists_of_run_exhaust (hrun : s.exhaust.run g = .ok count g') :
    ∃ k, s.step.run k = .ok false g' := by
  change s.exhaust g = _ at hrun
  fun_induction s.exhaust g generalizing count with
  | case1 => cases hrun
  | case2 g k hfalse _ =>
    cases hrun
    exact ⟨g, hfalse⟩
  | case3 => cases hrun
  | case4 g k _ _ rest k' hrest ih =>
    cases hrun
    exact ih hrest

/-- No change means that the first attempt has found nothing. -/
theorem run_step_of_run_exhaust_zero (hrun : s.exhaust.run g = .ok 0 g') :
    s.step.run g = .ok false g' := by
  change s.exhaust g = _ at hrun
  fun_induction s.exhaust g with
  | case1 => cases hrun
  | case2 g k hfalse _ =>
    cases hrun
    exact hfalse
  | case3 => cases hrun
  | case4 => cases hrun

theorem search_eq_ok_none {search : Graph → Except Error (Option BlockId)}
    {act : BlockId → Edit Unit} (hrun : (searchAndAct search act).run g = .ok false g') :
    search g = .ok none := by
  simp only [searchAndAct, Edit.run_bind_eq_ok_iff, Edit.run_ask_eq_ok_iff] at hrun
  obtain ⟨found, _, ⟨hfound, rfl⟩, hrun⟩ := hrun
  cases found with
  | none => exact hfound
  | some block =>
    simp only [Edit.run_bind_eq_ok_iff, Edit.run_pure_eq_ok_iff] at hrun
    obtain ⟨_, _, _, hfalse, _⟩ := hrun
    cases hfalse

end ShrinkingStep

namespace Edit

variable {g g' : Graph} {i id : BlockId}

/-- A block that causes no change has nothing to do. -/
theorem idle_of_run_simplifyBlock (hrun : (simplifyBlock id).run g = .ok 0 g') :
    g' = g ∧ g.Idle id := by
  simp only [simplifyBlock, run_bind_eq_ok_iff, run_pure_eq_ok_iff] at hrun
  obtain ⟨absorbed, k, habsorbed, bypassed, _, hbypassed, hzero, rfl⟩ := hrun
  obtain ⟨rfl, rfl⟩ := Nat.add_eq_zero_iff.1 hzero.symm
  have habsorption := ShrinkingStep.run_step_of_run_exhaust_zero habsorbed
  have hbypassing := ShrinkingStep.run_step_of_run_exhaust_zero hbypassed
  obtain rfl := ShrinkingStep.eq_of_run_searchAndAct_false habsorption
  obtain rfl := ShrinkingStep.eq_of_run_searchAndAct_false hbypassing
  exact ⟨rfl, ShrinkingStep.search_eq_ok_none habsorption,
    ShrinkingStep.search_eq_ok_none hbypassing⟩

end Edit

namespace PassState

variable {bound : Nat} {stack : List (BlockId × Nat)} {seen : Std.TreeSet Nat} {s s' t : PassState}
  {id child : BlockId}

theorem exists_of_simplifyBlock (h : PassState.simplifyBlock id s = .ok child s') :
    ∃ count g, (Edit.simplifyBlock id).run s.graph = .ok count g ∧ child = id ∧
      s' = ⟨g, s.changes + count⟩ := by
  unfold PassState.simplifyBlock at h
  split at h
  · rename_i count g hrun
    cases h
    exact ⟨count, g, hrun, rfl, rfl⟩
  · cases h

/-- Entering a block without a change. -/
theorem idle_of_simplifyBlock (h : PassState.simplifyBlock id s = .ok child s')
    (hchanges : s'.changes = 0) : child = id ∧ s' = s ∧ s.graph.Idle id := by
  obtain ⟨count, g, hrun, rfl, rfl⟩ := exists_of_simplifyBlock h
  obtain ⟨hzero, rfl⟩ := Nat.add_eq_zero_iff.1 hchanges
  obtain ⟨rfl, hidle⟩ := Edit.idle_of_run_simplifyBlock hrun
  refine ⟨rfl, ?_, hidle⟩
  cases s
  rfl

/-- Changes are counted and never taken back. -/
theorem changes_le_of_visit (hvisit : passWalk.visit bound stack seen s = .ok () t) :
    s.changes ≤ t.changes := by
  refine Walk.invariant_visit (P := fun s' => s.changes ≤ s'.changes) (fun _ _ _ h => h) ?_
    (Nat.le_refl _) hvisit
  intro _ id s₁ child s₂ hle henter
  obtain ⟨count, g, -, rfl, rfl⟩ := exists_of_simplifyBlock henter
  exact Nat.le_trans hle (Nat.le_add_right _ _)

/-- A visit without a change has left the graph as it is. What it has entered is closed under edges,
and there is nothing to do there. -/
theorem exists_entered_of_visit (hvisit : passWalk.visit bound stack seen s = .ok () t)
    (hchanges : t.changes = 0) : t.graph = s.graph ∧ ∃ entered : BlockId → Prop,
      (∀ i ∈ seen, entered i) ∧
      (∀ top ∈ stack, ∀ j ∈ (s.graph.successors top.1).drop top.2, entered j) ∧
      ∀ i, entered i → i ∈ seen ∨ s.graph.Idle i ∧ ∀ j ∈ s.graph.successors i, entered j := by
  fun_induction passWalk.visit bound stack seen s with
  | case1 seen s =>
    cases hvisit
    exact ⟨rfl, (· ∈ seen), fun _ => id, by simp, fun _ => .inl⟩
  | case2 seen s frame slot rest hnone ih =>
    obtain ⟨hgraph, entered, hseen, hstack, hclosed⟩ := ih hvisit
    refine ⟨hgraph, entered, hseen, ?_, hclosed⟩
    have hdone : (s.graph.successors frame).drop slot = [] :=
      List.drop_eq_nil_of_le (List.getElem?_eq_none_iff.1 hnone)
    rw [List.forall_mem_cons, hdone]
    exact ⟨by simp, hstack⟩
  | case3 seen s frame slot rest block hsome _ hold ih =>
    obtain ⟨hgraph, entered, hseen, hstack, hclosed⟩ := ih hvisit
    refine ⟨hgraph, entered, hseen, ?_, hclosed⟩
    rw [List.forall_mem_cons] at hstack ⊢
    change (s.graph.successors frame)[slot]? = some block at hsome
    obtain ⟨hlt, hblock⟩ := List.getElem?_eq_some_iff.1 hsome
    refine ⟨?_, hstack.2⟩
    rw [List.drop_eq_getElem_cons hlt, List.forall_mem_cons]
    exact ⟨hblock ▸ hseen block hold, hstack.1⟩
  | case4 => cases hvisit
  | case5 seen s frame slot rest block hsome _ hnew child s' hentered ih =>
    change (s.graph.successors frame)[slot]? = some block at hsome
    -- No change comes after this one, so entering the block has changed nothing.
    have hzero : s'.changes = 0 :=
      Nat.le_zero.1 (hchanges ▸ changes_le_of_visit hvisit)
    obtain ⟨rfl, rfl, hidle⟩ := idle_of_simplifyBlock hentered hzero
    obtain ⟨hgraph, entered, hseen, hstack, hclosed⟩ := ih hvisit
    rw [List.forall_mem_cons, List.forall_mem_cons] at hstack
    obtain ⟨hchild, hframe, hrest⟩ := hstack
    obtain ⟨hlt, hblock⟩ := List.getElem?_eq_some_iff.1 hsome
    refine ⟨hgraph, entered, fun i hi => hseen i (Traversal.mem_insert_iff.2 (.inr hi)), ?_, ?_⟩
    · rw [List.forall_mem_cons]
      refine ⟨?_, hrest⟩
      rw [List.drop_eq_getElem_cons hlt, List.forall_mem_cons]
      exact ⟨hblock ▸ hseen _ (Traversal.mem_insert_iff.2 (.inl rfl)), hframe⟩
    · intro i hi
      rcases hclosed i hi with hmem | hdone
      · rcases Traversal.mem_insert_iff.1 hmem with rfl | hmem
        · exact .inr ⟨hidle, fun j hj => hchild j (by simpa using hj)⟩
        · exact .inl hmem
      · exact .inr hdone
  | case6 => cases hvisit

end PassState

namespace Edit

variable {g g' : Graph}

/-- A pass that changes nothing has found nothing to do at any reachable block. -/
theorem simplified_of_run_pass (hrun : pass.run g = .ok 0 g') : g' = g ∧ g.Simplified := by
  obtain ⟨t, hwalk, hchanges, rfl⟩ : ∃ t, passWalk.run g.size g.entry g.entry ⟨g, 0⟩ = .ok () t ∧
      t.changes = 0 ∧ t.graph = g' := by
    change pass g = _ at hrun
    unfold pass at hrun
    split at hrun
    · rename_i t hwalk
      injection hrun with hchanges hgraph
      exact ⟨t, hwalk, hchanges, hgraph⟩
    · cases hrun
  obtain ⟨frame, s, hentered, hvisit⟩ := Walk.exists_of_run hwalk
  have hzero : s.changes = 0 := Nat.le_zero.1 (hchanges ▸ PassState.changes_le_of_visit hvisit)
  obtain ⟨rfl, rfl, hidle⟩ := PassState.idle_of_simplifyBlock hentered hzero
  obtain ⟨hgraph, entered, hseen, hstack, hclosed⟩ :=
    PassState.exists_entered_of_visit hvisit hchanges
  have hentry : entered g.entry := hseen _ (Traversal.mem_singleton_iff.2 rfl)
  -- The entry itself was entered before the visit, all other blocks during it.
  have hdone {i : BlockId} (hi : entered i) : g.Idle i ∧ ∀ j ∈ g.successors i, entered j := by
    rcases hclosed i hi with hstart | hdone
    · obtain rfl := Traversal.mem_singleton_iff.1 hstart
      exact ⟨hidle, fun j hj => hstack _ List.mem_cons_self j hj⟩
    · exact hdone
  refine ⟨hgraph, fun i hi => ?_⟩
  obtain ⟨-, hpath⟩ := Graph.mem_reachable_iff.1 hi
  have hi : entered i := by
    clear hi
    induction hpath with
    | refl => exact hentry
    | tail _ step ih => exact (hdone ih).2 _ step.1
  exact (hdone hi).1

/-- After a simplification that has succeeded nothing is left to do. -/
theorem simplified_of_run_simplify {report : SimplificationReport}
    (hrun : simplify.run g = .ok report g') : g'.Simplified := by
  simp only [simplify, run_bind_eq_ok_iff, run_get_eq_ok_iff, run_pure_eq_ok_iff] at hrun
  obtain ⟨_, _, -, _, _, hpasses, _, _, ⟨rfl, rfl⟩, -, rfl⟩ := hrun
  obtain ⟨k, hlast⟩ := ShrinkingStep.exists_of_run_exhaust hpasses
  change passOnce.run k = _ at hlast
  simp only [passOnce, run_bind_eq_ok_iff, run_pure_eq_ok_iff] at hlast
  obtain ⟨changes, _, hpass, hzero, rfl⟩ := hlast
  have hzero : changes = 0 := by simpa using hzero
  obtain ⟨rfl, hsimplified⟩ := simplified_of_run_pass (hzero ▸ hpass)
  exact hsimplified

end Edit

end FlowGraph
