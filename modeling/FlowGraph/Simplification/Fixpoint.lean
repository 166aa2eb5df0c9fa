import FlowGraph.Simplification.Bypass
import FlowGraph.Simplification.Prune
import FlowGraph.Traversal.Walk

/-!
# Simplification

A graph is simplified by pruning it and then passing over it again and again until a pass changes
nothing. A pass is a depth-first walk from the entry. At every block that it enters it first absorbs
as many successors as it can, then bypasses as many empty successors as it can. Successors are
looked up again at every step of the walk, because the blocks under it change.

## Main definitions

* `Edit.simplifyBlock`: what a pass does at one block
* `passWalk`, `Edit.pass`: a pass, which answers the number of its changes
* `Edit.simplify`: simplification, which answers a `SimplificationReport`

## Main results

* `Edit.liveCount_of_run_pass`: each change of a pass costs one live block
-/

namespace FlowGraph

/-- A graph in the middle of a pass, with the number of changes so far. -/
structure PassState where
  graph : Graph
  changes : Nat := 0

namespace Edit

/-- Absorbs successors of a block as long as there are any to absorb, then bypasses its empty
successors, and answers the number of changes. -/
def simplifyBlock (id : BlockId) : Edit Nat := do
  let absorbed ← (absorption id).exhaust
  let bypassed ← (bypassing id).exhaust
  pure (absorbed + bypassed)

/-- Each change at a block costs one live block. -/
theorem liveCount_of_run_simplifyBlock {id : BlockId} {g h : Graph} {changes : Nat}
    (hrun : (simplifyBlock id).run g = .ok changes h) : h.liveCount + changes = g.liveCount := by
  simp only [simplifyBlock, run_bind_eq_ok_iff, run_pure_eq_ok_iff] at hrun
  obtain ⟨absorbed, g₁, habsorbed, bypassed, g₂, hbypassed, rfl, rfl⟩ := hrun
  have h₁ := (absorption id).liveCount_exhaust
    (ShrinkingStep.liveCount_of_run_searchAndAct_true liveCount_of_run_absorb) habsorbed
  have h₂ := (bypassing id).liveCount_exhaust
    (ShrinkingStep.liveCount_of_run_searchAndAct_true liveCount_of_run_bypass) hbypassed
  omega

end Edit

/-- Simplifies a block in the middle of a pass. -/
def PassState.simplifyBlock (id : BlockId) : EStateM Error PassState BlockId := fun s =>
  match (Edit.simplifyBlock id).run s.graph with
  | .ok changes g => .ok id ⟨g, s.changes + changes⟩
  | .error e g => .error e ⟨g, s.changes⟩

/-- The walk of a pass. A frame is the id of a block, whose successors are read from the graph as it
is, and crossing an edge changes nothing. -/
def passWalk : Walk PassState BlockId where
  slots s id := s.graph.successors id
  cross _ _ s := s
  enter _ id := PassState.simplifyBlock id
  slots_cross _ _ _ _ := rfl

/-- What is told about a simplification. -/
structure SimplificationReport where
  /-- The name of the graph. -/
  function : String
  /-- The number of unreachable blocks that were detached first. -/
  pruned : Nat
  /-- The number of passes. The last one changed nothing. -/
  passes : Nat
  /-- The number of live blocks left. -/
  blocks : Nat
  deriving DecidableEq, Repr

namespace Edit

/-- Passes once over the graph, and answers the number of changes. -/
def pass : Edit Nat := fun g =>
  match passWalk.run g.size g.entry g.entry ⟨g, 0⟩ with
  | .ok _ s => .ok s.changes s.graph
  | .error e s => .error e s.graph

/-- Each change of a pass costs one live block. -/
theorem liveCount_of_run_pass {g h : Graph} {changes : Nat} (hrun : pass.run g = .ok changes h) :
    h.liveCount + changes = g.liveCount := by
  change pass g = _ at hrun
  unfold pass at hrun
  split at hrun
  · rename_i s hwalk
    cases hrun
    refine Walk.invariant (P := fun s => s.graph.liveCount + s.changes = g.liveCount)
      (fun _ _ _ hs => hs) ?_ rfl hwalk
    intro _ id s child s' hs henter
    simp only [passWalk, PassState.simplifyBlock] at henter
    split at henter
    · rename_i changes g' hblock
      cases henter
      have := liveCount_of_run_simplifyBlock hblock
      simp only at hs ⊢
      omega
    · cases henter
  · cases hrun

/-- Passes once over the graph, and answers whether that changed anything. -/
def passOnce : Edit Bool := do
  pure ((← pass) != 0)

end Edit

/-- The step that passes over the graph. -/
def passing : ShrinkingStep where
  step := Edit.passOnce
  liveCount_lt_of_true := by
    intro g h hrun
    simp only [Edit.passOnce, Edit.run_bind_eq_ok_iff, Edit.run_pure_eq_ok_iff] at hrun
    obtain ⟨changes, _, hpass, hne, rfl⟩ := hrun
    have hcost := Edit.liveCount_of_run_pass hpass
    have hpos : changes ≠ 0 := by simpa using hne.symm
    omega
  liveCount_eq_of_false := by
    intro g h hrun
    simp only [Edit.passOnce, Edit.run_bind_eq_ok_iff, Edit.run_pure_eq_ok_iff] at hrun
    obtain ⟨changes, _, hpass, heq, rfl⟩ := hrun
    have hcost := Edit.liveCount_of_run_pass hpass
    have hzero : changes = 0 := by simpa using heq
    omega

namespace Edit

/-- Prunes the graph, then passes over it until a pass changes nothing. -/
def simplify : Edit SimplificationReport := do
  let pruned ← prune
  let changing ← passing.exhaust
  let g ← get
  pure
    { function := g.displayName
      pruned
      passes := changing + 1
      blocks := g.liveCount }

end Edit

end FlowGraph
