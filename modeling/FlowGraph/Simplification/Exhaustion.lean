import FlowGraph.Graph.Edit

/-!
# Repeating a step until it changes nothing

The steps of simplification detach a live block whenever they change the graph. Live blocks run out,
so such a step can be repeated until it answers that it has found nothing to do.

## Main definitions

* `ShrinkingStep`: an edit that answers whether it changed the graph, and shrinks it if so
* `ShrinkingStep.ofSearch`: the step that acts on a block it finds
* `ShrinkingStep.exhaust`: repeat a step, counting the changes

## Main results

* `ShrinkingStep.liveCount_exhaust`: each counted change costs a live block if a single one does
-/

namespace FlowGraph

/-- An edit that answers whether it changed the graph. When it did, there are fewer live blocks than
before, and otherwise there are as many. -/
structure ShrinkingStep where
  step : Edit Bool
  liveCount_lt_of_true : ∀ {g h : Graph}, step.run g = .ok true h → h.liveCount < g.liveCount
  liveCount_eq_of_false : ∀ {g h : Graph}, step.run g = .ok false h → h.liveCount = g.liveCount

namespace ShrinkingStep

/-- Looks for a block to act on, acts on it if there is one, and answers whether there was. -/
def searchAndAct (search : Graph → Except Error (Option BlockId)) (act : BlockId → Edit Unit) :
    Edit Bool := do
  match ← Edit.ask search with
  | none => pure false
  | some block =>
    act block
    pure true

section Search

variable {search : Graph → Except Error (Option BlockId)} {act : BlockId → Edit Unit}

theorem liveCount_of_run_searchAndAct_true
    (hact : ∀ {g h : Graph} {block : BlockId} {u : Unit}, search g = .ok (some block) →
      (act block).run g = .ok u h → h.liveCount + 1 = g.liveCount)
    {g h : Graph} (hrun : (searchAndAct search act).run g = .ok true h) :
    h.liveCount + 1 = g.liveCount := by
  simp only [searchAndAct, Edit.run_bind_eq_ok_iff, Edit.run_ask_eq_ok_iff] at hrun
  obtain ⟨found, g, ⟨hfound, rfl⟩, hrun⟩ := hrun
  cases found with
  | none => simp at hrun
  | some block =>
    simp only [Edit.run_bind_eq_ok_iff, Edit.run_pure_eq_ok_iff, true_and] at hrun
    obtain ⟨_, _, hblock, rfl⟩ := hrun
    exact hact hfound hblock

theorem eq_of_run_searchAndAct_false {g h : Graph}
    (hrun : (searchAndAct search act).run g = .ok false h) : h = g := by
  simp only [searchAndAct, Edit.run_bind_eq_ok_iff, Edit.run_ask_eq_ok_iff] at hrun
  obtain ⟨found, g, ⟨_, rfl⟩, hrun⟩ := hrun
  cases found with
  | none =>
    obtain ⟨_, rfl⟩ := Edit.run_pure_eq_ok_iff.1 hrun
    rfl
  | some block =>
    simp only [Edit.run_bind_eq_ok_iff, Edit.run_pure_eq_ok_iff] at hrun
    obtain ⟨_, _, _, hfalse, _⟩ := hrun
    cases hfalse

end Search

/-- A step that acts on a block it finds, when acting on such a block costs one live block. -/
def ofSearch (search : Graph → Except Error (Option BlockId)) (act : BlockId → Edit Unit)
    (hact : ∀ {g h : Graph} {block : BlockId} {u : Unit}, search g = .ok (some block) →
      (act block).run g = .ok u h → h.liveCount + 1 = g.liveCount) : ShrinkingStep where
  step := searchAndAct search act
  liveCount_lt_of_true hrun := by
    have := liveCount_of_run_searchAndAct_true hact hrun
    omega
  liveCount_eq_of_false hrun := by
    rw [eq_of_run_searchAndAct_false hrun]

/-- The outcome of a step on a graph, with the fact that it is the outcome. -/
def outcome (s : ShrinkingStep) (g : Graph) : { r // s.step.run g = r } :=
  ⟨s.step.run g, rfl⟩

/-- Repeats a step until it changes nothing, and answers how often it did. -/
def exhaust (s : ShrinkingStep) : Edit Nat := fun g =>
  match s.outcome g with
  | ⟨.error e g', _⟩ => .error e g'
  | ⟨.ok false g', _⟩ => .ok 0 g'
  | ⟨.ok true g', _shrinks⟩ =>
    match s.exhaust g' with
    | .error e g'' => .error e g''
    | .ok count g'' => .ok (count + 1) g''
termination_by g => g.liveCount
decreasing_by exact s.liveCount_lt_of_true _shrinks

/-- If each change costs one live block, the count tells how many live blocks were lost. -/
theorem liveCount_exhaust (s : ShrinkingStep)
    (hone : ∀ {g h : Graph}, s.step.run g = .ok true h → h.liveCount + 1 = g.liveCount)
    {g h : Graph} {count : Nat} (hrun : s.exhaust.run g = .ok count h) :
    h.liveCount + count = g.liveCount := by
  change s.exhaust g = .ok count h at hrun
  fun_induction s.exhaust g generalizing count with
  | case1 => cases hrun
  | case2 g g' hstep _ =>
    cases hrun
    exact s.liveCount_eq_of_false hstep
  | case3 => cases hrun
  | case4 g g' hstep _ rest g'' hrest ih =>
    cases hrun
    have hshrinks := hone hstep
    have hleft := ih hrest
    omega

end ShrinkingStep

end FlowGraph
