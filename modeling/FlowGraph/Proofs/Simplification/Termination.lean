import FlowGraph.Proofs.Simplification.Stepwise
import FlowGraph.Proofs.Traversal.Recursive
import Mathlib.Order.WellFounded

/-!
# Simplification terminates

Simplification and the machine that goes step by step come to the same end. To each state of the
machine belongs what simplification as a whole still has to do there, and that is one step of the
machine followed by what is left after it. So the machine, which cannot go on for ever, ends with
the answer of `Edit.simplify`, from the start as from every state on the way. Dangling ids are no
obstacle: a state holds none but the one that the walk has just come to, where both fail.

## Main definitions

* `Progress.rest`: what is left to do in a state, in terms of the parts of `Edit.simplify`
* `Progress.InRange`: a state whose ids are ids of the graph
* `Progress.EndsWith`: the end that the machine comes to from a state

## Main results

* `ShrinkingStep.exhaust_eq`, `Edit.simplifyBlock_eq`: the loops of simplification, unrolled once
* `Progress.run_rest`: what is left is one step and what is left after it
* `Progress.endsWith_rest`: the machine ends with what is left
* `Edit.simplify_terminates`: simplification terminates on every graph, in few passes, and each
  change on the way costs one live block for good
-/

namespace FlowGraph

open Relation (ReflTransGen)

/-! ### The loops of simplification, unrolled once -/

namespace ShrinkingStep

/-- Repeating a step, with its first time told apart. -/
theorem exhaust_eq (s : ShrinkingStep) :
    s.exhaust = (do if ← s.step then (· + 1) <$> s.exhaust else pure 0) := by
  funext g
  change s.exhaust g = EStateM.bind s.step _ g
  unfold EStateM.bind
  fun_cases s.exhaust g with
  | case1 e h hstep =>
    change s.step g = _ at hstep
    rw [hstep]
  | case2 h hstep =>
    change s.step g = _ at hstep
    rw [hstep]
    rfl
  | case3 h hstep _ e k hrest =>
    change s.step g = _ at hstep
    rw [hstep]
    change _ = EStateM.map _ s.exhaust h
    rw [EStateM.map, hrest]
  | case4 h hstep _ count k hrest =>
    change s.step g = _ at hstep
    rw [hstep]
    change _ = EStateM.map _ s.exhaust h
    rw [EStateM.map, hrest]

theorem exhaust_eq_of_search {search : Graph → Except Error (Option BlockId)}
    {act : BlockId → Edit Unit} {s : ShrinkingStep} (hstep : s.step = searchAndAct search act) :
    s.exhaust = (do
      match ← Edit.ask search with
      | none => pure 0
      | some block =>
        act block
        (· + 1) <$> s.exhaust) := by
  conv =>
    lhs
    rw [s.exhaust_eq, hstep, searchAndAct, bind_assoc]
  apply bind_congr
  intro found
  cases found with
  | none => rfl
  | some block => rw [bind_assoc]; rfl

end ShrinkingStep

namespace Edit

/-- What a pass does at one block, with the first search for a block to absorb told apart. -/
theorem simplifyBlock_eq (id : BlockId) :
    simplifyBlock id = (do
      match ← ask (·.absorbable? id) with
      | none => (bypassing id).exhaust
      | some next =>
        absorb id next
        (· + 1) <$> simplifyBlock id) := by
  have hfirst := ShrinkingStep.exhaust_eq_of_search (s := absorption id) rfl
  unfold simplifyBlock
  conv =>
    lhs
    rw [hfirst, bind_assoc]
  apply bind_congr
  intro found
  cases found with
  | none => simp only [pure_bind, Nat.zero_add, bind_pure]
  | some next =>
    simp only [bind_assoc, bind_map_left, map_bind, map_pure, Nat.add_right_comm _ 1]

/-- Asking changes nothing, so two questions in a row are asked of the same graph. -/
theorem ask_bind {α β : Type} (question : Graph → Except Error α)
    (next : α → Graph → Except Error β) :
    (ask fun g => question g >>= fun answer => next answer g) =
      ask question >>= fun answer => ask (next answer) := by
  funext g
  change (ask _).run g = (ask question >>= fun answer => ask (next answer)).run g
  rw [EStateM.run_bind, run_ask, run_ask]
  cases question g with
  | error e => rfl
  | ok answer => exact (run_ask _ g).symm

/-- Bypasses the first block of a list that allows it, and then the successors of block `id`, all
from the first one on. -/
def bypassAmong (id : BlockId) (candidates : List BlockId) : Edit Nat := do
  match ← ask (·.firstForwarding? candidates) with
  | none => pure 0
  | some successor =>
    bypass successor
    (· + 1) <$> (bypassing id).exhaust

/-- Bypassing begins with all successors of the block. -/
theorem exhaust_bypassing_eq (id : BlockId) :
    (bypassing id).exhaust = (do bypassAmong id (← block id).successors) := by
  have hsearch : ask (·.bypassable? id) = (do
      let b ← block id
      ask (·.firstForwarding? b.successors)) :=
    ask_bind (fun g => g.find id) fun b g => g.firstForwarding? b.successors
  rw [ShrinkingStep.exhaust_eq_of_search (s := bypassing id) rfl, hsearch, bind_assoc]
  rfl

theorem bypassAmong_nil (id : BlockId) : bypassAmong id [] = pure 0 :=
  rfl

theorem bypassAmong_cons (id first : BlockId) (rest : List BlockId) :
    bypassAmong id (first :: rest) = (do
      let candidate ← block first
      if candidate.isForwarding then
        bypass first
        (· + 1) <$> (bypassing id).exhaust
      else
        bypassAmong id rest) := by
  have hsearch : (ask fun g => g.firstForwarding? (first :: rest)) = (do
      let candidate ← block first
      ask fun g => if candidate.isForwarding then pure (some first) else g.firstForwarding? rest) :=
    ask_bind (fun g => g.find first) fun candidate g =>
      if candidate.isForwarding then pure (some first) else g.firstForwarding? rest
  rw [bypassAmong, hsearch, bind_assoc]
  apply bind_congr
  intro candidate
  cases candidate.isForwarding <;> rfl

/-- An id out of range is noticed at the first look. -/
theorem run_simplifyBlock_of_size_le {g : Graph} {id : BlockId} (hid : g.size ≤ id) :
    (simplifyBlock id).run g = .error (.noSuchBlock id) g := by
  have hnone : g.block? id = none := Array.getElem?_eq_none_iff.2 hid
  have hsearch : g.absorbable? id = .error (.noSuchBlock id) := by
    rw [Graph.absorbable?, Graph.find, hnone]
    rfl
  rw [simplifyBlock_eq, EStateM.run_bind, run_ask, hsearch]

theorem enter_passWalk_of_error (frame : BlockId) {id : BlockId} {s : PassState} {h : Graph}
    {e : Error} (hblock : (simplifyBlock id).run s.graph = .error e h) :
    passWalk.enter frame id s = .error e ⟨h, s.changes⟩ := by
  simp only [passWalk, PassState.simplifyBlock, hblock]

theorem enter_passWalk_of_ok (frame : BlockId) {id : BlockId} {s : PassState} {h : Graph}
    {changes : Nat} (hblock : (simplifyBlock id).run s.graph = .ok changes h) :
    passWalk.enter frame id s = .ok id ⟨h, s.changes + changes⟩ := by
  simp only [passWalk, PassState.simplifyBlock, hblock]

/-- What a pass answers, by how its walk ends. -/
def passed : EStateM.Result Error PassState Unit → EStateM.Result Error Graph Nat
  | .ok _ s => .ok s.changes s.graph
  | .error e s => .error e s.graph

theorem run_pass (g : Graph) :
    pass.run g = passed (passWalk.run g.size g.entry g.entry ⟨g, 0⟩) := by
  change pass g = _
  unfold pass
  cases passWalk.run g.size g.entry g.entry ⟨g, 0⟩ <;> rfl

theorem run_pass_of_error {g h : Graph} {e : Error}
    (hblock : (simplifyBlock g.entry).run g = .error e h) : pass.run g = .error e h := by
  rw [run_pass, Walk.run]
  by_cases hentry : g.entry < g.size
  · rw [if_pos hentry, enter_passWalk_of_error g.entry (s := ⟨g, 0⟩) hblock, passed]
  · rw [run_simplifyBlock_of_size_le (Nat.le_of_not_lt hentry)] at hblock
    cases hblock
    rw [if_neg hentry, passed]

theorem run_pass_of_ok {g h : Graph} {changes : Nat}
    (hblock : (simplifyBlock g.entry).run g = .ok changes h) :
    pass.run g = passed (passWalk.visit h.size [(g.entry, 0)] {g.entry} ⟨h, 0 + changes⟩) := by
  rw [run_pass, Walk.run]
  by_cases hentry : g.entry < g.size
  · rw [if_pos hentry, enter_passWalk_of_ok g.entry (s := ⟨g, 0⟩) hblock,
      size_of_run_simplifyBlock hblock]
  · rw [run_simplifyBlock_of_size_le (Nat.le_of_not_lt hentry)] at hblock
    cases hblock

end Edit

namespace Progress

/-! ### What is left to do -/

/-- The passes that are left after this one, which has changed something. -/
def passAgain (c : Progress) : Edit SimplificationReport := do
  let changing ← passing.exhaust
  let g ← get
  pure ({ c with passes := c.passes + (changing + 1) }.report g)

/-- What is left when the walk of a pass is over. -/
def finishPass (c : Progress) : Edit SimplificationReport := do
  if c.changes = 0 then
    let g ← get
    pure (c.report g)
  else
    c.passAgain

/-- What is left in the middle of the walk of a pass. -/
def finishWalk (c : Progress) : Edit SimplificationReport := fun g =>
  match passWalk.visit g.size c.stack c.seen ⟨g, c.changes⟩ with
  | .ok _ s => { c with changes := s.changes }.finishPass s.graph
  | .error e s => .error e s.graph

/-- What is left when the walk has entered block `id` with some number of changes. -/
def finishBelow (c : Progress) (id : BlockId) (changes : Nat) : Edit SimplificationReport :=
  { c with
    stage := .walk
    stack := (id, 0) :: c.stack
    changes := c.changes + changes }.finishWalk

/-- What is left to do in a state, in terms of simplification as a whole. -/
def rest (c : Progress) : Edit SimplificationReport :=
  match c.stage with
  | .prune => do
    let pruned ← Edit.prune
    { c with pruned }.passAgain
  | .absorb id => do
    let changes ← Edit.simplifyBlock id
    c.finishBelow id changes
  | .bypass id slot => do
    let b ← Edit.block id
    let changes ← Edit.bypassAmong id (b.successors.drop slot)
    c.finishBelow id changes
  | .walk => c.finishWalk

/-- What is left after a step. -/
def resume : Progress ⊕ SimplificationReport → Edit SimplificationReport
  | .inl c => c.rest
  | .inr report => pure report

variable {c d : Progress} {g h : Graph}

/-! ### One step, and what is left after it -/

/-- It is the same whether a change was recorded in the state or is yet to be added. -/
theorem finishBelow_succ (c : Progress) (id : BlockId) (changes : Nat) (stage : Stage) :
    { c with stage, changes := c.changes + 1 }.finishBelow id changes =
      c.finishBelow id (changes + 1) := by
  simp only [finishBelow, Nat.add_assoc, Nat.add_comm 1]

theorem rest_eq_of_absorb {id : BlockId} (hstage : c.stage = .absorb id) :
    c.rest = c.step >>= resume := by
  simp only [rest, step, hstage, stepAbsorb, bind_map_left, resume]
  rw [Edit.simplifyBlock_eq, bind_assoc, bind_assoc]
  apply bind_congr
  intro found
  cases found with
  | none =>
    rw [pure_bind, Edit.exhaust_bypassing_eq, bind_assoc]
    rfl
  | some next =>
    simp only [bind_assoc, bind_map_left, pure_bind, finishBelow_succ]

theorem rest_eq_of_bypass {id : BlockId} {slot : Nat} (hstage : c.stage = .bypass id slot) :
    c.rest = c.step >>= resume := by
  simp only [rest, step, hstage, stepBypass, bind_map_left, bind_assoc, resume]
  funext g
  change EStateM.run _ g = EStateM.run _ g
  -- On one graph, since the next step reads the block once more.
  rw [EStateM.run_bind, EStateM.run_bind]
  cases hblock : (Edit.block id).run g with
  | error e g' => rfl
  | ok b g' =>
    obtain ⟨-, rfl⟩ := Edit.run_block_eq_ok_iff.1 hblock
    simp only
    cases hslot : b.successors[slot]? with
    | none =>
      rw [List.drop_eq_nil_iff.2 (List.getElem?_eq_none_iff.1 hslot), Edit.bypassAmong_nil]
      rfl
    | some successor =>
      obtain ⟨hlt, hget⟩ := List.getElem?_eq_some_iff.1 hslot
      rw [List.drop_eq_getElem_cons hlt, hget, Edit.bypassAmong_cons]
      simp only [bind_assoc]
      rw [EStateM.run_bind, EStateM.run_bind]
      cases hcandidate : (Edit.block successor).run g' with
      | error e g'' => rfl
      | ok candidate g'' =>
        obtain ⟨-, rfl⟩ := Edit.run_block_eq_ok_iff.1 hcandidate
        simp only
        cases candidate.isForwarding with
        | true =>
          simp only [if_true, bind_assoc, bind_map_left, pure_bind, Edit.exhaust_bypassing_eq,
            List.drop_zero, finishBelow_succ]
        | false =>
          simp only [Bool.false_eq_true, if_false, pure_bind]
          rw [EStateM.run_bind, EStateM.run_bind, hblock]
          rfl

/-- A pass that changes nothing is the last one. -/
theorem passAgain_eq (c : Progress) :
    c.passAgain = (do
      let changes ← Edit.pass
      { c with passes := c.passes + 1, changes }.finishPass) := by
  unfold passAgain
  conv =>
    lhs
    rw [passing.exhaust_eq]
  -- The step of `passing` is a pass, of which only the number of changes is looked at.
  change (((Edit.pass >>= fun changes => pure (changes != 0)) >>= _) >>= _) = _
  simp only [bind_assoc, pure_bind]
  apply bind_congr
  intro changes
  cases changes with
  | zero => rfl
  | succ changes =>
    have hpasses (changing : Nat) :
        c.passes + (changing + 1 + 1) = c.passes + 1 + (changing + 1) := by
      omega
    simp only [bne_iff_ne, ne_eq, Nat.add_one_ne_zero, not_false_eq_true, if_true, bind_map_left,
      finishPass, if_false, passAgain, hpasses]
    rfl

/-- A pass begins at the entry, with nothing on the stack. -/
theorem run_beginPass_rest (c : Progress) (g : Graph) :
    (c.beginPass g.entry).rest.run g = c.passAgain.run g := by
  rw [passAgain_eq]
  simp only [beginPass, rest]
  rw [EStateM.run_bind, EStateM.run_bind]
  cases hblock : (Edit.simplifyBlock g.entry).run g with
  | error e h => rw [Edit.run_pass_of_error hblock]
  | ok changes h =>
    rw [Edit.run_pass_of_ok hblock]
    change finishBelow _ _ _ h = _
    simp only [finishBelow, finishWalk]
    cases passWalk.visit h.size [(g.entry, 0)] {g.entry} ⟨h, 0 + changes⟩ <;> rfl

theorem rest_eq_of_prune (hstage : c.stage = .prune) : c.rest = c.step >>= resume := by
  simp only [rest, step, hstage, stepPrune, bind_map_left, bind_assoc, pure_bind, resume]
  apply bind_congr
  intro pruned
  funext h
  exact (run_beginPass_rest { c with pruned } h).symm

/-- The ids of a state are ids of the graph, except that a walk may just have come to one that is
none. -/
structure InRange (c : Progress) (g : Graph) : Prop where
  stack : ∀ frame ∈ c.stack, frame.1 < g.size
  seen : ∀ i ∈ c.seen, i < g.size ∨ c.stage = .absorb i

theorem finishWalk_of_nil (hstack : c.stack = []) : c.finishWalk.run g = c.finishPass.run g := by
  change finishWalk c g = _
  unfold finishWalk
  rw [hstack, Walk.visit]
  rfl

theorem run_finishWalk_of_cons {id : BlockId} {slot : Nat} {rest : List (BlockId × Nat)}
    (hc : c.InRange g) (hstage : c.stage = .walk) (hstack : c.stack = (id, slot) :: rest) :
    c.finishWalk.run g = (c.stepFrame id slot rest >>= Progress.rest).run g := by
  obtain ⟨b, hb⟩ := Option.isSome_iff_exists.1
    (Graph.block?_isSome_iff.2 (hc.stack (id, slot) (by rw [hstack]; exact List.mem_cons_self)))
  have hblock : (Edit.block id).run g = .ok b g := Edit.run_block_eq_ok_iff.2 ⟨hb, rfl⟩
  have hslots : passWalk.slots ⟨g, c.changes⟩ id = b.successors := Graph.successors_of_block? hb
  rw [stepFrame, bind_assoc, EStateM.run_bind, hblock]
  change finishWalk c g = _
  unfold finishWalk
  rw [hstack]
  simp only
  cases hslot : b.successors[slot]? with
  | none =>
    rw [Walk.visit_of_none (by rw [hslots, hslot])]
    simp only [pure_bind, Progress.rest, hstage]
    rfl
  | some successor =>
    have hedge : (passWalk.slots ⟨g, c.changes⟩ id)[slot]? = some successor := by
      rw [hslots, hslot]
    by_cases hseen : successor ∈ c.seen
    · -- A dangling id would have ended the walk when it was seen first.
      have hlt : successor < g.size := by
        rcases hc.seen successor hseen with hlt | habsorb
        · exact hlt
        · rw [hstage] at habsorb
          cases habsorb
      rw [Walk.visit_of_mem hedge hlt hseen]
      simp only [if_pos hseen, pure_bind, Progress.rest, hstage]
      rfl
    · simp only [if_neg hseen, pure_bind, Progress.rest]
      rw [EStateM.run_bind]
      by_cases hlt : successor < g.size
      · rw [Walk.visit_of_push hedge hlt hseen, Walk.push]
        cases hsimplify : (Edit.simplifyBlock successor).run g with
        | error e h =>
          rw [Edit.enter_passWalk_of_error id (s := passWalk.cross id successor ⟨g, c.changes⟩)
            hsimplify]
        | ok changes h =>
          rw [Edit.enter_passWalk_of_ok id (s := passWalk.cross id successor ⟨g, c.changes⟩)
            hsimplify]
          simp only
          change _ = finishBelow _ _ _ h
          unfold finishBelow finishWalk
          rw [Edit.size_of_run_simplifyBlock hsimplify]
          rfl
      · -- The walk notices the dangling id itself, and the machine does in its next step.
        rw [Walk.visit_of_not_lt hedge hlt,
          Edit.run_simplifyBlock_of_size_le (Nat.le_of_not_lt hlt)]

theorem run_rest_of_walk (hc : c.InRange g) (hstage : c.stage = .walk) :
    c.rest.run g = (c.step >>= resume).run g := by
  simp only [rest, step, hstage]
  cases hstack : c.stack with
  | nil =>
    rw [finishWalk_of_nil hstack]
    simp only [finishPass, bind_assoc, pure_bind]
    by_cases hchanges : c.changes = 0
    · simp only [hchanges, if_true, resume]
    · simp only [hchanges, if_false, resume]
      exact (run_beginPass_rest c g).symm
  | cons frame rest =>
    obtain ⟨id, slot⟩ := frame
    simp only [bind_map_left, resume]
    exact run_finishWalk_of_cons hc hstage hstack

/-! ### The ids of a state -/

theorem InRange.beginPass (c : Progress) (g : Graph) : (c.beginPass g.entry).InRange g where
  stack _ hframe := absurd hframe List.not_mem_nil
  seen i hi := by
    right
    rw [Traversal.mem_singleton_iff.1 hi]
    rfl

/-- Every step keeps the ids of a state in range. -/
theorem Move.inRange (hmove : Move c g d h) (hc : c.InRange g) : d.InRange h := by
  have hseen (hother : ∀ i, c.stage ≠ .absorb i) : ∀ i ∈ c.seen, i < g.size := by
    intro i hi
    exact (hc.seen i hi).resolve_right (hother i)
  cases hmove with
  | prune => exact .beginPass _ _
  | again => exact .beginPass _ _
  | @absorb id next h hstage hfound hrun =>
    have hsize := ((Edit.retiring_absorb id next).of_run_eq_ok hrun).size_eq
    exact ⟨hsize ▸ hc.stack, hsize ▸ hc.seen⟩
  | @absorbed id hstage hid =>
    refine ⟨hc.stack, fun i hi => .inl ?_⟩
    rcases hc.seen i hi with hlt | habsorb
    · exact hlt
    · rw [hstage] at habsorb
      cases habsorb
      exact hid
  | @bypass id successor slot b h hstage hblock hforwarding hrun =>
    have hsize := ((Edit.retiring_bypass successor).of_run_eq_ok hrun).size_eq
    exact ⟨hsize ▸ hc.stack, fun i hi => .inl (hsize ▸ hseen (by simp [hstage]) i hi)⟩
  | skip hstage =>
    exact ⟨hc.stack, fun i hi => .inl (hseen (by simp [hstage]) i hi)⟩
  | descend hstage hid =>
    exact ⟨List.forall_mem_cons.2 ⟨hid, hc.stack⟩, fun i hi => .inl (hseen (by simp [hstage]) i hi)⟩
  | leave hstage hstack =>
    exact ⟨(List.forall_mem_cons.1 (hstack ▸ hc.stack)).2, hc.seen⟩
  | cross hstage hstack =>
    exact ⟨List.forall_mem_cons.2 (List.forall_mem_cons.1 (hstack ▸ hc.stack)), hc.seen⟩
  | enter hstage hstack =>
    refine ⟨List.forall_mem_cons.2 (List.forall_mem_cons.1 (hstack ▸ hc.stack)), fun i hi => ?_⟩
    rcases Traversal.mem_insert_iff.1 hi with rfl | hi
    · exact .inr rfl
    · exact .inl (hseen (by simp [hstage]) i hi)

/-- What is left in a state is one step and what is left after it. -/
theorem run_rest (hc : c.InRange g) : c.rest.run g = (c.step >>= resume).run g := by
  cases hstage : c.stage with
  | prune => rw [rest_eq_of_prune hstage]
  | absorb id => rw [rest_eq_of_absorb hstage]
  | bypass id slot => rw [rest_eq_of_bypass hstage]
  | walk => exact run_rest_of_walk hc hstage

theorem rest_start (g : Graph) : (start g).1.rest = Edit.simplify := by
  simp only [rest, passAgain, report, Nat.zero_add]
  rfl

/-! ### How the machine ends -/

/-- How the machine stops in a state. -/
inductive Stops (s : Progress × Graph) : EStateM.Result Error Graph SimplificationReport → Prop
  | done {report : SimplificationReport} {h : Graph}
      (run : s.1.step.run s.2 = .ok (.inr report) h) : Stops s (.ok report h)
  | failed {e : Error} {h : Graph} (run : s.1.step.run s.2 = .error e h) : Stops s (.error e h)

/-- From a state, the machine comes to an end. -/
def EndsWith (s : Progress × Graph) (r : EStateM.Result Error Graph SimplificationReport) : Prop :=
  ∃ t, ReflTransGen Next s t ∧ Stops t r

theorem Next.inRange {s t : Progress × Graph} (hnext : Next s t) (hs : s.1.InRange s.2) :
    t.1.InRange t.2 :=
  hnext.move.inRange hs

theorem Next.run_rest_eq {s t : Progress × Graph} (hnext : Next s t) (hs : s.1.InRange s.2) :
    s.1.rest.run s.2 = t.1.rest.run t.2 := by
  rw [run_rest hs, EStateM.run_bind, hnext]
  rfl

/-- From every state the machine ends with what is left there. -/
theorem endsWith_rest (s : Progress × Graph) (hs : s.1.InRange s.2) :
    EndsWith s (s.1.rest.run s.2) := by
  -- The induction is on the run of the machine, which is what termination allows.
  induction s using wellFounded_next.induction with
  | _ s ih =>
    cases hstep : s.1.step.run s.2 with
    | error e h =>
      rw [run_rest hs, EStateM.run_bind, hstep]
      exact ⟨s, .refl, .failed hstep⟩
    | ok outcome h =>
      cases outcome with
      | inr report =>
        rw [run_rest hs, EStateM.run_bind, hstep]
        exact ⟨s, .refl, .done hstep⟩
      | inl d =>
        have hnext : Next s (d, h) := hstep
        rw [hnext.run_rest_eq hs]
        obtain ⟨t, hsteps, hstops⟩ := ih (d, h) hnext (hnext.inRange hs)
        exact ⟨t, .head hnext hsteps, hstops⟩

theorem inRange_start (g : Graph) : (start g).1.InRange g where
  stack _ hframe := absurd hframe List.not_mem_nil
  seen _ hi := absurd hi Std.TreeSet.not_mem_emptyc

/-- The end is the same from every state on the way. -/
theorem endsWith_of_reflTransGen {s t : Progress × Graph} (hs : s.1.InRange s.2)
    (hsteps : ReflTransGen Next s t) : EndsWith t (s.1.rest.run s.2) := by
  have hkept : t.1.InRange t.2 ∧ s.1.rest.run s.2 = t.1.rest.run t.2 := by
    induction hsteps with
    | refl => exact ⟨hs, rfl⟩
    | tail _ hnext ih => exact ⟨hnext.inRange ih.1, ih.2.trans (hnext.run_rest_eq ih.1)⟩
  rw [hkept.2]
  exact endsWith_rest t hkept.1

/-- The graph at the end has no live block that a state on the way does not have. -/
theorem EndsWith.retires {s : Progress × Graph} {x : Edit SimplificationReport} {g : Graph}
    (hs : EndsWith s (x.run g)) : s.2.Retires (x.after g) := by
  obtain ⟨t, hsteps, hstops⟩ := hs
  apply (retires_of_reflTransGen hsteps).trans
  -- The last step may have failed half-way, but it has not brought a block back either.
  generalize hrun : x.run g = r at hstops
  cases hstops with
  | done hdone =>
    rw [Edit.after_of_run_eq_ok hrun]
    exact (retiring_step t.1).of_run_eq_ok hdone
  | failed hfailed =>
    rw [Edit.after_of_run_eq_error hrun]
    exact (retiring_step t.1).of_run_eq_error hfailed

theorem EndsWith.passes_le {s : Progress × Graph} {report : SimplificationReport}
    (hsteps : ReflTransGen Next (start g) s) (hends : EndsWith s (.ok report h)) :
    report.passes ≤ g.liveCount + 1 := by
  obtain ⟨t, hlater, hstops⟩ := hends
  cases hstops with
  | done hdone =>
    obtain ⟨_, heq, _⟩ | heq := move_or_report_of_run_step hdone
    · cases heq
    · cases heq
      exact Progress.passes_le (hsteps.trans hlater)

end Progress

namespace Edit

open Progress

/-- Simplification terminates on every graph, whatever its edges are. The machine, which may take as
many steps as it likes, cannot go on for ever; from each state that it comes to it ends with what
`simplify` answers, be it a report or an error; and there are no more passes than live blocks and
one. Each change that is recorded on the way detaches one live block, which never becomes live
again, and once the graph is pruned nothing else changes it. -/
theorem simplify_terminates (g : Graph) :
    (¬∃ run : Nat → Progress × Graph, run 0 = start g ∧ ∀ n, Next (run n) (run (n + 1))) ∧
      (∀ s, ReflTransGen Next (start g) s →
        EndsWith s (simplify.run g) ∧ s.1.passes ≤ g.liveCount + 1) ∧
      (∀ report h, simplify.run g = .ok report h → report.passes ≤ g.liveCount + 1) ∧
      ∀ s t, ReflTransGen Next (start g) s → Next s t →
        (s.1.changes < t.1.changes →
          ∃ i : BlockId, s.2.detachment[i]? = some false ∧
            t.2.detachment = s.2.detachment.set i true ∧
            (∀ u, ReflTransGen Next t u → u.2.detachment[i]? = some true) ∧
            (simplify.after g).detachment[i]? = some true) ∧
        (t.1.changes ≤ s.1.changes → s.1.stage ≠ .prune → t.2 = s.2) := by
  have hends {s : Progress × Graph} (hsteps : ReflTransGen Next (start g) s) :
      EndsWith s (simplify.run g) :=
    rest_start g ▸ endsWith_of_reflTransGen (inRange_start g) hsteps
  refine ⟨?_, fun s hsteps => ⟨hends hsteps, passes_le hsteps⟩, ?_, ?_⟩
  · rintro ⟨run, -, hrun⟩
    exact (wellFounded_iff_isEmpty_descending_chain.1 wellFounded_next).false ⟨run, hrun⟩
  · intro report h hrun
    exact EndsWith.passes_le .refl (hrun ▸ hends .refl)
  · intro s t hsteps hnext
    constructor
    · intro hchange
      obtain ⟨i, hlive, hset⟩ := hnext.move.exists_of_changes_lt hchange
      have hdetached : t.2.detachment[i]? = some true := by
        rw [hset, List.getElem?_set_self (List.getElem?_eq_some_iff.1 hlive).1]
      refine ⟨i, hlive, hset, fun u hlater => ?_, ?_⟩
      · exact (retires_of_reflTransGen hlater).detached i hdetached
      · exact (hends (hsteps.tail hnext)).retires.detached i hdetached
    · intro hchange hstage
      exact hnext.move.eq_of_changes_le hstage hchange

end Edit

end FlowGraph
