import FlowGraph.Proofs.Simplification.Retiring
import Mathlib.Logic.Relation

/-!
# Simplification step by step

Simplification is taken apart into a machine that does one thing at a time: it prunes the graph,
looks for one block to absorb or at one successor to bypass, or moves on by one slot in the walk of
a pass. Nothing in the machine limits the number of its steps. They run out all the same, whatever
the graph and whatever the state of the machine: the credit of live blocks, the blocks not visited
in this pass and the slots left to be looked at go down together in lexicographic order.

## Main definitions

* `Stage`, `Progress`: what a simplification is about to do, and how far it has come
* `Progress.step`: the machine, which goes on or ends with a report
* `Progress.Move`: the moves of the machine, one by one
* `Progress.Next`: one step that goes on, on pairs of a state and a graph
* `Progress.rank`: what every step lowers

## Main results

* `Progress.move_or_report_of_run_step`: a step makes one of the moves or ends with the report
* `Progress.wellFounded_next`: no run of the machine goes on for ever
* `Progress.Move.exists_of_changes_lt`: a recorded change detaches one live block
* `Progress.passes_le`: the number of passes
-/

namespace FlowGraph

/-- A node out of range does not count. -/
theorem Traversal.unvisited_insert_of_le {bound node : Nat} {seen : Std.TreeSet Nat}
    (hle : bound ≤ node) : unvisited bound (seen.insert node) = unvisited bound seen := by
  apply List.countP_congr
  intro i hi
  have hne : node ≠ i := Nat.ne_of_gt (Nat.lt_of_lt_of_le (List.mem_range.1 hi) hle)
  simp [Std.TreeSet.contains_insert, hne]

/-- What a simplification does next. -/
inductive Stage
  /-- Detach the unreachable blocks. -/
  | prune
  /-- Let a block absorb a successor, if it may. -/
  | absorb (id : BlockId)
  /-- Bypass the successor of a block in some slot, if it is empty. -/
  | bypass (id : BlockId) (slot : Nat)
  /-- Look at the next slot of the topmost frame of the walk. -/
  | walk
  deriving DecidableEq, Repr

/-- How far a simplification has come, apart from the graph. -/
structure Progress where
  stage : Stage := .prune
  /-- The blocks that the walk is in, each with the slot to look at next. -/
  stack : List (BlockId × Nat) := []
  /-- The blocks that were entered in this pass. -/
  seen : Std.TreeSet Nat := {}
  /-- The number of blocks that were pruned. -/
  pruned : Nat := 0
  /-- The number of passes that have begun. -/
  passes : Nat := 0
  /-- The number of changes recorded in this pass. -/
  changes : Nat := 0

namespace Progress

/-- A simplification that is about to begin. -/
abbrev start (g : Graph) : Progress × Graph :=
  ({}, g)

/-- Begins another pass, in which nothing was seen but the entry. -/
def beginPass (c : Progress) (entry : BlockId) : Progress :=
  { c with
    stage := .absorb entry
    stack := []
    seen := {entry}
    passes := c.passes + 1
    changes := 0 }

/-- What is told when the last pass is over. -/
def report (c : Progress) (g : Graph) : SimplificationReport :=
  { function := g.displayName, pruned := c.pruned, passes := c.passes, blocks := g.liveCount }

def stepPrune (c : Progress) : Edit Progress := do
  let pruned ← Edit.prune
  let g ← get
  pure ({ c with pruned }.beginPass g.entry)

def stepAbsorb (c : Progress) (id : BlockId) : Edit Progress := do
  match ← Edit.ask (·.absorbable? id) with
  | none => pure { c with stage := .bypass id 0 }
  | some next =>
    Edit.absorb id next
    -- The block has other successors now, so it looks again.
    pure { c with changes := c.changes + 1 }

def stepBypass (c : Progress) (id : BlockId) (slot : Nat) : Edit Progress := do
  let b ← Edit.block id
  match b.successors[slot]? with
  | none => pure { c with stage := .walk, stack := (id, 0) :: c.stack }
  | some successor =>
    let candidate ← Edit.block successor
    if candidate.isForwarding then
      Edit.bypass successor
      -- What has come into this slot may be empty too, and so may what was looked at before.
      pure { c with stage := .bypass id 0, changes := c.changes + 1 }
    else
      pure { c with stage := .bypass id (slot + 1) }

def stepFrame (c : Progress) (id : BlockId) (slot : Nat) (rest : List (BlockId × Nat)) :
    Edit Progress := do
  -- The successors are those that the block has by now.
  let b ← Edit.block id
  match b.successors[slot]? with
  | none => pure { c with stack := rest }
  | some successor =>
    if successor ∈ c.seen then
      pure { c with stack := (id, slot + 1) :: rest }
    else
      pure { c with
        stage := .absorb successor
        stack := (id, slot + 1) :: rest
        seen := c.seen.insert successor }

/-- One step of a simplification, which goes on or ends with a report. -/
def step (c : Progress) : Edit (Progress ⊕ SimplificationReport) :=
  match c.stage with
  | .prune => .inl <$> c.stepPrune
  | .absorb id => .inl <$> c.stepAbsorb id
  | .bypass id slot => .inl <$> c.stepBypass id slot
  | .walk =>
    match c.stack with
    | (id, slot) :: rest => .inl <$> c.stepFrame id slot rest
    | [] => do
      let g ← get
      -- A pass that has changed nothing is the last one.
      pure (if c.changes = 0 then .inr (c.report g) else .inl (c.beginPass g.entry))

/-- The moves from one state of a simplification to another. -/
inductive Move (c : Progress) (g : Graph) : Progress → Graph → Prop
  /-- The unreachable blocks are detached, and the first pass begins. -/
  | prune {pruned : Nat} {h : Graph} (stage : c.stage = .prune)
      (run : Edit.prune.run g = .ok pruned h) :
      Move c g ({ c with pruned }.beginPass h.entry) h
  | absorb {id next : BlockId} {h : Graph} (stage : c.stage = .absorb id)
      (found : g.absorbable? id = .ok (some next)) (run : (Edit.absorb id next).run g = .ok () h) :
      Move c g { c with changes := c.changes + 1 } h
  /-- There is nothing to absorb any more. -/
  | absorbed {id : BlockId} (stage : c.stage = .absorb id) (exists_id : id < g.size) :
      Move c g { c with stage := .bypass id 0 } g
  | bypass {id successor : BlockId} {slot : Nat} {b : Block} {h : Graph}
      (stage : c.stage = .bypass id slot) (block : g.block? successor = some b)
      (forwarding : b.isForwarding = true) (run : (Edit.bypass successor).run g = .ok () h) :
      Move c g { c with stage := .bypass id 0, changes := c.changes + 1 } h
  /-- The successor stays. -/
  | skip {id successor : BlockId} {slot : Nat} (stage : c.stage = .bypass id slot)
      (edge : (g.successors id)[slot]? = some successor) :
      Move c g { c with stage := .bypass id (slot + 1) } g
  /-- All successors stay, and the walk goes on below the block. -/
  | descend {id : BlockId} {slot : Nat} (stage : c.stage = .bypass id slot)
      (exists_id : id < g.size) :
      Move c g { c with stage := .walk, stack := (id, 0) :: c.stack } g
  /-- The topmost block of the walk is done. -/
  | leave {id : BlockId} {slot : Nat} {rest : List (BlockId × Nat)} (stage : c.stage = .walk)
      (stack : c.stack = (id, slot) :: rest) :
      Move c g { c with stack := rest } g
  /-- The walk crosses an edge to a block that it has seen before. -/
  | cross {id successor : BlockId} {slot : Nat} {rest : List (BlockId × Nat)}
      (stage : c.stage = .walk) (stack : c.stack = (id, slot) :: rest)
      (edge : (g.successors id)[slot]? = some successor) :
      Move c g { c with stack := (id, slot + 1) :: rest } g
  /-- The walk comes to a new block. -/
  | enter {id successor : BlockId} {slot : Nat} {rest : List (BlockId × Nat)}
      (stage : c.stage = .walk) (stack : c.stack = (id, slot) :: rest)
      (edge : (g.successors id)[slot]? = some successor) (new : successor ∉ c.seen) :
      Move c g { c with
        stage := .absorb successor
        stack := (id, slot + 1) :: rest
        seen := c.seen.insert successor } g
  /-- The walk is over, and another one begins since it has changed something. -/
  | again (stage : c.stage = .walk) (changed : c.changes ≠ 0) : Move c g (c.beginPass g.entry) g

/-- One step that goes on. -/
def Next (s t : Progress × Graph) : Prop :=
  s.1.step.run s.2 = .ok (.inl t.1) t.2

end Progress

theorem Block.isDetached_of_isForwarding {b : Block} (h : b.isForwarding = true) :
    b.isDetached = false := by
  obtain ⟨target, htarget⟩ := Option.isSome_iff_exists.1 h
  exact (Block.forwardTarget?_eq_some_iff.1 htarget).2.1

namespace Graph

variable {g : Graph} {id : BlockId}

theorem successors_of_block? {b : Block} (hb : g.block? id = some b) :
    g.successors id = b.successors := by
  rw [successors, hb, Option.elim_some]

theorem successors_of_size_le (hid : g.size ≤ id) : g.successors id = [] := by
  have hnone : g.block? id = none := Array.getElem?_eq_none_iff.2 hid
  rw [successors, hnone, Option.elim_none]

theorem lt_size_of_absorbable? {found : Option BlockId} (h : g.absorbable? id = .ok found) :
    id < g.size := by
  rw [← block?_isSome_iff]
  cases hfind : g.find id with
  | ok b => rw [find_eq_ok_iff.1 hfind, Option.isSome_some]
  | error e =>
    rw [absorbable?, hfind] at h
    cases h

end Graph

theorem Edit.run_map_eq_ok_iff {α β : Type} {f : α → β} {x : Edit α} {g h : Graph} {b : β} :
    (f <$> x).run g = .ok b h ↔ ∃ a, b = f a ∧ x.run g = .ok a h := by
  rw [map_eq_pure_bind, run_bind_eq_ok_iff]
  constructor
  · rintro ⟨a, _, ha, hpure⟩
    obtain ⟨rfl, rfl⟩ := run_pure_eq_ok_iff.1 hpure
    exact ⟨a, rfl, ha⟩
  · rintro ⟨a, rfl, ha⟩
    exact ⟨a, h, ha, rfl⟩

namespace Progress

variable {c d : Progress} {g h : Graph}

/-! ### The steps of the machine are its moves -/

theorem move_of_run_stepPrune (hstage : c.stage = .prune) (hrun : c.stepPrune.run g = .ok d h) :
    Move c g d h := by
  simp only [stepPrune, Edit.run_bind_eq_ok_iff, Edit.run_get_eq_ok_iff,
    Edit.run_pure_eq_ok_iff] at hrun
  obtain ⟨pruned, g', hprune, _, _, ⟨rfl, rfl⟩, rfl, rfl⟩ := hrun
  exact .prune hstage hprune

theorem move_of_run_stepAbsorb {id : BlockId} (hstage : c.stage = .absorb id)
    (hrun : (c.stepAbsorb id).run g = .ok d h) : Move c g d h := by
  simp only [stepAbsorb, Edit.run_bind_eq_ok_iff, Edit.run_ask_eq_ok_iff] at hrun
  obtain ⟨found, _, ⟨hfound, rfl⟩, hrun⟩ := hrun
  cases found with
  | none =>
    obtain ⟨rfl, rfl⟩ := Edit.run_pure_eq_ok_iff.1 hrun
    exact .absorbed hstage (Graph.lt_size_of_absorbable? hfound)
  | some next =>
    simp only [Edit.run_bind_eq_ok_iff, Edit.run_pure_eq_ok_iff] at hrun
    obtain ⟨_, g', habsorb, rfl, rfl⟩ := hrun
    exact .absorb hstage hfound habsorb

theorem move_of_run_stepBypass {id : BlockId} {slot : Nat} (hstage : c.stage = .bypass id slot)
    (hrun : (c.stepBypass id slot).run g = .ok d h) : Move c g d h := by
  simp only [stepBypass, Edit.run_bind_eq_ok_iff, Edit.run_block_eq_ok_iff] at hrun
  obtain ⟨b, _, ⟨hb, rfl⟩, hrun⟩ := hrun
  split at hrun
  next =>
    obtain ⟨rfl, rfl⟩ := Edit.run_pure_eq_ok_iff.1 hrun
    exact .descend hstage (Graph.block?_isSome_iff.1 (Option.isSome_of_eq_some hb))
  next successor hedge =>
    simp only [Edit.run_bind_eq_ok_iff, Edit.run_block_eq_ok_iff] at hrun
    obtain ⟨candidate, _, ⟨hcandidate, rfl⟩, hrun⟩ := hrun
    split at hrun
    next hforwarding =>
      simp only [Edit.run_bind_eq_ok_iff, Edit.run_pure_eq_ok_iff] at hrun
      obtain ⟨_, g', hbypass, rfl, rfl⟩ := hrun
      exact .bypass hstage hcandidate hforwarding hbypass
    next =>
      obtain ⟨rfl, rfl⟩ := Edit.run_pure_eq_ok_iff.1 hrun
      exact .skip hstage ((Graph.successors_of_block? hb).symm ▸ hedge)

theorem move_of_run_stepFrame {id : BlockId} {slot : Nat} {rest : List (BlockId × Nat)}
    (hstage : c.stage = .walk) (hstack : c.stack = (id, slot) :: rest)
    (hrun : (c.stepFrame id slot rest).run g = .ok d h) : Move c g d h := by
  simp only [stepFrame, Edit.run_bind_eq_ok_iff, Edit.run_block_eq_ok_iff] at hrun
  obtain ⟨b, _, ⟨hb, rfl⟩, hrun⟩ := hrun
  rw [← Graph.successors_of_block? hb] at hrun
  split at hrun
  next =>
    obtain ⟨rfl, rfl⟩ := Edit.run_pure_eq_ok_iff.1 hrun
    exact .leave hstage hstack
  next successor hedge =>
    split at hrun
    next =>
      obtain ⟨rfl, rfl⟩ := Edit.run_pure_eq_ok_iff.1 hrun
      exact .cross hstage hstack hedge
    next hnew =>
      obtain ⟨rfl, rfl⟩ := Edit.run_pure_eq_ok_iff.1 hrun
      exact .enter hstage hstack hedge hnew

/-- A step that goes on is a move, and one that ends tells what there is. -/
theorem move_or_report_of_run_step {outcome : Progress ⊕ SimplificationReport}
    (hrun : c.step.run g = .ok outcome h) :
    (∃ d, outcome = .inl d ∧ Move c g d h) ∨ outcome = .inr (c.report g) := by
  unfold step at hrun
  split at hrun
  next hstage =>
    obtain ⟨d, rfl, hd⟩ := Edit.run_map_eq_ok_iff.1 hrun
    exact .inl ⟨d, rfl, move_of_run_stepPrune hstage hd⟩
  next id hstage =>
    obtain ⟨d, rfl, hd⟩ := Edit.run_map_eq_ok_iff.1 hrun
    exact .inl ⟨d, rfl, move_of_run_stepAbsorb hstage hd⟩
  next id slot hstage =>
    obtain ⟨d, rfl, hd⟩ := Edit.run_map_eq_ok_iff.1 hrun
    exact .inl ⟨d, rfl, move_of_run_stepBypass hstage hd⟩
  next hstage =>
    split at hrun
    next id slot rest hstack =>
      obtain ⟨d, rfl, hd⟩ := Edit.run_map_eq_ok_iff.1 hrun
      exact .inl ⟨d, rfl, move_of_run_stepFrame hstage hstack hd⟩
    next =>
      simp only [Edit.run_bind_eq_ok_iff, Edit.run_get_eq_ok_iff, Edit.run_pure_eq_ok_iff] at hrun
      obtain ⟨_, _, ⟨rfl, rfl⟩, rfl, rfl⟩ := hrun
      split
      next => exact .inr rfl
      next hchanged => exact .inl ⟨_, rfl, .again hstage hchanged⟩

theorem Next.move (hnext : Next (c, g) (d, h)) : Move c g d h := by
  obtain ⟨_, heq, hmove⟩ | heq := move_or_report_of_run_step hnext
  · cases heq
    exact hmove
  · cases heq

/-! ### Recorded changes -/

/-- A step detaches blocks at most, whether it goes on, ends or fails. -/
theorem retiring_step (c : Progress) : c.step.Retiring := by
  unfold step
  split
  next => exact .map _ (.bind Edit.retiring_prune fun _ => .bind .get fun _ => .pure _)
  next id _ =>
    refine .map _ (.bind (.ask _) fun found => ?_)
    cases found with
    | none => exact .pure _
    | some next => exact .bind (Edit.retiring_absorb id next) fun _ => .pure _
  next id slot _ =>
    refine .map _ (.bind (.ask _) fun b => ?_)
    split
    next => exact .pure _
    next successor _ =>
      refine .bind (.ask _) fun candidate => ?_
      split
      next => exact .bind (Edit.retiring_bypass successor) fun _ => .pure _
      next => exact .pure _
  next =>
    split
    next =>
      refine .map _ (.bind (.ask _) fun b => ?_)
      split
      next => exact .pure _
      next => split <;> exact .pure _
    next => exact .bind .get fun _ => .pure _

theorem Next.retires {s t : Progress × Graph} (hnext : Next s t) : s.2.Retires t.2 :=
  (retiring_step s.1).of_run_eq_ok hnext

/-- What is detached stays detached. -/
theorem retires_of_reflTransGen {s t : Progress × Graph} (hsteps : Relation.ReflTransGen Next s t) :
    s.2.Retires t.2 := by
  induction hsteps with
  | refl => exact .refl _
  | tail _ hnext ih => exact ih.trans hnext.retires

/-- A recorded change detaches one block, which was live. -/
theorem Move.exists_of_changes_lt (hmove : Move c g d h) (hchange : c.changes < d.changes) :
    ∃ i : BlockId, g.detachment[i]? = some false ∧ h.detachment = g.detachment.set i true := by
  cases hmove with
  | @absorb id next h hstage hfound hrun =>
    exact ⟨next, isDetached_of_absorbable? hfound, Edit.detachment_of_run_absorb hrun⟩
  | @bypass id successor slot b h hstage hblock hforwarding hrun =>
    refine ⟨successor, ?_, Edit.detachment_of_run_bypass hrun⟩
    rw [Graph.getElem?_detachment, hblock, Option.map_some,
      Block.isDetached_of_isForwarding hforwarding]
  | prune | again => exact absurd hchange (Nat.not_lt_zero _)
  | absorbed | skip | descend | leave | cross | enter => exact absurd hchange (Nat.lt_irrefl _)

/-- A step that records no change leaves the graph alone, unless it prunes. -/
theorem Move.eq_of_changes_le (hmove : Move c g d h) (hstage : c.stage ≠ .prune)
    (hchange : d.changes ≤ c.changes) : h = g := by
  cases hmove with
  | prune hprune => exact absurd hprune hstage
  | absorb | bypass => exact absurd hchange (Nat.not_succ_le_self _)
  | absorbed | skip | descend | leave | cross | enter | again => rfl

theorem Move.liveCount_of_changes_lt (hmove : Move c g d h) (hchange : c.changes < d.changes) :
    h.liveCount + 1 = g.liveCount := by
  obtain ⟨i, hlive, hset⟩ := hmove.exists_of_changes_lt hchange
  rw [Graph.liveCount_eq_count_detachment, Graph.liveCount_eq_count_detachment, hset]
  exact Graph.count_set_detached hlive

/-! ### The number of passes -/

/-- One if a state is yet to prune, which is when its first pass has not begun. -/
def pending (c : Progress) : Nat :=
  match c.stage with
  | .prune => 1
  | _ => 0

/-- The live blocks, with one more for each pass and for each change of this pass. A pass that has
changed something pays for the next one. -/
def spent (c : Progress) (g : Graph) : Nat :=
  c.pending + c.passes + c.changes + g.liveCount

/-- No step spends more than there was. -/
theorem Move.spent_le (hmove : Move c g d h) : d.spent h ≤ c.spent g := by
  unfold spent
  cases hmove with
  -- The first pass is paid for by the state before it, which is pending.
  | @prune pruned h hstage hrun =>
    have hfewer := (Edit.retiring_prune.of_run_eq_ok hrun).liveCount_le
    simp only [pending, hstage, beginPass]
    omega
  | @absorb _ _ h hstage hfound hrun =>
    have hcost := liveCount_of_run_absorb hfound hrun
    simp only [pending, hstage]
    omega
  | @bypass id successor slot b h hstage hblock hforwarding hrun =>
    have hcost := (Move.bypass hstage hblock hforwarding hrun).liveCount_of_changes_lt
      (Nat.lt_succ_self _)
    simp only [pending]
    omega
  -- The next pass takes the place of a change.
  | again hstage hchanged =>
    simp only [pending, beginPass]
    omega
  | absorbed | skip | descend | leave | cross | enter => simp [pending]

theorem spent_le_of_reflTransGen {s t : Progress × Graph}
    (hsteps : Relation.ReflTransGen Next s t) : t.1.spent t.2 ≤ s.1.spent s.2 := by
  induction hsteps with
  | refl => exact Nat.le_refl _
  | tail _ hnext ih => exact Nat.le_trans hnext.move.spent_le ih

/-- There are at most as many passes as live blocks, and one more. -/
theorem passes_le (hsteps : Relation.ReflTransGen Next (start g) (c, h)) :
    c.passes ≤ g.liveCount + 1 := by
  have hspent := spent_le_of_reflTransGen hsteps
  simp only [spent, pending] at hspent
  omega

/-! ### Termination -/

/-- Twice the live blocks, with one more if this pass has changed something. A change costs two and
earns one back at most, which the next pass costs. -/
def credit (c : Progress) (g : Graph) : Nat :=
  2 * g.liveCount + c.pending + if c.changes = 0 then 0 else 1

/-- The slots of a block that are left to be looked at. -/
def slotsLeft (g : Graph) (id : BlockId) (slot : Nat) : Nat :=
  (g.successors id).length - slot

theorem slotsLeft_succ_lt {id successor : BlockId} {slot : Nat}
    (hedge : (g.successors id)[slot]? = some successor) :
    slotsLeft g id (slot + 1) < slotsLeft g id slot :=
  Nat.sub_succ_lt_self _ _ (List.getElem?_eq_some_iff.1 hedge).1

/-- The slots that the frames of a walk have left, with the end of each frame. A slot counts for
more than all that is done at an id out of range, where a pass comes to an end. -/
def framesLeft (g : Graph) : List (BlockId × Nat) → Nat
  | [] => 0
  | (id, slot) :: rest => 4 * slotsLeft g id slot + 1 + framesLeft g rest

/-- What is left to do in this pass if nothing changes and no block is entered. -/
def work (c : Progress) (g : Graph) : Nat :=
  framesLeft g c.stack +
    match c.stage with
    | .prune => 0
    | .absorb id => 5 * slotsLeft g id 0 + 3
    | .bypass id slot => slotsLeft g id slot + 4 * slotsLeft g id 0 + 2
    | .walk => 0

/-- What every step lowers: the credit, the blocks not seen, or the work. -/
def rank (c : Progress) (g : Graph) : Nat × Nat × Nat :=
  (c.credit g, Traversal.unvisited g.size c.seen, c.work g)

/-- The lexicographic order of ranks. -/
abbrev Below : Nat × Nat × Nat → Nat × Nat × Nat → Prop :=
  Prod.Lex (· < ·) (Prod.Lex (· < ·) (· < ·))

/-- A step that leaves the graph and the blocks seen has less work left. -/
theorem below_of_work_lt (hpending : d.pending = c.pending) (hchanges : d.changes = c.changes)
    (hseen : d.seen = c.seen) (hwork : d.work g < c.work g) : Below (d.rank g) (c.rank g) := by
  rw [rank, rank, credit, credit, hpending, hchanges, hseen]
  exact .right _ (.right _ hwork)

theorem Move.credit_lt_of_changes_lt (hmove : Move c g d h) (hchange : c.changes < d.changes)
    (hpending : d.pending ≤ c.pending) : d.credit h < c.credit g := by
  have hcost := hmove.liveCount_of_changes_lt hchange
  unfold credit
  split <;> omega

/-- Every step lowers the rank. -/
theorem Move.rank_below (hmove : Move c g d h) : Below (d.rank h) (c.rank g) := by
  cases hmove with
  | @prune pruned h hstage hrun =>
    have hfewer := (Edit.retiring_prune.of_run_eq_ok hrun).liveCount_le
    -- Nothing else is lower for certain: there may be no block to prune.
    apply Prod.Lex.left
    simp only [credit, pending, beginPass, hstage, if_pos]
    omega
  | @absorb id next h hstage hfound hrun =>
    exact .left _ _ ((Move.absorb hstage hfound hrun).credit_lt_of_changes_lt
      (Nat.lt_succ_self _) (Nat.le_refl _))
  | @bypass id successor slot b h hstage hblock hforwarding hrun =>
    exact .left _ _ ((Move.bypass hstage hblock hforwarding hrun).credit_lt_of_changes_lt
      (Nat.lt_succ_self _) (Nat.zero_le _))
  | again hstage hchanged =>
    apply Prod.Lex.left
    simp only [credit, pending, beginPass, hstage, if_pos, if_neg hchanged]
    omega
  -- From here on the graph stays as it is.
  | @absorbed id hstage _ =>
    refine below_of_work_lt (by simp only [pending, hstage]) rfl rfl ?_
    simp only [work, hstage]
    omega
  | @skip id successor slot hstage hedge =>
    refine below_of_work_lt (by simp only [pending, hstage]) rfl rfl ?_
    have hless := slotsLeft_succ_lt hedge
    simp only [work, hstage]
    omega
  | @descend id slot hstage _ =>
    refine below_of_work_lt (by simp only [pending, hstage]) rfl rfl ?_
    simp only [work, hstage, framesLeft]
    omega
  | @leave id slot rest hstage hstack =>
    refine below_of_work_lt rfl rfl rfl ?_
    simp only [work, hstage, hstack, framesLeft]
    omega
  | @cross id successor slot rest hstage hstack hedge =>
    refine below_of_work_lt rfl rfl rfl ?_
    have hless := slotsLeft_succ_lt hedge
    simp only [work, hstage, hstack, framesLeft]
    omega
  | @enter id successor slot rest hstage hstack hedge hnew =>
    have hcredit : { c with
        stage := .absorb successor
        stack := (id, slot + 1) :: rest
        seen := c.seen.insert successor : Progress }.credit g = c.credit g := by
      simp only [credit, pending, hstage]
    rw [rank, rank, hcredit]
    apply Prod.Lex.right
    -- A new block lowers the middle part, unless its id is dangling.
    rcases Nat.lt_or_ge successor g.size with hlt | hge
    · exact .left _ _ (Traversal.unvisited_insert_lt hlt hnew)
    · -- The next step fails at this id, which is not a block, and until then a slot pays for it.
      rw [Traversal.unvisited_insert_of_le hge]
      apply Prod.Lex.right
      have hless := slotsLeft_succ_lt hedge
      have hnone : slotsLeft g successor 0 = 0 := by
        rw [slotsLeft, Graph.successors_of_size_le hge, List.length_nil]
      simp only [work, hstage, hstack, hnone, framesLeft]
      omega

/-- No run of the machine goes on for ever, on whatever graph and from whatever state. -/
theorem wellFounded_next : WellFounded fun t s : Progress × Graph => Next s t := by
  refine Subrelation.wf (fun hnext => ?_) (InvImage.wf (fun s : Progress × Graph => s.1.rank s.2)
    (Prod.lex Nat.lt_wfRel (Prod.lex Nat.lt_wfRel Nat.lt_wfRel)).wf)
  exact hnext.move.rank_below

end Progress

end FlowGraph
