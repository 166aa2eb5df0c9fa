import FlowGraph.Proofs.Traversal.Lockstep
import FlowGraph.Simplification.Fixpoint
import FlowGraph.Ssa.Placement
import FlowGraph.Ssa.Renaming

/-!
# Walks by recursion

A walk on a stack does what its recursive formulation does: it enters a block, then crosses the
edges out of it in slot order, and goes down into each block that it comes to for the first time.
What is left of the stack when a block is done plays the part of the callers that wait for it.

## Main definitions

* `Walk.explore`, `Walk.follow`: enter a block and follow its edges, by recursion, with the
  successors looked up again at every slot
* `Walk.exploreListed`, `Walk.followListed`: the same with the successors that were listed when the
  block was entered
* `Edit.passRecursively`, `Edit.placePhisRecursively`, `Edit.renameRecursively`: the walks of this
  library by recursion

## Main results

* `Walk.visit_cons`: to go on from a stack is to finish its top block by recursion first
* `Walk.run_eq_recurse`, `Walk.run_eq_recurseListed`: a walk on a stack is the walk by recursion
* `Edit.walks_eq_recursive`: each walk of this library is the same as by recursion
-/

namespace FlowGraph

open Traversal

namespace Walk

variable {σ φ : Type} {bound : Nat}

/-- The blocks that were entered at some point of a walk that had entered those in `seen`. -/
structure Entered (bound : Nat) (seen : Std.TreeSet Nat) where
  blocks : Std.TreeSet Nat
  unvisited_le : unvisited bound blocks ≤ unvisited bound seen

/-- What a call answers, for a caller that had entered fewer blocks. -/
def Entered.widen {seen later : Std.TreeSet Nat}
    (h : unvisited bound later ≤ unvisited bound seen) :
    EStateM.Result Error σ (Entered bound later) → EStateM.Result Error σ (Entered bound seen)
  | .error e s => .error e s
  | .ok entered s => .ok ⟨entered.blocks, Nat.le_trans entered.unvisited_le h⟩ s

mutual

/-- Enters a block over an edge from a frame, then follows the edges out of it. -/
def explore (w : Walk σ φ) (bound : Nat) (frame : φ) (block : BlockId) (seen : Std.TreeSet Nat)
    (_new : block < bound ∧ block ∉ seen) (s : σ) :
    EStateM.Result Error σ (Entered bound (seen.insert block)) :=
  match w.enter frame block s with
  | .error e s => .error e s
  | .ok child s => w.follow bound child 0 (seen.insert block) s
termination_by (unvisited bound seen, 0)
decreasing_by exact Prod.Lex.left _ _ (unvisited_insert_lt _new.1 _new.2)

/-- Follows the edges out of the block of a frame, from a slot on. An edge is crossed, and a block
that was not entered before is explored at once. -/
def follow (w : Walk σ φ) (bound : Nat) (frame : φ) (slot : Nat) (seen : Std.TreeSet Nat) (s : σ) :
    EStateM.Result Error σ (Entered bound seen) :=
  match _next : (w.slots s frame)[slot]? with
  | none => .ok ⟨seen, Nat.le_refl _⟩ s
  | some block =>
    if inRange : block < bound then
      if known : block ∈ seen then
        w.follow bound frame (slot + 1) seen (w.cross frame block s)
      else
        -- The call enters this block at least, so fewer blocks are left for what follows it.
        have lower := unvisited_insert_lt inRange known
        match w.explore bound frame block seen ⟨inRange, known⟩ (w.cross frame block s) with
        | .error e s => .error e s
        | .ok entered s =>
          Entered.widen (Nat.le_trans entered.unvisited_le (Nat.le_of_lt lower))
            (w.follow bound frame (slot + 1) entered.blocks s)
    else
      .error (.noSuchBlock block) s
termination_by (unvisited bound seen, (w.slots s frame).length - slot)
decreasing_by
  · rw [w.slots_cross]
    have hlt := (List.getElem?_eq_some_iff.1 _next).1
    exact Prod.Lex.right _ (by omega)
  · have hlt := (List.getElem?_eq_some_iff.1 _next).1
    exact Prod.Lex.right _ (by omega)
  · exact Prod.Lex.left _ _ (Nat.lt_of_le_of_lt entered.unvisited_le lower)

end

/-- What a call comes to when nobody waits for the blocks that it entered. -/
def Entered.drop {seen : Std.TreeSet Nat} :
    EStateM.Result Error σ (Entered bound seen) → EStateM.Result Error σ Unit
  | .error e s => .error e s
  | .ok _ s => .ok () s

/-- The walk from a start block by recursion. -/
def recurse (w : Walk σ φ) (bound : Nat) (root : φ) (start : BlockId) : EStateM Error σ Unit :=
  fun s =>
    if inRange : start < bound then
      Entered.drop (w.explore bound root start ∅ ⟨inRange, Std.TreeSet.not_mem_emptyc⟩ s)
    else
      .error (.noSuchBlock start) s

mutual

/-- Enters a block over an edge from a frame, then follows the edges to its successors, which are
listed by the frame of the block. -/
def exploreListed (w : Walk σ φ) (list : φ → List BlockId) (bound : Nat) (frame : φ)
    (block : BlockId) (seen : Std.TreeSet Nat) (_new : block < bound ∧ block ∉ seen) (s : σ) :
    EStateM.Result Error σ (Entered bound (seen.insert block)) :=
  match w.enter frame block s with
  | .error e s => .error e s
  | .ok child s => w.followListed list bound child (list child) (seen.insert block) s
termination_by (unvisited bound seen, 0)
decreasing_by exact Prod.Lex.left _ _ (unvisited_insert_lt _new.1 _new.2)

/-- Follows the edges from the block of a frame to the blocks of a list. -/
def followListed (w : Walk σ φ) (list : φ → List BlockId) (bound : Nat) (frame : φ)
    (blocks : List BlockId) (seen : Std.TreeSet Nat) (s : σ) :
    EStateM.Result Error σ (Entered bound seen) :=
  match blocks with
  | [] => .ok ⟨seen, Nat.le_refl _⟩ s
  | block :: rest =>
    if inRange : block < bound then
      if known : block ∈ seen then
        w.followListed list bound frame rest seen (w.cross frame block s)
      else
        have lower := unvisited_insert_lt inRange known
        match w.exploreListed list bound frame block seen ⟨inRange, known⟩
            (w.cross frame block s) with
        | .error e s => .error e s
        | .ok entered s =>
          Entered.widen (Nat.le_trans entered.unvisited_le (Nat.le_of_lt lower))
            (w.followListed list bound frame rest entered.blocks s)
    else
      .error (.noSuchBlock block) s
termination_by (unvisited bound seen, blocks.length)
decreasing_by
  · exact Prod.Lex.right _ (Nat.lt_succ_self _)
  · exact Prod.Lex.right _ (Nat.zero_lt_succ _)
  · exact Prod.Lex.left _ _ (Nat.lt_of_le_of_lt entered.unvisited_le lower)

end

/-- The walk from a start block by recursion, with successors as they are listed on entry. -/
def recurseListed (w : Walk σ φ) (list : φ → List BlockId) (bound : Nat) (root : φ)
    (start : BlockId) : EStateM Error σ Unit := fun s =>
  if inRange : start < bound then
    Entered.drop (w.exploreListed list bound root start ∅ ⟨inRange, Std.TreeSet.not_mem_emptyc⟩ s)
  else
    .error (.noSuchBlock start) s

section Moves

variable {w : Walk σ φ} {frame : φ} {slot : Nat} {seen : Std.TreeSet Nat} {s : σ} {block : BlockId}

theorem follow_of_none (h : (w.slots s frame)[slot]? = none) :
    w.follow bound frame slot seen s = .ok ⟨seen, Nat.le_refl _⟩ s := by
  rw [follow]
  split
  · rfl
  · simp_all

theorem follow_of_some (h : (w.slots s frame)[slot]? = some block) :
    w.follow bound frame slot seen s =
      if inRange : block < bound then
        if known : block ∈ seen then
          w.follow bound frame (slot + 1) seen (w.cross frame block s)
        else
          match w.explore bound frame block seen ⟨inRange, known⟩ (w.cross frame block s) with
          | .error e s => .error e s
          | .ok entered s =>
            Entered.widen (Nat.le_trans entered.unvisited_le
              (Nat.le_of_lt (unvisited_insert_lt inRange known)))
              (w.follow bound frame (slot + 1) entered.blocks s)
      else
        .error (.noSuchBlock block) s := by
  rw [follow]
  split
  · simp_all
  · rename_i block' h'
    obtain rfl := Option.some.inj (h.symm.trans h')
    rfl

theorem visit_of_not_lt (h : (w.slots s frame)[slot]? = some block) (hout : ¬block < bound)
    (rest : List (φ × Nat)) : w.visit bound ((frame, slot) :: rest) seen s =
      .error (.noSuchBlock block) s := by
  rw [visit]
  split
  · simp_all
  · rename_i block' h'
    obtain rfl := Option.some.inj (h.symm.trans h')
    rw [dif_neg hout]

end Moves

/-! ### The stack and the callers -/

section Stack

variable {w : Walk σ φ} {frame : φ} {slot : Nat} {rest : List (φ × Nat)}
  {seen later : Std.TreeSet Nat} {s : σ} {block : BlockId}

/-- Enters a block over an edge from a frame and puts it on a stack. -/
def push (w : Walk σ φ) (bound : Nat) (frame : φ) (block : BlockId) (rest : List (φ × Nat))
    (seen : Std.TreeSet Nat) (s : σ) : EStateM.Result Error σ Unit :=
  match w.enter frame block s with
  | .error e s => .error e s
  | .ok child s => w.visit bound ((child, 0) :: rest) (seen.insert block) s

/-- Goes on with the rest of a stack when a call has ended. -/
def resume (w : Walk σ φ) (rest : List (φ × Nat)) :
    EStateM.Result Error σ (Entered bound seen) → EStateM.Result Error σ Unit
  | .error e s => .error e s
  | .ok entered s => w.visit bound rest entered.blocks s

theorem visit_of_push (h : (w.slots s frame)[slot]? = some block) (hin : block < bound)
    (hseen : block ∉ seen) (rest : List (φ × Nat)) :
    w.visit bound ((frame, slot) :: rest) seen s =
      w.push bound frame block ((frame, slot + 1) :: rest) seen (w.cross frame block s) := by
  rw [visit]
  split
  · simp_all
  · rename_i block' h'
    obtain rfl := Option.some.inj (h.symm.trans h')
    rw [dif_pos hin, dif_neg hseen]
    rfl

theorem resume_widen (h : unvisited bound later ≤ unvisited bound seen)
    (result : EStateM.Result Error σ (Entered bound later)) :
    w.resume rest (Entered.widen h result) = w.resume rest result := by
  cases result <;> rfl

theorem resume_nil (result : EStateM.Result Error σ (Entered bound seen)) :
    w.resume [] result = Entered.drop result := by
  cases result with
  | error e s => rfl
  | ok entered s =>
    rw [resume, visit]
    rfl

/-- To go on from a stack is to finish its top block by recursion, and then to go on from the
rest. -/
theorem visit_cons (w : Walk σ φ) (bound : Nat) (frame : φ) (slot : Nat) (rest : List (φ × Nat))
    (seen : Std.TreeSet Nat) (s : σ) :
    w.visit bound ((frame, slot) :: rest) seen s =
      w.resume rest (w.follow bound frame slot seen s) := by
  -- The stack grows on the way down, so the induction is for every rest of it.
  refine follow.induct w bound
    (fun frame block seen new s => ∀ rest, w.push bound frame block rest seen s =
      w.resume rest (w.explore bound frame block seen new s))
    (fun frame slot seen s => ∀ rest, w.visit bound ((frame, slot) :: rest) seen s =
      w.resume rest (w.follow bound frame slot seen s)) ?_ ?_ ?_ ?_ ?_ ?_ ?_ frame slot seen s rest
  -- A block is entered, with an error and without.
  · intro frame block seen new s e s' henter rest
    rw [push, explore, henter]
    rfl
  · intro frame block seen new s child s' henter ih rest
    rw [push, explore, henter]
    exact ih rest
  -- The edges out of a block are followed.
  · intro frame slot seen s hnone rest
    rw [visit_of_none hnone, follow_of_none hnone]
    rfl
  · intro frame slot seen s block hsome hin hseen ih rest
    rw [visit_of_mem hsome hin hseen, follow_of_some hsome, dif_pos hin, dif_pos hseen, ih]
  · intro frame slot seen s block hsome hin hseen _ e s' hexplore ih rest
    rw [visit_of_push hsome hin hseen, follow_of_some hsome, dif_pos hin, dif_neg hseen, ih,
      hexplore]
    rfl
  · intro frame slot seen s block hsome hin hseen _ entered s' hexplore ih ihrest rest
    rw [visit_of_push hsome hin hseen, follow_of_some hsome, dif_pos hin, dif_neg hseen, ih,
      hexplore]
    simp only [resume_widen]
    exact ihrest rest
  · intro frame slot seen s block hsome hout rest
    rw [visit_of_not_lt hsome hout, follow_of_some hsome, dif_neg hout]
    rfl

/-- To enter a block and put it on a stack is to explore it, and then to go on from the stack as it
was before. -/
theorem push_eq (new : block < bound ∧ block ∉ seen) : w.push bound frame block rest seen s =
    w.resume rest (w.explore bound frame block seen new s) := by
  rw [push, explore]
  cases w.enter frame block s with
  | error e s' => rfl
  | ok child s' => exact w.visit_cons bound child 0 rest (seen.insert block) s'

/-- A walk on a stack is the walk by recursion. -/
theorem run_eq_recurse (w : Walk σ φ) (bound : Nat) (root : φ) (start : BlockId) :
    w.run bound root start = w.recurse bound root start := by
  funext s
  rw [run, recurse]
  split
  · rename_i hin
    rw [← resume_nil (w := w)]
    exact push_eq ⟨hin, Std.TreeSet.not_mem_emptyc⟩
  · rfl

end Stack

/-! ### Successors that are listed -/

section Listed

variable {w : Walk σ φ} {list : φ → List BlockId}

/-- When the successors of a block are always those that its frame lists, it does not matter when
they are read. -/
theorem follow_eq_followListed (hlist : ∀ s frame, w.slots s frame = list frame) (bound : Nat)
    (frame : φ) (slot : Nat) (seen : Std.TreeSet Nat) (s : σ) :
    w.follow bound frame slot seen s =
      w.followListed list bound frame ((list frame).drop slot) seen s := by
  have hcons {frame : φ} {slot : Nat} {s : σ} {block : BlockId}
      (hsome : (w.slots s frame)[slot]? = some block) :
      (list frame).drop slot = block :: (list frame).drop (slot + 1) := by
    rw [hlist] at hsome
    rw [List.drop_eq_getElem?_toList_append, hsome]
    rfl
  refine follow.induct w bound
    (fun frame block seen new s => w.explore bound frame block seen new s =
      w.exploreListed list bound frame block seen new s)
    (fun frame slot seen s => w.follow bound frame slot seen s =
      w.followListed list bound frame ((list frame).drop slot) seen s)
    ?_ ?_ ?_ ?_ ?_ ?_ ?_ frame slot seen s
  -- A block is entered, with an error and without.
  · intro frame block seen new s e s' henter
    rw [explore, exploreListed, henter]
  · intro frame block seen new s child s' henter ih
    rw [explore, exploreListed, henter]
    exact ih
  -- The edges out of a block are followed.
  · intro frame slot seen s hnone
    rw [hlist, List.getElem?_eq_none_iff] at hnone
    rw [follow_of_none (by rw [hlist, List.getElem?_eq_none_iff]; exact hnone),
      List.drop_eq_nil_of_le hnone, followListed]
  · intro frame slot seen s block hsome hin hseen ih
    rw [follow_of_some hsome, dif_pos hin, dif_pos hseen, hcons hsome, followListed, dif_pos hin,
      dif_pos hseen, ih]
  · intro frame slot seen s block hsome hin hseen _ e s' hexplore ih
    rw [follow_of_some hsome, hcons hsome, followListed, dif_pos hin, dif_neg hseen, dif_pos hin,
      dif_neg hseen, ← ih, hexplore]
  · intro frame slot seen s block hsome hin hseen _ entered s' hexplore ih ihrest
    rw [follow_of_some hsome, hcons hsome, followListed, dif_pos hin, dif_neg hseen, dif_pos hin,
      dif_neg hseen, ← ih, hexplore]
    simp only [ihrest]
  · intro frame slot seen s block hsome hout
    rw [follow_of_some hsome, dif_neg hout, hcons hsome, followListed, dif_neg hout]

/-- A walk on a stack is the walk by recursion that reads the successors of a block on entry. -/
theorem run_eq_recurseListed (hlist : ∀ s frame, w.slots s frame = list frame) (bound : Nat)
    (root : φ) (start : BlockId) :
    w.run bound root start = w.recurseListed list bound root start := by
  rw [run_eq_recurse]
  funext s
  rw [recurse, recurseListed]
  split
  · rw [explore, exploreListed]
    cases w.enter root start s with
    | error e s' => rfl
    | ok child s' => exact congrArg Entered.drop (follow_eq_followListed hlist bound child 0 _ s')
  · rfl

end Listed

end Walk

namespace Edit

/-- Passes once over the graph by recursion, and answers the number of changes. The successors of a
block are looked up again at every slot. -/
def passRecursively : Edit Nat := fun g =>
  match passWalk.recurse g.size g.entry g.entry ⟨g, 0⟩ with
  | .ok _ s => .ok s.changes s.graph
  | .error e s => .error e s.graph

/-- Places phi nodes for the variables in `wanted` by recursion, and answers how many were added.
The successors of a block are read on entry. -/
def placePhisRecursively (wanted : Std.TreeSet String) : Edit Nat := fun g =>
  match (placementWalk wanted).recurseListed PlacementFrame.successors g.size {} g.entry ⟨g, 0⟩ with
  | .ok _ s => .ok s.added s.graph
  | .error e s => .error e s.graph

/-- Renames the reachable part of a graph by recursion, and answers the versions handed out. The
successors of a block are read on entry. -/
def renameRecursively (declared : Std.TreeSet String) : Edit Versions := fun g =>
  match renamingWalk.recurseListed RenamingFrame.successors g.size {} g.entry
      ⟨g, .start declared⟩ with
  | .ok _ s => .ok s.versions s.graph
  | .error e s => .error e s.graph

/-- The walks on a stack leave any graph as the walks by recursion do, with the same answer or the
same error. -/
theorem walks_eq_recursive (g : Graph) :
    pass.run g = passRecursively.run g ∧
      (∀ wanted, (placePhis wanted).run g = (placePhisRecursively wanted).run g) ∧
      ∀ declared, (rename declared).run g = (renameRecursively declared).run g := by
  refine ⟨?_, fun wanted => ?_, fun declared => ?_⟩
  · have hwalk := passWalk.run_eq_recurse g.size g.entry g.entry
    cases h : passWalk.recurse g.size g.entry g.entry ⟨g, 0⟩ <;>
      simp only [EStateM.run, pass, passRecursively, hwalk, h]
  · have hwalk := (placementWalk wanted).run_eq_recurseListed (fun _ _ => rfl) g.size {} g.entry
    cases h : (placementWalk wanted).recurseListed PlacementFrame.successors g.size {} g.entry
        ⟨g, 0⟩ <;>
      simp only [EStateM.run, placePhis, placePhisRecursively, hwalk, h]
  · have hwalk := renamingWalk.run_eq_recurseListed (fun _ _ => rfl) g.size {} g.entry
    cases h : renamingWalk.recurseListed RenamingFrame.successors g.size {} g.entry
        ⟨g, .start declared⟩ <;>
      simp only [EStateM.run, rename, renameRecursively, hwalk, h]

end Edit

end FlowGraph
