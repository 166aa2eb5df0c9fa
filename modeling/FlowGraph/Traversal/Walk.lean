import FlowGraph.Error
import FlowGraph.Traversal.Unvisited

/-!
# Depth-first walks that change a state

A walk enters each block at most once and crosses every edge that leaves an entered block, in slot
order. Crossing an edge and entering a block may both change a state, and entering may fail. When an
edge leads to a block that was not entered before, the walk enters it and finishes everything below
it before it crosses the next edge. The walk runs on an explicit stack of frames, so long chains of
blocks need no deep recursion.

## Main definitions

* `Walk`: what a walk remembers about a block, and what it does on edges and blocks
* `Walk.visit`: the walk from a stack of frames
* `Walk.run`: the walk from a start block

## Main results

* `Walk.invariant`: what crossing and entering keep, the walk keeps
-/

namespace FlowGraph

/-- A depth-first walk that changes a state `σ` and keeps a frame `φ` for each block it is in. -/
structure Walk (σ φ : Type) where
  /-- The successors of the block of a frame, in slot order. -/
  slots : σ → φ → List BlockId
  /-- What crossing the edge from a frame to a block does. -/
  cross : φ → BlockId → σ → σ
  /-- What entering a block over an edge from a frame does. -/
  enter : φ → BlockId → EStateM Error σ φ
  /-- Crossing an edge changes no successors. -/
  slots_cross : ∀ frame block s other, slots (cross frame block s) other = slots s other

namespace Walk

variable {σ φ : Type}

/-- The number of slots still to be looked at, counting one for the end of each frame. -/
def remaining (w : Walk σ φ) (s : σ) : List (φ × Nat) → Nat
  | [] => 0
  | (frame, slot) :: rest => (w.slots s frame).length - slot + 1 + w.remaining s rest

theorem remaining_cross (w : Walk σ φ) (frame : φ) (block : BlockId) (s : σ)
    (stack : List (φ × Nat)) :
    w.remaining (w.cross frame block s) stack = w.remaining s stack := by
  induction stack with
  | nil => rfl
  | cons top rest ih => rw [remaining, remaining, w.slots_cross, ih]

theorem remaining_tail_lt (w : Walk σ φ) (s : σ) (top : φ × Nat) (rest : List (φ × Nat)) :
    w.remaining s rest < w.remaining s (top :: rest) := by
  rw [remaining]
  omega

theorem remaining_next_slot_lt (w : Walk σ φ) {s : σ} {frame : φ} {slot : Nat} {block : BlockId}
    (h : (w.slots s frame)[slot]? = some block) (rest : List (φ × Nat)) :
    w.remaining s ((frame, slot + 1) :: rest) < w.remaining s ((frame, slot) :: rest) := by
  have hlt := (List.getElem?_eq_some_iff.1 h).1
  rw [remaining, remaining]
  omega

/-- Goes on from a stack of frames, each with the slot to look at next. An edge to an id that is not
below `bound` ends the walk with an error. -/
def visit (w : Walk σ φ) (bound : Nat) (stack : List (φ × Nat)) (seen : Std.TreeSet Nat) (s : σ) :
    EStateM.Result Error σ Unit :=
  match stack with
  | [] => .ok () s
  | (frame, slot) :: rest =>
    match _next : (w.slots s frame)[slot]? with
    -- The block of the frame is done.
    | none => w.visit bound rest seen s
    | some block =>
      if _inRange : block < bound then
        if _entered : block ∈ seen then
          w.visit bound ((frame, slot + 1) :: rest) seen (w.cross frame block s)
        else
          match w.enter frame block (w.cross frame block s) with
          | .error e s' => .error e s'
          | .ok child s' =>
            w.visit bound ((child, 0) :: (frame, slot + 1) :: rest) (seen.insert block) s'
      else
        .error (.noSuchBlock block) s
termination_by (Traversal.unvisited bound seen, w.remaining s stack)
decreasing_by
  · exact Prod.Lex.right _ (w.remaining_tail_lt s _ rest)
  · rw [remaining_cross]
    exact Prod.Lex.right _ (w.remaining_next_slot_lt _next rest)
  · exact Prod.Lex.left _ _ (Traversal.unvisited_insert_lt _inRange _entered)

/-- The walk from a start block, which is entered from the frame `root`. -/
def run (w : Walk σ φ) (bound : Nat) (root : φ) (start : BlockId) : EStateM Error σ Unit := fun s =>
  if start < bound then
    match w.enter root start s with
    | .error e s' => .error e s'
    | .ok frame s' => w.visit bound [(frame, 0)] {start} s'
  else
    .error (.noSuchBlock start) s

/-- What every crossing and every successful entering keeps holds after a walk that succeeds. -/
theorem invariant_visit {w : Walk σ φ} {P : σ → Prop}
    (hcross : ∀ frame block s, P s → P (w.cross frame block s))
    (henter : ∀ frame block s child s', P s → w.enter frame block s = .ok child s' → P s')
    {bound : Nat} {stack : List (φ × Nat)} {seen : Std.TreeSet Nat} {s s' : σ} {u : Unit}
    (hs : P s) (hvisit : w.visit bound stack seen s = .ok u s') : P s' := by
  fun_induction w.visit bound stack seen s with
  | case1 seen s =>
    cases hvisit
    exact hs
  | case2 seen s frame slot rest _ ih => exact ih hs hvisit
  | case3 seen s frame slot rest block _ _ _ ih => exact ih (hcross _ _ _ hs) hvisit
  | case4 => cases hvisit
  | case5 seen s frame slot rest block _ _ _ child s₁ hentered ih =>
    exact ih (henter _ _ _ _ _ (hcross _ _ _ hs) hentered) hvisit
  | case6 => cases hvisit

/-- What every crossing and every successful entering keeps, a walk that succeeds keeps. -/
theorem invariant {w : Walk σ φ} {P : σ → Prop}
    (hcross : ∀ frame block s, P s → P (w.cross frame block s))
    (henter : ∀ frame block s child s', P s → w.enter frame block s = .ok child s' → P s')
    {bound : Nat} {root : φ} {start : BlockId} {s s' : σ} {u : Unit}
    (hs : P s) (hrun : w.run bound root start s = .ok u s') : P s' := by
  unfold run at hrun
  split at hrun
  · split at hrun
    · cases hrun
    · rename_i hentered
      exact invariant_visit hcross henter (henter _ _ _ _ _ hs hentered) hrun
  · cases hrun

end Walk

end FlowGraph
