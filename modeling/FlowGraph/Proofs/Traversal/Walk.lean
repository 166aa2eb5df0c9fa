import FlowGraph.Traversal.Walk
import Mathlib.Tactic.Common

/-!
# Walks that succeed

A walk succeeds and reaches an invariant when the invariant speaks about the stack, the blocks seen
so far and the state, and each of the three moves of a walk keeps it: to leave a block, to cross an
edge to a block seen before, and to cross an edge and enter a new block.

## Main definitions

* `Walk.Invariant`: a statement about a walk in progress that every move keeps

## Main results

* `Walk.Invariant.exists_visit`: such a walk succeeds
-/

namespace FlowGraph.Walk

variable {σ φ : Type}

/-- A walk that succeeds enters its start block and visits what is below it. -/
theorem exists_of_run {w : Walk σ φ} {bound : Nat} {root : φ} {start : BlockId} {s t : σ} {u : Unit}
    (hrun : w.run bound root start s = .ok u t) : ∃ frame s', w.enter root start s = .ok frame s' ∧
      w.visit bound [(frame, 0)] {start} s' = .ok u t := by
  unfold run at hrun
  split at hrun
  · split at hrun
    · cases hrun
    · exact ⟨_, _, by assumption, hrun⟩
  · cases hrun

/-- A statement about the stack, the blocks seen and the state of a walk that holds on. -/
structure Invariant (w : Walk σ φ) (bound : Nat)
    (I : List (φ × Nat) → Std.TreeSet Nat → σ → Prop) : Prop where
  /-- Edges lead to blocks in range. -/
  inRange : ∀ {frame slot rest seen s block}, I ((frame, slot) :: rest) seen s →
    (w.slots s frame)[slot]? = some block → block < bound
  /-- A block without further slots is left. -/
  leave : ∀ {frame slot rest seen s}, I ((frame, slot) :: rest) seen s →
    (w.slots s frame)[slot]? = none → I rest seen s
  /-- An edge to a block seen before is crossed. -/
  again : ∀ {frame slot rest seen s block}, I ((frame, slot) :: rest) seen s →
    (w.slots s frame)[slot]? = some block → block ∈ seen →
      I ((frame, slot + 1) :: rest) seen (w.cross frame block s)
  /-- An edge to a new block is crossed, and the block is entered. -/
  enter : ∀ {frame slot rest seen s block}, I ((frame, slot) :: rest) seen s →
    (w.slots s frame)[slot]? = some block → block ∉ seen →
      ∃ child s', w.enter frame block (w.cross frame block s) = .ok child s' ∧
        I ((child, 0) :: (frame, slot + 1) :: rest) (seen.insert block) s'

/-- A walk with an invariant succeeds, and the invariant holds when nothing is left to do. -/
theorem Invariant.exists_visit {w : Walk σ φ} {bound : Nat}
    {I : List (φ × Nat) → Std.TreeSet Nat → σ → Prop} (hI : w.Invariant bound I)
    {stack : List (φ × Nat)} {seen : Std.TreeSet Nat} {s : σ} (h : I stack seen s) :
    ∃ seen' s', w.visit bound stack seen s = .ok () s' ∧ I [] seen' s' := by
  -- Errors are excluded by the invariant: targets are in range, and entering succeeds.
  fun_induction w.visit bound stack seen s with
  | case1 seen s => exact ⟨seen, s, rfl, h⟩
  | case2 seen s frame slot rest hnone ih => exact ih (hI.leave h hnone)
  | case3 seen s frame slot rest block hsome _ hseen ih => exact ih (hI.again h hsome hseen)
  | case4 seen s frame slot rest block hsome _ hnew e s' herror =>
    obtain ⟨child, s', hentered, -⟩ := hI.enter h hsome hnew
    rw [hentered] at herror
    cases herror
  | case5 seen s frame slot rest block hsome _ hnew child s' hok ih =>
    obtain ⟨child', s'', hentered, hnext⟩ := hI.enter h hsome hnew
    rw [hentered] at hok
    cases hok
    exact ih hnext
  | case6 seen s frame slot rest block hsome hout => exact absurd (hI.inRange h hsome) hout

/-- A walk succeeds from a block in range that can be entered. -/
theorem Invariant.exists_run {w : Walk σ φ} {bound : Nat}
    {I : List (φ × Nat) → Std.TreeSet Nat → σ → Prop} (hI : w.Invariant bound I) {root frame : φ}
    {start : BlockId} {s s' : σ} (hstart : start < bound)
    (henter : w.enter root start s = .ok frame s') (h : I [(frame, 0)] {start} s') :
    ∃ seen t, w.run bound root start s = .ok () t ∧ I [] seen t := by
  obtain ⟨seen, t, hvisit, hI⟩ := hI.exists_visit h
  exact ⟨seen, t, by rw [run, if_pos hstart, henter]; exact hvisit, hI⟩

end FlowGraph.Walk
