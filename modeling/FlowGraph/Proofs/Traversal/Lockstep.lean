import FlowGraph.Proofs.Graph.Reachability
import FlowGraph.Traversal.Walk
import Mathlib.Data.List.Forall2

/-!
# Traversals in lockstep

Traversals see nodes by their edges only. When the edges of one graph are those of another under an
injective renumbering, a traversal of the second graph makes the moves that it makes in the first,
each of them renumbered.

## Main definitions

* `Walk.Follows`: two walks whose moves on related states lead to related states

## Main results

* `Traversal.preorder_map`: the depth-first order of renumbered nodes
* `Walk.Follows.exists_run`: a walk that follows one that succeeds
-/

namespace FlowGraph

variable {ν : BlockId → BlockId} {bound bound' : Nat}

namespace Traversal

theorem mem_insert_map_iff {seen seen' : Std.TreeSet Nat} (hν : Function.Injective ν)
    (hseen : ∀ i, ν i ∈ seen' ↔ i ∈ seen) (node i : Nat) :
    ν i ∈ seen'.insert (ν node) ↔ i ∈ seen.insert node := by
  rw [mem_insert_iff, mem_insert_iff, hν.eq_iff, hseen]

theorem preorderFrom_map {next next' : Nat → List Nat} (hν : Function.Injective ν)
    (hbound : ∀ i, ν i < bound' ↔ i < bound) (hnext : ∀ i, next' (ν i) = (next i).map ν)
    {stack : List Nat} {seen seen' : Std.TreeSet Nat} (hseen : ∀ i, ν i ∈ seen' ↔ i ∈ seen) :
    preorderFrom bound' next' (stack.map ν) seen' =
      (preorderFrom bound next stack seen).map ν := by
  fun_induction preorderFrom bound next stack seen generalizing seen' with
  | case1 => rw [List.map_nil, preorderFrom]
  | case2 seen node rest hnew ih =>
    have hnew' : ν node < bound' ∧ ν node ∉ seen' := by rwa [hbound, hseen]
    rw [List.map_cons, preorderFrom, dif_pos hnew', hnext, ← List.map_append,
      ih (mem_insert_map_iff hν hseen node), List.map_cons]
  | case3 seen node rest hold ih =>
    have hold' : ¬(ν node < bound' ∧ ν node ∉ seen') := by rwa [hbound, hseen]
    rw [List.map_cons, preorderFrom, dif_neg hold', ih hseen]

/-- The order of renumbered nodes is the renumbered order. -/
theorem preorder_map {next next' : Nat → List Nat} (hν : Function.Injective ν)
    (hbound : ∀ i, ν i < bound' ↔ i < bound) (hnext : ∀ i, next' (ν i) = (next i).map ν)
    (start : Nat) : preorder bound' next' (ν start) = (preorder bound next start).map ν :=
  @preorderFrom_map ν bound bound' next next' hν hbound hnext [start] ∅ ∅ fun _ =>
    iff_of_false Std.TreeSet.not_mem_emptyc Std.TreeSet.not_mem_emptyc

end Traversal

namespace Walk

variable {σ τ φ ψ : Type}

section Moves

variable {w : Walk σ φ} {frame : φ} {slot : Nat} {rest : List (φ × Nat)} {seen : Std.TreeSet Nat}
  {s : σ} {block : BlockId}

theorem visit_of_none (h : (w.slots s frame)[slot]? = none) :
    w.visit bound ((frame, slot) :: rest) seen s = w.visit bound rest seen s := by
  rw [visit]
  split
  · rfl
  · simp_all

theorem visit_of_mem (h : (w.slots s frame)[slot]? = some block) (hin : block < bound)
    (hseen : block ∈ seen) : w.visit bound ((frame, slot) :: rest) seen s =
      w.visit bound ((frame, slot + 1) :: rest) seen (w.cross frame block s) := by
  rw [visit]
  split
  · simp_all
  · rename_i block' h'
    obtain rfl := Option.some.inj (h.symm.trans h')
    rw [dif_pos hin, dif_pos hseen]

theorem visit_of_not_mem {child : φ} {s' : σ} (h : (w.slots s frame)[slot]? = some block)
    (hin : block < bound) (hseen : block ∉ seen)
    (henter : w.enter frame block (w.cross frame block s) = .ok child s') :
    w.visit bound ((frame, slot) :: rest) seen s =
      w.visit bound ((child, 0) :: (frame, slot + 1) :: rest) (seen.insert block) s' := by
  rw [visit]
  split
  · simp_all
  · rename_i block' h'
    obtain rfl := Option.some.inj (h.symm.trans h')
    rw [dif_pos hin, dif_neg hseen, henter]

end Moves

/-- Two walks, of which the second one moves as the first does under a renumbering of blocks. States
are related by `R` and frames by `F`. -/
structure Follows (ν : BlockId → BlockId) (R : σ → τ → Prop) (F : φ → ψ → Prop) (w : Walk σ φ)
    (v : Walk τ ψ) : Prop where
  slots : ∀ {s t f k}, R s t → F f k → v.slots t k = (w.slots s f).map ν
  cross : ∀ {s t f k i}, R s t → F f k → i ∈ w.slots s f → R (w.cross f i s) (v.cross k (ν i) t)
  enter : ∀ {s t f k} (i : BlockId) {child s'}, R s t → F f k → w.enter f i s = .ok child s' →
    ∃ child' t', v.enter k (ν i) t = .ok child' t' ∧ F child child' ∧ R s' t'

namespace Follows

variable {R : σ → τ → Prop} {F : φ → ψ → Prop} {w : Walk σ φ} {v : Walk τ ψ}

/-- Two stacks that stand at the same slots of related frames. -/
def Stacks (F : φ → ψ → Prop) : List (φ × Nat) → List (ψ × Nat) → Prop :=
  List.Forall₂ fun x y => F x.1 y.1 ∧ y.2 = x.2

theorem Stacks.exists_cons {f : φ} {slot : Nat} {rest : List (φ × Nat)} {stack' : List (ψ × Nat)}
    (h : Stacks F ((f, slot) :: rest) stack') :
    ∃ k rest', stack' = (k, slot) :: rest' ∧ F f k ∧ Stacks F rest rest' := by
  obtain ⟨⟨k, slot'⟩, rest', ⟨hk, rfl⟩, hrest, rfl⟩ := List.forall₂_cons_left_iff.1 h
  exact ⟨k, rest', rfl, hk, hrest⟩

theorem exists_visit (h : w.Follows ν R F v) (hν : Function.Injective ν)
    (hbound : ∀ i, ν i < bound' ↔ i < bound) {stack : List (φ × Nat)} {stack' : List (ψ × Nat)}
    {seen seen' : Std.TreeSet Nat} {s s' : σ} {t : τ} {u : Unit} (hstack : Stacks F stack stack')
    (hseen : ∀ i, ν i ∈ seen' ↔ i ∈ seen) (hst : R s t)
    (hvisit : w.visit bound stack seen s = .ok u s') :
    ∃ t', v.visit bound' stack' seen' t = .ok () t' ∧ R s' t' := by
  -- One case for each move. In cases 4 and 6 the first walk fails.
  fun_induction w.visit bound stack seen s generalizing stack' seen' t with
  | case1 seen s =>
    cases hstack
    cases hvisit
    exact ⟨t, by rw [visit], hst⟩
  | case2 seen s frame slot rest hnone ih =>
    obtain ⟨k, rest', rfl, hk, hrest⟩ := hstack.exists_cons
    rw [visit_of_none (by rw [h.slots hst hk, List.getElem?_map, hnone, Option.map_none])]
    exact ih hrest hseen hst hvisit
  | case3 seen s frame slot rest block hsome hin hold ih =>
    obtain ⟨k, rest', rfl, hk, hrest⟩ := hstack.exists_cons
    rw [visit_of_mem (by rw [h.slots hst hk, List.getElem?_map, hsome, Option.map_some])
      ((hbound block).2 hin) ((hseen block).2 hold)]
    exact ih (.cons ⟨hk, rfl⟩ hrest) hseen (h.cross hst hk (List.mem_of_getElem? hsome)) hvisit
  | case4 => cases hvisit
  | case5 seen s frame slot rest block hsome hin hnew child s₁ hentered ih =>
    obtain ⟨k, rest', rfl, hk, hrest⟩ := hstack.exists_cons
    obtain ⟨child', t₁, hentered', hchild, hst₁⟩ :=
      h.enter block (h.cross hst hk (List.mem_of_getElem? hsome)) hk hentered
    rw [visit_of_not_mem (by rw [h.slots hst hk, List.getElem?_map, hsome, Option.map_some])
      ((hbound block).2 hin) (fun hold => hnew ((hseen block).1 hold)) hentered']
    exact ih (.cons ⟨hchild, rfl⟩ (.cons ⟨hk, rfl⟩ hrest))
      (Traversal.mem_insert_map_iff hν hseen block) hst₁ hvisit
  | case6 => cases hvisit

/-- A walk that follows one that succeeds does so as well. -/
theorem exists_run (h : w.Follows ν R F v) (hν : Function.Injective ν)
    (hbound : ∀ i, ν i < bound' ↔ i < bound) {root : φ} {root' : ψ} {start : BlockId} {s s' : σ}
    {t : τ} {u : Unit} (hroot : F root root') (hst : R s t)
    (hrun : w.run bound root start s = .ok u s') :
    ∃ t', v.run bound' root' (ν start) t = .ok () t' ∧ R s' t' := by
  unfold run at hrun
  split at hrun
  · rename_i hin
    split at hrun
    · cases hrun
    · rename_i frame s₁ hentered
      obtain ⟨child, t₁, hentered', hchild, hst₁⟩ := h.enter start hst hroot hentered
      have hstack : Stacks F [(frame, 0)] [(child, 0)] := .cons ⟨hchild, rfl⟩ .nil
      obtain ⟨t', hvisit, hst'⟩ := h.exists_visit hν hbound hstack (fun i => by
        rw [Traversal.mem_singleton_iff, Traversal.mem_singleton_iff, hν.eq_iff]) hst₁ hrun
      exact ⟨t', by rw [run, if_pos ((hbound start).2 hin), hentered']; exact hvisit, hst'⟩
  · cases hrun

end Follows

end Walk

end FlowGraph
