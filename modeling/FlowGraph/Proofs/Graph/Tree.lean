import FlowGraph.Proofs.Graph.Path
import Mathlib.Data.List.Infix

/-!
# The depth-first tree

A depth-first walk comes to each block for the first time over one edge. The blocks at which these
edges start make a tree, and the tree path to a block is the way on which the walk enters it. Which
edge is the first one can be read off the depth-first order: what comes before a block in this order
and is not on the way to it is finished, and has no edge to a block that is still to be entered.

## Main definitions

* `Graph.Closed`: no edge that a walk could follow dangles
* `Graph.parent?`: the block before another one on the depth-first tree
* `Graph.treePath`: the blocks before a block on the depth-first tree

## Main results

* `Graph.parent?_eq_of_order`: the parent of a block, given the order up to it
* `Graph.path_treePath`: the tree path to a reachable block is a path
-/

namespace FlowGraph

namespace Traversal

variable {bound node : Nat} {next : Nat → List Nat} {rest : List Nat} {seen : Std.TreeSet Nat}

theorem preorderFrom_cons_of_new (hbound : node < bound) (hnew : node ∉ seen) :
    preorderFrom bound next (node :: rest) seen =
      node :: preorderFrom bound next (next node ++ rest) (seen.insert node) := by
  rw [preorderFrom, dif_pos ⟨hbound, hnew⟩]

theorem preorderFrom_cons_of_seen (hseen : node ∈ seen) :
    preorderFrom bound next (node :: rest) seen = preorderFrom bound next rest seen := by
  rw [preorderFrom, dif_neg fun h => h.2 hseen]

/-- What is listed was on the stack, or an edge leads to it from a node that is listed before. -/
theorem mem_stack_or_exists_of_mem_preorderFrom {stack : List Nat} {j : Nat}
    (hj : j ∈ preorderFrom bound next stack seen) :
    j ∈ stack ∨ ∃ i ∈ (preorderFrom bound next stack seen).takeWhile (· != j), j ∈ next i := by
  fun_induction preorderFrom bound next stack seen with
  | case1 => cases hj
  | case2 seen node rest hnew ih =>
    by_cases hnode : node = j
    · exact .inl (List.mem_cons.2 (.inl hnode.symm))
    · have htake : (node :: preorderFrom bound next (next node ++ rest)
          (seen.insert node)).takeWhile (· != j) = node ::
            (preorderFrom bound next (next node ++ rest) (seen.insert node)).takeWhile (· != j) :=
        List.takeWhile_cons_of_pos (bne_iff_ne.2 hnode)
      rw [htake]
      have hrest := (List.mem_cons.1 hj).resolve_left (Ne.symm hnode)
      rcases ih hrest with hstack | ⟨i, hi, hedge⟩
      -- What is new on the stack are the successors of the node.
      · rcases List.mem_append.1 hstack with hedge | hstack
        · exact .inr ⟨node, List.mem_cons_self, hedge⟩
        · exact .inl (List.mem_cons_of_mem node hstack)
      · exact .inr ⟨i, List.mem_cons_of_mem node hi, hedge⟩
  | case3 seen node rest _ ih =>
    exact (ih hj).imp_left (List.mem_cons_of_mem node)

end Traversal

namespace Graph

variable {g : Graph} {i j : BlockId}

/-- The entry is there, and so is every block to which an edge leads from a reachable block. -/
structure Closed (g : Graph) : Prop where
  entry : g.entry < g.size
  edge : ∀ {i j}, i ∈ g.reachable → j ∈ g.successors i → j < g.size

theorem Closed.mem_reachable (hg : g.Closed) (hi : i ∈ g.reachable) (hj : j ∈ g.successors i) :
    j ∈ g.reachable :=
  mem_reachable_of_mem_successors hi hj (hg.edge hi hj)

/-- No edge dangles where edges are recorded at both ends, as long as the entry is live. -/
theorem Mirrored.closed {b : Block} (hg : g.Mirrored) (hentry : g.Live g.entry b) : g.Closed where
  entry := hentry.lt_size
  edge := by
    intro i j hi hj
    obtain ⟨c, hc⟩ := hg.exists_live_of_mem_reachable hentry hi
    rw [hc.successors] at hj
    obtain ⟨d, hd⟩ := hg.successor_live hc hj
    exact hd.lt_size

/-- A reachable block is there. -/
theorem Closed.exists_block? (hg : g.Closed) (hi : i ∈ g.reachable) : ∃ b, g.block? i = some b := by
  refine Option.isSome_iff_exists.1 (block?_isSome_iff.2 ?_)
  obtain ⟨-, hpath⟩ := mem_reachable_iff.1 hi
  rcases hpath.cases_tail with rfl | ⟨p, -, step⟩
  · exact hg.entry
  · exact step.2

/-- In a closed graph paths lead to reachable blocks only. -/
theorem Closed.mem_reachable_of_path (hg : g.Closed) {before : List BlockId}
    (path : g.Path before i) : i ∈ g.reachable := by
  induction path with
  | entry => exact mem_reachable_iff.2 ⟨hg.entry, .refl⟩
  | step _ edge ih => exact hg.mem_reachable ih edge

/-- Each block of a path leads to its end. -/
theorem Closed.reaches_of_mem_path (hg : g.Closed) {before : List BlockId} {d : BlockId}
    (path : g.Path before i) (hd : d ∈ before ++ [i]) : g.Reaches d i := by
  induction path with
  | entry =>
    obtain rfl := List.mem_singleton.1 hd
    exact .refl
  | @step before i j path edge ih =>
    rcases List.mem_append.1 hd with hd | hd
    · exact (ih hd).tail ⟨edge, hg.edge (hg.mem_reachable_of_path path) edge⟩
    · obtain rfl := List.mem_singleton.1 hd
      exact .refl

/-- The block before `j` on the depth-first tree: of all blocks that come before `j` in depth-first
order, the last one with an edge to it. -/
def parent? (g : Graph) (j : BlockId) : Option BlockId :=
  ((g.reachable.takeWhile (· != j)).filter fun i => (g.successors i).contains j).getLast?

theorem parent?_spec (h : g.parent? j = some i) :
    i ∈ g.reachable.takeWhile (· != j) ∧ j ∈ g.successors i := by
  have hmem := List.mem_filter.1 (List.mem_of_getLast? h)
  exact ⟨hmem.1, List.contains_iff_mem.1 hmem.2⟩

theorem mem_reachable_of_parent? (h : g.parent? j = some i) : i ∈ g.reachable :=
  (List.takeWhile_prefix _).subset (parent?_spec h).1

/-- A block has a parent when its place in the order is known: the last block before that place with
an edge to it. -/
theorem parent?_eq_of_order {before between after : List BlockId}
    (horder : g.reachable = before ++ i :: between ++ j :: after) (edge : j ∈ g.successors i)
    (hlast : ∀ k ∈ between, j ∉ g.successors k) : g.parent? j = some i := by
  have hnodup := g.nodup_reachable
  rw [horder] at hnodup
  have htake : g.reachable.takeWhile (· != j) = before ++ i :: between := by
    rw [horder, List.takeWhile_append_of_pos fun k hk => ?_, List.takeWhile_cons_of_neg (by simp),
      List.append_nil]
    have hapart := (List.nodup_append.1 hnodup).2.2
    exact bne_iff_ne.2 (hapart k hk j List.mem_cons_self)
  have hbetween : between.filter (fun k => (g.successors k).contains j) = [] := by
    refine List.filter_eq_nil_iff.2 fun k hk hcontains => ?_
    exact hlast k hk (List.contains_iff_mem.1 hcontains)
  have hedge : (g.successors i).contains j = true := List.contains_iff_mem.2 edge
  rw [parent?, htake, List.filter_append, List.filter_cons, if_pos hedge, hbetween]
  simp

theorem parent?_entry (g : Graph) : g.parent? g.entry = none := by
  unfold parent? reachable preorder Traversal.preorder
  by_cases hentry : g.entry < g.size
  · rw [Traversal.preorderFrom_cons_of_new hentry Std.TreeSet.not_mem_emptyc,
      List.takeWhile_cons_of_neg (by simp)]
    rfl
  · rw [Traversal.preorderFrom, dif_neg fun h => hentry h.1, Traversal.preorderFrom]
    rfl

/-- Every reachable block but the entry has a parent. -/
theorem exists_parent? (hj : j ∈ g.reachable) (hne : j ≠ g.entry) : ∃ i, g.parent? j = some i := by
  have hbefore := Traversal.mem_stack_or_exists_of_mem_preorderFrom hj
  obtain ⟨i, hi, hedge⟩ := hbefore.resolve_left fun hstack => hne (List.mem_singleton.1 hstack)
  -- The list of candidates is not empty, so it has a last one.
  have hcandidate : i ∈ (g.reachable.takeWhile (· != j)).filter
      fun i => (g.successors i).contains j :=
    List.mem_filter.2 ⟨hi, List.contains_iff_mem.2 hedge⟩
  exact ⟨_, List.getLast?_eq_some_getLast (List.ne_nil_of_mem hcandidate)⟩

private theorem idxOf_lt_of_mem_takeWhile {l : List BlockId} (h : i ∈ l.takeWhile (· != j)) :
    l.idxOf i < l.idxOf j := by
  induction l with
  | nil => cases h
  | cons a l ih =>
    by_cases ha : a = j
    · rw [List.takeWhile_cons, if_neg (by simp [ha])] at h
      cases h
    · rw [List.takeWhile_cons, if_pos (bne_iff_ne.2 ha)] at h
      rw [List.idxOf_cons_ne _ ha]
      by_cases hai : a = i
      · rw [hai, List.idxOf_cons_self]
        exact Nat.zero_lt_succ _
      · rw [List.idxOf_cons_ne _ hai]
        exact Nat.succ_lt_succ (ih ((List.mem_cons.1 h).resolve_left (Ne.symm hai)))

/-- The blocks before a block on the depth-first tree, from the entry on. -/
def treePath (g : Graph) (j : BlockId) : List BlockId :=
  match _parent : g.parent? j with
  | none => []
  | some i => g.treePath i ++ [i]
termination_by g.reachable.idxOf j
decreasing_by exact idxOf_lt_of_mem_takeWhile (parent?_spec _parent).1

theorem treePath_of_parent? (h : g.parent? j = some i) : g.treePath j = g.treePath i ++ [i] := by
  rw [treePath]
  split
  · rename_i hnone
    cases h.symm.trans hnone
  · rename_i k hk
    obtain rfl := Option.some.inj (h.symm.trans hk)
    rfl

theorem treePath_of_parent?_eq_none (h : g.parent? j = none) : g.treePath j = [] := by
  rw [treePath]
  split
  · rfl
  · rename_i k hk
    cases h.symm.trans hk

theorem treePath_entry (g : Graph) : g.treePath g.entry = [] :=
  treePath_of_parent?_eq_none g.parent?_entry

/-- The tree is that of any graph with the same edges and the same order. -/
theorem treePath_congr {g' : Graph} (hreachable : g'.reachable = g.reachable)
    (hsuccessors : g'.successors = g.successors) (j : BlockId) : g'.treePath j = g.treePath j := by
  have hparent : g'.parent? = g.parent? := by
    funext j
    rw [parent?, parent?, hreachable, hsuccessors]
  -- The induction goes back along the tree.
  fun_induction treePath g j with
  | case1 j hnone => exact treePath_of_parent?_eq_none (hparent ▸ hnone)
  | case2 j i hsome ih => rw [treePath_of_parent? (hparent ▸ hsome), ih]

/-- The tree path to a reachable block is a path. -/
theorem path_treePath (hj : j ∈ g.reachable) : g.Path (g.treePath j) j := by
  -- The induction goes back along the tree, on which places in the order become smaller.
  fun_induction treePath g j with
  | case1 j hnone =>
    have hentry : j = g.entry := by
      by_contra hne
      obtain ⟨i, hi⟩ := exists_parent? hj hne
      cases hnone.symm.trans hi
    exact hentry ▸ .entry
  | case2 j i hparent ih =>
    exact (ih (mem_reachable_of_parent? hparent)).step (parent?_spec hparent).2

end Graph

end FlowGraph
