import FlowGraph.Proofs.Graph.Mirrored
import FlowGraph.Proofs.Graph.Reachability

/-!
# Paths from the entry

A path starts at the entry and follows edges, as often around loops as it likes. A block dominates
another one if no path comes to the other one without it.

## Main definitions

* `Graph.Path`: the paths from the entry to a block
* `Graph.Dominates`, `Graph.StrictlyDominates`: a block that is on every path to another one

## Main results

* `Graph.exists_path_iff`: paths lead to the reachable blocks
* `Graph.StrictlyDominates.dominates_source`: what dominates a block dominates all ways into it
-/

namespace FlowGraph.Graph

variable {g : Graph} {i j d : BlockId} {b c : Block} {before : List BlockId}

/-- The paths from the entry to a block, each with the blocks before that one in order. -/
inductive Path (g : Graph) : List BlockId → BlockId → Prop
  | entry : Path g [] g.entry
  | step {before : List BlockId} {i j : BlockId} (path : Path g before i)
    (edge : j ∈ g.successors i) : Path g (before ++ [i]) j

/-- No path comes to the end of block `i` without passing block `d`. -/
def Dominates (g : Graph) (d i : BlockId) : Prop :=
  ∀ before, g.Path before i → d ∈ before ++ [i]

/-- No path comes to the start of block `i` without passing block `d`, another block. -/
def StrictlyDominates (g : Graph) (d i : BlockId) : Prop :=
  d ≠ i ∧ ∀ before, g.Path before i → d ∈ before

/-- What strictly dominates a block dominates every block with an edge to it. -/
theorem StrictlyDominates.dominates_source (h : g.StrictlyDominates d j)
    (edge : j ∈ g.successors i) : g.Dominates d i :=
  fun before path => h.2 (before ++ [i]) (path.step edge)

/-- What dominates a block is that block or strictly dominates it. -/
theorem Dominates.eq_or_strictly (h : g.Dominates d i) : d = i ∨ g.StrictlyDominates d i := by
  by_cases hd : d = i
  · exact .inl hd
  · refine .inr ⟨hd, fun before path => ?_⟩
    rcases List.mem_append.1 (h before path) with hmem | hmem
    · exact hmem
    · exact absurd (List.mem_singleton.1 hmem) hd

/-- Every path to another block starts at the entry. -/
theorem strictlyDominates_entry (hi : i ≠ g.entry) : g.StrictlyDominates g.entry i := by
  refine ⟨hi.symm, fun before path => ?_⟩
  induction path with
  | entry => exact absurd rfl hi
  | @step before p i path edge ih =>
    rw [List.mem_append]
    by_cases hp : p = g.entry
    · exact .inr (List.mem_singleton.2 hp.symm)
    · exact .inl (ih hp)

/-- A path to a block ends in a path to each block on it. -/
theorem Path.exists_of_mem (path : g.Path before i) (hd : d ∈ before) :
    ∃ shorter, g.Path shorter d := by
  induction path with
  | entry => cases hd
  | @step before i j path edge ih =>
    rcases List.mem_append.1 hd with hd | hd
    · exact ih hd
    · exact ⟨before, List.mem_singleton.1 hd ▸ path⟩

/-- Paths lead to live blocks. -/
theorem Path.exists_live (path : g.Path before i) (hg : g.Mirrored) (hroot : g.Rooted) :
    ∃ b, g.Live i b := by
  induction path with
  | entry =>
    obtain ⟨b, hb, -⟩ := hroot
    exact ⟨b, hb⟩
  | step _ edge ih =>
    obtain ⟨b, hb⟩ := ih
    rw [hb.successors] at edge
    exact hg.successor_live hb edge

/-- Only the empty path leads to an entry without predecessors. -/
theorem Path.eq_nil_of_entry (path : g.Path before g.entry) (hg : g.Mirrored) (hroot : g.Rooted) :
    before = [] := by
  generalize hi : g.entry = i at path
  cases path with
  | entry => rfl
  | @step before p _ path edge =>
    obtain ⟨b, hb, hnone⟩ := hroot
    obtain ⟨c, hc⟩ := path.exists_live hg ⟨b, hb, hnone⟩
    rw [hc.successors, ← hi] at edge
    have hmem := (hg.mem_predecessors_iff hc hb).2 edge
    rw [hnone] at hmem
    cases hmem

/-- A path leads to each reachable block. -/
theorem exists_path_of_mem_reachable (hi : i ∈ g.reachable) : ∃ before, g.Path before i := by
  obtain ⟨-, hpath⟩ := mem_reachable_iff.1 hi
  clear hi
  induction hpath with
  | refl => exact ⟨[], .entry⟩
  | tail _ step ih =>
    obtain ⟨before, path⟩ := ih
    exact ⟨_, path.step step.1⟩

/-- The blocks that a live entry leads to are live. -/
theorem Mirrored.exists_live_of_mem_reachable (hg : g.Mirrored) (hentry : g.Live g.entry b)
    (hi : i ∈ g.reachable) : ∃ c, g.Live i c := by
  obtain ⟨-, hpath⟩ := mem_reachable_iff.1 hi
  clear hi
  induction hpath with
  | refl => exact ⟨b, hentry⟩
  | tail _ step ih =>
    obtain ⟨c, hc⟩ := ih
    have hedge := step.1
    rw [hc.successors] at hedge
    exact hg.successor_live hc hedge

/-- Paths lead to the reachable blocks and to no others. -/
theorem exists_path_iff (hg : g.Mirrored) (hroot : g.Rooted) :
    (∃ before, g.Path before i) ↔ i ∈ g.reachable := by
  refine ⟨?_, exists_path_of_mem_reachable⟩
  -- A path never leaves the range of ids, so the search follows all of it.
  rintro ⟨before, path⟩
  induction path with
  | entry =>
    obtain ⟨b, hb, -⟩ := hroot
    exact mem_reachable_iff.2 ⟨hb.lt_size, .refl⟩
  | @step before i j path edge ih =>
    obtain ⟨c, hc⟩ := (path.step edge).exists_live hg hroot
    exact mem_reachable_of_mem_successors ih edge hc.lt_size

/-- The blocks of a path are reachable. -/
theorem Path.mem_reachable_of_mem (path : g.Path before i) (hg : g.Mirrored) (hroot : g.Rooted)
    (hj : j ∈ before ++ [i]) : j ∈ g.reachable := by
  refine (exists_path_iff hg hroot).1 ?_
  rcases List.mem_append.1 hj with hj | hj
  · exact path.exists_of_mem hj
  · exact ⟨before, List.mem_singleton.1 hj ▸ path⟩

/-- A block that is no join has one edge into it at most. -/
theorem Mirrored.eq_of_not_isJoin (hg : g.Mirrored) (hb : g.Live i b) (hjoin : b.isJoin = false)
    {p q : BlockId} {bp bq : Block} (hp : g.Live p bp) (hq : g.Live q bq)
    (hip : i ∈ bp.successors) (hiq : i ∈ bq.successors) : p = q := by
  have hpmem := (hg.mem_predecessors_iff hp hb).2 hip
  have hqmem := (hg.mem_predecessors_iff hq hb).2 hiq
  have hone : b.predecessors.length ≤ 1 := by
    simpa [Block.isJoin] using hjoin
  obtain ⟨k, hk⟩ := List.length_eq_one_iff.1
    (Nat.le_antisymm hone (List.length_pos_of_mem hpmem))
  rw [hk, List.mem_singleton] at hpmem hqmem
  exact hpmem.trans hqmem.symm

end FlowGraph.Graph
