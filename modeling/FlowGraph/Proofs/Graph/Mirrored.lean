import FlowGraph.Graph.Consistency
import Mathlib.Tactic.Common

/-!
# Mirrored edges

Every edge of a graph is recorded at both of its ends. For the live blocks this is a relation
between two numbers: a block occurs among the successors of another one as often as that one occurs
among its predecessors. The check of a graph asks for exactly this.

## Main definitions

* `Graph.Numbered`: every block carries the id under which it is found
* `Graph.Live`: a block of a graph that is not detached
* `Graph.Apart`: detached blocks are connected to themselves at most
* `Graph.Rooted`: the entry is live and no edge leads to it
* `Graph.Mirrored`: the edges between live blocks are recorded at both ends

## Main results

* `Graph.checkEdges_eq_ok_iff`: the check accepts the mirrored graphs
-/

namespace FlowGraph.Graph

variable {g g' : Graph} {i j : BlockId} {b c : Block}

/-- Every block carries the id under which it is found. -/
def Numbered (g : Graph) : Prop :=
  ∀ ⦃i : BlockId⦄ ⦃b : Block⦄, g.block? i = some b → b.id = i

/-- The block with a given id is there and is not detached. -/
def Live (g : Graph) (i : BlockId) (b : Block) : Prop :=
  g.block? i = some b ∧ b.isDetached = false

/-- Detached blocks have no predecessors, and an edge of theirs leads back to where it starts. -/
def Apart (g : Graph) : Prop :=
  ∀ ⦃i : BlockId⦄ ⦃b : Block⦄, g.block? i = some b → b.isDetached = true →
    b.predecessors = [] ∧ ∀ j ∈ b.successors, j = i

/-- The entry is live, and no edge leads to it. -/
def Rooted (g : Graph) : Prop :=
  ∃ b, g.Live g.entry b ∧ b.predecessors = []

theorem Live.eq (hb : g.Live i b) (hc : g.Live i c) : b = c :=
  Option.some.inj (hb.1.symm.trans hc.1)

theorem Live.lt_size (hb : g.Live i b) : i < g.size :=
  block?_isSome_iff.1 (Option.isSome_iff_exists.2 ⟨b, hb.1⟩)

theorem Live.successors (hb : g.Live i b) : g.successors i = b.successors := by
  rw [Graph.successors, hb.1, Option.elim_some]

/-- The edges between live blocks are recorded at both ends, and live blocks have no others. -/
structure Mirrored (g : Graph) : Prop where
  /-- Every edge leads to a live block. -/
  successor_live : ∀ {i b j}, g.Live i b → j ∈ b.successors → ∃ c, g.Live j c
  /-- Every predecessor entry names a live block. -/
  predecessor_live : ∀ {i b j}, g.Live i b → j ∈ b.predecessors → ∃ c, g.Live j c
  /-- An edge is recorded as often at its source as at its target. -/
  count_eq : ∀ {i b j c}, g.Live i b → g.Live j c →
    b.successors.count j = c.predecessors.count i

namespace Mirrored

theorem mem_predecessors_iff (hg : g.Mirrored) (hb : g.Live i b) (hc : g.Live j c) :
    i ∈ c.predecessors ↔ j ∈ b.successors := by
  rw [← List.count_pos_iff, ← List.count_pos_iff, hg.count_eq hb hc]

/-- The source of a predecessor entry is a live block with an edge back. -/
theorem exists_predecessor (hg : g.Mirrored) (hb : g.Live i b) (hj : j ∈ b.predecessors) :
    ∃ c, g.Live j c ∧ i ∈ c.successors := by
  obtain ⟨c, hc⟩ := hg.predecessor_live hb hj
  exact ⟨c, hc, (hg.mem_predecessors_iff hc hb).1 hj⟩

/-- The target of an edge is a live block with an entry for it. -/
theorem exists_successor (hg : g.Mirrored) (hb : g.Live i b) (hj : j ∈ b.successors) :
    ∃ c, g.Live j c ∧ i ∈ c.predecessors := by
  obtain ⟨c, hc⟩ := hg.successor_live hb hj
  exact ⟨c, hc, (hg.mem_predecessors_iff hb hc).2 hj⟩

end Mirrored

/-- Replacing an entry adds its occurrences to those of the entry put in its place. -/
theorem count_map_replace {l : List BlockId} {old new i : BlockId} (hne : old ≠ new)
    (hi : i ≠ old) :
    (l.map fun j => if j == old then new else j).count i =
      l.count i + if i = new then l.count old else 0 := by
  induction l with
  | nil => simp
  | cons j l ih =>
    rw [List.map_cons, List.count_cons, List.count_cons, List.count_cons, ih]
    simp only [beq_iff_eq]
    split_ifs <;> grind

section Check

/-- A computation followed by another succeeds when both do. -/
theorem bind_eq_ok_iff {ε α β : Type} {x : Except ε α} {f : α → Except ε β} {b : β} :
    (x >>= f) = .ok b ↔ ∃ a, x = .ok a ∧ f a = .ok b := by
  cases x <;> simp [bind, Except.bind]

/-- A check that fails under a condition succeeds when the condition does not hold. -/
theorem ite_throw_eq_ok_iff {ε α : Type} {p : Prop} [Decidable p] {e : ε} {x : Except ε α} {a : α} :
    (if p then throw e else x) = .ok a ↔ ¬p ∧ x = .ok a := by
  split <;> simp_all [throw, throwThe, MonadExceptOf.throw]

private theorem forM_eq_ok_iff {ε α : Type} {f : α → Except ε PUnit} {l : List α} {u : PUnit} :
    l.forM f = .ok u ↔ ∀ x ∈ l, f x = .ok () := by
  induction l with
  | nil => simp [pure, Except.pure]
  | cons x l ih =>
    rw [List.forM, List.forall_mem_cons, ← ih]
    cases f x <;> simp [bind, Except.bind]

theorem checkSuccessor_eq_ok_iff :
    g.checkSuccessor b j = .ok () ↔
      ∃ c, g.Live j c ∧ b.successors.count j = c.predecessors.count b.id := by
  simp only [checkSuccessor, bind_eq_ok_iff, ite_throw_eq_ok_iff, find_eq_ok_iff, Live]
  simp [pure, Except.pure, and_assoc]

theorem checkPredecessor_eq_ok_iff :
    g.checkPredecessor b j = .ok () ↔ ∃ c, g.Live j c ∧ b.id ∈ c.successors := by
  simp only [checkPredecessor, bind_eq_ok_iff, ite_throw_eq_ok_iff, find_eq_ok_iff, Live]
  simp [pure, Except.pure, and_assoc]

theorem checkBlock_eq_ok_iff :
    g.checkBlock b = .ok () ↔
      (∀ j ∈ b.successors, g.checkSuccessor b j = .ok ()) ∧
        ∀ j ∈ b.predecessors, g.checkPredecessor b j = .ok () := by
  rw [checkBlock, ← forM_eq_ok_iff (l := b.successors) (u := ()),
    ← forM_eq_ok_iff (l := b.predecessors) (u := ())]
  cases b.successors.forM (g.checkSuccessor b) <;> simp [bind, Except.bind]

theorem mem_live_iff : b ∈ g.live ↔ ∃ i, g.Live i b := by
  simp only [live, Live, block?, List.mem_filter, Array.mem_toList_iff, Bool.not_eq_true',
    exists_and_right, Array.mem_iff_getElem?]

/-- Every live block is listed once. -/
theorem Numbered.nodup_live (hn : g.Numbered) : (g.live.map (·.id)).Nodup := by
  have hids : g.blocks.toList.map (·.id) = List.range g.size := by
    refine List.ext_getElem? fun i => ?_
    rw [List.getElem?_map, Array.getElem?_toList]
    change (g.block? i).map (·.id) = _
    cases hb : g.block? i with
    | none =>
      have hi : ¬i < g.size := by
        rw [← block?_isSome_iff, hb]
        exact Bool.false_ne_true
      rw [Option.map_none, List.getElem?_eq_none (by rwa [List.length_range, ← Nat.not_lt])]
    | some b =>
      have hi : i < g.size := by rw [← block?_isSome_iff, hb, Option.isSome_some]
      rw [Option.map_some, hn hb, List.getElem?_range hi]
  have hsublist : (g.live.map (·.id)).Sublist (List.range g.size) := by
    rw [← hids]
    exact List.filter_sublist.map _
  exact List.nodup_range.sublist hsublist

/-- The check of the edges accepts exactly the graphs that are mirrored. -/
theorem checkEdges_eq_ok_iff (hn : g.Numbered) : g.checkEdges = .ok () ↔ g.Mirrored := by
  have hcheck : g.checkEdges = .ok () ↔ ∀ i b, g.Live i b → g.checkBlock b = .ok () := by
    rw [checkEdges, forM_eq_ok_iff]
    simp only [mem_live_iff, forall_exists_index]
    exact forall_comm
  rw [hcheck]
  simp only [checkBlock_eq_ok_iff, checkSuccessor_eq_ok_iff, checkPredecessor_eq_ok_iff]
  constructor
  · intro h
    -- The check reports ids as the blocks carry them, which is where the numbering comes in.
    have hsuccessor {i : BlockId} {b : Block} {j : BlockId} (hb : g.Live i b)
        (hj : j ∈ b.successors) :
        ∃ c, g.Live j c ∧ b.successors.count j = c.predecessors.count i := by
      have := (h i b hb).1 j hj
      rwa [hn hb.1] at this
    have hpredecessor {i : BlockId} {b : Block} {j : BlockId} (hb : g.Live i b)
        (hj : j ∈ b.predecessors) : ∃ c, g.Live j c ∧ i ∈ c.successors := by
      have := (h i b hb).2 j hj
      rwa [hn hb.1] at this
    refine ⟨fun hb hj => ?_, fun hb hj => ?_, ?_⟩
    · obtain ⟨c, hc, -⟩ := hsuccessor hb hj
      exact ⟨c, hc⟩
    · obtain ⟨c, hc, -⟩ := hpredecessor hb hj
      exact ⟨c, hc⟩
    · intro i b j c hb hc
      by_cases hj : j ∈ b.successors
      · obtain ⟨c', hc', hcount⟩ := hsuccessor hb hj
        rwa [hc.eq hc']
      · -- Without an edge there is no entry either, since an entry has an edge behind it.
        have hi : i ∉ c.predecessors := by
          intro hi
          obtain ⟨b', hb', hj'⟩ := hpredecessor hc hi
          exact hj (hb.eq hb' ▸ hj')
        rw [List.count_eq_zero.2 hj, List.count_eq_zero.2 hi]
  -- A mirrored graph passes each of the checks.
  · intro hg i b hb
    refine ⟨fun j hj => ?_, fun j hj => ?_⟩
    · obtain ⟨c, hc⟩ := hg.successor_live hb hj
      exact ⟨c, hc, by rw [hn hb.1, hg.count_eq hb hc]⟩
    · obtain ⟨c, hc, hi⟩ := hg.exists_predecessor hb hj
      exact ⟨c, hc, by rwa [hn hb.1]⟩

end Check

end FlowGraph.Graph
