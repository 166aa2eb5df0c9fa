import FlowGraph.Proofs.Construction.Code
import FlowGraph.Proofs.Graph.Reachability

/-!
# Strands

A strand is a run of base blocks each of which goes on with the next one only, up to one that goes
on with none. There is one way through it, on which the statements of its blocks are run one after
the other.

## Main definitions

* `Graph.Strand`: the strand from a block on

## Main results

* `Graph.Strand.append`: a strand that goes on where another one stopped
* `Graph.Strand.mem_reachable_iff`: the blocks that the start of a strand leads to
-/

namespace FlowGraph.Graph

variable {g g' : Graph} {i j k stop : BlockId} {ids ids' : List BlockId}
  {statements more : List Node}

/-- From block `i` on control runs through the blocks `ids`, which hold `statements`, and comes to
its end in block `stop`. -/
inductive Strand (g : Graph) : BlockId → List BlockId → List Node → BlockId → Prop
  | stop {i : BlockId} {statements : List Node} (code : g.code i = some ⟨.base, statements, []⟩) :
      Strand g i [i] statements i
  | next {i j stop : BlockId} {ids : List BlockId} {before after : List Node}
      (code : g.code i = some ⟨.base, before, [j]⟩) (rest : Strand g j ids after stop) :
      Strand g i (i :: ids) (before ++ after) stop

namespace Strand

theorem code_stop (h : g.Strand i ids statements stop) :
    ∃ last, g.code stop = some ⟨.base, last, []⟩ := by
  induction h with
  | stop hcode => exact ⟨_, hcode⟩
  | next _ _ ih => exact ih

theorem exists_cons (h : g.Strand i ids statements stop) : ∃ rest, ids = i :: rest := by
  cases h with
  | stop => exact ⟨[], rfl⟩
  | next => exact ⟨_, rfl⟩

theorem start_mem (h : g.Strand i ids statements stop) : i ∈ ids := by
  obtain ⟨rest, rfl⟩ := h.exists_cons
  exact List.mem_cons_self

theorem stop_mem (h : g.Strand i ids statements stop) : stop ∈ ids := by
  induction h with
  | stop => exact List.mem_cons_self
  | next _ _ ih => exact List.mem_cons_of_mem _ ih

/-- A strand depends on the code of its blocks only. -/
theorem congr (h : g.Strand i ids statements stop) (hcode : ∀ k ∈ ids, g'.code k = g.code k) :
    g'.Strand i ids statements stop := by
  induction h with
  | stop code => exact .stop ((hcode _ List.mem_cons_self).trans code)
  | next code _ ih =>
    exact .next ((hcode _ List.mem_cons_self).trans code)
      (ih fun k hk => hcode k (List.mem_cons_of_mem _ hk))

/-- A strand goes on where another one stopped. What comes after it stands in a later graph, in
which only the block where it stopped may have changed. -/
theorem append (h : g.Strand i ids statements stop) (hnodup : ids.Nodup) {last : List Node}
    {stop' : BlockId} (hlast : g.code stop = some ⟨.base, last, []⟩)
    (h' : g'.Strand stop (stop :: ids') (last ++ more) stop')
    (hcode : ∀ k ∈ ids, k ≠ stop → g'.code k = g.code k) :
    g'.Strand i (ids ++ ids') (statements ++ more) stop' := by
  induction h with
  | stop code =>
    cases code.symm.trans hlast
    exact h'
  | @next i j stop ids before after code rest ih =>
    have hne : i ≠ stop := fun heq => (List.nodup_cons.1 hnodup).1 (heq ▸ rest.stop_mem)
    rw [List.append_assoc]
    exact .next ((hcode i List.mem_cons_self hne).trans code)
      (ih (List.nodup_cons.1 hnodup).2 hlast h' fun k hk => hcode k (List.mem_cons_of_mem i hk))

/-- The edges of a strand lead to its blocks, but for the first one. -/
theorem mem_tail (h : g.Strand i ids statements stop) (hk : k ∈ ids) (hj : j ∈ g.successors k) :
    j ∈ ids.tail := by
  induction h with
  | stop code =>
    obtain rfl := List.mem_singleton.1 hk
    rw [successors_of_code code] at hj
    cases hj
  | next code rest ih =>
    rcases List.mem_cons.1 hk with rfl | hk
    · rw [successors_of_code code, List.mem_singleton] at hj
      exact hj ▸ rest.start_mem
    · exact List.mem_of_mem_tail (ih hk)

theorem lt_size (h : g.Strand i ids statements stop) (hk : k ∈ ids) : k < g.size := by
  induction h with
  | stop code =>
    obtain rfl := List.mem_singleton.1 hk
    exact lt_size_of_code code
  | next code _ ih =>
    rcases List.mem_cons.1 hk with rfl | hk
    · exact lt_size_of_code code
    · exact ih hk

/-- The start of a strand leads to each of its blocks. -/
theorem reaches (h : g.Strand i ids statements stop) (hk : k ∈ ids) : g.Reaches i k := by
  induction h with
  | stop =>
    obtain rfl := List.mem_singleton.1 hk
    exact .refl
  | next code rest ih =>
    rcases List.mem_cons.1 hk with rfl | hk
    · exact .refl
    · have hedge := successors_of_code code
      exact (ih hk).head ⟨hedge ▸ List.mem_singleton.2 rfl, rest.lt_size rest.start_mem⟩

/-- If the entry starts a strand, the blocks of the strand are the reachable ones. -/
theorem mem_reachable_iff (h : g.Strand g.entry ids statements stop) :
    k ∈ g.reachable ↔ k ∈ ids := by
  rw [Graph.mem_reachable_iff]
  constructor
  · rintro ⟨-, hpath⟩
    induction hpath with
    | refl => exact h.start_mem
    | tail _ step ih => exact List.mem_of_mem_tail (h.mem_tail ih step.1)
  · exact fun hk => ⟨h.lt_size h.start_mem, h.reaches hk⟩

end Strand

end FlowGraph.Graph
