import FlowGraph.Proofs.Construction.Tested
import FlowGraph.Proofs.Simplification.Branches
import FlowGraph.Proofs.Simplification.Framed
import Mathlib.Data.List.NodupEquivFin

/-!
# Colors of the graphs that are built

In a graph that was not simplified, the first block of a branch has the color of its slot. Bypassing
that block moves the edge to another block, but not the color. What a branch opens with afterwards
is white, since a block that is colored is the first one of a branch of the layout, and its
condition still has it in the same slot.

## Main definitions

* `Graph.OpensBranch`: the block in a slot of a condition that only this condition leads to
* `Graph.ColorsBranches`: the blocks that open branches have the colors of their slots

## Main results

* `Node.color_of_opensBranch`: the color of a block that opens a branch of a graph that was built
-/

namespace FlowGraph

namespace Graph

variable {g : Graph} {cond slot slot' i first entry : BlockId} {b : Block}

/-- The base block `b` is in a slot of a reachable condition, and it has no other entry. -/
structure OpensBranch (g : Graph) (cond slot i : BlockId) (b : Block) : Prop where
  reachable : cond ∈ g.reachable
  branches : g.Branches cond slot i
  block : g.block? i = some b
  kind : b.kind = .base
  predecessors : b.predecessors = [cond]

/-- Every block that opens a branch has the color of its slot. -/
def ColorsBranches (g : Graph) : Prop :=
  ∀ {cond slot i b}, g.OpensBranch cond slot i b → b.color = .ofSlot slot

theorem Branches.eq (h : g.Branches cond slot first) (h' : g.Branches cond slot i) : first = i := by
  obtain ⟨b, hb, -, hslot⟩ := h
  obtain ⟨c, hc, -, hslot'⟩ := h'
  obtain rfl := Option.some.inj (hb.symm.trans hc)
  exact Option.some.inj (hslot.symm.trans hslot')

private theorem two_le_count {l : List BlockId} {m n : Nat} (hm : l[m]? = some i)
    (hn : l[n]? = some i) (hlt : m < n) : 2 ≤ l.count i := by
  obtain ⟨hm, hmi⟩ := List.getElem?_eq_some_iff.1 hm
  obtain ⟨hn, hni⟩ := List.getElem?_eq_some_iff.1 hn
  rw [← List.duplicate_iff_two_le_count, List.duplicate_iff_exists_distinct_get]
  exact ⟨⟨m, hm⟩, ⟨n, hn⟩, hlt, hmi.symm, hni.symm⟩

/-- A block that a condition has in two slots has two entries. -/
theorem OpensBranch.slot_eq (h : g.OpensBranch cond slot i b) (hg : g.Mirrored)
    (hcond : ∃ c, g.Live cond c) (hb : g.Live i b) (h' : g.Branches cond slot' i) :
    slot = slot' := by
  obtain ⟨c, hc⟩ := hcond
  have hslot {k : Nat} (hk : g.Branches cond k i) : c.successors[k]? = some i := by
    obtain ⟨d, hd, -, hdi⟩ := hk
    rwa [Option.some.inj (hc.1.symm.trans hd)]
  have hcount : c.successors.count i = 1 := by
    rw [hg.count_eq hc hb, h.predecessors, List.count_singleton_self]
  rcases Nat.lt_trichotomy slot slot' with hlt | heq | hlt
  · have htwo := two_le_count (hslot h.branches) (hslot h') hlt
    omega
  · exact heq
  · have htwo := two_le_count (hslot h') (hslot h.branches) hlt
    omega

theorem Colored.colorsBranches (h : g.Colored) : g.ColorsBranches := by
  intro cond slot i b hb
  obtain ⟨c, hc, -, hcolor⟩ := h.entry hb.branches
  obtain rfl := Option.some.inj (hb.block.symm.trans hc)
  exact hcolor

end Graph

namespace Node

variable {node : Node} {options : Options} {log log' : Log} {g : Graph}
  {cond slot i first : BlockId} {b c f : Block} {report : SimplificationReport}

/-- Simplification keeps the branches of reachable conditions as far as it keeps their first
blocks. -/
theorem retains_of_run_simplify (hrun : Edit.simplify.run node.toGraph = .ok report g)
    (hcond : cond ∈ node.toGraph.reachable) (hi : node.toGraph.Branches cond slot i) :
    g.Retains cond slot i := by
  have hraw := wellFormed_toGraph node
  exact (hraw.rewritesTo_of_run_simplify hrun).retains hraw.pruned.consistent
    (hi.retains_pruned hraw.consistent hraw.rooted hcond)

/-- A condition that simplification has left was a reachable one with as many slots. -/
theorem exists_branches_of_live (hrun : Edit.simplify.run node.toGraph = .ok report g)
    (hc : g.Live cond c) (hkind : c.kind = .condition) (hslot : slot < 2) :
    cond ∈ node.toGraph.reachable ∧ ∃ first, node.toGraph.Branches cond slot first := by
  have hraw := wellFormed_toGraph node
  obtain ⟨_, hp, hsame, -⟩ := (hraw.rewritesTo_of_run_simplify hrun).inherits hc
  obtain ⟨b, hb, hcond, rfl⟩ := (Graph.live_pruned_iff hraw.consistent.numbered).1 hp
  have hbkind : b.kind = .condition := hsame.symm.trans hkind
  have hcode : node.toGraph.code cond = some b.code := by rw [Graph.code, hb.1, Option.map_some]
  have hlength : b.successors.length = 2 :=
    ((isFormed_toGraph node cond b.code (Nat.zero_le cond) hcode).condition hbkind).2
  rw [← hlength] at hslot
  exact ⟨hcond, b.successors[slot], b, hb.1, hbkind, List.getElem?_eq_getElem hslot⟩

/-- A block that simplification has left was a reachable one of the same color. -/
theorem exists_color_of_run_simplify (hrun : Edit.simplify.run node.toGraph = .ok report g)
    (hb : g.Live i b) :
    i ∈ node.toGraph.reachable ∧ ∃ d, node.toGraph.block? i = some d ∧ b.color = d.color := by
  have hraw := wellFormed_toGraph node
  obtain ⟨_, hp, hcolor⟩ := (hraw.rewritesTo_of_run_simplify hrun).exists_color hb
  obtain ⟨d, hd, hi, rfl⟩ := (Graph.live_pruned_iff hraw.consistent.numbered).1 hp
  exact ⟨hi, d, hd.1, hcolor⟩

/-- A block that opens a branch in the simplified graph is colored only if it is the first block of
that branch. -/
theorem color_eq_plain_of_opensBranch (hrun : Edit.simplify.run node.toGraph = .ok report g)
    (h : g.OpensBranch cond slot i b) (hcond : ∃ c, g.Live cond c) (hb : g.Live i b)
    (hfirst : node.toGraph.Branches cond slot first) (hne : i ≠ first) : b.color = .plain := by
  have hg := ((wellFormed_toGraph node).of_run_simplify hrun).consistent.mirrored
  obtain ⟨hi, d, hd, hcolor⟩ := exists_color_of_run_simplify hrun hb
  refine Decidable.byContradiction fun hcolored => hne ?_
  rw [hcolor] at hcolored
  obtain ⟨other, slot', hother⟩ := (colored_toGraph node).cond hd hcolored
  -- The other condition is reachable with its branch, so it still leads there.
  have hretains := retains_of_run_simplify hrun (mem_reachable_of_branches node hother hi) hother
  obtain ⟨e, he, -, hedge⟩ := hretains.exists_edge hb
  have hmem := (hg.mem_predecessors_iff he hb).2 hedge
  rw [h.predecessors, List.mem_singleton] at hmem
  subst other
  obtain rfl := h.slot_eq hg hcond hb (hretains.branches hb)
  exact hother.eq hfirst

/-- The color of a block that opens a branch in the simplified graph. -/
theorem color_of_run_simplify (hrun : Edit.simplify.run node.toGraph = .ok report g)
    (hformed : ∀ {i b}, g.Live i b → b.code.IsFormed) (h : g.OpensBranch cond slot i b) :
    ∃ first f, node.toGraph.Branches cond slot first ∧ node.toGraph.block? first = some f ∧
      (i = first ↔ f.isForwarding = false) ∧
        b.color = if i = first then .ofSlot slot else .plain := by
  have hraw := wellFormed_toGraph node
  have hg := (hraw.of_run_simplify hrun).consistent.mirrored
  obtain ⟨c, hc, hkind, hslot⟩ := h.branches
  have hlive : g.Live cond c := by
    obtain ⟨e, he, -⟩ := (hraw.of_run_simplify hrun).rooted
    obtain ⟨d, hd⟩ := hg.exists_live_of_mem_reachable he h.reachable
    rwa [Option.some.inj (hc.symm.trans hd.1)]
  have hb : g.Live i b := by
    obtain ⟨d, hd⟩ := hg.successor_live hlive (List.mem_of_getElem? hslot)
    rwa [Option.some.inj (h.block.symm.trans hd.1)]
  have hlt : slot < 2 := by
    rw [← ((hformed hlive).condition hkind).2]
    exact (List.getElem?_eq_some_iff.1 hslot).1
  obtain ⟨hcond, first, hfirst⟩ := exists_branches_of_live hrun hlive hkind hlt
  obtain ⟨f, hf, -, hcolor⟩ := (colored_toGraph node).entry hfirst
  have hkept : (∃ d, g.Live first d) ↔ f.isForwarding = false :=
    Edit.exists_live_iff_of_branches hraw.consistent hraw.rooted (tested_toGraph node) hcond hfirst
      ⟨hf, (pristine_toGraph node).live hf⟩ hrun
  have hsame : i = first ↔ ∃ d, g.Live first d := by
    constructor
    · rintro rfl
      exact ⟨b, hb⟩
    · rintro ⟨d, hd⟩
      exact h.branches.eq ((retains_of_run_simplify hrun hcond hfirst).branches hd)
  refine ⟨first, f, hfirst, hf, hsame.trans hkept, ?_⟩
  split
  · subst first
    obtain ⟨-, d, hd, hcolor'⟩ := exists_color_of_run_simplify hrun hb
    obtain rfl := Option.some.inj (hf.symm.trans hd)
    exact hcolor'.trans hcolor
  · exact color_eq_plain_of_opensBranch hrun h ⟨c, hlive⟩ hb hfirst ‹_›

/-- What opens a branch of a graph that was built has the color of its slot if it is the first block
that the branch was laid out with, and none otherwise. It is another block if the graph was
simplified and the first block was an empty one that went on with one other block. -/
theorem color_of_opensBranch (hbuild : (node.build options).run log = .ok g log') :
    ∀ {cond slot i b}, g.OpensBranch cond slot i b →
      ∃ first f, node.toGraph.Branches cond slot first ∧ node.toGraph.block? first = some f ∧
        (i = first ↔ options.simplify = false ∨ f.isForwarding = false) ∧
          b.color = if i = first then .ofSlot slot else .plain := by
  intro cond slot i b h
  rcases graph_eq_of_build hbuild with ⟨hoption, rfl⟩ | ⟨hoption, report, hrun⟩
  · refine ⟨i, b, h.branches, h.block, iff_of_true rfl (.inl hoption), ?_⟩
    rw [if_pos rfl]
    exact (colored_toGraph node).colorsBranches h
  · obtain ⟨first, f, hfirst, hf, hsame, hcolor⟩ :=
      color_of_run_simplify hrun (framed_of_build hbuild).formed h
    refine ⟨first, f, hfirst, hf, ?_, hcolor⟩
    rw [hsame, hoption, or_iff_right Bool.noConfusion]

/-- A function one branch of which is in braces. -/
private def bracing : Node :=
  intFunction "f" []
    [branch (ident "c") (compound [assignment .assign (ident "a") (int 1)])
      (some (assignment .assign (ident "a") (int 2)))]

/-- Its graph once it is simplified. -/
private def braced : Graph :=
  { name := some "f"
    blocks := #[
      { id := 0, kind := .base, isDetached := true },
      { id := 1, kind := .base, successors := [4], label := some "function f start" },
      { id := 2, kind := .base, isDetached := true },
      { id := 3, kind := .base, isDetached := true },
      { id := 4, kind := .condition, statements := [.ident "c"], predecessors := [1],
        successors := [6, 7] },
      { id := 5, kind := .base, color := .onTrue, isDetached := true },
      { id := 6, kind := .base, statements := [assignment .assign (ident "a") (int 1)],
        predecessors := [4], successors := [8] },
      { id := 7, kind := .base, statements := [assignment .assign (ident "a") (int 2)],
        predecessors := [4], successors := [8], color := .onFalse },
      { id := 8, kind := .base, predecessors := [6, 7] }]
    entry := 1
    exit := 8 }

private theorem build_bracing : ∃ log, (bracing.build {}).run {} = .ok braced log :=
  ⟨_, by cbv⟩

private theorem reachable_braced : 4 ∈ braced.reachable := by
  rw [Graph.mem_reachable_iff]
  exact ⟨by decide, .single ⟨by decide, by decide⟩⟩

/-- The statement in braces is what the branch opens with, but its block is white. -/
private theorem opensBranch_braced : ∃ b, braced.OpensBranch 4 0 6 b ∧ b.color = .plain :=
  ⟨_, ⟨reachable_braced, ⟨_, rfl, rfl, rfl⟩, rfl, rfl, rfl⟩, rfl⟩

theorem not_colorsBranches_of_bracing :
    ∃ g log, (bracing.build {}).run {} = .ok g log ∧ ¬g.ColorsBranches := by
  obtain ⟨log, hbuild⟩ := build_bracing
  refine ⟨braced, log, hbuild, fun h => ?_⟩
  obtain ⟨b, hb, hplain⟩ := opensBranch_braced
  cases (h hb).symm.trans hplain

theorem color_of_opensBranch_bracing :
    ∃ g log, (bracing.build {}).run {} = .ok g log ∧ ∃ b, g.OpensBranch 4 0 6 b ∧
      ∃ first f, bracing.toGraph.Branches 4 0 first ∧ bracing.toGraph.block? first = some f ∧
        (6 = first ↔ ({} : Options).simplify = false ∨ f.isForwarding = false) ∧
          b.color = if 6 = first then .ofSlot 0 else .plain := by
  obtain ⟨log, hbuild⟩ := build_bracing
  obtain ⟨b, hb, -⟩ := opensBranch_braced
  exact ⟨braced, log, hbuild, b, hb, color_of_opensBranch hbuild hb⟩

end Node

end FlowGraph
