import FlowGraph.Proofs.Construction.Tested
import FlowGraph.Proofs.Ssa.Sources

/-!
# Definitions after simplification

Conversion is meant for a graph that was simplified before, and such a graph stays as it is when its
converted copy is simplified once more. A graph that was not simplified has empty blocks in which
branches join, and conversion gives phi nodes to these. For simplification a block without
statements is empty whatever its phi nodes are, so it bypasses such a join, and the definitions are
lost with it.

## Main definitions

* `Graph.LosesPhi`: a version whose phi node was in a block that is not live any more
* `Graph.KeepsDefinitions`: what simplification leaves of the definitions of a converted graph

## Main results

* `Graph.SameShape.normalForm`: conversion leaves nothing to simplify if there was nothing before
* `Node.keepsDefinitions_of_build`: simplification of the converted copies of graphs that are built
-/

namespace FlowGraph

/-- Whether a block is empty depends on its shape only. -/
theorem Block.isForwarding_eq_of_shape {b c : Block} (h : c.shape = b.shape) :
    c.isForwarding = b.isForwarding := by
  have hlength := length_statements_eq_of_shape h
  have hempty : c.isEmpty = b.isEmpty := by
    rw [Bool.eq_iff_iff, isEmpty, isEmpty, List.isEmpty_iff_length_eq_zero,
      List.isEmpty_iff_length_eq_zero, hlength]
  have hid := id_eq_of_shape h
  have hkind := kind_eq_of_shape h
  have hsuccessors := successors_eq_of_shape h
  have hdetached := isDetached_eq_of_shape h
  rw [isForwarding, isForwarding, forwardTarget?, forwardTarget?, hempty, hid, hkind, hsuccessors,
    hdetached]

namespace Graph

variable {g h k : Graph} {b c : Block} {i : BlockId} {name : String} {report : ConversionReport}

namespace SameShape

theorem mirrored (hs : g.SameShape h) (hg : g.Mirrored) : h.Mirrored where
  successor_live := by
    intro i c j hc hj
    obtain ⟨b, hb, hshape⟩ := hs.symm.exists_live hc
    have hsuccessors := Block.successors_eq_of_shape hshape
    obtain ⟨d, hd⟩ := hg.successor_live hb (hsuccessors ▸ hj)
    obtain ⟨e, he, -⟩ := hs.exists_live hd
    exact ⟨e, he⟩
  predecessor_live := by
    intro i c j hc hj
    obtain ⟨b, hb, hshape⟩ := hs.symm.exists_live hc
    have hpredecessors := Block.predecessors_eq_of_shape hshape
    obtain ⟨d, hd⟩ := hg.predecessor_live hb (hpredecessors ▸ hj)
    obtain ⟨e, he, -⟩ := hs.exists_live hd
    exact ⟨e, he⟩
  count_eq := by
    intro i c j d hc hd
    obtain ⟨b, hb, hshape⟩ := hs.symm.exists_live hc
    obtain ⟨e, he, hshape'⟩ := hs.symm.exists_live hd
    have hsuccessors := Block.successors_eq_of_shape hshape
    have hpredecessors := Block.predecessors_eq_of_shape hshape'
    rw [← hsuccessors, ← hpredecessors]
    exact hg.count_eq hb he

theorem consistent (hs : g.SameShape h) (hg : g.Consistent) : h.Consistent := by
  refine ⟨fun i c hc => ?_, hs.mirrored hg.mirrored⟩
  obtain ⟨b, hb, hshape⟩ := hs.symm.exists_block? hc
  have hid := Block.id_eq_of_shape hshape
  exact hid.symm.trans (hg.numbered hb)

theorem rooted (hs : g.SameShape h) (hroot : g.Rooted) : h.Rooted := by
  obtain ⟨b, hb, hnone⟩ := hroot
  obtain ⟨c, hc, hshape⟩ := hs.exists_live hb
  have hpredecessors := Block.predecessors_eq_of_shape hshape
  exact ⟨c, hs.entry_eq ▸ hc, hpredecessors.trans hnone⟩

theorem tested (hs : g.SameShape h) (ht : g.Tested) : h.Tested := by
  refine ht.of_transGen fun {i j} hj => .single ?_
  obtain ⟨c, hc, hbase, hj⟩ := hj
  obtain ⟨b, hb, hshape⟩ := hs.symm.exists_block? hc
  have hkind := Block.kind_eq_of_shape hshape
  have hsuccessors := Block.successors_eq_of_shape hshape
  exact ⟨b, hb, hkind.trans hbase, hsuccessors ▸ hj⟩

/-- If there is nothing left to simplify, this is so in every graph of the same shape. -/
theorem normalForm (hs : g.SameShape h) (hg : g.NormalForm) : h.NormalForm where
  live_iff i := by
    rw [hs.reachable_eq, ← hg.live_iff]
    exact ⟨fun ⟨_, hc⟩ => (hs.symm.exists_live hc).imp fun _ => And.left,
      fun ⟨_, hb⟩ => (hs.exists_live hb).imp fun _ => And.left⟩
  not_forwarding := by
    intro i c hc hi
    obtain ⟨b, hb, hshape⟩ := hs.symm.exists_live hc
    rw [← Block.isForwarding_eq_of_shape hshape]
    exact hg.not_forwarding hb (hs.entry_eq ▸ hi)
  not_absorbs := by
    intro id next c d habsorbs hne hinner
    obtain ⟨b, hb, hshape⟩ := hs.symm.exists_live habsorbs.source
    obtain ⟨n, hn, hshape'⟩ := hs.symm.exists_live habsorbs.target
    have hkind := Block.kind_eq_of_shape hshape
    have hkind' := Block.kind_eq_of_shape hshape'
    have hsuccessors := Block.successors_eq_of_shape hshape
    have hpredecessors := Block.predecessors_eq_of_shape hshape
    have hpredecessors' := Block.predecessors_eq_of_shape hshape'
    rw [← hpredecessors]
    exact hg.not_absorbs ⟨hb, hn, hkind.trans habsorbs.source_kind,
      hkind'.trans habsorbs.target_kind, hsuccessors.trans habsorbs.successors,
      hpredecessors'.trans habsorbs.predecessors⟩ hne (hs.entry_eq ▸ hinner)

end SameShape

/-- Only joins have phi nodes after conversion. -/
theorem isJoin_of_mem_phis (hg : g.WellFormed) (hconverted : g.converted = .ok (h, report))
    (hc : h.block? i = some c) {phi : Phi} (hphi : phi ∈ c.phis) : c.isJoin = true := by
  obtain ⟨b, hb, hshape⟩ := (sameShape_of_converted hconverted).symm.exists_block? hc
  obtain ⟨added, placed, versions, hplace, hrename⟩ := exists_converted_iff.1 ⟨report, hconverted⟩
  obtain ⟨_, phis, hplace', hplaced⟩ :=
    Edit.run_placePhis hg.consistent.mirrored hg.rooted hg.phis g.declared
  cases hplace.symm.trans hplace'
  -- Renaming gives a block no phi nodes that it did not have.
  have houtline := (Edit.traced_of_run_rename hrename).1 i
  rw [hc, block?_withPhis, hb, Option.map_some, Option.map_some, Option.map_some] at houtline
  have hbases : c.phis.map (·.base) = (phis i).map (·.base) :=
    congrArg Prod.snd (Option.some.inj houtline)
  have hmem : phi.base ∈ (phis i).map (·.base) := hbases ▸ List.mem_map_of_mem hphi
  obtain ⟨old, hold, -⟩ := List.mem_map.1 hmem
  have hpredecessors := Block.predecessors_eq_of_shape hshape
  have hjoin := hplaced.join hb hold
  rwa [Block.isJoin, hpredecessors] at hjoin

/-- A version is the result of a phi node of `h` whose block is not live in `k`. -/
def LosesPhi (h k : Graph) (version : String) : Prop :=
  ∃ i ∈ h.reachable, (¬∃ c, k.Live i c) ∧
    ∃ b phi, h.block? i = some b ∧ phi ∈ b.phis ∧ phi.result = some version

/-- The graph `g` was converted to `h`, and `h` was simplified to `k`. -/
structure KeepsDefinitions (g h k : Graph) : Prop where
  keeps : h.Keeps k
  /-- A join to which control comes over every edge keeps its phi nodes unless it is empty and goes
  on with one other block. -/
  phi : ∀ {i b}, i ∈ h.reachable → h.block? i = some b → (∀ p ∈ b.predecessors, p ∈ h.reachable) →
    ∀ phi ∈ b.phis, (∃ c, k.Live i c ∧ phi ∈ c.phis) ↔ b.isForwarding = false
  /-- A version that live blocks mention is defined in a live block, or was defined by a phi node
  that is lost. -/
  defined : ∀ name ∈ k.mentions, name ∈ h.targets → name ∈ k.targets ∨ h.LosesPhi k name
  /-- Any other name that live blocks mention has been there before conversion. -/
  original : ∀ name ∈ k.mentions, name ∉ h.targets → name ∈ g.mentions

namespace Keeps

/-- What was defined is defined in a live block, or by a phi node that is lost. -/
theorem mem_targets_or_losesPhi (hk : h.Keeps k) (hh : h.Mirrored) (hroot : h.Rooted)
    (hname : name ∈ h.targets) : name ∈ k.targets ∨ h.LosesPhi k name := by
  obtain ⟨i, hi, b, hb, hname⟩ := mem_flatMap_reachableBlocks_iff.1 hname
  rcases List.mem_append.1 hname with hphi | hstatement
  · obtain ⟨phi, hphi, hresult⟩ := List.mem_filterMap.1 hphi
    by_cases hlive : ∃ c, k.Live i c
    · obtain ⟨c, hc⟩ := hlive
      obtain ⟨-, b', hb', -, hphis⟩ := hk.phis hc
      obtain rfl := Option.some.inj (hb.symm.trans hb'.1)
      refine .inl (mem_flatMap_reachableBlocks_iff.2 ⟨i, (hk.live_iff i).1 ⟨c, hc⟩, c, hc.1, ?_⟩)
      exact List.mem_append_left _ (List.mem_filterMap.2 ⟨phi, hphis ▸ hphi, hresult⟩)
    · exact .inr ⟨i, hi, hlive, b, phi, hb, hphi, hresult⟩
  · obtain ⟨s, hs, hdefined⟩ := List.mem_filterMap.1 hstatement
    obtain ⟨e, he, -⟩ := hroot
    obtain ⟨b', hb'⟩ := hh.exists_live_of_mem_reachable he hi
    obtain rfl := Option.some.inj (hb.symm.trans hb'.1)
    obtain ⟨j, c, hc, hs⟩ := (hk.statements s).2 ⟨i, hi, b, hb', hs⟩
    refine .inl (mem_flatMap_reachableBlocks_iff.2 ⟨j, (hk.live_iff j).1 ⟨c, hc⟩, c, hc.1, ?_⟩)
    exact List.mem_append_right _ (List.mem_filterMap.2 ⟨s, hs, hdefined⟩)

/-- Nothing is mentioned that was not mentioned before. -/
theorem mentions_subset (hk : h.Keeps k) : k.mentions ⊆ h.mentions := by
  intro name hname
  obtain ⟨i, hi, c, hc, hname⟩ := mem_flatMap_reachableBlocks_iff.1 hname
  obtain ⟨c', hc'⟩ := (hk.live_iff i).2 hi
  obtain rfl := Option.some.inj (hc.symm.trans hc'.1)
  rcases List.mem_append.1 hname with hphi | hstatement
  · obtain ⟨hi, b, hb, -, hphis⟩ := hk.phis hc'
    refine mem_flatMap_reachableBlocks_iff.2 ⟨i, hi, b, hb.1, ?_⟩
    exact List.mem_append_left _ (hphis ▸ hphi)
  · obtain ⟨s, hs, hname⟩ := List.mem_flatMap.1 hstatement
    obtain ⟨j, hj, b, hb, hs⟩ := (hk.statements s).1 ⟨i, c, hc', hs⟩
    refine mem_flatMap_reachableBlocks_iff.2 ⟨j, hj, b, hb.1, ?_⟩
    exact List.mem_append_right _ (List.mem_flatMap.2 ⟨s, hs, hname⟩)

end Keeps

/-- What simplification makes of the converted copy of a well-formed graph in which every loop has a
test. -/
theorem exists_keepsDefinitions (hg : g.WellFormed) (ht : g.Tested)
    (hconverted : g.converted = .ok (h, report)) :
    ∃ simplified k, Edit.simplify.run h = .ok simplified k ∧ g.KeepsDefinitions h k := by
  have hshape := sameShape_of_converted hconverted
  have hh := hshape.consistent hg.consistent
  have hroot := hshape.rooted hg.rooted
  obtain ⟨simplified, k, hrun, hkeeps⟩ := Edit.exists_run_simplify_keeps hh hroot (hshape.tested ht)
  refine ⟨simplified, k, hrun, hkeeps, fun {i b} hi hb hall phi hphi => ?_,
    fun name _ htarget => hkeeps.mem_targets_or_losesPhi hh.mirrored hroot htarget,
    fun name hname hnot => ?_⟩
  · obtain ⟨e, he, -⟩ := hroot
    obtain ⟨b', hb'⟩ := hh.mirrored.exists_live_of_mem_reachable he hi
    obtain rfl := Option.some.inj (hb.symm.trans hb'.1)
    have hlength : 1 < (b.predecessors.filter (h.reachable.contains ·)).length := by
      rw [List.filter_eq_self.2 fun p hp => List.contains_iff_mem.2 (hall p hp)]
      exact of_decide_eq_true (isJoin_of_mem_phis hg hconverted hb hphi)
    rw [← hkeeps.join hi hb' (.inr hlength)]
    refine exists_congr fun c => and_iff_left_of_imp fun hc => ?_
    obtain ⟨-, b', hb', -, hphis⟩ := hkeeps.phis hc
    obtain rfl := Option.some.inj (hb.symm.trans hb'.1)
    exact hphis ▸ hphi
  · exact (mentions_of_converted hg hconverted (hkeeps.mentions_subset hname)).resolve_left hnot

end Graph

namespace Node

variable {node : Node} {options : Options} {log log' : Log} {g : Graph}

/-- There is nothing left to simplify in a graph that was simplified when it was built. -/
theorem normalForm_of_build (hbuild : (node.build options).run log = .ok g log')
    (hsimplify : options.simplify = true) : g.NormalForm := by
  have hraw := wellFormed_toGraph node
  obtain ⟨report, hrun⟩ := exists_run_simplify_of_build hsimplify hbuild
  obtain ⟨_, _, hrun', -, -, -, hnormal⟩ :=
    Edit.exists_run_simplify_normalForm hraw.consistent hraw.rooted
  cases hrun.symm.trans hrun'
  exact hnormal

/-- Conversion of a graph that was built succeeds, and so does simplification of the converted
graph. That changes nothing if the graph was simplified when it was built. Otherwise phi nodes are
lost with the blocks that simplification detaches, and what they define may still be mentioned. -/
theorem keepsDefinitions_of_build (hbuild : (node.build options).run log = .ok g log') :
    ∃ h report simplified k, g.converted = .ok (h, report) ∧
      Edit.simplify.run h = .ok simplified k ∧ (options.simplify = true → k = h) ∧
      g.KeepsDefinitions h k := by
  have hg := wellFormed_of_build hbuild
  obtain ⟨h, report, -, -, hconverted, -⟩ := hg.exists_renaming
  obtain ⟨simplified, k, hrun, hkeeps⟩ :=
    Graph.exists_keepsDefinitions hg (tested_of_build hbuild) hconverted
  refine ⟨h, report, simplified, k, hconverted, hrun, fun hsimplify => ?_, hkeeps⟩
  have hshape := Graph.sameShape_of_converted hconverted
  have hsame := Edit.run_simplify_of_normalForm
    (hshape.normalForm (normalForm_of_build hbuild hsimplify)) (hshape.consistent hg.consistent)
    (hshape.rooted hg.rooted)
  cases hrun.symm.trans hsame
  rfl

/-- A function that sets a variable on one of two branches. -/
private def merging : Node :=
  intFunction "f" [] [declaration "y" "int" none,
    branch (ident "c") (assignment .assign (ident "y") (.int 1)) none, ret (some (ident "y"))]

/-- Its graph, with names for the variable at its definitions and its use, and with the phi nodes of
the block in which the branches join. -/
private def mergingGraph (declared set used : String) (phis : List Phi) : Graph :=
  { name := some "f"
    entry := 1
    exit := 9
    blocks := #[
      { id := 0, kind := .base },
      { id := 1, kind := .base, label := some "function f start", successors := [2] },
      { id := 2, kind := .base, predecessors := [1], successors := [3] },
      { id := 3, kind := .base, statements := [declaration declared "int" none],
        predecessors := [2], successors := [4] },
      { id := 4, kind := .base, predecessors := [3], successors := [5] },
      { id := 5, kind := .condition, statements := [ident "c"], predecessors := [4],
        successors := [6, 7] },
      { id := 6, kind := .base, statements := [assignment .assign (ident set) (.int 1)],
        predecessors := [5], successors := [8], color := .onTrue },
      { id := 7, kind := .base, predecessors := [5], successors := [8], color := .onFalse },
      { id := 8, kind := .base, predecessors := [6, 7], successors := [9], phis },
      { id := 9, kind := .base, statements := [ret (some (ident used))], predecessors := [8],
        isFinal := true }] }

private def mergingPhi : Phi :=
  { base := "y", result := some "y_2", operands := [⟨"y_1", 6⟩, ⟨"y_0", 7⟩] }

/-- The converted graph after simplification. -/
private def mergedGraph : Graph :=
  { name := some "f"
    entry := 1
    exit := 9
    blocks := #[
      { id := 0, kind := .base, isDetached := true },
      { id := 1, kind := .base, label := some "function f start",
        statements := [declaration "y_0" "int" none], successors := [5] },
      { id := 2, kind := .base, isDetached := true },
      { id := 3, kind := .base, isDetached := true },
      { id := 4, kind := .base, isDetached := true },
      { id := 5, kind := .condition, statements := [ident "c"], predecessors := [1],
        successors := [6, 9] },
      { id := 6, kind := .base, statements := [assignment .assign (ident "y_1") (.int 1)],
        predecessors := [5], successors := [9], color := .onTrue },
      { id := 7, kind := .base, isDetached := true, color := .onFalse },
      { id := 8, kind := .base, isDetached := true },
      { id := 9, kind := .base, statements := [ret (some (ident "y_2"))], predecessors := [6, 5],
        isFinal := true }] }

private theorem build_merging :
    ∃ log, (merging.build .raw).run {} = .ok (mergingGraph "y" "y" "y" []) log :=
  ⟨_, rfl⟩

private theorem converted_merging : ∃ report, (mergingGraph "y" "y" "y" []).converted =
    .ok (mergingGraph "y_0" "y_1" "y_2" [mergingPhi], report) := by
  refine ⟨⟨"f", 1, 1, 3⟩, ?_⟩
  cbv

private theorem run_simplify_merging : ∃ report,
    Edit.simplify.run (mergingGraph "y_0" "y_1" "y_2" [mergingPhi]) = .ok report mergedGraph := by
  refine ⟨⟨"f", 1, 2, 4⟩, ?_⟩
  cbv

private theorem mem_reachable_merging :
    8 ∈ (mergingGraph "y_0" "y_1" "y_2" [mergingPhi]).reachable := by
  have hreachable : (mergingGraph "y_0" "y_1" "y_2" [mergingPhi]).reachable =
      [1, 2, 3, 4, 5, 6, 8, 9, 7] := by
    cbv
  rw [hreachable]
  decide

private theorem targets_merging :
    (mergingGraph "y_0" "y_1" "y_2" [mergingPhi]).targets = ["y_0", "y_1", "y_2"] ∧
      mergedGraph.targets = ["y_0", "y_1"] := by
  constructor <;> cbv

/-- The phi node is in no live block, and the version that it defines is returned by one. -/
theorem simplify_merging_loses_phi :
    ∃ g log h report simplified k, (merging.build .raw).run {} = .ok g log ∧
      g.converted = .ok (h, report) ∧ Edit.simplify.run h = .ok simplified k ∧
      (∃ i ∈ h.reachable, ∃ b phi, h.block? i = some b ∧ phi ∈ b.phis ∧
        ∀ j c, k.Live j c → phi ∉ c.phis) ∧
      ∃ i c, ∃ s : Node, ∃ name ∈ s.uses, k.Live i c ∧ s ∈ c.statements ∧ name ∈ h.targets ∧
        name ∉ k.targets := by
  obtain ⟨log, hbuild⟩ := build_merging
  obtain ⟨report, hconverted⟩ := converted_merging
  obtain ⟨simplified, hrun⟩ := run_simplify_merging
  refine ⟨_, log, _, report, simplified, _, hbuild, hconverted, hrun,
    ⟨8, mem_reachable_merging, _, mergingPhi, rfl, List.mem_singleton_self _, fun j c hc => ?_⟩,
    9, _, ret (some (ident "y_2")), "y_2", List.mem_singleton_self _, ⟨rfl, rfl⟩,
    List.mem_singleton_self _, ?_, ?_⟩
  · obtain ⟨hj, rfl⟩ := Array.getElem?_eq_some_iff.1 hc.1
    have hnone : ∀ j : Fin 10, mergingPhi ∉ mergedGraph.blocks[j].phis := by decide
    exact hnone ⟨j, hj⟩
  · rw [targets_merging.1]
    decide
  · rw [targets_merging.2]
    decide

theorem keepsDefinitions_of_build_merging :
    ∃ log, (merging.build .raw).run {} = .ok (mergingGraph "y" "y" "y" []) log ∧
      ∃ h report simplified k, (mergingGraph "y" "y" "y" []).converted = .ok (h, report) ∧
        Edit.simplify.run h = .ok simplified k ∧ (Options.raw.simplify = true → k = h) ∧
        (mergingGraph "y" "y" "y" []).KeepsDefinitions h k := by
  obtain ⟨log, hbuild⟩ := build_merging
  exact ⟨log, hbuild, keepsDefinitions_of_build hbuild⟩

end Node

end FlowGraph
