import FlowGraph.Proofs.Construction.Widened
import FlowGraph.Proofs.Simplification.Lockstep
import FlowGraph.Proofs.Ssa.Lockstep
import FlowGraph.Proofs.Ssa.Traced

/-!
# Dead code has no influence

The blocks of dead items are not reachable, so pruning detaches them and drops their entries from
the other blocks. What is left is the pruned graph of the tree without its dead items, renumbered,
and from there on simplification and conversion do the same to both graphs.

## Main results

* `Graph.Widens.pruned`: pruning leaves graphs that differ in the numbers of their blocks only
* `Node.renumbers_of_build`: the graphs that are built, and the results of their conversion
-/

namespace FlowGraph

namespace Graph.Widens

variable {ν : Nat → Nat} {g h : Graph} {i : Nat}

theorem lt_size_iff (hw : g.Widens ν h) (i : Nat) : ν i < h.size ↔ i < g.size :=
  ⟨fun hi => Nat.lt_of_not_le fun hle => Nat.not_lt.2 (hw.le_of_size_le hle) hi, hw.lt_size⟩

theorem block?_eq_none (hw : g.Widens ν h) (hi : g.block? i = none) : h.block? (ν i) = none := by
  rw [← Option.not_isSome_iff_eq_none, block?_isSome_iff] at hi ⊢
  rwa [hw.lt_size_iff]

theorem successors_eq (hw : g.Widens ν h) (i : Nat) :
    h.successors (ν i) = (g.successors i).map ν := by
  rw [successors, successors]
  cases hb : g.block? i with
  | some b =>
    obtain ⟨entries, hc, -⟩ := hw.block i b hb
    rw [hc]
    rfl
  | none =>
    rw [hw.block?_eq_none hb]
    rfl

/-- The further blocks are not reachable. -/
theorem reachable_eq (hw : g.Widens ν h) (hentry : h.entry = ν g.entry) :
    h.reachable = g.reachable.map ν := by
  rw [reachable, reachable, preorder, preorder, hentry]
  exact Traversal.preorder_map hw.mono.injective hw.lt_size_iff hw.successors_eq g.entry

theorem mem_unreachable_iff (hw : g.Widens ν h) (hg : g.Pristine) (hh : h.Pristine)
    (hentry : h.entry = ν g.entry) (i : Nat) : ν i ∈ h.unreachable ↔ i ∈ g.unreachable := by
  rw [Graph.mem_unreachable_iff hg.consistent.numbered,
    Graph.mem_unreachable_iff hh.consistent.numbered, hw.reachable_eq hentry,
    List.mem_map_of_injective hw.mono.injective]
  -- No block of either graph is detached yet.
  refine and_congr_left fun _ => ⟨fun ⟨b, hb⟩ => ?_, fun ⟨b, hb⟩ => ?_⟩
  · exact hg.exists_live ((hw.lt_size_iff i).1 hb.lt_size)
  · exact hh.exists_live (hw.lt_size hb.lt_size)

/-- A further block is not reachable, so it is detached. -/
theorem mem_unreachable_of_ne (hw : g.Widens ν h) (hh : h.Pristine) (hentry : h.entry = ν g.entry)
    {j : Nat} (hj : ∀ i, ν i ≠ j) (hlt : h.size > j) : j ∈ h.unreachable := by
  refine (Graph.mem_unreachable_iff hh.consistent.numbered).2 ⟨hh.exists_live hlt, ?_⟩
  rw [hw.reachable_eq hentry, List.mem_map]
  rintro ⟨i, -, hi⟩
  exact hj i hi

/-- A block loses the same entries in both graphs, and all entries for further blocks. -/
theorem severedBlock_eq (hw : g.Widens ν h) (hg : g.Pristine) (hh : h.Pristine)
    (hentry : h.entry = ν g.entry) {b : Block} {entries : List Nat}
    (hc : h.block? (ν i) = some (b.renumberWith ν entries))
    (hb : b.Widens ν g.size h.size entries) :
    h.severedBlock h.unreachable (ν i) (b.renumberWith ν entries) =
      (g.severedBlock g.unreachable i b).renumber ν := by
  have hlive : h.Live (ν i) (b.renumberWith ν entries) := ⟨hc, hh.live hc⟩
  have hsame (p : Nat) :
      (!(h.unreachable.contains (ν p) && (h.successors (ν p)).contains (ν i))) =
        !(g.unreachable.contains p && (g.successors p).contains i) := by
    rw [hw.successors_eq, List.contains_eq_mem, List.contains_eq_mem, List.contains_eq_mem,
      List.contains_eq_mem, decide_eq_decide.2 (hw.mem_unreachable_iff hg hh hentry p),
      decide_eq_decide.2 (List.mem_map_of_injective hw.mono.injective)]
  have hextra (j : Nat) (hj : j ∈ entries) (hne : ∀ k, ν k ≠ j) :
      (!(h.unreachable.contains j && (h.successors j).contains (ν i))) = false := by
    -- The entry was made by an edge of a further block.
    obtain ⟨d, hd, hedge⟩ := hh.consistent.mirrored.exists_predecessor hlive hj
    have hdead := hw.mem_unreachable_of_ne hh hentry hne hd.lt_size
    simp [hdead, hd.successors, hedge]
  rw [severedBlock, severedBlock]
  exact congrArg (b.renumberWith ν) (hb.predecessors.filter_eq hsame hextra)

/-- After pruning, the entries for further blocks are gone. -/
theorem pruned (hw : g.Widens ν h) (hg : g.Pristine) (hh : h.Pristine) (hname : h.name = g.name)
    (hentry : h.entry = ν g.entry) (hexit : h.exit = ν g.exit) :
    g.pruned.Renumbers ν h.pruned where
  mono := hw.mono
  block?_eq := by
    intro i
    rw [block?_pruned, block?_pruned]
    cases hb : g.block? i with
    | none =>
      rw [hw.block?_eq_none hb]
      rfl
    | some b =>
      obtain ⟨entries, hc, hblock⟩ := hw.block i b hb
      have hsevered := hw.severedBlock_eq hg hh hentry hc hblock
      rw [hc, Option.map_some, Option.map_some, Option.map_some, prunedBlock, prunedBlock]
      by_cases hdead : i ∈ g.unreachable
      · rw [if_pos hdead, if_pos ((hw.mem_unreachable_iff hg hh hentry i).2 hdead), hsevered]
        rfl
      · rw [if_neg hdead, if_neg fun hi => hdead ((hw.mem_unreachable_iff hg hh hentry i).1 hi),
          hsevered]
  others := by
    intro j c hj hc
    rw [block?_pruned, Option.map_eq_some_iff] at hc
    obtain ⟨b, hb, rfl⟩ := hc
    have hlt : h.size > j := block?_isSome_iff.1 (Option.isSome_of_eq_some hb)
    rw [isDetached_prunedBlock, decide_eq_true (hw.mem_unreachable_of_ne hh hentry hj hlt),
      Bool.true_or]
  name_eq := hname
  entry_eq := hentry
  exit_eq := hexit

end Graph.Widens

namespace Node

variable {node : Node} {options : Options} {log log₁ : Log} {g : Graph}

/-- A construction reports the items at the dead places of a tree. The tree without these items, at
whose places nothing is left to report, can be built as well, and simplification leads to the same
graph up to the numbers of its live blocks. So does the conversion of the two graphs. -/
theorem renumbers_of_build (hsimplify : options.simplify = true)
    (hbuild : (node.build options).run log = .ok g log₁) (log' : Log) :
    log₁.diagnostics.entries.toList = log.diagnostics.entries.toList ++
        node.placesBottomUp.flatMap (Place.remarks node.functionName?) ∧
      node.withoutDead.places.map Place.setting =
        node.alivePlaces.map Place.settingWithoutDead ∧
      (∀ q ∈ node.withoutDead.places, ¬q.Dead) ∧
      ∃ g' log₁' ν, (node.withoutDead.build options).run log' = .ok g' log₁' ∧
        g'.Renumbers ν g ∧
        ∃ k' k report, g'.converted = .ok (k', report) ∧ g.converted = .ok (k, report) ∧
          k'.Renumbers ν k := by
  obtain ⟨g', log₁', hbuild'⟩ := exists_run_build_withoutDead hbuild log'
  obtain ⟨report, hrun⟩ := exists_run_simplify_of_build hsimplify hbuild
  obtain ⟨report', hrun'⟩ := exists_run_simplify_of_build hsimplify hbuild'
  obtain ⟨ν, hwidens, hname, hentry, hexit⟩ := widens_toGraph node
  have hraw := pristine_toGraph node
  have hraw' := pristine_toGraph node.withoutDead
  have hr : g'.Renumbers ν g := Edit.renumbers_of_run_simplify hraw'.consistent hraw.consistent
    (hwidens.pruned hraw' hraw hname hentry hexit) hrun' hrun
  -- Conversion does not depend on how the graphs came about.
  obtain ⟨k', report, -, -, hconverted', -⟩ := (wellFormed_of_build hbuild').exists_renaming
  obtain ⟨k, hconverted, hk⟩ := hr.exists_converted hconverted'
  exact ⟨diagnostics_of_build hbuild, map_setting_places_withoutDead node,
    fun _ => not_dead_of_mem_places_withoutDead, g', log₁', ν, hbuild', hr, k', k, report,
    hconverted', hconverted, hk⟩

/-- A loop whose dead code leaves it or assigns to a variable that is read behind it. -/
private def abandoning : Node :=
  intFunction "f" [declaration "n" "int" none]
    [whileLoop (ident "n") (compound [jump .continueLoop,
      branch (ident "c") (assignment .assign (ident "n") (int 1)) (some (jump .breakLoop))]),
    ret (some (ident "n"))]

private theorem build_abandoning : ∃ g log, (abandoning.build {}).run {} = .ok g log :=
  exists_run_build_of_findSome?_eq_none {} rfl

theorem renumbers_of_build_abandoning :
    ∃ g log, ({} : Options).simplify = true ∧ (abandoning.build {}).run {} = .ok g log ∧
      log.diagnostics.entries.toList = ({} : Log).diagnostics.entries.toList ++
          abandoning.placesBottomUp.flatMap (Place.remarks abandoning.functionName?) ∧
        abandoning.withoutDead.places.map Place.setting =
          abandoning.alivePlaces.map Place.settingWithoutDead ∧
        (∀ q ∈ abandoning.withoutDead.places, ¬q.Dead) ∧
        ∃ g' log' ν, (abandoning.withoutDead.build {}).run {} = .ok g' log' ∧
          g'.Renumbers ν g ∧
          ∃ k' k report, g'.converted = .ok (k', report) ∧ g.converted = .ok (k, report) ∧
            k'.Renumbers ν k := by
  obtain ⟨g, log, hbuild⟩ := build_abandoning
  exact ⟨g, log, rfl, hbuild, renumbers_of_build rfl hbuild {}⟩

end Node

end FlowGraph
