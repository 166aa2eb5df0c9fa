import FlowGraph.Proofs.Construction.Region

/-!
# Dead statements are reported

The remarks of a construction are those about the places of the tree, from the bottom up. No block
of a dead place is reachable, since none of them is in the region of the tree. The other way round,
a block that holds statements and is not in the region is one of a dead place.

## Main results

* `Node.mem_reachable_toGraph`: the reachable blocks are in the region of a tree
* `Node.diagnoses_of_build`: the remarks of a construction, and the blocks that they are about
-/

namespace FlowGraph

namespace Node

variable {node : Node} {options : Options} {log log' : Log} {g : Graph}

theorem size_toGraph (node : Node) : node.toGraph.size = 1 + node.blockCount := by
  rcases hlay : node.layOut (.top 0) (({} : Graph).addBlock .base) with ⟨g, span⟩
  rw [toGraph, hlay]
  exact size_layOut node hlay

/-- The block set aside for returns is empty. -/
theorem code_toGraph_zero (node : Node) : node.toGraph.code 0 = some ⟨.base, [], []⟩ := by
  rcases hlay : node.layOut (.top 0) (({} : Graph).addBlock .base) with ⟨g, span⟩
  rw [toGraph, hlay]
  exact (piece_layOut hlay).keeps 0 (by simp)

/-- Control goes nowhere from the end of a tree. -/
theorem successors_exit_toGraph (node : Node) :
    node.toGraph.successors node.toGraph.exit = [] := by
  obtain ⟨S, hS⟩ := region_toGraph node
  cases hcompletes : node.completes with
  | false =>
    refine hS.last hcompletes fun kind => ?_
    cases kind <;> rfl
  | true =>
    rcases hlay : node.layOut (.top 0) (({} : Graph).addBlock .base) with ⟨g, span⟩
    obtain ⟨statements, hcode⟩ := (piece_layOut hlay).code_stop hcompletes
    have hgraph : node.toGraph =
        { g with name := node.functionName?, entry := span.start, exit := span.stop } := by
      rw [toGraph, hlay]
    rw [hgraph]
    exact Graph.successors_of_code hcode

/-- The reachable blocks are in the region of the tree. -/
theorem mem_of_mem_reachable_toGraph {within S : Nat → Prop} {places : List Place}
    (hS : Region node.toGraph (.top 0) within ⟨node.toGraph.entry, node.toGraph.exit⟩
      node.completes places S) {i : Nat} (hi : i ∈ node.toGraph.reachable) : S i := by
  obtain ⟨-, hpath⟩ := Graph.mem_reachable_iff.1 hi
  clear hi
  induction hpath with
  | refl => exact hS.start
  | @tail j k _ hstep ih =>
    rcases hS.closed j ih k hstep.1 with hk | ⟨-, rfl⟩ | ⟨kind, htarget⟩
    · exact hk
    · exact absurd hstep.1 (by rw [successors_exit_toGraph]; exact List.not_mem_nil)
    · cases kind <;> cases htarget

/-- Without simplification, the remarks of a construction are those about all places of the tree,
from the bottom up. The blocks of a place that is reported as dead are unreachable. Every other
unreachable block that holds statements is the step of a `for` loop. -/
theorem diagnoses_of_build (hraw : options.simplify = false)
    (hbuild : (node.build options).run log = .ok g log') :
    log'.diagnostics.entries.toList = log.diagnostics.entries.toList ++
        node.placesBottomUp.flatMap (Place.remarks node.functionName?) ∧
      node.placesBottomUp.Perm node.places ∧
      (∀ p ∈ node.places, p.Dead → ∀ i, p.Holds i → i < g.size ∧ i ∉ g.reachable) ∧
      ∀ i b, g.block? i = some b → b.statements ≠ [] → i ∉ g.reachable →
        ∃ p ∈ node.places, (p.Dead ∧ p.Holds i) ∨ p.IsStep i := by
  refine ⟨diagnostics_of_build hbuild, perm_placesBottomUp node, ?_⟩
  obtain ⟨-, rfl⟩ | ⟨hsimplify, -⟩ := graph_eq_of_build hbuild
  · have hg := wellFormed_toGraph node
    obtain ⟨e, he, -⟩ := hg.rooted
    obtain ⟨S, hS⟩ := region_toGraph node
    refine ⟨fun p hp hdead i hholds => ⟨?_, fun hi => ?_⟩, fun i b hb hstatements hnot => ?_⟩
    · have hbounds : 1 ≤ p.first ∧ p.first + p.node.blockCount ≤ 1 + node.blockCount :=
        bounds_of_mem_placesIn node hp
      rw [size_toGraph]
      exact Nat.lt_of_lt_of_le hholds.2 hbounds.2
    · exact hS.dead p hp hdead i (mem_of_mem_reachable_toGraph hS hi) hholds
    · have hstatements : ∀ c, node.toGraph.code i = some c → c.statements ≠ [] := by
        rintro c hc
        rw [Graph.code, hb, Option.map_some] at hc
        exact Option.some.inj hc ▸ hstatements
      have hwithin : 1 ≤ i ∧ i < node.toGraph.size := by
        refine ⟨Nat.one_le_iff_ne_zero.2 ?_, Graph.block?_isSome_iff.1 (by rw [hb]; rfl)⟩
        rintro rfl
        exact hstatements _ (code_toGraph_zero node) rfl
      by_cases hi : S i
      · rcases hS.entered i hi with hconnects | ⟨p, hp, hstep⟩
        · exact absurd (hg.consistent.mirrored.mem_reachable_of_connects he hconnects) hnot
        · exact ⟨p, hp, .inr hstep⟩
      · rcases hS.others i hwithin hi with ⟨p, hp, hdead⟩ | hempty
        · exact ⟨p, hp, .inl hdead⟩
        · obtain ⟨c, hc⟩ := Graph.exists_code hwithin.2
          exact absurd (hempty c hc) (hstatements c hc)
  · cases hraw.symm.trans hsimplify

/-- A function with statements behind a `break` and behind a return, the step of a loop that is
never taken, and a statement of an unknown kind. -/
private def littered : Node :=
  intFunction "f" []
    [forLoop .absent none (some (assignment .assign (ident "i") (int 1)))
      (compound [jump .breakLoop, compound [ident "x"]]),
    ret none, whileLoop (ident "c") (ret none)]

private theorem build_littered : ∃ g log, (littered.build .raw).run {} = .ok g log :=
  exists_run_build_of_findSome?_eq_none {} rfl

theorem diagnoses_of_build_littered :
    ∃ g log, Options.raw.simplify = false ∧ (littered.build .raw).run {} = .ok g log ∧
      log.diagnostics.entries.toList = ({} : Log).diagnostics.entries.toList ++
          littered.placesBottomUp.flatMap (Place.remarks littered.functionName?) ∧
        littered.placesBottomUp.Perm littered.places ∧
        (∀ p ∈ littered.places, p.Dead → ∀ i, p.Holds i → i < g.size ∧ i ∉ g.reachable) ∧
        ∀ i b, g.block? i = some b → b.statements ≠ [] → i ∉ g.reachable →
          ∃ p ∈ littered.places, (p.Dead ∧ p.Holds i) ∨ p.IsStep i := by
  obtain ⟨g, log, hbuild⟩ := build_littered
  exact ⟨g, log, rfl, hbuild, diagnoses_of_build rfl hbuild⟩

end Node

end FlowGraph
