import FlowGraph.Proofs.Simplification.Framed
import FlowGraph.Proofs.Ssa.Retained

/-!
# The shape of a graph that is built

The graphs that are built have the same shape whether or not they are simplified, and conversion
does not change it: edges are recorded at both ends, none of them leads to the entry or leaves the
exit, conditions have two branches, and control ends at the exit or in a return.

## Main definitions

* `Graph.Shaped`: what is promised of the blocks and edges of a graph

## Main results

* `Graph.SameShape.shaped`: conversion keeps a graph shaped
* `Node.shaped_of_build`: the graphs that are built are shaped, before and after their conversion
-/

namespace FlowGraph

namespace Graph

variable {g h : Graph} {report : ConversionReport} {i : BlockId} {b c : Block}

/-- What is promised of the blocks and edges of a graph. -/
structure Shaped (g : Graph) : Prop where
  checked : g.checkEdges = .ok ()
  entry : ∃ b, g.Live g.entry b ∧ b.predecessors = []
  condition : ∀ i b, g.Live i b → b.kind = .condition →
    b.statements.length = 1 ∧ b.successors.length = 2
  base : ∀ i b, g.Live i b → b.kind = .base → b.successors.length ≤ 1
  exit : ∃ b, g.block? g.exit = some b ∧ b.successors = []
  ends : ∀ i b, i ∈ g.reachable → g.block? i = some b → b.successors = [] →
    i = g.exit ∨ b.EndsInReturn

/-- A well-formed graph is shaped if its blocks are formed and control ends as it should. -/
theorem WellFormed.shaped (hg : g.WellFormed) (hf : g.Framed (· ∈ g.reachable)) : g.Shaped where
  checked := (checkEdges_eq_ok_iff hg.consistent.numbered).2 hg.consistent.mirrored
  entry := hg.rooted
  condition := fun _ _ hb => (hf.formed hb).condition
  base := fun _ _ hb => (hf.formed hb).base
  exit := hf.exit
  ends := by
    intro i b hi hb hnone
    obtain ⟨e, he, -⟩ := hg.rooted
    obtain ⟨c, hc⟩ := hg.consistent.mirrored.exists_live_of_mem_reachable he hi
    obtain rfl := Option.some.inj (hb.symm.trans hc.1)
    exact hf.ends hi hc hnone

/-- A return stays one when it is renamed. -/
theorem exists_ret_of_statement_ret (naming : Naming) (value : Option Node) :
    ∃ value', (naming.statement (.ret value)).1 = .ret value' := by
  rw [naming.statement_of_defined?_eq_none (.ret value) rfl, Node.substitute]
  exact ⟨_, rfl⟩

/-- A reachable block that ends in a return does so after a conversion. -/
theorem endsInReturn_of_converted (hconverted : g.converted = .ok (h, report))
    (hi : i ∈ g.reachable) (hb : g.block? i = some b) (hc : h.block? i = some c)
    (hreturn : b.EndsInReturn) : c.EndsInReturn := by
  obtain ⟨hfinal, value, hvalue⟩ := hreturn
  have hshape : c.shape = b.shape := by
    obtain ⟨c', hc', hshape⟩ := (sameShape_of_converted hconverted).exists_block? hb
    rwa [Option.some.inj (hc.symm.trans hc')]
  rw [List.getLast?_eq_getElem?] at hvalue
  obtain ⟨c', here, hc', -, hrenamed, -⟩ := (traced_of_converted hconverted hi).statement hb hvalue
  obtain rfl := Option.some.inj (hc.symm.trans hc')
  obtain ⟨value', hvalue'⟩ := exists_ret_of_statement_ret here value
  refine ⟨(congrArg (·.1.isFinal) hshape).trans hfinal, value', ?_⟩
  rw [List.getLast?_eq_getElem?, Block.length_statements_eq_of_shape hshape, hrenamed, hvalue']

/-- Conversion keeps a graph shaped. -/
theorem Shaped.of_converted (hg : g.Shaped) (hn : g.Numbered)
    (hconverted : g.converted = .ok (h, report)) : h.Shaped := by
  have hs := sameShape_of_converted hconverted
  have hconsistent : h.Consistent :=
    hs.consistent ⟨hn, (checkEdges_eq_ok_iff hn).1 hg.checked⟩
  refine ⟨(checkEdges_eq_ok_iff hconsistent.numbered).2 hconsistent.mirrored,
    hs.rooted hg.entry, fun i c hc hkind => ?_, fun i c hc hkind => ?_, ?_,
    fun i c hi hc hnone => ?_⟩
  · obtain ⟨b, hb, hshape⟩ := hs.symm.exists_live hc
    rw [← Block.length_statements_eq_of_shape hshape, ← Block.successors_eq_of_shape hshape]
    exact hg.condition i b hb ((Block.kind_eq_of_shape hshape).trans hkind)
  · obtain ⟨b, hb, hshape⟩ := hs.symm.exists_live hc
    rw [← Block.successors_eq_of_shape hshape]
    exact hg.base i b hb ((Block.kind_eq_of_shape hshape).trans hkind)
  · obtain ⟨b, hb, hnone⟩ := hg.exit
    obtain ⟨c, hc, hshape⟩ := hs.exists_block? hb
    exact ⟨c, hs.exit_eq ▸ hc, (Block.successors_eq_of_shape hshape).trans hnone⟩
  · rw [hs.reachable_eq] at hi
    obtain ⟨b, hb, hshape⟩ := hs.symm.exists_block? hc
    rw [hs.exit_eq]
    refine (hg.ends i b hi hb ((Block.successors_eq_of_shape hshape).trans hnone)).imp_right ?_
    exact endsInReturn_of_converted hconverted hi hb hc

end Graph

namespace Node

variable {node : Node} {options : Options} {log log' : Log} {g : Graph}

/-- The graphs that are built are shaped, whether or not they are simplified. They can be converted,
and the results are shaped as well. -/
theorem shaped_of_build (hbuild : (node.build options).run log = .ok g log') :
    g.Shaped ∧ ∃ h report, g.converted = .ok (h, report) ∧ h.Shaped := by
  have hg := wellFormed_of_build hbuild
  have hshaped := hg.shaped (framed_of_build hbuild)
  obtain ⟨h, report, -, -, hconverted, -⟩ := hg.exists_renaming
  exact ⟨hshaped, h, report, hconverted, hshaped.of_converted hg.consistent.numbered hconverted⟩

/-- A function with a loop that returns on one branch and with a statement behind its return. -/
private def probing : Node :=
  intFunction "f" [declaration "n" "int" none]
    [whileLoop (ident "n") (branch (ident "c") (compound [ret (some (ident "n")), ident "n"])
      (some (jump .breakLoop))), ret none]

private theorem build_probing : ∃ g log, (probing.build {}).run {} = .ok g log :=
  exists_run_build_of_findSome?_eq_none {} rfl

theorem shaped_of_build_probing :
    ∃ g log, (probing.build {}).run {} = .ok g log ∧ g.Shaped ∧
      ∃ h report, g.converted = .ok (h, report) ∧ h.Shaped := by
  obtain ⟨g, log, hbuild⟩ := build_probing
  exact ⟨g, log, hbuild, shaped_of_build hbuild⟩

end Node

end FlowGraph
