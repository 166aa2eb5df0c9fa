import FlowGraph.Proofs.Construction.Diagnosed
import FlowGraph.Proofs.Construction.Formed

/-!
# Where control ends

No edge leaves the exit of a graph that is built, and any other reachable block without a successor
ends in a return. An absorption hands the end of control on: a block that absorbs the exit becomes
the exit, and one that absorbs a return ends in it. A bypassed block goes on with another one, so
control never ended there.

## Main definitions

* `Block.EndsInReturn`: a final block with a return as its last statement
* `Graph.Framed`: formed blocks, among which control ends at the exit or in returns

## Main results

* `Graph.Rewrites.framed`: simplification keeps a graph framed
* `Node.framed_of_build`: the graphs that are built are framed
-/

namespace FlowGraph

/-- Control ends in the block with a return. -/
def Block.EndsInReturn (block : Block) : Prop :=
  block.isFinal = true ∧ ∃ value, block.statements.getLast? = some (.ret value)

namespace Graph

variable {g g' : Graph} {id next target i : BlockId} {b c n : Block} {among : BlockId → Prop}

/-- The live blocks are formed and no edge leaves the exit. Among the blocks in question control
ends at the exit and in returns only. -/
structure Framed (g : Graph) (among : BlockId → Prop) : Prop where
  formed : ∀ {i b}, g.Live i b → b.code.IsFormed
  exit : ∃ b, g.block? g.exit = some b ∧ b.successors = []
  ends : ∀ {i b}, among i → g.Live i b → b.successors = [] → i = g.exit ∨ b.EndsInReturn

/-- Pruning leaves the blocks among which control ends as it does. -/
theorem Framed.pruned (hg : g.Framed (· ∈ g.reachable)) (hn : g.Numbered) :
    g.pruned.Framed fun _ => True where
  formed := by
    intro i c hc
    obtain ⟨b, hb, -, rfl⟩ := (live_pruned_iff hn).1 hc
    have hformed := hg.formed hb
    exact hformed
  exit := by
    obtain ⟨e, he, hnone⟩ := hg.exit
    refine ⟨_, by rw [block?_pruned, show g.pruned.exit = g.exit from rfl, he, Option.map_some], ?_⟩
    unfold prunedBlock
    split
    · rfl
    · exact hnone
  ends := by
    intro i c _ hc hnone
    obtain ⟨b, hb, hi, rfl⟩ := (live_pruned_iff hn).1 hc
    have hends := hg.ends hi hb hnone
    exact hends

section Absorption

/-- A block that absorbs another one ends in a return if that one does. -/
theorem endsInReturn_absorbedBlock (hne : id ≠ next) (b : Block) (hn : n.EndsInReturn) :
    (absorbedBlock id next n id b).EndsInReturn := by
  obtain ⟨hfinal, value, hvalue⟩ := hn
  refine ⟨?_, value, ?_⟩
  · rw [isFinal_absorbedBlock hne, if_pos rfl, hfinal]
  · rw [statements_absorbedBlock hne, if_pos rfl, List.getLast?_append, hvalue, Option.some_or]

theorem Absorbs.framed (h : g.Absorbs id next b n) (hne : id ≠ next)
    (hg : g.Framed fun _ => True) : (g.absorbed id next n).Framed fun _ => True where
  formed := by
    intro i c hc
    obtain ⟨block, hblock, hi, rfl⟩ := live_absorbed_iff.1 hc
    have hkind := kind_absorbedBlock id next n i block
    have hstatements : (absorbedBlock id next n i block).statements =
        if id = i then block.statements ++ n.statements else block.statements :=
      statements_absorbedBlock hi block
    have hsuccessors : (absorbedBlock id next n i block).successors =
        if id = i then n.successors else block.successors := successors_absorbedBlock block hi
    by_cases hid : id = i
    · subst hid
      rw [if_pos rfl] at hsuccessors
      obtain rfl := hblock.eq h.source
      refine ⟨fun hcond => ?_, fun _ => ?_⟩
      · cases (hkind.symm.trans hcond).symm.trans h.source_kind
      · change (absorbedBlock id next n id block).successors.length ≤ 1
        rw [hsuccessors]
        exact (hg.formed h.target).base h.target_kind
    · have hcode : (absorbedBlock id next n i block).code = block.code := by
        rw [Block.code, hkind, hstatements, hsuccessors, if_neg hid, if_neg hid, Block.code]
      rw [hcode]
      exact hg.formed hblock
  exit := by
    obtain ⟨e, he, hnone⟩ := hg.exit
    rw [exit_absorbed]
    split
    · rename_i hexit
      obtain rfl := Option.some.inj (h.target.1.symm.trans (hexit ▸ he))
      refine ⟨_, by rw [block?_absorbed, h.source.1, Option.map_some], ?_⟩
      rw [successors_absorbedBlock b hne, if_pos rfl, hnone]
    · rename_i hexit
      have hid : id ≠ g.exit := by
        intro hid
        obtain rfl := Option.some.inj (h.source.1.symm.trans (hid ▸ he))
        cases hnone.symm.trans h.successors
      refine ⟨_, by rw [block?_absorbed, he, Option.map_some], ?_⟩
      rw [successors_absorbedBlock e hexit, if_neg hid, hnone]
  ends := by
    intro i c _ hc hnone
    obtain ⟨block, hblock, hi, rfl⟩ := live_absorbed_iff.1 hc
    rw [successors_absorbedBlock block hi] at hnone
    rw [exit_absorbed]
    by_cases hid : id = i
    -- The end of control at the absorbed block is taken over.
    · subst hid
      rw [if_pos rfl] at hnone
      obtain rfl := hblock.eq h.source
      rcases hg.ends trivial h.target hnone with rfl | hreturn
      · exact .inl (if_pos rfl).symm
      · exact .inr (endsInReturn_absorbedBlock hne block hreturn)
    · rw [if_neg hid] at hnone
      rcases hg.ends trivial hblock hnone with rfl | ⟨hfinal, value, hvalue⟩
      · exact .inl (if_neg hi).symm
      · refine .inr ⟨?_, value, ?_⟩
        · rw [isFinal_absorbedBlock hi, if_neg hid, hfinal]
        · rw [statements_absorbedBlock hi, if_neg hid, hvalue]

end Absorption

theorem Bypasses.framed (h : g.Bypasses id target b) (hm : g.Mirrored)
    (hg : g.Framed fun _ => True) :
    (g.bypassed id target b.predecessors).Framed fun _ => True := by
  obtain ⟨e, he, hnone⟩ := hg.exit
  have hid : g.exit ≠ id := by
    rintro rfl
    obtain rfl := Option.some.inj (h.source.1.symm.trans he)
    cases hnone.symm.trans h.successors
  have hexit : (g.bypassed id target b.predecessors).exit = g.exit := by
    rw [exit_bypassed, if_neg hid]
  refine ⟨?_, ?_, ?_⟩
  · intro i c hc
    obtain ⟨block, hblock, hi, rfl⟩ := live_bypassed_iff.1 hc
    have hformed := hg.formed hblock
    have hcode : (bypassedBlock id target b.predecessors i block).code =
        ⟨block.kind, block.statements,
          block.successors.map fun j => if j == id then target else j⟩ := by
      rw [Block.code, h.successors_eq hm hblock hi, bypassedBlock, if_neg hi.symm]
    rw [hcode]
    refine ⟨fun hkind => ?_, fun hkind => ?_⟩
    · rw [List.length_map]
      exact hformed.condition hkind
    · rw [List.length_map]
      exact hformed.base hkind
  · refine ⟨_, by rw [hexit, block?_bypassed, he, Option.map_some], ?_⟩
    rw [successors_bypassedBlock _ _ _ hid, hnone, List.map_nil, ite_self]
  · intro i c _ hc hnone
    obtain ⟨block, hblock, hi, rfl⟩ := live_bypassed_iff.1 hc
    rw [h.successors_eq hm hblock hi, List.map_eq_nil_iff] at hnone
    rw [hexit]
    refine (hg.ends trivial hblock hnone).imp_right fun hreturn => ?_
    rwa [Block.EndsInReturn, bypassedBlock, if_neg hi.symm]

/-- A step of simplification keeps a graph framed. -/
theorem Rewrites.framed (h : g.Rewrites g') (hm : g.Mirrored) (hg : g.Framed fun _ => True) :
    g'.Framed fun _ => True := by
  cases h with
  | absorb absorbs hne => exact absorbs.framed hne hg
  | bypass bypasses => exact bypasses.framed hm hg

theorem RewritesTo.framed (h : g.RewritesTo g') (hg : g.Consistent)
    (hf : g.Framed fun _ => True) : g'.Framed fun _ => True :=
  (h.preserves (P := fun k => k.Consistent ∧ k.Framed fun _ => True)
    (fun step hk => ⟨step.consistent hk.1, step.framed hk.1.mirrored hk.2⟩) ⟨hg, hf⟩).2

end Graph

namespace Node

variable {node : Node} {options : Options} {log log' : Log} {g : Graph}

/-- The graph of a tree without stray jumps is framed. -/
theorem framed_toGraph (hstray : ∀ p ∈ node.places, ¬p.IsStray) :
    node.toGraph.Framed (· ∈ node.toGraph.reachable) where
  formed := fun {i b} hb =>
    isFormed_toGraph node i b.code (Nat.zero_le i) (by rw [Graph.code, hb.1, Option.map_some])
  exit := by
    have hnone := successors_exit_toGraph node
    obtain ⟨b, hb⟩ := Option.isSome_iff_exists.1
      (Graph.block?_isSome_iff.2 (exit_lt_size_toGraph node))
    rw [Graph.successors, hb, Option.elim_some] at hnone
    exact ⟨b, hb, hnone⟩
  ends := by
    intro i b hi hb hnone
    obtain ⟨S, hS⟩ := region_toGraph node
    have hend := hS.sink i (mem_of_mem_reachable_toGraph hS hi) (hb.successors.trans hnone)
    rcases hend with ⟨-, rfl⟩ | ⟨c, value, hc, -, hstatements, hfinal⟩ | ⟨p, hp, hjump⟩
    · exact .inl rfl
    · obtain rfl := Option.some.inj (hb.1.symm.trans hc)
      exact .inr ⟨hfinal, value, by rw [hstatements]; rfl⟩
    · exact absurd hjump (hstray p hp)

/-- The graphs that are built are framed, whether or not they are simplified. -/
theorem framed_of_build (hbuild : (node.build options).run log = .ok g log') :
    g.Framed (· ∈ g.reachable) := by
  have hraw := wellFormed_toGraph node
  have hframed : node.toGraph.Framed (· ∈ node.toGraph.reachable) :=
    framed_toGraph fun p hp hstray => not_offends_of_build hbuild p hp (.inr hstray)
  rcases graph_eq_of_build hbuild with ⟨-, rfl⟩ | ⟨-, report, hrun⟩
  · exact hframed
  · have hend := (hraw.rewritesTo_of_run_simplify hrun).framed hraw.pruned.consistent
      (hframed.pruned hraw.consistent.numbered)
    exact ⟨hend.formed, hend.exit, fun _ => hend.ends trivial⟩

end Node

end FlowGraph
