import FlowGraph.Proofs.Ssa.Assigned
import FlowGraph.Proofs.Ssa.Reads

/-!
# Where names come from

A converted graph mentions two kinds of names: versions, each of which some phi node or statement
of the graph defines, and names that the original graph mentions already, which no definition has
reached. For identifiers in statements this is what renaming makes of them. Operands of phi nodes
are the versions current in the blocks that edges come from; these were handed out for the blocks
that were entered so far, and the blocks define them.

## Main definitions

* `Graph.mentions`: the identifiers and phi operands of a graph
* `Graph.Sourced`: the versions in use in the middle of a renaming are defined somewhere

## Main results

* `Graph.mem_targets_of_mem_operands`: phi operands are defined
* `Graph.mentions_of_converted`: where the names of a converted graph come from
-/

namespace FlowGraph

/-- The names that a block mentions apart from results of phi nodes and what is declared: the
operands of its phi nodes and the identifiers of its statements. -/
def Block.mentions (block : Block) : List String :=
  block.phis.flatMap (fun phi => phi.operands.map (·.value)) ++
    block.statements.flatMap Node.reached

/-- The versions at the end of a block were current before it, or the block defines them. -/
theorem Naming.mem_targets_of_current_block (naming : Naming) {block : Block}
    {name version : String} (h : (naming.block block).2.current[name]? = some version) :
    version ∈ (naming.block block).1.targets ∨ naming.current[name]? = some version := by
  have hrenamed : block.Renamed naming.current (naming.block block).1
      (naming.block block).2.current := naming.renamed_block rfl
  rw [hrenamed.current, Option.or_eq_some_iff] at h
  exact h.imp (fun hlast => Block.mem_targets_of_mem_definitions (mem_of_lastDefinition hlast))
    And.right

namespace Graph

variable {g g' h : Graph} {b c : Block} {i j : BlockId} {r : Walk.Record RenamingFrame}
  {s : RenamingState} {frame child : RenamingFrame} {name version : String}
  {report : ConversionReport}

/-- The names that reachable blocks mention. -/
def mentions (g : Graph) : List String :=
  g.reachableBlocks.flatMap Block.mentions

/-- Some block that was entered defines a version. -/
def DefinedIn (r : Walk.Record RenamingFrame) (h : Graph) (version : String) : Prop :=
  ∃ j c, (r.frame? j).isSome ∧ h.block? j = some c ∧ version ∈ c.targets

/-- In the middle of a renaming, current versions and operands of phi nodes are defined in blocks
that were entered. -/
structure Sourced (r : Walk.Record RenamingFrame) (s : RenamingState) : Prop where
  current : ∀ {i frame}, r.frame? i = some frame → ∀ name version : String,
    frame.current[name]? = some version → DefinedIn r s.graph version
  operand : ∀ {i c}, s.graph.block? i = some c → ∀ phi ∈ c.phis, ∀ operand ∈ phi.operands,
    DefinedIn r s.graph operand.value

namespace Sourced

/-- Operands that arrive over an edge were current at its source. -/
theorem cross (hs : Sourced r s) (hframe : r.frame? i = some frame) (j : BlockId) :
    Sourced (r.cross i) (RenamingState.cross frame j s) := by
  have hkeep {version : String} (h : DefinedIn r s.graph version) :
      DefinedIn (r.cross i) (RenamingState.cross frame j s).graph version := by
    obtain ⟨k, c, hk, hc, hversion⟩ := h
    refine ⟨k, if j = k then c.receive frame.block frame.current else c, hk, ?_, ?_⟩
    · rw [RenamingState.cross, block?_modify]
      split
      · rw [hc, Option.map_some]
      · exact hc
    · split
      · rwa [Block.targets_receive]
      · exact hversion
  refine ⟨fun hk name version hcurrent => hkeep (hs.current hk name version hcurrent),
    fun {k d} hd phi hphi operand hoperand => hkeep ?_⟩
  rw [RenamingState.cross, block?_modify] at hd
  split at hd
  · obtain ⟨c, hc, rfl⟩ := Option.map_eq_some_iff.1 hd
    cases hjoin : c.isJoin with
    | false =>
      rw [Block.receive_of_not_isJoin hjoin] at hphi
      exact hs.operand hc phi hphi operand hoperand
    | true =>
      rw [Block.phis_receive hjoin] at hphi
      obtain ⟨old, hold, rfl⟩ := List.mem_map.1 hphi
      rcases List.mem_append.1 hoperand with hoperand | hoperand
      · exact hs.operand hc old hold operand hoperand
      · obtain ⟨version, hversion, rfl⟩ := List.mem_map.1 hoperand
        exact hs.current hframe _ _ (Option.mem_toList.1 hversion)
  · exact hs.operand hd phi hphi operand hoperand

/-- The versions at the end of a new block are those it started from and those it defines. -/
theorem enter (hs : Sourced r s) (hnew : r.frame? j = none) (hc : s.graph.block? j = some c)
    {current : Std.TreeMap String String}
    (hcurrent : ∀ name version : String,
      current[name]? = some version → DefinedIn r s.graph version)
    (hchild : child.current = (Naming.block ⟨current, s.versions⟩ c).2.current) :
    Sourced (r.enter j child)
      ⟨s.graph.modify j fun _ => (Naming.block ⟨current, s.versions⟩ c).1,
        (Naming.block ⟨current, s.versions⟩ c).2.versions⟩ := by
  have hblock : (s.graph.modify j fun _ => (Naming.block ⟨current, s.versions⟩ c).1).block? j =
      some (Naming.block ⟨current, s.versions⟩ c).1 := by
    rw [block?_modify_self, hc, Option.map_some]
  have hkeep {version : String} (h : DefinedIn r s.graph version) :
      DefinedIn (r.enter j child)
        (s.graph.modify j fun _ => (Naming.block ⟨current, s.versions⟩ c).1) version := by
    obtain ⟨k, d, hk, hd, hversion⟩ := h
    have hne : k ≠ j := by
      rintro rfl
      rw [hnew] at hk
      cases hk
    refine ⟨k, d, ?_, ?_, hversion⟩
    · rwa [r.frame?_enter_of_ne child hne]
    · rwa [block?_modify, if_neg (Ne.symm hne)]
  refine ⟨fun {k f} hk name version hversion => ?_, fun {k d} hd phi hphi operand hoperand => ?_⟩
  · rcases r.of_frame?_enter child hk with ⟨rfl, rfl⟩ | ⟨-, hk⟩
    · rw [hchild] at hversion
      rcases Naming.mem_targets_of_current_block _ hversion with htarget | hbefore
      · exact ⟨k, _, by rw [Walk.Record.frame?_enter_self]; rfl, hblock, htarget⟩
      · exact hkeep (hcurrent name version hbefore)
    · exact hkeep (hs.current hk name version hversion)
  · refine hkeep ?_
    by_cases hk : k = j
    · subst hk
      obtain rfl := Option.some.inj (hblock.symm.trans hd)
      obtain ⟨old, hold, -, hoperands⟩ := Naming.exists_of_mem_phis _ hphi
      exact hs.operand hc old hold operand (hoperands ▸ hoperand)
    · rw [block?_modify, if_neg (Ne.symm hk)] at hd
      exact hs.operand hd phi hphi operand hoperand

/-- Before the entry is renamed no version is in use. -/
theorem start (hb : g.block? g.entry = some b) (versions : Versions)
    (hnone : ∀ {i b}, g.block? i = some b → ∀ phi ∈ b.phis, phi.operands = [])
    (hchild : child.current = (Naming.block ⟨∅, versions⟩ b).2.current) :
    Sourced (.start g.entry child)
      ⟨g.modify g.entry fun _ => (Naming.block ⟨∅, versions⟩ b).1,
        (Naming.block ⟨∅, versions⟩ b).2.versions⟩ := by
  have hempty : Sourced ⟨fun _ => none, fun _ => 0⟩ ⟨g, versions⟩ := by
    refine ⟨(nomatch ·), fun hc phi hphi operand hoperand => ?_⟩
    rw [hnone hc phi hphi] at hoperand
    cases hoperand
  rw [Walk.Record.start_eq_enter]
  refine hempty.enter rfl hb (fun name version hcurrent => ?_) hchild
  rw [Std.TreeMap.getElem?_emptyc] at hcurrent
  cases hcurrent

end Sourced

end Graph

/-- What is recorded of the versions in use in a renaming. -/
theorem sourced_renamingWalk : renamingWalk.Recorded RenamingFrame.successors Graph.Sourced where
  slots := fun _ _ => rfl
  cross := fun hs hframe _ => hs.cross hframe _
  enter := by
    intro r s i frame j child s' hs hframe _ hnew henter
    obtain ⟨c, hc, rfl, rfl⟩ := RenamingState.exists_of_enter_eq_ok henter
    exact hs.enter hnew hc (hs.current hframe) rfl

namespace Graph

variable {g g' : Graph} {b c : Block} {i : BlockId} {name : String} {report : ConversionReport}

/-- After conversion every operand of a phi node is defined in some reachable block. -/
theorem mem_targets_of_mem_operands (hg : g.WellFormed) (h : g.converted = .ok (g', report))
    (hc : g'.block? i = some c) {phi : Phi} (hphi : phi ∈ c.phis) {operand : Phi.Operand}
    (hoperand : operand ∈ phi.operands) : operand.value ∈ g'.targets := by
  have hmirrored := hg.consistent.mirrored
  obtain ⟨added, placed, versions, hplace, hrename⟩ := exists_converted_iff.1 ⟨report, h⟩
  obtain ⟨_, phis, hplace', hplaced⟩ := Edit.run_placePhis hmirrored hg.rooted hg.phis g.declared
  cases hplace.symm.trans hplace'
  have hnone {i : BlockId} {b : Block} (hb : (g.withPhis phis).block? i = some b) :
      ∀ phi ∈ b.phis, phi.operands = [] := by
    rw [block?_withPhis, Option.map_eq_some_iff] at hb
    obtain ⟨b, -, rfl⟩ := hb
    intro phi hphi
    rw [hplaced.placeholder hphi]
    rfl
  obtain ⟨r, s, rfl, ⟨ht, hs⟩, -⟩ := Edit.exists_record_of_run_rename
    ((recorded_renamingWalk _).and sourced_renamingWalk)
    (fun hb => ⟨.start hb _, .start hb _ hnone rfl⟩) hrename
  obtain ⟨j, d, hj, hd, hvalue⟩ := hs.operand hc phi hphi operand hoperand
  -- A block that was entered is reachable.
  obtain ⟨frame, hframe⟩ := Option.isSome_iff_exists.1 hj
  obtain ⟨way, path⟩ := ht.along.path hframe
  obtain ⟨_, hp⟩ := Edit.placing_of_run_placePhis hplace
  refine mem_flatMap_reachableBlocks_iff.2 ⟨j, ?_, d, hd, hvalue⟩
  rw [(sameShape_of_converted h).reachable_eq]
  exact (exists_path_iff hmirrored hg.rooted).1 ⟨way, hp.path path⟩

/-- Whatever a converted graph mentions, it defines or the original graph mentions as well. -/
theorem mentions_of_converted (hg : g.WellFormed) (h : g.converted = .ok (g', report))
    (hname : name ∈ g'.mentions) : name ∈ g'.targets ∨ name ∈ g.mentions := by
  have hshape := sameShape_of_converted h
  obtain ⟨i, hi, c, hc, hname⟩ := mem_flatMap_reachableBlocks_iff.1 hname
  rcases List.mem_append.1 hname with hname | hname
  · obtain ⟨phi, hphi, hname⟩ := List.mem_flatMap.1 hname
    obtain ⟨operand, hoperand, rfl⟩ := List.mem_map.1 hname
    exact .inl (mem_targets_of_mem_operands hg h hc hphi hoperand)
  · obtain ⟨s', hs', hname⟩ := List.mem_flatMap.1 hname
    obtain ⟨k, hk⟩ := List.mem_iff_getElem?.1 hs'
    obtain ⟨b, s, hb, hs⟩ := hshape.symm.exists_statement hc hk
    have hi' : i ∈ g.reachable := hshape.reachable_eq ▸ hi
    have ht := traced_of_converted h hi'
    obtain ⟨c', here, hc', -, hk', hcurrent⟩ := ht.statement hb hs
    obtain rfl := Option.some.inj (hc.symm.trans hc')
    obtain rfl := Option.some.inj (hk.symm.trans hk')
    rcases Node.mem_reached_iff.1 hname with huse | ⟨op, value, heq⟩
    · rw [here.uses_statement] at huse
      obtain ⟨old, hold, rfl⟩ := List.mem_map.1 huse
      rw [hcurrent]
      cases hlast : lastDefinition old (g.definitionsBefore g' (g.treePath i) i k) with
      | some version =>
        exact .inl (mem_targets_of_lastDefinition hg.consistent.mirrored hg.rooted hshape ht.path
          hlast)
      | none =>
        refine .inr (mem_flatMap_reachableBlocks_iff.2 ⟨i, hi', b, hb, ?_⟩)
        exact List.mem_append_right _ (List.mem_flatMap.2
          ⟨s, List.mem_of_getElem? hs, Node.mem_reached_iff.2 (.inl hold)⟩)
    -- The variable that a statement assigns is a version that the statement defines.
    · refine .inl (mem_flatMap_reachableBlocks_iff.2 ⟨i, hi, c, hc, ?_⟩)
      exact List.mem_append_right _ (List.mem_filterMap.2 ⟨_, hs', by rw [heq]; rfl⟩)

end Graph

end FlowGraph
