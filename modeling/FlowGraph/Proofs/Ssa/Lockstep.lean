import FlowGraph.Proofs.Graph.Renumbered
import FlowGraph.Ssa.Conversion

/-!
# Conversion of renumbered graphs

Conversion knows variables by their names and blocks by their numbers, and it never compares the two
or orders blocks by their numbers. So it hands out the same versions in two graphs that differ in
these numbers, and the operands of phi nodes come from the same blocks.

## Main results

* `Edit.follows_placePhis`, `Edit.follows_rename`: the two halves of a conversion
* `Graph.Renumbers.exists_converted`: the conversion of a renumbered graph
-/

namespace FlowGraph

variable {ν : BlockId → BlockId}

section Placement

@[simp] theorem Phi.base_renumber (phi : Phi) : (phi.renumber ν).base = phi.base := rfl

theorem Phi.insert_map_renumber (name : String) (phis : List Phi) :
    Phi.insert name (phis.map (·.renumber ν)) = (Phi.insert name phis).map (·.renumber ν) := by
  induction phis with
  | nil => rfl
  | cons phi rest ih =>
    simp only [List.map_cons, Phi.insert, Phi.base_renumber, ih]
    split <;> rfl

theorem Block.addPhi_renumber (b : Block) (name : String) :
    (b.renumber ν).addPhi name = (b.addPhi name).renumber ν := by
  have hphi : ((b.renumber ν).phi? name).isSome = (b.phi? name).isSome := by
    rw [phi?, phi?, phis_renumber, List.find?_map, Option.isSome_map]
    rfl
  unfold addPhi
  rw [hphi]
  split
  · rfl
  · simp only [phis_renumber, Phi.insert_map_renumber]
    rfl

theorem Block.addPhis_renumber (b : Block) (names : List String) :
    (b.renumber ν).addPhis names = (b.addPhis names).renumber ν := by
  unfold addPhis
  induction names generalizing b with
  | nil => rfl
  | cons name names ih => rw [List.foldl_cons, List.foldl_cons, addPhi_renumber, ih]

/-- Two placements in the middle of their work that have added as many placeholders. -/
def PlacementState.Renumbers (ν : BlockId → BlockId) (s t : PlacementState) : Prop :=
  s.graph.Renumbers ν t.graph ∧ t.added = s.added

/-- Two frames of placements that stand at the same block. -/
def PlacementFrame.Renumbers (ν : BlockId → BlockId) (f k : PlacementFrame) : Prop :=
  k = { f with successors := f.successors.map ν }

/-- Placement makes the same moves in both graphs. -/
theorem follows_placementWalk (wanted : Std.TreeSet String) :
    (placementWalk wanted).Follows ν (PlacementState.Renumbers ν) (PlacementFrame.Renumbers ν)
      (placementWalk wanted) where
  slots := by
    rintro s t f _ - rfl
    rfl
  cross := by
    rintro s t f _ i ⟨hr, hadded⟩ rfl -
    change PlacementState.Renumbers ν (s.cross f i) (t.cross _ (ν i))
    unfold PlacementState.cross
    rw [hr.block?_eq]
    cases hb : s.graph.block? i with
    | none => exact ⟨hr, hadded⟩
    | some b =>
      simp only [Option.map_some, Block.isJoin_renumber, Block.addPhis_renumber]
      split
      · refine ⟨hr.modify i fun c hc => rfl, ?_⟩
        simp only [Block.phis_renumber, List.length_map, hadded]
      · exact ⟨hr, hadded⟩
  enter := by
    rintro s t f _ i child s' ⟨hr, hadded⟩ rfl henter
    simp only [placementWalk, PlacementState.enter] at henter ⊢
    split at henter
    · cases henter
    · rename_i b hb
      cases henter
      rw [hr.find_eq hb]
      exact ⟨_, t, rfl, rfl, hr, hadded⟩

/-- The same placeholders are placed in both graphs. -/
theorem Edit.follows_placePhis (wanted : Std.TreeSet String) :
    Follows ν Eq (placePhis wanted) (placePhis wanted) := by
  refine ⟨fun {g h g' added} hr hrun => ?_⟩
  change placePhis wanted g = .ok added g' at hrun
  unfold placePhis at hrun
  split at hrun
  · rename_i s hwalk
    cases hrun
    have hstart : PlacementState.Renumbers ν ⟨g, 0⟩ ⟨h, 0⟩ := ⟨hr, rfl⟩
    have hroot : PlacementFrame.Renumbers ν {} {} := rfl
    obtain ⟨t, hwalk', hr', hadded⟩ := (follows_placementWalk wanted).exists_run
      hr.mono.injective hr.lt_size_iff hroot hstart hwalk
    refine ⟨t.added, t.graph, ?_, hadded.symm, hr'⟩
    change placePhis wanted h = _
    rw [placePhis, hr.entry_eq, hwalk']
  · cases hrun

end Placement

section Rename

theorem Block.receive_renumber (b : Block) (source : BlockId)
    (current : Std.TreeMap String String) :
    (b.renumber ν).receive (ν source) current = (b.receive source current).renumber ν := by
  unfold receive
  rw [isJoin_renumber]
  split
  · simp only [renumber, List.map_map]
    congr 1
    refine List.map_congr_left fun phi _ => ?_
    simp only [Function.comp_apply, Phi.base_renumber]
    split
    · rfl
    · simp only [Phi.addOperand, Phi.renumber, List.map_append, List.map_cons, List.map_nil]
      rfl
  · rfl

namespace Naming

variable (naming : Naming)

theorem phi_renumber (phi : Phi) :
    naming.phi (phi.renumber ν) = ((naming.phi phi).1.renumber ν, (naming.phi phi).2) :=
  rfl

theorem phis_map_renumber (phis : List Phi) :
    naming.phis (phis.map (·.renumber ν)) =
      ((naming.phis phis).1.map (·.renumber ν), (naming.phis phis).2) := by
  induction phis generalizing naming with
  | nil => rfl
  | cons phi rest ih =>
    simp only [List.map_cons, Naming.phis, phi_renumber, ih]

theorem block_renumber (b : Block) :
    naming.block (b.renumber ν) = ((naming.block b).1.renumber ν, (naming.block b).2) := by
  simp only [Naming.block, Block.phis_renumber, phis_map_renumber, Block.statements_renumber]
  rfl

end Naming

/-- Two renamings in the middle of their work that have handed out the same versions. -/
def RenamingState.Renumbers (ν : BlockId → BlockId) (s t : RenamingState) : Prop :=
  s.graph.Renumbers ν t.graph ∧ t.versions = s.versions

/-- Two frames of renamings that stand at the same block. The number of a block matters only if
control goes on from there. -/
structure RenamingFrame.Renumbers (ν : BlockId → BlockId) (f k : RenamingFrame) : Prop where
  current_eq : k.current = f.current
  successors_eq : k.successors = f.successors.map ν
  block_eq : f.successors ≠ [] → k.block = ν f.block

/-- Renaming makes the same moves in both graphs. -/
theorem follows_renamingWalk :
    renamingWalk.Follows ν (RenamingState.Renumbers ν) (RenamingFrame.Renumbers ν)
      renamingWalk where
  slots _ hf := hf.successors_eq
  cross := by
    rintro s t f k i ⟨hr, hversions⟩ hf hi
    change RenamingState.Renumbers ν (s.cross f i) (t.cross k (ν i))
    refine ⟨?_, hversions⟩
    rw [RenamingState.cross, RenamingState.cross, hf.current_eq,
      hf.block_eq (List.ne_nil_of_mem hi)]
    exact hr.modify i fun b _ => b.receive_renumber f.block f.current
  enter := by
    rintro s t f k i child s' ⟨hr, hversions⟩ hf henter
    simp only [renamingWalk, RenamingState.enter] at henter ⊢
    split at henter
    · cases henter
    · rename_i b hb
      cases henter
      rw [hr.find_eq hb, hf.current_eq, hversions]
      simp only [Naming.block_renumber]
      exact ⟨_, _, rfl, ⟨rfl, rfl, fun _ => rfl⟩, hr.modify i fun _ _ => rfl, rfl⟩

/-- The same versions are handed out in both graphs. -/
theorem Edit.follows_rename (declared : Std.TreeSet String) :
    Follows ν Eq (rename declared) (rename declared) := by
  refine ⟨fun {g h g' versions} hr hrun => ?_⟩
  change rename declared g = .ok versions g' at hrun
  unfold rename at hrun
  split at hrun
  · rename_i s hwalk
    cases hrun
    have hstart : RenamingState.Renumbers ν ⟨g, .start declared⟩ ⟨h, .start declared⟩ := ⟨hr, rfl⟩
    have hroot : RenamingFrame.Renumbers ν {} {} := ⟨rfl, rfl, fun hne => absurd rfl hne⟩
    obtain ⟨t, hwalk', hr', hversions⟩ := follows_renamingWalk.exists_run hr.mono.injective
      hr.lt_size_iff hroot hstart hwalk
    refine ⟨t.versions, t.graph, ?_, hversions.symm, hr'⟩
    change rename declared h = _
    rw [rename, hr.entry_eq, hwalk']
  · cases hrun

end Rename

namespace Graph.Renumbers

variable {g h g' : Graph} {report : ConversionReport}

/-- The same variables are declared. -/
theorem declared_eq (hr : g.Renumbers ν h) : h.declared = g.declared := by
  have hblocks : h.reachableBlocks = g.reachableBlocks.map (·.renumber ν) := by
    rw [reachableBlocks, reachableBlocks, hr.reachable_eq, List.filterMap_map, List.map_filterMap]
    congr 1
    funext i
    exact hr.block?_eq i
  rw [Graph.declared, Graph.declared, hblocks, List.flatMap_map]
  rfl

/-- A renumbered graph can be converted if the graph can, and the result is renumbered in the same
way. -/
theorem exists_converted (hr : g.Renumbers ν h) (hconverted : g.converted = .ok (g', report)) :
    ∃ h', h.converted = .ok (h', report) ∧ g'.Renumbers ν h' := by
  have hconvert : Edit.Follows ν Eq Edit.convert Edit.convert := by
    have hget : Edit.Follows ν (Graph.Renumbers ν) get get := ⟨fun {g h k a} hr hrun => by
      obtain ⟨rfl, rfl⟩ := Edit.run_get_eq_ok_iff.1 hrun
      exact ⟨h, h, rfl, hr, hr⟩⟩
    refine hget.bind fun k l hkl => ?_
    simp only [hkl.declared_eq, hkl.displayName_eq]
    refine (Edit.follows_placePhis _).bind ?_
    rintro added _ rfl
    refine (Edit.follows_rename _).bind ?_
    rintro versions _ rfl
    exact .pure rfl
  unfold converted at hconverted ⊢
  split at hconverted
  · rename_i report' k hrun
    cases hconverted
    obtain ⟨_, h', hrun', rfl, hr'⟩ := hconvert.exists_run hr hrun
    exact ⟨h', by rw [hrun'], hr'⟩
  · cases hconverted

end Graph.Renumbers

end FlowGraph
