import FlowGraph.Proofs.Ssa.Traced

/-!
# What conversion leaves alone

Conversion places phi nodes and rewrites statements. The blocks of a converted graph are those of
the original one, with the same edges and with as many statements; so the same blocks are live and
reachable, and what is said about the edges of one graph is true of the other.

## Main definitions

* `Block.shape`: a block without what conversion writes
* `Graph.SameShape`: two graphs whose blocks have the same shapes

## Main results

* `Graph.sameShape_of_converted`: conversion keeps the shape of a graph
-/

namespace FlowGraph

/-- What conversion leaves as it is in a block: the number of its statements, and all else apart
from its phi nodes. -/
def Block.shape (block : Block) : Block × Nat :=
  ({ block with statements := [], phis := [] }, block.statements.length)

namespace Block

variable {b c : Block}

theorem id_eq_of_shape (h : c.shape = b.shape) : c.id = b.id :=
  congrArg (·.1.id) h

theorem kind_eq_of_shape (h : c.shape = b.shape) : c.kind = b.kind :=
  congrArg (·.1.kind) h

theorem successors_eq_of_shape (h : c.shape = b.shape) : c.successors = b.successors :=
  congrArg (·.1.successors) h

theorem predecessors_eq_of_shape (h : c.shape = b.shape) : c.predecessors = b.predecessors :=
  congrArg (·.1.predecessors) h

theorem isDetached_eq_of_shape (h : c.shape = b.shape) : c.isDetached = b.isDetached :=
  congrArg (·.1.isDetached) h

theorem length_statements_eq_of_shape (h : c.shape = b.shape) :
    c.statements.length = b.statements.length :=
  congrArg Prod.snd h

end Block

namespace Graph

variable {g h k : Graph} {b c : Block} {i j : BlockId}

/-- Two graphs that differ at most in what their phi nodes and statements say. -/
structure SameShape (g h : Graph) : Prop where
  name_eq : h.name = g.name
  entry_eq : h.entry = g.entry
  exit_eq : h.exit = g.exit
  shape : ∀ i, (h.block? i).map Block.shape = (g.block? i).map Block.shape

namespace SameShape

theorem refl (g : Graph) : g.SameShape g :=
  ⟨rfl, rfl, rfl, fun _ => rfl⟩

theorem symm (hs : g.SameShape h) : h.SameShape g :=
  ⟨hs.name_eq.symm, hs.entry_eq.symm, hs.exit_eq.symm, fun i => (hs.shape i).symm⟩

theorem trans (hs : g.SameShape h) (hs' : h.SameShape k) : g.SameShape k :=
  ⟨hs'.name_eq.trans hs.name_eq, hs'.entry_eq.trans hs.entry_eq, hs'.exit_eq.trans hs.exit_eq,
    fun i => (hs'.shape i).trans (hs.shape i)⟩

/-- A block may be changed as long as it keeps its shape. -/
theorem modify (hs : g.SameShape h) {f : Block → Block}
    (hf : ∀ c, h.block? j = some c → (f c).shape = c.shape) : g.SameShape (h.modify j f) := by
  refine hs.trans ⟨rfl, rfl, rfl, fun i => ?_⟩
  rw [block?_modify]
  split
  · rename_i hj
    subst hj
    cases hc : h.block? j with
    | none => rfl
    | some c => rw [Option.map_some, Option.map_some, Option.map_some, hf c hc]
  · rfl

theorem exists_block? (hs : g.SameShape h) (hb : g.block? i = some b) :
    ∃ c, h.block? i = some c ∧ c.shape = b.shape := by
  have hshape := hs.shape i
  rw [hb, Option.map_some] at hshape
  exact Option.map_eq_some_iff.1 hshape

/-- A statement has another one in its place. -/
theorem exists_statement (hs : g.SameShape h) (hb : g.block? i = some b) {k : Nat} {s : Node}
    (hk : b.statements[k]? = some s) :
    ∃ c, ∃ s' : Node, h.block? i = some c ∧ c.statements[k]? = some s' := by
  obtain ⟨c, hc, hshape⟩ := hs.exists_block? hb
  have hlength := Block.length_statements_eq_of_shape hshape
  have hlt : k < c.statements.length := hlength ▸ (List.getElem?_eq_some_iff.1 hk).1
  exact ⟨c, _, hc, List.getElem?_eq_getElem hlt⟩

theorem size_eq (hs : g.SameShape h) : h.size = g.size := by
  have hsize (i : BlockId) : i < h.size ↔ i < g.size := by
    rw [← block?_isSome_iff, ← block?_isSome_iff, ← Option.isSome_map (f := Block.shape),
      hs.shape, Option.isSome_map]
  exact Nat.le_antisymm (Nat.le_of_not_lt fun hlt => Nat.lt_irrefl _ ((hsize _).1 hlt))
    (Nat.le_of_not_lt fun hlt => Nat.lt_irrefl _ ((hsize _).2 hlt))

theorem successors_eq (hs : g.SameShape h) : h.successors = g.successors := by
  funext i
  unfold Graph.successors
  cases hb : g.block? i with
  | some b =>
    obtain ⟨c, hc, hshape⟩ := hs.exists_block? hb
    rw [hc, Option.elim_some, Option.elim_some]
    exact Block.successors_eq_of_shape hshape
  | none =>
    have hnone := hs.shape i
    rw [hb, Option.map_none, Option.map_eq_none_iff] at hnone
    rw [hnone]

/-- The entry leads to the same blocks. -/
theorem reachable_eq (hs : g.SameShape h) : h.reachable = g.reachable := by
  rw [reachable, reachable, preorder, preorder, hs.entry_eq, hs.size_eq, hs.successors_eq]

theorem exists_live (hs : g.SameShape h) (hb : g.Live i b) :
    ∃ c, h.Live i c ∧ c.shape = b.shape := by
  obtain ⟨c, hc, hshape⟩ := hs.exists_block? hb.1
  exact ⟨c, ⟨hc, (Block.isDetached_eq_of_shape hshape).trans hb.2⟩, hshape⟩

end SameShape

end Graph

section Rename

variable {source : BlockId} {current : Std.TreeMap String String} {c : Block}

@[simp] theorem Block.shape_receive : (c.receive source current).shape = c.shape := by
  unfold receive
  split <;> rfl

theorem Block.shape_addPhis (c : Block) (names : List String) :
    (c.addPhis names).shape = c.shape := by
  obtain ⟨phis, hphis, -⟩ := c.exists_addPhis names
  rw [hphis]
  rfl

theorem Naming.length_statements (naming : Naming) (statements : List Node) :
    (naming.statements statements).1.length = statements.length := by
  induction statements generalizing naming with
  | nil => rfl
  | cons s rest ih => rw [statements_cons, List.length_cons, List.length_cons, ih]

theorem Naming.shape_block (naming : Naming) (c : Block) :
    (naming.block c).1.shape = c.shape :=
  Prod.ext rfl ((naming.phis c.phis).2.length_statements c.statements)

end Rename

/-- A placement keeps the shape of its graph in every move. -/
theorem sameShape_placementWalk (g : Graph) (wanted : Std.TreeSet String) :
    (placementWalk wanted).Recorded PlacementFrame.successors fun _ s => g.SameShape s.graph where
  slots := fun _ _ => rfl
  cross := by
    intro r s i frame j hs _ _
    change g.SameShape (PlacementState.cross frame j s).graph
    unfold PlacementState.cross
    split
    · exact hs
    · rename_i b hb
      split
      · refine hs.modify fun c hc => ?_
        obtain rfl := Option.some.inj (hb.symm.trans hc)
        exact b.shape_addPhis _
      · exact hs
  enter := by
    intro r s i frame j child s' hs _ _ _ henter
    obtain ⟨b, -, -, rfl⟩ := PlacementState.exists_of_enter_eq_ok henter
    exact hs

theorem RenamingState.sameShape_enter {g : Graph} {s s' : RenamingState}
    {frame child : RenamingFrame} {j : BlockId} (hs : g.SameShape s.graph)
    (henter : enter frame j s = .ok child s') : g.SameShape s'.graph := by
  obtain ⟨b, hb, -, rfl⟩ := exists_of_enter_eq_ok henter
  refine hs.modify fun c hc => ?_
  obtain rfl := Option.some.inj (hb.symm.trans hc)
  exact Naming.shape_block _ b

/-- A renaming keeps the shape of its graph in every move. -/
theorem sameShape_renamingWalk (g : Graph) :
    renamingWalk.Recorded RenamingFrame.successors fun _ s => g.SameShape s.graph where
  slots := fun _ _ => rfl
  cross := fun hs _ _ => hs.modify fun _ _ => Block.shape_receive
  enter := fun hs _ _ _ henter => RenamingState.sameShape_enter hs henter

/-- A renaming that has succeeded keeps the shape of its graph. -/
theorem Edit.sameShape_of_run_rename {g g' : Graph} {declared : Std.TreeSet String}
    {versions : Versions} (hrun : (rename declared).run g = .ok versions g') : g.SameShape g' := by
  obtain ⟨s, hwalk, rfl⟩ := exists_walk_of_run_rename hrun
  obtain ⟨-, hshape, -⟩ := (sameShape_renamingWalk g).of_run
    (RenamingState.sameShape_enter (.refl g)) hwalk
  exact hshape

namespace Graph

variable {g g' : Graph} {report : ConversionReport}

/-- A conversion that has succeeded keeps the shape of its graph. -/
theorem sameShape_of_converted (h : g.converted = .ok (g', report)) : g.SameShape g' := by
  obtain ⟨added, placed, versions, hplace, hrename⟩ := exists_converted_iff.1 ⟨report, h⟩
  obtain ⟨s, hwalk, rfl⟩ := Edit.exists_walk_of_run_placePhis hplace
  obtain ⟨-, hplaced, -⟩ := (sameShape_placementWalk g g.declared).of_run (fun henter => by
    obtain ⟨b, -, -, rfl⟩ := PlacementState.exists_of_enter_eq_ok henter
    exact .refl g) hwalk
  exact hplaced.trans (Edit.sameShape_of_run_rename hrename)

end Graph

end FlowGraph
