import FlowGraph.Proofs.Graph.MapBlocks
import FlowGraph.Proofs.Traversal.Tracking
import FlowGraph.Ssa.Placement

/-!
# Where phi nodes are placed

Placement puts phi nodes into joins and leaves everything else alone. A variable gets a phi node in
every join that a declaration of the variable strictly dominates.

## Main definitions

* `Graph.withPhis`: a graph with other phi nodes
* `Graph.Declares`: a block that declares a variable
* `Graph.PhisPlaced`: what is known about phi nodes after placement
* `Graph.Placing`: what is known in the middle of a placement that has not failed

## Main results

* `Block.exists_addPhis`: what placeholders do to a block
* `Edit.placing_of_run_placePhis`: what placement never does
-/

namespace FlowGraph

/-- An inserted placeholder is added to the others. -/
theorem Phi.mem_insert_iff {name : String} {phi : Phi} {phis : List Phi} :
    phi ∈ Phi.insert name phis ↔ phi = placeholder name ∨ phi ∈ phis := by
  induction phis with
  | nil => simp [Phi.insert]
  | cons first rest ih =>
    rw [Phi.insert]
    split
    · rw [List.mem_cons]
    · rw [List.mem_cons, List.mem_cons, ih, or_left_comm]

namespace Block

variable (block : Block)

/-- A placeholder for a variable is added to the phi nodes unless there is one for it. -/
theorem exists_addPhi (name : String) : ∃ phis, block.addPhi name = { block with phis := phis } ∧
    (∀ phi ∈ phis, phi ∈ block.phis ∨ phi = .placeholder name) ∧ block.phis ⊆ phis ∧
      ∃ phi ∈ phis, phi.base = name := by
  unfold addPhi phi?
  cases hfound : block.phis.find? (·.base == name) with
  | some phi =>
    refine ⟨block.phis, rfl, fun phi hphi => .inl hphi, List.Subset.refl _, phi, ?_, ?_⟩
    · exact List.mem_of_find?_eq_some hfound
    · simpa using List.find?_some hfound
  | none =>
    refine ⟨Phi.insert name block.phis, rfl, fun phi hphi => ?_, fun phi hphi => ?_,
      .placeholder name, ?_, rfl⟩
    · exact (Phi.mem_insert_iff.1 hphi).symm
    · exact Phi.mem_insert_iff.2 (.inr hphi)
    · exact Phi.mem_insert_iff.2 (.inl rfl)

/-- Placeholders for a list of variables are added one by one. -/
theorem exists_addPhis (names : List String) :
    ∃ phis, block.addPhis names = { block with phis := phis } ∧
      (∀ phi ∈ phis, phi ∈ block.phis ∨ ∃ name ∈ names, phi = .placeholder name) ∧
      block.phis ⊆ phis ∧ ∀ name ∈ names, ∃ phi ∈ phis, phi.base = name := by
  induction names generalizing block with
  | nil => exact ⟨block.phis, rfl, fun _ hphi => .inl hphi, List.Subset.refl _, by simp⟩
  | cons name names ih =>
    -- The phi nodes for the first variable are still there after those for the others.
    obtain ⟨first, hfirst, honly, hkept, phi, hphi, hbase⟩ := block.exists_addPhi name
    obtain ⟨phis, hphis, honlys, hkepts, hall⟩ := ih (block.addPhi name)
    rw [hfirst] at hphis honlys hkepts
    refine ⟨phis, ?_, fun phi hphi => ?_, List.Subset.trans hkept hkepts, ?_⟩
    · rw [addPhis, List.foldl_cons, hfirst]
      exact hphis
    · rcases honlys phi hphi with hphi | ⟨other, hother, rfl⟩
      · exact (honly phi hphi).imp_right fun hphi => ⟨name, List.mem_cons_self, hphi⟩
      · exact .inr ⟨other, List.mem_cons_of_mem name hother, rfl⟩
    · rw [List.forall_mem_cons]
      exact ⟨⟨phi, hkepts hphi, hbase⟩, hall⟩

end Block

namespace Graph

variable {g : Graph} {i j d : BlockId} {b c : Block} {phis : BlockId → List Phi}

/-- A graph with other phi nodes. -/
def withPhis (g : Graph) (phis : BlockId → List Phi) : Graph :=
  g.mapBlocks fun i b => { b with phis := phis i }

@[simp] theorem block?_withPhis (g : Graph) (phis : BlockId → List Phi) (i : BlockId) :
    (g.withPhis phis).block? i = (g.block? i).map fun b => { b with phis := phis i } :=
  block?_mapBlocks ..

/-- Without phi nodes it is enough to say that there are none. -/
theorem withPhis_nil (hnone : ∀ {i b}, g.block? i = some b → b.phis = []) :
    g.withPhis (fun _ => []) = g := by
  refine ext_block? rfl (fun i => ?_) rfl rfl
  rw [block?_withPhis]
  cases hb : g.block? i with
  | none => rfl
  | some b => rw [Option.map_some, ← hnone hb]

theorem modify_withPhis (hb : g.block? i = some b) (l : List Phi) :
    (g.withPhis phis).modify i (fun _ => { b with phis := l }) =
      g.withPhis (Function.update phis i l) := by
  refine ext_block? rfl (fun j => ?_) rfl rfl
  rw [block?_modify, block?_withPhis, block?_withPhis]
  by_cases hij : i = j
  · subst hij
    simp [hb]
  · rw [if_neg hij, Function.update_of_ne (Ne.symm hij)]

/-- A statement of a block declares a variable. -/
def Declares (g : Graph) (i : BlockId) (name : String) : Prop :=
  ∃ b, g.block? i = some b ∧ name ∈ b.declared

theorem declares_iff (hb : g.block? i = some b) {name : String} :
    g.Declares i name ↔ name ∈ b.declared := by
  constructor
  · rintro ⟨c, hc, hname⟩
    rwa [Option.some.inj (hb.symm.trans hc)]
  · exact fun hname => ⟨b, hb, hname⟩

/-- What is known about the phi nodes that were placed for the variables in `wanted`. -/
structure PhisPlaced (g : Graph) (wanted : Std.TreeSet String) (phis : BlockId → List Phi) :
    Prop where
  placeholder : ∀ {i phi}, phi ∈ phis i → phi = .placeholder phi.base
  /-- There are phi nodes in joins only. -/
  join : ∀ {i b phi}, g.block? i = some b → phi ∈ phis i → b.isJoin = true
  /-- A join has a phi node for each variable that is declared in a block on all paths to it. -/
  dominated : ∀ {d j before c name}, g.Declares d name → name ∈ wanted →
    g.StrictlyDominates d j → g.Path before j → g.block? j = some c → c.isJoin = true →
      ∃ phi ∈ phis j, phi.base = name

end Graph

namespace PlacementState

variable {g : Graph} {wanted : Std.TreeSet String} {phis : BlockId → List Phi} {j : BlockId}
  {c : Block} {s : PlacementState}

theorem enter_eq_ok (frame : PlacementFrame) (hs : s.graph = g.withPhis phis)
    (hc : g.block? j = some c) :
    enter wanted frame j s =
      .ok ⟨frame.declared.insertMany (c.declared.filter (wanted.contains ·)), c.successors⟩ s := by
  have hfind : s.graph.find j = .ok { c with phis := phis j } := by
    rw [Graph.find_eq_ok_iff, hs, Graph.block?_withPhis, hc, Option.map_some]
  unfold enter
  rw [hfind]
  rfl

/-- A block is entered when it is there. -/
theorem exists_of_enter_eq_ok {frame child : PlacementFrame} {s' : PlacementState}
    (h : enter wanted frame j s = .ok child s') :
    ∃ b, s.graph.block? j = some b ∧ child =
      ⟨frame.declared.insertMany (b.declared.filter (wanted.contains ·)), b.successors⟩ ∧
        s' = s := by
  unfold enter at h
  split at h
  · cases h
  · rename_i b hfind
    cases h
    exact ⟨b, Graph.find_eq_ok_iff.1 hfind, rfl, rfl⟩

/-- No other block than a join gets phi nodes. -/
theorem cross_of_not_isJoin (frame : PlacementFrame) (hs : s.graph = g.withPhis phis)
    (hc : g.block? j = some c) (hjoin : c.isJoin = false) : cross frame j s = s := by
  have hblock : s.graph.block? j = some { c with phis := phis j } := by
    rw [hs, Graph.block?_withPhis, hc, Option.map_some]
  have hsame : Block.isJoin { c with phis := phis j } = false := hjoin
  unfold cross
  rw [hblock]
  simp [hsame]

end PlacementState

namespace Graph

/-- What is known in the middle of a placement that has not failed. -/
structure Placing (g : Graph) (wanted : Std.TreeSet String) (r : Walk.Record PlacementFrame)
    (h : Graph) : Prop where
  entry_eq : h.entry = g.entry
  size_eq : h.size = g.size
  /-- Blocks get phi nodes for variables in `wanted`, and are otherwise as they were. -/
  kept : ∀ {i c}, h.block? i = some c → ∃ b phis, g.block? i = some b ∧
    c = { b with phis := phis } ∧ ∀ phi ∈ phis, phi ∈ b.phis ∨ phi.base ∈ wanted
  declared : ∀ {i frame}, r.frame? i = some frame → ∀ name ∈ frame.declared, name ∈ wanted

namespace Placing

variable {g h : Graph} {wanted : Std.TreeSet String} {r : Walk.Record PlacementFrame}
  {i j : BlockId} {b : Block} {frame child : PlacementFrame}

theorem enter (hp : g.Placing wanted r h) (hframe : r.frame? i = some frame)
    (hchild : ∀ name ∈ child.declared, name ∈ frame.declared ∨ name ∈ wanted) :
    g.Placing wanted (r.enter j child) h where
  entry_eq := hp.entry_eq
  size_eq := hp.size_eq
  kept := hp.kept
  declared := by
    intro k f hk
    rcases r.of_frame?_enter child hk with ⟨rfl, rfl⟩ | ⟨-, hk⟩
    · exact fun name hname => (hchild name hname).elim (hp.declared hframe name) id
    · exact hp.declared hk

theorem cross {s : PlacementState} (hp : g.Placing wanted r s.graph)
    (hframe : r.frame? i = some frame) :
    g.Placing wanted (r.cross i) (PlacementState.cross frame j s).graph := by
  unfold PlacementState.cross
  split
  · exact ⟨hp.entry_eq, hp.size_eq, hp.kept, hp.declared⟩
  · rename_i c hc
    split
    · refine ⟨hp.entry_eq, (size_modify ..).trans hp.size_eq, fun {k d} hd => ?_, hp.declared⟩
      rw [block?_modify] at hd
      split at hd
      -- The target gets phi nodes for what the frame has, which is wanted.
      · rename_i hk
        subst hk
        rw [hc] at hd
        obtain rfl := Option.some.inj hd
        obtain ⟨b, phis, hb, rfl, hphis⟩ := hp.kept hc
        obtain ⟨added, hadded, honly, -⟩ :=
          Block.exists_addPhis { b with phis := phis } frame.declared.toList
        refine ⟨b, added, hb, hadded, fun phi hphi => ?_⟩
        rcases honly phi hphi with hold | ⟨name, hname, rfl⟩
        · exact hphis phi hold
        · exact .inr (hp.declared hframe name (Std.TreeSet.mem_toList.1 hname))
      · exact hp.kept hd
    · exact ⟨hp.entry_eq, hp.size_eq, hp.kept, hp.declared⟩

/-- Placement leaves edges alone. -/
theorem successors_eq (hp : g.Placing wanted r h) : h.successors = g.successors := by
  funext i
  unfold Graph.successors
  cases hc : h.block? i with
  | some c =>
    obtain ⟨b, phis, hb, rfl, -⟩ := hp.kept hc
    rw [hb]
    rfl
  | none =>
    have hnone : g.block? i = none := by
      have hi : ¬(h.block? i).isSome = true := by simp [hc]
      rw [block?_isSome_iff, hp.size_eq, ← block?_isSome_iff] at hi
      exact Option.not_isSome_iff_eq_none.1 hi
    rw [hnone]

/-- Graphs that differ in phi nodes only have the same reachable blocks. -/
theorem reachable_eq (hp : g.Placing wanted r h) : h.reachable = g.reachable := by
  rw [reachable, reachable, preorder, preorder, hp.entry_eq, hp.size_eq, hp.successors_eq]

/-- A block has the same statements after placement. -/
theorem exists_block? (hp : g.Placing wanted r h) (hb : g.block? i = some b) :
    ∃ phis, h.block? i = some { b with phis := phis } ∧
      ∀ phi ∈ phis, phi ∈ b.phis ∨ phi.base ∈ wanted := by
  have hi : (h.block? i).isSome = true := by
    rw [block?_isSome_iff, hp.size_eq, ← block?_isSome_iff, hb, Option.isSome_some]
  obtain ⟨c, hc⟩ := Option.isSome_iff_exists.1 hi
  obtain ⟨b', phis, hb', rfl, hphis⟩ := hp.kept hc
  obtain rfl := Option.some.inj (hb.symm.trans hb')
  exact ⟨phis, hc, hphis⟩

end Placing

end Graph

/-- What is recorded of a placement. -/
theorem recorded_placementWalk (g : Graph) (wanted : Std.TreeSet String) :
    (placementWalk wanted).Recorded PlacementFrame.successors fun r s =>
      g.Placing wanted r s.graph where
  slots := fun _ _ => rfl
  cross := fun hp hframe _ => hp.cross hframe
  enter := by
    intro r s i frame j child s' hp hframe _ _ henter
    obtain ⟨b, -, rfl, rfl⟩ := PlacementState.exists_of_enter_eq_ok henter
    refine hp.enter hframe fun name hname => ?_
    simp only [Std.TreeSet.mem_insertMany_list, List.contains_iff_mem, List.mem_filter,
      Std.TreeSet.contains_iff_mem] at hname
    exact hname.imp_right And.right

/-- A placement that succeeds is a walk that succeeds. -/
theorem Edit.exists_walk_of_run_placePhis {g h : Graph} {wanted : Std.TreeSet String} {added : Nat}
    (hrun : (placePhis wanted).run g = .ok added h) :
    ∃ s, (placementWalk wanted).run g.size {} g.entry ⟨g, 0⟩ = .ok () s ∧ s.graph = h := by
  change placePhis wanted g = _ at hrun
  unfold placePhis at hrun
  split at hrun
  · cases hrun
    exact ⟨_, by assumption, rfl⟩
  · cases hrun

/-- After a placement that has succeeded, blocks have got phi nodes for variables in `wanted`, and
are otherwise as they were. -/
theorem Edit.placing_of_run_placePhis {g h : Graph} {wanted : Std.TreeSet String} {added : Nat}
    (hrun : (placePhis wanted).run g = .ok added h) : ∃ r, g.Placing wanted r h := by
  obtain ⟨s, hwalk, rfl⟩ := exists_walk_of_run_placePhis hrun
  obtain ⟨r, hp, -⟩ := (recorded_placementWalk g wanted).of_run (fun {frame s'} henter => by
    obtain ⟨b, -, rfl, rfl⟩ := PlacementState.exists_of_enter_eq_ok henter
    refine ⟨rfl, rfl, fun {i c} hc => ⟨c, c.phis, hc, rfl, fun _ => .inl⟩, fun {i f} hi => ?_⟩
    obtain ⟨-, rfl⟩ := Walk.Record.eq_of_frame?_start _ hi
    intro name hname
    simp only [Std.TreeSet.mem_insertMany_list, List.contains_iff_mem, List.mem_filter,
      Std.TreeSet.contains_iff_mem] at hname
    exact hname.elim (fun h => absurd h Std.TreeSet.not_mem_emptyc) And.right) hwalk
  exact ⟨r, hp⟩

end FlowGraph
