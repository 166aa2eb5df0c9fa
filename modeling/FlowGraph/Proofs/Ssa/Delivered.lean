import FlowGraph.Proofs.Ssa.Shape
import FlowGraph.Proofs.Traversal.Ordered
import Mathlib.Data.List.Perm.Basic

/-!
# What phi nodes receive

Each edge out of a reachable block is crossed once, and then takes the versions that are current at
the end of the block to the phi nodes of its target. These are the last definitions on the
depth-first tree, whichever blocks have been entered in the meantime. So the operands of a phi node
can be told from the edges into its block.

## Main definitions

* `Block.Delivered`: the phi nodes of a block in the middle of a renaming
* `Graph.versionAtEnd`: the version of a variable that is current at the end of a block
* `Graph.incoming`: the versions of a variable that edges take to a block
* `Graph.DeliversVersions`: what renaming makes of the phi nodes of a graph

## Main results

* `Graph.incoming_filter`: what the edges from one block take to another one
* `Edit.deliversVersions_of_closed`: phi nodes receive what edges take to them
-/

namespace FlowGraph

variable {r r' : Walk.Record RenamingFrame} {frame : RenamingFrame} {i j p : BlockId}

/-- What is known about the phi nodes of block `i` in the middle of a renaming. In a join they have
the operands that have arrived, and elsewhere none. -/
structure Block.Delivered (b c : Block) (r : Walk.Record RenamingFrame) (i : BlockId) : Prop where
  isJoin_eq : c.isJoin = b.isJoin
  join : b.isJoin = true → b.Received c (b.phis.map (·.base)) r i
  other : b.isJoin = false → ∀ phi ∈ c.phis, phi.operands = []

namespace Block.Delivered

variable {b c : Block}

theorem congr (h : b.Delivered c r i)
    (hsame : ∀ name source, arrived r' name source i = arrived r name source i) :
    b.Delivered c r' i where
  isJoin_eq := h.isJoin_eq
  join := fun hjoin => (h.join hjoin).congr hsame
  other := h.other

/-- Only a join receives the versions that arrive over an edge. -/
theorem receive (h : b.Delivered c r j) (hframe : r.frame? p = some frame)
    (hj : frame.successors[r.crossed p]? = some j) :
    b.Delivered (c.receive p frame.current) (r.cross p) j where
  isJoin_eq := by
    rw [← h.isJoin_eq, isJoin, isJoin, predecessors_receive]
  join := fun hjoin => (h.join hjoin).receive (fun _ => hjoin) hframe hj
  other := by
    intro hjoin
    rw [receive_of_not_isJoin (h.isJoin_eq.trans hjoin)]
    exact h.other hjoin

/-- Renaming a block keeps the operands of its phi nodes. -/
theorem naming (h : b.Delivered c r i) (naming : Naming) :
    b.Delivered (naming.block c).1 r i where
  isJoin_eq := h.isJoin_eq
  join := fun hjoin => (h.join hjoin).naming naming
  other := by
    intro hjoin phi hphi
    obtain ⟨old, hold, -, hoperands⟩ := naming.exists_of_mem_phis hphi
    rw [← hoperands]
    exact h.other hjoin old hold

/-- Nothing has arrived before an edge is crossed. -/
theorem refl (hnone : ∀ phi ∈ b.phis, phi.operands = []) (hr : ∀ p, r.crossed p = 0)
    (i : BlockId) : b.Delivered b r i where
  isJoin_eq := rfl
  join := by
    intro _
    refine ⟨rfl, rfl, rfl, fun phi hphi source => ?_⟩
    rw [hnone phi hphi, arrived_of_crossed_eq_zero (hr source), List.filter_nil]
  other := fun _ => hnone

end Block.Delivered

namespace Graph

variable {g g' : Graph} {b c : Block} {s : RenamingState} {name : String}

/-- What is known in the middle of a renaming of the graph `g` that has entered blocks along the
depth-first tree. -/
structure Delivering (g : Graph) (r : Walk.Record RenamingFrame) (s : RenamingState) : Prop
    extends g.OnTree r s where
  source : ∀ {i frame}, r.frame? i = some frame → frame.block = i
  delivered : ∀ {i b}, g.block? i = some b → ∃ c, s.graph.block? i = some c ∧ b.Delivered c r i

namespace Delivering

/-- The versions current at the end of a block arrive over one of its edges. -/
theorem cross (hd : g.Delivering r s) (hframe : r.frame? i = some frame)
    (hj : frame.successors[r.crossed i]? = some j) :
    g.Delivering (r.cross i) (RenamingState.cross frame j s) where
  toOnTree := hd.toOnTree.cross i frame j
  source := hd.source
  delivered := by
    intro k b hb
    obtain ⟨c, hc, hdelivered⟩ := hd.delivered hb
    rw [RenamingState.cross, block?_modify, hc, hd.source hframe]
    by_cases hk : j = k
    · subst hk
      rw [if_pos rfl]
      exact ⟨_, rfl, hdelivered.receive hframe hj⟩
    · rw [if_neg hk]
      exact ⟨c, rfl, hdelivered.congr fun name source =>
        arrived_cross_of_ne hframe hj (.inr (Ne.symm hk))⟩

/-- A new block is renamed from the versions at the end of its parent. -/
theorem enter (hd : g.Delivering r s) (hframe : r.frame? i = some frame)
    (hparent : g.parent? j = some i) (hnew : r.frame? j = none) (hcrossed : r.crossed j = 0)
    (hb : g.block? j = some b) (hc : s.graph.block? j = some c) :
    g.Delivering
      (r.enter j ⟨j, (Naming.block ⟨frame.current, s.versions⟩ c).2.current, c.successors⟩)
      ⟨s.graph.modify j fun _ => (Naming.block ⟨frame.current, s.versions⟩ c).1,
        (Naming.block ⟨frame.current, s.versions⟩ c).2.versions⟩ where
  toOnTree := hd.toOnTree.enter hframe hparent hnew hb hc
  source := by
    intro k f hk
    rcases r.of_frame?_enter _ hk with ⟨rfl, rfl⟩ | ⟨-, hk⟩
    · rfl
    · exact hd.source hk
  delivered := by
    intro k b' hb'
    obtain ⟨c', hc', hdelivered⟩ := hd.delivered hb'
    have henter := hdelivered.congr fun name source => arrived_enter name source
      ⟨j, (Naming.block ⟨frame.current, s.versions⟩ c).2.current, c.successors⟩ hnew hcrossed
    rw [block?_modify]
    by_cases hk : j = k
    · subst hk
      obtain rfl := Option.some.inj (hc.symm.trans hc')
      rw [if_pos rfl, hc]
      exact ⟨_, rfl, henter.naming _⟩
    · rw [if_neg hk]
      exact ⟨c', hc', henter⟩

/-- Renaming starts at the entry, and no version has arrived anywhere. -/
theorem start (hb : g.block? g.entry = some b) (versions : Versions)
    (hnone : ∀ {i b}, g.block? i = some b → ∀ phi ∈ b.phis, phi.operands = []) :
    g.Delivering
      (.start g.entry ⟨g.entry, (Naming.block ⟨∅, versions⟩ b).2.current, b.successors⟩)
      ⟨g.modify g.entry fun _ => (Naming.block ⟨∅, versions⟩ b).1,
        (Naming.block ⟨∅, versions⟩ b).2.versions⟩ where
  toOnTree := .start hb versions
  source := by
    intro i f hi
    obtain ⟨rfl, rfl⟩ := Walk.Record.eq_of_frame?_start _ hi
    rfl
  delivered := by
    intro k b' hb'
    have hstart := Block.Delivered.refl (r := .start g.entry
      ⟨g.entry, (Naming.block ⟨∅, versions⟩ b).2.current, b.successors⟩) (hnone hb')
      (fun _ => rfl) k
    rw [block?_modify, hb']
    by_cases hk : g.entry = k
    · subst hk
      obtain rfl := Option.some.inj (hb'.symm.trans hb)
      rw [if_pos rfl]
      exact ⟨_, rfl, hstart.naming _⟩
    · rw [if_neg hk]
      exact ⟨b', rfl, hstart⟩

end Delivering

end Graph

/-- Renaming a closed graph keeps to the depth-first tree. -/
theorem ordered_renamingWalk_delivering {g : Graph} (hg : g.Closed) :
    renamingWalk.Ordered g RenamingFrame.successors fun _ r s => g.Delivering r s where
  slots := fun _ _ => rfl
  cross := fun hd hframe hj _ => hd.cross hframe hj
  enter := by
    intro order r s i frame j hd hframe hparent hnew hcrossed _ hj
    obtain ⟨b, c, hb, hc, hsuccessors⟩ := hd.tracing.exists_blocks hg hj
    exact ⟨_, _, RenamingState.enter_eq_ok (Graph.find_eq_ok_iff.2 hc), hsuccessors,
      hd.enter hframe hparent hnew hcrossed hb hc⟩

namespace Graph

variable {g g' : Graph} {b c : Block} {name version : String}

/-- The version of a variable that is current at the end of a block of `g` that has become a block
of `g'`: the last definition on the depth-first tree. -/
def versionAtEnd (g g' : Graph) (i : BlockId) (name : String) : Option String :=
  lastDefinition name (g.definitionsAlong g' (g.treePath i ++ [i]))

/-- The versions of a variable that edges from reachable blocks take to block `j`, one for each edge
from a block at whose end there is one. -/
def incoming (g g' : Graph) (j : BlockId) (name : String) : List Phi.Operand :=
  (g.edges.filter (·.target == j)).filterMap fun edge =>
    (g.versionAtEnd g' edge.source name).map (⟨·, edge.source⟩)

/-- What the edges from one block take to another one. -/
def incomingFrom (g g' : Graph) (p j : BlockId) (name : String) : List Phi.Operand :=
  (g.versionAtEnd g' p name).elim [] fun version =>
    List.replicate ((g.successors p).count j) ⟨version, p⟩

theorem incoming_eq_flatMap (g g' : Graph) (j : BlockId) (name : String) :
    g.incoming g' j name = g.reachable.flatMap fun p => g.incomingFrom g' p j name := by
  -- Slot by slot, an edge to `j` gives one version.
  have hslots (p : BlockId) (isCondition : Bool) (targets : List BlockId) (slot : Nat) :
      (((targets.zipIdx slot).map fun target =>
        (⟨p, target.1, .ofSlot isCondition target.2⟩ : Edge)).filter (·.target == j)).filterMap
          (fun edge => (g.versionAtEnd g' edge.source name).map (⟨·, edge.source⟩)) =
        (g.versionAtEnd g' p name).elim [] fun version =>
          List.replicate (targets.count j) (⟨version, p⟩ : Phi.Operand) := by
    induction targets generalizing slot with
    | nil => cases g.versionAtEnd g' p name <;> rfl
    | cons target targets ih =>
      have hrest := ih (slot + 1)
      rw [List.zipIdx_cons, List.map_cons, List.filter_cons, List.count_cons]
      by_cases htarget : target = j
      · rw [if_pos (by simp [htarget]), if_pos (by simp [htarget]), List.filterMap_cons, hrest]
        cases g.versionAtEnd g' p name <;> rfl
      · rw [if_neg (by simp [htarget]), if_neg (by simp [htarget]), hrest, Nat.add_zero]
  rw [incoming, edges, List.filter_flatMap, List.filterMap_flatMap]
  refine List.flatMap_congr fun p _ => ?_
  rw [incomingFrom, successors]
  cases hb : g.block? p with
  | none => cases g.versionAtEnd g' p name <;> rfl
  | some b => exact hslots p b.isCondition b.successors 0

theorem predecessor_eq_of_mem_incomingFrom {operand : Phi.Operand}
    (h : operand ∈ g.incomingFrom g' p j name) : operand.predecessor = p := by
  unfold incomingFrom at h
  cases hversion : g.versionAtEnd g' p name with
  | none =>
    rw [hversion] at h
    cases h
  | some version =>
    rw [hversion, Option.elim_some] at h
    rw [List.eq_of_mem_replicate h]

/-- Of what edges take to a block, the part that comes from one reachable block. -/
theorem incoming_filter (hp : p ∈ g.reachable) :
    (g.incoming g' j name).filter (·.predecessor == p) = g.incomingFrom g' p j name := by
  obtain ⟨before, after, horder⟩ := List.append_of_mem hp
  have hnodup := g.nodup_reachable
  rw [horder] at hnodup
  have hapart := List.nodup_append.1 hnodup
  have hother {order : List BlockId} (hne : ∀ q ∈ order, q ≠ p) :
      (order.flatMap fun q => g.incomingFrom g' q j name).filter (·.predecessor == p) = [] := by
    refine List.filter_eq_nil_iff.2 fun operand hoperand => ?_
    obtain ⟨q, hq, hoperand⟩ := List.mem_flatMap.1 hoperand
    rw [predecessor_eq_of_mem_incomingFrom hoperand, beq_iff_eq]
    exact hne q hq
  rw [incoming_eq_flatMap, horder, List.flatMap_append, List.flatMap_cons, List.filter_append,
    List.filter_append, hother fun q hq => hapart.2.2 q hq p List.mem_cons_self, hother,
    List.nil_append, List.append_nil, List.filter_eq_self.2]
  · intro operand hoperand
    exact beq_iff_eq.2 (predecessor_eq_of_mem_incomingFrom hoperand)
  · intro q hq heq
    exact (List.nodup_cons.1 hapart.2.1).1 (heq ▸ hq)

theorem incoming_filter_of_not_mem (hp : p ∉ g.reachable) :
    (g.incoming g' j name).filter (·.predecessor == p) = [] := by
  refine List.filter_eq_nil_iff.2 fun operand hoperand => ?_
  rw [incoming_eq_flatMap] at hoperand
  obtain ⟨q, hq, hoperand⟩ := List.mem_flatMap.1 hoperand
  rw [predecessor_eq_of_mem_incomingFrom hoperand, beq_iff_eq]
  exact fun hqp => hp (hqp ▸ hq)

/-- The graph `g` was renamed to `g'`, and its edges have taken the versions that are current at the
ends of reachable blocks to phi nodes. -/
structure DeliversVersions (g g' : Graph) : Prop where
  shape : g.SameShape g'
  /-- A statement uses the last definitions on the depth-first tree, as edges take them along. -/
  traced : ∀ {i}, i ∈ g.reachable → g.Traced g' (g.treePath i) i
  bases : ∀ {i b c}, g.block? i = some b → g'.block? i = some c →
    c.phis.map (·.base) = b.phis.map (·.base)
  /-- In a join, a phi node has one operand for each edge that takes a version there. -/
  join : ∀ {j b c}, j ∈ g.reachable → g.block? j = some b → g'.block? j = some c →
    b.isJoin = true → ∀ phi ∈ c.phis, phi.operands.Perm (g.incoming g' j phi.base)
  /-- Elsewhere it has none. -/
  other : ∀ {j b c}, g.block? j = some b → g'.block? j = some c → b.isJoin = false →
    ∀ phi ∈ c.phis, phi.operands = []
  /-- Operands from one block are the same. -/
  unambiguous : ∀ {j c}, j ∈ g.reachable → g'.block? j = some c → ∀ phi ∈ c.phis,
    ∀ operand ∈ phi.operands, phi.operandFrom? operand.predecessor = some operand
  /-- An operand was defined for the variable in some reachable block. -/
  defined : ∀ {j c}, j ∈ g.reachable → g'.block? j = some c → ∀ phi ∈ c.phis,
    ∀ operand ∈ phi.operands, ∃ i ∈ g.reachable, (phi.base, operand.value) ∈ g.definitionsAt g' i

/-- Operands that are the same for each predecessor are the same apart from their order. -/
private theorem perm_of_filter_eq {l l' : List Phi.Operand}
    (h : ∀ p, l.filter (·.predecessor == p) = l'.filter (·.predecessor == p)) : l.Perm l' := by
  have hcount (l : List Phi.Operand) (operand : Phi.Operand) :
      (l.filter (·.predecessor == operand.predecessor)).count operand = l.count operand :=
    List.count_filter (beq_self_eq_true operand.predecessor)
  apply List.perm_iff_count.2
  intro operand
  rw [← hcount l, h, hcount]

/-- A version that is current at the end of a reachable block was defined in a reachable block. -/
theorem exists_mem_definitionsAt_of_versionAtEnd (hg : g.Closed) (hp : p ∈ g.reachable)
    (h : g.versionAtEnd g' p name = some version) :
    ∃ i ∈ g.reachable, (name, version) ∈ g.definitionsAt g' i := by
  obtain ⟨i, hi, hmem⟩ := List.mem_flatMap.1 (mem_of_lastDefinition h)
  rcases List.mem_append.1 hi with hi | hi
  · obtain ⟨shorter, path⟩ := (path_treePath hp).exists_of_mem hi
    exact ⟨i, hg.mem_reachable_of_path path, hmem⟩
  · obtain rfl := List.mem_singleton.1 hi
    exact ⟨i, hp, hmem⟩

namespace Delivering

variable {s : RenamingState} {phi : Phi} {operand : Phi.Operand}

/-- What has arrived in a block at the end of a renaming. -/
theorem arrived_eq (hd : g.Delivering r s) (hcomplete : r.Complete RenamingFrame.successors)
    (hreachable : ∀ i, i ∈ g.reachable ↔ (r.frame? i).isSome) :
    arrived r name p j = (g.incoming s.graph j name).filter (·.predecessor == p) := by
  cases hframe : r.frame? p with
  | none =>
    have hp : p ∉ g.reachable := by
      rw [hreachable, hframe]
      exact Bool.false_ne_true
    rw [incoming_filter_of_not_mem hp, arrived, hframe, Option.elim_none]
  | some frame =>
    have hp : p ∈ g.reachable := by
      rw [hreachable, hframe, Option.isSome_some]
    rw [incoming_filter hp, arrived_of_frame? hframe, (hd.entered hframe).2.2,
      hcomplete.crossed_eq hframe, List.take_length, hd.tracing.along.successors hframe]
    rfl

theorem delivered_of_block? (hd : g.Delivering r s) (hb : g.block? j = some b)
    (hc : s.graph.block? j = some c) : b.Delivered c r j := by
  obtain ⟨c', hc', hdelivered⟩ := hd.delivered hb
  obtain rfl := Option.some.inj (hc.symm.trans hc')
  exact hdelivered

/-- An operand was taken over an edge from its block, and so were all from this block. -/
theorem exists_of_mem_operands (hd : g.Delivering r s)
    (hcomplete : r.Complete RenamingFrame.successors)
    (hreachable : ∀ i, i ∈ g.reachable ↔ (r.frame? i).isSome) (hc : s.graph.block? j = some c)
    (hphi : phi ∈ c.phis) (hmem : operand ∈ phi.operands) :
    operand.predecessor ∈ g.reachable ∧
      g.versionAtEnd s.graph operand.predecessor phi.base = some operand.value ∧
      phi.operandFrom? operand.predecessor = some operand := by
  obtain ⟨b, hb, -⟩ := hd.tracing.exists_block? hc
  have hdelivered := hd.delivered_of_block? hb hc
  have hjoin : b.isJoin = true := by
    by_contra hjoin
    rw [hdelivered.other (Bool.eq_false_iff.2 hjoin) phi hphi] at hmem
    cases hmem
  have hfilter := (hdelivered.join hjoin).operands phi hphi operand.predecessor
  rw [hd.arrived_eq hcomplete hreachable] at hfilter
  have hmem' : operand ∈ phi.operands.filter (·.predecessor == operand.predecessor) :=
    List.mem_filter.2 ⟨hmem, beq_self_eq_true _⟩
  have hp : operand.predecessor ∈ g.reachable := by
    by_contra hp
    rw [hfilter, incoming_filter_of_not_mem hp] at hmem'
    cases hmem'
  rw [incoming_filter hp, incomingFrom] at hfilter
  rw [Phi.operandFrom?, ← List.head?_filter]
  rw [hfilter] at hmem' ⊢
  cases hversion : g.versionAtEnd s.graph operand.predecessor phi.base with
  | none =>
    rw [hversion] at hmem'
    cases hmem'
  | some version =>
    rw [hversion, Option.elim_some] at hmem'
    obtain ⟨hn, hsame⟩ := List.mem_replicate.1 hmem'
    refine ⟨hp, by rw [hsame], ?_⟩
    rw [Option.elim_some, List.head?_replicate, if_neg hn, ← hsame]

/-- At the end of a renaming all versions were delivered. -/
theorem deliversVersions (hg : g.Closed) (hd : g.Delivering r s)
    (hcomplete : r.Complete RenamingFrame.successors)
    (hreachable : ∀ i, i ∈ g.reachable ↔ (r.frame? i).isSome) (hshape : g.SameShape s.graph) :
    g.DeliversVersions s.graph where
  shape := hshape
  traced := by
    intro i hi
    obtain ⟨frame, hframe⟩ := Option.isSome_iff_exists.1 ((hreachable i).1 hi)
    exact (hd.entered hframe).2.1
  bases := by
    intro i b c hb hc
    obtain ⟨b', hb', houtline⟩ := hd.tracing.exists_block? hc
    obtain rfl := Option.some.inj (hb.symm.trans hb')
    exact (congrArg Prod.snd houtline).symm
  join := by
    intro j b c _ hb hc hjoin phi hphi
    apply perm_of_filter_eq
    intro p
    rw [((hd.delivered_of_block? hb hc).join hjoin).operands phi hphi,
      hd.arrived_eq hcomplete hreachable]
  other := fun hb hc => (hd.delivered_of_block? hb hc).other
  unambiguous := fun _ hc _ hphi _ hmem =>
    (hd.exists_of_mem_operands hcomplete hreachable hc hphi hmem).2.2
  defined := by
    intro j c _ hc phi hphi operand hmem
    obtain ⟨hp, hversion, -⟩ := hd.exists_of_mem_operands hcomplete hreachable hc hphi hmem
    exact exists_mem_definitionsAt_of_versionAtEnd hg hp hversion

end Delivering

end Graph

/-- Renaming a graph without dangling edges, whose phi nodes have no operands, succeeds. Then each
phi node of a reachable join has one operand for each edge that takes a version of its variable
there, and other phi nodes have none. -/
theorem Edit.deliversVersions_of_closed {g : Graph} (hg : g.Closed)
    (hnone : ∀ {i b}, g.block? i = some b → ∀ phi ∈ b.phis, phi.operands = [])
    (declared : Std.TreeSet String) :
    ∃ versions g', (rename declared).run g = .ok versions g' ∧ g.DeliversVersions g' := by
  obtain ⟨r, t, hrename, hd, hcomplete, hreachable⟩ := exists_run_rename_of_closed hg
    (ordered_renamingWalk_delivering hg) declared fun hb => .start hb (.start declared) hnone
  exact ⟨t.versions, t.graph, hrename,
    hd.deliversVersions hg hcomplete hreachable (sameShape_of_run_rename hrename)⟩

/-- A loop whose condition leads to its body either way. No edge brings a version of `y`. -/
private def spinning : Graph :=
  { blocks := #[
      { id := 0, kind := .base, successors := [1],
        statements := [.declaration "x" "int" (some (.int 0))] },
      { id := 1, kind := .condition, statements := [.ident "x"], predecessors := [0, 2],
        successors := [2, 2], phis := [.placeholder "x"] },
      { id := 2, kind := .base, predecessors := [1, 1], successors := [1],
        phis := [.placeholder "x", .placeholder "y"],
        statements := [.assignment .assign (.ident "x") (.call "next" [.ident "x"])] }]
    exit := 2 }

private theorem reachable_spinning : spinning.reachable = [0, 1, 2] := by
  cbv

private theorem closed_spinning : spinning.Closed where
  entry := by decide
  edge := by
    intro i j hi hj
    have hclosed : ∀ i ∈ [0, 1, 2], ∀ j ∈ spinning.successors i, j < spinning.size := by decide
    rw [reachable_spinning] at hi
    exact hclosed i hi j hj

private theorem operands_spinning {i : BlockId} {b : Block} (hb : spinning.block? i = some b) :
    ∀ phi ∈ b.phis, phi.operands = [] := by
  obtain ⟨hi, rfl⟩ := Array.getElem?_eq_some_iff.1 hb
  have hnone : ∀ i : Fin 3, ∀ phi ∈ spinning.blocks[i].phis, phi.operands = [] := by decide
  exact hnone ⟨i, hi⟩

theorem Edit.deliversVersions_spinning :
    spinning.Closed ∧ ∃ versions g', (rename ∅).run spinning = .ok versions g' ∧
      spinning.DeliversVersions g' :=
  ⟨closed_spinning, deliversVersions_of_closed closed_spinning operands_spinning ∅⟩

end FlowGraph
