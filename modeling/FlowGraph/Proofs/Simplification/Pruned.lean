import FlowGraph.Proofs.Graph.Reachability
import FlowGraph.Proofs.Simplification.Absorbed
import FlowGraph.Simplification.Prune

/-!
# A graph after pruning

Pruning keeps the live blocks that the entry leads to, with all their edges among each other. Since
the edges out of such a block lead to such blocks again, only edges of detached blocks are lost.

## Main definitions

* `Graph.pruned`: a graph after pruning

## Main results

* `Edit.run_prune`: pruning succeeds
* `Graph.Mirrored.pruned`: it keeps the edges mirrored
* `Graph.live_pruned_iff`: the live blocks after pruning
-/

namespace FlowGraph

namespace Graph

variable {g : Graph} {i j : BlockId} {b c : Block}

/-- What becomes of block `i` when the blocks `dead` lose their edges. -/
def severedBlock (g : Graph) (dead : List BlockId) (i : BlockId) (block : Block) : Block :=
  { block with
    predecessors := block.predecessors.filter fun p =>
      !(dead.contains p && (g.successors p).contains i) }

/-- A block that no edge of `dead` enters stays as it is. -/
theorem severedBlock_eq_self {dead : List BlockId} (h : ∀ p ∈ dead, i ∉ g.successors p) :
    g.severedBlock dead i b = b := by
  have hall : (b.predecessors.filter fun p =>
      !(dead.contains p && (g.successors p).contains i)) = b.predecessors := by
    refine List.filter_eq_self.2 fun p _ => ?_
    by_cases hp : p ∈ dead <;> simp [hp, h p]
  rw [severedBlock, hall]

/-- What becomes of block `i` when the blocks `dead` are taken out. -/
def prunedBlock (g : Graph) (dead : List BlockId) (i : BlockId) (block : Block) : Block :=
  if i ∈ dead then (g.severedBlock dead i block).detach else g.severedBlock dead i block

/-- A graph after pruning. -/
def pruned (g : Graph) : Graph :=
  g.mapBlocks (g.prunedBlock g.unreachable)

@[simp] theorem block?_pruned (g : Graph) (i : BlockId) :
    g.pruned.block? i = (g.block? i).map (g.prunedBlock g.unreachable i) :=
  block?_mapBlocks g _ i

@[simp] theorem size_pruned (g : Graph) : g.pruned.size = g.size :=
  size_mapBlocks g _

@[simp] theorem id_prunedBlock (g : Graph) (dead : List BlockId) (i : BlockId) (block : Block) :
    (g.prunedBlock dead i block).id = block.id := by
  unfold prunedBlock
  split <;> rfl

@[simp] theorem isDetached_prunedBlock (g : Graph) (dead : List BlockId) (i : BlockId)
    (block : Block) :
    (g.prunedBlock dead i block).isDetached = (decide (i ∈ dead) || block.isDetached) := by
  unfold prunedBlock
  split_ifs with hi <;> simp [hi, Block.detach, severedBlock]

theorem Numbered.pruned (hn : g.Numbered) : g.pruned.Numbered :=
  hn.mapBlocks fun i block => id_prunedBlock g g.unreachable i block

theorem mem_unreachable_iff (hn : g.Numbered) :
    i ∈ g.unreachable ↔ (∃ b, g.Live i b) ∧ i ∉ g.reachable := by
  simp only [unreachable, List.mem_filter, List.mem_map, mem_live_iff, Bool.not_eq_true',
    List.contains_eq_mem, decide_eq_false_iff_not]
  refine and_congr_left fun _ => ?_
  constructor
  · rintro ⟨b, ⟨j, hb⟩, rfl⟩
    exact ⟨b, by rwa [hn hb.1]⟩
  · rintro ⟨b, hb⟩
    exact ⟨b, ⟨i, hb⟩, hn hb.1⟩

/-- The live blocks after pruning are those that were reached. -/
theorem live_pruned_iff (hn : g.Numbered) :
    g.pruned.Live i c ↔
      ∃ block, g.Live i block ∧ i ∈ g.reachable ∧ g.severedBlock g.unreachable i block = c := by
  rw [Live, block?_pruned, Option.map_eq_some_iff]
  constructor
  · rintro ⟨⟨block, hblock, rfl⟩, hlive⟩
    simp only [isDetached_prunedBlock, Bool.or_eq_false_iff, decide_eq_false_iff_not] at hlive
    have hreached : i ∈ g.reachable := by
      refine Decidable.by_contra fun hi => hlive.1 ?_
      exact (mem_unreachable_iff hn).2 ⟨⟨block, hblock, hlive.2⟩, hi⟩
    exact ⟨block, ⟨hblock, hlive.2⟩, hreached, by rw [prunedBlock, if_neg hlive.1]⟩
  · rintro ⟨block, ⟨hblock, hlive⟩, hreached, rfl⟩
    have hi : i ∉ g.unreachable := fun hi => ((mem_unreachable_iff hn).1 hi).2 hreached
    exact ⟨⟨block, hblock, by rw [prunedBlock, if_neg hi]⟩, hlive⟩

/-- The edges of a reachable block lead to reachable blocks. -/
theorem Mirrored.mem_reachable (hg : g.Mirrored) (hb : g.Live i b) (hi : i ∈ g.reachable)
    (hj : j ∈ b.successors) : j ∈ g.reachable := by
  obtain ⟨c, hc⟩ := hg.successor_live hb hj
  exact mem_reachable_of_mem_successors hi (by rwa [hb.successors]) hc.lt_size

theorem Mirrored.pruned (hg : g.Mirrored) (hn : g.Numbered) : g.pruned.Mirrored where
  successor_live := by
    intro i c j hc hj
    obtain ⟨b, hb, hi, rfl⟩ := (live_pruned_iff hn).1 hc
    obtain ⟨d, hd⟩ := hg.successor_live hb hj
    exact ⟨_, (live_pruned_iff hn).2 ⟨d, hd, hg.mem_reachable hb hi hj, rfl⟩⟩
  predecessor_live := by
    intro i c j hc hj
    obtain ⟨b, hb, hi, rfl⟩ := (live_pruned_iff hn).1 hc
    obtain ⟨hmem, hkept⟩ := List.mem_filter.1 hj
    obtain ⟨d, hd, hedge⟩ := hg.exists_predecessor hb hmem
    -- The entries of unreachable blocks were dropped, so the entry names a reachable one.
    have hreached : j ∈ g.reachable := by
      refine Decidable.by_contra fun hnot => ?_
      have hdead := (mem_unreachable_iff hn).2 ⟨⟨d, hd⟩, hnot⟩
      simp [hdead, hd.successors, hedge] at hkept
    exact ⟨_, (live_pruned_iff hn).2 ⟨d, hd, hreached, rfl⟩⟩
  count_eq := by
    intro i c j d hc hd
    obtain ⟨b, hb, hi, rfl⟩ := (live_pruned_iff hn).1 hc
    obtain ⟨b', hb', hj, rfl⟩ := (live_pruned_iff hn).1 hd
    have hlive : i ∉ g.unreachable := fun hdead => ((mem_unreachable_iff hn).1 hdead).2 hi
    -- No entry of a reachable block is dropped.
    have hkept : (g.severedBlock g.unreachable j b').predecessors.count i =
        b'.predecessors.count i :=
      List.count_filter (by simp [hlive])
    rw [hkept, ← hg.count_eq hb hb']
    rfl

theorem Apart.pruned (ha : g.Apart) : g.pruned.Apart := by
  intro i c hc hdetached
  rw [block?_pruned, Option.map_eq_some_iff] at hc
  obtain ⟨b, hb, rfl⟩ := hc
  by_cases hi : i ∈ g.unreachable
  · simp [prunedBlock, hi, Block.detach]
  · rw [isDetached_prunedBlock, decide_eq_false hi, Bool.false_or] at hdetached
    obtain ⟨hpredecessors, hsuccessors⟩ := ha hb hdetached
    rw [prunedBlock, if_neg hi]
    exact ⟨by simp [severedBlock, hpredecessors], hsuccessors⟩

end Graph

namespace Edit

variable {g : Graph}

theorem run_dropOutgoing {id : BlockId} (hid : id < g.size)
    (hsuccessors : ∀ j ∈ g.successors id, j < g.size) :
    (dropOutgoing id).run g = .ok () (g.mapBlocks (g.severedBlock [id])) := by
  obtain ⟨b, hb⟩ := Option.isSome_iff_exists.1 (Graph.block?_isSome_iff.2 hid)
  have hblock : (block id).run g = .ok b g := run_block_eq_ok_iff.2 ⟨hb, rfl⟩
  have hout : g.successors id = b.successors := by rw [Graph.successors, hb, Option.elim_some]
  -- Parallel edges drop the same entries twice.
  have hidem (block : Block) :
      (block.dropPredecessor id).dropPredecessor id = block.dropPredecessor id := by
    simp [Block.dropPredecessor]
  rw [dropOutgoing, run_bind_of_run_eq_ok hblock, run_forM_update hidem (by rwa [← hout])]
  congr 2
  funext i block
  rw [← hout]
  split
  · rename_i hi
    rw [Graph.severedBlock, Block.dropPredecessor, Block.mk.injEq]
    refine ⟨rfl, rfl, rfl, List.filter_congr fun p _ => ?_, rfl, rfl, rfl, rfl, rfl, rfl⟩
    by_cases hp : p = id <;> simp [hp, hi]
  · rename_i hi
    exact (Graph.severedBlock_eq_self (by simpa using hi)).symm

theorem run_forM_dropOutgoing {dead : List BlockId}
    (hdead : ∀ id ∈ dead, id < g.size ∧ ∀ j ∈ g.successors id, j < g.size) :
    (dead.forM dropOutgoing).run g = .ok () (g.mapBlocks (g.severedBlock dead)) := by
  -- Dropping entries keeps successors, so the next block finds its own unchanged.
  induction dead generalizing g with
  | nil =>
    have hsame : g.mapBlocks (g.severedBlock []) = g :=
      Graph.ext_block? rfl (fun i => by
        cases hi : g.block? i <;> simp [hi, Graph.severedBlock_eq_self]) rfl rfl
    rw [hsame]
    rfl
  | cons id dead ih =>
    obtain ⟨hid, hdead⟩ := List.forall_mem_cons.1 hdead
    have hkeep := Graph.successors_mapBlocks (g := g) (f := g.severedBlock [id]) fun _ _ => rfl
    rw [List.forM, run_bind_of_run_eq_ok (run_dropOutgoing hid.1 hid.2),
      ih (by simpa [hkeep] using hdead), Graph.mapBlocks_mapBlocks]
    congr 2
    funext i block
    rw [Graph.severedBlock, Graph.severedBlock, Graph.severedBlock, Block.mk.injEq]
    refine ⟨rfl, rfl, rfl, ?_, rfl, rfl, rfl, rfl, rfl, rfl⟩
    simp only [hkeep, List.filter_filter]
    refine List.filter_congr fun p _ => ?_
    by_cases hp : p = id <;> by_cases hi : i ∈ g.successors p <;> simp_all

/-- Pruning succeeds. -/
theorem run_prune (hg : g.Mirrored) (hn : g.Numbered) :
    prune.run g = .ok g.unreachable.length g.pruned := by
  have hdead : ∀ id ∈ g.unreachable, id < g.size ∧ ∀ j ∈ g.successors id, j < g.size := by
    intro id hid
    obtain ⟨⟨b, hb⟩, -⟩ := (Graph.mem_unreachable_iff hn).1 hid
    refine ⟨hb.lt_size, fun j hj => ?_⟩
    obtain ⟨c, hc⟩ := hg.successor_live hb (hb.successors ▸ hj)
    exact hc.lt_size
  rw [prune, run_bind_of_run_eq_ok (EStateM.run_get g),
    run_bind_of_run_eq_ok (run_forM_dropOutgoing hdead),
    run_bind_of_run_eq_ok (run_forM_update (f := (·.detach)) (fun _ => rfl) fun id hid => by
      simpa using (hdead id hid).1), Graph.mapBlocks_mapBlocks]
  rfl

end Edit

end FlowGraph
