import FlowGraph.Proofs.Graph.MapBlocks
import FlowGraph.Simplification.Absorption

/-!
# A graph after an absorption

An absorption changes three things: the absorbed block is emptied and detached, the block before it
takes over its statements and its edges, and the targets of those edges name their new source. Edges
stay mirrored. When a block absorbs itself, which only a loop of a single block can do, it is
detached and keeps the edge to itself.

## Main definitions

* `Graph.absorbed`: a graph after an absorption
* `Graph.Absorbs`: one block may absorb another

## Main results

* `Edit.run_absorb`: an absorption that is allowed succeeds
* `Graph.Absorbs.mirrored`: it keeps the edges mirrored
* `Graph.absorbable?_spec`: the successor that simplification lets a block absorb
-/

namespace FlowGraph

namespace Graph

variable {g : Graph} {id next i : BlockId} {b n c : Block}

/-- What becomes of block `i` when `id` absorbs `next`, which held what is in `n`. -/
def absorbedBlock (id next : BlockId) (n : Block) (i : BlockId) (block : Block) : Block :=
  let vacated := if next = i then block.vacate else block
  let renamed := if i ∈ n.successors then vacated.replacePredecessor next id else vacated
  if id = i then renamed.takeOver n else renamed

/-- A graph after block `id` has absorbed block `next`, which held what is in `n`. -/
def absorbed (g : Graph) (id next : BlockId) (n : Block) : Graph :=
  (g.mapBlocks (absorbedBlock id next n)).moveExit next id

/-- Block `id`, which is `b`, goes on with block `next` only, which is `n` and is entered from there
only. -/
structure Absorbs (g : Graph) (id next : BlockId) (b n : Block) : Prop where
  source : g.Live id b
  target : g.Live next n
  source_kind : b.kind = .base
  target_kind : n.kind = .base
  successors : b.successors = [next]
  predecessors : n.predecessors = [id]

@[simp] theorem block?_moveExit (g : Graph) (old new i : BlockId) :
    (g.moveExit old new).block? i = g.block? i := by
  simp [block?]

@[simp] theorem size_moveExit (g : Graph) (old new : BlockId) :
    (g.moveExit old new).size = g.size := by
  simp [size]

@[simp] theorem entry_moveExit (g : Graph) (old new : BlockId) :
    (g.moveExit old new).entry = g.entry := by
  unfold moveExit
  split <;> rfl

@[simp] theorem block?_absorbed (g : Graph) (id next : BlockId) (n : Block) (i : BlockId) :
    (g.absorbed id next n).block? i = (g.block? i).map (absorbedBlock id next n i) := by
  rw [absorbed, block?_moveExit, block?_mapBlocks]

@[simp] theorem size_absorbed (g : Graph) (id next : BlockId) (n : Block) :
    (g.absorbed id next n).size = g.size := by
  simp [absorbed]

@[simp] theorem entry_absorbed (g : Graph) (id next : BlockId) (n : Block) :
    (g.absorbed id next n).entry = g.entry := by
  rw [absorbed, entry_moveExit]
  rfl

theorem exit_absorbed (g : Graph) (id next : BlockId) (n : Block) :
    (g.absorbed id next n).exit = if g.exit = next then id else g.exit := by
  rw [absorbed, moveExit]
  split <;> simp_all [mapBlocks]

/-- The check before an absorption in full. -/
theorem checkAbsorb_eq_ok_iff :
    g.checkAbsorb id next = .ok n ↔ ∃ b, g.block? id = some b ∧ b.kind = .base ∧
      b.successors = [next] ∧ g.block? next = some n ∧ n.kind = .base ∧
        n.predecessors.length = 1 := by
  have hbase (block : Block) : ¬block.isCondition = true ↔ block.kind = .base := by
    unfold Block.isCondition
    cases block.kind <;> decide
  simp only [checkAbsorb, bind_eq_ok_iff, ite_throw_eq_ok_iff, find_eq_ok_iff, hbase,
    Decidable.not_not]
  constructor
  · rintro ⟨b, hb, hkind, hsuccessors, m, hm, hmkind, hone, ⟨⟩⟩
    exact ⟨b, hb, hkind, hsuccessors, hm, hmkind, hone⟩
  · rintro ⟨b, hb, hkind, hsuccessors, hn, hnkind, hone⟩
    exact ⟨b, hb, hkind, hsuccessors, n, hn, hnkind, hone, rfl⟩

section AbsorbedBlock

variable (id next : BlockId) (n : Block) (i : BlockId) (block : Block)

@[simp] theorem id_absorbedBlock : (absorbedBlock id next n i block).id = block.id := by
  unfold absorbedBlock
  split_ifs <;> rfl

theorem kind_absorbedBlock : (absorbedBlock id next n i block).kind = block.kind := by
  unfold absorbedBlock
  split_ifs <;> rfl

@[simp] theorem isDetached_absorbedBlock :
    (absorbedBlock id next n i block).isDetached = (decide (next = i) || block.isDetached) := by
  unfold absorbedBlock
  split_ifs with hnext <;> simp [hnext] <;> rfl

variable {id next n i}

theorem successors_absorbedBlock (hi : i ≠ next) :
    (absorbedBlock id next n i block).successors =
      if id = i then n.successors else block.successors := by
  unfold absorbedBlock
  rw [if_neg hi.symm]
  split_ifs <;> rfl

theorem statements_absorbedBlock (hi : i ≠ next) (block : Block) :
    (absorbedBlock id next n i block).statements =
      if id = i then block.statements ++ n.statements else block.statements := by
  unfold absorbedBlock
  rw [if_neg hi.symm]
  split_ifs <;> rfl

theorem isFinal_absorbedBlock (hi : i ≠ next) (block : Block) :
    (absorbedBlock id next n i block).isFinal = if id = i then n.isFinal else block.isFinal := by
  unfold absorbedBlock
  rw [if_neg hi.symm]
  split_ifs <;> rfl

theorem predecessors_absorbedBlock (hi : i ≠ next) :
    (absorbedBlock id next n i block).predecessors =
      if i ∈ n.successors then (block.replacePredecessor next id).predecessors
      else block.predecessors := by
  unfold absorbedBlock
  rw [if_neg hi.symm]
  split_ifs <;> rfl

end AbsorbedBlock

theorem live_absorbed_iff :
    (g.absorbed id next n).Live i c ↔
      ∃ block, g.Live i block ∧ i ≠ next ∧ absorbedBlock id next n i block = c := by
  rw [Live, block?_absorbed, Option.map_eq_some_iff]
  constructor
  · rintro ⟨⟨block, hblock, rfl⟩, hlive⟩
    simp only [isDetached_absorbedBlock, Bool.or_eq_false_iff, decide_eq_false_iff_not] at hlive
    exact ⟨block, ⟨hblock, hlive.2⟩, Ne.symm hlive.1, rfl⟩
  · rintro ⟨block, ⟨hblock, hlive⟩, hne, rfl⟩
    exact ⟨⟨block, hblock, rfl⟩, by simp [hne.symm, hlive]⟩

theorem Numbered.absorbed (hn : g.Numbered) (id next : BlockId) (n : Block) :
    (g.absorbed id next n).Numbered := by
  intro i block hblock
  rw [block?_absorbed, Option.map_eq_some_iff] at hblock
  obtain ⟨block, hblock, rfl⟩ := hblock
  rw [id_absorbedBlock, hn hblock]

/-- For a live block of a mirrored graph the check before an absorption sees all that matters. -/
theorem Mirrored.absorbs_of_live (hg : g.Mirrored) (hid : g.Live id b)
    (hcheck : g.checkAbsorb id next = .ok n) : g.Absorbs id next b n := by
  obtain ⟨b', hb', hbase, hsuccessors, hn, hnbase, hone⟩ := checkAbsorb_eq_ok_iff.1 hcheck
  obtain rfl := Option.some.inj (hid.1.symm.trans hb')
  have hedge : next ∈ b.successors := by
    rw [hsuccessors]
    exact List.mem_cons_self
  obtain ⟨n', hnext, hmem⟩ := hg.exists_successor hid hedge
  obtain rfl := Option.some.inj (hnext.1.symm.trans hn)
  refine ⟨hid, hnext, hbase, hnbase, hsuccessors, ?_⟩
  obtain ⟨p, hp⟩ := List.length_eq_one_iff.1 hone
  rw [hp, List.mem_singleton] at hmem
  rw [hp, hmem]

/-- No detached block passes the check before an absorption if those are apart. -/
theorem Mirrored.absorbs_of_checkAbsorb (hg : g.Mirrored) (ha : g.Apart)
    (hcheck : g.checkAbsorb id next = .ok n) : ∃ b, g.Absorbs id next b n := by
  obtain ⟨b, hb, -, hsuccessors, hn, -, hone⟩ := checkAbsorb_eq_ok_iff.1 hcheck
  refine ⟨b, hg.absorbs_of_live ⟨hb, Bool.eq_false_iff.2 fun hdetached => ?_⟩ hcheck⟩
  -- A detached block would go on with itself, and the absorbed one has a predecessor entry.
  obtain rfl := (ha hb hdetached).2 next (by rw [hsuccessors]; exact List.mem_cons_self)
  obtain rfl := Option.some.inj (hb.symm.trans hn)
  rw [(ha hb hdetached).1] at hone
  cases hone

namespace Absorbs

/-- Only the block before it leads to the absorbed block. -/
theorem eq_of_mem_successors (h : g.Absorbs id next b n) (hg : g.Mirrored) (hc : g.Live i c)
    (hnext : next ∈ c.successors) : i = id := by
  rw [← hg.mem_predecessors_iff hc h.target, h.predecessors] at hnext
  exact List.mem_singleton.1 hnext

/-- A block that absorbs another one does not lead back to that one. -/
theorem ne_of_mem_successors (h : g.Absorbs id next b n) (hi : i ≠ next)
    (hmem : i ∈ n.successors) : id ≠ next := by
  rintro rfl
  rw [← h.source.eq h.target, h.successors, List.mem_singleton] at hmem
  exact hi hmem

/-- How often a block other than the absorbed one enters a block after an absorption. -/
theorem count_predecessors (h : g.Absorbs id next b n) (hg : g.Mirrored) {j : BlockId}
    (hc : g.Live i c) (hi : i ≠ next) (hj : j ≠ next) :
    (absorbedBlock id next n i c).predecessors.count j =
      if j = id then n.successors.count i else c.predecessors.count j := by
  have hid : c.predecessors.count id = 0 := by
    rw [← hg.count_eq h.source hc, h.successors, List.count_eq_zero, List.mem_singleton]
    exact hi
  rw [predecessors_absorbedBlock _ hi]
  -- The entries of a successor of the absorbed block are renamed, all others are as before.
  by_cases hmem : i ∈ n.successors
  · have hne := h.ne_of_mem_successors hi hmem
    rw [if_pos hmem, Block.replacePredecessor, count_map_replace hne.symm hj,
      ← hg.count_eq h.target hc]
    by_cases hjid : j = id
    · rw [if_pos hjid, if_pos hjid, hjid, hid, Nat.zero_add]
    · rw [if_neg hjid, if_neg hjid, Nat.add_zero]
  · rw [if_neg hmem]
    by_cases hjid : j = id
    · rw [if_pos hjid, hjid, hid, List.count_eq_zero.2 hmem]
    · rw [if_neg hjid]

theorem mirrored (h : g.Absorbs id next b n) (hg : g.Mirrored) :
    (g.absorbed id next n).Mirrored where
  successor_live := by
    intro i c' j hc' hj
    obtain ⟨c, hc, hi, rfl⟩ := live_absorbed_iff.1 hc'
    rw [successors_absorbedBlock _ hi] at hj
    -- No edge leads to the absorbed block any more: only its old predecessor had one.
    have hlive : (∃ c, g.Live j c) ∧ j ≠ next := by
      split at hj
      · rename_i hid
        refine ⟨hg.successor_live h.target hj, ?_⟩
        rintro rfl
        exact hi (hid ▸ (h.eq_of_mem_successors hg h.target hj).symm)
      · rename_i hid
        refine ⟨hg.successor_live hc hj, ?_⟩
        rintro rfl
        exact hid (h.eq_of_mem_successors hg hc hj).symm
    obtain ⟨⟨d, hd⟩, hne⟩ := hlive
    exact ⟨_, live_absorbed_iff.2 ⟨d, hd, hne, rfl⟩⟩
  predecessor_live := by
    intro i c' j hc' hj
    obtain ⟨c, hc, hi, rfl⟩ := live_absorbed_iff.1 hc'
    rw [predecessors_absorbedBlock _ hi] at hj
    have hlive : (∃ c, g.Live j c) ∧ j ≠ next := by
      -- Entries for the absorbed block are found at its successors, where they were renamed.
      split at hj
      · rename_i hmem
        obtain ⟨p, hp, rfl⟩ := List.mem_map.1 hj
        split
        · exact ⟨⟨b, h.source⟩, h.ne_of_mem_successors hi hmem⟩
        · rename_i hpnext
          exact ⟨hg.predecessor_live hc hp, by simpa using hpnext⟩
      · rename_i hmem
        refine ⟨hg.predecessor_live hc hj, ?_⟩
        rintro rfl
        exact hmem ((hg.mem_predecessors_iff h.target hc).1 hj)
    obtain ⟨⟨d, hd⟩, hne⟩ := hlive
    exact ⟨_, live_absorbed_iff.2 ⟨d, hd, hne, rfl⟩⟩
  count_eq := by
    intro i c' j d' hc' hd'
    obtain ⟨c, hc, hi, rfl⟩ := live_absorbed_iff.1 hc'
    obtain ⟨d, hd, hj, rfl⟩ := live_absorbed_iff.1 hd'
    rw [h.count_predecessors hg hd hj hi, successors_absorbedBlock _ hi]
    by_cases hid : id = i
    · rw [if_pos hid, if_pos hid.symm]
    · rw [if_neg hid, if_neg (Ne.symm hid), hg.count_eq hc hd]

theorem checkAbsorb (h : g.Absorbs id next b n) : g.checkAbsorb id next = .ok n :=
  checkAbsorb_eq_ok_iff.2 ⟨b, h.source.1, h.source_kind, h.successors, h.target.1, h.target_kind,
    by rw [h.predecessors]; rfl⟩

/-- Detached blocks stay apart. -/
theorem apart (h : g.Absorbs id next b n) (hg : g.Mirrored) (ha : g.Apart) :
    (g.absorbed id next n).Apart := by
  intro i c' hc' hdetached
  rw [block?_absorbed, Option.map_eq_some_iff] at hc'
  obtain ⟨c, hc, rfl⟩ := hc'
  by_cases hi : i = next
  · subst hi
    -- The absorbed block may be the one that absorbs it, which then goes on with itself.
    by_cases hid : id = i
    · subst hid
      have hself : n.successors = [id] := by rw [← h.source.eq h.target, h.successors]
      simp [absorbedBlock, hself, Block.takeOver, Block.replacePredecessor, Block.vacate,
        Block.detach]
    · have hloop : i ∉ n.successors := fun hloop =>
        hid (h.eq_of_mem_successors hg h.target hloop).symm
      simp [absorbedBlock, hid, hloop, Block.vacate, Block.detach]
  · rw [isDetached_absorbedBlock, decide_eq_false (Ne.symm hi), Bool.false_or] at hdetached
    obtain ⟨hpredecessors, hsuccessors⟩ := ha hc hdetached
    have hid : id ≠ i := by
      rintro rfl
      rw [Option.some.inj (hc.symm.trans h.source.1), h.source.2] at hdetached
      cases hdetached
    rw [predecessors_absorbedBlock _ hi, successors_absorbedBlock _ hi, if_neg hid]
    refine ⟨?_, hsuccessors⟩
    split <;> simp [Block.replacePredecessor, hpredecessors]

end Absorbs

/-- Simplification lets a block that is entered once at most absorb its successor, unless that is
the entry. -/
theorem Absorbs.absorbable?_eq (h : g.Absorbs id next b n) (hne : id ≠ next)
    (hinner : g.entry ≠ next) (hnarrow : b.predecessors.length ≤ 1) :
    g.absorbable? id = .ok (some next) := by
  have htarget : b.absorbTarget? = some next :=
    Block.absorbTarget?_eq_some_iff.2 ⟨h.source_kind, h.source.2, hnarrow, h.successors⟩
  have hmay : g.mayAbsorb id next n = true := by
    simp [mayAbsorb, Block.isCondition, hne.symm, hinner.symm, h.target.2, h.target_kind,
      h.predecessors]
  simp [absorbable?, find_eq_ok_iff.2 h.source.1, htarget, find_eq_ok_iff.2 h.target.1, hmay, bind,
    Except.bind, pure, Except.pure]

/-- What simplification finds to absorb for a block that is live or leads to itself at most. -/
theorem Mirrored.absorbable?_spec (hg : g.Mirrored) (hb : g.block? id = some b) :
    g.absorbable? id = .ok none ∨ ∃ next n, g.absorbable? id = .ok (some next) ∧
      g.Absorbs id next b n ∧ id ≠ next ∧ g.entry ≠ next ∧ b.predecessors.length ≤ 1 := by
  have hfind : g.find id = .ok b := find_eq_ok_iff.2 hb
  cases htarget : b.absorbTarget? with
  | none =>
    left
    simp [absorbable?, hfind, htarget, bind, Except.bind, pure, Except.pure]
  | some next =>
    obtain ⟨hbase, hlive, hnarrow, hsuccessors⟩ := Block.absorbTarget?_eq_some_iff.1 htarget
    have hid : g.Live id b := ⟨hb, hlive⟩
    obtain ⟨n, hn, -⟩ := hg.exists_successor hid (j := next) (by simp [hsuccessors])
    have hfind' : g.find next = .ok n := find_eq_ok_iff.2 hn.1
    have hsearch : g.absorbable? id =
        .ok (if g.mayAbsorb id next n then some next else none) := by
      simp [absorbable?, hfind, htarget, hfind', bind, Except.bind, pure, Except.pure]
    by_cases hmay : g.mayAbsorb id next n = true
    · right
      have hmay' := hmay
      simp only [mayAbsorb, Block.isCondition, Bool.and_eq_true, bne_iff_ne, ne_eq,
        Bool.not_eq_true', beq_eq_false_iff_ne, beq_iff_eq] at hmay'
      obtain ⟨⟨⟨⟨hne, hentry⟩, hkind⟩, -⟩, hpredecessors⟩ := hmay'
      refine ⟨next, n, by rw [hsearch, if_pos hmay], ⟨hid, hn, hbase, ?_, hsuccessors,
        hpredecessors⟩, Ne.symm hne, Ne.symm hentry, hnarrow⟩
      cases hk : n.kind with
      | base => rfl
      | condition => exact absurd hk hkind
    · left
      rw [hsearch, if_neg hmay]

end Graph

namespace Edit

variable {g : Graph} {id next : BlockId} {b n : Block}

private theorem replacePredecessor_idem (old new : BlockId) (block : Block) :
    (block.replacePredecessor old new).replacePredecessor old new =
      block.replacePredecessor old new := by
  simp only [Block.replacePredecessor, List.map_map, Block.mk.injEq, true_and, and_true]
  refine List.map_congr_left fun p _ => ?_
  by_cases hp : p = old <;> simp [hp]

/-- An absorption that is allowed succeeds. -/
theorem run_absorb (hg : g.Mirrored) (h : g.Absorbs id next b n) :
    (absorb id next).run g = .ok () (g.absorbed id next n) := by
  have hsuccessors : ∀ j ∈ n.successors, j < g.size := by
    intro j hj
    obtain ⟨c, hc⟩ := hg.successor_live h.target hj
    exact hc.lt_size
  rw [absorb, run_bind_of_run_eq_ok (run_ask_of_eq_ok h.checkAbsorb),
    run_bind_of_run_eq_ok (run_update_of_lt h.target.lt_size),
    run_bind_of_run_eq_ok (run_forM_update (replacePredecessor_idem next id) (by simpa)),
    run_bind_of_run_eq_ok (run_update_of_lt (by simpa using h.source.lt_size)),
    Graph.mapBlocks_mapBlocks, Graph.mapBlocks_mapBlocks]
  rfl

theorem run_absorb_of_checkAbsorb_eq_error {e : Error} (h : g.checkAbsorb id next = .error e) :
    (absorb id next).run g = .error e g := by
  rw [absorb, EStateM.run_bind, run_ask_of_eq_error h]

end Edit

end FlowGraph
