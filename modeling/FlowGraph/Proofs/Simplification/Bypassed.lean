import FlowGraph.Proofs.Simplification.Absorbed
import FlowGraph.Simplification.Bypass
import Mathlib.Logic.Function.Iterate

/-!
# A graph after a bypass

A bypass detaches an empty block and lets every edge into it lead to the block behind it. The edges
are moved one at a time, each by rewriting the first slot that still holds the empty block; since
edges are mirrored, there are as many turns for a source as it has such slots, so all of them are
rewritten in the end.

## Main definitions

* `Graph.bypassed`: a graph after a bypass
* `Graph.Bypasses`: an empty block may be bypassed

## Main results

* `Edit.run_bypass`: a bypass that is allowed succeeds
* `Graph.Bypasses.mirrored`: it keeps the edges mirrored
* `Graph.bypassable?_spec`: the successor that simplification bypasses
-/

namespace FlowGraph

namespace Graph

variable {g : Graph} {id target i : BlockId} {b c : Block} {sources : List BlockId}

/-- What becomes of block `i` when the edges from `sources` to `id` lead to `target` instead. -/
def bypassedBlock (id target : BlockId) (sources : List BlockId) (i : BlockId) (block : Block) :
    Block :=
  if id = i then block.detach
  else
    { block with
      successors :=
        if i ∈ sources then block.successors.map fun j => if j == id then target else j
        else block.successors
      predecessors :=
        if target = i then (block.dropPredecessor id).predecessors ++ sources
        else block.predecessors }

/-- A graph after block `id`, to which there are edges from `sources`, was bypassed. -/
def bypassed (g : Graph) (id target : BlockId) (sources : List BlockId) : Graph :=
  (g.mapBlocks (bypassedBlock id target sources)).moveExit id target

/-- Block `id`, which is `b`, is empty and goes on with another block only. -/
structure Bypasses (g : Graph) (id target : BlockId) (b : Block) : Prop where
  source : g.Live id b
  kind : b.kind = .base
  statements : b.statements = []
  successors : b.successors = [target]
  ne : target ≠ id

@[simp] theorem block?_bypassed (g : Graph) (id target : BlockId) (sources : List BlockId)
    (i : BlockId) :
    (g.bypassed id target sources).block? i =
      (g.block? i).map (bypassedBlock id target sources i) := by
  rw [bypassed, block?_moveExit, block?_mapBlocks]

@[simp] theorem size_bypassed (g : Graph) (id target : BlockId) (sources : List BlockId) :
    (g.bypassed id target sources).size = g.size := by
  simp [bypassed]

@[simp] theorem entry_bypassed (g : Graph) (id target : BlockId) (sources : List BlockId) :
    (g.bypassed id target sources).entry = g.entry := by
  rw [bypassed, entry_moveExit]
  rfl

theorem exit_bypassed (g : Graph) (id target : BlockId) (sources : List BlockId) :
    (g.bypassed id target sources).exit = if g.exit = id then target else g.exit := by
  rw [bypassed, moveExit]
  split <;> simp_all [mapBlocks]

section BypassedBlock

variable (id target : BlockId) (sources : List BlockId) (i : BlockId) (block : Block)

@[simp] theorem id_bypassedBlock : (bypassedBlock id target sources i block).id = block.id := by
  unfold bypassedBlock
  split <;> rfl

@[simp] theorem isDetached_bypassedBlock :
    (bypassedBlock id target sources i block).isDetached =
      (decide (id = i) || block.isDetached) := by
  unfold bypassedBlock
  split_ifs with hid <;> simp [hid, Block.detach]

variable {id i}

theorem successors_bypassedBlock (hi : i ≠ id) :
    (bypassedBlock id target sources i block).successors =
      if i ∈ sources then block.successors.map fun j => if j == id then target else j
      else block.successors := by
  rw [bypassedBlock, if_neg hi.symm]

theorem predecessors_bypassedBlock (hi : i ≠ id) :
    (bypassedBlock id target sources i block).predecessors =
      if target = i then (block.dropPredecessor id).predecessors ++ sources
      else block.predecessors := by
  rw [bypassedBlock, if_neg hi.symm]

end BypassedBlock

theorem live_bypassed_iff :
    (g.bypassed id target sources).Live i c ↔
      ∃ block, g.Live i block ∧ i ≠ id ∧ bypassedBlock id target sources i block = c := by
  rw [Live, block?_bypassed, Option.map_eq_some_iff]
  constructor
  · rintro ⟨⟨block, hblock, rfl⟩, hlive⟩
    simp only [isDetached_bypassedBlock, Bool.or_eq_false_iff, decide_eq_false_iff_not] at hlive
    exact ⟨block, ⟨hblock, hlive.2⟩, Ne.symm hlive.1, rfl⟩
  · rintro ⟨block, ⟨hblock, hlive⟩, hne, rfl⟩
    exact ⟨⟨block, hblock, rfl⟩, by simp [hne.symm, hlive]⟩

theorem Numbered.bypassed (hn : g.Numbered) (id target : BlockId) (sources : List BlockId) :
    (g.bypassed id target sources).Numbered := by
  intro i block hblock
  rw [block?_bypassed, Option.map_eq_some_iff] at hblock
  obtain ⟨block, hblock, rfl⟩ := hblock
  rw [id_bypassedBlock, hn hblock]

namespace Bypasses

/-- The bypassed block does not lead to itself. -/
theorem not_mem_predecessors (h : g.Bypasses id target b) (hg : g.Mirrored) :
    id ∉ b.predecessors := by
  rw [hg.mem_predecessors_iff h.source h.source, h.successors, List.mem_singleton]
  exact h.ne.symm

/-- The bypassed block leads to its target only. -/
theorem eq_of_mem_predecessors (h : g.Bypasses id target b) (hg : g.Mirrored) (hc : g.Live i c)
    (hmem : id ∈ c.predecessors) : i = target := by
  rw [hg.mem_predecessors_iff h.source hc, h.successors] at hmem
  exact List.mem_singleton.1 hmem

/-- The slots of a live block after a bypass. -/
theorem successors_eq (h : g.Bypasses id target b) (hg : g.Mirrored) (hc : g.Live i c)
    (hi : i ≠ id) :
    (bypassedBlock id target b.predecessors i c).successors =
      c.successors.map fun j => if j == id then target else j := by
  rw [successors_bypassedBlock _ _ _ hi]
  split
  · rfl
  · rename_i hmem
    have hid : id ∉ c.successors := fun hid => hmem ((hg.mem_predecessors_iff hc h.source).2 hid)
    have hsame : c.successors.map (fun j => if j == id then target else j) =
        c.successors.map fun j => j := by
      refine List.map_congr_left fun j hj => ?_
      rw [if_neg]
      rintro heq
      exact hid (beq_iff_eq.1 heq ▸ hj)
    rw [hsame, List.map_id']

theorem mirrored (h : g.Bypasses id target b) (hg : g.Mirrored) :
    (g.bypassed id target b.predecessors).Mirrored where
  successor_live := by
    intro i c' j hc' hj
    obtain ⟨c, hc, hi, rfl⟩ := live_bypassed_iff.1 hc'
    rw [h.successors_eq hg hc hi] at hj
    obtain ⟨s, hs, rfl⟩ := List.mem_map.1 hj
    split
    · obtain ⟨d, hd⟩ := hg.successor_live h.source (j := target) (by simp [h.successors])
      exact ⟨_, live_bypassed_iff.2 ⟨d, hd, h.ne, rfl⟩⟩
    · rename_i hne
      obtain ⟨d, hd⟩ := hg.successor_live hc hs
      exact ⟨_, live_bypassed_iff.2 ⟨d, hd, by simpa using hne, rfl⟩⟩
  predecessor_live := by
    intro i c' j hc' hj
    obtain ⟨c, hc, hi, rfl⟩ := live_bypassed_iff.1 hc'
    rw [predecessors_bypassedBlock _ _ _ hi] at hj
    have hlive : (∃ d, g.Live j d) ∧ j ≠ id := by
      split at hj
      · rcases List.mem_append.1 hj with hkept | hmoved
        · obtain ⟨hmem, hne⟩ := List.mem_filter.1 hkept
          exact ⟨hg.predecessor_live hc hmem, by simpa using hne⟩
        · refine ⟨hg.predecessor_live h.source hmoved, ?_⟩
          rintro rfl
          exact h.not_mem_predecessors hg hmoved
      · rename_i htarget
        refine ⟨hg.predecessor_live hc hj, ?_⟩
        rintro rfl
        exact htarget (h.eq_of_mem_predecessors hg hc hj).symm
    obtain ⟨⟨d, hd⟩, hne⟩ := hlive
    exact ⟨_, live_bypassed_iff.2 ⟨d, hd, hne, rfl⟩⟩
  count_eq := by
    intro i c' j d' hc' hd'
    obtain ⟨c, hc, hi, rfl⟩ := live_bypassed_iff.1 hc'
    obtain ⟨d, hd, hj, rfl⟩ := live_bypassed_iff.1 hd'
    rw [h.successors_eq hg hc hi, count_map_replace h.ne.symm hj,
      predecessors_bypassedBlock _ _ _ hj, hg.count_eq hc hd, hg.count_eq hc h.source]
    by_cases htarget : j = target
    · -- The target loses no entry but that of the bypassed block and gets all of its entries.
      have hkept : (d.dropPredecessor id).predecessors.count i = d.predecessors.count i :=
        List.count_filter (by simpa using hi)
      rw [if_pos htarget, if_pos htarget.symm, List.count_append, hkept]
    · rw [if_neg htarget, if_neg (Ne.symm htarget), Nat.add_zero]

/-- Detached blocks stay apart. -/
theorem apart (h : g.Bypasses id target b) (hg : g.Mirrored) (ha : g.Apart) :
    (g.bypassed id target b.predecessors).Apart := by
  intro i c' hc' hdetached
  rw [block?_bypassed, Option.map_eq_some_iff] at hc'
  obtain ⟨c, hc, rfl⟩ := hc'
  by_cases hi : i = id
  · simp [bypassedBlock, hi, Block.detach]
  · rw [isDetached_bypassedBlock, decide_eq_false (Ne.symm hi), Bool.false_or] at hdetached
    have hnot {d : Block} (hd : g.Live i d) : False := by
      rw [Option.some.inj (hc.symm.trans hd.1), hd.2] at hdetached
      cases hdetached
    -- A detached block is neither a source nor the target of an edge that is moved.
    have hsource : i ∉ b.predecessors := by
      intro hmem
      obtain ⟨d, hd⟩ := hg.predecessor_live h.source hmem
      exact hnot hd
    have htarget : target ≠ i := by
      rintro rfl
      obtain ⟨d, hd⟩ := hg.successor_live h.source (j := target) (by simp [h.successors])
      exact hnot hd
    rw [predecessors_bypassedBlock _ _ _ hi, if_neg htarget, successors_bypassedBlock _ _ _ hi,
      if_neg hsource]
    exact ha hc hdetached

end Bypasses

theorem forwardTarget_eq_ok_iff (hn : g.Numbered) :
    g.forwardTarget id = .ok (b, target) ↔ g.Bypasses id target b := by
  simp only [forwardTarget, bind_eq_ok_iff, find_eq_ok_iff]
  constructor
  · rintro ⟨c, hblock, h⟩
    split at h
    · rename_i t htarget
      obtain ⟨rfl, rfl⟩ := Prod.mk.inj (Except.ok.inj h)
      obtain ⟨hkind, hlive, hempty, hsuccessors, hne⟩ :=
        Block.forwardTarget?_eq_some_iff.1 htarget
      exact ⟨⟨hblock, hlive⟩, hkind, hempty, hsuccessors, hn hblock ▸ hne⟩
    · cases h
  · intro h
    have htarget : b.forwardTarget? = some target := Block.forwardTarget?_eq_some_iff.2
      ⟨h.kind, h.source.2, h.statements, h.successors, by rw [hn h.source.1]; exact h.ne⟩
    refine ⟨b, h.source.1, ?_⟩
    rw [htarget]
    rfl

/-- The search for a block that can be bypassed succeeds when all blocks of the list are there. -/
theorem firstForwarding?_spec (hn : g.Numbered) {ids : List BlockId}
    (hids : ∀ j ∈ ids, j < g.size) :
    g.firstForwarding? ids = .ok none ∨ ∃ next target c,
      g.firstForwarding? ids = .ok (some next) ∧ next ∈ ids ∧ g.Bypasses next target c := by
  -- The search stops at the first block that can be bypassed.
  induction ids with
  | nil => exact .inl rfl
  | cons j ids ih =>
    obtain ⟨hj, hids⟩ := List.forall_mem_cons.1 hids
    obtain ⟨c, hc⟩ := Option.isSome_iff_exists.1 (block?_isSome_iff.2 hj)
    have hfind : g.find j = .ok c := find_eq_ok_iff.2 hc
    by_cases hforward : c.isForwarding = true
    · obtain ⟨target, htarget⟩ := Option.isSome_iff_exists.1 hforward
      have hpair : g.forwardTarget j = .ok (c, target) := by
        simp [forwardTarget, hfind, htarget, bind, Except.bind, pure, Except.pure]
      refine .inr ⟨j, target, c, ?_, List.mem_cons_self, (forwardTarget_eq_ok_iff hn).1 hpair⟩
      simp [firstForwarding?, hfind, hforward, bind, Except.bind, pure, Except.pure]
    · have hskip : g.firstForwarding? (j :: ids) = g.firstForwarding? ids := by
        simp [firstForwarding?, hfind, hforward, bind, Except.bind]
      rcases ih hids with h | ⟨next, target, c, h, hmem, hbypasses⟩
      · exact .inl (hskip.trans h)
      · exact .inr ⟨next, target, c, hskip.trans h, List.mem_cons_of_mem j hmem, hbypasses⟩

/-- What simplification finds to bypass behind a block that is live or leads to itself at most. -/
theorem Mirrored.bypassable?_spec (hg : g.Mirrored) (hn : g.Numbered)
    (hb : g.block? id = some b) (hself : b.isDetached = true → ∀ j ∈ b.successors, j = id) :
    g.bypassable? id = .ok none ∨ ∃ next target c, g.bypassable? id = .ok (some next) ∧
      g.Bypasses next target c ∧ id ∈ c.predecessors := by
  have hsearch : g.bypassable? id = g.firstForwarding? b.successors := by
    rw [bypassable?, find_eq_ok_iff.2 hb]
    rfl
  rw [hsearch]
  cases hdetached : b.isDetached with
  | false =>
    have hid : g.Live id b := ⟨hb, hdetached⟩
    have hids : ∀ j ∈ b.successors, j < g.size := by
      intro j hj
      obtain ⟨d, hd⟩ := hg.successor_live hid hj
      exact hd.lt_size
    rcases firstForwarding?_spec hn hids with h | ⟨next, target, c, h, hmem, hbypasses⟩
    · exact .inl h
    · exact .inr ⟨next, target, c, h, hbypasses,
        (hg.mem_predecessors_iff hid hbypasses.source).2 hmem⟩
  | true =>
    -- A detached block leads to itself at most, and it is not bypassed.
    have hself := hself hdetached
    have hids : ∀ j ∈ b.successors, j < g.size := by
      intro j hj
      rw [hself j hj, ← block?_isSome_iff, hb, Option.isSome_some]
    rcases firstForwarding?_spec hn hids with h | ⟨next, target, c, h, hmem, hbypasses⟩
    · exact .inl h
    · obtain rfl := hself next hmem
      have hlive := hbypasses.source.2
      rw [Option.some.inj (hbypasses.source.1.symm.trans hb), hdetached] at hlive
      cases hlive

section Redirection

/-- Rewriting the first slots that hold `old`, as often as there are such slots. -/
theorem iterate_replace_count {old new : BlockId} (hne : old ≠ new) (l : List BlockId) :
    (fun l : List BlockId => l.replace old new)^[l.count old] l =
      l.map fun j => if j == old then new else j := by
  -- A slot that holds something else is passed over by every replacement.
  have hcons (x : BlockId) (hx : x ≠ old) (k : Nat) (l : List BlockId) :
      (fun l : List BlockId => l.replace old new)^[k] (x :: l) =
        x :: (fun l : List BlockId => l.replace old new)^[k] l := by
    induction k generalizing l with
    | zero => rfl
    | succ k ih =>
      have hreplace : (x :: l).replace old new = x :: l.replace old new := by
        rw [List.replace_cons, beq_false_of_ne hx.symm]
      rw [Function.iterate_succ_apply, Function.iterate_succ_apply, hreplace, ih]
  induction l with
  | nil => rfl
  | cons x l ih =>
    by_cases hx : x = old
    · subst hx
      have hreplace : (x :: l).replace x new = new :: l := by
        simp
      rw [List.count_cons_self, Function.iterate_succ_apply, hreplace, hcons new hne.symm, ih]
      simp
    · rw [List.count_cons_of_ne hx, hcons x hx, ih]
      simp [hx]

/-- What becomes of block `i` when one edge from each of `sources` to `id` leads to `target`. -/
def retargetedBlock (id target : BlockId) (sources : List BlockId) (i : BlockId) (block : Block) :
    Block :=
  { block with
    successors := (fun l : List BlockId => l.replace id target)^[sources.count i] block.successors
    predecessors := if target = i then block.predecessors ++ sources else block.predecessors }

/-- All slots of a live block that lead to the bypassed block are rewritten. -/
theorem Bypasses.iterate_replace (h : g.Bypasses id target b) (hg : g.Mirrored)
    (hc : g.block? i = some c) :
    (fun l : List BlockId => l.replace id target)^[b.predecessors.count i] c.successors =
      if i ∈ b.predecessors then c.successors.map fun j => if j == id then target else j
      else c.successors := by
  split
  · rename_i hmem
    obtain ⟨c', hc'⟩ := hg.predecessor_live h.source hmem
    obtain rfl := Option.some.inj (hc.symm.trans hc'.1)
    rw [← hg.count_eq hc' h.source, iterate_replace_count h.ne.symm]
  · rename_i hmem
    rw [List.count_eq_zero.2 hmem, Function.iterate_zero_apply]

/-- The steps of a bypass, each told for all blocks. -/
theorem Bypasses.mapBlocks_eq (h : g.Bypasses id target b) (hg : g.Mirrored) :
    (g.mapBlocks fun i block =>
      let cleared := if id = i then block.clearPredecessors else block
      let dropped := if target = i then cleared.dropPredecessor id else cleared
      let moved := retargetedBlock id target b.predecessors i dropped
      if id = i then moved.detach else moved) =
    g.mapBlocks (bypassedBlock id target b.predecessors) := by
  refine ext_block? rfl (fun i => ?_) rfl rfl
  rw [block?_mapBlocks, block?_mapBlocks]
  refine Option.map_congr fun c hc => ?_
  have hiterate := h.iterate_replace hg hc
  by_cases hid : id = i
  · have htarget : ¬ target = i := fun ht => h.ne (ht.trans hid.symm)
    simp only [hid, htarget, if_true, if_false, bypassedBlock]
    rfl
  · by_cases htarget : target = i <;>
      simpa [bypassedBlock, retargetedBlock, hid, htarget, Block.dropPredecessor] using hiterate
end Redirection

end Graph

namespace Edit

variable {g : Graph} {id target : BlockId} {b : Block}

theorem run_retarget {source : BlockId} (hsource : source < g.size) (htarget : target < g.size) :
    (retarget id target source).run g =
      .ok () (g.mapBlocks (Graph.retargetedBlock id target [source])) := by
  rw [retarget, run_bind_of_run_eq_ok (run_update_of_lt hsource),
    run_update_of_lt (by simpa using htarget), Graph.mapBlocks_mapBlocks]
  congr 2
  funext i block
  by_cases hi : source = i
  · by_cases ht : target = i <;>
      simp [Graph.retargetedBlock, hi, ht, Block.redirect, Block.addPredecessor]
  · by_cases ht : target = i <;>
      simp [Graph.retargetedBlock, hi, ht, Block.addPredecessor]

/-- One edge from each source is moved. A source occurs once for each of its edges. -/
theorem run_forM_retarget {sources : List BlockId} (hsources : ∀ s ∈ sources, s < g.size)
    (htarget : target < g.size) :
    (sources.forM (retarget id target)).run g =
      .ok () (g.mapBlocks (Graph.retargetedBlock id target sources)) := by
  induction sources generalizing g with
  | nil =>
    have hsame : g.mapBlocks (Graph.retargetedBlock id target []) = g :=
      Graph.ext_block? rfl (fun i => by
        cases hi : g.block? i <;> simp [hi, Graph.retargetedBlock]) rfl rfl
    rw [hsame]
    rfl
  | cons source sources ih =>
    obtain ⟨hsource, hsources⟩ := List.forall_mem_cons.1 hsources
    rw [List.forM, run_bind_of_run_eq_ok (run_retarget hsource htarget),
      ih (by simpa using hsources) (by simpa using htarget), Graph.mapBlocks_mapBlocks]
    congr 2
    funext i block
    -- The first source is moved first, so its replacement is the innermost one.
    have hcount : (source :: sources).count i = sources.count i + [source].count i := by
      rw [List.count_cons, List.count_singleton]
    unfold Graph.retargetedBlock
    rw [hcount, Function.iterate_add_apply]
    by_cases ht : target = i <;> simp [ht]

/-- A bypass that is allowed succeeds. -/
theorem run_bypass (hg : g.Mirrored) (hn : g.Numbered) (h : g.Bypasses id target b) :
    (bypass id).run g = .ok () (g.bypassed id target b.predecessors) := by
  obtain ⟨d, hd⟩ := hg.successor_live h.source (j := target) (by simp [h.successors])
  have hsources : ∀ s ∈ b.predecessors, s < g.size := by
    intro s hs
    obtain ⟨c, hc⟩ := hg.predecessor_live h.source hs
    exact hc.lt_size
  -- The check in front answers the block and its target.
  have hask : (ask (·.forwardTarget id)).run g = .ok (b, target) g :=
    run_ask_of_eq_ok ((Graph.forwardTarget_eq_ok_iff hn).2 h)
  rw [bypass, run_bind_of_run_eq_ok hask]
  simp only
  rw [run_bind_of_run_eq_ok (run_update_of_lt h.source.lt_size),
    run_bind_of_run_eq_ok (run_update_of_lt (by simpa using hd.lt_size)),
    run_bind_of_run_eq_ok (run_forM_retarget (by simpa using hsources) (by simpa using hd.lt_size)),
    run_bind_of_run_eq_ok (run_update_of_lt (by simpa using h.source.lt_size)),
    Graph.mapBlocks_mapBlocks, Graph.mapBlocks_mapBlocks, Graph.mapBlocks_mapBlocks,
    h.mapBlocks_eq hg]
  rfl

theorem run_bypass_of_forwardTarget_eq_error {e : Error} (h : g.forwardTarget id = .error e) :
    (bypass id).run g = .error e g := by
  rw [bypass, EStateM.run_bind, run_ask_of_eq_error h]

end Edit

end FlowGraph
