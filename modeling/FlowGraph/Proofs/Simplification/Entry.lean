import FlowGraph.Proofs.Simplification.Simplified
import FlowGraph.Proofs.Simplification.Spanned
import Mathlib

/-!
# The entry of a simplified graph

The entry is never absorbed, but it may be bypassed. Whether it is depends on what is left of it
once it has absorbed what it can: an entry that has statements, or does not go on with exactly one
other block, stays as it is, and so does one to which no edge leads. Any other entry is bypassed
sooner or later, since the blocks with edges to it are reachable, and the last pass finds nothing to
bypass behind a reachable block.

## Main definitions

* `Graph.Stands`, `Graph.Anchored`: a block, or the entry, that cannot be bypassed
* `Graph.Loose`: an entry that is going to be bypassed

## Main results

* `Graph.Rewrites.anchored`, `Graph.Rewrites.loose`: simplification changes neither of the two
* `Edit.simplify_keeps_entry_iff`: which graphs keep their entry
-/

namespace FlowGraph

namespace Graph

variable {g g' : Graph} {i j id next target t : BlockId} {b c n : Block}

/-- A block is live and cannot be bypassed. -/
def Stands (g : Graph) (i : BlockId) : Prop :=
  ∃ b, g.Live i b ∧ ∀ target, ¬g.Bypasses i target b

/-- The entry is live and cannot be bypassed. -/
def Anchored (g : Graph) : Prop :=
  ∃ b, g.Live g.entry b ∧ ∀ target, ¬g.Bypasses g.entry target b

/-- The entry can be bypassed and has an edge into it, and it cannot absorb its successor. -/
structure Loose (g : Graph) (target : BlockId) (b : Block) : Prop where
  bypasses : g.Bypasses g.entry target b
  entered : b.predecessors ≠ []
  stuck : b.predecessors.length ≤ 1 → ∀ n, g.Live target n → n.kind = .base →
    n.predecessors ≠ [g.entry]

/-- The blocks that can be bypassed. -/
theorem Live.isForwarding_iff (hb : g.Live i b) (hn : g.Numbered) :
    b.isForwarding = true ↔ ∃ target, g.Bypasses i target b := by
  rw [Block.isForwarding, Option.isSome_iff_exists]
  refine exists_congr fun target => ?_
  rw [Block.forwardTarget?_eq_some_iff, hn hb.1]
  exact ⟨fun ⟨hkind, _, hempty, hsuccessors, hne⟩ => ⟨hb, hkind, hempty, hsuccessors, hne⟩,
    fun h => ⟨h.kind, hb.2, h.statements, h.successors, h.ne⟩⟩

section Absorption

/-- A block that is not absorbed cannot be bypassed after an absorption if it could not before. -/
theorem Absorbs.stands (h : g.Absorbs id next b n) (hne : id ≠ next) (hi : i ≠ next)
    (hs : g.Stands i) : (g.absorbed id next n).Stands i := by
  obtain ⟨c, hc, hnot⟩ := hs
  refine ⟨_, live_absorbed_iff.2 ⟨c, hc, hi, rfl⟩, fun t ht => ?_⟩
  have hkind := ht.kind
  have hstatements := ht.statements
  have hsuccessors := ht.successors
  rw [kind_absorbedBlock] at hkind
  rw [statements_absorbedBlock hi] at hstatements
  rw [successors_absorbedBlock _ hi] at hsuccessors
  by_cases hid : id = i
  -- A block that absorbs another one is empty only if it was empty before.
  · subst hid
    rw [if_pos rfl] at hstatements
    obtain rfl := hc.eq h.source
    exact hnot next ⟨hc, hkind, (List.append_eq_nil_iff.1 hstatements).1, h.successors, hne.symm⟩
  · rw [if_neg hid] at hstatements hsuccessors
    exact hnot t ⟨hc, hkind, hstatements, hsuccessors, ht.ne⟩

end Absorption

/-- A block cannot be bypassed after another one is if it could not before. -/
theorem Bypasses.stands (h : g.Bypasses id target b) (hg : g.Mirrored) (hs : g.Stands i) :
    (g.bypassed id target b.predecessors).Stands i := by
  obtain ⟨c, hc, hnot⟩ := hs
  have hid : i ≠ id := by
    rintro rfl
    exact hnot target (hc.eq h.source ▸ h)
  refine ⟨_, live_bypassed_iff.2 ⟨c, hc, hid, rfl⟩, fun t ht => ?_⟩
  have hsuccessors := ht.successors
  rw [h.successors_eq hg hc hid] at hsuccessors
  obtain ⟨s, hs, hst⟩ := List.map_eq_singleton_iff.1 hsuccessors
  have hne : s ≠ i := by
    rintro rfl
    rw [if_neg (by simpa using hid)] at hst
    exact ht.ne hst.symm
  have hkind := ht.kind
  have hstatements := ht.statements
  rw [bypassedBlock, if_neg hid.symm] at hkind hstatements
  exact hnot s ⟨hc, hkind, hstatements, hs, hne⟩

/-- An entry that cannot be bypassed is not bypassed, and it stays so. -/
theorem Rewrites.anchored (h : g.Rewrites g') (hg : g.Mirrored) (ha : g.Anchored) :
    g'.Anchored := by
  cases h with
  | @absorb id next b n absorbs hne hinner =>
    have hstands : (g.absorbed id next n).Stands g.entry := absorbs.stands hne hinner ha
    rwa [← entry_absorbed g id next n] at hstands
  | @bypass id target b bypasses =>
    have hstands : (g.bypassed id target b.predecessors).Stands g.entry := bypasses.stands hg ha
    rwa [← entry_bypassed g id target b.predecessors] at hstands

/-- An entry that is going to be bypassed is so after another block has absorbed its successor: that
block is not the entry, and the successor that was absorbed is not the one of the entry. -/
theorem Absorbs.loose (h : g.Absorbs id next b n) (hg : g.Mirrored) (hinner : g.entry ≠ next)
    (hnarrow : b.predecessors.length ≤ 1) {e : Block} (hl : g.Loose target e) :
    ∃ e', (g.absorbed id next n).Loose target e' := by
  have he := hl.bypasses.source
  have hid : id ≠ g.entry := by
    rintro rfl
    obtain rfl := he.eq h.source
    obtain rfl := List.singleton_inj.1 (h.successors.symm.trans hl.bypasses.successors)
    exact hl.stuck hnarrow n h.target h.target_kind h.predecessors
  have htarget : target ≠ next := by
    rintro rfl
    refine hid (h.eq_of_mem_successors hg he ?_).symm
    rw [hl.bypasses.successors]
    exact List.mem_singleton_self _
  refine ⟨absorbedBlock id next n g.entry e, ?_, ?_, ?_⟩
  · rw [entry_absorbed]
    refine ⟨live_absorbed_iff.2 ⟨e, he, hinner, rfl⟩, ?_, ?_, ?_, hl.bypasses.ne⟩
    · rw [kind_absorbedBlock, hl.bypasses.kind]
    · rw [statements_absorbedBlock hinner, if_neg hid, hl.bypasses.statements]
    · rw [successors_absorbedBlock _ hinner, if_neg hid, hl.bypasses.successors]
  · rw [predecessors_absorbedBlock _ hinner]
    split
    · rw [Block.replacePredecessor, ne_eq, List.map_eq_nil_iff]
      exact hl.entered
    · exact hl.entered
  · intro hlength c' hc' hkind hpredecessors
    obtain ⟨c, hc, -, rfl⟩ := live_absorbed_iff.1 hc'
    have hlength : e.predecessors.length ≤ 1 := by
      rw [predecessors_absorbedBlock _ hinner] at hlength
      split at hlength
      · rwa [Block.replacePredecessor, List.length_map] at hlength
      · exact hlength
    rw [kind_absorbedBlock] at hkind
    refine hl.stuck hlength c hc hkind ?_
    -- Entries are renamed to the absorbing block, which is not the entry.
    rw [predecessors_absorbedBlock _ htarget, entry_absorbed] at hpredecessors
    split at hpredecessors
    · obtain ⟨p, hp, hpe⟩ := List.map_eq_singleton_iff.1 hpredecessors
      split at hpe
      · exact absurd hpe hid
      · rw [hp, hpe]
    · exact hpredecessors

private theorem eq_singleton_of_count {l : List BlockId} (hmem : ∀ j ∈ l, j = i)
    (hcount : l.count i = 1) : l = [i] := by
  rw [List.count_eq_length.2 fun j hj => (hmem j hj).symm] at hcount
  obtain ⟨j, rfl⟩ := List.length_eq_one_iff.1 hcount
  rw [hmem j (List.mem_singleton_self j)]

/-- An empty block that leads back to the entry would have been absorbed: no other block is
reachable. -/
theorem Loose.not_bypasses_entry {e : Block} (hl : g.Loose id e) (hg : g.Mirrored)
    (hs : g.Spanned) : ¬g.Bypasses id g.entry b := by
  intro h
  have he := hl.bypasses.source
  have hmem : ∀ i ∈ g.reachable, i = g.entry ∨ i = id := by
    intro i hi
    obtain ⟨-, hpath⟩ := mem_reachable_iff.1 hi
    clear hi
    induction hpath with
    | refl => exact .inl rfl
    | tail _ step ih =>
      have hedge := step.1
      rcases ih with rfl | rfl
      · rw [he.successors, hl.bypasses.successors, List.mem_singleton] at hedge
        exact .inr hedge
      · rw [h.source.successors, h.successors, List.mem_singleton] at hedge
        exact .inl hedge
  have hentered : e.predecessors = [id] := by
    refine eq_singleton_of_count (fun p hp => ?_) ?_
    · obtain ⟨c, hc, hedge⟩ := hg.exists_predecessor he hp
      refine (hmem p (hs hc)).resolve_left ?_
      rintro rfl
      rw [hc.eq he, hl.bypasses.successors, List.mem_singleton] at hedge
      exact h.ne hedge
    · rw [← hg.count_eq h.source he, h.successors, List.count_singleton_self]
  refine hl.stuck (by rw [hentered]; exact Nat.le_refl 1) b h.source h.kind ?_
  refine eq_singleton_of_count (fun p hp => ?_) ?_
  · obtain ⟨c, hc, hedge⟩ := hg.exists_predecessor h.source hp
    refine (hmem p (hs hc)).resolve_right ?_
    rintro rfl
    rw [hc.eq h.source, h.successors, List.mem_singleton] at hedge
    exact h.ne hedge.symm
  · rw [← hg.count_eq he h.source, hl.bypasses.successors, List.count_singleton_self]

/-- A bypass takes no entries away from other blocks than the one that is bypassed: the target loses
one and gets those of the bypassed block. -/
theorem Bypasses.length_predecessors_le (h : g.Bypasses id target b) (hg : g.Mirrored)
    (hentered : b.predecessors ≠ []) (hc : g.Live i c) (hi : i ≠ id) :
    c.predecessors.length ≤
      (bypassedBlock id target b.predecessors i c).predecessors.length := by
  rw [predecessors_bypassedBlock _ _ _ hi]
  split
  · rename_i htarget
    have hone : c.predecessors.count id = 1 := by
      rw [← hg.count_eq h.source hc, h.successors, htarget, List.count_singleton_self]
    have hsplit := List.length_eq_length_filter_add (l := c.predecessors) (· != id)
    have hdropped :
        (c.predecessors.filter fun p => !(p != id)).length = c.predecessors.count id := by
      simp only [List.count_eq_length_filter, bne, Bool.not_not]
    have hpos := List.length_pos_iff.2 hentered
    have hlength : (c.dropPredecessor id).predecessors.length =
        (c.predecessors.filter (· != id)).length := rfl
    rw [List.length_append]
    omega
  · exact Nat.le_refl _

/-- An entry that is going to be bypassed is so after another block was. -/
theorem Bypasses.loose (h : g.Bypasses id t b) (hg : g.Mirrored) (hs : g.Spanned)
    (hid : g.entry ≠ id) (hentered : b.predecessors ≠ []) {e : Block} (hl : g.Loose target e) :
    ∃ target' e', (g.bypassed id t b.predecessors).Loose target' e' := by
  have he := hl.bypasses.source
  have hlength := h.length_predecessors_le hg hentered he hid
  have hlive : (g.bypassed id t b.predecessors).Live g.entry
      (bypassedBlock id t b.predecessors g.entry e) := live_bypassed_iff.2 ⟨e, he, hid, rfl⟩
  have hsuccessors := h.successors_eq hg he hid
  rw [hl.bypasses.successors, List.map_singleton] at hsuccessors
  have hkind : (bypassedBlock id t b.predecessors g.entry e).kind = .base := by
    rw [bypassedBlock, if_neg hid.symm]
    exact hl.bypasses.kind
  have hstatements : (bypassedBlock id t b.predecessors g.entry e).statements = [] := by
    rw [bypassedBlock, if_neg hid.symm]
    exact hl.bypasses.statements
  have hne : (bypassedBlock id t b.predecessors g.entry e).predecessors ≠ [] :=
    List.length_pos_iff.1 (Nat.lt_of_lt_of_le (List.length_pos_iff.2 hl.entered) hlength)
  by_cases htarget : target = id
  -- The entry goes on with the target of its old successor.
  · subst htarget
    rw [if_pos (beq_self_eq_true _)] at hsuccessors
    have ht : t ≠ g.entry := by
      rintro rfl
      exact hl.not_bypasses_entry hg hs h
    refine ⟨t, bypassedBlock target t b.predecessors g.entry e, ?_, hne, ?_⟩
    · rw [entry_bypassed]
      exact ⟨hlive, hkind, hstatements, hsuccessors, ht⟩
    · intro hnarrow c' hc' _ hpredecessors
      obtain ⟨c, hc, -, rfl⟩ := live_bypassed_iff.1 hc'
      rw [predecessors_bypassedBlock _ _ _ h.ne, if_pos rfl, entry_bypassed,
        List.append_eq_singleton_iff] at hpredecessors
      refine hl.stuck (Nat.le_trans hlength hnarrow) b h.source h.kind ?_
      rcases hpredecessors with ⟨-, hone⟩ | ⟨-, hnil⟩
      · exact hone
      · exact absurd hnil hentered
  · rw [if_neg (by simpa using htarget)] at hsuccessors
    refine ⟨target, bypassedBlock id t b.predecessors g.entry e, ?_, hne, ?_⟩
    · rw [entry_bypassed]
      exact ⟨hlive, hkind, hstatements, hsuccessors, hl.bypasses.ne⟩
    · intro hnarrow c' hc' hbase hpredecessors
      obtain ⟨c, hc, -, rfl⟩ := live_bypassed_iff.1 hc'
      rw [bypassedBlock, if_neg (Ne.symm htarget)] at hbase
      rw [predecessors_bypassedBlock _ _ _ htarget, entry_bypassed] at hpredecessors
      split at hpredecessors
      · -- The entry does not lead to the bypassed block.
        rw [List.append_eq_singleton_iff] at hpredecessors
        rcases hpredecessors with ⟨-, hone⟩ | ⟨-, hnil⟩
        · have hmem : g.entry ∈ b.predecessors := by
            rw [hone]
            exact List.mem_singleton_self _
          rw [hg.mem_predecessors_iff he h.source, hl.bypasses.successors,
            List.mem_singleton] at hmem
          exact htarget hmem.symm
        · exact hentered hnil
      · exact hl.stuck (Nat.le_trans hlength hnarrow) c hc hbase hpredecessors

/-- An entry that is going to be bypassed is so after every step that does not bypass it. -/
theorem Rewrites.loose (h : g.Rewrites g') (hg : g.Mirrored) (hs : g.Spanned)
    (hlive : ∃ b, g'.Live g'.entry b) (hl : ∃ target b, g.Loose target b) :
    ∃ target b, g'.Loose target b := by
  obtain ⟨target, e, hl⟩ := hl
  cases h with
  | absorb absorbs _ hinner hnarrow => exact ⟨target, absorbs.loose hg hinner hnarrow hl⟩
  | bypass bypasses hentered =>
    obtain ⟨c, hc⟩ := hlive
    rw [entry_bypassed] at hc
    obtain ⟨_, _, hid, _⟩ := live_bypassed_iff.1 hc
    exact bypasses.loose hg hs hid hentered hl

/-- An entry that can be bypassed and has nothing to absorb. -/
theorem Bypasses.loose_of_absorbable? {e : Block} (h : g.Bypasses g.entry target e)
    (hentered : e.predecessors ≠ []) (hnone : g.absorbable? g.entry = .ok none) :
    g.Loose target e := by
  refine ⟨h, hentered, fun hnarrow n hn hkind hpredecessors => ?_⟩
  have habsorbs : g.Absorbs g.entry target e n :=
    ⟨h.source, hn, h.kind, hkind, h.successors, hpredecessors⟩
  cases hnone.symm.trans (habsorbs.absorbable?_eq h.ne.symm h.ne.symm hnarrow)

theorem not_isForwarding_of_firstForwarding? {ids : List BlockId}
    (h : g.firstForwarding? ids = .ok none) (hi : i ∈ ids) (hb : g.block? i = some b) :
    b.isForwarding = false := by
  induction ids with
  | nil => cases hi
  | cons j ids ih =>
    simp only [firstForwarding?, bind_eq_ok_iff, find_eq_ok_iff] at h
    obtain ⟨c, hc, h⟩ := h
    split at h
    · cases h
    · rename_i hnot
      rcases List.mem_cons.1 hi with rfl | hi
      · rw [Option.some.inj (hb.symm.trans hc)]
        simpa using hnot
      · exact ih h hi

/-- When the search behind a block finds nothing to bypass, there is nothing. -/
theorem not_bypasses_of_bypassable? (h : g.bypassable? j = .ok none) (hn : g.Numbered)
    (hc : g.Live j c) (hi : i ∈ c.successors) : ¬g.Bypasses i target b := by
  intro hbypasses
  have hsearch : g.bypassable? j = g.firstForwarding? c.successors := by
    rw [bypassable?, find_eq_ok_iff.2 hc.1]
    rfl
  have hnot := not_isForwarding_of_firstForwarding? (hsearch ▸ h) hi hbypasses.source.1
  rw [(hbypasses.source.isForwarding_iff hn).2 ⟨target, hbypasses⟩] at hnot
  cases hnot

/-- Behind a block at which nothing is left to do there is nothing to bypass. -/
theorem Idle.not_bypasses (h : g.Idle j) (hn : g.Numbered) (hc : g.Live j c)
    (hi : i ∈ c.successors) : ¬g.Bypasses i target b :=
  not_bypasses_of_bypassable? h.2 hn hc hi

/-- When nothing is left to do, no reachable entry waits to be bypassed: the last pass has come to
the blocks with edges to it. -/
theorem Simplified.not_loose (h : g.Simplified) (hg : g.Consistent) (hs : g.Spanned) :
    ¬∃ target b, g.Loose target b := by
  rintro ⟨target, e, hl⟩
  obtain ⟨p, hp⟩ := List.exists_mem_of_ne_nil _ hl.entered
  obtain ⟨c, hc, hedge⟩ := hg.mirrored.exists_predecessor hl.bypasses.source hp
  exact (h p (hs hc)).not_bypasses hg.numbered hc hedge hl.bypasses

/-- Simplification keeps an entry that cannot be bypassed or to which no edge leads. -/
theorem RewritesTo.exists_live_entry (h : g.RewritesTo g') (hg : g.Consistent)
    (hb : g.Live g.entry b) (hkeep : b.predecessors = [] ∨ b.isForwarding = false) :
    ∃ c, g'.Live g'.entry c := by
  rcases hkeep with hnone | hnot
  · obtain ⟨-, c, hc, -⟩ := h.preserves (P := fun k => k.Consistent ∧ k.Rooted)
      (fun step hk => ⟨step.consistent hk.1, step.rooted hk.1.mirrored hk.2⟩) ⟨hg, b, hb, hnone⟩
    exact ⟨c, hc⟩
  · have hanchored : g.Anchored := by
      refine ⟨b, hb, fun target hbypasses => ?_⟩
      rw [(hb.isForwarding_iff hg.numbered).2 ⟨target, hbypasses⟩] at hnot
      cases hnot
    obtain ⟨-, c, hc, -⟩ := h.preserves (P := fun k => k.Consistent ∧ k.Anchored)
      (fun step hk => ⟨step.consistent hk.1, step.anchored hk.1.mirrored hk.2⟩) ⟨hg, hanchored⟩
    exact ⟨c, hc⟩

/-- An entry that survives simplification, though there is nothing for it to absorb, cannot be
bypassed or has no edge into it. -/
theorem RewritesTo.keep_of_exists_live_entry (h : g.RewritesTo g') (hg : g.Consistent)
    (hs : g.Spanned) (hb : g.Live g.entry b) (hnone : g.absorbable? g.entry = .ok none)
    (hsimplified : g'.Simplified) (hlive : ∃ c, g'.Live g'.entry c) :
    b.predecessors = [] ∨ b.isForwarding = false := by
  refine or_iff_not_imp_left.2 fun hentered => Bool.eq_false_iff.2 fun hforward => ?_
  obtain ⟨target, hbypasses⟩ := (hb.isForwarding_iff hg.numbered).1 hforward
  have hloose : ∃ target b, g.Loose target b :=
    ⟨target, b, hbypasses.loose_of_absorbable? hentered hnone⟩
  obtain ⟨hg', hs', hloose'⟩ := h.preserves_of_live
    (P := fun k => k.Consistent ∧ k.Spanned ∧ ∃ target b, k.Loose target b)
    (fun step hlive hk => ⟨step.consistent hk.1, step.spanned hk.1.mirrored hlive hk.2.1,
      step.loose hk.1.mirrored hk.2.1 hlive hk.2.2⟩) hlive ⟨hg, hs, hloose⟩
  exact hsimplified.not_loose hg' hs' hloose'

end Graph

namespace Edit

variable {g : Graph} {b : Block}

/-- The entry absorbs what it can, and stays live. -/
theorem exists_run_exhaust_absorption (hg : g.Consistent) (hb : g.Live g.entry b) :
    ∃ absorbed k, (absorption g.entry).exhaust.run g = .ok absorbed k ∧
      k.absorbable? g.entry = .ok none ∧ ∃ c, k.Live g.entry c := by
  obtain ⟨absorbed, k, hrun, -, -, hentry, hlive⟩ := (absorption g.entry).exists_run_exhaust
    (P := fun k => k.Consistent ∧ k.entry = g.entry ∧ ∃ c, k.Live g.entry c) (g := g)
    (fun {k} hk => by
      obtain ⟨hk, hentry, c, hc⟩ := hk
      obtain ⟨changed, k', hrun, hrewrites, hkeep⟩ := exists_run_absorption hk hc.settled
      have hsame := hrewrites.entry_eq.trans hentry
      exact ⟨changed, k', hrun, hrewrites, hrewrites.consistent hk, hsame,
        hentry ▸ hkeep (hentry ▸ hc)⟩) ⟨hg, rfl, b, hb⟩
  obtain ⟨k₀, hlast⟩ := ShrinkingStep.exists_of_run_exhaust hrun
  obtain rfl := ShrinkingStep.eq_of_run_searchAndAct_false hlast
  exact ⟨absorbed, k, hrun, ShrinkingStep.search_eq_ok_none hlast, hlive⟩

/-- A graph that passes the check of its edges and whose entry is live can be simplified. The entry
is live after that exactly if, once it has absorbed what it can, no edge leads to it or it is no
empty block that only goes on with another one; this is so if it was so in the beginning. If the
entry is live, it leads to all live blocks. -/
theorem simplify_keeps_entry_iff (hn : g.Numbered) (hcheck : g.checkEdges = .ok ())
    (hb : g.Live g.entry b) :
    ∃ absorbed k report g', (absorption g.entry).exhaust.run g.pruned = .ok absorbed k ∧
      simplify.run g = .ok report g' ∧ g'.entry = g.entry ∧
      ((∃ c, g'.Live g'.entry c) ↔
        ∃ c, k.Live g.entry c ∧ (c.predecessors = [] ∨ c.isForwarding = false)) ∧
      (b.predecessors = [] ∨ b.isForwarding = false → ∃ c, g'.Live g'.entry c) ∧
      ((∃ c, g'.Live g'.entry c) → ∀ i c, g'.Live i c → i ∈ g'.reachable) := by
  have hg : g.Consistent := ⟨hn, (Graph.checkEdges_eq_ok_iff hn).1 hcheck⟩
  have hpruned : g.pruned.Consistent := ⟨hn.pruned, hg.mirrored.pruned hn⟩
  have hspanned := hg.mirrored.spanned_pruned hn hb
  have hentry : g.entry ∈ g.reachable := Graph.mem_reachable_iff.2 ⟨hb.lt_size, .refl⟩
  have hp : g.pruned.Live g.entry (g.severedBlock g.unreachable g.entry b) :=
    (Graph.live_pruned_iff hn).2 ⟨b, hb, hentry, rfl⟩
  obtain ⟨absorbed, k, report, g', habsorbed, h₁, hrun, h₂⟩ :=
    exists_run_simplify_from_entry hg hp.settled
  have hrewrites : g.pruned.RewritesTo g' := h₁.trans h₂
  -- The entry is live between the two halves.
  obtain ⟨_, _, habsorbed', hnone, c, hc⟩ := exists_run_exhaust_absorption hpruned hp
  obtain ⟨rfl, rfl⟩ := EStateM.Result.ok.inj (habsorbed.symm.trans habsorbed')
  have hk : k.entry = g.entry := h₁.entry_eq
  have hconsistent := h₁.consistent hpruned
  have hs : k.Spanned := h₁.spanned hpruned ⟨c, hk ▸ hc⟩ hspanned
  refine ⟨_, k, report, g', habsorbed, hrun, hrewrites.entry_eq, ⟨fun hlive => ?_, ?_⟩,
    fun hkeep => ?_, fun hlive => hrewrites.spanned hpruned hlive hspanned⟩
  · exact ⟨c, hc, h₂.keep_of_exists_live_entry hconsistent hs (hk ▸ hc) (hk ▸ hnone)
      (simplified_of_run_simplify hrun) hlive⟩
  · rintro ⟨c, hc, hkeep⟩
    exact h₂.exists_live_entry hconsistent (hk ▸ hc) hkeep
  · refine hrewrites.exists_live_entry hpruned hp (hkeep.imp (fun hnil => ?_) id)
    rw [Graph.severedBlock, hnil, List.filter_nil]

/-- A loop whose test jumps back to an empty entry. -/
private def returning : Graph :=
  { blocks := #[
      { id := 0, kind := .base, predecessors := [1], successors := [1] },
      { id := 1, kind := .condition, statements := [.ident "c"], predecessors := [0],
        successors := [0, 2] },
      { id := 2, kind := .base, statements := [.ret none], predecessors := [1] }]
    exit := 2 }

/-- What simplification makes of it: the test loops to itself. -/
private def returned : Graph :=
  { blocks := #[
      { id := 0, kind := .base, isDetached := true },
      { id := 1, kind := .condition, statements := [.ident "c"], predecessors := [1],
        successors := [1, 2] },
      { id := 2, kind := .base, statements := [.ret none], predecessors := [1] }]
    exit := 2 }

private theorem run_simplify_returning :
    simplify.run returning = .ok ⟨"<anonymous>", 0, 2, 2⟩ returned := by
  cbv

private theorem numbered_returning : returning.Numbered := by
  intro i b hb
  obtain ⟨hi, rfl⟩ := Array.getElem?_eq_some_iff.1 hb
  have hids : ∀ i : Fin 3, returning.blocks[i].id = i := by decide
  exact hids ⟨i, hi⟩

private theorem reachable_returned : returned.reachable = [0] := by
  cbv

/-- The entry is detached, and none of the live blocks is reachable. -/
theorem simplify_returning_detaches_entry :
    returning.Numbered ∧ returning.checkEdges = .ok () ∧
      (∃ b, returning.Live returning.entry b) ∧
      ∃ report g', simplify.run returning = .ok report g' ∧ (¬∃ c, g'.Live g'.entry c) ∧
        ∀ i c, g'.Live i c → i ∉ g'.reachable := by
  have hdetached {c : Block} : ¬returned.Live 0 c := by
    rintro ⟨hc, hlive⟩
    cases hc
    cases hlive
  refine ⟨numbered_returning, rfl, ⟨_, rfl, rfl⟩, _, returned, run_simplify_returning, ?_, ?_⟩
  · rintro ⟨c, hc⟩
    exact hdetached hc
  · intro i c hc hi
    rw [reachable_returned, List.mem_singleton] at hi
    exact hdetached (hi ▸ hc)

theorem simplify_keeps_entry_iff_returning :
    returning.Numbered ∧ returning.checkEdges = .ok () ∧ (∃ b, returning.Live 0 b) ∧
      ∃ absorbed k report g', (absorption 0).exhaust.run returning.pruned = .ok absorbed k ∧
        simplify.run returning = .ok report g' ∧
        ((∃ c, g'.Live g'.entry c) ↔
          ∃ c, k.Live 0 c ∧ (c.predecessors = [] ∨ c.isForwarding = false)) := by
  have hlive : returning.Live 0 _ := ⟨rfl, rfl⟩
  obtain ⟨absorbed, k, report, g', habsorbed, hrun, -, hiff, -⟩ :=
    simplify_keeps_entry_iff numbered_returning rfl hlive
  exact ⟨numbered_returning, rfl, ⟨_, hlive⟩, absorbed, k, report, g', habsorbed, hrun, hiff⟩

end Edit

end FlowGraph
