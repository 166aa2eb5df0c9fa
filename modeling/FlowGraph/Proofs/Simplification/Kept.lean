import FlowGraph.Proofs.Simplification.NormalForm
import Mathlib.Order.WellFounded

/-!
# What simplification keeps

Simplification detaches blocks, and what is left of a graph are some of its blocks. Their
statements come together in the blocks that stay, so that none is lost. The phi nodes of a block
stay where they are: a block that is not detached keeps its own and gets no others, and those of a
detached block are gone.

Tests are never detached. A block that is entered over more than one edge is never absorbed, and it
is bypassed if it is empty and goes on with one other block; then only a loop of such blocks can
keep simplification from bypassing it.

## Main definitions

* `Graph.Follows`, `Graph.Tested`: base blocks behind each other, and a graph where every loop has a
  test
* `Graph.Inherits`: the blocks of a graph have kind and phi nodes from another one
* `Graph.Holds`: a statement is in a live block
* `Graph.Wide`, `Graph.Hollow`: blocks that cannot be absorbed, and blocks that can only be bypassed
* `Graph.Keeps`: what simplification leaves of a graph

## Main results

* `Graph.Rewrites.tested`: simplification makes no loop without a test
* `Graph.RewritesTo.exists_live_iff_of_wide`: which of the blocks that cannot be absorbed stay
* `Edit.exists_run_simplify_keeps`: simplification of a graph in which every loop has a test
-/

namespace FlowGraph

namespace Graph

variable {g g' g'' : Graph} {i j id next target : BlockId} {b c n : Block} {s : Node}

/-! ### Loops -/

/-- Control goes from base block `i` to block `j`. -/
def Follows (g : Graph) (j i : BlockId) : Prop :=
  ∃ b, g.block? i = some b ∧ b.kind = .base ∧ j ∈ b.successors

/-- Every loop has a test: there is no endless way on base blocks. -/
def Tested (g : Graph) : Prop :=
  WellFounded g.Follows

/-- A base block does not lead to itself. -/
theorem Tested.not_mem_successors (h : g.Tested) (hb : g.block? i = some b)
    (hbase : b.kind = .base) : i ∉ b.successors := fun hi =>
  h.irrefl.irrefl i ⟨b, hb, hbase, hi⟩

/-- A graph whose edges out of base blocks are shortcuts of ways in another one. -/
theorem Tested.of_transGen (h : g.Tested)
    (hway : ∀ {i j}, g'.Follows j i → Relation.TransGen g.Follows j i) : g'.Tested :=
  Subrelation.wf (fun {_ _} => hway) h.transGen

theorem Tested.pruned (h : g.Tested) : g.pruned.Tested := by
  refine h.of_transGen fun {i j} hj => .single ?_
  obtain ⟨c, hc, hbase, hj⟩ := hj
  rw [block?_pruned, Option.map_eq_some_iff] at hc
  obtain ⟨b, hb, rfl⟩ := hc
  unfold prunedBlock at hbase hj
  split at hj
  · cases hj
  · rename_i hi
    rw [if_neg hi] at hbase
    exact ⟨b, hb, hbase, hj⟩

/-- A block that has absorbed another one goes on as that one did. -/
theorem Absorbs.tested (h : g.Absorbs id next b n) (hne : id ≠ next) (ht : g.Tested) :
    (g.absorbed id next n).Tested := by
  refine ht.of_transGen fun {i j} hj => ?_
  obtain ⟨c', hc, hbase, hj⟩ := hj
  rw [block?_absorbed, Option.map_eq_some_iff] at hc
  obtain ⟨c, hc, rfl⟩ := hc
  rw [kind_absorbedBlock] at hbase
  by_cases hi : i = next
  · subst hi
    simp only [absorbedBlock, if_true, if_neg hne] at hj
    split at hj <;> cases hj
  · rw [successors_absorbedBlock _ hi] at hj
    split at hj
    · rename_i hid
      subst hid
      have hfirst : g.Follows next id :=
        ⟨b, h.source.1, h.source_kind, by rw [h.successors]; exact List.mem_singleton_self _⟩
      have hsecond : g.Follows j next := ⟨n, h.target.1, h.target_kind, hj⟩
      exact .trans (.single hsecond) (.single hfirst)
    · exact .single ⟨c, hc, hbase, hj⟩

/-- The blocks before one that was bypassed go on with its target. -/
theorem Bypasses.tested (h : g.Bypasses id target b) (ht : g.Tested) (sources : List BlockId) :
    (g.bypassed id target sources).Tested := by
  refine ht.of_transGen fun {i j} hj => ?_
  obtain ⟨c', hc, hbase, hj⟩ := hj
  rw [block?_bypassed, Option.map_eq_some_iff] at hc
  obtain ⟨c, hc, rfl⟩ := hc
  by_cases hi : i = id
  · subst hi
    rw [bypassedBlock, if_pos rfl] at hj
    cases hj
  · rw [bypassedBlock, if_neg (Ne.symm hi)] at hbase
    have hedge {k : BlockId} (hk : k ∈ c.successors) : g.Follows k i := ⟨c, hc, hbase, hk⟩
    rw [successors_bypassedBlock _ _ _ hi] at hj
    split at hj
    · obtain ⟨k, hk, rfl⟩ := List.mem_map.1 hj
      split
      · rename_i hid
        obtain rfl := beq_iff_eq.1 hid
        have htarget : g.Follows target k :=
          ⟨b, h.source.1, h.kind, by rw [h.successors]; exact List.mem_singleton_self _⟩
        exact .trans (.single htarget) (.single (hedge hk))
      · exact .single (hedge hk)
    · exact .single (hedge hj)

/-- Simplification makes no loop without a test. -/
theorem Rewrites.tested (h : g.Rewrites g') (ht : g.Tested) : g'.Tested := by
  cases h with
  | absorb absorbs hne => exact absorbs.tested hne ht
  | bypass bypasses => exact bypasses.tested ht _

/-! ### Kinds, phi nodes and statements -/

/-- The live blocks of `g'` are live in `g`, where they have the same kind and phi nodes. -/
def Inherits (g g' : Graph) : Prop :=
  ∀ ⦃i c⦄, g'.Live i c → ∃ b, g.Live i b ∧ c.kind = b.kind ∧ c.phis = b.phis

/-- A statement is in some live block. -/
def Holds (g : Graph) (s : Node) : Prop :=
  ∃ i b, g.Live i b ∧ s ∈ b.statements

theorem Inherits.refl (g : Graph) : g.Inherits g := fun _ b hb => ⟨b, hb, rfl, rfl⟩

theorem Inherits.trans (h : g.Inherits g') (h' : g'.Inherits g'') : g.Inherits g'' := by
  intro i d hd
  obtain ⟨c, hc, hkind, hphis⟩ := h' hd
  obtain ⟨b, hb, hkind', hphis'⟩ := h hc
  exact ⟨b, hb, hkind.trans hkind', hphis.trans hphis'⟩

theorem phis_absorbedBlock (hi : i ≠ next) (block : Block) :
    (absorbedBlock id next n i block).phis = block.phis := by
  unfold absorbedBlock
  rw [if_neg hi.symm]
  split_ifs <;> rfl

/-- A block that a step of simplification does not detach keeps its kind and its phi nodes. -/
theorem Rewrites.inherits (h : g.Rewrites g') : g.Inherits g' := by
  intro i c hc
  cases h with
  | absorb =>
    obtain ⟨b, hb, hi, rfl⟩ := live_absorbed_iff.1 hc
    exact ⟨b, hb, kind_absorbedBlock .., phis_absorbedBlock hi b⟩
  | bypass =>
    obtain ⟨b, hb, hi, rfl⟩ := live_bypassed_iff.1 hc
    rw [bypassedBlock, if_neg hi.symm]
    exact ⟨b, hb, rfl, rfl⟩

/-- A step of simplification moves statements, and loses none. -/
theorem Rewrites.holds_iff (h : g.Rewrites g') : g'.Holds s ↔ g.Holds s := by
  cases h with
  | @absorb id next b n absorbs hne =>
    constructor
    · rintro ⟨i, c', hc', hs⟩
      obtain ⟨c, hc, hi, rfl⟩ := live_absorbed_iff.1 hc'
      rw [statements_absorbedBlock hi] at hs
      split at hs
      · rcases List.mem_append.1 hs with hs | hs
        · exact ⟨i, c, hc, hs⟩
        · exact ⟨next, n, absorbs.target, hs⟩
      · exact ⟨i, c, hc, hs⟩
    · rintro ⟨i, c, hc, hs⟩
      -- The statements of the absorbed block come after those of the block before it.
      by_cases hi : i = next
      · subst hi
        refine ⟨id, _, live_absorbed_iff.2 ⟨b, absorbs.source, hne, rfl⟩, ?_⟩
        rw [statements_absorbedBlock hne, if_pos rfl, ← hc.eq absorbs.target]
        exact List.mem_append_right _ hs
      · refine ⟨i, _, live_absorbed_iff.2 ⟨c, hc, hi, rfl⟩, ?_⟩
        rw [statements_absorbedBlock hi]
        split
        · exact List.mem_append_left _ hs
        · exact hs
  | @bypass id target b bypasses =>
    constructor
    · rintro ⟨i, c', hc', hs⟩
      obtain ⟨c, hc, hi, rfl⟩ := live_bypassed_iff.1 hc'
      rw [bypassedBlock, if_neg hi.symm] at hs
      exact ⟨i, c, hc, hs⟩
    · rintro ⟨i, c, hc, hs⟩
      have hi : i ≠ id := by
        rintro rfl
        rw [hc.eq bypasses.source, bypasses.statements] at hs
        cases hs
      refine ⟨i, _, live_bypassed_iff.2 ⟨c, hc, hi, rfl⟩, ?_⟩
      rw [bypassedBlock, if_neg hi.symm]
      exact hs

/-! ### Blocks that cannot be absorbed -/

/-- A block that is a test, or that more than one edge enters, unless it was detached. -/
def Wide (g : Graph) (i : BlockId) : Prop :=
  ∀ ⦃b⦄, g.Live i b → b.kind = .condition ∨ 1 < b.predecessors.length

/-- A block that is empty and goes on with one block, unless it was detached. -/
def Hollow (g : Graph) (i : BlockId) : Prop :=
  ∀ ⦃b⦄, g.Live i b → b.kind = .base ∧ b.statements = [] ∧ ∃ t, b.successors = [t]

/-- Only base blocks with a single edge into them are absorbed. -/
theorem Wide.ne_of_absorbs (hw : g.Wide i) (h : g.Absorbs id next b n) : i ≠ next := by
  rintro rfl
  rcases hw h.target with hkind | hlength
  · cases hkind.symm.trans h.target_kind
  · rw [h.predecessors] at hlength
    exact Nat.lt_irrefl _ hlength

/-- Only base blocks with at most one edge into them absorb. -/
theorem Wide.ne_of_narrow (hw : g.Wide i) (h : g.Absorbs id next b n)
    (hnarrow : b.predecessors.length ≤ 1) : i ≠ id := by
  rintro rfl
  rcases hw h.source with hkind | hlength
  · cases hkind.symm.trans h.source_kind
  · exact Nat.not_le_of_lt hlength hnarrow

/-- A block does not lose edges into it. -/
theorem Rewrites.wide (h : g.Rewrites g') (hg : g.Mirrored) (hw : g.Wide i) : g'.Wide i := by
  intro c' hc'
  cases h with
  | @absorb id next b n =>
    obtain ⟨c, hc, hi, rfl⟩ := live_absorbed_iff.1 hc'
    have hlength : (absorbedBlock id next n i c).predecessors.length = c.predecessors.length := by
      rw [predecessors_absorbedBlock _ hi]
      split
      · rw [Block.replacePredecessor, List.length_map]
      · rfl
    rw [kind_absorbedBlock, hlength]
    exact hw hc
  | bypass bypasses entered =>
    obtain ⟨c, hc, hi, rfl⟩ := live_bypassed_iff.1 hc'
    refine (hw hc).imp (fun hkind => ?_) fun hlength =>
      Nat.lt_of_lt_of_le hlength (bypasses.length_predecessors_le hg entered hc hi)
    rwa [bypassedBlock, if_neg hi.symm]

/-- A block that cannot be absorbed and cannot be bypassed stays so. -/
theorem Rewrites.stands (h : g.Rewrites g') (hg : g.Mirrored) (hw : g.Wide i) (hs : g.Stands i) :
    g'.Stands i := by
  cases h with
  | absorb absorbs hne => exact absorbs.stands hne (hw.ne_of_absorbs absorbs) hs
  | bypass bypasses => exact bypasses.stands hg hs

/-- A block other than the one that absorbs stays empty. -/
theorem Hollow.absorbed (hh : g.Hollow i) (hi : i ≠ id) (next : BlockId) (n : Block) :
    (g.absorbed id next n).Hollow i := by
  intro c' hc'
  obtain ⟨c, hc, hnext, rfl⟩ := live_absorbed_iff.1 hc'
  rw [kind_absorbedBlock, statements_absorbedBlock hnext, successors_absorbedBlock _ hnext,
    if_neg hi.symm, if_neg hi.symm]
  exact hh hc

/-- A block behind a bypassed one goes on with its target. -/
theorem Hollow.bypassed (hh : g.Hollow i) (h : g.Bypasses id target b) (hg : g.Mirrored) :
    (g.bypassed id target b.predecessors).Hollow i := by
  intro c' hc'
  obtain ⟨c, hc, hi, rfl⟩ := live_bypassed_iff.1 hc'
  obtain ⟨hkind, hstatements, t, hsuccessors⟩ := hh hc
  refine ⟨?_, ?_, if t == id then target else t, ?_⟩
  · rwa [bypassedBlock, if_neg hi.symm]
  · rwa [bypassedBlock, if_neg hi.symm]
  · rw [h.successors_eq hg hc hi, hsuccessors, List.map_singleton]

/-- A block that cannot be absorbed absorbs nothing, so it stays empty. -/
theorem Rewrites.hollow (h : g.Rewrites g') (hg : g.Mirrored) (hw : g.Wide i) (hh : g.Hollow i) :
    g'.Hollow i := by
  cases h with
  | absorb absorbs _ _ narrow => exact hh.absorbed (hw.ne_of_narrow absorbs narrow) _ _
  | bypass bypasses => exact hh.bypassed bypasses hg

/-- Where every loop has a test, an empty block can be bypassed. -/
theorem Hollow.exists_bypasses (hh : g.Hollow i) (ht : g.Tested) (hb : g.Live i b) :
    ∃ target, g.Bypasses i target b := by
  obtain ⟨hkind, hstatements, t, hsuccessors⟩ := hh hb
  refine ⟨t, hb, hkind, hstatements, hsuccessors, ?_⟩
  rintro rfl
  refine ht.not_mem_successors hb.1 hkind ?_
  rw [hsuccessors]
  exact List.mem_singleton_self _

theorem Bypasses.hollow (h : g.Bypasses i target b) : g.Hollow i := by
  intro b' hb'
  obtain rfl := hb'.eq h.source
  exact ⟨h.kind, h.statements, target, h.successors⟩

namespace RewritesTo

theorem inherits (h : g.RewritesTo g') : g.Inherits g' :=
  h.preserves (P := fun k => g.Inherits k) (fun step hk => hk.trans step.inherits) (.refl g)

theorem holds_iff (h : g.RewritesTo g') : g'.Holds s ↔ g.Holds s :=
  h.preserves (P := fun k => k.Holds s ↔ g.Holds s) (fun step hk => step.holds_iff.trans hk) .rfl

/-- Of the blocks that cannot be absorbed, simplification detaches exactly those that it can bypass
from the beginning, if every loop has a test. -/
theorem exists_live_iff_of_wide (h : g.RewritesTo g') (hg : g.Consistent) (hroot : g.Rooted)
    (ht : g.Tested) (hnormal : g'.NormalForm) (hb : g.Live i b) (hw : g.Wide i) :
    (∃ c, g'.Live i c) ↔ b.isForwarding = false := by
  constructor
  · rintro ⟨c, hc⟩
    refine Bool.eq_false_iff.2 fun hforward => ?_
    obtain ⟨target, hbypasses⟩ := (hb.isForwarding_iff hg.numbered).1 hforward
    obtain ⟨hg', hroot', ht', hw', hhollow'⟩ := h.preserves
      (P := fun k => k.Consistent ∧ k.Rooted ∧ k.Tested ∧ k.Wide i ∧ k.Hollow i)
      (fun step ⟨hk, hkroot, hktested, hkw, hkh⟩ => ⟨step.consistent hk,
        step.rooted hk.mirrored hkroot, step.tested hktested, step.wide hk.mirrored hkw,
        step.hollow hk.mirrored hkw hkh⟩) ⟨hg, hroot, ht, hw, hbypasses.hollow⟩
    obtain ⟨hkind, -⟩ := hhollow' hc
    -- No edge leads to the entry, so this is another block.
    have hi : i ≠ g'.entry := by
      rintro rfl
      obtain ⟨e, he, hnone⟩ := hroot'
      rw [he.eq hc] at hnone
      rcases hw' hc with hcondition | hlength
      · cases hcondition.symm.trans hkind
      · rw [hnone] at hlength
        exact Nat.not_lt_zero _ hlength
    have hforward' := (hc.isForwarding_iff hg'.numbered).2 (hhollow'.exists_bypasses ht' hc)
    cases (hnormal.not_forwarding hc hi).symm.trans hforward'
  · intro hnot
    have hstands : g.Stands i := by
      refine ⟨b, hb, fun target hbypasses => ?_⟩
      rw [(hb.isForwarding_iff hg.numbered).2 ⟨target, hbypasses⟩] at hnot
      cases hnot
    obtain ⟨-, -, c, hc, -⟩ := h.preserves (P := fun k => k.Consistent ∧ k.Wide i ∧ k.Stands i)
      (fun step ⟨hk, hkw, hks⟩ => ⟨step.consistent hk, step.wide hk.mirrored hkw,
        step.stands hk.mirrored hkw hks⟩) ⟨hg, hw, hstands⟩
    exact ⟨c, hc⟩

end RewritesTo

/-- What simplification leaves of the graph `g` in `g'`. -/
structure Keeps (g g' : Graph) : Prop where
  live_iff : ∀ i, (∃ c, g'.Live i c) ↔ i ∈ g'.reachable
  /-- A block that is live was reachable, and it has the phi nodes that it had. -/
  phis : ∀ {i c}, g'.Live i c → i ∈ g.reachable ∧ ∃ b, g.Live i b ∧ c.kind = b.kind ∧
    c.phis = b.phis
  /-- The statements of reachable blocks are those of live blocks. -/
  statements : ∀ s, g'.Holds s ↔ ∃ i ∈ g.reachable, ∃ b, g.Live i b ∧ s ∈ b.statements
  /-- A test, or a block that reachable blocks enter over more than one edge, stays unless it is
  empty and goes on with one other block. -/
  join : ∀ {i b}, i ∈ g.reachable → g.Live i b →
    b.kind = .condition ∨ 1 < (b.predecessors.filter (g.reachable.contains ·)).length →
      ((∃ c, g'.Live i c) ↔ b.isForwarding = false)

/-- Pruning drops the entries of unreachable blocks. -/
theorem Mirrored.predecessors_severedBlock (hg : g.Mirrored) (hn : g.Numbered) (hb : g.Live i b) :
    (g.severedBlock g.unreachable i b).predecessors =
      b.predecessors.filter (g.reachable.contains ·) := by
  refine List.filter_congr fun p hp => ?_
  obtain ⟨c, hc, hedge⟩ := hg.exists_predecessor hb hp
  have hdead : p ∈ g.unreachable ↔ p ∉ g.reachable := by
    rw [mem_unreachable_iff hn]
    exact and_iff_right ⟨c, hc⟩
  have hmem : (g.successors p).contains i = true := by
    rw [hc.successors, List.contains_iff_mem]
    exact hedge
  rw [hmem, Bool.and_true]
  by_cases hreached : p ∈ g.reachable <;> simp [hdead, hreached]

end Graph

namespace Edit

variable {g : Graph}

/-- Simplification succeeds on a graph in which every loop has a test and to whose live entry no
edge leads, and this is what it leaves. -/
theorem exists_run_simplify_keeps (hg : g.Consistent) (hroot : g.Rooted) (ht : g.Tested) :
    ∃ report g', simplify.run g = .ok report g' ∧ g.Keeps g' := by
  have hn := hg.numbered
  have hpruned : g.pruned.Consistent := ⟨hn.pruned, hg.mirrored.pruned hn⟩
  obtain ⟨report, g', hrun, hrewrites, -, -, hnormal⟩ := exists_run_simplify_normalForm hg hroot
  refine ⟨report, g', hrun, hnormal.live_iff, fun hc => ?_, fun s => ?_,
    fun {i b} hi hb hwide => ?_⟩
  · obtain ⟨_, hp, hkind, hphis⟩ := hrewrites.inherits hc
    obtain ⟨b, hb, hi, rfl⟩ := (Graph.live_pruned_iff hn).1 hp
    exact ⟨hi, b, hb, hkind, hphis⟩
  · rw [hrewrites.holds_iff]
    constructor
    · rintro ⟨i, _, hp, hs⟩
      obtain ⟨b, hb, hi, rfl⟩ := (Graph.live_pruned_iff hn).1 hp
      exact ⟨i, hi, b, hb, hs⟩
    · rintro ⟨i, hi, b, hb, hs⟩
      exact ⟨i, _, (Graph.live_pruned_iff hn).2 ⟨b, hb, hi, rfl⟩, hs⟩
  · have hp := (Graph.live_pruned_iff hn).2 ⟨b, hb, hi, rfl⟩
    have hpwide : g.pruned.Wide i := by
      intro c hc
      rw [← hp.eq hc, hg.mirrored.predecessors_severedBlock hn hb]
      exact hwide
    -- Entries do not matter for whether a block can be bypassed.
    have hiff := hrewrites.exists_live_iff_of_wide hpruned (hroot.pruned hn) ht.pruned hnormal hp
      hpwide
    exact hiff

end Edit

end FlowGraph
