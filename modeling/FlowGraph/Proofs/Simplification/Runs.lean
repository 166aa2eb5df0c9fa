import FlowGraph.Proofs.Run
import FlowGraph.Proofs.Simplification.Rewriting

/-!
# Simplification and runs

Simplification does not change what a graph does. For each of its steps the blocks of a run before
and after correspond to each other: a run that comes to a bypassed block is at the target already, a
run that is in an absorbed block has the statements of the block before it behind it, and pruning
takes out blocks to which no run comes.

## Main definitions

* `Graph.SameRuns`: two graphs have the same runs from their entries

## Main results

* `Graph.Absorbs.run_absorbed_iff`, `Graph.Bypasses.run_bypassed_iff`, `Graph.run_pruned_iff`: runs
  before and after each step
* `Edit.exists_run_simplify_sameRuns`: simplification succeeds and keeps the runs
-/

namespace FlowGraph

/-- The ending of a run whose last block has another id. -/
def Ending.rename (f : BlockId → BlockId) : Ending → Ending
  | cut => cut
  | complete last => complete (f last)

theorem Block.emitted_of_base {b : Block} (h : b.kind = .base) :
    b.emitted = b.statements.map .statement := by
  rw [emitted, h]

/-- A base block emits the same whether or not control leaves it. -/
theorem Block.emittedOver_of_base {b : Block} (h : b.kind = .base) (slot : Nat) :
    b.emittedOver slot = b.emitted := by
  rw [emittedOver, h, emitted_of_base h]

namespace Graph

variable {g g' : Graph} {id next target i : BlockId} {b n c : Block} {t : List Emission}
  {e : Ending}

/-- A complete run ends at a block without successors. -/
theorem Run.exists_last {last : BlockId} (h : g.Run i t (.complete last)) :
    ∃ c, g.block? last = some c ∧ c.successors = [] := by
  generalize he : Ending.complete last = e at h
  induction h with
  | cut => cases he
  | complete block none =>
    cases he
    exact ⟨_, block, none⟩
  | step _ _ _ ih => exact ih he

section Absorption

/-- The block in which the statements of a block are found after an absorption. -/
def absorbedInto (id next : BlockId) (i : BlockId) : BlockId :=
  if i = next then id else i

theorem emitted_absorbedBlock (hi : i ≠ next) (hid : i ≠ id) (c : Block) :
    (absorbedBlock id next n i c).emitted = c.emitted := by
  unfold absorbedBlock
  rw [if_neg hi.symm, if_neg hid.symm]
  split_ifs <;> rfl

theorem emittedOver_absorbedBlock (hi : i ≠ next) (hid : i ≠ id) (c : Block) (slot : Nat) :
    (absorbedBlock id next n i c).emittedOver slot = c.emittedOver slot := by
  unfold absorbedBlock
  rw [if_neg hi.symm, if_neg hid.symm]
  split_ifs <;> rfl

namespace Absorbs

/-- The absorbing block emits what both blocks emitted. -/
theorem exists_source (h : g.Absorbs id next b n) (hne : id ≠ next) :
    ∃ d, (g.absorbed id next n).block? id = some d ∧ d.emitted = b.emitted ++ n.emitted ∧
      (∀ slot, d.emittedOver slot = b.emitted ++ n.emittedOver slot) ∧
        d.successors = n.successors := by
  have hd : ∃ d, (g.absorbed id next n).block? id = some d ∧ d.kind = .base ∧
      d.statements = b.statements ++ n.statements ∧ d.successors = n.successors := by
    refine ⟨_, by rw [block?_absorbed, h.source.1, Option.map_some], ?_⟩
    unfold absorbedBlock
    rw [if_neg hne.symm, if_pos rfl]
    split_ifs <;> exact ⟨h.source_kind, rfl, rfl⟩
  obtain ⟨d, hd, hkind, hstatements, hsuccessors⟩ := hd
  have hemitted : d.emitted = b.emitted ++ n.emitted := by
    rw [Block.emitted_of_base hkind, Block.emitted_of_base h.source_kind,
      Block.emitted_of_base h.target_kind, hstatements, List.map_append]
  refine ⟨d, hd, hemitted, fun slot => ?_, hsuccessors⟩
  rw [Block.emittedOver_of_base hkind, Block.emittedOver_of_base h.target_kind, hemitted]

/-- Any other block than the two emits what it emitted, and goes on with what it went on with. -/
theorem exists_other (h : g.Absorbs id next b n) (hg : g.Mirrored) (hc : g.Live i c) (hi : i ≠ next)
    (hid : i ≠ id) :
    ∃ d, (g.absorbed id next n).block? i = some d ∧ d.emitted = c.emitted ∧
      (∀ slot, d.emittedOver slot = c.emittedOver slot) ∧ d.successors = c.successors ∧
        next ∉ c.successors := by
  have hsuccessors : (absorbedBlock id next n i c).successors = c.successors := by
    rw [successors_absorbedBlock _ hi, if_neg (Ne.symm hid)]
  refine ⟨absorbedBlock id next n i c, ?_, emitted_absorbedBlock hi hid c,
    emittedOver_absorbedBlock hi hid c, hsuccessors, fun hnext => ?_⟩
  · rw [block?_absorbed, hc.1, Option.map_some]
  · exact hid (h.eq_of_mem_successors hg hc hnext)

/-- A run from the absorbed block, with the block before it put in front. -/
theorem run_source (h : g.Absorbs id next b n) (hrun : g.Run next t e) :
    g.Run id (b.emitted ++ t) e := by
  have hedge : b.successors[0]? = some next := by rw [h.successors]; rfl
  rw [← Block.emittedOver_of_base h.source_kind 0]
  exact .step h.source.1 hedge hrun

/-- A run from another block goes on as before. A run from the absorbed block is the rest of a run
from the absorbing one. -/
theorem run_absorbed (h : g.Absorbs id next b n) (hg : g.Mirrored) (hne : id ≠ next)
    (hrun : g.Run i t e) (hlive : g.Live i c) :
    (i ≠ next → (g.absorbed id next n).Run i t (e.rename (absorbedInto id next))) ∧
      (i = next →
        (g.absorbed id next n).Run id (b.emitted ++ t) (e.rename (absorbedInto id next))) := by
  obtain ⟨d, hd, hemitted, hover, hsuccessors⟩ := h.exists_source hne
  -- The induction is on the run; only at the two blocks does it go another way than before.
  induction hrun generalizing c with
  | @cut i c' t hblock hemits =>
    obtain rfl := Option.some.inj (hblock.symm.trans hlive.1)
    refine ⟨fun hi => ?_, ?_⟩
    · by_cases hid : i = id
      · subst hid
        obtain rfl := hlive.eq h.source
        refine .cut hd (hemits.trans ?_)
        rw [hemitted]
        exact List.prefix_append _ _
      · obtain ⟨k, hk, hkemitted, -⟩ := h.exists_other hg hlive hi hid
        exact .cut hk (hkemitted ▸ hemits)
    · rintro rfl
      obtain rfl := hlive.eq h.target
      refine .cut hd ?_
      rw [hemitted]
      exact (List.prefix_append_right_inj _).2 hemits
  | @complete i c' hblock hlast =>
    obtain rfl := Option.some.inj (hblock.symm.trans hlive.1)
    refine ⟨fun hi => ?_, ?_⟩
    · -- The absorbing block has a successor, so the run does not end there.
      have hid : i ≠ id := by
        rintro rfl
        rw [hlive.eq h.source, h.successors] at hlast
        cases hlast
      obtain ⟨k, hk, hkemitted, -, hksuccessors, -⟩ := h.exists_other hg hlive hi hid
      rw [Ending.rename, absorbedInto, if_neg hi, ← hkemitted]
      exact .complete hk (hksuccessors.trans hlast)
    · rintro rfl
      obtain rfl := hlive.eq h.target
      rw [Ending.rename, absorbedInto, if_pos rfl, ← hemitted]
      exact .complete hd (hsuccessors.trans hlast)
  | @step i j c' slot t e hblock hedge _ ih =>
    obtain rfl := Option.some.inj (hblock.symm.trans hlive.1)
    have hmem := List.mem_of_getElem? hedge
    obtain ⟨k, hk⟩ := hg.successor_live hlive hmem
    obtain ⟨ihother, ihnext⟩ := ih hk
    refine ⟨fun hi => ?_, ?_⟩
    · by_cases hid : i = id
      · -- The only edge of the absorbing block leads to the absorbed one.
        subst hid
        obtain rfl := hlive.eq h.source
        rw [h.successors, List.mem_singleton] at hmem
        rw [Block.emittedOver_of_base h.source_kind]
        exact ihnext hmem
      · obtain ⟨l, hl, -, hlover, hlsuccessors, hnext⟩ := h.exists_other hg hlive hi hid
        rw [← hlover]
        exact .step hl (hlsuccessors ▸ hedge) (ihother fun hj => hnext (hj ▸ hmem))
    · rintro rfl
      obtain rfl := hlive.eq h.target
      have hj : j ≠ i := by
        rintro rfl
        exact hne (h.eq_of_mem_successors hg hlive hmem).symm
      rw [← List.append_assoc, ← hover]
      exact .step hd (hsuccessors ▸ hedge) (ihother hj)

/-- A run after an absorption, with the edge that was taken out put back. -/
theorem run_of_absorbed (h : g.Absorbs id next b n) (hg : g.Mirrored) (hne : id ≠ next)
    (hrun : (g.absorbed id next n).Run i t e) (hlive : (g.absorbed id next n).Live i c) :
    ∃ e', e'.rename (absorbedInto id next) = e ∧ g.Run i t e' := by
  obtain ⟨d, hd, hemitted, hover, hsuccessors⟩ := h.exists_source hne
  induction hrun generalizing c with
  | @cut i c' t hblock hemits =>
    obtain rfl := Option.some.inj (hblock.symm.trans hlive.1)
    obtain ⟨k, hk, hi, -⟩ := live_absorbed_iff.1 hlive
    refine ⟨.cut, rfl, ?_⟩
    by_cases hid : i = id
    · subst hid
      obtain rfl := Option.some.inj (hblock.symm.trans hd)
      rw [hemitted] at hemits
      -- The run is cut in the statements of one of the two blocks.
      rcases List.prefix_or_prefix_of_prefix hemits (List.prefix_append b.emitted n.emitted) with
        hfirst | ⟨t, rfl⟩
      · exact .cut h.source.1 hfirst
      · exact h.run_source (.cut h.target.1 ((List.prefix_append_right_inj _).1 hemits))
    · obtain ⟨l, hl, hlemitted, -⟩ := h.exists_other hg hk hi hid
      obtain rfl := Option.some.inj (hblock.symm.trans hl)
      exact .cut hk.1 (hlemitted ▸ hemits)
  | @complete i c' hblock hlast =>
    obtain rfl := Option.some.inj (hblock.symm.trans hlive.1)
    obtain ⟨k, hk, hi, -⟩ := live_absorbed_iff.1 hlive
    by_cases hid : i = id
    · subst hid
      obtain rfl := Option.some.inj (hblock.symm.trans hd)
      refine ⟨.complete next, by rw [Ending.rename, absorbedInto, if_pos rfl], ?_⟩
      rw [hemitted]
      exact h.run_source (.complete h.target.1 (hsuccessors.symm.trans hlast))
    · obtain ⟨l, hl, hlemitted, -, hlsuccessors, -⟩ := h.exists_other hg hk hi hid
      obtain rfl := Option.some.inj (hblock.symm.trans hl)
      refine ⟨.complete i, by rw [Ending.rename, absorbedInto, if_neg hi], ?_⟩
      rw [hlemitted]
      exact .complete hk.1 (hlsuccessors.symm.trans hlast)
  | @step i j c' slot t e hblock hedge _ ih =>
    obtain rfl := Option.some.inj (hblock.symm.trans hlive.1)
    obtain ⟨m, hm⟩ := (h.mirrored hg).successor_live hlive (List.mem_of_getElem? hedge)
    obtain ⟨e', he', hrest⟩ := ih hm
    refine ⟨e', he', ?_⟩
    obtain ⟨k, hk, hi, -⟩ := live_absorbed_iff.1 hlive
    by_cases hid : i = id
    · subst hid
      obtain rfl := Option.some.inj (hblock.symm.trans hd)
      rw [hover, List.append_assoc]
      exact h.run_source (.step h.target.1 (hsuccessors ▸ hedge) hrest)
    · obtain ⟨l, hl, -, hlover, hlsuccessors, -⟩ := h.exists_other hg hk hi hid
      obtain rfl := Option.some.inj (hblock.symm.trans hl)
      rw [hlover]
      exact .step hk.1 (hlsuccessors ▸ hedge) hrest

/-- Runs before and after an absorption. A run that ended in the absorbed block ends in the
absorbing one. -/
theorem run_absorbed_iff (h : g.Absorbs id next b n) (hg : g.Mirrored) (hne : id ≠ next)
    (hlive : g.Live i c) (hi : i ≠ next) :
    (g.absorbed id next n).Run i t e ↔
      ∃ e', e'.rename (absorbedInto id next) = e ∧ g.Run i t e' := by
  constructor
  · exact fun hrun => h.run_of_absorbed hg hne hrun (live_absorbed_iff.2 ⟨c, hlive, hi, rfl⟩)
  · rintro ⟨e', rfl, hrun⟩
    exact (h.run_absorbed hg hne hrun hlive).1 hi

end Absorbs

end Absorption

section Bypass

/-- The block to which an edge leads after a bypass. -/
def bypassedTo (id target : BlockId) (i : BlockId) : BlockId :=
  if i == id then target else i

theorem bypassedTo_self : bypassedTo id target id = target :=
  if_pos (beq_self_eq_true id)

theorem bypassedTo_of_ne (h : i ≠ id) : bypassedTo id target i = i :=
  if_neg (by simpa using h)

namespace Bypasses

theorem emitted_eq_nil (h : g.Bypasses id target b) : b.emitted = [] := by
  rw [Block.emitted_of_base h.kind, h.statements, List.map_nil]

/-- Another block after a bypass. -/
theorem exists_other (h : g.Bypasses id target b) (hg : g.Mirrored) (hc : g.Live i c)
    (hi : i ≠ id) :
    ∃ d, (g.bypassed id target b.predecessors).Live i d ∧ d.emitted = c.emitted ∧
      (∀ slot, d.emittedOver slot = c.emittedOver slot) ∧
        d.successors = c.successors.map (bypassedTo id target) := by
  refine ⟨_, live_bypassed_iff.2 ⟨c, hc, hi, rfl⟩, ?_, fun slot => ?_, h.successors_eq hg hc hi⟩
  · rw [bypassedBlock, if_neg hi.symm]
    rfl
  · rw [bypassedBlock, if_neg hi.symm]
    rfl

/-- A run that comes to the bypassed block has come to its target. -/
theorem run_bypassed (h : g.Bypasses id target b) (hg : g.Mirrored) (hrun : g.Run i t e)
    (hlive : g.Live i c) :
    (g.bypassed id target b.predecessors).Run (bypassedTo id target i) t e := by
  obtain ⟨k, hk⟩ := hg.successor_live h.source (j := target) (by simp [h.successors])
  induction hrun generalizing c with
  | @cut i c' t hblock hemits =>
    obtain rfl := Option.some.inj (hblock.symm.trans hlive.1)
    by_cases hi : i = id
    · subst hi
      obtain rfl := hlive.eq h.source
      obtain ⟨d, hd, -⟩ := h.exists_other hg hk h.ne
      rw [h.emitted_eq_nil] at hemits
      rw [bypassedTo_self, List.prefix_nil.1 hemits]
      exact .cut hd.1 List.nil_prefix
    · obtain ⟨d, hd, hemitted, -⟩ := h.exists_other hg hlive hi
      rw [bypassedTo_of_ne hi]
      exact .cut hd.1 (hemitted ▸ hemits)
  | @complete i c' hblock hlast =>
    obtain rfl := Option.some.inj (hblock.symm.trans hlive.1)
    have hi : i ≠ id := by
      rintro rfl
      rw [hlive.eq h.source, h.successors] at hlast
      cases hlast
    obtain ⟨d, hd, hemitted, -, hsuccessors⟩ := h.exists_other hg hlive hi
    rw [bypassedTo_of_ne hi, ← hemitted]
    exact .complete hd.1 (by rw [hsuccessors, hlast, List.map_nil])
  | @step i j c' slot t e hblock hedge _ ih =>
    obtain rfl := Option.some.inj (hblock.symm.trans hlive.1)
    obtain ⟨l, hl⟩ := hg.successor_live hlive (List.mem_of_getElem? hedge)
    have hrest := ih hl
    by_cases hi : i = id
    -- The bypassed block emits nothing and goes on with the target.
    · subst hi
      obtain rfl := hlive.eq h.source
      have hj : j = target := by
        have hmem := List.mem_of_getElem? hedge
        rwa [h.successors, List.mem_singleton] at hmem
      rw [Block.emittedOver_of_base h.kind, h.emitted_eq_nil, bypassedTo_self]
      rwa [hj, bypassedTo_of_ne h.ne] at hrest
    · obtain ⟨d, hd, -, hover, hsuccessors⟩ := h.exists_other hg hlive hi
      rw [bypassedTo_of_ne hi, ← hover]
      refine .step hd.1 ?_ hrest
      rw [hsuccessors, List.getElem?_map, hedge, Option.map_some]

/-- A run after a bypass, with the bypassed block put back wherever an edge led to it. -/
theorem run_of_bypassed (h : g.Bypasses id target b) (hg : g.Mirrored)
    (hrun : (g.bypassed id target b.predecessors).Run i t e)
    (hlive : (g.bypassed id target b.predecessors).Live i c) : g.Run i t e := by
  induction hrun generalizing c with
  | @cut i c' t hblock hemits =>
    obtain rfl := Option.some.inj (hblock.symm.trans hlive.1)
    obtain ⟨k, hk, hi, -⟩ := live_bypassed_iff.1 hlive
    obtain ⟨d, hd, hemitted, -⟩ := h.exists_other hg hk hi
    obtain rfl := hlive.eq hd
    exact .cut hk.1 (hemitted ▸ hemits)
  | @complete i c' hblock hlast =>
    obtain rfl := Option.some.inj (hblock.symm.trans hlive.1)
    obtain ⟨k, hk, hi, -⟩ := live_bypassed_iff.1 hlive
    obtain ⟨d, hd, hemitted, -, hsuccessors⟩ := h.exists_other hg hk hi
    obtain rfl := hlive.eq hd
    rw [hemitted]
    exact .complete hk.1 (List.map_eq_nil_iff.1 (hsuccessors.symm.trans hlast))
  | @step i j' c' slot t e hblock hedge _ ih =>
    obtain rfl := Option.some.inj (hblock.symm.trans hlive.1)
    obtain ⟨l, hl⟩ := (h.mirrored hg).successor_live hlive (List.mem_of_getElem? hedge)
    have hrest := ih hl
    obtain ⟨k, hk, hi, -⟩ := live_bypassed_iff.1 hlive
    obtain ⟨d, hd, -, hover, hsuccessors⟩ := h.exists_other hg hk hi
    obtain rfl := hlive.eq hd
    rw [hsuccessors, List.getElem?_map, Option.map_eq_some_iff] at hedge
    obtain ⟨j, hedge, rfl⟩ := hedge
    rw [hover]
    refine .step hk.1 hedge ?_
    -- An edge that was moved goes over the bypassed block again.
    by_cases hj : j = id
    · subst hj
      have hforward : b.successors[0]? = some target := by rw [h.successors]; rfl
      rw [bypassedTo_self] at hrest
      have hlong := Run.step h.source.1 hforward hrest
      rwa [Block.emittedOver_of_base h.kind, h.emitted_eq_nil] at hlong
    · rwa [bypassedTo_of_ne hj] at hrest

/-- Runs before and after a bypass. -/
theorem run_bypassed_iff (h : g.Bypasses id target b) (hg : g.Mirrored) (hlive : g.Live i c)
    (hi : i ≠ id) : (g.bypassed id target b.predecessors).Run i t e ↔ g.Run i t e := by
  constructor
  · exact fun hrun => h.run_of_bypassed hg hrun (live_bypassed_iff.2 ⟨c, hlive, hi, rfl⟩)
  · intro hrun
    have hbypassed := h.run_bypassed hg hrun hlive
    rwa [bypassedTo_of_ne hi] at hbypassed

end Bypasses

end Bypass

section Pruning

/-- No run from a reachable block leaves the reachable blocks. -/
theorem run_pruned_iff (hn : g.Numbered) (hg : g.Mirrored) (hlive : g.Live i c)
    (hi : i ∈ g.reachable) : g.pruned.Run i t e ↔ g.Run i t e := by
  have hkept {i : BlockId} {c : Block} (hlive : g.Live i c) (hi : i ∈ g.reachable) :
      g.pruned.block? i = some (g.severedBlock g.unreachable i c) :=
    ((live_pruned_iff hn).2 ⟨c, hlive, hi, rfl⟩).1
  let P (i : BlockId) : Prop := i ∈ g.reachable ∧ ∃ c, g.Live i c
  have hclosed {i : BlockId} {c : Block} (hi : i ∈ g.reachable) (hc : g.Live i c) :
      ∀ j ∈ c.successors, P j :=
    fun j hj => ⟨hg.mem_reachable hc hi hj, hg.successor_live hc hj⟩
  have hP : P i := ⟨hi, c, hlive⟩
  constructor
  · intro hrun
    refine hrun.transfer (P := P) (fun {i c} hP hc => ?_) (fun {i c} hP hc => ?_) hP
    · obtain ⟨hi, d, hd⟩ := hP
      obtain rfl := Option.some.inj (hc.symm.trans (hkept hd hi))
      exact ⟨d, hd.1, rfl, rfl, rfl⟩
    · obtain ⟨hi, d, hd⟩ := hP
      obtain rfl := Option.some.inj (hc.symm.trans (hkept hd hi))
      exact fun j hj => hclosed hi hd j hj
  · intro hrun
    refine hrun.transfer (P := P) (fun {i c} hP hc => ?_) (fun {i c} hP hc => ?_) hP
    · obtain ⟨hi, d, hd⟩ := hP
      obtain rfl := Option.some.inj (hc.symm.trans hd.1)
      exact ⟨_, hkept hd hi, rfl, rfl, rfl⟩
    · obtain ⟨hi, d, hd⟩ := hP
      obtain rfl := Option.some.inj (hc.symm.trans hd.1)
      exact hclosed hi hd

end Pruning

theorem Rooted.pruned (h : g.Rooted) (hn : g.Numbered) : g.pruned.Rooted := by
  obtain ⟨b, hb, hnone⟩ := h
  have hreached : g.entry ∈ g.reachable := mem_reachable_iff.2 ⟨hb.lt_size, .refl⟩
  exact ⟨_, (live_pruned_iff hn).2 ⟨b, hb, hreached, rfl⟩, by simp [severedBlock, hnone]⟩

/-- A block that is entered is not the entry. -/
theorem Bypasses.entry_ne (h : g.Bypasses id target b) (hentered : b.predecessors ≠ [])
    (hroot : g.Rooted) : g.entry ≠ id := by
  obtain ⟨c, hc, hnone⟩ := hroot
  intro hid
  rw [hid] at hc
  rw [hc.eq h.source] at hnone
  exact hentered hnone

theorem Rewrites.rooted (h : g.Rewrites g') (hg : g.Mirrored) (hroot : g.Rooted) : g'.Rooted := by
  have hroot' := hroot
  obtain ⟨c, hc, hnone⟩ := hroot
  rw [Rooted, h.entry_eq]
  cases h with
  | @absorb id next b n habsorbs hne hinner =>
    refine ⟨_, live_absorbed_iff.2 ⟨c, hc, hinner, rfl⟩, ?_⟩
    rw [predecessors_absorbedBlock _ hinner]
    split <;> simp [Block.replacePredecessor, hnone]
  | @bypass id target b hbypasses hentered =>
    -- The bypassed block is entered, and the block behind it is entered from there.
    have hid := hbypasses.entry_ne hentered hroot'
    have htarget : target ≠ g.entry := by
      intro htarget
      have hmem := (hg.mem_predecessors_iff hbypasses.source hc).2 (by
        rw [hbypasses.successors, htarget]
        exact List.mem_cons_self)
      rw [hnone] at hmem
      cases hmem
    refine ⟨_, live_bypassed_iff.2 ⟨c, hc, hid, rfl⟩, ?_⟩
    rw [predecessors_bypassedBlock _ _ _ hid, if_neg htarget, hnone]

/-- The exit, if it is there, has no successors. -/
def ExitEnds (g : Graph) : Prop :=
  ∀ b, g.block? g.exit = some b → b.successors = []

/-- Two graphs have the same runs from their entries. -/
structure SameRuns (g g' : Graph) : Prop where
  cut_iff : ∀ t, g.Run g.entry t .cut ↔ g'.Run g'.entry t .cut
  complete_iff : ∀ t,
    (∃ last, g.Run g.entry t (.complete last)) ↔ ∃ last, g'.Run g'.entry t (.complete last)
  exit_iff : g.ExitEnds →
    g'.ExitEnds ∧ ∀ t, g.Run g.entry t (.complete g.exit) ↔ g'.Run g'.entry t (.complete g'.exit)

namespace SameRuns

theorem refl (g : Graph) : SameRuns g g :=
  ⟨fun _ => Iff.rfl, fun _ => Iff.rfl, fun h => ⟨h, fun _ => Iff.rfl⟩⟩

theorem trans {g'' : Graph} (h : SameRuns g g') (h' : SameRuns g' g'') : SameRuns g g'' where
  cut_iff t := (h.cut_iff t).trans (h'.cut_iff t)
  complete_iff t := (h.complete_iff t).trans (h'.complete_iff t)
  exit_iff hexit :=
    have h₁ := h.exit_iff hexit
    have h₂ := h'.exit_iff h₁.1
    ⟨h₂.1, fun t => (h₁.2 t).trans (h₂.2 t)⟩

/-- Runs are the same when they only end in blocks with other ids. -/
theorem of_rename {f : BlockId → BlockId}
    (hrun : ∀ {t e}, g'.Run g'.entry t e ↔ ∃ e', e'.rename f = e ∧ g.Run g.entry t e')
    (hexit : g.ExitEnds → g'.ExitEnds ∧
      ∀ {last c}, g.block? last = some c → c.successors = [] → (f last = g'.exit ↔ last = g.exit)) :
    SameRuns g g' where
  cut_iff t := by
    rw [hrun]
    constructor
    · exact fun h => ⟨.cut, rfl, h⟩
    · rintro ⟨_ | _, he, h⟩
      · exact h
      · cases he
  complete_iff t := by
    constructor
    · rintro ⟨last, h⟩
      exact ⟨f last, hrun.2 ⟨.complete last, rfl, h⟩⟩
    · rintro ⟨last, h⟩
      obtain ⟨_ | last', he, h'⟩ := hrun.1 h
      · cases he
      · exact ⟨last', h'⟩
  -- A complete run is renamed to one that ends in the new exit exactly if it ended in the old one.
  exit_iff hends := by
    obtain ⟨hends', hlast⟩ := hexit hends
    refine ⟨hends', fun t => ?_⟩
    rw [hrun]
    constructor
    · intro h
      obtain ⟨c, hc, hnone⟩ := h.exists_last
      exact ⟨.complete g.exit, by rw [Ending.rename, (hlast hc hnone).2 rfl], h⟩
    · rintro ⟨_ | last, he, h⟩
      · cases he
      · obtain ⟨c, hc, hnone⟩ := h.exists_last
        rwa [← (hlast hc hnone).1 (Ending.complete.inj he)]

/-- Runs are the same when they end in the same blocks. -/
theorem of_run_iff (hrun : ∀ {t e}, g'.Run g'.entry t e ↔ g.Run g.entry t e)
    (hexit : g.ExitEnds → g'.ExitEnds ∧ g'.exit = g.exit) : SameRuns g g' where
  cut_iff _ := hrun.symm
  complete_iff _ := exists_congr fun _ => hrun.symm
  exit_iff hends := by
    obtain ⟨hends', heq⟩ := hexit hends
    refine ⟨hends', fun t => ?_⟩
    rw [heq]
    exact hrun.symm

end SameRuns

theorem sameRuns_pruned (hn : g.Numbered) (hg : g.Mirrored) (hroot : g.Rooted) :
    SameRuns g g.pruned := by
  obtain ⟨b, hb, -⟩ := hroot
  have hreached : g.entry ∈ g.reachable := mem_reachable_iff.2 ⟨hb.lt_size, .refl⟩
  refine .of_run_iff (run_pruned_iff hn hg hb hreached) fun hends => ⟨?_, rfl⟩
  intro c' hc'
  rw [block?_pruned, Option.map_eq_some_iff] at hc'
  obtain ⟨c, hc, rfl⟩ := hc'
  unfold prunedBlock
  split
  · rfl
  · exact hends c hc

/-- The exit goes along with the statements of its block. -/
theorem Absorbs.sameRuns (h : g.Absorbs id next b n) (hg : g.Mirrored) (hne : id ≠ next)
    (hinner : g.entry ≠ next) (hroot : g.Rooted) : SameRuns g (g.absorbed id next n) := by
  obtain ⟨c, hc, -⟩ := hroot
  have hrun {t : List Emission} {e : Ending} :=
    h.run_absorbed_iff hg hne (t := t) (e := e) hc hinner
  refine .of_rename (f := absorbedInto id next) ?_ fun hends => ?_
  · rw [entry_absorbed]
    exact hrun
  -- The absorbing block has a successor, so neither the exit nor the end of a run is there.
  have hsource {i : BlockId} {d : Block} (hd : g.block? i = some d) (hnone : d.successors = []) :
      i ≠ id := by
    rintro rfl
    rw [Option.some.inj (hd.symm.trans h.source.1), h.successors] at hnone
    cases hnone
  have hexit : g.exit ≠ id := by
    intro hexit
    have hblock : g.block? g.exit = some b := by
      rw [hexit]
      exact h.source.1
    exact hsource hblock (hends b hblock) hexit
  refine ⟨?_, fun {last d} hd hnone => ?_⟩
  · intro c' hc'
    rw [exit_absorbed] at hc'
    split at hc'
    · rename_i hnext
      obtain ⟨d, hd, -, -, hsuccessors⟩ := h.exists_source hne
      obtain rfl := Option.some.inj (hc'.symm.trans hd)
      exact hsuccessors.trans (hends n (hnext ▸ h.target.1))
    · rename_i hnext
      rw [block?_absorbed, Option.map_eq_some_iff] at hc'
      obtain ⟨d, hd, rfl⟩ := hc'
      rw [successors_absorbedBlock _ hnext, if_neg (Ne.symm hexit)]
      exact hends d hd
  · have hlast := hsource hd hnone
    rw [exit_absorbed, absorbedInto]
    split_ifs with h₁ h₂ h₂
    · exact iff_of_true rfl (h₁.trans h₂.symm)
    · exact iff_of_false (Ne.symm hexit) fun heq => h₂ (heq ▸ h₁)
    · exact iff_of_false hlast fun heq => h₁ (heq.trans h₂)
    · exact Iff.rfl

theorem Bypasses.sameRuns (h : g.Bypasses id target b) (hg : g.Mirrored)
    (hentered : b.predecessors ≠ []) (hroot : g.Rooted) :
    SameRuns g (g.bypassed id target b.predecessors) := by
  have hid := h.entry_ne hentered hroot
  obtain ⟨c, hc, -⟩ := hroot
  refine .of_run_iff ?_ fun hends => ?_
  · rw [entry_bypassed]
    exact h.run_bypassed_iff hg hc hid
  have hexit : g.exit ≠ id := by
    intro hexit
    have hnone := hends b (by rw [hexit]; exact h.source.1)
    rw [h.successors] at hnone
    cases hnone
  have heq : (g.bypassed id target b.predecessors).exit = g.exit := by
    rw [exit_bypassed, if_neg hexit]
  refine ⟨fun c' hc' => ?_, heq⟩
  rw [heq, block?_bypassed, Option.map_eq_some_iff] at hc'
  obtain ⟨d, hd, rfl⟩ := hc'
  rw [successors_bypassedBlock _ _ _ hexit, hends d hd]
  split <;> rfl

theorem Rewrites.sameRuns (h : g.Rewrites g') (hg : g.Mirrored) (hroot : g.Rooted) :
    SameRuns g g' := by
  cases h with
  | absorb habsorbs hne hinner => exact habsorbs.sameRuns hg hne hinner hroot
  | bypass hbypasses hentered => exact hbypasses.sameRuns hg hentered hroot

/-- What holds of every step of simplification holds of any number of them. -/
theorem RewritesTo.sameRuns (h : g.RewritesTo g') (hg : g.Consistent) (hroot : g.Rooted) :
    SameRuns g g' :=
  (h.preserves (P := fun k => k.Consistent ∧ k.Rooted ∧ SameRuns g k)
    (fun step hk => ⟨step.consistent hk.1, step.rooted hk.1.mirrored hk.2.1,
      hk.2.2.trans (step.sameRuns hk.1.mirrored hk.2.1)⟩) ⟨hg, hroot, .refl g⟩).2.2

end Graph

namespace Edit

variable {g : Graph}

/-- Simplification succeeds and keeps the runs. -/
theorem exists_run_simplify_sameRuns (hg : g.Consistent) (hroot : g.Rooted) :
    ∃ report g', simplify.run g = .ok report g' ∧ g.SameRuns g' := by
  have hpruned : g.pruned.Consistent := ⟨hg.numbered.pruned, hg.mirrored.pruned hg.numbered⟩
  have hroot' := hroot.pruned hg.numbered
  obtain ⟨b, hb, -⟩ := hroot'
  obtain ⟨report, g', hrun, hrewrites⟩ := exists_run_simplify hg hb.settled
  exact ⟨report, g', hrun, (Graph.sameRuns_pruned hg.numbered hg.mirrored hroot).trans
    (hrewrites.sameRuns hpruned (hroot.pruned hg.numbered))⟩

/-- Simplification succeeds on a graph that passes the check of its edges and to whose live entry no
edge leads, and it keeps the runs: those that are cut off, the complete ones, and, if nothing comes
after the exit, the complete ones that end there. -/
theorem simplify_keeps_runs (hn : g.Numbered) (hcheck : g.checkEdges = .ok ()) {b : Block}
    (hentry : g.block? g.entry = some b) (hlive : b.isDetached = false)
    (hroot : b.predecessors = []) :
    ∃ report g', simplify.run g = .ok report g' ∧
      (∀ t, g.Run g.entry t .cut ↔ g'.Run g'.entry t .cut) ∧
      (∀ t, (∃ last, g.Run g.entry t (.complete last)) ↔
        ∃ last, g'.Run g'.entry t (.complete last)) ∧
      ((∀ c, g.block? g.exit = some c → c.successors = []) →
        ∀ t, g.Run g.entry t (.complete g.exit) ↔ g'.Run g'.entry t (.complete g'.exit)) := by
  have hg : g.Consistent := ⟨hn, (Graph.checkEdges_eq_ok_iff hn).1 hcheck⟩
  obtain ⟨report, g', hrun, hsame⟩ :=
    exists_run_simplify_sameRuns hg ⟨b, ⟨hentry, hlive⟩, hroot⟩
  exact ⟨report, g', hrun, hsame.cut_iff, hsame.complete_iff, fun hends => (hsame.exit_iff hends).2⟩

/-- A loop over a condition whose body is empty, and a straight line behind it to the exit. -/
private def waiting : Graph :=
  { blocks := #[
      { id := 0, kind := .base, statements := [.ident "a"], successors := [1] },
      { id := 1, kind := .condition, statements := [.ident "b"], predecessors := [0, 2],
        successors := [2, 3] },
      { id := 2, kind := .base, predecessors := [1], successors := [1] },
      { id := 3, kind := .base, statements := [.ident "c"], predecessors := [1],
        successors := [4] },
      { id := 4, kind := .base, statements := [.ident "d"], predecessors := [3] }]
    exit := 4 }

private theorem numbered_waiting : waiting.Numbered := by
  intro i b hb
  obtain ⟨hi, rfl⟩ := Array.getElem?_eq_some_iff.1 hb
  have hids : ∀ i : Fin 5, waiting.blocks[i].id = i := by decide
  exact hids ⟨i, hi⟩

theorem simplify_keeps_runs_waiting :
    waiting.Numbered ∧ waiting.checkEdges = .ok () ∧
      ∃ report g', simplify.run waiting = .ok report g' ∧
        (∀ t, waiting.Run 0 t .cut ↔ g'.Run g'.entry t .cut) ∧
        (∀ t, (∃ last, waiting.Run 0 t (.complete last)) ↔
          ∃ last, g'.Run g'.entry t (.complete last)) ∧
        ∀ t, waiting.Run 0 t (.complete 4) ↔ g'.Run g'.entry t (.complete g'.exit) := by
  have hcheck : waiting.checkEdges = .ok () := rfl
  obtain ⟨report, g', hrun, hcut, hcomplete, hexit⟩ :=
    simplify_keeps_runs numbered_waiting hcheck rfl rfl rfl
  refine ⟨numbered_waiting, hcheck, report, g', hrun, hcut, hcomplete, hexit ?_⟩
  rintro c ⟨⟩
  rfl

end Edit

end FlowGraph
