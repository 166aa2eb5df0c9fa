import FlowGraph.Proofs.Construction.Guarded
import FlowGraph.Proofs.Simplification.Kept

/-!
# The first blocks of branches under simplification

A block keeps its color as long as it is live, and the block in a slot of a condition stays there as
long as it is live: a condition is neither absorbed nor bypassed, and what a condition leads to is
not absorbed. So it is only by a bypass that a branch loses its first block. A pass comes to the
condition before it comes to its branches, and bypasses what is empty behind the condition before an
empty block there can take anything over. So the first block of a branch is lost exactly if it is an
empty block that only goes on with another one.

## Main definitions

* `Graph.Retains`: a condition that has a block in a slot unless the block was detached
* `Graph.Opening`: an empty first block of a branch that has not taken anything over

## Main results

* `Graph.RewritesTo.exists_color`: blocks keep their color
* `Edit.exists_live_iff_of_branches`: which first blocks of branches stay
-/

namespace FlowGraph

namespace Graph

variable {g g' : Graph} {id next target i j cond slot : BlockId} {b c n : Block}

/-! ### Colors -/

theorem color_absorbedBlock (id next : BlockId) (n : Block) (i : BlockId) (block : Block) :
    (absorbedBlock id next n i block).color = block.color := by
  unfold absorbedBlock
  split_ifs <;> rfl

/-- A step of simplification changes no color. -/
theorem Rewrites.exists_color (h : g.Rewrites g') (hc : g'.Live i c) :
    ∃ b, g.Live i b ∧ c.color = b.color := by
  cases h with
  | absorb =>
    obtain ⟨b, hb, -, rfl⟩ := live_absorbed_iff.1 hc
    exact ⟨b, hb, color_absorbedBlock ..⟩
  | bypass =>
    obtain ⟨b, hb, hi, rfl⟩ := live_bypassed_iff.1 hc
    rw [bypassedBlock, if_neg hi.symm]
    exact ⟨b, hb, rfl⟩

theorem RewritesTo.exists_color (h : g.RewritesTo g') (hc : g'.Live i c) :
    ∃ b, g.Live i b ∧ c.color = b.color := by
  refine h.preserves (P := fun k => ∀ {c}, k.Live i c → ∃ b, g.Live i b ∧ c.color = b.color)
    (fun step hk c hc => ?_) (fun {c} hc => ⟨c, hc, rfl⟩) hc
  obtain ⟨d, hd, hcolor⟩ := step.exists_color hc
  obtain ⟨b, hb, hcolor'⟩ := hk hd
  exact ⟨b, hb, hcolor.trans hcolor'⟩

/-! ### Slots -/

/-- The condition `cond` is live and has block `i` in a slot, unless that was detached. -/
def Retains (g : Graph) (cond slot i : BlockId) : Prop :=
  ∃ b, g.Live cond b ∧ b.kind = .condition ∧ ((∃ c, g.Live i c) → b.successors[slot]? = some i)

namespace Retains

theorem exists_edge (h : g.Retains cond slot i) (hc : g.Live i c) :
    ∃ b, g.Live cond b ∧ b.kind = .condition ∧ i ∈ b.successors := by
  obtain ⟨b, hb, hkind, hslot⟩ := h
  exact ⟨b, hb, hkind, List.mem_of_getElem? (hslot ⟨c, hc⟩)⟩

theorem branches (h : g.Retains cond slot i) (hc : g.Live i c) : g.Branches cond slot i := by
  obtain ⟨b, hb, hkind, hslot⟩ := h
  exact ⟨b, hb.1, hkind, hslot ⟨c, hc⟩⟩

/-- What a condition leads to is not absorbed. -/
theorem ne_of_absorbs (h : g.Retains cond slot i) (hg : g.Mirrored)
    (habsorbs : g.Absorbs id next b n) : i ≠ next := by
  rintro rfl
  obtain ⟨d, hd, hkind, hedge⟩ := h.exists_edge habsorbs.target
  obtain rfl := habsorbs.eq_of_mem_successors hg hd hedge
  obtain rfl := hd.eq habsorbs.source
  cases hkind.symm.trans habsorbs.source_kind

/-- No edge leads to the entry, in particular none out of a condition. -/
theorem ne_entry (h : g.Retains cond slot i) (hg : g.Mirrored) (hroot : g.Rooted) :
    i ≠ g.entry := by
  obtain ⟨e, he, hnone⟩ := hroot
  rintro rfl
  obtain ⟨d, hd, -, hedge⟩ := h.exists_edge he
  have hmem := (hg.mem_predecessors_iff hd he).2 hedge
  rw [hnone] at hmem
  cases hmem

theorem rewrites (h : g.Retains cond slot i) (hg : g.Mirrored) (step : g.Rewrites g') :
    g'.Retains cond slot i := by
  obtain ⟨d, hd, hkind, hslot⟩ := h
  -- A condition neither absorbs, nor is it absorbed or bypassed.
  cases step with
  | @absorb id next b n absorbs =>
    have hnext : cond ≠ next := by
      rintro rfl
      cases hkind.symm.trans (hd.eq absorbs.target ▸ absorbs.target_kind)
    have hid : id ≠ cond := by
      rintro rfl
      cases hkind.symm.trans (hd.eq absorbs.source ▸ absorbs.source_kind)
    refine ⟨_, live_absorbed_iff.2 ⟨d, hd, hnext, rfl⟩, ?_, ?_⟩
    · rw [kind_absorbedBlock, hkind]
    · rintro ⟨_, hc⟩
      obtain ⟨c, hc, -⟩ := live_absorbed_iff.1 hc
      rw [successors_absorbedBlock d hnext, if_neg hid]
      exact hslot ⟨c, hc⟩
  | @bypass id target b bypasses =>
    have hid : cond ≠ id := by
      rintro rfl
      cases hkind.symm.trans (hd.eq bypasses.source ▸ bypasses.kind)
    refine ⟨_, live_bypassed_iff.2 ⟨d, hd, hid, rfl⟩, ?_, ?_⟩
    · rw [bypassedBlock, if_neg hid.symm, hkind]
    · rintro ⟨_, hc⟩
      obtain ⟨c, hc, hi, -⟩ := live_bypassed_iff.1 hc
      rw [bypasses.successors_eq hg hd hid, List.getElem?_map, hslot ⟨c, hc⟩, Option.map_some,
        if_neg (by simpa using hi)]

/-- A block in a slot of a condition that cannot be bypassed stays so. -/
theorem stands (h : g.Retains cond slot i) (hg : g.Mirrored) (hs : g.Stands i)
    (step : g.Rewrites g') : g'.Stands i := by
  cases step with
  | absorb absorbs hne => exact absorbs.stands hne (h.ne_of_absorbs hg absorbs) hs
  | bypass bypasses => exact bypasses.stands hg hs

end Retains

/-- Pruning keeps the branches of reachable conditions. -/
theorem Branches.retains_pruned (h : g.Branches cond slot i) (hg : g.Consistent) (hroot : g.Rooted)
    (hcond : cond ∈ g.reachable) : g.pruned.Retains cond slot i := by
  obtain ⟨e, he, -⟩ := hroot
  obtain ⟨b, hb, hkind, hslot⟩ := h
  obtain ⟨d, hd⟩ := hg.mirrored.exists_live_of_mem_reachable he hcond
  obtain rfl := Option.some.inj (hb.symm.trans hd.1)
  exact ⟨_, (live_pruned_iff hg.numbered).2 ⟨b, hd, hcond, rfl⟩, hkind, fun _ => hslot⟩

theorem RewritesTo.retains (h : g.RewritesTo g') (hg : g.Consistent)
    (hr : g.Retains cond slot i) : g'.Retains cond slot i :=
  (h.preserves (P := fun k => k.Consistent ∧ k.Retains cond slot i)
    (fun step hk => ⟨step.consistent hk.1, hk.2.rewrites hk.1.mirrored step⟩) ⟨hg, hr⟩).2

theorem RewritesTo.exists_live_of_retains (h : g.RewritesTo g') (hg : g.Consistent)
    (hr : g.Retains cond slot i) (hs : g.Stands i) : ∃ c, g'.Live i c := by
  obtain ⟨-, -, c, hc, -⟩ := h.preserves
    (P := fun k => k.Consistent ∧ k.Retains cond slot i ∧ k.Stands i)
    (fun step hk => ⟨step.consistent hk.1, hk.2.1.rewrites hk.1.mirrored step,
      hk.2.1.stands hk.1.mirrored hk.2.2 step⟩) ⟨hg, hr, hs⟩
  exact ⟨c, hc⟩

/-! ### Empty first blocks -/

/-- Block `i`, unless it was detached, is an empty block in a slot of the condition `cond` that goes
on with one other block. -/
structure Opening (g : Graph) (cond slot i : BlockId) : Prop where
  consistent : g.Consistent
  tested : g.Tested
  retains : g.Retains cond slot i
  hollow : g.Hollow i

theorem Opening.rewrites (h : g.Opening cond slot i) (step : g.Rewrites g') (hh : g'.Hollow i) :
    g'.Opening cond slot i where
  consistent := step.consistent h.consistent
  tested := step.tested h.tested
  retains := h.retains.rewrites h.consistent.mirrored step
  hollow := hh

/-- When nothing is left to bypass behind the condition, the block was detached. -/
theorem Opening.not_live (h : g.Opening cond slot i) (hnone : g.bypassable? cond = .ok none) :
    ¬g.Live i c := by
  intro hc
  obtain ⟨target, hbypasses⟩ := h.hollow.exists_bypasses h.tested hc
  obtain ⟨b, hb, -, hedge⟩ := h.retains.exists_edge hc
  exact not_bypasses_of_bypassable? hnone h.consistent.numbered hb hedge hbypasses

/-- Another live block than the condition that leads to the block keeps it from absorbing. -/
theorem Opening.wide_of_edge (h : g.Opening cond slot i) (hj : g.Live j b)
    (hedge : i ∈ b.successors) (hne : j ≠ cond) : g.Wide i := by
  intro c hc
  obtain ⟨d, hd, -, hedge'⟩ := h.retains.exists_edge hc
  have hg := h.consistent.mirrored
  have hfirst : j ∈ c.predecessors := (hg.mem_predecessors_iff hj hc).2 hedge
  have hsecond : cond ∈ c.predecessors := (hg.mem_predecessors_iff hd hc).2 hedge'
  right
  refine Nat.lt_of_not_le fun hle => hne ?_
  match hp : c.predecessors, hle with
  | [p], _ =>
    rw [hp, List.mem_singleton] at hfirst hsecond
    exact hfirst.trans hsecond.symm
  | [], _ =>
    rw [hp] at hfirst
    cases hfirst

end Graph

namespace Edit

variable {g g' : Graph} {b : Block} {id i cond slot : BlockId}

/-- Absorbing at a block leaves the empty block as it is, unless it is that block itself and nothing
keeps it from absorbing. -/
theorem exists_run_absorption_opening (hg : g.Opening cond slot i) (hid : g.Settled id)
    (hwide : id = i → g.Wide i) : ∃ changed g', (absorption id).step.run g = .ok changed g' ∧
      g.RewritesTo g' ∧ g'.Opening cond slot i ∧ (id = i → g'.Wide i) := by
  obtain ⟨b, hb, -⟩ := hid
  have hm := hg.consistent.mirrored
  rcases hm.absorbable?_spec hb with hnone | ⟨next, n, hsome, habsorbs, hne, hinner, hnarrow⟩
  · exact ⟨false, g, run_searchAndAct_of_none hnone, .refl, hg, hwide⟩
  · have step : g.Rewrites (g.absorbed id next n) := .absorb habsorbs hne hinner hnarrow
    have hother : i ≠ id := fun heq => (hwide heq.symm).ne_of_narrow habsorbs hnarrow heq
    exact ⟨true, _, run_searchAndAct_of_some hsome (run_absorb hm habsorbs), .single step,
      hg.rewrites step (hg.hollow.absorbed hother _ _), fun heq => absurd heq.symm hother⟩

theorem exists_run_bypassing_opening (hg : g.Opening cond slot i) (hid : g.Settled id) :
    ∃ changed g', (bypassing id).step.run g = .ok changed g' ∧ g.RewritesTo g' ∧
      g'.Opening cond slot i := by
  obtain ⟨b, hb, hself⟩ := hid
  have hm := hg.consistent.mirrored
  have hn := hg.consistent.numbered
  rcases hm.bypassable?_spec hn hb hself with hnone | ⟨next, target, c, hsome, hbypasses, hmem⟩
  · exact ⟨false, g, run_searchAndAct_of_none hnone, .refl, hg⟩
  · have step : g.Rewrites (g.bypassed next target c.predecessors) :=
      .bypass hbypasses (List.ne_nil_of_mem hmem)
    exact ⟨true, _, run_searchAndAct_of_some hsome (run_bypass hm hn hbypasses), .single step,
      hg.rewrites step (hg.hollow.bypassed hbypasses hm)⟩

/-- What is done at the condition bypasses the empty block behind it, if that was not detached
before. -/
theorem exists_run_simplifyBlock_opening (hg : g.Opening cond slot i) (hid : g.Settled id)
    (hwide : id = i → g.Wide i) : ∃ count g', (simplifyBlock id).run g = .ok count g' ∧
      g.RewritesTo g' ∧ g'.Opening cond slot i ∧ (id = cond → ∀ c, ¬g'.Live i c) := by
  obtain ⟨absorbed, k, hrun₁, h₁, hk, hkid, -⟩ := (absorption id).exists_run_exhaust
    (P := fun k => k.Opening cond slot i ∧ k.Settled id ∧ (id = i → k.Wide i))
    (fun {k} ⟨hk, hid, hwide⟩ => by
      obtain ⟨changed, k', hrun, hrewrites, hk', hwide'⟩ :=
        exists_run_absorption_opening hk hid hwide
      exact ⟨changed, k', hrun, hrewrites, hk', hrewrites.settled hk.consistent hid, hwide'⟩)
    ⟨hg, hid, hwide⟩
  obtain ⟨bypassed, g', hrun₂, h₂, hg', -⟩ := (bypassing id).exists_run_exhaust
    (P := fun k => k.Opening cond slot i ∧ k.Settled id)
    (fun {k} ⟨hk, hid⟩ => by
      obtain ⟨changed, k', hrun, hrewrites, hk'⟩ := exists_run_bypassing_opening hk hid
      exact ⟨changed, k', hrun, hrewrites, hk', hrewrites.settled hk.consistent hid⟩) ⟨hk, hkid⟩
  refine ⟨absorbed + bypassed, g', ?_, h₁.trans h₂, hg', ?_⟩
  · rw [simplifyBlock, run_bind_of_run_eq_ok hrun₁, run_bind_of_run_eq_ok hrun₂]
    rfl
  · rintro rfl c
    obtain ⟨k₀, hlast⟩ := ShrinkingStep.exists_of_run_exhaust hrun₂
    obtain rfl := ShrinkingStep.eq_of_run_searchAndAct_false hlast
    exact hg'.not_live (ShrinkingStep.search_eq_ok_none hlast)

end Edit

/-- A pass in progress over a graph with an empty first block of a branch: from the time when the
condition is on the stack, the block is detached. -/
structure OpeningPass (g : Graph) (cond slot i : BlockId) (stack : List (BlockId × Nat))
    (s : PassState) : Prop where
  pass : PassInvariant g stack s
  opening : s.graph.Opening cond slot i
  bypassed : ∀ frame ∈ stack, frame.1 = cond → ∀ c, ¬s.graph.Live i c

/-- The empty block is entered from another block than the condition, if it is at all. -/
theorem OpeningPass.wide {g : Graph} {cond slot i frame k : Nat} {rest : List (BlockId × Nat)}
    {s : PassState} (h : OpeningPass g cond slot i ((frame, k) :: rest) s)
    (hi : i ∈ s.graph.successors frame) : s.graph.Wide i := by
  intro c hc
  obtain ⟨b, hb, hself⟩ := h.pass.settled (frame, k) List.mem_cons_self
  rw [Graph.successors, hb, Option.elim_some] at hi
  have hlive : b.isDetached = false := by
    refine Bool.eq_false_iff.2 fun hdetached => ?_
    obtain rfl := hself hdetached i hi
    rw [Option.some.inj (hb.symm.trans hc.1), hc.2] at hdetached
    cases hdetached
  have hne : frame ≠ cond := fun heq => h.bypassed (frame, k) List.mem_cons_self heq c hc
  exact h.opening.wide_of_edge ⟨hb, hlive⟩ hi hne hc

theorem passWalk_openingPass (g : Graph) (cond slot i : BlockId) :
    passWalk.Invariant g.size fun stack _ s => OpeningPass g cond slot i stack s where
  inRange := by
    intro frame k rest _ s block h hslot
    rw [← h.pass.rewrites.size_eq]
    exact (h.pass.settled_next (List.mem_of_getElem? hslot)).lt_size
  leave := fun h _ =>
    ⟨⟨h.pass.rewrites, h.pass.consistent, (List.forall_mem_cons.1 h.pass.settled).2⟩, h.opening,
      (List.forall_mem_cons.1 h.bypassed).2⟩
  again := by
    intro frame k rest seen s block h hslot hseen
    refine ⟨(passWalk_invariant g).again h.pass hslot hseen, h.opening, ?_⟩
    rw [List.forall_mem_cons]
    exact List.forall_mem_cons.1 h.bypassed
  enter := by
    intro frame k rest seen s block h hslot hnew
    obtain ⟨child, s', henter, hpass⟩ := (passWalk_invariant g).enter h.pass hslot hnew
    obtain ⟨count, g', hrun, hchild, rfl⟩ := PassState.exists_of_simplifyBlock henter
    subst child
    have hblock : block ∈ s.graph.successors frame := List.mem_of_getElem? hslot
    obtain ⟨_, _, hrun', hrewrites, hopening, hcond⟩ :=
      Edit.exists_run_simplifyBlock_opening h.opening (h.pass.settled_next hblock)
        fun heq => h.wide (heq ▸ hblock)
    cases hrun'.symm.trans hrun
    refine ⟨block, _, henter, hpass, hopening, ?_⟩
    rw [List.forall_mem_cons]
    -- What was detached before stays detached.
    refine ⟨hcond, fun other hother heq c hc => ?_⟩
    obtain ⟨b, hb, -⟩ := hrewrites.inherits hc
    rcases List.mem_cons.1 hother with rfl | hother
    · exact h.bypassed (frame, k) List.mem_cons_self heq b hb
    · exact h.bypassed other (List.mem_cons_of_mem _ hother) heq b hb

namespace Edit

variable {g g' : Graph} {b : Block} {i cond slot : BlockId}

/-- A pass leaves an empty first block of a branch as it is, unless it detaches it. -/
theorem exists_run_pass_opening (hg : g.Opening cond slot i) (hentry : g.Settled g.entry)
    (hne : i ≠ g.entry) : ∃ count g', pass.run g = .ok count g' ∧ g.RewritesTo g' ∧
      g'.Opening cond slot i := by
  obtain ⟨count, g₁, hrun, hrewrites, hopening, hcond⟩ :=
    exists_run_simplifyBlock_opening hg hentry fun heq => absurd heq.symm hne
  have henter : passWalk.enter g.entry g.entry ⟨g, 0⟩ = .ok g.entry ⟨g₁, 0 + count⟩ := by
    simp only [passWalk, PassState.simplifyBlock, hrun]
  have hstart : OpeningPass g cond slot i [(g.entry, 0)] ⟨g₁, 0 + count⟩ :=
    { pass := ⟨hrewrites, hopening.consistent, by
        simpa using hrewrites.settled hg.consistent hentry⟩
      opening := hopening
      bypassed := by simpa using hcond }
  obtain ⟨_, t, hwalk, hend⟩ :=
    (passWalk_openingPass g cond slot i).exists_run hentry.lt_size henter hstart
  refine ⟨t.changes, t.graph, ?_, hend.pass.rewrites, hend.opening⟩
  change pass g = _
  rw [pass, hwalk]

/-- Simplification leaves an empty first block of a branch as it is, unless it detaches it. -/
theorem opening_of_run_simplify {report : SimplificationReport} (hg : g.Consistent)
    (hp : g.pruned.Opening cond slot i) (hentry : g.pruned.Settled g.pruned.entry)
    (hne : i ≠ g.pruned.entry) (hrun : simplify.run g = .ok report g') :
    g'.Opening cond slot i := by
  obtain ⟨passes, k, hexhaust, -, hopening, -⟩ := passing.exists_run_exhaust
    (P := fun k => k.Opening cond slot i ∧ k.Settled k.entry ∧ i ≠ k.entry)
    (fun {k} ⟨hk, hentry, hne⟩ => by
      obtain ⟨count, k', hpass, hrewrites, hk'⟩ := exists_run_pass_opening hk hentry hne
      refine ⟨count != 0, k', run_passOnce hpass, hrewrites, hk', ?_, ?_⟩
      · rw [hrewrites.entry_eq]
        exact hrewrites.settled hk.consistent hentry
      · rwa [hrewrites.entry_eq]) ⟨hp, hentry, hne⟩
  rw [simplify, run_bind_of_run_eq_ok (run_prune hg.mirrored hg.numbered),
    run_bind_of_run_eq_ok hexhaust] at hrun
  cases hrun
  exact hopening

/-- Simplification keeps the first block of a branch exactly if it is not an empty one that goes on
with one other block. -/
theorem exists_live_iff_of_branches {report : SimplificationReport} (hg : g.Consistent)
    (hroot : g.Rooted) (ht : g.Tested) (hcond : cond ∈ g.reachable) (hi : g.Branches cond slot i)
    (hb : g.Live i b) (hrun : simplify.run g = .ok report g') :
    (∃ c, g'.Live i c) ↔ b.isForwarding = false := by
  have hn := hg.numbered
  have hpruned : g.pruned.Consistent := ⟨hn.pruned, hg.mirrored.pruned hn⟩
  have hretains := hi.retains_pruned hg hroot hcond
  have hreached : i ∈ g.reachable := by
    obtain ⟨d, hd, -, hslot⟩ := hi
    refine Graph.mem_reachable_of_mem_successors hcond ?_ hb.lt_size
    rw [Graph.successors, hd]
    exact List.mem_of_getElem? hslot
  have hp : g.pruned.Live i (g.severedBlock g.unreachable i b) :=
    (Graph.live_pruned_iff hn).2 ⟨b, hb, hreached, rfl⟩
  -- Entries do not matter for whether a block can be bypassed.
  have hforwarding : (g.severedBlock g.unreachable i b).isForwarding = b.isForwarding := rfl
  obtain ⟨_, _, hrun', hrewrites, -, -, hnormal⟩ := exists_run_simplify_normalForm hg hroot
  cases hrun'.symm.trans hrun
  rw [← hforwarding]
  constructor
  · rintro ⟨c, hc⟩
    refine Bool.eq_false_iff.2 fun hforward => ?_
    obtain ⟨target, hbypasses⟩ := (hp.isForwarding_iff hn.pruned).1 hforward
    have hne := hretains.ne_entry hpruned.mirrored (hroot.pruned hn)
    obtain ⟨e, he, -⟩ := hroot.pruned hn
    have hopening := opening_of_run_simplify hg
      ⟨hpruned, ht.pruned, hretains, hbypasses.hollow⟩ he.settled hne hrun
    have hforward' := (hc.isForwarding_iff hopening.consistent.numbered).2
      (hopening.hollow.exists_bypasses hopening.tested hc)
    have hinner : i ≠ g'.entry := by rwa [hrewrites.entry_eq]
    cases (hnormal.not_forwarding hc hinner).symm.trans hforward'
  · intro hnot
    refine hrewrites.exists_live_of_retains hpruned hretains ⟨_, hp, fun target hbypasses => ?_⟩
    rw [(hp.isForwarding_iff hn.pruned).2 ⟨target, hbypasses⟩] at hnot
    cases hnot

end Edit

end FlowGraph
