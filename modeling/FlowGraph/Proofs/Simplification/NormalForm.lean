import FlowGraph.Proofs.Simplification.Entry

/-!
# The normal form of simplification

A graph that was simplified has only reachable blocks, none of them empty without need, and no block
that could be merged with its successor. Simplification finds nothing to do in such a graph: it
prunes no block, its first pass changes nothing, and the graph stays as it is.

## Main definitions

* `Graph.NormalForm`: a graph in which nothing is left to simplify

## Main results

* `Graph.Simplified.normalForm`: what a pass without changes has seen is a normal form
* `Edit.exists_run_simplify_normalForm`: simplification of a graph whose entry is live and has no
  edge into it leads to a normal form
* `Edit.run_simplify_of_normalForm`: normal forms are not changed
* `Edit.simplify_reaches_normalForm`: both, for the graphs that validation accepts
-/

namespace FlowGraph

namespace Graph

variable {g g' : Graph} {i id next : BlockId} {b c n : Block}

/-- Nothing is left to simplify. -/
structure NormalForm (g : Graph) : Prop where
  /-- The live blocks are those that the entry leads to. -/
  live_iff : ∀ i, (∃ b, g.Live i b) ↔ i ∈ g.reachable
  /-- Only the entry may be empty and go on with one other block. -/
  not_forwarding : ∀ ⦃i b⦄, g.Live i b → i ≠ g.entry → b.isForwarding = false
  /-- A block that could absorb its successor, which is not the entry, is entered more than once. -/
  not_absorbs : ∀ ⦃id next b n⦄, g.Absorbs id next b n → id ≠ next → g.entry ≠ next →
    1 < b.predecessors.length

/-- In a graph without unreachable blocks there is nothing to prune. -/
theorem pruned_eq_self (h : g.unreachable = []) : g.pruned = g := by
  refine ext_block? rfl (fun i => ?_) rfl rfl
  rw [block?_pruned, h]
  cases hi : g.block? i <;> simp [prunedBlock, severedBlock_eq_self]

theorem NormalForm.unreachable_eq_nil (h : g.NormalForm) (hn : g.Numbered) :
    g.unreachable = [] := by
  refine List.eq_nil_iff_forall_not_mem.2 fun i hi => ?_
  obtain ⟨hlive, hnot⟩ := (mem_unreachable_iff hn).1 hi
  exact hnot ((h.live_iff i).1 hlive)

/-- When nothing is left to do at any reachable block, a graph without other live blocks is in
normal form. -/
theorem Simplified.normalForm (h : g.Simplified) (hg : g.Consistent) (hb : g.Live g.entry b)
    (hs : g.Spanned) : g.NormalForm where
  live_iff i := ⟨fun ⟨_, hc⟩ => hs hc, hg.mirrored.exists_live_of_mem_reachable hb⟩
  not_forwarding := by
    intro i c hc hi
    -- The last pass has come to a block in front of this one.
    obtain ⟨p, hp, hedge⟩ := exists_reachable_predecessor (hs hc) hi
    obtain ⟨d, hd⟩ := hg.mirrored.exists_live_of_mem_reachable hb hp
    rw [hd.successors] at hedge
    refine Bool.eq_false_iff.2 fun hforward => ?_
    obtain ⟨target, hbypasses⟩ := (hc.isForwarding_iff hg.numbered).1 hforward
    exact (h p hp).not_bypasses hg.numbered hd hedge hbypasses
  not_absorbs := by
    intro id next c n habsorbs hne hinner
    refine Nat.lt_of_not_le fun hnarrow => ?_
    have hsome := habsorbs.absorbable?_eq hne hinner hnarrow
    cases (h id (hs habsorbs.source)).1.symm.trans hsome

/-- At no block of a normal form anything is left to do if the entry is not entered. -/
theorem NormalForm.simplified (h : g.NormalForm) (hg : g.Consistent) (hroot : g.Rooted) :
    g.Simplified := by
  intro i hi
  obtain ⟨b, hb⟩ := (h.live_iff i).2 hi
  constructor
  · rcases hg.mirrored.absorbable?_spec hb.1 with hnone | ⟨next, n, -, habsorbs, hne, hinner, hle⟩
    · exact hnone
    · exact absurd hle (Nat.not_le_of_lt (h.not_absorbs habsorbs hne hinner))
  · rcases hg.mirrored.bypassable?_spec hg.numbered hb.1 (by simp [hb.2]) with
      hnone | ⟨next, target, c, -, hbypasses, hmem⟩
    · exact hnone
    · have hforward := (hbypasses.source.isForwarding_iff hg.numbered).2 ⟨target, hbypasses⟩
      have hinner : next ≠ g.entry := by
        rintro rfl
        obtain ⟨e, he, hnil⟩ := hroot
        rw [he.eq hbypasses.source] at hnil
        rw [hnil] at hmem
        cases hmem
      rw [h.not_forwarding hbypasses.source hinner] at hforward
      cases hforward

end Graph

namespace Edit

variable {g : Graph} {b : Block} {i : BlockId}

/-- A block at which nothing is left to do stays as it is. -/
theorem run_simplifyBlock_of_idle (h : g.Idle i) : (simplifyBlock i).run g = .ok 0 g := by
  have habsorbed := (absorption i).run_exhaust_of_false (run_searchAndAct_of_none h.1)
  have hbypassed := (bypassing i).run_exhaust_of_false (run_searchAndAct_of_none h.2)
  rw [simplifyBlock, run_bind_of_run_eq_ok habsorbed, run_bind_of_run_eq_ok hbypassed]
  rfl

end Edit

/-- A pass in progress that has changed nothing so far and is at reachable blocks. -/
structure IdlePass (g : Graph) (stack : List (BlockId × Nat)) (s : PassState) : Prop where
  state_eq : s = ⟨g, 0⟩
  reachable : ∀ frame ∈ stack, frame.1 ∈ g.reachable

/-- As long as there is nothing to do at the reachable blocks, a pass changes nothing. -/
theorem idle_passWalk {g : Graph} {b : Block} (h : g.Simplified) (hg : g.Mirrored)
    (hb : g.Live g.entry b) :
    passWalk.Invariant g.size fun stack _ s => IdlePass g stack s := by
  have hnext {frame slot : Nat} {rest : List (BlockId × Nat)} {s : PassState} {block : BlockId}
      (hI : IdlePass g ((frame, slot) :: rest) s)
      (hslot : (passWalk.slots s frame)[slot]? = some block) : block ∈ g.reachable := by
    obtain ⟨rfl, hstack⟩ := hI
    have hframe := hstack _ List.mem_cons_self
    obtain ⟨c, hc⟩ := hg.exists_live_of_mem_reachable hb hframe
    have hmem : block ∈ g.successors frame := List.mem_of_getElem? hslot
    exact hg.mem_reachable hc hframe (hc.successors ▸ hmem)
  refine
    { inRange := fun hI hslot => ?_
      leave := fun hI _ => ⟨hI.state_eq, (List.forall_mem_cons.1 hI.reachable).2⟩
      again := fun hI _ _ => ⟨hI.state_eq, ?_⟩
      enter := fun {frame slot rest seen s block} hI hslot _ =>
        ⟨block, s, ?_, hI.state_eq, ?_⟩ }
  · obtain ⟨c, hc⟩ := hg.exists_live_of_mem_reachable hb (hnext hI hslot)
    exact hc.lt_size
  · rw [List.forall_mem_cons]
    exact List.forall_mem_cons.1 hI.reachable
  · have hidle := h _ (hnext hI hslot)
    obtain ⟨rfl, -⟩ := hI
    simp [passWalk, PassState.simplifyBlock, Edit.run_simplifyBlock_of_idle hidle]
  · rw [List.forall_mem_cons, List.forall_mem_cons]
    exact ⟨hnext hI hslot, List.forall_mem_cons.1 hI.reachable⟩

namespace Edit

variable {g : Graph} {b : Block}

/-- A pass over a graph in which nothing is left to do changes nothing. -/
theorem run_pass_of_simplified (h : g.Simplified) (hg : g.Mirrored) (hb : g.Live g.entry b) :
    pass.run g = .ok 0 g := by
  have hentry : g.entry ∈ g.reachable := Graph.mem_reachable_iff.2 ⟨hb.lt_size, .refl⟩
  have henter : passWalk.enter g.entry g.entry ⟨g, 0⟩ = .ok g.entry ⟨g, 0⟩ := by
    simp [passWalk, PassState.simplifyBlock, run_simplifyBlock_of_idle (h _ hentry)]
  obtain ⟨-, t, hwalk, rfl, -⟩ := (idle_passWalk h hg hb).exists_run hb.lt_size henter
    ⟨rfl, by simpa using hentry⟩
  change pass g = _
  rw [pass, hwalk]

/-- Simplification takes one pass to find that a normal form stays as it is. -/
theorem run_simplify_of_normalForm (h : g.NormalForm) (hg : g.Consistent) (hroot : g.Rooted) :
    simplify.run g = .ok ⟨g.displayName, 0, 1, g.liveCount⟩ g := by
  obtain ⟨b, hb, -⟩ := id hroot
  have hnone := h.unreachable_eq_nil hg.numbered
  have hprune : prune.run g = .ok 0 g := by
    rw [run_prune hg.mirrored hg.numbered, hnone, Graph.pruned_eq_self hnone]
    rfl
  have hpass := run_passOnce (run_pass_of_simplified (h.simplified hg hroot) hg.mirrored hb)
  rw [simplify, run_bind_of_run_eq_ok hprune,
    run_bind_of_run_eq_ok (passing.run_exhaust_of_false hpass)]
  rfl

/-- Simplification of a graph to whose live entry no edge leads ends in a normal form. -/
theorem exists_run_simplify_normalForm (hg : g.Consistent) (hroot : g.Rooted) :
    ∃ report g', simplify.run g = .ok report g' ∧ g.pruned.RewritesTo g' ∧ g'.Consistent ∧
      g'.Rooted ∧ g'.NormalForm := by
  have hn := hg.numbered
  have hpruned : g.pruned.Consistent := ⟨hn.pruned, hg.mirrored.pruned hn⟩
  have hrooted : g.pruned.Rooted := hroot.pruned hn
  obtain ⟨b, hb, -⟩ := hroot
  obtain ⟨e, he, -⟩ := id hrooted
  obtain ⟨report, g', hrun, hrewrites⟩ := exists_run_simplify hg he.settled
  obtain ⟨hg', hrooted'⟩ := hrewrites.preserves (P := fun k => k.Consistent ∧ k.Rooted)
    (fun step hk => ⟨step.consistent hk.1, step.rooted hk.1.mirrored hk.2⟩) ⟨hpruned, hrooted⟩
  obtain ⟨e', he', -⟩ := id hrooted'
  have hspanned : g'.Spanned :=
    hrewrites.spanned hpruned ⟨e', he'⟩ (hg.mirrored.spanned_pruned hn hb)
  exact ⟨report, g', hrun, hrewrites, hg', hrooted',
    (simplified_of_run_simplify hrun).normalForm hg' he' hspanned⟩

/-- Simplification of a graph that passes the check of its edges, and to whose live entry no edge
leads, ends in a normal form with the same entry. Simplifying that once more succeeds and changes
nothing. -/
theorem simplify_reaches_normalForm (hn : g.Numbered) (hcheck : g.checkEdges = .ok ())
    (hb : g.Live g.entry b) (hroot : b.predecessors = []) :
    ∃ report g', simplify.run g = .ok report g' ∧ g'.entry = g.entry ∧ g'.NormalForm ∧
      ∃ again, simplify.run g' = .ok again g' := by
  have hg : g.Consistent := ⟨hn, (Graph.checkEdges_eq_ok_iff hn).1 hcheck⟩
  obtain ⟨report, g', hrun, hrewrites, hg', hrooted, hnormal⟩ :=
    exists_run_simplify_normalForm hg ⟨b, hb, hroot⟩
  exact ⟨report, g', hrun, hrewrites.entry_eq, hnormal, _,
    run_simplify_of_normalForm hnormal hg' hrooted⟩

/-- A branch with one empty side whose join is empty, behind an empty block, and a block that
control does not reach but that leads to the join. -/
private def cluttered : Graph :=
  { blocks := #[
      { id := 0, kind := .base, statements := [.ident "a"], successors := [1] },
      { id := 1, kind := .base, predecessors := [0], successors := [2] },
      { id := 2, kind := .condition, statements := [.ident "b"], predecessors := [1],
        successors := [3, 4] },
      { id := 3, kind := .base, statements := [.ident "c"], predecessors := [2],
        successors := [5] },
      { id := 4, kind := .base, predecessors := [2], successors := [5] },
      { id := 5, kind := .base, predecessors := [3, 4, 7], successors := [6] },
      { id := 6, kind := .base, statements := [.ident "d"], predecessors := [5] },
      { id := 7, kind := .base, statements := [.ident "e"], successors := [5] }]
    exit := 6 }

private theorem numbered_cluttered : cluttered.Numbered := by
  intro i b hb
  obtain ⟨hi, rfl⟩ := Array.getElem?_eq_some_iff.1 hb
  have hids : ∀ i : Fin 8, cluttered.blocks[i].id = i := by decide
  exact hids ⟨i, hi⟩

theorem simplify_reaches_normalForm_cluttered :
    cluttered.Numbered ∧ cluttered.checkEdges = .ok () ∧
      (∃ b, cluttered.Live cluttered.entry b ∧ b.predecessors = []) ∧
      ∃ report g', simplify.run cluttered = .ok report g' ∧ g'.entry = 0 ∧ g'.NormalForm ∧
        ∃ again, simplify.run g' = .ok again g' := by
  have hlive : cluttered.Live cluttered.entry _ := ⟨rfl, rfl⟩
  exact ⟨numbered_cluttered, rfl, ⟨_, hlive, rfl⟩,
    simplify_reaches_normalForm numbered_cluttered rfl hlive rfl⟩

end Edit

end FlowGraph
