import FlowGraph.Proofs.Graph.Path
import FlowGraph.Proofs.Simplification.Runs

/-!
# Live blocks stay reachable

Pruning leaves the reachable blocks only. Each step of simplification moves edges past a block that
it detaches, so what was reachable through that block is reachable without it, as long as it is not
the entry itself that is detached.

## Main definitions

* `Graph.Spanned`: every live block is reachable

## Main results

* `Graph.Mirrored.spanned_pruned`: pruning leaves reachable blocks only
* `Graph.RewritesTo.spanned`: simplification keeps them reachable if the entry stays live
-/

namespace FlowGraph.Graph

variable {g g' : Graph} {i j id next target : BlockId} {b c n : Block}

/-- Every live block is reachable. -/
def Spanned (g : Graph) : Prop :=
  ∀ ⦃i b⦄, g.Live i b → i ∈ g.reachable

/-- Blocks stay reachable in a graph with other edges if each edge becomes one edge or none, and the
entry stays the entry. -/
theorem Mirrored.mem_reachable_of_edges (hg : g.Mirrored) (hentry : g.Live g.entry b)
    {f : BlockId → BlockId} (hf : f g.entry = g'.entry)
    (hbound : ∀ {i c}, g.Live i c → f i < g'.size)
    (hedge : ∀ {i c j}, g.Live i c → j ∈ c.successors → f j = f i ∨ f j ∈ g'.successors (f i))
    (hi : i ∈ g.reachable) : f i ∈ g'.reachable := by
  obtain ⟨hsize, hpath⟩ := mem_reachable_iff.1 hi
  clear hi
  induction hpath with
  | refl =>
    rw [hf]
    exact mem_reachable_iff.2 ⟨hf ▸ hbound hentry, .refl⟩
  | @tail i j path step ih =>
    obtain ⟨c, hc⟩ :=
      hg.exists_live_of_mem_reachable hentry (mem_reachable_iff.2 ⟨hsize, path⟩)
    have hj := step.1
    rw [hc.successors] at hj
    obtain ⟨d, hd⟩ := hg.successor_live hc hj
    rcases hedge hc hj with heq | hmem
    · rwa [heq]
    · exact mem_reachable_of_mem_successors ih hmem (hbound hd)

/-- Pruning leaves reachable blocks only. -/
theorem Mirrored.spanned_pruned (hg : g.Mirrored) (hn : g.Numbered) (hentry : g.Live g.entry b) :
    g.pruned.Spanned := by
  intro i c hc
  obtain ⟨d, -, hi, rfl⟩ := (live_pruned_iff hn).1 hc
  obtain ⟨hsize, hpath⟩ := mem_reachable_iff.1 hi
  clear hi hc
  have hstart : g.pruned.entry ∈ g.pruned.reachable :=
    mem_reachable_iff.2 ⟨g.size_pruned ▸ hsize, .refl⟩
  induction hpath with
  | refl => exact hstart
  | @tail i j path step ih =>
    -- The edges of a reachable block are kept.
    have hi : i ∈ g.reachable := mem_reachable_iff.2 ⟨hsize, path⟩
    obtain ⟨c, hc⟩ := hg.exists_live_of_mem_reachable hentry hi
    have hpruned := (live_pruned_iff hn).2 ⟨c, hc, hi, rfl⟩
    refine mem_reachable_of_mem_successors ih ?_ (by simpa using step.2)
    rw [hpruned.successors]
    exact hc.successors ▸ step.1

/-- What was reachable before an absorption is reachable after it. -/
theorem Absorbs.spanned (h : g.Absorbs id next b n) (hg : g.Mirrored) (hne : id ≠ next)
    (hinner : g.entry ≠ next) {e : Block} (hentry : g.Live g.entry e) (hs : g.Spanned) :
    (g.absorbed id next n).Spanned := by
  intro k c' hk
  obtain ⟨d, hd, hkeep, rfl⟩ := live_absorbed_iff.1 hk
  have hmem : absorbedInto id next k ∈ (g.absorbed id next n).reachable :=
    hg.mem_reachable_of_edges hentry (by rw [absorbedInto, if_neg hinner, entry_absorbed]) ?_ ?_
      (hs hd)
  · rwa [absorbedInto, if_neg hkeep] at hmem
  · intro i c hc
    rw [size_absorbed, absorbedInto]
    split
    · exact h.source.lt_size
    · exact hc.lt_size
  · intro i c j hc hj
    by_cases hi : i = next
    -- The edges of the absorbed block leave the block before it now.
    · subst hi
      rw [hc.eq h.target] at hj
      have hji : j ≠ i := by
        rintro rfl
        exact hne (h.eq_of_mem_successors hg h.target hj).symm
      rw [absorbedInto, absorbedInto, if_neg hji, if_pos rfl]
      refine .inr ?_
      rw [(live_absorbed_iff.2 ⟨b, h.source, hne, rfl⟩).successors,
        successors_absorbedBlock _ hne, if_pos rfl]
      exact hj
    · rw [absorbedInto, absorbedInto, if_neg hi]
      by_cases hj' : j = next
      · rw [if_pos hj']
        exact .inl (h.eq_of_mem_successors hg hc (hj' ▸ hj)).symm
      · refine .inr ?_
        have hid : id ≠ i := by
          rintro rfl
          rw [hc.eq h.source, h.successors, List.mem_singleton] at hj
          exact hj' hj
        rw [if_neg hj', (live_absorbed_iff.2 ⟨c, hc, hi, rfl⟩).successors,
          successors_absorbedBlock _ hi, if_neg hid]
        exact hj

/-- What was reachable before a bypass is reachable after it. -/
theorem Bypasses.spanned (h : g.Bypasses id target b) (hg : g.Mirrored) (hid : g.entry ≠ id)
    {e : Block} (hentry : g.Live g.entry e) (hs : g.Spanned) :
    (g.bypassed id target b.predecessors).Spanned := by
  obtain ⟨t, ht⟩ := hg.successor_live h.source (j := target) (by simp [h.successors])
  intro k c' hk
  obtain ⟨d, hd, hkeep, rfl⟩ := live_bypassed_iff.1 hk
  have hmem : bypassedTo id target k ∈ (g.bypassed id target b.predecessors).reachable :=
    hg.mem_reachable_of_edges hentry (by rw [bypassedTo_of_ne hid, entry_bypassed]) ?_ ?_ (hs hd)
  · rwa [bypassedTo_of_ne hkeep] at hmem
  · intro i c hc
    rw [size_bypassed, bypassedTo]
    split
    · exact ht.lt_size
    · exact hc.lt_size
  · intro i c j hc hj
    by_cases hi : i = id
    · subst hi
      rw [hc.eq h.source, h.successors, List.mem_singleton] at hj
      rw [hj, bypassedTo_self, bypassedTo_of_ne h.ne]
      exact .inl rfl
    · refine .inr ?_
      rw [bypassedTo_of_ne hi, (live_bypassed_iff.2 ⟨c, hc, hi, rfl⟩).successors,
        h.successors_eq hg hc hi]
      exact List.mem_map_of_mem (f := bypassedTo id target) hj

/-- A step of simplification detaches a block and attaches none. -/
theorem Rewrites.exists_live (h : g.Rewrites g') (hc : g'.Live i c) : ∃ b, g.Live i b := by
  cases h with
  | absorb =>
    obtain ⟨b, hb, -⟩ := live_absorbed_iff.1 hc
    exact ⟨b, hb⟩
  | bypass =>
    obtain ⟨b, hb, -⟩ := live_bypassed_iff.1 hc
    exact ⟨b, hb⟩

theorem Rewrites.spanned (h : g.Rewrites g') (hg : g.Mirrored) (hlive : ∃ b, g'.Live g'.entry b)
    (hs : g.Spanned) : g'.Spanned := by
  obtain ⟨c, hc⟩ := hlive
  rw [h.entry_eq] at hc
  obtain ⟨e, hentry⟩ := h.exists_live hc
  cases h with
  | absorb absorbs hne hinner => exact absorbs.spanned hg hne hinner hentry hs
  | bypass bypasses =>
    obtain ⟨_, _, hid, _⟩ := live_bypassed_iff.1 hc
    exact bypasses.spanned hg hid hentry hs

namespace RewritesTo

/-- What every step keeps that leaves the entry live, a sequence of steps keeps that leaves the
entry live. -/
theorem preserves_of_live {P : Graph → Prop} (h : g.RewritesTo g')
    (hstep : ∀ {k k' : Graph}, k.Rewrites k' → (∃ b, k'.Live k'.entry b) → P k → P k')
    (hlive : ∃ b, g'.Live g'.entry b) (hg : P g) : P g' := by
  induction h with
  | refl => exact hg
  | tail _ step ih =>
    refine hstep step hlive (ih ?_)
    obtain ⟨b, hb⟩ := hlive
    exact step.exists_live (step.entry_eq ▸ hb)

theorem spanned (h : g.RewritesTo g') (hg : g.Consistent) (hlive : ∃ b, g'.Live g'.entry b)
    (hs : g.Spanned) : g'.Spanned :=
  (h.preserves_of_live (P := fun k => k.Consistent ∧ k.Spanned) (fun step hlive hk =>
    ⟨step.consistent hk.1, step.spanned hk.1.mirrored hlive hk.2⟩) hlive ⟨hg, hs⟩).2

end RewritesTo

end FlowGraph.Graph
