import FlowGraph.Proofs.Simplification.Bypassed
import FlowGraph.Proofs.Simplification.Pruned
import FlowGraph.Proofs.Traversal.Walk
import FlowGraph.Simplification.Fixpoint
import Mathlib.Logic.Relation

/-!
# Simplification as rewriting

Apart from pruning, simplification is a sequence of absorptions and bypasses. No matter which blocks
a pass is in the middle of, each of these is allowed when it happens: edges stay mirrored, and a
block on the stack of the walk may lose its edges, but it never leads to a block that it should not.

## Main definitions

* `Graph.Consistent`: every block carries its id, and edges are mirrored
* `Graph.Settled`: a block that is live, or that leads back to itself at most
* `Graph.Rewrites`: one absorption or one bypass

## Main results

* `Edit.exists_run_simplifyBlock`, `Edit.exists_run_pass`: a pass succeeds and rewrites the graph
* `Edit.exists_run_simplify_from_entry`: so does simplification, after pruning, and the entry is the
  first to absorb
-/

namespace FlowGraph

namespace Graph

variable {g g' : Graph} {id next target i : BlockId} {b n : Block}

/-- Every block carries its id, and edges are mirrored. -/
structure Consistent (g : Graph) : Prop where
  numbered : g.Numbered
  mirrored : g.Mirrored

/-- There is nothing to disagree about in a graph without blocks. -/
theorem Consistent.empty : Consistent {} where
  numbered := fun i b hb => by simp [Graph.block?] at hb
  mirrored :=
    { successor_live := fun hb => by simp [Live, Graph.block?] at hb
      predecessor_live := fun hb => by simp [Live, Graph.block?] at hb
      count_eq := fun hb => by simp [Live, Graph.block?] at hb }

/-- A block that is there and, if it is detached, leads back to itself at most. -/
def Settled (g : Graph) (i : BlockId) : Prop :=
  ∃ b, g.block? i = some b ∧ (b.isDetached = true → ∀ j ∈ b.successors, j = i)

theorem Live.settled (hb : g.Live i b) : g.Settled i :=
  ⟨b, hb.1, fun h => absurd h (by simp [hb.2])⟩

theorem Settled.lt_size (h : g.Settled i) : i < g.size := by
  obtain ⟨b, hb, -⟩ := h
  exact block?_isSome_iff.1 (Option.isSome_iff_exists.2 ⟨b, hb⟩)

/-- The edges of a settled block lead to settled blocks. -/
theorem Settled.successor (h : g.Settled i) (hg : g.Mirrored) {j : BlockId}
    (hj : j ∈ g.successors i) : g.Settled j := by
  have hi := h
  obtain ⟨b, hb, hself⟩ := h
  rw [successors, hb, Option.elim_some] at hj
  cases hdetached : b.isDetached with
  | true => rwa [hself hdetached j hj]
  | false =>
    obtain ⟨c, hc⟩ := hg.successor_live ⟨hb, hdetached⟩ hj
    exact hc.settled

/-- One step of simplification: a block with one edge into it at most absorbs another one that is
not the entry, or an empty block is bypassed to which there is an edge. -/
inductive Rewrites (g : Graph) : Graph → Prop
  | absorb {id next : BlockId} {b n : Block} (absorbs : g.Absorbs id next b n) (ne : id ≠ next)
      (inner : g.entry ≠ next) (narrow : b.predecessors.length ≤ 1) :
      Rewrites g (g.absorbed id next n)
  | bypass {id target : BlockId} {b : Block} (bypasses : g.Bypasses id target b)
      (entered : b.predecessors ≠ []) : Rewrites g (g.bypassed id target b.predecessors)

namespace Rewrites

theorem size_eq (h : g.Rewrites g') : g'.size = g.size := by
  cases h with
  | absorb => exact size_absorbed g _ _ _
  | bypass => exact size_bypassed g _ _ _

theorem entry_eq (h : g.Rewrites g') : g'.entry = g.entry := by
  cases h with
  | absorb => exact entry_absorbed g _ _ _
  | bypass => exact entry_bypassed g _ _ _

theorem consistent (h : g.Rewrites g') (hg : g.Consistent) : g'.Consistent := by
  cases h with
  | absorb absorbs =>
    exact ⟨hg.numbered.absorbed _ _ _, absorbs.mirrored hg.mirrored⟩
  | bypass bypasses =>
    exact ⟨hg.numbered.bypassed _ _ _, bypasses.mirrored hg.mirrored⟩

theorem apart (h : g.Rewrites g') (hg : g.Mirrored) (ha : g.Apart) : g'.Apart := by
  cases h with
  | absorb absorbs => exact absorbs.apart hg ha
  | bypass bypasses => exact bypasses.apart hg ha

/-- A block that a step detaches has no edges left. -/
theorem settled (h : g.Rewrites g') (hg : g.Mirrored) (hi : g.Settled i) : g'.Settled i := by
  obtain ⟨c, hc, hself⟩ := hi
  -- In both cases a block was detached before or is detached by this step.
  cases h with
  | @absorb id next b n absorbs hne =>
    refine ⟨_, by rw [block?_absorbed, hc, Option.map_some], ?_⟩
    intro hdetached
    by_cases hi : i = next
    · subst hi
      have hloop : i ∉ n.successors := fun hloop =>
        hne (absorbs.eq_of_mem_successors hg absorbs.target hloop).symm
      simp [absorbedBlock, hne, hloop, Block.vacate, Block.detach]
    · rw [isDetached_absorbedBlock, decide_eq_false (Ne.symm hi), Bool.false_or] at hdetached
      have hid : id ≠ i := by
        rintro rfl
        rw [Option.some.inj (hc.symm.trans absorbs.source.1), absorbs.source.2] at hdetached
        cases hdetached
      rw [successors_absorbedBlock _ hi, if_neg hid]
      exact hself hdetached
  | @bypass id target b bypasses =>
    refine ⟨_, by rw [block?_bypassed, hc, Option.map_some], ?_⟩
    intro hdetached
    by_cases hi : i = id
    · simp [bypassedBlock, hi, Block.detach]
    · rw [isDetached_bypassedBlock, decide_eq_false (Ne.symm hi), Bool.false_or] at hdetached
      have hsource : i ∉ b.predecessors := by
        intro hmem
        obtain ⟨d, hd⟩ := hg.predecessor_live bypasses.source hmem
        rw [Option.some.inj (hc.symm.trans hd.1), hd.2] at hdetached
        cases hdetached
      rw [successors_bypassedBlock _ _ _ hi, if_neg hsource]
      exact hself hdetached

end Rewrites

/-- Any number of steps of simplification. -/
def RewritesTo : Graph → Graph → Prop :=
  Relation.ReflTransGen Rewrites

namespace RewritesTo

/-- What every step keeps, a sequence of steps keeps. -/
theorem preserves {P : Graph → Prop} (h : g.RewritesTo g')
    (hstep : ∀ {k k' : Graph}, k.Rewrites k' → P k → P k') (hg : P g) : P g' := by
  induction h with
  | refl => exact hg
  | tail _ step ih => exact hstep step ih

theorem consistent (h : g.RewritesTo g') (hg : g.Consistent) : g'.Consistent :=
  h.preserves (fun step hk => step.consistent hk) hg

theorem settled (h : g.RewritesTo g') (hg : g.Consistent) (hi : g.Settled i) : g'.Settled i :=
  (h.preserves (P := fun k => k.Consistent ∧ k.Settled i)
    (fun step hk => ⟨step.consistent hk.1, step.settled hk.1.mirrored hk.2⟩) ⟨hg, hi⟩).2

theorem apart (h : g.RewritesTo g') (hg : g.Consistent) (ha : g.Apart) : g'.Apart :=
  (h.preserves (P := fun k => k.Consistent ∧ k.Apart)
    (fun step hk => ⟨step.consistent hk.1, step.apart hk.1.mirrored hk.2⟩) ⟨hg, ha⟩).2

theorem size_eq (h : g.RewritesTo g') : g'.size = g.size :=
  h.preserves (P := fun k => k.size = g.size) (fun step hk => step.size_eq.trans hk) rfl

theorem entry_eq (h : g.RewritesTo g') : g'.entry = g.entry :=
  h.preserves (P := fun k => k.entry = g.entry) (fun step hk => step.entry_eq.trans hk) rfl

end RewritesTo

end Graph

theorem ShrinkingStep.run_exhaust_of_false (s : ShrinkingStep) {g g' : Graph}
    (hstep : s.step.run g = .ok false g') : s.exhaust.run g = .ok 0 g' := by
  change s.exhaust g = _
  fun_cases s.exhaust g <;> simp_all

theorem ShrinkingStep.run_exhaust_of_true (s : ShrinkingStep) {g g' g'' : Graph} {count : Nat}
    (hstep : s.step.run g = .ok true g') (hrest : s.exhaust.run g' = .ok count g'') :
    s.exhaust.run g = .ok (count + 1) g'' := by
  change s.exhaust g = _
  change s.exhaust g' = _ at hrest
  fun_cases s.exhaust g <;> simp_all

/-- A step that succeeds and rewrites, as long as `P` holds, can be repeated to the end. -/
theorem ShrinkingStep.exists_run_exhaust {P : Graph → Prop} (s : ShrinkingStep)
    (hstep : ∀ {g}, P g → ∃ changed g', s.step.run g = .ok changed g' ∧ g.RewritesTo g' ∧ P g')
    {g : Graph} (hg : P g) :
    ∃ count g', s.exhaust.run g = .ok count g' ∧ g.RewritesTo g' ∧ P g' := by
  change ∃ count g', s.exhaust g = .ok count g' ∧ g.RewritesTo g' ∧ P g'
  -- The cases are those of the repetition; the two with an error do not occur.
  fun_induction s.exhaust g with
  | case1 g e g' herror _ =>
    obtain ⟨changed, g'', hrun, -⟩ := hstep hg
    cases hrun.symm.trans herror
  | case2 g g' hfalse _ =>
    obtain ⟨changed, g'', hrun, hrewrites, hP⟩ := hstep hg
    cases hrun.symm.trans hfalse
    exact ⟨0, g', rfl, hrewrites, hP⟩
  | case3 g g' htrue _ e g'' herror ih =>
    obtain ⟨changed, _, hrun, -, hP⟩ := hstep hg
    cases hrun.symm.trans htrue
    obtain ⟨count, h, hrest, -⟩ := ih hP
    cases hrest.symm.trans herror
  | case4 g g' htrue _ count g'' hok ih =>
    obtain ⟨changed, _, hrun, hrewrites, hP⟩ := hstep hg
    cases hrun.symm.trans htrue
    obtain ⟨_, _, hrest, hrewrites', hP'⟩ := ih hP
    cases hrest.symm.trans hok
    exact ⟨count + 1, g'', rfl, hrewrites.trans hrewrites', hP'⟩

namespace Edit

variable {g : Graph} {id : BlockId}

section Search

variable {search : Graph → Except Error (Option BlockId)} {act : BlockId → Edit Unit}

theorem run_searchAndAct_of_none (h : search g = .ok none) :
    (ShrinkingStep.searchAndAct search act).run g = .ok false g := by
  rw [ShrinkingStep.searchAndAct, run_bind_of_run_eq_ok (run_ask_of_eq_ok h)]
  rfl

theorem run_searchAndAct_of_some {g' : Graph} {found : BlockId} (h : search g = .ok (some found))
    (hact : (act found).run g = .ok () g') :
    (ShrinkingStep.searchAndAct search act).run g = .ok true g' := by
  rw [ShrinkingStep.searchAndAct, run_bind_of_run_eq_ok (run_ask_of_eq_ok h)]
  simp only
  rw [run_bind_of_run_eq_ok hact]
  rfl

end Search

/-- Absorbing what can be absorbed succeeds at a settled block. The entry is never absorbed. -/
theorem exists_run_absorption (hg : g.Consistent) (hid : g.Settled id) :
    ∃ changed g', (absorption id).step.run g = .ok changed g' ∧ g.RewritesTo g' ∧
      ∀ {b}, g.Live g.entry b → ∃ c, g'.Live g.entry c := by
  obtain ⟨b, hb, -⟩ := hid
  rcases hg.mirrored.absorbable?_spec hb with h | ⟨next, n, h, habsorbs, hne, hinner, hnarrow⟩
  · exact ⟨false, g, run_searchAndAct_of_none h, .refl, fun hentry => ⟨_, hentry⟩⟩
  · exact ⟨true, _, run_searchAndAct_of_some h (run_absorb hg.mirrored habsorbs),
      .single (.absorb habsorbs hne hinner hnarrow),
      fun hentry => ⟨_, Graph.live_absorbed_iff.2 ⟨_, hentry, hinner, rfl⟩⟩⟩

/-- Bypassing what can be bypassed succeeds behind a settled block. -/
theorem exists_run_bypassing (hg : g.Consistent) (hid : g.Settled id) :
    ∃ changed g', (bypassing id).step.run g = .ok changed g' ∧ g.RewritesTo g' := by
  obtain ⟨b, hb, hself⟩ := hid
  rcases hg.mirrored.bypassable?_spec hg.numbered hb hself with
    h | ⟨next, target, c, h, hbypasses, hmem⟩
  · exact ⟨false, g, run_searchAndAct_of_none h, .refl⟩
  · exact ⟨true, _, run_searchAndAct_of_some h (run_bypass hg.mirrored hg.numbered hbypasses),
      .single (.bypass hbypasses (List.ne_nil_of_mem hmem))⟩

/-- Repeating such a step keeps the graph consistent and the block settled. -/
private theorem exists_run_exhaust_at (s : ShrinkingStep)
    (hstep : ∀ {g : Graph}, g.Consistent → g.Settled id →
      ∃ changed g', s.step.run g = .ok changed g' ∧ g.RewritesTo g')
    (hg : g.Consistent) (hid : g.Settled id) :
    ∃ count g', s.exhaust.run g = .ok count g' ∧ g.RewritesTo g' := by
  obtain ⟨count, g', hrun, hrewrites, -⟩ :=
    s.exists_run_exhaust (P := fun k => k.Consistent ∧ k.Settled id) (fun hk => by
      obtain ⟨changed, k', hrun, hrewrites⟩ := hstep hk.1 hk.2
      exact ⟨changed, k', hrun, hrewrites, hrewrites.consistent hk.1,
        hrewrites.settled hk.1 hk.2⟩) ⟨hg, hid⟩
  exact ⟨count, g', hrun, hrewrites⟩

/-- What is done at a settled block succeeds. The graph `k` is the one between absorbing and
bypassing. -/
theorem exists_run_simplifyBlock (hg : g.Consistent) (hid : g.Settled id) :
    ∃ absorbed k count g', (absorption id).exhaust.run g = .ok absorbed k ∧ g.RewritesTo k ∧
      (simplifyBlock id).run g = .ok count g' ∧ k.RewritesTo g' := by
  obtain ⟨absorbed, k, hrun₁, h₁⟩ := exists_run_exhaust_at (absorption id) (fun hk hid => by
    obtain ⟨changed, k', hrun, hrewrites, -⟩ := exists_run_absorption hk hid
    exact ⟨changed, k', hrun, hrewrites⟩) hg hid
  obtain ⟨bypassed, g', hrun₂, h₂⟩ :=
    exists_run_exhaust_at (bypassing id) exists_run_bypassing (h₁.consistent hg) (h₁.settled hg hid)
  refine ⟨absorbed, k, absorbed + bypassed, g', hrun₁, h₁, ?_, h₂⟩
  rw [simplifyBlock, run_bind_of_run_eq_ok hrun₁, run_bind_of_run_eq_ok hrun₂]
  rfl

end Edit

/-- A pass in progress: the graph was rewritten, it is still consistent, and all blocks on the stack
are settled. -/
structure PassInvariant (g : Graph) (stack : List (BlockId × Nat)) (s : PassState) : Prop where
  rewrites : g.RewritesTo s.graph
  consistent : s.graph.Consistent
  settled : ∀ frame ∈ stack, s.graph.Settled frame.1

/-- Entering a settled block rewrites the graph and keeps all blocks settled that were. -/
theorem exists_enter_passWalk {s : PassState} (frame : BlockId) {id : BlockId}
    (hs : s.graph.Consistent) (hid : s.graph.Settled id) :
    ∃ absorbed k s', (absorption id).exhaust.run s.graph = .ok absorbed k ∧
      s.graph.RewritesTo k ∧ passWalk.enter frame id s = .ok id s' ∧ k.RewritesTo s'.graph := by
  obtain ⟨absorbed, k, count, g', habsorbed, h₁, hrun, h₂⟩ := Edit.exists_run_simplifyBlock hs hid
  refine ⟨absorbed, k, ⟨g', s.changes + count⟩, habsorbed, h₁, ?_, h₂⟩
  simp only [passWalk, PassState.simplifyBlock, hrun]

/-- The block that a pass comes to next is settled, like the one on top of the stack. -/
theorem PassInvariant.settled_next {g : Graph} {frame slot : Nat} {rest : List (BlockId × Nat)}
    {s : PassState} {block : BlockId} (h : PassInvariant g ((frame, slot) :: rest) s)
    (hblock : block ∈ s.graph.successors frame) : s.graph.Settled block :=
  (h.settled (frame, slot) List.mem_cons_self).successor h.consistent.mirrored hblock

theorem passWalk_invariant (g : Graph) :
    passWalk.Invariant g.size fun stack _ s => PassInvariant g stack s where
  inRange := by
    intro frame slot rest _ s block h hslot
    rw [← h.rewrites.size_eq]
    exact (h.settled_next (List.mem_of_getElem? hslot)).lt_size
  leave := by
    intro frame slot rest _ s h _
    exact ⟨h.rewrites, h.consistent, fun other hother =>
      h.settled other (List.mem_cons_of_mem _ hother)⟩
  again := by
    intro frame slot rest _ s block h _ _
    refine ⟨h.rewrites, h.consistent, ?_⟩
    rw [List.forall_mem_cons]
    exact List.forall_mem_cons.1 h.settled
  enter := by
    intro frame slot rest _ s block h hslot _
    have hblock := h.settled_next (List.mem_of_getElem? hslot)
    obtain ⟨-, k, s', -, h₁, henter, h₂⟩ := exists_enter_passWalk frame h.consistent hblock
    have hrewrites : s.graph.RewritesTo s'.graph := h₁.trans h₂
    -- Entering may detach blocks that are on the stack, but it leaves them settled.
    have hkeep {i : BlockId} (hi : s.graph.Settled i) : s'.graph.Settled i :=
      hrewrites.settled h.consistent hi
    refine ⟨block, s', henter, h.rewrites.trans hrewrites, hrewrites.consistent h.consistent, ?_⟩
    rw [List.forall_mem_cons, List.forall_mem_cons]
    obtain ⟨htop, hrest⟩ := List.forall_mem_cons.1 h.settled
    exact ⟨hkeep hblock, hkeep htop, fun other hother => hkeep (hrest other hother)⟩

namespace Edit

variable {g : Graph}

/-- A pass succeeds and rewrites the graph. The graph `k` is the one after the entry has absorbed
what it can. -/
theorem exists_run_pass (hg : g.Consistent) (hentry : g.Settled g.entry) :
    ∃ absorbed k count g', (absorption g.entry).exhaust.run g = .ok absorbed k ∧ g.RewritesTo k ∧
      pass.run g = .ok count g' ∧ k.RewritesTo g' := by
  obtain ⟨absorbed, k, s, habsorbed, h₁, henter, h₂⟩ :=
    exists_enter_passWalk (s := ⟨g, 0⟩) g.entry hg hentry
  have hstart : PassInvariant k [(g.entry, 0)] s :=
    ⟨h₂, h₂.consistent (h₁.consistent hg), by
      simpa using h₂.settled (h₁.consistent hg) (h₁.settled hg hentry)⟩
  have hsize : g.size = k.size := h₁.size_eq.symm
  obtain ⟨_, t, hwalk, hend⟩ :=
    (passWalk_invariant k).exists_run (hsize ▸ hentry.lt_size) henter hstart
  refine ⟨absorbed, k, t.changes, t.graph, habsorbed, h₁, ?_, hend.rewrites⟩
  change pass g = _
  rw [pass, hsize, hwalk]

theorem run_passOnce {count : Nat} {g' : Graph} (hrun : pass.run g = .ok count g') :
    passing.step.run g = .ok (count != 0) g' := by
  change passOnce.run g = _
  rw [passOnce, run_bind_of_run_eq_ok hrun]
  rfl

/-- Simplification succeeds. What it does after pruning is to rewrite the graph, and the first thing
is that the entry absorbs what it can, which leads to the graph `k`. -/
theorem exists_run_simplify_from_entry (hg : g.Consistent) (hentry : g.pruned.Settled g.entry) :
    ∃ absorbed k report g', (absorption g.entry).exhaust.run g.pruned = .ok absorbed k ∧
      g.pruned.RewritesTo k ∧ simplify.run g = .ok report g' ∧ k.RewritesTo g' := by
  have hpruned : g.pruned.Consistent :=
    ⟨hg.numbered.pruned, hg.mirrored.pruned hg.numbered⟩
  -- Every pass starts at the entry again, which is settled after every rewriting.
  have hpass : ∀ {k : Graph}, k.Consistent ∧ k.Settled k.entry → ∃ changed k',
      passing.step.run k = .ok changed k' ∧ k.RewritesTo k' ∧
        (k'.Consistent ∧ k'.Settled k'.entry) := by
    intro k hk
    obtain ⟨-, _, count, k', -, h₁, hrun, h₂⟩ := exists_run_pass hk.1 hk.2
    have hrewrites : k.RewritesTo k' := h₁.trans h₂
    refine ⟨count != 0, k', run_passOnce hrun, hrewrites, hrewrites.consistent hk.1, ?_⟩
    rw [hrewrites.entry_eq]
    exact hrewrites.settled hk.1 hk.2
  obtain ⟨absorbed, k, count, g₁, habsorbed, h₁, hrun, h₂⟩ :=
    exists_run_pass (g := g.pruned) hpruned hentry
  have hrewrites : g.pruned.RewritesTo g₁ := h₁.trans h₂
  have hrest : ∃ passes g', passing.exhaust.run g.pruned = .ok passes g' ∧ g₁.RewritesTo g' := by
    have hstep := run_passOnce hrun
    cases hchanged : count != 0 with
    | false =>
      rw [hchanged] at hstep
      exact ⟨0, g₁, passing.run_exhaust_of_false hstep, .refl⟩
    | true =>
      rw [hchanged] at hstep
      obtain ⟨passes, g', hexhaust, h₃, -⟩ :=
        passing.exists_run_exhaust (P := fun k => k.Consistent ∧ k.Settled k.entry) hpass
          (g := g₁) ⟨hrewrites.consistent hpruned, by
            rw [hrewrites.entry_eq]
            exact hrewrites.settled hpruned hentry⟩
      exact ⟨passes + 1, g', passing.run_exhaust_of_true hstep hexhaust, h₃⟩
  obtain ⟨passes, g', hexhaust, h₃⟩ := hrest
  refine ⟨absorbed, k, ⟨g'.displayName, g.unreachable.length, passes + 1, g'.liveCount⟩, g',
    habsorbed, h₁, ?_, h₂.trans h₃⟩
  rw [simplify, run_bind_of_run_eq_ok (run_prune hg.mirrored hg.numbered),
    run_bind_of_run_eq_ok hexhaust]
  rfl

/-- Simplification succeeds, and what it does after pruning is to rewrite the graph. -/
theorem exists_run_simplify (hg : g.Consistent) (hentry : g.pruned.Settled g.entry) :
    ∃ report g', simplify.run g = .ok report g' ∧ g.pruned.RewritesTo g' := by
  obtain ⟨-, k, report, g', -, h₁, hrun, h₂⟩ := exists_run_simplify_from_entry hg hentry
  exact ⟨report, g', hrun, h₁.trans h₂⟩

end Edit

end FlowGraph
