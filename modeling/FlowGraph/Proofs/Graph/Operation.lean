import FlowGraph.Proofs.Graph.Growth
import FlowGraph.Proofs.Simplification.Rewriting

/-!
# Sequences of operations

A graph is changed by a handful of operations. Each of them may fail, and work goes on with whatever
graph it leaves behind. Still no sequence of operations makes a graph whose edges disagree: an
operation that fails has changed nothing, and one that succeeds keeps the edges mirrored.

## Main definitions

* `Operation`: the operations on a graph, with `Operation.edit` to perform them
* `Operation.Allowed`: edges are drawn between live blocks, and bounds are in range
* `Graph.Arises`: the graphs that operations make out of the empty one
* `Graph.Orderly`: what all those graphs have in common

## Main results

* `Operation.orderly_or_unchanged`: what one operation does to an orderly graph
* `Graph.Arises.orderly`: what arises is orderly
* `Graph.Arises.checked_and_unchanged_by_failure`: the check of the edges, ids, sizes and failures
-/

namespace FlowGraph

/-- The operations on a graph. -/
inductive Operation
  | addBlock (kind : BlockKind)
  | link (source target : BlockId)
  | linkBranches (cond onTrue onFalse : BlockId)
  | markFinal (id : BlockId)
  | setBounds (entry exit : BlockId)
  | prune
  | absorb (id next : BlockId)
  | bypass (id : BlockId)
  | simplify

namespace Operation

/-- Performs an operation, leaving out its answer. -/
def edit : Operation → Edit Unit
  | addBlock kind => do
    let _ ← Edit.addBlock kind
  | link source target => Edit.link source target
  | linkBranches cond onTrue onFalse => Edit.linkBranches cond onTrue onFalse
  | markFinal id => Edit.update id (·.markFinal)
  | setBounds entry exit => modify fun g => { g with entry, exit }
  | prune => do
    let _ ← Edit.prune
  | absorb id next => Edit.absorb id next
  | bypass id => Edit.bypass id
  | simplify => do
    let _ ← Edit.simplify

/-- No edge is drawn to or from a detached block, and bounds are in range. An id that is out of
range makes the other operations fail. -/
def Allowed (g : Graph) : Operation → Prop
  | link source target => ∀ i ∈ [source, target], ∀ b, g.block? i = some b → b.isDetached = false
  | linkBranches cond onTrue onFalse =>
    ∀ i ∈ [cond, onTrue, onFalse], ∀ b, g.block? i = some b → b.isDetached = false
  | setBounds entry exit => entry < g.size ∧ exit < g.size
  | _ => True

end Operation

/-- The graphs that arise from the empty one by operations, whether these succeed or not. -/
inductive Graph.Arises : Graph → Prop
  | empty : Arises {}
  | operate {g : Graph} (op : Operation) (before : Arises g) (allowed : op.Allowed g) :
    Arises (op.edit.after g)

/-- Edges are mirrored, detached blocks are apart, and the entry is in range unless there are no
blocks at all. -/
structure Graph.Orderly (g : Graph) : Prop where
  consistent : g.Consistent
  apart : g.Apart
  entry : g.entry < g.size ∨ g.entry = 0 ∧ g.size = 0

namespace Graph.Orderly

variable {g g' : Graph} {i : BlockId}

theorem empty : Orderly {} where
  consistent := .empty
  apart := fun i b hb => by simp [Graph.block?] at hb
  entry := .inr ⟨rfl, rfl⟩

/-- Every block of an orderly graph is settled. -/
theorem settled (hg : g.Orderly) (hi : i < g.size) : g.Settled i := by
  obtain ⟨b, hb⟩ := Option.isSome_iff_exists.1 (block?_isSome_iff.2 hi)
  exact ⟨b, hb, fun h => (hg.apart hb h).2⟩

/-- A graph whose blocks were changed one by one, with the same entry. -/
theorem of_eq (hg : g.Orderly) (hconsistent : g'.Consistent) (hapart : g'.Apart)
    (hentry : g'.entry = g.entry) (hsize : g'.size = g.size) : g'.Orderly :=
  ⟨hconsistent, hapart, by rw [hentry, hsize]; exact hg.entry⟩

theorem pruned (hg : g.Orderly) : g.pruned.Orderly :=
  hg.of_eq ⟨hg.consistent.numbered.pruned, hg.consistent.mirrored.pruned hg.consistent.numbered⟩
    hg.apart.pruned rfl g.size_pruned

theorem rewritesTo (hg : g.Orderly) (h : g.RewritesTo g') : g'.Orderly :=
  hg.of_eq (h.consistent hg.consistent) (h.apart hg.consistent hg.apart) h.entry_eq h.size_eq

end Graph.Orderly

namespace Edit

variable {g : Graph} {α : Type}

/-- An edit that leaves an orderly graph behind that is no smaller, or fails and changes nothing. -/
def Safe (x : Edit α) (g : Graph) : Prop :=
  (∃ a g', x.run g = .ok a g' ∧ g'.Orderly ∧ g.size ≤ g'.size) ∨ ∃ e, x.run g = .error e g

theorem Safe.discard {x : Edit α} (h : x.Safe g) : Safe (do let _ ← x) g := by
  rcases h with ⟨a, g', hrun, hg'⟩ | ⟨e, hrun⟩
  · exact .inl ⟨(), g', by rw [run_bind_of_run_eq_ok hrun]; rfl, hg'⟩
  · exact .inr ⟨e, by rw [EStateM.run_bind, hrun]⟩

theorem safe_addBlock (hg : g.Orderly) (kind : BlockKind) : (addBlock kind).Safe g := by
  refine .inl ⟨g.size, g.addBlock kind, rfl, ⟨⟨hg.consistent.numbered.addBlock,
    hg.consistent.mirrored.addBlock⟩, hg.apart.addBlock, .inl ?_⟩, ?_⟩
  · rw [Graph.size_addBlock]
    rcases hg.entry with h | ⟨h, -⟩
    · exact Nat.lt_succ_of_lt h
    · exact h ▸ Nat.succ_pos _
  · rw [Graph.size_addBlock]
    exact Nat.le_succ _

/-- A change after a block was found, or a failure because it is not there. -/
theorem safe_block_bind {k : Block → Edit α} {id : BlockId}
    (hk : ∀ b, g.block? id = some b → (k b).Safe g) : (block id >>= k).Safe g := by
  cases hb : g.block? id with
  | none => exact .inr ⟨.noSuchBlock id, by
      rw [EStateM.run_bind, block, run_ask, Graph.find, hb]⟩
  | some b =>
    have hrun : (block id).run g = .ok b g := run_block_eq_ok_iff.2 ⟨hb, rfl⟩
    rw [Safe, run_bind_of_run_eq_ok hrun]
    exact hk b hb

theorem safe_modify {f : Graph → Graph} (hf : (f g).Orderly) (hsize : (f g).size = g.size) :
    (modify f : Edit Unit).Safe g :=
  .inl ⟨(), f g, rfl, hf, Nat.le_of_eq hsize.symm⟩

theorem safe_link (hg : g.Orderly) {source target : BlockId}
    (hallowed : (Operation.link source target).Allowed g) : (link source target).Safe g := by
  refine safe_block_bind fun b hb => safe_block_bind fun c hc => safe_modify ?_ (by simp)
  have hsource : g.Live source b := ⟨hb, hallowed source (by simp) b hb⟩
  have htarget : g.Live target c := ⟨hc, hallowed target (by simp) c hc⟩
  exact hg.of_eq ⟨hg.consistent.numbered.connect,
    hg.consistent.mirrored.connect hsource htarget⟩ (hg.apart.connect hsource htarget) rfl (by simp)

theorem safe_linkBranches (hg : g.Orderly) {cond onTrue onFalse : BlockId}
    (hallowed : (Operation.linkBranches cond onTrue onFalse).Allowed g) :
    (linkBranches cond onTrue onFalse).Safe g := by
  refine safe_block_bind fun c hc => safe_block_bind fun d hd => safe_block_bind fun b hb => ?_
  have hcond : g.Live cond b := ⟨hb, hallowed cond (by simp) b hb⟩
  have htrue : ∃ c, g.Live onTrue c := ⟨c, hc, hallowed onTrue (by simp) c hc⟩
  have hfalse : ∃ d, g.Live onFalse d := ⟨d, hd, hallowed onFalse (by simp) d hd⟩
  split
  · rename_i htakes
    have hnone : b.successors = [] := by
      simpa using (Bool.and_eq_true_iff.1 htakes).2
    refine safe_modify ?_ (by simp)
    exact hg.of_eq ⟨hg.consistent.numbered.connectBranches,
      hg.consistent.mirrored.connectBranches hcond hnone htrue hfalse⟩
      (hg.apart.connectBranches hcond htrue hfalse) rfl (by simp)
  · exact .inr ⟨_, rfl⟩

theorem safe_markFinal (hg : g.Orderly) (id : BlockId) : (update id (·.markFinal)).Safe g := by
  refine safe_block_bind fun b hb => safe_modify ?_ (by simp)
  rw [Graph.modify_eq_mapBlocks]
  have hsame (i : BlockId) (c : Block) :
      (if id = i then c.markFinal else c).isDetached = c.isDetached := by
    split <;> rfl
  refine hg.of_eq ⟨hg.consistent.numbered.mapBlocks fun i c => by split <;> rfl,
    hg.consistent.mirrored.mapBlocks_append (fun _ => []) (fun _ => []) hsame ?_ ?_
      (by simp) (by simp) (by simp)⟩ (hg.apart.mapBlocks hsame fun {i c} _ _ => ?_) rfl (by simp)
  · intro i c _
    split <;> simp [Block.markFinal]
  · intro i c _
    split <;> simp [Block.markFinal]
  · split <;> exact ⟨rfl, rfl⟩

theorem safe_setBounds (hg : g.Orderly) {entry exit : BlockId} (hentry : entry < g.size) :
    (modify fun g => { g with entry, exit } : Edit Unit).Safe g :=
  safe_modify ⟨⟨hg.consistent.numbered, ⟨hg.consistent.mirrored.successor_live,
    hg.consistent.mirrored.predecessor_live, hg.consistent.mirrored.count_eq⟩⟩, hg.apart,
    .inl hentry⟩ rfl

theorem safe_prune (hg : g.Orderly) : prune.Safe g :=
  .inl ⟨_, _, run_prune hg.consistent.mirrored hg.consistent.numbered, hg.pruned,
    Nat.le_of_eq g.size_pruned.symm⟩

theorem safe_absorb (hg : g.Orderly) (id next : BlockId) : (absorb id next).Safe g := by
  cases hcheck : g.checkAbsorb id next with
  | error e => exact .inr ⟨e, run_absorb_of_checkAbsorb_eq_error hcheck⟩
  | ok n =>
    obtain ⟨b, habsorbs⟩ := hg.consistent.mirrored.absorbs_of_checkAbsorb hg.apart hcheck
    refine .inl ⟨(), _, run_absorb hg.consistent.mirrored habsorbs, ?_, by simp⟩
    exact hg.of_eq ⟨hg.consistent.numbered.absorbed id next n,
      habsorbs.mirrored hg.consistent.mirrored⟩
      (habsorbs.apart hg.consistent.mirrored hg.apart) (by simp) (by simp)

theorem safe_bypass (hg : g.Orderly) (id : BlockId) : (bypass id).Safe g := by
  cases htarget : g.forwardTarget id with
  | error e => exact .inr ⟨e, run_bypass_of_forwardTarget_eq_error htarget⟩
  | ok found =>
    obtain ⟨b, target⟩ := found
    have hbypasses := (Graph.forwardTarget_eq_ok_iff hg.consistent.numbered).1 htarget
    refine .inl ⟨(), _, run_bypass hg.consistent.mirrored hg.consistent.numbered hbypasses, ?_,
      by simp⟩
    exact hg.of_eq ⟨hg.consistent.numbered.bypassed id target b.predecessors,
      hbypasses.mirrored hg.consistent.mirrored⟩
      (hbypasses.apart hg.consistent.mirrored hg.apart) (by simp) (by simp)

/-- Without blocks there is no entry to start a pass from. -/
theorem run_simplify_of_size_eq_zero (hg : g.Consistent) (hsize : g.size = 0) :
    simplify.run g = .error (.noSuchBlock g.entry) g := by
  have hnone (i : BlockId) : g.block? i = none := by
    refine Option.not_isSome_iff_eq_none.1 fun h => ?_
    rw [Graph.block?_isSome_iff, hsize] at h
    exact Nat.not_lt_zero i h
  -- Pruning finds nothing to do, and then the first pass fails at the entry.
  have hpruned : g.pruned = g :=
    Graph.ext_block? rfl (fun i => by rw [Graph.block?_pruned, hnone, Option.map_none]) rfl rfl
  have hpass : passing.step.run g = .error (.noSuchBlock g.entry) g := by
    have hwalk : passWalk.run g.size g.entry g.entry ⟨g, 0⟩ =
        .error (.noSuchBlock g.entry) ⟨g, 0⟩ := by
      rw [Walk.run, if_neg (by rw [hsize]; exact Nat.not_lt_zero _)]
    have hfails : pass.run g = .error (.noSuchBlock g.entry) g := by
      change pass g = _
      rw [pass, hwalk]
    change passOnce.run g = _
    rw [passOnce, EStateM.run_bind, hfails]
  have hexhaust : passing.exhaust.run g = .error (.noSuchBlock g.entry) g := by
    change passing.exhaust g = _
    rw [ShrinkingStep.exhaust]
    simp [ShrinkingStep.outcome, hpass]
  rw [simplify, run_bind_of_run_eq_ok (run_prune hg.mirrored hg.numbered), hpruned,
    EStateM.run_bind, hexhaust]

theorem safe_simplify (hg : g.Orderly) : simplify.Safe g := by
  rcases hg.entry with hentry | ⟨-, hsize⟩
  · have hsettled : g.pruned.Settled g.entry := hg.pruned.settled (by simpa using hentry)
    obtain ⟨report, g', hrun, hrewrites⟩ := exists_run_simplify hg.consistent hsettled
    have hsize : g'.size = g.size := hrewrites.size_eq.trans g.size_pruned
    exact .inl ⟨report, g', hrun, hg.pruned.rewritesTo hrewrites, Nat.le_of_eq hsize.symm⟩
  · exact .inr ⟨_, run_simplify_of_size_eq_zero hg.consistent hsize⟩

end Edit

/-- An operation keeps an orderly graph orderly, or it fails and changes nothing. -/
theorem Operation.orderly_or_unchanged {g : Graph} (op : Operation) (hg : g.Orderly)
    (hallowed : op.Allowed g) : op.edit.Safe g := by
  cases op with
  | addBlock kind => exact (Edit.safe_addBlock hg kind).discard
  | link => exact Edit.safe_link hg hallowed
  | linkBranches => exact Edit.safe_linkBranches hg hallowed
  | markFinal id => exact Edit.safe_markFinal hg id
  | setBounds => exact Edit.safe_setBounds hg hallowed.1
  | prune => exact (Edit.safe_prune hg).discard
  | absorb id next => exact Edit.safe_absorb hg id next
  | bypass id => exact Edit.safe_bypass hg id
  | simplify => exact (Edit.safe_simplify hg).discard

namespace Graph.Arises

variable {g : Graph}

theorem orderly (h : g.Arises) : g.Orderly := by
  -- The induction is on the operations that made the graph, those that failed included.
  induction h with
  | empty => exact .empty
  | operate op _ hallowed hg =>
    rcases op.orderly_or_unchanged hg hallowed with ⟨_, g', hrun, hg', -⟩ | ⟨e, hrun⟩
    · rwa [Edit.after_of_run_eq_ok hrun]
    · rwa [Edit.after_of_run_eq_error hrun]

/-- Whatever operations made a graph: its edges pass the check and block `i` carries id `i`. No
operation makes it smaller, an operation that fails leaves it exactly as it was, and once the entry
is in range, pruning and simplification do not fail. -/
theorem checked_and_unchanged_by_failure (h : g.Arises) :
    g.checkEdges = .ok () ∧ (∀ i b, g.block? i = some b → b.id = i) ∧
      (∀ op : Operation, op.Allowed g → g.size ≤ (op.edit.after g).size ∧
        ∀ e g', op.edit.run g = .error e g' → g' = g) ∧
      (g.entry < g.size → (∃ count g', Edit.prune.run g = .ok count g') ∧
        ∃ report g', Edit.simplify.run g = .ok report g') := by
  have hg := h.orderly
  refine ⟨(checkEdges_eq_ok_iff hg.consistent.numbered).2 hg.consistent.mirrored,
    fun i b hb => hg.consistent.numbered hb, fun op hallowed => ?_, fun hentry => ⟨?_, ?_⟩⟩
  -- An operation succeeds and does not shrink the graph, or it fails and keeps all of it.
  · rcases op.orderly_or_unchanged hg hallowed with ⟨_, g', hrun, -, hsize⟩ | ⟨e, hrun⟩
    · refine ⟨by rwa [Edit.after_of_run_eq_ok hrun], fun e g'' herror => ?_⟩
      cases hrun.symm.trans herror
    · refine ⟨Nat.le_of_eq (by rw [Edit.after_of_run_eq_error hrun]), fun e' g' herror => ?_⟩
      cases hrun.symm.trans herror
      rfl
  · exact ⟨_, _, Edit.run_prune hg.consistent.mirrored hg.consistent.numbered⟩
  · obtain ⟨report, g', hrun, -⟩ := Edit.exists_run_simplify hg.consistent
      (hg.pruned.settled (by simpa using hentry))
    exact ⟨report, g', hrun⟩

/-- A block before a condition, both of whose branches lead over one empty block back to it. -/
private def looping : Graph :=
  { blocks := #[
      { id := 0, kind := .base, successors := [1] },
      { id := 1, kind := .condition, predecessors := [0, 2], successors := [2, 2] },
      { id := 2, kind := .base, predecessors := [1, 1], successors := [1], color := .onFalse }] }

private theorem arises_looping : Arises looping := by
  have hlive {g : Graph} (h : ∀ b ∈ g.blocks.toList, b.isDetached = false) (i : BlockId) (b : Block)
      (hb : g.block? i = some b) : b.isDetached = false :=
    h b (Array.mem_toList_iff.2 (Array.mem_of_getElem? hb))
  have hblocks := Graph.Arises.empty
    |>.operate (.addBlock .base) trivial
    |>.operate (.addBlock .condition) trivial
    |>.operate (.addBlock .base) trivial
  have hlinked := hblocks.operate (.link 0 1) fun i _ => hlive (by decide) i
  have hbranching := hlinked.operate (.linkBranches 1 2 2) fun i _ => hlive (by decide) i
  exact hbranching.operate (.link 2 1) fun i _ => hlive (by decide) i

theorem checked_and_unchanged_by_failure_looping :
    Arises looping ∧ looping.checkEdges = .ok () ∧
      (∀ op : Operation, op.Allowed looping → looping.size ≤ (op.edit.after looping).size ∧
        ∀ e g', op.edit.run looping = .error e g' → g' = looping) ∧
      looping.entry < looping.size ∧ (∃ count g', Edit.prune.run looping = .ok count g') ∧
        ∃ report g', Edit.simplify.run looping = .ok report g' := by
  obtain ⟨hcheck, -, hops, hsimplify⟩ := checked_and_unchanged_by_failure arises_looping
  have hentry : looping.entry < looping.size := by decide
  exact ⟨arises_looping, hcheck, hops, hentry, hsimplify hentry⟩

end Graph.Arises

end FlowGraph
