import FlowGraph.Simplification.Absorption

/-!
# Bypassing an empty block

An empty block that only goes on with another block is taken out, and every edge into it leads to
that other block instead. An edge keeps its slot, so both branches of a condition keep their sides.

## Main definitions

* `Edit.bypass`: bypass a given block, after checking that this is allowed
* `Graph.firstForwarding?`: the first block of a list that can be bypassed
* `bypassing`: bypass the first such successor of a block, as a step to be repeated

## Main results

* `Edit.detachment_of_run_bypass`: bypassing detaches the bypassed block and no other
-/

namespace FlowGraph

/-- A block that can be bypassed, with the block it leads to. -/
def Graph.forwardTarget (g : Graph) (id : BlockId) : Except Error (Block × BlockId) := do
  let b ← g.find id
  match b.forwardTarget? with
  | some target => pure (b, target)
  | none => throw (.notForwarding id)

/-- The first block of a list that can be bypassed. -/
def Graph.firstForwarding? (g : Graph) : List BlockId → Except Error (Option BlockId)
  | [] => pure none
  | id :: rest => do
    if (← g.find id).isForwarding then pure (some id) else g.firstForwarding? rest

/-- The first successor of a block that can be bypassed. -/
def Graph.bypassable? (g : Graph) (id : BlockId) : Except Error (Option BlockId) := do
  g.firstForwarding? (← g.find id).successors

namespace Edit

/-- Lets one edge from `source` to `id` lead to `target` instead. -/
def retarget (id target source : BlockId) : Edit Unit := do
  update source (·.redirect id target)
  update target (·.addPredecessor source)

/-- Takes out an empty block that only goes on with another one. -/
def bypass (id : BlockId) : Edit Unit := do
  let (b, target) ← ask (·.forwardTarget id)
  -- The entry of the old edge goes first, so that the new ones are added after all others.
  update id (·.clearPredecessors)
  update target (·.dropPredecessor id)
  b.predecessors.forM (retarget id target)
  update id (·.detach)
  modify (·.moveExit id target)

/-- Bypassing detaches the bypassed block and no other. -/
theorem detachment_of_run_bypass {id : BlockId} {g g' : Graph} {u : Unit}
    (hrun : (bypass id).run g = .ok u g') : g'.detachment = g.detachment.set id true := by
  simp only [bypass, run_bind_eq_ok_iff, run_ask_eq_ok_iff, run_update_eq_ok_iff,
    run_modify_eq_ok_iff] at hrun
  obtain ⟨⟨b, target⟩, g, ⟨_, rfl⟩, _, _, ⟨_, rfl⟩, _, _, ⟨_, rfl⟩, _, h, hforM, _, _, ⟨_, rfl⟩,
    rfl⟩ := hrun
  have hloop : Keeps Graph.detachment (b.predecessors.forM (retarget id target)) :=
    Keeps.forM fun _ _ => Keeps.bind
      (Keeps.update fun g => g.detachment_modify_of_isDetached_eq _ fun _ => rfl)
      fun _ => Keeps.update fun g => g.detachment_modify_of_isDetached_eq _ fun _ => rfl
  rw [Graph.detachment, Graph.blocks_moveExit, ← Graph.detachment,
    h.detachment_modify_of_isDetached id fun _ => rfl, hloop.of_run_eq_ok hforM,
    Graph.detachment_modify_of_isDetached_eq _ _ (f := (·.dropPredecessor id)) fun _ => rfl,
    Graph.detachment_modify_of_isDetached_eq _ _ (f := (·.clearPredecessors)) fun _ => rfl]

end Edit

theorem Graph.isForwarding_of_firstForwarding? {g : Graph} {ids : List BlockId} {id : BlockId}
    (h : g.firstForwarding? ids = .ok (some id)) :
    ∃ b, g.block? id = some b ∧ b.isForwarding = true := by
  induction ids with
  | nil => cases h
  | cons first rest ih =>
    simp only [Graph.firstForwarding?, bind, Except.bind, pure, Except.pure] at h
    split at h
    · cases h
    · rename_i b hfind
      split at h
      · cases h
        exact ⟨b, Graph.find_eq_ok_iff.1 hfind, by assumption⟩
      · exact ih h

/-- The block that simplification bypasses was live. -/
theorem isDetached_of_bypassable? {g : Graph} {id successor : BlockId}
    (h : g.bypassable? id = .ok (some successor)) : g.detachment[successor]? = some false := by
  simp only [Graph.bypassable?, bind, Except.bind] at h
  split at h
  · cases h
  · obtain ⟨b, hb, hforward⟩ := Graph.isForwarding_of_firstForwarding? h
    obtain ⟨target, htarget⟩ := Option.isSome_iff_exists.1 hforward
    obtain ⟨_, hlive, _⟩ := Block.forwardTarget?_eq_some_iff.1 htarget
    rw [Graph.getElem?_detachment, hb, Option.map_some, hlive]

/-- Bypassing a successor costs one live block. -/
theorem liveCount_of_run_bypass {g h : Graph} {id successor : BlockId} {u : Unit}
    (hsuccessor : g.bypassable? id = .ok (some successor))
    (hrun : (Edit.bypass successor).run g = .ok u h) : h.liveCount + 1 = g.liveCount := by
  rw [Graph.liveCount_eq_count_detachment, Graph.liveCount_eq_count_detachment,
    Edit.detachment_of_run_bypass hrun]
  exact Graph.count_set_detached (isDetached_of_bypassable? hsuccessor)

/-- The step that bypasses the first successor of a block that can be bypassed. -/
def bypassing (id : BlockId) : ShrinkingStep :=
  .ofSearch (·.bypassable? id) Edit.bypass liveCount_of_run_bypass

end FlowGraph
