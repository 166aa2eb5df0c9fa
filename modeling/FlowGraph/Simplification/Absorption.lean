import FlowGraph.Graph.Keeps
import FlowGraph.Simplification.Exhaustion

/-!
# Absorbing a successor

A base block takes over the statements and the outgoing edges of its only successor, when nothing
else leads there. The successor is detached.

## Main definitions

* `Graph.checkAbsorb`: whether one block may absorb another
* `Edit.absorb`: absorb a given successor, after that check
* `Graph.absorbable?`: the successor that simplification lets a block absorb
* `absorption`: absorb that successor, as a step to be repeated

## Main results

* `Edit.detachment_of_run_absorb`: absorbing detaches the successor and no other block
-/

namespace FlowGraph

/-- A block after all that it held was taken over. Its color and its final mark stay. -/
def Block.vacate (block : Block) : Block :=
  { block.detach with label := none }

/-- A block followed by the block it absorbs. It keeps a label of its own, and it is final if the
absorbed block was. -/
def Block.takeOver (block absorbed : Block) : Block :=
  { block with
    statements := block.statements ++ absorbed.statements
    successors := absorbed.successors
    label := block.label.or absorbed.label
    isFinal := absorbed.isFinal }

namespace Graph

/-- Moves the exit to `new` if it is `old`. -/
def moveExit (g : Graph) (old new : BlockId) : Graph :=
  if g.exit = old then { g with exit := new } else g

@[simp] theorem blocks_moveExit (g : Graph) (old new : BlockId) :
    (g.moveExit old new).blocks = g.blocks := by
  unfold moveExit
  split <;> rfl

/-- Checks that block `id` may absorb block `next`, and answers `next` as it is. -/
def checkAbsorb (g : Graph) (id next : BlockId) : Except Error Block := do
  let b ← g.find id
  if b.isCondition then
    throw (.absorbsNoCondition id)
  else if b.successors ≠ [next] then
    throw (.notSoleSuccessor id next b.successors)
  else
    let absorbed ← g.find next
    if absorbed.isCondition then
      throw (.absorbsNoCondition next)
    else if absorbed.predecessors.length ≠ 1 then
      throw (.sharedSuccessor id next absorbed.predecessors.length)
    else
      pure absorbed

/-- Whether simplification lets block `id` absorb `next`, its only successor: `next` is another live
base block, it is not the entry, and only `id` leads to it. -/
def mayAbsorb (g : Graph) (id next : BlockId) (candidate : Block) : Bool :=
  next != id && next != g.entry && !candidate.isCondition && !candidate.isDetached &&
    candidate.predecessors == [id]

/-- The successor that simplification lets a block absorb. -/
def absorbable? (g : Graph) (id : BlockId) : Except Error (Option BlockId) := do
  match (← g.find id).absorbTarget? with
  | none => pure none
  | some next =>
    let candidate ← g.find next
    pure (if g.mayAbsorb id next candidate then some next else none)

end Graph

namespace Edit

/-- Appends block `next` to block `id`, detaches it and lets its successors and the exit know. -/
def absorb (id next : BlockId) : Edit Unit := do
  let absorbed ← ask (·.checkAbsorb id next)
  -- What `next` held is kept in `absorbed`.
  update next (·.vacate)
  absorbed.successors.forM fun successor => update successor (·.replacePredecessor next id)
  update id (·.takeOver absorbed)
  modify (·.moveExit next id)

/-- Absorbing detaches the absorbed block and no other. -/
theorem detachment_of_run_absorb {id next : BlockId} {g g' : Graph} {u : Unit}
    (hrun : (absorb id next).run g = .ok u g') :
    g'.detachment = g.detachment.set next true := by
  simp only [absorb, run_bind_eq_ok_iff, run_ask_eq_ok_iff, run_update_eq_ok_iff,
    run_modify_eq_ok_iff] at hrun
  obtain ⟨absorbed, g, ⟨_, rfl⟩, _, _, ⟨_, rfl⟩, _, h, hforM, _, _, ⟨_, rfl⟩, rfl⟩ := hrun
  have hloop : Keeps Graph.detachment (absorbed.successors.forM fun successor =>
      update successor (·.replacePredecessor next id)) :=
    Keeps.forM fun _ _ => Keeps.update fun g =>
      g.detachment_modify_of_isDetached_eq _ fun _ => rfl
  have htake := h.detachment_modify_of_isDetached_eq id (f := (·.takeOver absorbed)) fun _ => rfl
  have hvacate := g.detachment_modify_of_isDetached next (f := (·.vacate)) fun _ => rfl
  rw [Graph.detachment, Graph.blocks_moveExit, ← Graph.detachment, htake,
    hloop.of_run_eq_ok hforM, hvacate]

end Edit

/-- The block that simplification absorbs was live. -/
theorem isDetached_of_absorbable? {g : Graph} {id next : BlockId}
    (h : g.absorbable? id = .ok (some next)) : g.detachment[next]? = some false := by
  unfold Graph.absorbable? at h
  simp only [bind, Except.bind, pure, Except.pure] at h
  split at h
  · cases h
  · split at h
    · cases h
    · split at h
      · cases h
      · rename_i candidate hfind
        split at h
        · rename_i hmay
          cases h
          rw [Graph.getElem?_detachment, Graph.find_eq_ok_iff.1 hfind]
          simp_all [Graph.mayAbsorb]
        · cases h

/-- Absorbing the absorbable successor costs one live block. -/
theorem liveCount_of_run_absorb {g h : Graph} {id next : BlockId} {u : Unit}
    (hnext : g.absorbable? id = .ok (some next)) (hrun : (Edit.absorb id next).run g = .ok u h) :
    h.liveCount + 1 = g.liveCount := by
  rw [Graph.liveCount_eq_count_detachment, Graph.liveCount_eq_count_detachment,
    Edit.detachment_of_run_absorb hrun]
  exact Graph.count_set_detached (isDetached_of_absorbable? hnext)

/-- The step that absorbs the absorbable successor of a block. -/
def absorption (id : BlockId) : ShrinkingStep :=
  .ofSearch (·.absorbable? id) (Edit.absorb id) liveCount_of_run_absorb

end FlowGraph
