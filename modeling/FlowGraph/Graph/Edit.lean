import FlowGraph.Error
import FlowGraph.Graph.Basic

/-!
# Checked changes of a graph

An `Edit` changes a graph and may fail. A failing edit leaves the graph as it was when the failure
was found, so the changes made before it stay.

## Main definitions

* `Edit`: a change that may fail
* `Edit.ask`: a question about the graph that may have no answer
* `Edit.block`, `Edit.update`: read and change a block that has to exist
* `Edit.link`, `Edit.linkBranches`: add edges between blocks that have to exist

## Main results

* `Edit.run_ask`, `Edit.run_update`: the two primitives on a graph
* `Edit.run_bind_eq_ok_iff`: when a sequence of edits succeeds
* `Edit.run_link_eq_ok_iff`: when an edge can be added
-/

namespace FlowGraph

/-- A change of a graph that may fail. -/
abbrev Edit :=
  EStateM Error Graph

namespace Edit

/-- Asks a question about the graph, which may have no answer. -/
def ask {α : Type} (question : Graph → Except Error α) : Edit α := do
  match question (← get) with
  | .ok answer => pure answer
  | .error e => throw e

/-- The block with a given id, which has to exist. -/
def block (id : BlockId) : Edit Block :=
  ask (·.find id)

/-- Changes a block, which has to exist. -/
def update (id : BlockId) (f : Block → Block) : Edit Unit := do
  let _ ← block id
  modify (·.modify id f)

/-- Adds a block and answers its id. -/
def addBlock (kind : BlockKind) : Edit BlockId := do
  let id := (← get).size
  modify (·.addBlock kind)
  pure id

/-- Adds an edge between two blocks. -/
def link (source target : BlockId) : Edit Unit := do
  let _ ← block source
  let _ ← block target
  modify (·.connect source target)

/-- Gives a condition block without successors its two branches. -/
def linkBranches (cond onTrue onFalse : BlockId) : Edit Unit := do
  let _ ← block onTrue
  let _ ← block onFalse
  let b ← block cond
  if b.isCondition && b.successors.isEmpty then
    modify (·.connectBranches cond onTrue onFalse)
  else
    throw (.takesNoBranches cond)

theorem run_ask {α : Type} (question : Graph → Except Error α) (g : Graph) :
    (ask question).run g =
      match question g with
      | .ok answer => .ok answer g
      | .error e => .error e g := by
  simp only [ask, EStateM.run_bind, EStateM.run_get]
  cases question g <;> rfl

@[simp] theorem run_ask_eq_ok_iff {α : Type} {question : Graph → Except Error α} {g g' : Graph}
    {answer : α} :
    (ask question).run g = .ok answer g' ↔ question g = .ok answer ∧ g' = g := by
  rw [run_ask]
  cases question g <;> simp [eq_comm]

theorem run_update (id : BlockId) (f : Block → Block) (g : Graph) :
    (update id f).run g =
      match g.find id with
      | .ok _ => .ok () (g.modify id f)
      | .error e => .error e g := by
  simp only [update, block, EStateM.run_bind, run_ask]
  cases g.find id <;> rfl

@[simp] theorem run_block_eq_ok_iff {id : BlockId} {g g' : Graph} {b : Block} :
    (block id).run g = .ok b g' ↔ g.block? id = some b ∧ g' = g := by
  simp [block, Graph.find_eq_ok_iff]

@[simp] theorem run_update_eq_ok_iff {id : BlockId} {f : Block → Block} {g g' : Graph} {u : Unit} :
    (update id f).run g = .ok u g' ↔ id < g.size ∧ g' = g.modify id f := by
  rw [run_update, ← Graph.block?_isSome_iff, Graph.find]
  cases g.block? id <;> simp [eq_comm]

/-- An edit followed by another succeeds when both do. -/
theorem run_bind_eq_ok_iff {α β : Type} {x : Edit α} {f : α → Edit β} {g g' : Graph} {b : β} :
    (x >>= f).run g = .ok b g' ↔ ∃ a h, x.run g = .ok a h ∧ (f a).run h = .ok b g' := by
  rw [EStateM.run_bind]
  cases x.run g with
  | error e h => simp
  | ok a h =>
    constructor
    · exact fun hf => ⟨a, h, rfl, hf⟩
    · rintro ⟨_, _, ⟨⟩, hf⟩
      exact hf

@[simp] theorem run_pure_eq_ok_iff {α : Type} {a b : α} {g g' : Graph} :
    (pure a : Edit α).run g = .ok b g' ↔ b = a ∧ g' = g := by
  simp [eq_comm]

@[simp] theorem run_throw_eq_ok_iff {α : Type} {e : Error} {a : α} {g g' : Graph} :
    (throw e : Edit α).run g = .ok a g' ↔ False :=
  iff_false_intro fun h => nomatch (h : EStateM.Result.error e g = .ok a g')

@[simp] theorem run_get_eq_ok_iff {g g' h : Graph} :
    (get : Edit Graph).run g = .ok h g' ↔ h = g ∧ g' = g := by
  simp [eq_comm]

@[simp] theorem run_modify_eq_ok_iff {f : Graph → Graph} {g g' : Graph} {u : Unit} :
    (modify f : Edit Unit).run g = .ok u g' ↔ g' = f g := by
  simp [eq_comm]

theorem run_link_eq_ok_iff {source target : BlockId} {g g' : Graph} {u : Unit} :
    (link source target).run g = .ok u g' ↔
      source < g.size ∧ target < g.size ∧ g' = g.connect source target := by
  simp only [link, run_bind_eq_ok_iff, run_block_eq_ok_iff, run_modify_eq_ok_iff,
    ← Graph.block?_isSome_iff, Option.isSome_iff_exists]
  constructor
  · rintro ⟨b, _, ⟨hb, rfl⟩, c, _, ⟨hc, rfl⟩, rfl⟩
    exact ⟨⟨b, hb⟩, ⟨c, hc⟩, rfl⟩
  · rintro ⟨⟨b, hb⟩, ⟨c, hc⟩, rfl⟩
    exact ⟨b, g, ⟨hb, rfl⟩, c, g, ⟨hc, rfl⟩, rfl⟩

end Edit

end FlowGraph
