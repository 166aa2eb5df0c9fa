import FlowGraph.Block
import FlowGraph.Edge
import FlowGraph.Error
import FlowGraph.Traversal.Preorder

/-!
# Control flow graphs

A graph owns its blocks and numbers them from zero. Blocks are never removed: a block that drops out
is detached, so an id stays valid for good. Nothing in the type asks edges to lead anywhere, and the
functions of this module are total; `Edit` adds the checks.

## Main definitions

* `Graph`: a name, the blocks, the entry and the exit
* `Graph.addBlock`, `Graph.modify`: the two primitive changes
* `Graph.connect`, `Graph.connectBranches`: add edges in both directions
* `Graph.preorder`, `Graph.reachable`: depth-first orders
* `Graph.live`, `Graph.liveCount`: the blocks that are not detached
* `Graph.edges`: the edges between reachable blocks

## Main results

* `Graph.block?_modify`, `Graph.size_modify`: what a change of one block does
* `Graph.detachment_modify_of_isDetached_eq`, `Graph.detachment_modify_of_isDetached`: its effect on
  which blocks are detached
-/

namespace FlowGraph

/-- A control flow graph. -/
structure Graph where
  /-- The function it was built from. -/
  name : Option String := none
  blocks : Array Block := #[]
  /-- Where control starts. -/
  entry : BlockId := 0
  /-- Where control ends if it passes the end of the whole construct. -/
  exit : BlockId := 0

namespace Graph

instance : Inhabited Graph := ⟨{}⟩

/-- The number of blocks, detached ones included. It is also the id of the next block. -/
def size (g : Graph) : Nat :=
  g.blocks.size

/-- The block with a given id, detached or not. -/
def block? (g : Graph) (block : BlockId) : Option Block :=
  g.blocks[block]?

/-- The block with a given id, or the error that there is none. -/
def find (g : Graph) (block : BlockId) : Except Error Block :=
  match g.block? block with
  | some b => .ok b
  | none => .error (.noSuchBlock block)

/-- The name of a graph as reports show it. -/
def displayName (g : Graph) : String :=
  g.name.getD "<anonymous>"

/-- Adds an unconnected block after the others. -/
def addBlock (g : Graph) (kind : BlockKind) : Graph :=
  { g with blocks := g.blocks.push { id := g.size, kind := kind } }

/-- Changes one block. -/
def modify (g : Graph) (block : BlockId) (f : Block → Block) : Graph :=
  { g with blocks := g.blocks.modify block f }

/-- Appends statements to a block. -/
def addStatements (g : Graph) (block : BlockId) (statements : List Node) : Graph :=
  g.modify block (·.addStatements statements)

/-- Adds an edge after the other edges of its source and of its target. -/
def connect (g : Graph) (source target : BlockId) : Graph :=
  (g.modify target (·.addPredecessor source)).modify source (·.addSuccessor target)

/-- Gives a block its two branches and colors their first blocks. -/
def connectBranches (g : Graph) (cond onTrue onFalse : BlockId) : Graph :=
  ((g.modify cond fun block => { block with successors := [onTrue, onFalse] }).modify onTrue
    fun block => { block.addPredecessor cond with color := .onTrue }).modify onFalse
    fun block => { block.addPredecessor cond with color := .onFalse }

/-- The blocks that are not detached, in the order of their ids. -/
def live (g : Graph) : List Block :=
  g.blocks.toList.filter (!·.isDetached)

/-- The number of blocks that are not detached. -/
def liveCount (g : Graph) : Nat :=
  g.blocks.countP (!·.isDetached)

/-- The successors of a block, none for an id out of range. -/
def successors (g : Graph) (block : BlockId) : List BlockId :=
  (g.block? block).elim [] (·.successors)

/-- The depth-first pre-order from a block. -/
def preorder (g : Graph) (start : BlockId) : List BlockId :=
  Traversal.preorder g.size g.successors start

/-- The blocks that the entry leads to, in depth-first pre-order. -/
def reachable (g : Graph) : List BlockId :=
  g.preorder g.entry

/-- The reachable blocks themselves, in the same order. -/
def reachableBlocks (g : Graph) : List Block :=
  g.reachable.filterMap g.block?

/-- The reachable condition blocks. -/
def conditions (g : Graph) : List BlockId :=
  g.reachable.filter fun block => (g.block? block).any (·.isCondition)

/-- The edges out of reachable blocks, in pre-order of their sources and then by slot. -/
def edges (g : Graph) : List Edge :=
  g.reachable.flatMap fun source =>
    (g.block? source).elim [] fun block =>
      block.successors.zipIdx.map fun (target, slot) =>
        { source, target, kind := .ofSlot block.isCondition slot }

@[simp] theorem size_modify (g : Graph) (block : BlockId) (f : Block → Block) :
    (g.modify block f).size = g.size := by
  simp [modify, size]

theorem block?_modify (g : Graph) (block other : BlockId) (f : Block → Block) :
    (g.modify block f).block? other =
      if block = other then (g.block? other).map f else g.block? other := by
  simp [modify, block?, Array.getElem?_modify]

theorem block?_modify_self (g : Graph) (block : BlockId) (f : Block → Block) :
    (g.modify block f).block? block = (g.block? block).map f := by
  simp [block?_modify]

theorem find_eq_ok_iff {g : Graph} {block : BlockId} {b : Block} :
    g.find block = .ok b ↔ g.block? block = some b := by
  unfold find
  cases g.block? block <;> simp

theorem block?_isSome_iff {g : Graph} {block : BlockId} :
    (g.block? block).isSome = true ↔ block < g.size := by
  simp [block?, size]

/-- For each block, whether it is detached. -/
def detachment (g : Graph) : List Bool :=
  g.blocks.toList.map (·.isDetached)

theorem liveCount_eq_count_detachment (g : Graph) : g.liveCount = g.detachment.count false := by
  unfold liveCount detachment List.count
  rw [← Array.countP_toList, List.countP_map]
  refine List.countP_congr fun b _ => ?_
  simp

theorem getElem?_detachment (g : Graph) (block : BlockId) :
    g.detachment[block]? = (g.block? block).map (·.isDetached) := by
  simp [detachment, block?]

/-- A change that keeps a block in or out of the graph is not seen in `detachment`. -/
theorem detachment_modify_of_isDetached_eq (g : Graph) (block : BlockId) {f : Block → Block}
    (h : ∀ b, (f b).isDetached = b.isDetached) : (g.modify block f).detachment = g.detachment := by
  refine List.ext_getElem? fun i => ?_
  rw [getElem?_detachment, getElem?_detachment, block?_modify]
  split <;> cases g.block? i <;> simp [h]

@[simp] theorem length_detachment (g : Graph) : g.detachment.length = g.size := by
  simp [detachment, size]

/-- A change that detaches a block sets its entry in `detachment`. -/
theorem detachment_modify_of_isDetached (g : Graph) (block : BlockId) {f : Block → Block}
    (h : ∀ b, (f b).isDetached = true) :
    (g.modify block f).detachment = g.detachment.set block true := by
  refine List.ext_getElem? fun i => ?_
  rw [getElem?_detachment, block?_modify, List.getElem?_set, getElem?_detachment,
    length_detachment]
  simp only [← block?_isSome_iff]
  by_cases hi : block = i
  · subst hi
    cases g.block? block <;> simp [h]
  · simp [hi]

/-- Detaching a live block lowers the number of live blocks by one. -/
theorem count_set_detached {flags : List Bool} {block : BlockId}
    (hlive : flags[block]? = some false) :
    (flags.set block true).count false + 1 = flags.count false := by
  obtain ⟨hlt, hfalse⟩ := List.getElem?_eq_some_iff.1 hlive
  have hpos : 0 < flags.count false := by
    rw [List.count_pos_iff, ← hfalse]
    exact List.getElem_mem hlt
  rw [List.count_set hlt, hfalse]
  simp
  omega

end Graph

end FlowGraph
