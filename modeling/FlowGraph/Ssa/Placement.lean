import FlowGraph.Graph.Edit
import FlowGraph.Ssa.Declared
import FlowGraph.Traversal.Walk

/-!
# Phi placeholders

Placeholders are placed on a depth-first walk from the entry that carries the variables declared on
its way. Each time it crosses an edge into a block that several edges enter, that block gets a
placeholder for every variable declared so far, unless it has one.

## Main definitions

* `Block.addPhis`: placeholders for a list of variables
* `placementWalk`: the walk that places them
* `Edit.placePhis`: place them all, and answer how many were added
* `Edit.addPhi`: a single placeholder
-/

namespace FlowGraph

/-- Adds placeholders for the variables of a list that have no phi node. -/
def Block.addPhis (block : Block) (names : List String) : Block :=
  names.foldl Block.addPhi block

/-- A graph in the middle of placement, with the number of placeholders added so far. -/
structure PlacementState where
  graph : Graph
  added : Nat := 0

/-- What placement remembers about a block: the variables declared on the way to its end, and its
successors. -/
structure PlacementFrame where
  declared : Std.TreeSet String := ∅
  successors : List BlockId := []

/-- Places the variables of a frame at a block that several edges enter. -/
def PlacementState.cross (frame : PlacementFrame) (id : BlockId) (s : PlacementState) :
    PlacementState :=
  match s.graph.block? id with
  | none => s
  | some block =>
    if block.isJoin then
      let added := block.addPhis frame.declared.toList
      { graph := s.graph.modify id fun _ => added
        added := s.added + (added.phis.length - block.phis.length) }
    else
      s

/-- Adds the variables that a block declares, as far as they are to be placed. -/
def PlacementState.enter (wanted : Std.TreeSet String) (frame : PlacementFrame) (id : BlockId) :
    EStateM Error PlacementState PlacementFrame := fun s =>
  match s.graph.find id with
  | .error e => .error e s
  | .ok block =>
    let names := block.declared.filter (wanted.contains ·)
    .ok ⟨frame.declared.insertMany names, block.successors⟩ s

/-- The walk that places phi nodes for the variables in `wanted`. -/
def placementWalk (wanted : Std.TreeSet String) : Walk PlacementState PlacementFrame where
  slots _ frame := frame.successors
  cross := PlacementState.cross
  enter := PlacementState.enter wanted
  slots_cross _ _ _ _ := rfl

namespace Edit

/-- Places phi nodes for the variables in `wanted`, and answers how many were added. -/
def placePhis (wanted : Std.TreeSet String) : Edit Nat := fun g =>
  match (placementWalk wanted).run g.size {} g.entry ⟨g, 0⟩ with
  | .ok _ s => .ok s.added s.graph
  | .error e s => .error e s.graph

/-- Adds a placeholder to a block, and answers whether there was none before. -/
def addPhi (id : BlockId) (name : String) : Edit Bool := do
  let b ← block id
  update id (·.addPhi name)
  pure (b.phi? name).isNone

end Edit

end FlowGraph
