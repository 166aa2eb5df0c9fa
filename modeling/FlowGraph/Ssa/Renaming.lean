import FlowGraph.Graph.Edit
import FlowGraph.Ssa.Version
import FlowGraph.Syntax.Substitution
import FlowGraph.Traversal.Walk

/-!
# Renaming variables

Renaming walks the graph depth-first from the entry with the current version of each variable. In a
block every phi node defines a new version first. Then every statement has the variables it reads
replaced by their current versions, and if it defines a variable, its target is a new version. Every
edge into a block that several edges enter adds the current versions as operands to the phi nodes
there. A block that is entered over an edge starts from the versions current at the source of the
edge, so it sees the definitions on the way of the walk and no others.

## Main definitions

* `Naming`: the current versions and the versions handed out
* `Naming.phi`, `Naming.statement`, `Naming.block`: rename one phi node, statement or block
* `renamingWalk`: the walk that renames a graph
* `Edit.rename`: rename the reachable part of a graph
-/

namespace FlowGraph

/-- The current version of each variable that has one, and the versions handed out so far. -/
structure Naming where
  current : Std.TreeMap String String := ∅
  versions : Versions := {}

namespace Naming

/-- Hands out a new version of a variable, which becomes its current one. -/
def define (naming : Naming) (name : String) : String × Naming :=
  let (version, versions) := naming.versions.fresh name
  (version, ⟨naming.current.insert name version, versions⟩)

/-- Renames a phi node: it defines a new version. -/
def phi (naming : Naming) (phi : Phi) : Phi × Naming :=
  let (version, naming) := naming.define phi.base
  (phi.resolve version, naming)

/-- Renames a statement: its reads first, then the variable it defines. -/
def statement (naming : Naming) (statement : Node) : Node × Naming :=
  -- The target of an assignment is replaced along with the reads; a plain one is set again below.
  let renamed := statement.substitute (naming.current[·]?)
  match statement.defined? with
  | none => (renamed, naming)
  | some name =>
    let (version, naming) := naming.define name
    (renamed.withDefined version, naming)

/-- Renames phi nodes in order. -/
def phis (naming : Naming) : List Phi → List Phi × Naming
  | [] => ([], naming)
  | first :: rest =>
    let (first, naming) := naming.phi first
    let (rest, naming) := naming.phis rest
    (first :: rest, naming)

/-- Renames statements in order. -/
def statements (naming : Naming) : List Node → List Node × Naming
  | [] => ([], naming)
  | first :: rest =>
    let (first, naming) := naming.statement first
    let (rest, naming) := naming.statements rest
    (first :: rest, naming)

/-- Renames a block: its phi nodes, then its statements. -/
def block (naming : Naming) (block : Block) : Block × Naming :=
  let (phis, naming) := naming.phis block.phis
  let (statements, naming) := naming.statements block.statements
  ({ block with phis := phis, statements := statements }, naming)

end Naming

/-- Adds the current versions at the end of block `source` as operands to the phi nodes of a block
that several edges enter. -/
def Block.receive (block : Block) (source : BlockId) (current : Std.TreeMap String String) :
    Block :=
  if block.isJoin then
    { block with
      phis := block.phis.map fun phi =>
        match current[phi.base]? with
        | none => phi
        | some version => phi.addOperand ⟨version, source⟩ }
  else
    block

/-- A graph in the middle of renaming, with the versions handed out so far. -/
structure RenamingState where
  graph : Graph
  versions : Versions := {}

/-- What renaming remembers about a block: the versions current at its end, and its successors. -/
structure RenamingFrame where
  block : BlockId := 0
  current : Std.TreeMap String String := ∅
  successors : List BlockId := []

/-- Passes the current versions on to a block. -/
def RenamingState.cross (frame : RenamingFrame) (id : BlockId) (s : RenamingState) :
    RenamingState :=
  { s with graph := s.graph.modify id (·.receive frame.block frame.current) }

/-- Renames a block, starting from the current versions of a frame. -/
def RenamingState.enter (frame : RenamingFrame) (id : BlockId) :
    EStateM Error RenamingState RenamingFrame := fun s =>
  match s.graph.find id with
  | .error e => .error e s
  | .ok block =>
    let (renamed, naming) := Naming.block ⟨frame.current, s.versions⟩ block
    .ok ⟨id, naming.current, block.successors⟩
      ⟨s.graph.modify id fun _ => renamed, naming.versions⟩

/-- The walk that renames a graph. -/
def renamingWalk : Walk RenamingState RenamingFrame where
  slots _ frame := frame.successors
  cross := RenamingState.cross
  enter := RenamingState.enter
  slots_cross _ _ _ _ := rfl

/-- Renames the reachable part of a graph, and answers the versions handed out. -/
def Edit.rename (declared : Std.TreeSet String) : Edit Versions := fun g =>
  match renamingWalk.run g.size {} g.entry ⟨g, .start declared⟩ with
  | .ok _ s => .ok s.versions s.graph
  | .error e s => .error e s.graph

end FlowGraph
