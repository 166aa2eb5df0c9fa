import FlowGraph.Ssa.Phi
import FlowGraph.Syntax.Node

/-!
# Blocks

A block is a run of statements with the edges that enter and leave it. A base block runs its
statements and goes on; a condition block evaluates its one statement and goes on with its first
successor if the condition holds and with its second one otherwise.

## Main definitions

* `Block`: statements, predecessors, successors, color, flags, label and phi nodes
* `Block.absorbTarget?`, `Block.forwardTarget?`: the shapes that simplification acts on, with the
  successor in question
* `Block.detach`: take a block out of its graph
* `Block.addPhi`: a phi placeholder, at most one for each variable

## Main results

* `Block.absorbTarget?_eq_some_iff`, `Block.forwardTarget?_eq_some_iff`: those shapes in full
-/

namespace FlowGraph

/-- The two kinds of block. -/
inductive BlockKind
  /-- Runs its statements and goes on with its successor. -/
  | base
  /-- Selects a successor by its one statement. -/
  | condition
  deriving DecidableEq, Repr

/-- The color a block is drawn in. -/
inductive BlockColor
  | plain
  /-- The start of the branch taken when a condition holds. -/
  | onTrue
  /-- The start of the branch taken when a condition does not hold. -/
  | onFalse
  deriving DecidableEq, Repr

/-- The text of a color. -/
def BlockColor.text : BlockColor → String
  | plain => "white"
  | onTrue => "#80ff80"
  | onFalse => "#ff9999"

/-- A block of a graph. -/
structure Block where
  id : BlockId
  kind : BlockKind
  statements : List Node := []
  /-- The blocks with an edge to this one, one entry for each edge. -/
  predecessors : List BlockId := []
  /-- The blocks this one goes on with, in slot order. -/
  successors : List BlockId := []
  color : BlockColor := .plain
  /-- Control never passes the end of a final block. -/
  isFinal : Bool := false
  /-- A detached block is no longer part of its graph. -/
  isDetached : Bool := false
  label : Option String := none
  /-- At most one phi node for each variable, in ascending order. -/
  phis : List Phi := []

namespace Block

instance : Inhabited Block := ⟨{ id := 0, kind := .base }⟩

/-- Whether a block is a condition block. -/
def isCondition (block : Block) : Bool :=
  block.kind == .condition

/-- Whether a block has no statements. -/
def isEmpty (block : Block) : Bool :=
  block.statements.isEmpty

/-- Whether more than one edge enters a block. -/
def isJoin (block : Block) : Bool :=
  decide (1 < block.predecessors.length)

/-- The successor of a condition block when its condition holds. -/
def trueBranch? (block : Block) : Option BlockId :=
  if block.isCondition then block.successors[0]? else none

/-- The successor of a condition block when its condition does not hold. -/
def falseBranch? (block : Block) : Option BlockId :=
  if block.isCondition then block.successors[1]? else none

/-- The successor of a base block that goes on with that one only and is entered at most once. -/
def absorbTarget? (block : Block) : Option BlockId :=
  match block.successors with
  | [target] =>
    if block.kind == .base && !block.isDetached && decide (block.predecessors.length ≤ 1) then
      some target
    else
      none
  | _ => none

/-- Whether a block may absorb its successor: a base block with one successor and at most one
predecessor. -/
def canAbsorb (block : Block) : Bool :=
  block.absorbTarget?.isSome

theorem absorbTarget?_eq_some_iff {block : Block} {target : BlockId} :
    block.absorbTarget? = some target ↔
      block.kind = .base ∧ block.isDetached = false ∧ block.predecessors.length ≤ 1 ∧
        block.successors = [target] := by
  unfold absorbTarget?
  split
  · rename_i t ht
    simp only [Option.ite_none_right_eq_some, Bool.and_eq_true, beq_iff_eq, Bool.not_eq_true',
      decide_eq_true_eq, Option.some.injEq, ht, List.cons.injEq, and_true, and_assoc]
  · rename_i h
    simp only [reduceCtorEq, false_iff, not_and]
    intro _ _ _ hs
    exact absurd hs (h target)

/-- The successor of an empty base block that only goes on with one other block. -/
def forwardTarget? (block : Block) : Option BlockId :=
  match block.successors with
  | [target] =>
    if block.kind == .base && !block.isDetached && block.isEmpty && target != block.id then
      some target
    else
      none
  | _ => none

/-- Whether a block is empty and only goes on with one other block. -/
def isForwarding (block : Block) : Bool :=
  block.forwardTarget?.isSome

theorem forwardTarget?_eq_some_iff {block : Block} {target : BlockId} :
    block.forwardTarget? = some target ↔
      block.kind = .base ∧ block.isDetached = false ∧ block.statements = [] ∧
        block.successors = [target] ∧ target ≠ block.id := by
  unfold forwardTarget? isEmpty
  split
  · rename_i t ht
    simp only [Option.ite_none_right_eq_some, Bool.and_eq_true, beq_iff_eq, bne_iff_ne,
      Bool.not_eq_true', List.isEmpty_iff, Option.some.injEq, ht, List.cons.injEq, and_true,
      and_assoc]
    refine and_congr_right' (and_congr_right' (and_congr_right' ?_))
    exact ⟨fun ⟨hne, heq⟩ => ⟨heq, heq ▸ hne⟩, fun ⟨heq, hne⟩ => ⟨heq ▸ hne, heq⟩⟩
  · rename_i h
    simp only [reduceCtorEq, false_iff, not_and]
    intro _ _ _ hs
    exact absurd hs (h target)

/-- Appends statements. -/
def addStatements (block : Block) (statements : List Node) : Block :=
  { block with statements := block.statements ++ statements }

/-- Appends a predecessor entry. -/
def addPredecessor (block : Block) (predecessor : BlockId) : Block :=
  { block with predecessors := block.predecessors ++ [predecessor] }

/-- Appends a successor slot. -/
def addSuccessor (block : Block) (successor : BlockId) : Block :=
  { block with successors := block.successors ++ [successor] }

/-- Removes every predecessor entry for `predecessor`. -/
def dropPredecessor (block : Block) (predecessor : BlockId) : Block :=
  { block with predecessors := block.predecessors.filter (· != predecessor) }

/-- Removes all predecessor entries. -/
def clearPredecessors (block : Block) : Block :=
  { block with predecessors := [] }

/-- Puts `new` into every predecessor entry for `old`. -/
def replacePredecessor (block : Block) (old new : BlockId) : Block :=
  { block with predecessors := block.predecessors.map fun p => if p == old then new else p }

/-- Puts `new` into the first successor slot that holds `old`. -/
def redirect (block : Block) (old new : BlockId) : Block :=
  { block with successors := block.successors.replace old new }

/-- Marks a block as final. -/
def markFinal (block : Block) : Block :=
  { block with isFinal := true }

/-- Takes a block out of its graph: it keeps its label, color and final mark only. -/
def detach (block : Block) : Block :=
  { block with
    statements := []
    predecessors := []
    successors := []
    phis := []
    isDetached := true }

/-- The phi node for a variable. -/
def phi? (block : Block) (name : String) : Option Phi :=
  block.phis.find? (·.base == name)

/-- Adds a placeholder for a variable that has no phi node yet. -/
def addPhi (block : Block) (name : String) : Block :=
  if (block.phi? name).isSome then block
  else { block with phis := Phi.insert name block.phis }

end Block

end FlowGraph
