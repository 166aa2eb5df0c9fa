import FlowGraph.Graph.Basic

/-!
# Runs of a graph

A run follows edges from block to block. It emits the statements of every base block on its way, and
at a condition block what is evaluated there together with the slot over which it goes on. A run is
looked at either up to some point, between any two things that it emits, or as a whole, once it has
come to a block without successors.

## Main definitions

* `Emission`, `Ending`: what a run emits, and how it ends
* `Graph.Run`: the runs from a block

## Main results

* `Graph.Run.transfer`: a run goes through another graph that agrees on the blocks of the run
-/

namespace FlowGraph

/-- What a run emits. -/
inductive Emission
  /-- A statement that was run. -/
  | statement (node : Node)
  /-- What a condition block evaluates, with the successor slot that was taken. -/
  | test (nodes : List Node) (slot : Nat)

/-- How a run ends. -/
inductive Ending
  /-- The run may go on, but is looked at up to this point only. -/
  | cut
  /-- The run is complete: it has come to a block without successors. -/
  | complete (last : BlockId)

namespace Block

/-- What a block emits before control leaves it. -/
def emitted (block : Block) : List Emission :=
  match block.kind with
  | .base => block.statements.map .statement
  | .condition => []

/-- What a block emits when control leaves it over a slot. -/
def emittedOver (block : Block) (slot : Nat) : List Emission :=
  match block.kind with
  | .base => block.statements.map .statement
  | .condition => [.test block.statements slot]

end Block

namespace Graph

/-- The runs of a graph from a block, each with what it emits and how it ends. -/
inductive Run (g : Graph) : BlockId → List Emission → Ending → Prop
  /-- The run is cut at the latest when it has emitted all that comes before the next edge. -/
  | cut {id : BlockId} {b : Block} {t : List Emission} (block : g.block? id = some b)
      (emits : t <+: b.emitted) : Run g id t .cut
  /-- The run is complete. -/
  | complete {id : BlockId} {b : Block} (block : g.block? id = some b)
      (last : b.successors = []) : Run g id b.emitted (.complete id)
  /-- The run goes on over an edge. -/
  | step {id next : BlockId} {b : Block} {slot : Nat} {t : List Emission} {e : Ending}
      (block : g.block? id = some b) (edge : b.successors[slot]? = some next)
      (rest : Run g next t e) : Run g id (b.emittedOver slot ++ t) e

/-- A run stays where two graphs agree if edges do not lead out of there. -/
theorem Run.transfer {g g' : Graph} {P : BlockId → Prop}
    (hsame : ∀ {i c}, P i → g.block? i = some c → ∃ d, g'.block? i = some d ∧ d.kind = c.kind ∧
      d.statements = c.statements ∧ d.successors = c.successors)
    (hclosed : ∀ {i c}, P i → g.block? i = some c → ∀ j ∈ c.successors, P j)
    {i : BlockId} {t : List Emission} {e : Ending} (hrun : g.Run i t e) (hi : P i) :
    g'.Run i t e := by
  -- The induction is on the run, with the region `P` as its invariant.
  induction hrun with
  | @cut i c t hblock hemits =>
    obtain ⟨d, hd, hkind, hstatements, -⟩ := hsame hi hblock
    refine .cut hd ?_
    rwa [Block.emitted, hkind, hstatements]
  | @complete i c hblock hlast =>
    obtain ⟨d, hd, hkind, hstatements, hsuccessors⟩ := hsame hi hblock
    have hemitted : d.emitted = c.emitted := by
      rw [Block.emitted, Block.emitted, hkind, hstatements]
    rw [← hemitted]
    exact .complete hd (hsuccessors.trans hlast)
  | @step i j c slot t e hblock hedge _ ih =>
    obtain ⟨d, hd, hkind, hstatements, hsuccessors⟩ := hsame hi hblock
    have hover : d.emittedOver slot = c.emittedOver slot := by
      rw [Block.emittedOver, Block.emittedOver, hkind, hstatements]
    rw [← hover]
    exact .step hd (hsuccessors ▸ hedge) (ih (hclosed hi hblock j (List.mem_of_getElem? hedge)))

end Graph

end FlowGraph
