import FlowGraph.Construction.Layout
import FlowGraph.Proofs.Graph.Growth
import FlowGraph.Proofs.Run

/-!
# What a layout does to the code of blocks

Runs depend on the code of blocks only: kind, statements and successors. Layout adds blocks after
the others and leaves the code of the blocks that were there before as it was.

## Main definitions

* `Code`, `Graph.code`: what a run sees of a block

## Main results

* `Graph.code_connect`, `Graph.code_connectBranches`, ...: the code after each change
-/

namespace FlowGraph

/-- What a run sees of a block. -/
structure Code where
  kind : BlockKind
  statements : List Node
  successors : List BlockId

/-- The code of a block. -/
def Block.code (block : Block) : Code :=
  ⟨block.kind, block.statements, block.successors⟩

/-- The code with one more successor. -/
def Code.addSuccessor (code : Code) (successor : BlockId) : Code :=
  { code with successors := code.successors ++ [successor] }

namespace Graph

/-- The code of a block of a graph. -/
def code (g : Graph) (id : BlockId) : Option Code :=
  (g.block? id).map Block.code

theorem code_eq_none {g : Graph} {id : BlockId} (h : g.size ≤ id) : g.code id = none := by
  have hnone : ¬ (g.block? id).isSome = true := by
    rw [block?_isSome_iff]
    exact Nat.not_lt.2 h
  rw [code, Option.not_isSome_iff_eq_none.1 hnone, Option.map_none]

theorem exists_code {g : Graph} {id : BlockId} (h : id < g.size) : ∃ c, g.code id = some c := by
  obtain ⟨b, hb⟩ := Option.isSome_iff_exists.1 (block?_isSome_iff.2 h)
  exact ⟨b.code, by rw [code, hb, Option.map_some]⟩

theorem lt_size_of_code {g : Graph} {id : BlockId} {c : Code} (h : g.code id = some c) :
    id < g.size := by
  refine Nat.lt_of_not_le fun hle => ?_
  rw [code_eq_none hle] at h
  cases h

theorem successors_eq_code (g : Graph) (id : BlockId) :
    g.successors id = (g.code id).elim [] (·.successors) := by
  rw [successors, code]
  cases g.block? id <;> rfl

theorem successors_of_code {g : Graph} {id : BlockId} {c : Code} (h : g.code id = some c) :
    g.successors id = c.successors := by
  rw [successors_eq_code, h, Option.elim_some]

/-- A change that does not touch the code of blocks. -/
theorem code_modify_of_code_eq (g : Graph) (block id : BlockId) {f : Block → Block}
    (h : ∀ b, (f b).code = b.code) : (g.modify block f).code id = g.code id := by
  rw [code, code, block?_modify]
  split <;> cases g.block? id <;> simp [h]

/-- A change of the code of one block. -/
theorem code_modify (g : Graph) (block id : BlockId) {f : Block → Block} {k : Code → Code}
    (h : ∀ b, (f b).code = k b.code) :
    (g.modify block f).code id = if id = block then (g.code id).map k else g.code id := by
  rw [code, code, block?_modify]
  by_cases hid : block = id
  · subst hid
    cases g.block? block <;> simp [h]
  · rw [if_neg hid, if_neg (Ne.symm hid)]

theorem code_addBlock (g : Graph) (kind : BlockKind) (id : BlockId) :
    (g.addBlock kind).code id = if id = g.size then some ⟨kind, [], []⟩ else g.code id := by
  rw [code, block?_addBlock]
  split <;> rfl

theorem code_addBlock_self (g : Graph) (kind : BlockKind) :
    (g.addBlock kind).code g.size = some ⟨kind, [], []⟩ := by
  rw [code_addBlock, if_pos rfl]

theorem code_addBlock_of_lt (g : Graph) (kind : BlockKind) {id : Nat} (h : id < g.size) :
    (g.addBlock kind).code id = g.code id := by
  rw [code_addBlock, if_neg (Nat.ne_of_lt h)]

@[simp] theorem size_addStatementBlock (g : Graph) (kind : BlockKind) (statements : List Node) :
    (g.addStatementBlock kind statements).size = g.size + 1 := by
  simp [addStatementBlock, addStatements]

theorem code_addStatementBlock (g : Graph) (kind : BlockKind) (statements : List Node)
    (id : BlockId) :
    (g.addStatementBlock kind statements).code id =
      if id = g.size then some ⟨kind, statements, []⟩ else g.code id := by
  have h := code_modify (g.addBlock kind) g.size id (f := (·.addStatements statements))
    (k := fun c => { c with statements := c.statements ++ statements }) fun _ => rfl
  rw [addStatementBlock, addStatements, h, code_addBlock]
  split <;> simp

theorem code_connect (g : Graph) (source target id : BlockId) :
    (g.connect source target).code id =
      if id = source then (g.code id).map (·.addSuccessor target) else g.code id := by
  have h := g.code_modify_of_code_eq target id (f := (·.addPredecessor source)) fun _ => rfl
  rw [← h]
  exact code_modify _ _ _ fun _ => rfl

theorem code_connect_self (g : Graph) (source target : BlockId) :
    (g.connect source target).code source = (g.code source).map (·.addSuccessor target) := by
  rw [code_connect, if_pos rfl]

theorem code_connect_of_ne (g : Graph) {source id : BlockId} (target : BlockId)
    (h : id ≠ source) : (g.connect source target).code id = g.code id := by
  rw [code_connect, if_neg h]

@[simp] theorem size_connectIf (g : Graph) (connected : Bool) (source target : BlockId) :
    (g.connectIf connected source target).size = g.size := by
  unfold connectIf
  split <;> simp

theorem code_connectIf (g : Graph) (connected : Bool) (source target id : BlockId) :
    (g.connectIf connected source target).code id =
      if connected = true ∧ id = source then (g.code id).map (·.addSuccessor target)
      else g.code id := by
  cases connected <;> simp [connectIf, code_connect]

theorem code_connectIf_of_ne (g : Graph) {connected : Bool} {source id : BlockId}
    (target : BlockId) (h : connected = true → id ≠ source) :
    (g.connectIf connected source target).code id = g.code id := by
  unfold connectIf
  split
  · rename_i hconnected
    exact code_connect_of_ne g target (h hconnected)
  · rfl

theorem code_connectIf_self (g : Graph) {connected : Bool} (source target : BlockId)
    (h : connected = true) : (g.connectIf connected source target).code source =
      (g.code source).map (·.addSuccessor target) := by
  rw [connectIf, if_pos h, code_connect, if_pos rfl]

theorem code_connectBranches (g : Graph) (cond onTrue onFalse id : BlockId) :
    (g.connectBranches cond onTrue onFalse).code id =
      if id = cond then (g.code id).map fun c => { c with successors := [onTrue, onFalse] }
      else g.code id := by
  have hstart (color : BlockColor) (b : Block) :
      ({ b.addPredecessor cond with color := color } : Block).code = b.code := rfl
  rw [connectBranches, code_modify_of_code_eq _ _ _ (hstart .onFalse),
    code_modify_of_code_eq _ _ _ (hstart .onTrue)]
  exact code_modify _ _ _ fun _ => rfl

theorem code_connectBranches_of_ne (g : Graph) {cond id : BlockId} (onTrue onFalse : BlockId)
    (h : id ≠ cond) : (g.connectBranches cond onTrue onFalse).code id = g.code id := by
  rw [code_connectBranches, if_neg h]

@[simp] theorem size_markFinalIf (g : Graph) (final : Bool) (block : BlockId) :
    (g.markFinalIf final block).size = g.size := by
  unfold markFinalIf
  split <;> simp

@[simp] theorem code_markFinalIf (g : Graph) (final : Bool) (block id : BlockId) :
    (g.markFinalIf final block).code id = g.code id := by
  unfold markFinalIf
  split
  · exact code_modify_of_code_eq _ _ _ fun _ => rfl
  · rfl

@[simp] theorem size_addHeader (g : Graph) (declarator : Node) :
    (g.addHeader declarator).size = g.size + 1 := by
  simp [addHeader]

theorem code_addHeader (g : Graph) (declarator : Node) (id : BlockId) :
    (g.addHeader declarator).code id =
      if id = g.size then some ⟨.base, declarator.functionParams, []⟩ else g.code id := by
  rw [← code_addStatementBlock]
  exact code_modify_of_code_eq _ _ _ fun _ => rfl

@[simp] theorem size_addSingle (g : Graph) (node : Node) (final : Bool) :
    (g.addSingle node final).1.size = g.size + 1 := by
  simp [addSingle]

theorem code_addSingle (g : Graph) (node : Node) (final : Bool) (id : BlockId) :
    (g.addSingle node final).1.code id =
      if id = g.size then some ⟨.base, [node], []⟩ else g.code id := by
  rw [addSingle, code_markFinalIf, code_addStatementBlock]

@[simp] theorem size_addJump (g : Graph) (target : Option BlockId) :
    (g.addJump target).1.size = g.size + 1 := by
  cases target <;> simp [addJump]

theorem code_addJump (g : Graph) (target : Option BlockId) (id : BlockId) :
    (g.addJump target).1.code id =
      if id = g.size then some ⟨.base, [], target.toList⟩ else g.code id := by
  cases target with
  | none =>
    simp only [addJump, Option.elim_none, code_markFinalIf, code_addBlock, Option.toList_none]
  | some target =>
    simp only [addJump, Option.elim_some, code_connect, code_markFinalIf, code_addBlock]
    split <;> rfl

end Graph

end FlowGraph
