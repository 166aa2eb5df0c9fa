import FlowGraph.Proofs.Construction.Code

/-!
# Pieces of a layout

The piece of a node consists of blocks that come after all others. Laying it out leaves the code of
the other blocks as it was, and if control can pass the end of the node, the piece ends in a base
block that has no successor yet.

## Main definitions

* `Piece`: a graph that arises from another by adding the piece of a statement
* `Chain`: a graph that arises by adding pieces one after another behind a block
* `Node.LayOutCases`: what has to be shown of single layouts so that it holds of all

## Main results

* `Piece.function`, `Piece.branch`, `Piece.whileLoop`, `Piece.forLoop`: the pieces around other
  pieces
* `Node.layOut_branch`, `Node.layOut_whileLoop`, ...: the steps of a layout that succeeds
* `Node.LayOutCases.layOut`: the layout of every node
-/

namespace FlowGraph

/-- `g'` is `g` with a piece added that starts and stops as `span` says. -/
structure Piece (g g' : Graph) (span : Span) (passes : Bool) : Prop where
  keeps : ∀ i : Nat, i < g.size → g'.code i = g.code i
  le_start : g.size ≤ span.start
  start_lt : span.start < g'.size
  le_stop : g.size ≤ span.stop
  stop_lt : span.stop < g'.size
  code_stop : passes = true → ∃ statements, g'.code span.stop = some ⟨.base, statements, []⟩

/-- `g'` is `g` with pieces added behind the block `current`, the last of which stops at `last`. The
block `current` has got no edge if control does not come to its end. -/
structure Chain (g g' : Graph) (current last : BlockId) (running passes : Bool) : Prop where
  keeps : ∀ i : Nat, i < g.size → (running = true → i ≠ current) → g'.code i = g.code i
  size_le : g.size ≤ g'.size
  last_mem : last = current ∨ g.size ≤ last ∧ last < g'.size
  code_last : passes = true → ∃ statements, g'.code last = some ⟨.base, statements, []⟩
  code_current : ∀ c, g.code current = some c →
    ∃ successors, g'.code current = some { c with successors := successors }

theorem Piece.size_lt {g g' : Graph} {span : Span} {passes : Bool} (p : Piece g g' span passes) :
    g.size < g'.size :=
  Nat.lt_of_le_of_lt p.le_start p.start_lt

namespace Graph

theorem piece_addSingle (g : Graph) (node : Node) (final passes : Bool) :
    Piece g (g.addSingle node final).1 (g.addSingle node final).2 passes where
  keeps i hi := by rw [code_addSingle, if_neg (Nat.ne_of_lt hi)]
  le_start := Nat.le_refl _
  start_lt := by simp [addSingle]
  le_stop := Nat.le_refl _
  stop_lt := by simp [addSingle]
  code_stop _ := ⟨[node], by rw [code_addSingle]; exact if_pos rfl⟩

theorem piece_addJump (g : Graph) (target : Option BlockId) :
    Piece g (g.addJump target).1 (g.addJump target).2 false where
  keeps i hi := by rw [code_addJump, if_neg (Nat.ne_of_lt hi)]
  le_start := Nat.le_refl _
  start_lt := by rw [size_addJump]; exact Nat.lt_succ_self _
  le_stop := Nat.le_refl _
  stop_lt := by rw [size_addJump]; exact Nat.lt_succ_self _
  code_stop h := nomatch h

/-- The piece of an absent branch. -/
theorem piece_addBlock (g : Graph) : Piece g (g.addBlock .base) ⟨g.size, g.size⟩ true where
  keeps i hi := by rw [code_addBlock, if_neg (Nat.ne_of_lt hi)]
  le_start := Nat.le_refl _
  start_lt := by simp
  le_stop := Nat.le_refl _
  stop_lt := by simp
  code_stop _ := ⟨[], by rw [code_addBlock, if_pos rfl]⟩

end Graph

/-! ### Function definitions -/

section Function

variable {decl : Node} {g g₁ : Graph} {body : Span} {passes : Bool}

/-- The header of a function followed by its body. -/
def Graph.closeFunction (g₁ : Graph) (header : BlockId) (body : Span) : Graph :=
  g₁.connect header body.start

namespace Piece

theorem code_function_body {i : Nat} (hi : (g.addHeader decl).size ≤ i) :
    (g₁.closeFunction g.size body).code i = g₁.code i := by
  rw [Graph.size_addHeader] at hi
  exact g₁.code_connect_of_ne _ (Nat.ne_of_gt hi)

theorem code_function_header (piece : Piece (g.addHeader decl) g₁ body passes) :
    (g₁.closeFunction g.size body).code g.size =
      some ⟨.base, decl.functionParams, [body.start]⟩ := by
  rw [Graph.closeFunction, Graph.code_connect_self, piece.keeps _ (by simp), Graph.code_addHeader,
    if_pos rfl]
  rfl

theorem function (piece : Piece (g.addHeader decl) g₁ body passes) :
    Piece g (g₁.closeFunction g.size body) ⟨g.size, body.stop⟩ passes where
  keeps i hi := by
    rw [Graph.closeFunction, g₁.code_connect_of_ne _ (Nat.ne_of_lt hi),
      piece.keeps i (by simp; omega), Graph.code_addHeader, if_neg (Nat.ne_of_lt hi)]
  le_start := Nat.le_refl _
  start_lt := by
    rw [Graph.closeFunction, Graph.size_connect]
    exact Nat.lt_trans (by simp) piece.size_lt
  le_stop := Nat.le_trans (by simp) piece.le_stop
  stop_lt := by
    rw [Graph.closeFunction, Graph.size_connect]
    exact piece.stop_lt
  code_stop hpasses := by
    rw [code_function_body piece.le_stop]
    exact piece.code_stop hpasses

end Piece

end Function

/-! ### Conditionals -/

namespace Graph

/-- The block of a condition behind an empty block. -/
def addTest (g : Graph) (cond : Node) : Graph :=
  ((g.addBlock .base).addStatementBlock .condition [cond]).connect g.size (g.size + 1)

@[simp] theorem size_addTest (g : Graph) (cond : Node) : (g.addTest cond).size = g.size + 2 := by
  simp [addTest]

theorem code_addTest (g : Graph) (cond : Node) (id : Nat) :
    (g.addTest cond).code id =
      if id = g.size then some ⟨.base, [], [g.size + 1]⟩
      else if id = g.size + 1 then some ⟨.condition, [cond], []⟩ else g.code id := by
  simp only [addTest, code_connect, code_addStatementBlock, code_addBlock, size_addBlock]
  grind [Code.addSuccessor]

/-- Lets the branches of a condition meet in a new block. -/
def addJoin (g : Graph) (test : BlockId) (yes no : Span) (yesPasses noPasses : Bool) : Graph :=
  ((((g.addBlock .base).connectBranches test yes.start no.start).connectIf yesPasses yes.stop
    g.size).connectIf noPasses no.stop g.size).markFinalIf (!yesPasses && !noPasses) g.size

@[simp] theorem size_addJoin (g : Graph) (test : BlockId) (yes no : Span)
    (yesPasses noPasses : Bool) : (g.addJoin test yes no yesPasses noPasses).size = g.size + 1 := by
  simp [addJoin]

theorem code_addJoin (g : Graph) (test : BlockId) (yes no : Span) (yesPasses noPasses : Bool)
    (hne : yes.stop ≠ no.stop) (hyes : yes.stop ≠ test) (hno : no.stop ≠ test) {id : BlockId}
    (hid : g.size > id) :
    (g.addJoin test yes no yesPasses noPasses).code id =
      if id = test then (g.code id).map fun c => { c with successors := [yes.start, no.start] }
      else if yesPasses = true ∧ id = yes.stop ∨ noPasses = true ∧ id = no.stop then
        (g.code id).map (·.addSuccessor g.size)
      else g.code id := by
  simp only [addJoin, code_markFinalIf, code_connectIf, code_connectBranches,
    code_addBlock_of_lt _ _ hid]
  grind

end Graph

section Branch

variable {cond : Node} {g g₁ g₂ : Graph} {yes no : Span} {yesPasses noPasses : Bool}

namespace Piece

variable (pieceYes : Piece (g.addTest cond) g₁ yes yesPasses) (pieceNo : Piece g₁ g₂ no noPasses)

include pieceYes pieceNo

/-- The branches of a conditional lie apart from each other and from the blocks before them. -/
private theorem branch_bounds : g.size + 2 ≤ yes.stop ∧ yes.stop < g₁.size ∧ g₁.size ≤ no.stop ∧
    no.stop < g₂.size := by
  have hle := pieceYes.le_stop
  rw [Graph.size_addTest] at hle
  exact ⟨hle, pieceYes.stop_lt, pieceNo.le_stop, pieceNo.stop_lt⟩

/-- The code of the graph in which the branches meet. -/
private theorem code_branch {i : Nat} (hi : i < g₂.size) :
    (g₂.addJoin (g.size + 1) yes no yesPasses noPasses).code i =
      if i = g.size + 1 then
        (g₂.code i).map fun c => { c with successors := [yes.start, no.start] }
      else if yesPasses = true ∧ i = yes.stop ∨ noPasses = true ∧ i = no.stop then
        (g₂.code i).map (·.addSuccessor g₂.size)
      else g₂.code i := by
  have hbounds := branch_bounds pieceYes pieceNo
  exact Graph.code_addJoin _ _ _ _ _ _ (by grind) (by grind) (by grind) hi

private theorem code_branch_old {i : Nat} (hi : i < g.size + 2) :
    g₂.code i = (g.addTest cond).code i := by
  have hbounds := branch_bounds pieceYes pieceNo
  rw [pieceNo.keeps i (by grind), pieceYes.keeps i (by rw [Graph.size_addTest]; exact hi)]

theorem code_branch_first : (g₂.addJoin (g.size + 1) yes no yesPasses noPasses).code g.size =
    some ⟨.base, [], [g.size + 1]⟩ := by
  have hbounds := branch_bounds pieceYes pieceNo
  rw [code_branch pieceYes pieceNo (by grind), code_branch_old pieceYes pieceNo (by simp),
    Graph.code_addTest]
  grind

theorem code_branch_test : (g₂.addJoin (g.size + 1) yes no yesPasses noPasses).code (g.size + 1) =
    some ⟨.condition, [cond], [yes.start, no.start]⟩ := by
  have hbounds := branch_bounds pieceYes pieceNo
  rw [code_branch pieceYes pieceNo (by grind), code_branch_old pieceYes pieceNo (by simp),
    Graph.code_addTest]
  grind

theorem code_branch_join : (g₂.addJoin (g.size + 1) yes no yesPasses noPasses).code g₂.size =
    some ⟨.base, [], []⟩ := by
  have hbounds := branch_bounds pieceYes pieceNo
  rw [Graph.addJoin, Graph.code_markFinalIf, Graph.code_connectIf_of_ne _ _ (by grind),
    Graph.code_connectIf_of_ne _ _ (by grind), Graph.code_connectBranches_of_ne _ _ _ (by grind),
    Graph.code_addBlock_self]

theorem code_branch_yes {i : Nat} (hi : (g.addTest cond).size ≤ i) (hlt : i < g₁.size)
    (hne : yesPasses = true → i ≠ yes.stop) :
    (g₂.addJoin (g.size + 1) yes no yesPasses noPasses).code i = g₁.code i := by
  have hbounds := branch_bounds pieceYes pieceNo
  rw [Graph.size_addTest] at hi
  rw [code_branch pieceYes pieceNo (by grind), pieceNo.keeps i hlt]
  grind

theorem code_branch_yes_stop (hpasses : yesPasses = true) :
    (g₂.addJoin (g.size + 1) yes no yesPasses noPasses).code yes.stop =
      (g₁.code yes.stop).map (·.addSuccessor g₂.size) := by
  have hbounds := branch_bounds pieceYes pieceNo
  rw [code_branch pieceYes pieceNo (by grind), pieceNo.keeps _ pieceYes.stop_lt]
  grind

theorem code_branch_no {i : Nat} (hi : g₁.size ≤ i) (hlt : i < g₂.size)
    (hne : noPasses = true → i ≠ no.stop) :
    (g₂.addJoin (g.size + 1) yes no yesPasses noPasses).code i = g₂.code i := by
  have hbounds := branch_bounds pieceYes pieceNo
  rw [code_branch pieceYes pieceNo hlt]
  grind

theorem code_branch_no_stop (hpasses : noPasses = true) :
    (g₂.addJoin (g.size + 1) yes no yesPasses noPasses).code no.stop =
      (g₂.code no.stop).map (·.addSuccessor g₂.size) := by
  have hbounds := branch_bounds pieceYes pieceNo
  rw [code_branch pieceYes pieceNo pieceNo.stop_lt]
  grind

theorem branch (passes : Bool) : Piece g (g₂.addJoin (g.size + 1) yes no yesPasses noPasses)
    ⟨g.size, g₂.size⟩ passes where
  keeps i hi := by
    have hbounds := branch_bounds pieceYes pieceNo
    rw [code_branch pieceYes pieceNo (by grind), code_branch_old pieceYes pieceNo (by grind),
      Graph.code_addTest]
    grind
  le_start := Nat.le_refl _
  start_lt := by
    have hbounds := branch_bounds pieceYes pieceNo
    rw [Graph.size_addJoin]
    grind
  le_stop := by
    have hbounds := branch_bounds pieceYes pieceNo
    grind
  stop_lt := by
    rw [Graph.size_addJoin]
    exact Nat.lt_succ_self _
  code_stop _ := ⟨[], code_branch_join pieceYes pieceNo⟩

end Piece

end Branch

/-! ### Loops -/

namespace Graph

/-- The blocks of a `while` loop around its body. -/
def addWhile (g : Graph) (cond : Node) : Graph :=
  (((g.addBlock .base).addStatementBlock .condition [cond]).addBlock .base).connect g.size
    (g.size + 1)

@[simp] theorem size_addWhile (g : Graph) (cond : Node) : (g.addWhile cond).size = g.size + 3 := by
  simp [addWhile]

theorem code_addWhile (g : Graph) (cond : Node) (id : Nat) :
    (g.addWhile cond).code id =
      if id = g.size then some ⟨.base, [], [g.size + 1]⟩
      else if id = g.size + 1 then some ⟨.condition, [cond], []⟩
      else if id = g.size + 2 then some ⟨.base, [], []⟩ else g.code id := by
  simp only [addWhile, code_connect, code_addBlock, code_addStatementBlock, size_addBlock,
    size_addStatementBlock]
  grind [Code.addSuccessor]

/-- Leads the body of a `while` loop back to its condition. -/
def closeWhile (g : Graph) (test after : BlockId) (body : Span) (passes : Bool) : Graph :=
  (g.connectBranches test body.start after).connectIf passes body.stop test

@[simp] theorem size_closeWhile (g : Graph) (test after : BlockId) (body : Span) (passes : Bool) :
    (g.closeWhile test after body passes).size = g.size := by
  simp [closeWhile]

/-- The blocks of a `for` loop around its body. -/
def addFor (g : Graph) (init : List Node) (cond : Node) (step : List Node) : Graph :=
  (((g.addStatementBlock .base init).addStatementBlock .condition [cond]).addStatementBlock .base
    step).addBlock .base

@[simp] theorem size_addFor (g : Graph) (init : List Node) (cond : Node) (step : List Node) :
    (g.addFor init cond step).size = g.size + 4 := by
  simp [addFor]

theorem code_addFor (g : Graph) (init : List Node) (cond : Node) (step : List Node) (id : Nat) :
    (g.addFor init cond step).code id =
      if id = g.size then some ⟨.base, init, []⟩
      else if id = g.size + 1 then some ⟨.condition, [cond], []⟩
      else if id = g.size + 2 then some ⟨.base, step, []⟩
      else if id = g.size + 3 then some ⟨.base, [], []⟩ else g.code id := by
  simp only [addFor, code_addBlock, code_addStatementBlock, size_addStatementBlock]
  grind

/-- Leads the body of a `for` loop to its step, and the step to the condition. -/
def closeFor (g : Graph) (first test next after : BlockId) (body : Span) (passes : Bool) : Graph :=
  (((g.connect first test).connectBranches test body.start after).connectIf passes body.stop
    next).connect next test

@[simp] theorem size_closeFor (g : Graph) (first test next after : BlockId) (body : Span)
    (passes : Bool) : (g.closeFor first test next after body passes).size = g.size := by
  simp [closeFor]

end Graph

section While

variable {cond : Node} {g g₁ : Graph} {body : Span} {passes : Bool}

namespace Piece

variable (piece : Piece (g.addWhile cond) g₁ body passes)

include piece

private theorem while_bounds : g.size + 3 ≤ body.stop ∧ body.stop < g₁.size := by
  have hle := piece.le_stop
  rw [Graph.size_addWhile] at hle
  exact ⟨hle, piece.stop_lt⟩

private theorem code_while {i : Nat} (hi : i < g.size + 3) :
    (g₁.closeWhile (g.size + 1) (g.size + 2) body passes).code i =
      if i = g.size + 1 then some ⟨.condition, [cond], [body.start, g.size + 2]⟩
      else (g.addWhile cond).code i := by
  have hbounds := while_bounds piece
  rw [Graph.closeWhile, Graph.code_connectIf_of_ne _ _ (by grind), Graph.code_connectBranches,
    piece.keeps i (by rw [Graph.size_addWhile]; exact hi), Graph.code_addWhile]
  grind

theorem code_while_first : (g₁.closeWhile (g.size + 1) (g.size + 2) body passes).code g.size =
    some ⟨.base, [], [g.size + 1]⟩ := by
  rw [code_while piece (by simp), Graph.code_addWhile]
  grind

theorem code_while_test :
    (g₁.closeWhile (g.size + 1) (g.size + 2) body passes).code (g.size + 1) =
      some ⟨.condition, [cond], [body.start, g.size + 2]⟩ := by
  rw [code_while piece (by simp), if_pos rfl]

theorem code_while_after :
    (g₁.closeWhile (g.size + 1) (g.size + 2) body passes).code (g.size + 2) =
      some ⟨.base, [], []⟩ := by
  rw [code_while piece (by simp), Graph.code_addWhile]
  grind

omit piece in
theorem code_while_body {i : Nat} (hi : (g.addWhile cond).size ≤ i)
    (hne : passes = true → i ≠ body.stop) :
    (g₁.closeWhile (g.size + 1) (g.size + 2) body passes).code i = g₁.code i := by
  rw [Graph.size_addWhile] at hi
  rw [Graph.closeWhile, Graph.code_connectIf_of_ne _ _ hne,
    Graph.code_connectBranches_of_ne _ _ _ (by grind)]

theorem code_while_stop (hpasses : passes = true) :
    (g₁.closeWhile (g.size + 1) (g.size + 2) body passes).code body.stop =
      (g₁.code body.stop).map (·.addSuccessor (g.size + 1)) := by
  have hbounds := while_bounds piece
  rw [Graph.closeWhile, Graph.code_connectIf_self _ _ _ hpasses,
    Graph.code_connectBranches_of_ne _ _ _ (by grind)]

theorem whileLoop : Piece g (g₁.closeWhile (g.size + 1) (g.size + 2) body passes)
    ⟨g.size, g.size + 2⟩ true where
  keeps i hi := by
    rw [code_while piece (by grind), Graph.code_addWhile]
    grind
  le_start := Nat.le_refl _
  start_lt := by
    have hbounds := while_bounds piece
    rw [Graph.size_closeWhile]
    grind
  le_stop := by simp
  stop_lt := by
    have hbounds := while_bounds piece
    rw [Graph.size_closeWhile]
    grind
  code_stop _ := ⟨[], code_while_after piece⟩

end Piece

end While

section For

variable {init : List Node} {cond : Node} {step : List Node} {g g₁ : Graph} {body : Span}
  {passes : Bool}

namespace Piece

variable (piece : Piece (g.addFor init cond step) g₁ body passes)

include piece

private theorem for_bounds : g.size + 4 ≤ body.stop ∧ body.stop < g₁.size := by
  have hle := piece.le_stop
  rw [Graph.size_addFor] at hle
  exact ⟨hle, piece.stop_lt⟩

private theorem code_for {i : Nat} (hi : i < g.size + 4) :
    (g₁.closeFor g.size (g.size + 1) (g.size + 2) (g.size + 3) body passes).code i =
      if i = g.size then some ⟨.base, init, [g.size + 1]⟩
      else if i = g.size + 1 then some ⟨.condition, [cond], [body.start, g.size + 3]⟩
      else if i = g.size + 2 then some ⟨.base, step, [g.size + 1]⟩
      else (g.addFor init cond step).code i := by
  have hbounds := for_bounds piece
  rw [Graph.closeFor, Graph.code_connect, Graph.code_connectIf_of_ne _ _ (by grind),
    Graph.code_connectBranches, Graph.code_connect,
    piece.keeps i (by rw [Graph.size_addFor]; exact hi), Graph.code_addFor]
  grind [Code.addSuccessor]

theorem code_for_first :
    (g₁.closeFor g.size (g.size + 1) (g.size + 2) (g.size + 3) body passes).code g.size =
      some ⟨.base, init, [g.size + 1]⟩ := by
  rw [code_for piece (by simp), if_pos rfl]

theorem code_for_test :
    (g₁.closeFor g.size (g.size + 1) (g.size + 2) (g.size + 3) body passes).code (g.size + 1) =
      some ⟨.condition, [cond], [body.start, g.size + 3]⟩ := by
  rw [code_for piece (by simp)]
  grind

theorem code_for_next :
    (g₁.closeFor g.size (g.size + 1) (g.size + 2) (g.size + 3) body passes).code (g.size + 2) =
      some ⟨.base, step, [g.size + 1]⟩ := by
  rw [code_for piece (by simp)]
  grind

theorem code_for_after :
    (g₁.closeFor g.size (g.size + 1) (g.size + 2) (g.size + 3) body passes).code (g.size + 3) =
      some ⟨.base, [], []⟩ := by
  rw [code_for piece (by simp), Graph.code_addFor]
  grind

omit piece in
theorem code_for_body {i : Nat} (hi : (g.addFor init cond step).size ≤ i)
    (hne : passes = true → i ≠ body.stop) :
    (g₁.closeFor g.size (g.size + 1) (g.size + 2) (g.size + 3) body passes).code i = g₁.code i := by
  rw [Graph.size_addFor] at hi
  rw [Graph.closeFor, Graph.code_connect_of_ne _ _ (by grind), Graph.code_connectIf_of_ne _ _ hne,
    Graph.code_connectBranches_of_ne _ _ _ (by grind), Graph.code_connect_of_ne _ _ (by grind)]

theorem code_for_stop (hpasses : passes = true) :
    (g₁.closeFor g.size (g.size + 1) (g.size + 2) (g.size + 3) body passes).code body.stop =
      (g₁.code body.stop).map (·.addSuccessor (g.size + 2)) := by
  have hbounds := for_bounds piece
  rw [Graph.closeFor, Graph.code_connect_of_ne _ _ (by grind),
    Graph.code_connectIf_self _ _ _ hpasses, Graph.code_connectBranches_of_ne _ _ _ (by grind),
    Graph.code_connect_of_ne _ _ (by grind)]

theorem forLoop :
    Piece g (g₁.closeFor g.size (g.size + 1) (g.size + 2) (g.size + 3) body passes)
      ⟨g.size, g.size + 3⟩ true where
  keeps i hi := by
    rw [code_for piece (by grind), Graph.code_addFor]
    grind
  le_start := Nat.le_refl _
  start_lt := by
    have hbounds := for_bounds piece
    rw [Graph.size_closeFor]
    grind
  le_stop := by simp
  stop_lt := by
    have hbounds := for_bounds piece
    rw [Graph.size_closeFor]
    grind
  code_stop _ := ⟨[], code_for_after piece⟩

end Piece

end For

namespace Piece

variable {g g₁ g' : Graph} {span : Span} {completes passes : Bool} {current last : BlockId}

/-- A piece to which nothing leads, before a chain that does not go on from it either. -/
theorem chain_unreached (piece : Piece g g₁ span completes)
    (chain : Chain g₁ g' current last false false) (hcurrent : current < g.size) :
    Chain g g' current last false false where
  keeps i hi _ := by
    rw [chain.keeps i (Nat.lt_trans hi piece.size_lt) nofun, piece.keeps i hi]
  size_le := Nat.le_trans (Nat.le_of_lt piece.size_lt) chain.size_le
  last_mem := chain.last_mem.imp id fun ⟨hle, hlt⟩ =>
    ⟨Nat.le_trans (Nat.le_of_lt piece.size_lt) hle, hlt⟩
  code_last := nofun
  code_current c hc := by
    rw [← piece.keeps current hcurrent] at hc
    exact chain.code_current c hc

section Connected

variable {statements : List Node} (piece : Piece g g₁ span completes)
  (chain : Chain (g₁.connect current span.start) g' span.stop last completes passes)

include piece chain

/-- A chain behind a piece stops in the piece or after it. -/
theorem le_last_of_chain : g.size ≤ last := by
  rcases chain.last_mem with rfl | ⟨hle, -⟩
  · exact piece.le_stop
  · exact Nat.le_trans (Nat.le_of_lt piece.size_lt) (by simpa using hle)

/-- The block before a connected piece goes on with the piece. -/
theorem code_current_of_chain (hcurrent : current < g.size)
    (hcode : g.code current = some ⟨.base, statements, []⟩) :
    g'.code current = some ⟨.base, statements, [span.start]⟩ := by
  have hlt : current < (g₁.connect current span.start).size := by
    simpa using Nat.lt_trans hcurrent piece.size_lt
  have hstop : current ≠ span.stop := Nat.ne_of_lt (Nat.lt_of_lt_of_le hcurrent piece.le_stop)
  rw [chain.keeps current hlt fun _ => hstop, Graph.code_connect_self, piece.keeps _ hcurrent,
    hcode]
  rfl

/-- A piece that is connected to the block before it, with a chain that goes on from it. -/
theorem chain_connected (hcurrent : current < g.size)
    (hcode : g.code current = some ⟨.base, statements, []⟩) :
    Chain g g' current last true passes where
  keeps := by
    intro i hi hne
    have hstop : i ≠ span.stop := Nat.ne_of_lt (Nat.lt_of_lt_of_le hi piece.le_stop)
    rw [chain.keeps i (by simpa using Nat.lt_trans hi piece.size_lt) fun _ => hstop,
      g₁.code_connect_of_ne _ (hne rfl), piece.keeps i hi]
  size_le := Nat.le_trans (Nat.le_of_lt piece.size_lt) (by simpa using chain.size_le)
  last_mem := by
    refine .inr ⟨piece.le_last_of_chain chain, ?_⟩
    rcases chain.last_mem with rfl | ⟨-, hlt⟩
    · exact Nat.lt_of_lt_of_le piece.stop_lt (by simpa using chain.size_le)
    · exact hlt
  code_last := chain.code_last
  code_current := by
    intro c hc
    obtain rfl := Option.some.inj (hc.symm.trans hcode)
    exact ⟨_, piece.code_current_of_chain chain hcurrent hcode⟩

end Connected

end Piece

namespace Node

variable {scope : Scope} {g g' : Graph} {span : Span}

theorem layOut_branch {cond onTrue : Node} {onFalse : Option Node}
    (h : (branch cond onTrue onFalse).layOut scope g = (g', span)) :
    ∃ g₁ yes g₂ no, onTrue.layOut scope (g.addTest cond) = (g₁, yes) ∧
      layOutOptional scope g₁ onFalse = (g₂, no) ∧ span = ⟨g.size, g₂.size⟩ ∧
      g' = g₂.addJoin (g.size + 1) yes no onTrue.completes (completesOptional onFalse) := by
  rw [layOut] at h
  obtain ⟨rfl, rfl⟩ := Prod.mk.inj h
  exact ⟨_, _, _, _, rfl, rfl, rfl, rfl⟩

theorem layOut_function {decl body : Node}
    (h : (function decl body).layOut scope g = (g', span)) :
    ∃ g₁ inner, body.layOut scope (g.addHeader decl) = (g₁, inner) ∧
      span = ⟨g.size, inner.stop⟩ ∧ g' = g₁.closeFunction g.size inner := by
  rw [layOut] at h
  obtain ⟨rfl, rfl⟩ := Prod.mk.inj h
  exact ⟨_, _, rfl, rfl, rfl⟩

theorem layOut_compound {items : List Node}
    (h : (compound items).layOut scope g = (g', span)) :
    ∃ last, layOutItems scope (g.addBlock .base) g.size true items = (g', last) ∧
      span = ⟨g.size, last⟩ := by
  rw [layOut] at h
  obtain ⟨rfl, rfl⟩ := Prod.mk.inj h
  exact ⟨_, rfl, rfl⟩

theorem layOutItems_cons {item : Node} {rest : List Node} {current last : BlockId}
    {running : Bool} (h : layOutItems scope g current running (item :: rest) = (g', last)) :
    ∃ g₁ span, item.layOut scope g = (g₁, span) ∧
      (if running then
        layOutItems scope (g₁.connect current span.start) span.stop item.completes rest
      else layOutItems scope g₁ current false rest) = (g', last) := by
  rw [layOutItems] at h
  exact ⟨_, _, rfl, h⟩

theorem layOut_whileLoop {cond body : Node}
    (h : (whileLoop cond body).layOut scope g = (g', span)) :
    ∃ g₁ inner, body.layOut (scope.enterLoop (g.size + 1) (g.size + 2)) (g.addWhile cond) =
        (g₁, inner) ∧ span = ⟨g.size, g.size + 2⟩ ∧
      g' = g₁.closeWhile (g.size + 1) (g.size + 2) inner body.completes := by
  rw [layOut] at h
  obtain ⟨rfl, rfl⟩ := Prod.mk.inj h
  exact ⟨_, _, rfl, rfl, rfl⟩

theorem layOut_forLoop {init : ForInit} {cond step : Option Node} {body : Node}
    (h : (forLoop init cond step body).layOut scope g = (g', span)) :
    ∃ g₁ inner, body.layOut (scope.enterLoop (g.size + 2) (g.size + 3))
        (g.addFor init.statements (cond.getD (int 1)) step.toList) = (g₁, inner) ∧
      span = ⟨g.size, g.size + 3⟩ ∧
      g' = g₁.closeFor g.size (g.size + 1) (g.size + 2) (g.size + 3) inner body.completes := by
  rw [layOut] at h
  obtain ⟨rfl, rfl⟩ := Prod.mk.inj h
  exact ⟨_, _, rfl, rfl, rfl⟩

/-- What has to be shown of ways to lay out something, each of which control passes or does not, so
that `P` holds of the layout of every node and `Items` of all items of compound statements. -/
structure LayOutCases (P : (Scope → Graph → Graph × Span) → Bool → Prop)
    (Items : List Node → Prop) : Prop where
  single : ∀ node final passes, P (fun _ g => g.addSingle node final) passes
  jump : ∀ kind, P (fun scope g => g.addJump (scope.target? kind)) false
  absent : P (fun _ g => (g.addBlock .base, ⟨g.size, g.size⟩)) true
  function : ∀ {decl body}, P body.layOut body.completes →
    P (function decl body).layOut (function decl body).completes
  branch : ∀ {cond onTrue onFalse}, P onTrue.layOut onTrue.completes →
    P (fun scope g => layOutOptional scope g onFalse) (completesOptional onFalse) →
      P (branch cond onTrue onFalse).layOut (branch cond onTrue onFalse).completes
  whileLoop : ∀ {cond body}, P body.layOut body.completes →
    P (whileLoop cond body).layOut (whileLoop cond body).completes
  forLoop : ∀ {init cond step body}, P body.layOut body.completes →
    P (forLoop init cond step body).layOut (forLoop init cond step body).completes
  nil : Items []
  cons : ∀ {item rest}, P item.layOut item.completes → Items rest → Items (item :: rest)
  compound : ∀ {items}, Items items → P (compound items).layOut (compound items).completes

namespace LayOutCases

variable {P : (Scope → Graph → Graph × Span) → Bool → Prop} {Items : List Node → Prop}

private theorem of_eq {layOut layOut' : Scope → Graph → Graph × Span} {passes passes' : Bool}
    (h : P layOut' passes') (hlayOut : ∀ scope g, layOut scope g = layOut' scope g)
    (hpasses : passes = passes') : P layOut passes := by
  have heq : layOut = layOut' := by
    funext scope g
    exact hlayOut scope g
  rwa [heq, hpasses]

private theorem of_addSingle (h : LayOutCases P Items) {node : Node}
    (hlayOut : ∀ scope g, node.layOut scope g = g.addSingle node false)
    (hcompletes : node.completes = true) : P node.layOut node.completes :=
  of_eq (h.single node false true) hlayOut hcompletes

mutual

theorem layOut (h : LayOutCases P Items) : ∀ node : Node, P node.layOut node.completes
  | .function _ body => h.function (h.layOut body)
  | .compound items => h.compound (h.layOutItems items)
  | .branch _ onTrue onFalse => h.branch (h.layOut onTrue) (h.layOutOptional onFalse)
  | .whileLoop _ body => h.whileLoop (h.layOut body)
  | .forLoop _ _ _ body => h.forLoop (h.layOut body)
  | .ret value =>
    of_eq (h.single (.ret value) true false) (fun _ _ => by rw [Node.layOut]) (by rw [completes])
  | .jump kind => of_eq (h.jump kind) (fun _ _ => by rw [Node.layOut]) (by rw [completes])
  | .declarator .. | .parameters .. | .declaration .. | .binary .. | .unary .. | .assignment ..
  | .ident .. | .constant .. | .call .. =>
    h.of_addSingle (fun _ _ => by simp only [Node.layOut]) (by simp only [completes])

theorem layOutItems (h : LayOutCases P Items) : ∀ items : List Node, Items items
  | [] => h.nil
  | item :: rest => h.cons (h.layOut item) (h.layOutItems rest)

theorem layOutOptional (h : LayOutCases P Items) : ∀ node : Option Node,
    P (fun scope g => Node.layOutOptional scope g node) (completesOptional node)
  | none => of_eq h.absent (fun _ _ => by rw [Node.layOutOptional]) (by rw [completesOptional])
  | some node =>
    of_eq (h.layOut node) (fun _ _ => by rw [Node.layOutOptional]) (by rw [completesOptional])

end

end LayOutCases

end Node

end FlowGraph
