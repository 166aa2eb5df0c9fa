import FlowGraph.Construction.Build
import FlowGraph.Proofs.Construction.Faithfulness
import FlowGraph.Proofs.Simplification.Runs

/-!
# Graphs that are built are well-formed

A layout starts with no blocks and only adds blocks and edges, each edge at both of its ends. The
piece of a node starts with the first block that is added for it, and no edge leads there from
inside the piece; so no edge leads to the entry of a graph that is built. Simplification keeps all
of this.

## Main definitions

* `Graph.entries`: the predecessor entries of a block
* `Graph.Pristine`: a graph that only ever grew
* `Extends`: a graph with more blocks and edges
* `Graph.WellFormed`: what construction makes sure of

## Main results

* `Node.adds_layOut`: layout only adds blocks and edges
* `Node.wellFormed_of_build`: the graphs that are built
-/

namespace FlowGraph

namespace Graph

variable {g g' : Graph} {i source target cond onTrue onFalse : BlockId} {b : Block}

/-- The predecessor entries of a block, none for an id out of range. -/
def entries (g : Graph) (block : BlockId) : List BlockId :=
  (g.block? block).elim [] (·.predecessors)

theorem entries_of_size_le (h : g.size ≤ i) : g.entries i = [] := by
  have hnone : ¬(g.block? i).isSome = true := by
    rw [block?_isSome_iff]
    exact Nat.not_lt.2 h
  rw [entries, Option.not_isSome_iff_eq_none.1 hnone, Option.elim_none]

@[simp] theorem entries_addBlock (g : Graph) (kind : BlockKind) (i : BlockId) :
    (g.addBlock kind).entries i = g.entries i := by
  by_cases hi : i = g.size
  · rw [entries, block?_addBlock, if_pos hi, Option.elim_some,
      entries_of_size_le (Nat.le_of_eq hi.symm)]
  · rw [entries, block?_addBlock, if_neg hi, entries]

theorem entries_modify (g : Graph) (block i : BlockId) {f : Block → Block}
    (hf : ∀ b, (f b).predecessors = b.predecessors) :
    (g.modify block f).entries i = g.entries i := by
  rw [entries, entries, block?_modify]
  split <;> cases g.block? i <;> simp [hf]

theorem entries_modify_of_ne (g : Graph) {block i : BlockId} (f : Block → Block) (h : block ≠ i) :
    (g.modify block f).entries i = g.entries i := by
  rw [entries, entries, block?_modify, if_neg h]

theorem entries_connect_of_ne (g : Graph) {source target i : BlockId} (h : target ≠ i) :
    (g.connect source target).entries i = g.entries i := by
  have hsource : (g.connect source target).entries i =
      (g.modify target (·.addPredecessor source)).entries i := entries_modify _ _ _ fun _ => rfl
  rw [hsource, entries_modify_of_ne _ _ h]

theorem entries_connectBranches_of_ne (g : Graph) {cond onTrue onFalse i : BlockId}
    (htrue : onTrue ≠ i) (hfalse : onFalse ≠ i) :
    (g.connectBranches cond onTrue onFalse).entries i = g.entries i := by
  rw [connectBranches, entries_modify_of_ne _ _ hfalse, entries_modify_of_ne _ _ htrue]
  exact entries_modify _ _ _ fun _ => rfl

/-- A graph that only ever grew: every block carries its id, edges are mirrored, no block is
detached, and there are no phi nodes. -/
structure Pristine (g : Graph) : Prop where
  consistent : g.Consistent
  live : ∀ {i b}, g.block? i = some b → b.isDetached = false
  phis : ∀ {i b}, g.block? i = some b → b.phis = []

namespace Pristine

theorem exists_live (hg : g.Pristine) (hi : i < g.size) : ∃ b, g.Live i b := by
  obtain ⟨b, hb⟩ := Option.isSome_iff_exists.1 (block?_isSome_iff.2 hi)
  exact ⟨b, hb, hg.live hb⟩

theorem addBlock (hg : g.Pristine) (kind : BlockKind) : (g.addBlock kind).Pristine where
  consistent := ⟨hg.consistent.numbered.addBlock, hg.consistent.mirrored.addBlock⟩
  live := by
    intro i b hb
    rw [block?_addBlock] at hb
    split at hb
    · rw [← Option.some.inj hb]
    · exact hg.live hb
  phis := by
    intro i b hb
    rw [block?_addBlock] at hb
    split at hb
    · rw [← Option.some.inj hb]
    · exact hg.phis hb

/-- A change of all blocks that keeps edges mirrored and touches neither ids nor phi nodes. -/
theorem mapBlocks (hg : g.Pristine) {f : BlockId → Block → Block} (hid : ∀ i b, (f i b).id = b.id)
    (hdetached : ∀ i b, (f i b).isDetached = b.isDetached) (hphis : ∀ i b, (f i b).phis = b.phis)
    (hmirrored : (g.mapBlocks f).Mirrored) : (g.mapBlocks f).Pristine where
  consistent := ⟨hg.consistent.numbered.mapBlocks hid, hmirrored⟩
  live := by
    intro i c hc
    rw [block?_mapBlocks, Option.map_eq_some_iff] at hc
    obtain ⟨b, hb, rfl⟩ := hc
    rw [hdetached]
    exact hg.live hb
  phis := by
    intro i c hc
    rw [block?_mapBlocks, Option.map_eq_some_iff] at hc
    obtain ⟨b, hb, rfl⟩ := hc
    rw [hphis]
    exact hg.phis hb

theorem connect (hg : g.Pristine) (hsource : source < g.size) (htarget : target < g.size) :
    (g.connect source target).Pristine := by
  obtain ⟨b, hb⟩ := hg.exists_live hsource
  obtain ⟨c, hc⟩ := hg.exists_live htarget
  have hmirrored := hg.consistent.mirrored.connect hb hc
  rw [connect_eq_mapBlocks] at hmirrored ⊢
  refine hg.mapBlocks (fun i b => ?_) (fun i b => ?_) (fun i b => ?_) hmirrored <;>
    dsimp only <;> split_ifs <;> rfl

theorem connectBranches (hg : g.Pristine) {code : Code} (hcond : g.code cond = some code)
    (hnone : code.successors = []) (htrue : onTrue < g.size) (hfalse : onFalse < g.size) :
    (g.connectBranches cond onTrue onFalse).Pristine := by
  obtain ⟨b, hb, rfl⟩ := Option.map_eq_some_iff.1 hcond
  have hmirrored := hg.consistent.mirrored.connectBranches ⟨hb, hg.live hb⟩ hnone
    (hg.exists_live htrue) (hg.exists_live hfalse)
  rw [connectBranches_eq_mapBlocks] at hmirrored ⊢
  refine hg.mapBlocks (fun i b => ?_) (fun i b => ?_) (fun i b => ?_) hmirrored <;>
    dsimp only <;> split_ifs <;> rfl

/-- A change of a block that leaves its edges alone. -/
theorem modify (hg : g.Pristine) (block : BlockId) {f : Block → Block} (hid : ∀ b, (f b).id = b.id)
    (hdetached : ∀ b, (f b).isDetached = b.isDetached) (hphis : ∀ b, (f b).phis = b.phis)
    (hsuccessors : ∀ b, (f b).successors = b.successors)
    (hpredecessors : ∀ b, (f b).predecessors = b.predecessors) : (g.modify block f).Pristine := by
  rw [modify_eq_mapBlocks]
  refine hg.mapBlocks (fun i b => ?_) (fun i b => ?_) (fun i b => ?_)
    (hg.consistent.mirrored.mapBlocks_append (fun _ => []) (fun _ => []) (fun i b => ?_)
      (fun {i b} _ => ?_) (fun {i b} _ => ?_) nofun nofun fun _ _ => rfl) <;>
    split <;> simp [hid, hdetached, hphis, hsuccessors, hpredecessors]

end Pristine

end Graph

/-- `g'` is `g` with more blocks and edges. Of the blocks that `entered` does not name, none has got
a predecessor. -/
structure Extends (entered : BlockId → Prop) (g g' : Graph) : Prop where
  size_le : g.size ≤ g'.size
  pristine : g.Pristine → g'.Pristine
  entries : ∀ i, ¬entered i → g'.entries i = g.entries i

namespace Extends

variable {g g₁ g₂ : Graph} {E E' : BlockId → Prop} {source target cond onTrue onFalse : BlockId}

theorem trans (h : Extends E g g₁) (h' : Extends E' g₁ g₂) (hE : ∀ i, E' i → E i) :
    Extends E g g₂ where
  size_le := Nat.le_trans h.size_le h'.size_le
  pristine := fun hg => h'.pristine (h.pristine hg)
  entries := fun i hi => (h'.entries i fun hi' => hi (hE i hi')).trans (h.entries i hi)

theorem mono (h : Extends E' g g₁) (hE : ∀ i, E' i → E i) : Extends E g g₁ :=
  ⟨h.size_le, h.pristine, fun i hi => h.entries i fun hi' => hi (hE i hi')⟩

theorem addBlock (h : Extends E g g₁) (kind : BlockKind) : Extends E g (g₁.addBlock kind) where
  size_le := Nat.le_trans h.size_le (by simp)
  pristine := fun hg => (h.pristine hg).addBlock kind
  entries := fun i hi => by rw [Graph.entries_addBlock, h.entries i hi]

theorem addStatementBlock (h : Extends E g g₁) (kind : BlockKind) (statements : List Node) :
    Extends E g (g₁.addStatementBlock kind statements) where
  size_le := Nat.le_trans h.size_le (by simp)
  pristine := fun hg => ((h.pristine hg).addBlock kind).modify _ (fun _ => rfl) (fun _ => rfl)
    (fun _ => rfl) (fun _ => rfl) fun _ => rfl
  entries := fun i hi => by
    rw [← h.entries i hi, ← g₁.entries_addBlock kind]
    exact Graph.entries_modify _ _ _ fun _ => rfl

theorem addHeader (h : Extends E g g₁) (declarator : Node) :
    Extends E g (g₁.addHeader declarator) where
  size_le := Nat.le_trans h.size_le (by simp)
  pristine := fun hg => ((h.addStatementBlock .base declarator.functionParams).pristine hg).modify _
    (fun _ => rfl) (fun _ => rfl) (fun _ => rfl) (fun _ => rfl) fun _ => rfl
  entries := fun i hi => by
    rw [← (h.addStatementBlock .base declarator.functionParams).entries i hi]
    exact Graph.entries_modify _ _ _ fun _ => rfl

theorem markFinalIf (h : Extends E g g₁) (final : Bool) (block : BlockId) :
    Extends E g (g₁.markFinalIf final block) := by
  unfold Graph.markFinalIf
  split
  · refine ⟨Nat.le_trans h.size_le (by simp), fun hg => ?_, fun i hi => ?_⟩
    · exact (h.pristine hg).modify _ (fun _ => rfl) (fun _ => rfl) (fun _ => rfl) (fun _ => rfl)
        fun _ => rfl
    · rw [← h.entries i hi]
      exact Graph.entries_modify _ _ _ fun _ => rfl
  · exact h

theorem connect (h : Extends E g g₁) (hsource : g₁.size > source) (htarget : g₁.size > target)
    (hE : E target) : Extends E g (g₁.connect source target) where
  size_le := Nat.le_trans h.size_le (by simp)
  pristine := fun hg => (h.pristine hg).connect hsource htarget
  entries := fun i hi => by
    have hne : target ≠ i := by
      rintro rfl
      exact hi hE
    rw [g₁.entries_connect_of_ne hne, h.entries i hi]

theorem connectIf (h : Extends E g g₁) {connected : Bool} (hsource : g₁.size > source)
    (htarget : g₁.size > target) (hE : E target) :
    Extends E g (g₁.connectIf connected source target) := by
  unfold Graph.connectIf
  split
  · exact h.connect hsource htarget hE
  · exact h

theorem connectBranches (h : Extends E g g₁) {code : Code} (hcond : g₁.code cond = some code)
    (hnone : code.successors = []) (htrue : g₁.size > onTrue) (hfalse : g₁.size > onFalse)
    (hEtrue : E onTrue) (hEfalse : E onFalse) :
    Extends E g (g₁.connectBranches cond onTrue onFalse) where
  size_le := Nat.le_trans h.size_le (by simp)
  pristine := fun hg => (h.pristine hg).connectBranches hcond hnone htrue hfalse
  entries := fun i hi => by
    have htrue : onTrue ≠ i := by
      rintro rfl
      exact hi hEtrue
    have hfalse : onFalse ≠ i := by
      rintro rfl
      exact hi hEfalse
    rw [g₁.entries_connectBranches_of_ne htrue hfalse, h.entries i hi]

theorem refl (E : BlockId → Prop) (g : Graph) : Extends E g g :=
  ⟨Nat.le_refl _, id, fun _ _ => rfl⟩

end Extends

namespace Scope

/-- All jumps lead to blocks below a bound. -/
def Below (scope : Scope) (bound : Nat) : Prop :=
  ∀ kind target, scope.target? kind = some target → bound > target

/-- A jump target, or a block that comes after the block `first`. -/
def Enters (scope : Scope) (first : Nat) (i : BlockId) : Prop :=
  (∃ kind, scope.target? kind = some i) ∨ first < i

variable {scope : Scope} {bound bound' first first' : Nat}

theorem Below.mono (h : scope.Below bound) (hle : bound ≤ bound') : scope.Below bound' :=
  fun kind target htarget => Nat.lt_of_lt_of_le (h kind target htarget) hle

theorem Enters.mono {i : BlockId} (h : scope.Enters first i) (hle : first' ≤ first) :
    scope.Enters first' i :=
  h.imp_right (Nat.lt_of_le_of_lt hle)

theorem below_enterLoop {onContinue onBreak : BlockId} (hcontinue : bound > onContinue)
    (hbreak : bound > onBreak) : (scope.enterLoop onContinue onBreak).Below bound := by
  rintro (_ | _) target htarget <;> cases htarget
  · exact hbreak
  · exact hcontinue

/-- Inside of a loop that comes after a block, jumps lead to blocks after it. -/
theorem Enters.of_enterLoop {onContinue onBreak i : BlockId}
    (h : (scope.enterLoop onContinue onBreak).Enters first i) (hcontinue : first' < onContinue)
    (hbreak : first' < onBreak) (hle : first' ≤ first) : scope.Enters first' i := by
  rcases h with ⟨_ | _, htarget⟩ | hi
  · cases htarget
    exact .inr hbreak
  · cases htarget
    exact .inr hcontinue
  · exact .inr (Nat.lt_of_le_of_lt hle hi)

end Scope

namespace Node

variable {scope : Scope} {g g' : Graph} {span : Span}

theorem piece_layOut {node : Node} (h : node.layOut scope g = (g', span)) :
    Piece g g' span node.completes :=
  (isFaithful node h).1

theorem piece_layOutOptional {node : Option Node} (h : layOutOptional scope g node = (g', span)) :
    Piece g g' span (completesOptional node) := by
  cases node with
  | none =>
    rw [layOutOptional] at h
    obtain ⟨rfl, rfl⟩ := Prod.mk.inj h
    rw [completesOptional]
    exact g.piece_addBlock
  | some node =>
    rw [layOutOptional] at h
    rw [completesOptional]
    exact piece_layOut h

theorem chain_layOutItems {items : List Node} {current last : BlockId} {running : Bool}
    (h : layOutItems scope g current running items = (g', last)) (hcurrent : g.size > current)
    (hopen : running = true → ∃ statements, g.code current = some ⟨.base, statements, []⟩) :
    Chain g g' current last running (running && completesAll items) :=
  (faithfulItems items h hcurrent hopen).1

/-- A way to lay out something that starts with the first block it adds, and only adds blocks and
edges. It enters jump targets and blocks that it adds, other than its first one. -/
def Adds (layOut : Scope → Graph → Graph × Span) : Prop :=
  ∀ {scope g g' span}, layOut scope g = (g', span) → scope.Below g.size →
    g.size = span.start ∧ Extends (scope.Enters g.size) g g'

theorem adds_addSingle (node : Node) (final : Bool) : Adds fun _ g => g.addSingle node final := by
  rintro scope g g' span h -
  obtain ⟨rfl, rfl⟩ := Prod.mk.inj h
  exact ⟨rfl, ((Extends.refl _ g).addStatementBlock _ _).markFinalIf _ _⟩

theorem adds_addJump (kind : Jump) : Adds fun scope g => g.addJump (scope.target? kind) := by
  intro scope g g' span h hbelow
  obtain ⟨rfl, rfl⟩ := Prod.mk.inj h
  refine ⟨rfl, ?_⟩
  have hjump : Extends (scope.Enters g.size) g ((g.addBlock .base).markFinalIf true g.size) :=
    ((Extends.refl _ g).addBlock _).markFinalIf _ _
  cases htarget : scope.target? kind with
  | none => exact hjump
  | some target =>
    have hlt := hbelow kind target htarget
    have hsize : ((g.addBlock .base).markFinalIf true g.size).size = g.size + 1 := by simp
    exact hjump.connect (by rw [hsize]; exact Nat.lt_succ_self _)
      (by rw [hsize]; exact Nat.lt_succ_of_lt hlt) (.inl ⟨kind, htarget⟩)

theorem adds_absent : Adds fun _ g => (g.addBlock .base, ⟨g.size, g.size⟩) := by
  rintro scope g g' span h -
  obtain ⟨rfl, rfl⟩ := Prod.mk.inj h
  exact ⟨rfl, (Extends.refl _ g).addBlock _⟩

theorem adds_function {decl body : Node} (hbody : Adds body.layOut) :
    Adds (function decl body).layOut := by
  intro scope g g' span h hbelow
  obtain ⟨g₁, inner, hg₁, rfl, rfl⟩ := layOut_function h
  have hpiece := piece_layOut hg₁
  have hsize : (g.addHeader decl).size = g.size + 1 := by simp
  obtain ⟨hstart, hinner⟩ := hbody hg₁ (hbelow.mono (by simp))
  have hheader : Extends (scope.Enters g.size) g (g.addHeader decl) :=
    (Extends.refl _ g).addHeader _
  refine ⟨rfl, (hheader.trans hinner fun i hi => hi.mono (by simp)).connect ?_ hpiece.start_lt ?_⟩
  · exact Nat.lt_of_lt_of_le (by simp) hinner.size_le
  · exact .inr (by omega)

/-- A conditional enters its test, the starts of its branches and the block where they join. -/
theorem adds_branch {cond onTrue : Node} {onFalse : Option Node} (hyes : Adds onTrue.layOut)
    (hno : Adds fun scope g => layOutOptional scope g onFalse) :
    Adds (branch cond onTrue onFalse).layOut := by
  intro scope g g' span h hbelow
  obtain ⟨g₁, yes, g₂, no, hg₁, hg₂, rfl, rfl⟩ := layOut_branch h
  have hpieceYes := piece_layOut hg₁
  have hpieceNo := piece_layOutOptional hg₂
  have hsize : (g.addTest cond).size = g.size + 2 := by simp
  obtain ⟨hstartYes, hextendsYes⟩ := hyes hg₁ (hbelow.mono (by simp))
  have hle₁ := hextendsYes.size_le
  rw [hsize] at hle₁
  obtain ⟨hstartNo, hextendsNo⟩ := hno hg₂ (hbelow.mono (by omega))
  have hle₂ := hextendsNo.size_le
  refine ⟨rfl, ?_⟩
  have htest : Extends (scope.Enters g.size) g (g.addTest cond) :=
    (((Extends.refl _ g).addBlock _).addStatementBlock _ _).connect
      (by rw [Graph.size_addStatementBlock, Graph.size_addBlock]; omega) (by simp)
      (.inr (Nat.lt_succ_self _))
  have hbranches := (htest.trans hextendsYes fun i hi => hi.mono (by omega)).trans hextendsNo
    fun i hi => hi.mono (by omega)
  -- The test has no successors until both branches are there.
  have hcode : (g₂.addBlock .base).code (g.size + 1) = some ⟨.condition, [cond], []⟩ := by
    rw [g₂.code_addBlock_of_lt _ (by omega), hpieceNo.keeps _ (by omega),
      hpieceYes.keeps _ (by omega), Graph.code_addTest]
    simp
  have hyesStart : g₁.size > yes.start := hpieceYes.start_lt
  have hyesStop : g₁.size > yes.stop := hpieceYes.stop_lt
  have hnoStart : g₂.size > no.start := hpieceNo.start_lt
  have hnoStop : g₂.size > no.stop := hpieceNo.stop_lt
  have hjoined : Extends (scope.Enters g.size) g
      ((g₂.addBlock .base).connectBranches (g.size + 1) yes.start no.start) :=
    (hbranches.addBlock .base).connectBranches hcode rfl (by rw [Graph.size_addBlock]; omega)
      (by rw [Graph.size_addBlock]; omega) (.inr (by omega)) (.inr (by omega))
  have hsize' : ((g₂.addBlock .base).connectBranches (g.size + 1) yes.start no.start).size =
      g₂.size + 1 := by simp
  exact ((hjoined.connectIf (by rw [hsize']; omega) (by simp) (.inr (by omega))).connectIf
    (by rw [Graph.size_connectIf, hsize']; omega) (by simp) (.inr (by omega))).markFinalIf _ _

theorem adds_whileLoop {cond body : Node} (hbody : Adds body.layOut) :
    Adds (whileLoop cond body).layOut := by
  intro scope g g' span h hbelow
  obtain ⟨g₁, inner, hg₁, rfl, rfl⟩ := layOut_whileLoop h
  have hpiece := piece_layOut hg₁
  have hsize : (g.addWhile cond).size = g.size + 3 := by simp
  obtain ⟨hstart, hinner⟩ := hbody hg₁
    (Scope.below_enterLoop (by omega) (by omega))
  have hle := hinner.size_le
  have hfirst : Extends (scope.Enters g.size) g (g.addWhile cond) :=
    ((((Extends.refl _ g).addBlock _).addStatementBlock _ _).addBlock _).connect
      (by rw [Graph.size_addBlock, Graph.size_addStatementBlock, Graph.size_addBlock]; omega)
      (by simp) (.inr (Nat.lt_succ_self _))
  have hcode : g₁.code (g.size + 1) = some ⟨.condition, [cond], []⟩ := by
    rw [hpiece.keeps _ (by omega), Graph.code_addWhile]
    simp
  have hstartLt : g₁.size > inner.start := hpiece.start_lt
  have hstopLt : g₁.size > inner.stop := hpiece.stop_lt
  have hinside := hfirst.trans hinner fun i hi =>
    hi.of_enterLoop (by omega) (by omega) (by omega)
  refine ⟨rfl, (hinside.connectBranches hcode rfl hstartLt (by omega) (.inr (by omega))
    (.inr (by omega))).connectIf ?_ ?_ (.inr (by omega))⟩
  · rw [Graph.size_connectBranches]
    exact hstopLt
  · rw [Graph.size_connectBranches]
    omega

theorem adds_forLoop {init : ForInit} {cond step : Option Node} {body : Node}
    (hbody : Adds body.layOut) : Adds (forLoop init cond step body).layOut := by
  intro scope g g' span h hbelow
  obtain ⟨g₁, inner, hg₁, rfl, rfl⟩ := layOut_forLoop h
  have hpiece := piece_layOut hg₁
  have hsize : (g.addFor init.statements (cond.getD (int 1)) step.toList).size = g.size + 4 := by
    simp
  obtain ⟨hstart, hinner⟩ := hbody hg₁
    (Scope.below_enterLoop (by omega) (by omega))
  have hle := hinner.size_le
  have hfirst : Extends (scope.Enters g.size) g
      (g.addFor init.statements (cond.getD (int 1)) step.toList) :=
    ((((Extends.refl _ g).addStatementBlock _ _).addStatementBlock _ _).addStatementBlock _
      _).addBlock _
  have hcode : g₁.code (g.size + 1) = some ⟨.condition, [cond.getD (int 1)], []⟩ := by
    rw [hpiece.keeps _ (by omega), Graph.code_addFor]
    simp
  have hstartLt : g₁.size > inner.start := hpiece.start_lt
  have hstopLt : g₁.size > inner.stop := hpiece.stop_lt
  have hinside := hfirst.trans hinner fun i hi =>
    hi.of_enterLoop (by omega) (by omega) (by omega)
  have hentered : Extends (scope.Enters g.size) g (g₁.connect g.size (g.size + 1)) :=
    hinside.connect (by omega) (by omega) (.inr (by omega))
  have hcode' : (g₁.connect g.size (g.size + 1)).code (g.size + 1) =
      some ⟨.condition, [cond.getD (int 1)], []⟩ := by
    rw [g₁.code_connect_of_ne _ (Nat.succ_ne_self _), hcode]
  have htested : Extends (scope.Enters g.size) g
      ((g₁.connect g.size (g.size + 1)).connectBranches (g.size + 1) inner.start (g.size + 3)) :=
    hentered.connectBranches hcode' rfl (by rwa [Graph.size_connect])
      (by rw [Graph.size_connect]; omega) (.inr (by omega)) (.inr (by omega))
  have hclosed : Extends (scope.Enters g.size) g
      (((g₁.connect g.size (g.size + 1)).connectBranches (g.size + 1) inner.start
        (g.size + 3)).connectIf body.completes inner.stop (g.size + 2)) :=
    htested.connectIf (by rwa [Graph.size_connectBranches, Graph.size_connect])
      (by rw [Graph.size_connectBranches, Graph.size_connect]; omega) (.inr (by omega))
  have hsize' : (((g₁.connect g.size (g.size + 1)).connectBranches (g.size + 1) inner.start
      (g.size + 3)).connectIf body.completes inner.stop (g.size + 2)).size = g₁.size := by simp
  exact ⟨rfl, hclosed.connect (by rw [hsize']; omega) (by rw [hsize']; omega) (.inr (by omega))⟩

/-- Items are laid out one after another, and a block is entered only if it is a jump target or
was added for an item. -/
def AddsItems (items : List Node) : Prop :=
  ∀ {scope g g' current last running}, layOutItems scope g current running items = (g', last) →
    scope.Below g.size → current < g.size →
      Extends (fun i => (∃ kind, scope.target? kind = some i) ∨ g.size ≤ i) g g'

theorem addsItems_nil : AddsItems [] := by
  rintro scope g g' current last running h - -
  rw [layOutItems] at h
  obtain ⟨rfl, rfl⟩ := Prod.mk.inj h
  exact .refl _ _

theorem addsItems_cons {item : Node} {rest : List Node} (hitem : Adds item.layOut)
    (hrest : AddsItems rest) : AddsItems (item :: rest) := by
  intro scope g g' current last running h hbelow hcurrent
  obtain ⟨g₁, span, hg₁, h⟩ := layOutItems_cons h
  have hpiece := piece_layOut hg₁
  obtain ⟨hstart, hadds⟩ := hitem hg₁ hbelow
  have hlt := hpiece.size_lt
  have hfirst := hadds.mono (E := fun i => (∃ kind, scope.target? kind = some i) ∨ g.size ≤ i)
    fun i hi => hi.imp_right Nat.le_of_lt
  cases running with
  | false =>
    exact hfirst.trans (hrest h (hbelow.mono (Nat.le_of_lt hlt)) (Nat.lt_trans hcurrent hlt))
      fun i hi => hi.imp_right (Nat.le_trans (Nat.le_of_lt hlt))
  | true =>
    simp only [if_true] at h
    have hconnected := hfirst.connect (Nat.lt_trans hcurrent hlt) hpiece.start_lt
      (.inr (Nat.le_of_eq hstart))
    refine hconnected.trans (hrest h ?_ ?_) fun i hi => hi.imp_right fun hle => ?_
    · rw [Graph.size_connect]
      exact hbelow.mono (Nat.le_of_lt hlt)
    · rw [Graph.size_connect]
      exact hpiece.stop_lt
    · rw [Graph.size_connect] at hle
      exact Nat.le_trans (Nat.le_of_lt hlt) hle

theorem adds_compound {items : List Node} (hitems : AddsItems items) :
    Adds (compound items).layOut := by
  intro scope g g' span h hbelow
  obtain ⟨last, hlast, rfl⟩ := layOut_compound h
  refine ⟨rfl, ((Extends.refl _ g).addBlock .base).trans
    (hitems hlast (hbelow.mono (by simp)) (by simp)) fun i hi => hi.imp_right fun hle => ?_⟩
  rw [Graph.size_addBlock] at hle
  exact hle

private theorem layOutCases_adds : LayOutCases (fun layOut _ => Adds layOut) AddsItems where
  single := fun node final _ => adds_addSingle node final
  jump := adds_addJump
  absent := adds_absent
  function := adds_function
  branch := adds_branch
  whileLoop := adds_whileLoop
  forLoop := adds_forLoop
  nil := addsItems_nil
  cons := addsItems_cons
  compound := adds_compound

/-- Layout only adds blocks and edges. -/
theorem adds_layOut (node : Node) : Adds node.layOut :=
  layOutCases_adds.layOut node

theorem adds_layOutItems (items : List Node) : AddsItems items :=
  layOutCases_adds.layOutItems items

theorem adds_layOutOptional (node : Option Node) :
    Adds fun scope g => layOutOptional scope g node :=
  layOutCases_adds.layOutOptional node

end Node

/-- What construction makes sure of: every block carries its id, edges are mirrored, no edge leads
to the entry, and there are no phi nodes. -/
structure Graph.WellFormed (g : Graph) : Prop where
  consistent : g.Consistent
  rooted : g.Rooted
  phis : ∀ {i b}, g.block? i = some b → b.phis = []

namespace Graph

variable {g g' : Graph}

/-- A step of simplification adds no phi nodes. -/
theorem Rewrites.wellFormed (h : g.Rewrites g') (hg : g.WellFormed) : g'.WellFormed where
  consistent := h.consistent hg.consistent
  rooted := h.rooted hg.consistent.mirrored hg.rooted
  phis := by
    intro i c hc
    cases h with
    | absorb =>
      rw [block?_absorbed, Option.map_eq_some_iff] at hc
      obtain ⟨b, hb, rfl⟩ := hc
      have hphis := hg.phis hb
      unfold absorbedBlock
      split_ifs <;> first | rfl | exact hphis
    | bypass =>
      rw [block?_bypassed, Option.map_eq_some_iff] at hc
      obtain ⟨b, hb, rfl⟩ := hc
      have hphis := hg.phis hb
      unfold bypassedBlock
      split_ifs <;> first | rfl | exact hphis

theorem WellFormed.pruned (hg : g.WellFormed) : g.pruned.WellFormed where
  consistent := ⟨hg.consistent.numbered.pruned,
    hg.consistent.mirrored.pruned hg.consistent.numbered⟩
  rooted := hg.rooted.pruned hg.consistent.numbered
  phis := by
    intro i c hc
    rw [block?_pruned, Option.map_eq_some_iff] at hc
    obtain ⟨b, hb, rfl⟩ := hc
    have hphis := hg.phis hb
    unfold prunedBlock
    split
    · rfl
    · exact hphis

/-- Simplification rewrites what pruning leaves of the graph. -/
theorem WellFormed.rewritesTo_of_run_simplify (hg : g.WellFormed) {report : SimplificationReport}
    (hrun : Edit.simplify.run g = .ok report g') : g.pruned.RewritesTo g' := by
  obtain ⟨b, hb, -⟩ := hg.pruned.rooted
  obtain ⟨report', g'', hrun', hrewrites⟩ := Edit.exists_run_simplify hg.consistent hb.settled
  cases hrun.symm.trans hrun'
  exact hrewrites

/-- Simplification keeps a graph well-formed. -/
theorem WellFormed.of_run_simplify (hg : g.WellFormed) {report : SimplificationReport}
    (hrun : Edit.simplify.run g = .ok report g') : g'.WellFormed :=
  (hg.rewritesTo_of_run_simplify hrun).preserves (fun step => step.wellFormed) hg.pruned

end Graph

namespace Node

theorem below_top : (Scope.top 0).Below (({} : Graph).addBlock .base).size := by
  rintro (_ | _) target htarget <;> cases htarget

theorem pristine_toGraph (node : Node) : node.toGraph.Pristine := by
  rcases hlay : node.layOut (.top 0) (({} : Graph).addBlock .base) with ⟨g, span⟩
  have hempty : ({} : Graph).Pristine :=
    ⟨.empty, fun hb => by simp [Graph.block?] at hb, fun hb => by simp [Graph.block?] at hb⟩
  have hg := (adds_layOut node hlay below_top).2.pristine (hempty.addBlock .base)
  rw [toGraph, hlay]
  exact ⟨⟨hg.consistent.numbered, hg.consistent.mirrored.1, hg.consistent.mirrored.2,
    hg.consistent.mirrored.3⟩, hg.live, hg.phis⟩

theorem wellFormed_toGraph (node : Node) : node.toGraph.WellFormed := by
  have hpristine := pristine_toGraph node
  refine ⟨hpristine.consistent, ?_, hpristine.phis⟩
  rcases hlay : node.layOut (.top 0) (({} : Graph).addBlock .base) with ⟨g, span⟩
  obtain ⟨hstart, hadds⟩ := adds_layOut node hlay below_top
  have hgraph : node.toGraph =
      { g with name := node.functionName?, entry := span.start, exit := span.stop } := by
    rw [toGraph, hlay]
  rw [hgraph] at hpristine ⊢
  obtain ⟨b, hb⟩ := hpristine.exists_live (piece_layOut hlay).start_lt
  -- The entry is the first block of the piece, and nothing in the piece leads there.
  have hnone : g.entries span.start = [] := by
    rw [hadds.entries span.start fun hi => ?_]
    · exact Graph.entries_of_size_le (Nat.le_of_eq hstart)
    · rcases hi with ⟨_ | _, htarget⟩ | hlt
      · cases htarget
      · cases htarget
      · exact Nat.ne_of_lt hlt hstart
  have hentries : g.entries span.start = b.predecessors := by
    rw [Graph.entries, show g.block? span.start = some b from hb.1, Option.elim_some]
  exact ⟨b, hb, hentries.symm.trans hnone⟩

/-- A graph that is built is the graph of the tree or what simplification makes of it. -/
theorem graph_eq_of_build {node : Node} {options : Options} {log log' : Log} {g : Graph}
    (hbuild : (node.build options).run log = .ok g log') :
    (options.simplify = false ∧ g = node.toGraph) ∨
      (options.simplify = true ∧ ∃ report, Edit.simplify.run node.toGraph = .ok report g) := by
  obtain ⟨_, log₁, -, hrest⟩ := ok_of_bind hbuild
  obtain ⟨_, log₂, -, hrest⟩ := ok_of_bind hrest
  cases hsimplify : options.simplify with
  | false =>
    rw [hsimplify] at hrest
    cases hrest
    exact .inl ⟨rfl, rfl⟩
  | true =>
    rw [hsimplify, if_pos rfl] at hrest
    cases hrun : Edit.simplify.run node.toGraph with
    | ok report g' =>
      rw [hrun] at hrest
      cases hrest
      exact .inr ⟨rfl, report, rfl⟩
    | error e g' =>
      rw [hrun] at hrest
      cases hrest

theorem exists_run_simplify_of_build {node : Node} {options : Options} {log log' : Log} {g : Graph}
    (hsimplify : options.simplify = true) (hbuild : (node.build options).run log = .ok g log') :
    ∃ report, Edit.simplify.run node.toGraph = .ok report g := by
  rcases graph_eq_of_build hbuild with ⟨hnot, -⟩ | ⟨-, hrun⟩
  · cases hsimplify.symm.trans hnot
  · exact hrun

/-- The graphs that are built are well-formed, whether or not they are simplified. -/
theorem wellFormed_of_build {node : Node} {options : Options} {log log' : Log} {g : Graph}
    (hbuild : (node.build options).run log = .ok g log') : g.WellFormed := by
  rcases graph_eq_of_build hbuild with ⟨-, rfl⟩ | ⟨-, report, hrun⟩
  · exact wellFormed_toGraph node
  · exact (wellFormed_toGraph node).of_run_simplify hrun

end Node

end FlowGraph
