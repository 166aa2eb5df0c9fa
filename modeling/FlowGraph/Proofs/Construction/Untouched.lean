import FlowGraph.Proofs.Construction.WellFormed

/-!
# What a layout leaves alone

A layout changes no block that was there before, except that blocks which jumps lead to get
predecessor entries for blocks of the layout. So edges between older blocks stay as they are, and
what was said of an older block stays true.

## Main definitions

* `Untouched`: the blocks below a bound are as they were, but for new predecessor entries
* `Node.LeavesAlone`: a way to lay out something that does that to the blocks in front of it

## Main results

* `Node.untouched_layOut`: the layout of a node
-/

namespace FlowGraph

/-- The blocks below `n` have only got predecessor entries for blocks from `n` on. -/
structure Untouched (n : Nat) (g g' : Graph) : Prop where
  size_le : g.size ≤ g'.size
  block : ∀ i b, i < n → g.block? i = some b → ∃ entries, (∀ p ∈ entries, n ≤ p ∧ g'.size > p) ∧
    g'.block? i = some { b with predecessors := b.predecessors ++ entries }

namespace Untouched

variable {n : Nat} {g g' g'' : Graph} {source target cond onTrue onFalse : Nat}

theorem refl (n : Nat) (g : Graph) : Untouched n g g where
  size_le := Nat.le_refl _
  block i b _ hb := ⟨[], nofun, by rw [hb, List.append_nil]⟩

theorem trans (h : Untouched n g g') (h' : Untouched n g' g'') : Untouched n g g'' where
  size_le := Nat.le_trans h.size_le h'.size_le
  block := by
    intro i b hi hb
    obtain ⟨entries, hentries, hb'⟩ := h.block i b hi hb
    obtain ⟨entries', hentries', hb''⟩ := h'.block i _ hi hb'
    refine ⟨entries ++ entries', fun p hp => ?_, ?_⟩
    · rcases List.mem_append.1 hp with hp | hp
      · exact ⟨(hentries p hp).1, Nat.lt_of_lt_of_le (hentries p hp).2 h'.size_le⟩
      · exact hentries' p hp
    · rw [hb'', List.append_assoc]

theorem addBlock (h : Untouched n g g') (kind : BlockKind) : Untouched n g (g'.addBlock kind) := by
  refine h.trans ⟨by simp, fun i b _ hb => ⟨[], nofun, ?_⟩⟩
  have hne : i ≠ g'.size := Nat.ne_of_lt (Graph.block?_isSome_iff.1 (Option.isSome_of_eq_some hb))
  rw [Graph.block?_addBlock, if_neg hne, hb, List.append_nil]

/-- A change of a later block. -/
theorem modify (h : Untouched n g g') {block : Nat} (hblock : n ≤ block) (f : Block → Block) :
    Untouched n g (g'.modify block f) := by
  refine h.trans ⟨by simp, fun i b hi hb => ⟨[], nofun, ?_⟩⟩
  rw [Graph.block?_modify, if_neg (Nat.ne_of_gt (Nat.lt_of_lt_of_le hi hblock)), hb,
    List.append_nil]

/-- An edge from a later block, wherever it leads. -/
theorem connect (h : Untouched n g g') (hsource : n ≤ source) (hlt : g'.size > source)
    (target : Nat) : Untouched n g (g'.connect source target) := by
  have hentered : Untouched n g (g'.modify target (·.addPredecessor source)) := by
    refine h.trans ⟨by simp, fun i b _ hb => ?_⟩
    rw [Graph.block?_modify, hb]
    split
    · exact ⟨[source], by simpa using ⟨hsource, hlt⟩, rfl⟩
    · exact ⟨[], nofun, by rw [List.append_nil]⟩
  exact hentered.modify hsource _

theorem connectIf (h : Untouched n g g') (connected : Bool) (hsource : n ≤ source)
    (hlt : g'.size > source) (target : Nat) :
    Untouched n g (g'.connectIf connected source target) := by
  unfold Graph.connectIf
  split
  · exact h.connect hsource hlt target
  · exact h

theorem connectBranches (h : Untouched n g g') (hcond : n ≤ cond) (htrue : n ≤ onTrue)
    (hfalse : n ≤ onFalse) : Untouched n g (g'.connectBranches cond onTrue onFalse) :=
  ((h.modify hcond _).modify htrue _).modify hfalse _

theorem markFinalIf (h : Untouched n g g') (final : Bool) {block : Nat} (hblock : n ≤ block) :
    Untouched n g (g'.markFinalIf final block) := by
  unfold Graph.markFinalIf
  split
  · exact h.modify hblock _
  · exact h

theorem addStatementBlock (h : Untouched n g g') (hn : n ≤ g.size) (kind : BlockKind)
    (statements : List Node) : Untouched n g (g'.addStatementBlock kind statements) :=
  (h.addBlock kind).modify (Nat.le_trans hn h.size_le) _

theorem addHeader (h : Untouched n g g') (hn : n ≤ g.size) (declarator : Node) :
    Untouched n g (g'.addHeader declarator) :=
  (h.addStatementBlock hn _ _).modify (Nat.le_trans hn h.size_le) _

/-- The code of older blocks is as it was. -/
theorem code_eq (h : Untouched n g g') {i : Nat} (hn : i < n) (hi : i < g.size) :
    g'.code i = g.code i := by
  obtain ⟨b, hb⟩ := Option.isSome_iff_exists.1 (Graph.block?_isSome_iff.2 hi)
  obtain ⟨entries, -, hb'⟩ := h.block i b hn hb
  rw [Graph.code, Graph.code, hb, hb']
  rfl

end Untouched

namespace Node

/-- A way to lay out something that leaves the blocks in front of it alone. -/
def LeavesAlone (layOut : Scope → Graph → Graph × Span) : Prop :=
  ∀ {scope g g' span n}, layOut scope g = (g', span) → n ≤ g.size → Untouched n g g'

/-- Items are laid out behind a block, and the blocks in front of that one are left alone. -/
def LeavesAloneItems (items : List Node) : Prop :=
  ∀ {scope : Scope} {g g' : Graph} {current last : Nat} {running : Bool} {n : Nat},
    layOutItems scope g current running items = (g', last) → n ≤ g.size → n ≤ current →
      g.size > current → Untouched n g g'

theorem leavesAlone_addSingle (node : Node) (final : Bool) :
    LeavesAlone fun _ g => g.addSingle node final := by
  intro scope g g' span n h hn
  obtain ⟨rfl, rfl⟩ := Prod.mk.inj h
  exact ((Untouched.refl n g).addStatementBlock hn _ _).markFinalIf _ hn

theorem leavesAlone_addJump (kind : Jump) :
    LeavesAlone fun scope g => g.addJump (scope.target? kind) := by
  intro scope g g' span n h hn
  obtain ⟨rfl, rfl⟩ := Prod.mk.inj h
  have hjump : Untouched n g ((g.addBlock .base).markFinalIf true g.size) :=
    ((Untouched.refl n g).addBlock .base).markFinalIf true hn
  cases scope.target? kind with
  | none => exact hjump
  | some target => exact hjump.connect hn (by simp) target

theorem leavesAlone_absent : LeavesAlone fun _ g => (g.addBlock .base, ⟨g.size, g.size⟩) := by
  intro scope g g' span n h hn
  obtain ⟨rfl, rfl⟩ := Prod.mk.inj h
  exact (Untouched.refl n g).addBlock .base

theorem leavesAlone_function {decl body : Node} (hbody : LeavesAlone body.layOut) :
    LeavesAlone (function decl body).layOut := by
  intro scope g g' span n h hn
  obtain ⟨g₁, inner, hg₁, rfl, rfl⟩ := layOut_function h
  have hinner := hbody hg₁ (Nat.le_trans hn (by simp))
  have hsize := hinner.size_le
  rw [Graph.size_addHeader] at hsize
  exact (((Untouched.refl n g).addHeader hn decl).trans hinner).connect hn hsize _

theorem leavesAlone_branch {cond onTrue : Node} {onFalse : Option Node}
    (hyes : LeavesAlone onTrue.layOut)
    (hno : LeavesAlone fun scope g => layOutOptional scope g onFalse) :
    LeavesAlone (branch cond onTrue onFalse).layOut := by
  intro scope g g' span n h hn
  obtain ⟨g₁, yes, g₂, no, hg₁, hg₂, rfl, rfl⟩ := layOut_branch h
  have pieceYes := piece_layOut hg₁
  have pieceNo := piece_layOutOptional hg₂
  have hsize := pieceYes.size_lt
  rw [Graph.size_addTest] at hsize
  have htest : Untouched n g (g.addTest cond) :=
    (((Untouched.refl n g).addBlock .base).addStatementBlock hn .condition [cond]).connect hn
      (by rw [Graph.size_addStatementBlock, Graph.size_addBlock]; omega) _
  have hbranches := (htest.trans (hyes hg₁ (by simp; omega))).trans (hno hg₂ (by omega))
  have hyesStart := pieceYes.le_start
  have hyesStop := pieceYes.le_stop
  have hnoStart := pieceNo.le_start
  have hnoStop := pieceNo.le_stop
  have hyesLt : g₁.size > yes.stop := pieceYes.stop_lt
  have hnoLt : g₂.size > no.stop := pieceNo.stop_lt
  have hnoSize := pieceNo.size_lt
  rw [Graph.size_addTest] at hyesStart hyesStop
  exact ((((hbranches.addBlock .base).connectBranches (by omega) (by omega) (by omega)).connectIf _
    (by omega) (by simp; omega) _).connectIf _ (by omega) (by simp; omega) _).markFinalIf _
      (by omega)

theorem leavesAlone_whileLoop {cond body : Node} (hbody : LeavesAlone body.layOut) :
    LeavesAlone (whileLoop cond body).layOut := by
  intro scope g g' span n h hn
  obtain ⟨g₁, inner, hg₁, rfl, rfl⟩ := layOut_whileLoop h
  have piece := piece_layOut hg₁
  have hfront : Untouched n g (g.addWhile cond) :=
    ((((Untouched.refl n g).addBlock .base).addStatementBlock hn .condition [cond]).addBlock
      .base).connect hn (by simp; omega) _
  have hstart := piece.le_start
  have hstop := piece.le_stop
  rw [Graph.size_addWhile] at hstart hstop
  exact ((hfront.trans (hbody hg₁ (by simp; omega))).connectBranches (by omega) (by omega)
    (by omega)).connectIf _ (by omega) (by simpa using piece.stop_lt) _

theorem leavesAlone_forLoop {init : ForInit} {cond step : Option Node} {body : Node}
    (hbody : LeavesAlone body.layOut) : LeavesAlone (forLoop init cond step body).layOut := by
  intro scope g g' span n h hn
  obtain ⟨g₁, inner, hg₁, rfl, rfl⟩ := layOut_forLoop h
  have piece := piece_layOut hg₁
  have hfront : Untouched n g (g.addFor init.statements (cond.getD (int 1)) step.toList) :=
    ((((Untouched.refl n g).addStatementBlock hn _ _).addStatementBlock hn _ _).addStatementBlock
      hn _ _).addBlock .base
  have hstart := piece.le_start
  have hstop := piece.le_stop
  have hsize := piece.size_lt
  rw [Graph.size_addFor] at hstart hstop hsize
  exact ((((hfront.trans (hbody hg₁ (by simp; omega))).connect hn (by omega) _).connectBranches
    (by omega) (by omega) (by omega)).connectIf _ (by omega) (by simpa using piece.stop_lt)
      _).connect (by omega) (by simp; omega) _

theorem leavesAloneItems_nil : LeavesAloneItems [] := by
  intro scope g g' current last running n h _ _ _
  rw [layOutItems] at h
  obtain ⟨rfl, rfl⟩ := Prod.mk.inj h
  exact .refl n g

theorem leavesAloneItems_cons {item : Node} {rest : List Node} (hitem : LeavesAlone item.layOut)
    (hrest : LeavesAloneItems rest) : LeavesAloneItems (item :: rest) := by
  intro scope g g' current last running n h hn hcurrent hlt
  obtain ⟨g₁, span, hg₁, h⟩ := layOutItems_cons h
  have piece := piece_layOut hg₁
  have hle := Nat.le_trans hn (Nat.le_of_lt piece.size_lt)
  have hlt' : g₁.size > current := Nat.lt_trans hlt piece.size_lt
  cases running with
  | false => exact (hitem hg₁ hn).trans (hrest h hle hcurrent hlt')
  | true =>
    simp only [if_true] at h
    exact ((hitem hg₁ hn).connect hcurrent hlt' _).trans (hrest h
      (by rw [Graph.size_connect]; exact hle) (Nat.le_trans hn piece.le_stop)
      (by rw [Graph.size_connect]; exact piece.stop_lt))

theorem leavesAlone_compound {items : List Node} (hitems : LeavesAloneItems items) :
    LeavesAlone (compound items).layOut := by
  intro scope g g' span n h hn
  obtain ⟨last, hlast, rfl⟩ := layOut_compound h
  exact ((Untouched.refl n g).addBlock .base).trans
    (hitems hlast (by simp; omega) hn (by simp))

private theorem layOutCases_leavesAlone :
    LayOutCases (fun layOut _ => LeavesAlone layOut) LeavesAloneItems where
  single := fun node final _ => @leavesAlone_addSingle node final
  jump := leavesAlone_addJump
  absent := @leavesAlone_absent
  function := leavesAlone_function
  branch := leavesAlone_branch
  whileLoop := leavesAlone_whileLoop
  forLoop := leavesAlone_forLoop
  nil := leavesAloneItems_nil
  cons := leavesAloneItems_cons
  compound := leavesAlone_compound

/-- The layout of a node leaves the blocks in front of it alone. -/
theorem untouched_layOut (node : Node) : LeavesAlone node.layOut :=
  layOutCases_leavesAlone.layOut node

/-- The layout of a branch leaves the blocks in front of it alone. -/
theorem untouched_layOutOptional (node : Option Node) :
    LeavesAlone fun scope g => layOutOptional scope g node :=
  layOutCases_leavesAlone.layOutOptional node

/-- Items that control does not come to are not connected to the blocks in front of them. -/
theorem untouched_layOutItems_of_dead {items : List Node} {scope : Scope} {g g' : Graph}
    {current last : BlockId} (h : layOutItems scope g current false items = (g', last))
    (hn : n ≤ g.size) : Untouched n g g' ∧ last = current := by
  induction items generalizing g with
  | nil =>
    rw [layOutItems] at h
    obtain ⟨rfl, rfl⟩ := Prod.mk.inj h
    exact ⟨.refl n g, rfl⟩
  | cons item rest ih =>
    obtain ⟨g₁, span, hg₁, h⟩ := layOutItems_cons h
    have hitem := untouched_layOut item hg₁ hn
    obtain ⟨hrest, hlast⟩ := ih h (Nat.le_trans hn hitem.size_le)
    exact ⟨hitem.trans hrest, hlast⟩

end Node

end FlowGraph
