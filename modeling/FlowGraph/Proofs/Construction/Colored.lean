import FlowGraph.Proofs.Construction.Untouched

/-!
# Colors of a layout

Only the blocks where the branches of a condition start are colored, each of them once: the piece of
a branch, like every piece, starts with a block that is plain until it is connected, and so does
what comes after a loop. Later changes keep the color of a block and the branches of a condition.

## Main definitions

* `BlockColor.ofSlot`: the color of the branch in a slot
* `Graph.Branches`: a block in a slot of a condition
* `Graph.Colored`: exactly the blocks in slots of conditions are colored, each after its slot

## Main results

* `Node.isPlain_start`: the first block of a piece
* `Node.colors_layOut`, `Node.colored_toGraph`: the layout of a node and of a tree
-/

namespace FlowGraph

/-- The color of the block in a slot of a condition. -/
def BlockColor.ofSlot : Nat → BlockColor
  | 0 => onTrue
  | _ + 1 => onFalse

theorem BlockColor.ofSlot_ne_plain (slot : Nat) : ofSlot slot ≠ plain := by
  cases slot <;> exact nofun

namespace Graph

variable {g : Graph} {cond slot i : Nat} {block onTrue onFalse : BlockId} {b : Block}

/-- Block `i` is in a slot of the condition block `cond`. -/
def Branches (g : Graph) (cond slot i : BlockId) : Prop :=
  ∃ b, g.block? cond = some b ∧ b.kind = .condition ∧ b.successors[slot]? = some i

/-- A base block without a color. -/
def IsPlain (g : Graph) (i : BlockId) : Prop :=
  ∃ b, g.block? i = some b ∧ b.kind = .base ∧ b.color = .plain

/-- The blocks that are colored are those in slots of conditions, and the slot tells the color. -/
structure Colored (g : Graph) : Prop where
  entry : ∀ {cond slot i}, g.Branches cond slot i →
    ∃ b, g.block? i = some b ∧ b.kind = .base ∧ b.color = .ofSlot slot
  cond : ∀ {i b}, g.block? i = some b → b.color ≠ .plain → ∃ cond slot, g.Branches cond slot i

theorem branches_iff_code : g.Branches cond slot i ↔
    ∃ c, g.code cond = some c ∧ c.kind = .condition ∧ c.successors[slot]? = some i := by
  simp only [Branches, code, Option.map_eq_some_iff]
  constructor
  · rintro ⟨b, hb, hkind, hslot⟩
    exact ⟨b.code, ⟨b, hb, rfl⟩, hkind, hslot⟩
  · rintro ⟨_, ⟨b, hb, rfl⟩, hkind, hslot⟩
    exact ⟨b, hb, hkind, hslot⟩

namespace IsPlain

theorem lt_size (h : g.IsPlain i) : i < g.size := by
  obtain ⟨b, hb, -⟩ := h
  exact block?_isSome_iff.1 (Option.isSome_of_eq_some hb)

/-- A change that keeps kind and color. -/
theorem modify (h : g.IsPlain i) (block : BlockId) {f : Block → Block}
    (hkind : ∀ b, (f b).kind = b.kind) (hcolor : ∀ b, (f b).color = b.color) :
    (g.modify block f).IsPlain i := by
  obtain ⟨b, hb, hbase, hplain⟩ := h
  rw [IsPlain, block?_modify, hb]
  split
  · exact ⟨f b, rfl, (hkind b).trans hbase, (hcolor b).trans hplain⟩
  · exact ⟨b, rfl, hbase, hplain⟩

theorem modify_of_ne (h : g.IsPlain i) (hne : block ≠ i) (f : Block → Block) :
    (g.modify block f).IsPlain i := by
  rwa [IsPlain, block?_modify, if_neg hne]

theorem addBlock (h : g.IsPlain i) (kind : BlockKind) : (g.addBlock kind).IsPlain i := by
  rwa [IsPlain, block?_addBlock, if_neg (Nat.ne_of_lt h.lt_size)]

theorem addStatementBlock (h : g.IsPlain i) (kind : BlockKind) (statements : List Node) :
    (g.addStatementBlock kind statements).IsPlain i :=
  (h.addBlock kind).modify _ (fun _ => rfl) fun _ => rfl

theorem connect (h : g.IsPlain i) (source target : BlockId) : (g.connect source target).IsPlain i :=
  (h.modify target (f := (·.addPredecessor source)) (fun _ => rfl) fun _ => rfl).modify source
    (fun _ => rfl) fun _ => rfl

theorem connectIf (h : g.IsPlain i) (connected : Bool) (source target : BlockId) :
    (g.connectIf connected source target).IsPlain i := by
  unfold Graph.connectIf
  split
  · exact h.connect source target
  · exact h

theorem markFinalIf (h : g.IsPlain i) (final : Bool) (block : BlockId) :
    (g.markFinalIf final block).IsPlain i := by
  unfold Graph.markFinalIf
  split
  · exact h.modify block (fun _ => rfl) fun _ => rfl
  · exact h

/-- Only the two blocks where the branches start get a color. -/
theorem connectBranches (h : g.IsPlain i) (cond : BlockId) (htrue : onTrue ≠ i)
    (hfalse : onFalse ≠ i) : (g.connectBranches cond onTrue onFalse).IsPlain i :=
  ((h.modify cond (f := fun b => { b with successors := [onTrue, onFalse] }) (fun _ => rfl)
    fun _ => rfl).modify_of_ne htrue _).modify_of_ne hfalse _

end IsPlain

theorem isPlain_addBlock (g : Graph) : (g.addBlock .base).IsPlain g.size :=
  ⟨{ id := g.size, kind := .base }, by rw [block?_addBlock, if_pos rfl], rfl, rfl⟩

theorem isPlain_addStatementBlock (g : Graph) (statements : List Node) :
    (g.addStatementBlock .base statements).IsPlain g.size :=
  g.isPlain_addBlock.modify _ (fun _ => rfl) fun _ => rfl

namespace Colored

/-- A change of a block that keeps its kind and its color, and its branches if it is a
condition. -/
theorem modify (hg : g.Colored) {f : Block → Block} (hkind : ∀ b, (f b).kind = b.kind)
    (hcolor : ∀ b, (f b).color = b.color) (hsuccessors : ∀ b, g.block? block = some b →
      b.kind = .condition → (f b).successors = b.successors) : (g.modify block f).Colored := by
  have hbranches {cond slot i : Nat} :
      (g.modify block f).Branches cond slot i ↔ g.Branches cond slot i := by
    rw [Branches, Branches, block?_modify]
    by_cases hblock : block = cond
    · subst hblock
      cases hb : g.block? block with
      | none => simp
      | some b =>
        simp only [if_true, Option.map_some, Option.some.injEq, exists_eq_left', hkind]
        exact and_congr_right fun hcond => by rw [hsuccessors b hb hcond]
    · rw [if_neg hblock]
  refine ⟨fun h => ?_, fun {i c} hc hcolored => ?_⟩
  · obtain ⟨b, hb, hbase, hslot⟩ := hg.entry (hbranches.1 h)
    rw [block?_modify, hb]
    split
    · exact ⟨f b, rfl, (hkind b).trans hbase, (hcolor b).trans hslot⟩
    · exact ⟨b, rfl, hbase, hslot⟩
  · simp only [hbranches]
    rw [block?_modify] at hc
    split at hc
    · obtain ⟨b, hb, rfl⟩ := Option.map_eq_some_iff.1 hc
      exact hg.cond hb (by rwa [← hcolor])
    · exact hg.cond hc hcolored

theorem addBlock (hg : g.Colored) (kind : BlockKind) : (g.addBlock kind).Colored := by
  have hold {i : Nat} {b : Block} (hb : g.block? i = some b) :
      (g.addBlock kind).block? i = some b := by
    rw [block?_addBlock, if_neg (Nat.ne_of_lt (block?_isSome_iff.1 (Option.isSome_of_eq_some hb))),
      hb]
  refine ⟨fun ⟨b, hb, hkind, hslot⟩ => ?_, fun {i b} hb hcolored => ?_⟩
  · rw [block?_addBlock] at hb
    split at hb
    -- The new block has no branches.
    · obtain rfl := Option.some.inj hb
      cases hslot
    · obtain ⟨c, hc, hentry⟩ := hg.entry ⟨b, hb, hkind, hslot⟩
      exact ⟨c, hold hc, hentry⟩
  · rw [block?_addBlock] at hb
    split at hb
    · obtain rfl := Option.some.inj hb
      exact absurd rfl hcolored
    · obtain ⟨cond, slot, c, hc, hbranches⟩ := hg.cond hb hcolored
      exact ⟨cond, slot, c, hold hc, hbranches⟩

theorem addStatementBlock (hg : g.Colored) (kind : BlockKind) (statements : List Node) :
    (g.addStatementBlock kind statements).Colored :=
  (hg.addBlock kind).modify (fun _ => rfl) (fun _ => rfl) fun _ _ _ => rfl

theorem addHeader (hg : g.Colored) (declarator : Node) : (g.addHeader declarator).Colored :=
  (hg.addStatementBlock .base declarator.functionParams).modify (fun _ => rfl) (fun _ => rfl)
    fun _ _ _ => rfl

theorem markFinalIf (hg : g.Colored) (final : Bool) (block : BlockId) :
    (g.markFinalIf final block).Colored := by
  unfold Graph.markFinalIf
  split
  · exact hg.modify (fun _ => rfl) (fun _ => rfl) fun _ _ _ => rfl
  · exact hg

/-- An edge out of a base block. -/
theorem connect (hg : g.Colored) {source : BlockId} {statements : List Node}
    {successors : List BlockId} (hsource : g.code source = some ⟨.base, statements, successors⟩)
    (target : BlockId) : (g.connect source target).Colored := by
  have hentered : (g.modify target (·.addPredecessor source)).Colored :=
    hg.modify (fun _ => rfl) (fun _ => rfl) fun _ _ _ => rfl
  refine hentered.modify (fun _ => rfl) (fun _ => rfl) fun b hb hcond => ?_
  have hcode := g.code_modify_of_code_eq target source (f := (·.addPredecessor source)) fun _ => rfl
  rw [hsource, code, hb, Option.map_some] at hcode
  cases hcond.symm.trans (congrArg Code.kind (Option.some.inj hcode))

theorem connectIf (hg : g.Colored) {connected : Bool} {source : BlockId}
    (hsource : connected = true → ∃ statements, g.code source = some ⟨.base, statements, []⟩)
    (target : BlockId) :
    (g.connectIf connected source target).Colored := by
  unfold Graph.connectIf
  split
  · rename_i hconnected
    obtain ⟨_, hcode⟩ := hsource hconnected
    exact hg.connect hcode target
  · exact hg

/-- A condition that has had no branches gets two that start with different plain blocks. -/
theorem connectBranches (hg : g.Colored) {statements : List Node}
    (hcond : g.code cond = some ⟨.condition, statements, []⟩) (htrue : g.IsPlain onTrue)
    (hfalse : g.IsPlain onFalse) (hne : onTrue ≠ onFalse) :
    (g.connectBranches cond onTrue onFalse).Colored := by
  have hbranches {c slot i : Nat} : (g.connectBranches cond onTrue onFalse).Branches c slot i ↔
      c = cond ∧ [onTrue, onFalse][slot]? = some i ∨ g.Branches c slot i := by
    simp only [branches_iff_code, code_connectBranches]
    by_cases hc : c = cond
    · subst hc
      simp [hcond]
    · simp [hc]
  have hafter {i : Nat} {b : Block} (hb : g.block? i = some b) :
      ∃ c, (g.connectBranches cond onTrue onFalse).block? i = some c ∧ c.kind = b.kind ∧
        c.color = if onFalse = i then .onFalse else if onTrue = i then .onTrue else b.color := by
    rw [connectBranches_eq_mapBlocks, block?_mapBlocks, hb, Option.map_some]
    refine ⟨_, rfl, ?_, ?_⟩ <;> dsimp only <;> split_ifs <;> rfl
  obtain ⟨t, ht, htbase, htplain⟩ := htrue
  obtain ⟨f, hf, hfbase, hfplain⟩ := hfalse
  refine ⟨fun {c slot i} h => ?_, fun {i c'} hc' hcolored => ?_⟩
  · rcases hbranches.1 h with ⟨-, hslot⟩ | h
    · match slot, hslot with
      | 0, hslot =>
        obtain rfl := Option.some.inj hslot
        obtain ⟨b, hb, hkind, hcolor⟩ := hafter ht
        exact ⟨b, hb, hkind.trans htbase, by rw [hcolor, if_neg hne.symm, if_pos rfl]; rfl⟩
      | 1, hslot =>
        obtain rfl := Option.some.inj hslot
        obtain ⟨b, hb, hkind, hcolor⟩ := hafter hf
        exact ⟨b, hb, hkind.trans hfbase, by rw [hcolor, if_pos rfl]; rfl⟩
    -- What was colored before is neither of the two blocks.
    · obtain ⟨d, hd, hbase, hslot⟩ := hg.entry h
      have hcolored : d.color ≠ .plain := hslot ▸ BlockColor.ofSlot_ne_plain slot
      obtain ⟨b, hb, hkind, hcolor⟩ := hafter hd
      refine ⟨b, hb, hkind.trans hbase, ?_⟩
      rw [hcolor, if_neg, if_neg, hslot]
      · rintro rfl
        exact hcolored (Option.some.inj (ht.symm.trans hd) ▸ htplain)
      · rintro rfl
        exact hcolored (Option.some.inj (hf.symm.trans hd) ▸ hfplain)
  · have hlt := block?_isSome_iff.1 (Option.isSome_of_eq_some hc')
    rw [size_connectBranches, ← block?_isSome_iff] at hlt
    obtain ⟨b, hb⟩ := Option.isSome_iff_exists.1 hlt
    obtain ⟨c, hc, -, hcolor⟩ := hafter hb
    obtain rfl := Option.some.inj (hc.symm.trans hc')
    simp only [hbranches]
    by_cases hfalse : onFalse = i
    · exact ⟨cond, 1, .inl ⟨rfl, by rw [hfalse]; rfl⟩⟩
    · by_cases htrue : onTrue = i
      · exact ⟨cond, 0, .inl ⟨rfl, by rw [htrue]; rfl⟩⟩
      · rw [if_neg hfalse, if_neg htrue] at hcolor
        obtain ⟨c', slot, h⟩ := hg.cond hb (hcolor ▸ hcolored)
        exact ⟨c', slot, .inr h⟩

end Colored

end Graph

theorem Untouched.isPlain {g g' : Graph} {i : BlockId} (h : Untouched g.size g g')
    (hi : g.IsPlain i) : g'.IsPlain i := by
  obtain ⟨b, hb, hbase, hplain⟩ := id hi
  obtain ⟨entries, -, hb'⟩ := h.block i b hi.lt_size hb
  exact ⟨_, hb', hbase, hplain⟩

namespace Node

variable {scope : Scope} {g g' : Graph} {span : Span} {current last i : BlockId}

theorem isPlain_layOut {node : Node} (h : node.layOut scope g = (g', span)) (hi : g.IsPlain i) :
    g'.IsPlain i :=
  (untouched_layOut node h (Nat.le_refl _)).isPlain hi

theorem isPlain_layOutOptional {node : Option Node} (h : layOutOptional scope g node = (g', span))
    (hi : g.IsPlain i) : g'.IsPlain i :=
  (untouched_layOutOptional node h (Nat.le_refl _)).isPlain hi

/-- The block that items are laid out behind stays plain, though it may get an edge. -/
theorem isPlain_layOutItems {items : List Node} {running : Bool}
    (h : layOutItems scope g current running items = (g', last)) (hi : g.IsPlain i) :
    g'.IsPlain i := by
  induction items generalizing g current running with
  | nil =>
    rw [layOutItems] at h
    obtain ⟨rfl, rfl⟩ := Prod.mk.inj h
    exact hi
  | cons item rest ih =>
    obtain ⟨g₁, span, hg₁, h⟩ := layOutItems_cons h
    have hitem := isPlain_layOut hg₁ hi
    cases running with
    | false => exact ih h hitem
    | true => exact ih h (hitem.connect _ _)

theorem isPlain_addHeader (g : Graph) (decl : Node) : (g.addHeader decl).IsPlain g.size :=
  (g.isPlain_addStatementBlock decl.functionParams).modify _ (fun _ => rfl) fun _ => rfl

theorem isPlain_addTest (g : Graph) (cond : Node) : (g.addTest cond).IsPlain g.size :=
  (g.isPlain_addBlock.addStatementBlock .condition [cond]).connect _ _

theorem isPlain_addWhile_first (g : Graph) (cond : Node) : (g.addWhile cond).IsPlain g.size :=
  ((g.isPlain_addBlock.addStatementBlock .condition [cond]).addBlock .base).connect _ _

theorem isPlain_addFor_first (g : Graph) (init : List Node) (cond : Node) (step : List Node) :
    (g.addFor init cond step).IsPlain g.size :=
  (((g.isPlain_addStatementBlock init).addStatementBlock .condition [cond]).addStatementBlock .base
    step).addBlock .base

theorem isPlain_addWhile_after (g : Graph) (cond : Node) :
    (g.addWhile cond).IsPlain (g.size + 2) := by
  have hafter := ((g.addBlock .base).addStatementBlock .condition [cond]).isPlain_addBlock
  rw [Graph.size_addStatementBlock, Graph.size_addBlock] at hafter
  exact hafter.connect _ _

theorem isPlain_addFor_after (g : Graph) (init : List Node) (cond : Node) (step : List Node) :
    (g.addFor init cond step).IsPlain (g.size + 3) := by
  have hafter := (((g.addStatementBlock .base init).addStatementBlock .condition
    [cond]).addStatementBlock .base step).isPlain_addBlock
  rwa [Graph.size_addStatementBlock, Graph.size_addStatementBlock,
    Graph.size_addStatementBlock] at hafter

/-- A piece starts with a plain block. It gets its color from what is around the piece. -/
theorem isPlain_start (node : Node) (h : node.layOut scope g = (g', span)) :
    g'.IsPlain span.start := by
  match node, h with
  | function decl body, h =>
    obtain ⟨g₁, inner, hg₁, rfl, rfl⟩ := layOut_function h
    exact (isPlain_layOut hg₁ (isPlain_addHeader g decl)).connect _ _
  | compound items, h =>
    obtain ⟨last, hlast, rfl⟩ := layOut_compound h
    exact isPlain_layOutItems hlast g.isPlain_addBlock
  | branch cond onTrue onFalse, h =>
    obtain ⟨g₁, yes, g₂, no, hg₁, hg₂, rfl, rfl⟩ := layOut_branch h
    have hyes := (piece_layOut hg₁).le_start
    have hno := (piece_layOutOptional hg₂).le_start
    have hsize := (piece_layOut hg₁).size_lt
    rw [Graph.size_addTest] at hyes hsize
    have hfirst := isPlain_layOutOptional hg₂ (isPlain_layOut hg₁ (isPlain_addTest g cond))
    exact ((((hfirst.addBlock .base).connectBranches _ (by grind) (by grind)).connectIf _ _
      _).connectIf _ _ _).markFinalIf _ _
  | whileLoop cond body, h =>
    obtain ⟨g₁, inner, hg₁, rfl, rfl⟩ := layOut_whileLoop h
    have hinner := (piece_layOut hg₁).le_start
    rw [Graph.size_addWhile] at hinner
    exact ((isPlain_layOut hg₁ (isPlain_addWhile_first g cond)).connectBranches _ (by grind)
      (by simp)).connectIf _ _ _
  | forLoop init cond step body, h =>
    obtain ⟨g₁, inner, hg₁, rfl, rfl⟩ := layOut_forLoop h
    have hinner := (piece_layOut hg₁).le_start
    rw [Graph.size_addFor] at hinner
    exact (((((isPlain_layOut hg₁ (isPlain_addFor_first g _ _ _)).connect _ _).connectBranches _
      (by grind) (by simp)).connectIf _ _ _).connect _ _)
  | jump kind, h =>
    rw [layOut] at h
    obtain ⟨rfl, rfl⟩ := Prod.mk.inj h
    have hjump := g.isPlain_addBlock.markFinalIf true g.size
    cases scope.target? kind with
    | none => exact hjump
    | some target => exact hjump.connect _ _
  | ret _, h | declarator .., h | parameters _, h | declaration .., h | binary .., h | unary .., h
  | assignment .., h | ident _, h | constant .., h | call .., h =>
    simp only [layOut] at h
    obtain ⟨rfl, rfl⟩ := Prod.mk.inj h
    exact (g.isPlain_addStatementBlock _).markFinalIf _ _

theorem isPlain_startOptional (node : Option Node) (h : layOutOptional scope g node = (g', span)) :
    g'.IsPlain span.start := by
  cases node with
  | none =>
    rw [layOutOptional] at h
    obtain ⟨rfl, rfl⟩ := Prod.mk.inj h
    exact g.isPlain_addBlock
  | some node =>
    rw [layOutOptional] at h
    exact isPlain_start node h

/-- A way to lay out something such that exactly the blocks in slots of conditions are colored. -/
def Colors (layOut : Scope → Graph → Graph × Span) : Prop :=
  ∀ {scope : Scope} {g g' : Graph} {span : Span}, layOut scope g = (g', span) →
    g.Colored → g'.Colored

/-- The same for the items of a compound statement, behind a base block. -/
def ColorsItems (items : List Node) : Prop :=
  ∀ {scope : Scope} {g g' : Graph} {current last : BlockId} {running : Bool},
    layOutItems scope g current running items = (g', last) → g.size > current →
    (running = true → ∃ statements, g.code current = some ⟨.base, statements, []⟩) →
    g.Colored → g'.Colored

variable {cond onTrue body decl item : Node} {onFalse : Option Node} {items rest : List Node}

theorem colors_function (hbody : Colors body.layOut) : Colors (function decl body).layOut := by
  intro scope g g' span h hg
  obtain ⟨g₁, inner, hg₁, rfl, rfl⟩ := layOut_function h
  have hheader : g₁.code g.size = some ⟨.base, decl.functionParams, []⟩ := by
    rw [(piece_layOut hg₁).keeps _ (by simp), Graph.code_addHeader, if_pos rfl]
  exact (hbody hg₁ (hg.addHeader decl)).connect hheader _

theorem colors_branch (hyes : Colors onTrue.layOut)
    (hno : Colors fun scope g => layOutOptional scope g onFalse) :
    Colors (branch cond onTrue onFalse).layOut := by
  intro scope g g' span h hg
  obtain ⟨g₁, yes, g₂, no, hg₁, hg₂, rfl, rfl⟩ := layOut_branch h
  have pieceYes := piece_layOut hg₁
  have pieceNo := piece_layOutOptional hg₂
  have hsize := pieceYes.size_lt
  rw [Graph.size_addTest] at hsize
  have hsizeNo := pieceNo.size_lt
  have htest : (g.addTest cond).Colored :=
    ((hg.addBlock .base).addStatementBlock .condition [cond]).connect
      (by rw [Graph.code_addStatementBlock, if_neg (by simp), Graph.code_addBlock_self]) _
  have hcode : (g₂.addBlock .base).code (g.size + 1) = some ⟨.condition, [cond], []⟩ := by
    rw [g₂.code_addBlock_of_lt _ (by omega), pieceNo.keeps _ (by omega), pieceYes.keeps _ (by simp),
      Graph.code_addTest]
    simp
  have hne : yes.start ≠ no.start :=
    Nat.ne_of_lt (Nat.lt_of_lt_of_le pieceYes.start_lt pieceNo.le_start)
  have hbranches := ((hno hg₂ (hyes hg₁ htest)).addBlock .base).connectBranches hcode
    ((isPlain_layOutOptional hg₂ (isPlain_start onTrue hg₁)).addBlock .base)
    ((isPlain_startOptional onFalse hg₂).addBlock .base) hne
  -- Both branches end in base blocks other than the test.
  have hyesStop := pieceYes.le_stop
  have hyesLt := pieceYes.stop_lt
  have hnoStop := pieceNo.le_stop
  rw [Graph.size_addTest] at hyesStop
  have hkeep (i : Nat) (hi : g.size + 2 ≤ i) (hlt : i < g₂.size) :
      ((g₂.addBlock .base).connectBranches (g.size + 1) yes.start no.start).code i = g₂.code i := by
    rw [Graph.code_connectBranches_of_ne _ _ _ (Nat.ne_of_gt hi), g₂.code_addBlock_of_lt _ hlt]
  refine ((hbranches.connectIf (fun hpasses => ?_) _).connectIf (fun hpasses => ?_) _).markFinalIf
    _ _
  · obtain ⟨statements, hstop⟩ := pieceYes.code_stop hpasses
    exact ⟨statements, by
      rw [hkeep _ hyesStop (Nat.lt_trans hyesLt hsizeNo), pieceNo.keeps _ hyesLt, hstop]⟩
  · obtain ⟨statements, hstop⟩ := pieceNo.code_stop hpasses
    have hother : no.stop ≠ yes.stop := Nat.ne_of_gt (Nat.lt_of_lt_of_le hyesLt hnoStop)
    exact ⟨statements, by
      rw [Graph.code_connectIf_of_ne _ _ fun _ => hother,
        hkeep _ (Nat.le_trans (Nat.le_of_lt hsize) hnoStop) pieceNo.stop_lt, hstop]⟩

theorem colors_whileLoop (hbody : Colors body.layOut) : Colors (whileLoop cond body).layOut := by
  intro scope g g' span h hg
  obtain ⟨g₁, inner, hg₁, rfl, rfl⟩ := layOut_whileLoop h
  have piece := piece_layOut hg₁
  have hstart := piece.le_start
  have hstop := piece.le_stop
  rw [Graph.size_addWhile] at hstart hstop
  have hfront : (g.addWhile cond).Colored :=
    (((hg.addBlock .base).addStatementBlock .condition [cond]).addBlock .base).connect
      (by
        have hlt : g.size < ((g.addBlock .base).addStatementBlock .condition [cond]).size := by
          rw [Graph.size_addStatementBlock, Graph.size_addBlock]
          omega
        rw [Graph.code_addBlock_of_lt _ _ hlt, Graph.code_addStatementBlock, if_neg (by simp),
          Graph.code_addBlock_self]) _
  have hcode : g₁.code (g.size + 1) = some ⟨.condition, [cond], []⟩ := by
    rw [piece.keeps _ (by simp), Graph.code_addWhile]
    simp
  refine ((hbody hg₁ hfront).connectBranches hcode (isPlain_start body hg₁)
    (isPlain_layOut hg₁ (isPlain_addWhile_after g cond)) (Nat.ne_of_gt hstart)).connectIf
      (fun hpasses => ?_) _
  obtain ⟨statements, hend⟩ := piece.code_stop hpasses
  exact ⟨statements, by rw [Graph.code_connectBranches_of_ne _ _ _ (by grind), hend]⟩

theorem colors_forLoop {init : ForInit} {cond step : Option Node} (hbody : Colors body.layOut) :
    Colors (forLoop init cond step body).layOut := by
  intro scope g g' span h hg
  obtain ⟨g₁, inner, hg₁, rfl, rfl⟩ := layOut_forLoop h
  have piece := piece_layOut hg₁
  have hstart := piece.le_start
  have hstop := piece.le_stop
  rw [Graph.size_addFor] at hstart hstop
  have hfront : (g.addFor init.statements (cond.getD (int 1)) step.toList).Colored :=
    (((hg.addStatementBlock _ _).addStatementBlock _ _).addStatementBlock _ _).addBlock _
  have hold (i : Nat) (hi : i < g.size + 4) := (piece.keeps i (by rwa [Graph.size_addFor])).trans
    (g.code_addFor init.statements (cond.getD (int 1)) step.toList i)
  have hfirst : g₁.code g.size = some ⟨.base, init.statements, []⟩ := by
    rw [hold _ (by simp), if_pos rfl]
  have htest : (g₁.connect g.size (g.size + 1)).code (g.size + 1) =
      some ⟨.condition, [cond.getD (int 1)], []⟩ := by
    rw [g₁.code_connect_of_ne _ (by simp), hold _ (by simp)]
    simp
  have hbranches := ((hbody hg₁ hfront).connect hfirst (g.size + 1)).connectBranches htest
    ((isPlain_start body hg₁).connect _ _)
    ((isPlain_layOut hg₁ (isPlain_addFor_after g _ _ _)).connect _ _) (Nat.ne_of_gt hstart)
  have hkeep (i : Nat) (hi : g.size + 2 ≤ i) :
      ((g₁.connect g.size (g.size + 1)).connectBranches (g.size + 1) inner.start
        (g.size + 3)).code i = g₁.code i := by
    rw [Graph.code_connectBranches_of_ne _ _ _ (Nat.ne_of_gt hi),
      Graph.code_connect_of_ne _ _ (by grind)]
  have hnext : (((g₁.connect g.size (g.size + 1)).connectBranches (g.size + 1) inner.start
      (g.size + 3)).connectIf body.completes inner.stop (g.size + 2)).code (g.size + 2) =
        some ⟨.base, step.toList, []⟩ := by
    rw [Graph.code_connectIf_of_ne _ _ fun _ => Nat.ne_of_lt (Nat.lt_of_succ_lt hstop),
      hkeep _ (Nat.le_refl _), hold _ (by simp)]
    simp
  refine (hbranches.connectIf (fun hpasses => ?_) _).connect hnext _
  obtain ⟨statements, hend⟩ := piece.code_stop hpasses
  exact ⟨statements, by rw [hkeep _ (by grind), hend]⟩

theorem colorsItems_nil : ColorsItems [] := by
  intro scope g g' current last running h _ _ hg
  rw [layOutItems] at h
  obtain ⟨rfl, rfl⟩ := Prod.mk.inj h
  exact hg

theorem colorsItems_cons (hitem : Colors item.layOut) (hrest : ColorsItems rest) :
    ColorsItems (item :: rest) := by
  intro scope g g' current last running h hcurrent hopen hg
  obtain ⟨g₁, span, hg₁, h⟩ := layOutItems_cons h
  have piece := piece_layOut hg₁
  cases running with
  | false => exact hrest h (Nat.lt_trans hcurrent piece.size_lt) nofun (hitem hg₁ hg)
  | true =>
    obtain ⟨statements, hcode⟩ := hopen rfl
    simp only [if_true] at h
    refine hrest h (by simpa using piece.stop_lt) (fun hpasses => ?_)
      ((hitem hg₁ hg).connect ((piece.keeps _ hcurrent).trans hcode) _)
    obtain ⟨statements, hstop⟩ := piece.code_stop hpasses
    have hne : span.stop ≠ current := Nat.ne_of_gt (Nat.lt_of_lt_of_le hcurrent piece.le_stop)
    exact ⟨statements, by rw [g₁.code_connect_of_ne _ hne, hstop]⟩

theorem colors_compound (hitems : ColorsItems items) : Colors (compound items).layOut := by
  intro scope g g' span h hg
  obtain ⟨last, hlast, rfl⟩ := layOut_compound h
  exact hitems hlast (by simp) (fun _ => ⟨[], g.code_addBlock_self .base⟩) (hg.addBlock .base)

theorem colors_addSingle (node : Node) (final : Bool) :
    Colors fun _ g => g.addSingle node final := by
  intro scope g g' span h hg
  obtain ⟨rfl, rfl⟩ := Prod.mk.inj h
  exact (hg.addStatementBlock _ _).markFinalIf _ _

theorem colors_addJump (kind : Jump) :
    Colors fun scope g => g.addJump (scope.target? kind) := by
  intro scope g g' span h hg
  obtain ⟨rfl, rfl⟩ := Prod.mk.inj h
  have hjump := (hg.addBlock .base).markFinalIf true g.size
  cases scope.target? kind with
  | none => exact hjump
  | some target =>
    exact hjump.connect (by rw [Graph.code_markFinalIf, Graph.code_addBlock_self]) _

theorem colors_absent : Colors fun _ g => (g.addBlock .base, ⟨g.size, g.size⟩) := by
  intro scope g g' span h hg
  obtain ⟨rfl, rfl⟩ := Prod.mk.inj h
  exact hg.addBlock .base

private theorem layOutCases_colors : LayOutCases (fun layOut _ => Colors layOut) ColorsItems where
  single := fun node final _ => @colors_addSingle node final
  jump := colors_addJump
  absent := @colors_absent
  function := colors_function
  branch := colors_branch
  whileLoop := colors_whileLoop
  forLoop := colors_forLoop
  nil := colorsItems_nil
  cons := colorsItems_cons
  compound := colors_compound

/-- The layout of a node colors exactly the blocks in slots of conditions. -/
theorem colors_layOut (node : Node) : Colors node.layOut :=
  layOutCases_colors.layOut node

/-- In the graph of a tree exactly the blocks in slots of conditions are colored. -/
theorem colored_toGraph (node : Node) : node.toGraph.Colored := by
  rcases hlay : node.layOut (.top 0) (({} : Graph).addBlock .base) with ⟨g, span⟩
  have hempty : ({} : Graph).Colored :=
    ⟨fun ⟨b, hb, _⟩ => by simp [Graph.block?] at hb, fun hb => by simp [Graph.block?] at hb⟩
  have hg := colors_layOut node hlay (hempty.addBlock .base)
  rw [toGraph, hlay]
  exact ⟨hg.entry, hg.cond⟩

end Node

end FlowGraph
