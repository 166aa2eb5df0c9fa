import FlowGraph.Construction.Build
import FlowGraph.Proofs.Construction.Piece
import FlowGraph.Proofs.Construction.Realization

/-!
# A layout is faithful to the reading of its tree

The start of the piece of a node realizes the structured reading of the node, in every graph that
has the blocks of the piece and goes on from its last block in some way. Each kind of node has a
lemma that takes this for granted for its children; the induction over the tree only puts them
together.

## Main definitions

* `Continues`: a graph has the blocks of a piece and may go on from the last one
* `Faithful`, `FaithfulItems`: what layout does for a node and for the items of a compound statement

## Main results

* `Node.isFaithful`: layout is faithful
* `Node.run_iff_reads_of_build`: the runs of a graph that is built and not simplified
-/

namespace FlowGraph

/-- `G` has the code of `g` in a region, but may go on from the block `stop` if control passes its
end. -/
structure Continues (G g : Graph) (region : Nat → Prop) (stop : BlockId) (passes : Bool) :
    Prop where
  code_eq : ∀ i : Nat, region i → i < g.size → (passes = true → i ≠ stop) → G.code i = g.code i
  code_stop : passes = true → ∀ c, g.code stop = some c →
    ∃ successors, G.code stop = some { c with successors := successors }

namespace Continues

variable {G g g' : Graph} {region inner : Nat → Prop} {stop stop' : BlockId} {passes passes' : Bool}

/-- Kind and statements are the same in the whole region. -/
theorem exists_code (h : Continues G g region stop passes) {i : Nat} (hi : region i) {c : Code}
    (hc : g.code i = some c) :
    ∃ successors, G.code i = some { c with successors := successors } := by
  by_cases hstop : passes = true ∧ i = stop
  · obtain ⟨hpasses, rfl⟩ := hstop
    exact h.code_stop hpasses c hc
  · refine ⟨c.successors, ?_⟩
    rw [h.code_eq i hi (Graph.lt_size_of_code hc) fun hpasses hi => hstop ⟨hpasses, hi⟩, hc]

/-- A part of the region that has not changed and stops at the same block. -/
theorem part (h : Continues G g' region stop passes) (hinner : ∀ i, inner i → region i)
    (hsize : g.size ≤ g'.size) (hstop : inner stop)
    (hcode : ∀ i : Nat, inner i → i < g.size → g'.code i = g.code i) :
    Continues G g inner stop passes where
  code_eq i hi hlt hne := (h.code_eq i (hinner i hi) (Nat.lt_of_lt_of_le hlt hsize) hne).trans
    (hcode i hi hlt)
  code_stop hpasses c hc := by
    rw [← hcode stop hstop (Graph.lt_size_of_code hc)] at hc
    exact h.code_stop hpasses c hc

/-- A piece inside of another one, from the end of which control goes to the block `next`. -/
theorem inside {g₀ : Graph} {span : Span} {first next : Nat} (piece : Piece g₀ g span passes)
    (h : Continues G g' (first ≤ ·) stop passes') (hfirst : first ≤ g₀.size)
    (hsize : g.size ≤ g'.size) (hne : ∀ i : Nat, g₀.size ≤ i → i < g.size → i ≠ stop)
    (hcode : ∀ i : Nat, g₀.size ≤ i → i < g.size → (passes = true → i ≠ span.stop) →
      g'.code i = g.code i)
    (hstop : passes = true → g'.code span.stop = (g.code span.stop).map (·.addSuccessor next)) :
    Continues G g (g₀.size ≤ ·) span.stop passes ∧
      (passes = true → ∃ statements, G.code span.stop = some ⟨.base, statements, [next]⟩) := by
  have hG : ∀ i : Nat, g₀.size ≤ i → i < g.size → G.code i = g'.code i := fun i hi hlt =>
    h.code_eq i (Nat.le_trans hfirst hi) (Nat.lt_of_lt_of_le hlt hsize) fun _ => hne i hi hlt
  -- The outer piece has only given the last block of this one its edge.
  refine ⟨⟨fun i hi hlt hi' => (hG i hi hlt).trans (hcode i hi hlt hi'), fun hpasses c hc => ?_⟩,
    fun hpasses => ?_⟩
  · refine ⟨c.successors ++ [next], ?_⟩
    rw [hG _ piece.le_stop piece.stop_lt, hstop hpasses, hc]
    rfl
  · obtain ⟨statements, hopen⟩ := piece.code_stop hpasses
    refine ⟨statements, ?_⟩
    rw [hG _ piece.le_stop piece.stop_lt, hstop hpasses, hopen]
    rfl

end Continues

/-- Where a jump leads. Outside of every loop it ends the run. -/
def Graph.futureJump (G : Graph) (scope : Scope) (kind : Jump) : Future :=
  match scope.target? kind with
  | some target => G.futureAt target
  | none => fun _ t c => t = [] ∧ c = true

/-- What may follow after a last block leads to `after`. -/
def Graph.LeadsFrom (G : Graph) (stop : BlockId) (after : Future) : Prop :=
  ∀ statements successors, G.code stop = some ⟨.base, statements, successors⟩ →
    (G.futureAfter successors).Leads after

/-- Layout adds a piece, the start of which realizes a behavior wherever the piece may be used. -/
def Faithful (layOut : Scope → Graph → Graph × Span) (p : Behavior) (passes : Bool) : Prop :=
  ∀ {scope : Scope} {g g' : Graph} {span : Span}, layOut scope g = (g', span) →
    Piece g g' span passes ∧ ∀ {G : Graph} {after : Future},
      Continues G g' (g.size ≤ ·) span.stop passes →
      (passes = true → G.LeadsFrom span.stop after) →
      Realizes (G.futureAt span.start) p ⟨after, G.futureJump scope⟩

/-- Layout adds pieces behind a block, the end of which realizes the behavior of all of them. -/
def FaithfulItems (items : List Node) : Prop :=
  ∀ {scope : Scope} {g g' : Graph} {current last : BlockId} {running : Bool},
    Node.layOutItems scope g current running items = (g', last) → g.size > current →
    (running = true → ∃ statements, g.code current = some ⟨.base, statements, []⟩) →
    Chain g g' current last running (running && Node.completesAll items) ∧
      (running = true → ∀ {G : Graph} {after : Future},
        Continues G g' (fun i => i = current ∨ g.size ≤ i) last (Node.completesAll items) →
        (Node.completesAll items = true → G.LeadsFrom last after) →
        ∀ {statements : List Node} {successors : List BlockId},
          G.code current = some ⟨.base, statements, successors⟩ →
          Realizes (G.futureAfter successors) (Node.readsAll items) ⟨after, G.futureJump scope⟩)

/-- Control that comes to the end of a block with a single edge goes over that edge. -/
private theorem leadsFrom_of_code {G : Graph} {stop next : BlockId} {statements : List Node}
    {c : Code} (hstop : G.code stop = some ⟨.base, statements, [next]⟩)
    (hnext : G.code next = some c) : G.LeadsFrom stop (G.futureAt next) := by
  intro statements' successors hstop'
  obtain ⟨-, -, rfl⟩ := Code.mk.inj (Option.some.inj (hstop.symm.trans hstop'))
  exact Graph.futureAfter_leads_futureAt hnext

/-- A piece inside of another one, from the end of which control goes to the block `next`. -/
theorem Faithful.inside {layOut : Scope → Graph → Graph × Span} {p : Behavior}
    {passes passes' : Bool} (h : Faithful layOut p passes) {scope : Scope} {g₀ g g' : Graph}
    {span : Span}
    (hspan : layOut scope g₀ = (g, span)) {G : Graph} {first stop next : Nat}
    (hG : Continues G g' (first ≤ ·) stop passes') (hfirst : first ≤ g₀.size)
    (hsize : g.size ≤ g'.size) (hne : ∀ i : Nat, g₀.size ≤ i → i < g.size → i ≠ stop)
    (hcode : ∀ i : Nat, g₀.size ≤ i → i < g.size → (passes = true → i ≠ span.stop) →
      g'.code i = g.code i)
    (hstop : passes = true → g'.code span.stop = (g.code span.stop).map (·.addSuccessor next))
    {c : Code} (hnext : G.code next = some c) :
    (∃ c, G.code span.start = some c) ∧
      Realizes (G.futureAt span.start) p ⟨G.futureAt next, G.futureJump scope⟩ := by
  obtain ⟨piece, realizes⟩ := h hspan
  obtain ⟨hinside, hedge⟩ := hG.inside piece hfirst hsize hne hcode hstop
  obtain ⟨c, hc⟩ := Graph.exists_code piece.start_lt
  obtain ⟨_, hstart⟩ := hinside.exists_code piece.le_start hc
  refine ⟨⟨_, hstart⟩, realizes hinside fun hpasses => ?_⟩
  obtain ⟨statements, hedge⟩ := hedge hpasses
  exact leadsFrom_of_code hedge hnext

theorem faithful_addSingle (node : Node) :
    Faithful (fun _ g => g.addSingle node false) (.run [node]) true := by
  intro scope g g' span h
  obtain rfl : (g.addSingle node false).1 = g' := congrArg Prod.fst h
  obtain rfl : (⟨g.size, g.size⟩ : Span) = span := congrArg Prod.snd h
  refine ⟨g.piece_addSingle node false true, fun {G after} hG hafter => ?_⟩
  obtain ⟨successors, hcode⟩ := hG.exists_code (i := g.size) (Nat.le_refl _)
    ((g.code_addSingle node false g.size).trans (if_pos rfl))
  exact (realizes_block hcode _).lead_on (hafter rfl _ _ hcode)

theorem faithful_return (node : Node) :
    Faithful (fun _ g => g.addSingle node true)
      ((Behavior.run [node]).seq (.leave .returned)) false := by
  intro scope g g' span h
  obtain rfl : (g.addSingle node true).1 = g' := congrArg Prod.fst h
  obtain rfl : (⟨g.size, g.size⟩ : Span) = span := congrArg Prod.snd h
  refine ⟨g.piece_addSingle node true false, fun {G after} hG _ => ?_⟩
  have hcode : G.code g.size = some ⟨.base, [node], []⟩ := by
    rw [hG.code_eq g.size (Nat.le_refl _) (by simp) nofun, Graph.code_addSingle]
    exact if_pos rfl
  exact (realizes_block hcode _).seq (realizes_end G rfl)

theorem faithful_jump (kind : Jump) :
    Faithful (fun scope g => g.addJump (scope.target? kind)) (.leave (.jumped kind)) false := by
  intro scope g g' span h
  obtain rfl : (g.addJump (scope.target? kind)).1 = g' := congrArg Prod.fst h
  obtain rfl : (⟨g.size, g.size⟩ : Span) = span := congrArg Prod.snd h
  refine ⟨g.piece_addJump _, fun {G after} hG _ => ?_⟩
  have hcode : G.code g.size = some ⟨.base, [], (scope.target? kind).toList⟩ := by
    rw [hG.code_eq g.size (Nat.le_refl _) (by simp) nofun, Graph.code_addJump]
    exact if_pos rfl
  refine .of_leads (Graph.futureAt_leads_futureAfter hcode) ?_
  cases htarget : scope.target? kind with
  | none => exact realizes_end G (by simp only [Exits.future, Graph.futureJump, htarget])
  | some target => exact realizes_leave G (by simp only [Exits.future, Graph.futureJump, htarget])

/-- The piece of an absent branch does nothing. -/
theorem faithful_absent :
    Faithful (fun _ g => (g.addBlock .base, ⟨g.size, g.size⟩)) (.run []) true := by
  intro scope g g' span h
  obtain ⟨rfl, rfl⟩ := Prod.mk.inj h
  refine ⟨g.piece_addBlock, fun {G after} hG hafter => ?_⟩
  obtain ⟨successors, hcode⟩ := hG.exists_code (i := g.size) (Nat.le_refl _)
    (g.code_addBlock_self .base)
  exact (realizes_block hcode _).lead_on (hafter rfl _ _ hcode)

namespace Node

/-- A node is laid out faithfully to its reading. -/
def IsFaithful (node : Node) : Prop :=
  Faithful (fun scope g => node.layOut scope g) node.reads node.completes

theorem isFaithful_function {decl body : Node} (hbody : body.IsFaithful) :
    (function decl body).IsFaithful := by
  intro scope g g' span h
  obtain ⟨g₁, inner, hg₁, rfl, rfl⟩ := layOut_function h
  obtain ⟨piece, realizes⟩ := hbody hg₁
  rw [completes]
  refine ⟨piece.function, fun {G after} hG hafter => ?_⟩
  have hinner : Continues G g₁ ((g.addHeader decl).size ≤ ·) inner.stop body.completes :=
    hG.part (fun i hi => Nat.le_trans (by simp) hi) (by simp [Graph.closeFunction]) piece.le_stop
      fun i hi _ => Piece.code_function_body hi
  have hheader : G.code g.size = some ⟨.base, decl.functionParams, [inner.start]⟩ := by
    rw [hG.code_eq _ (Nat.le_refl _) piece.function.start_lt fun _ =>
      Nat.ne_of_lt (Nat.lt_of_lt_of_le (by simp) piece.le_stop), piece.code_function_header]
  obtain ⟨c, hc⟩ := Graph.exists_code piece.start_lt
  obtain ⟨_, hstart⟩ := hinner.exists_code piece.le_start hc
  rw [reads]
  exact ((realizes_block hheader _).lead_on (Graph.futureAfter_leads_futureAt hstart)).seq
    (realizes hinner hafter)

theorem faithfulItems_nil : FaithfulItems [] := by
  intro scope g g' current last running h hcurrent hopen
  rw [layOutItems] at h
  obtain ⟨rfl, rfl⟩ := Prod.mk.inj h
  refine ⟨{ keeps := fun _ _ _ => rfl, size_le := Nat.le_refl _, last_mem := .inl rfl,
            code_last := ?_, code_current := ?_ }, ?_⟩
  · intro hpasses
    exact hopen (by simpa [completesAll] using hpasses)
  · exact fun c hc => ⟨c.successors, hc⟩
  · intro _ G after _ hafter statements successors hcode
    rw [readsAll]
    exact (Realizes.skip .cut _).lead_on (hafter (by rw [completesAll]) _ _ hcode)

/-- The blocks of a piece in a graph that also has the chain behind it. -/
theorem continues_item {g g₁ g' G : Graph} {span : Span} {current last : BlockId}
    {completes passes : Bool} (piece : Piece g g₁ span completes)
    (chain :
      Chain (g₁.connect current span.start) g' span.stop last completes (completes && passes))
    (hcurrent : current < g.size)
    (hG : Continues G g' (fun i => i = current ∨ g.size ≤ i) last (completes && passes)) :
    Continues G g₁ (g.size ≤ ·) span.stop completes where
  code_eq := by
    intro i hi hlt hne
    have hle : g₁.size ≤ g'.size := by simpa using chain.size_le
    have hi' : i ≠ current := Nat.ne_of_gt (Nat.lt_of_lt_of_le hcurrent hi)
    rw [hG.code_eq i (.inr hi) (Nat.lt_of_lt_of_le hlt hle) ?_,
      chain.keeps i (by simpa using hlt) hne, g₁.code_connect_of_ne _ hi']
    -- The last block of the chain is the last one of the piece, or a later one.
    intro hpasses
    rw [Bool.and_eq_true] at hpasses
    rcases chain.last_mem with rfl | ⟨hge, -⟩
    · exact hne hpasses.1
    · exact Nat.ne_of_lt (Nat.lt_of_lt_of_le hlt (by simpa using hge))
  code_stop := by
    intro _ c hc
    have hstop : span.stop ≠ current := Nat.ne_of_gt (Nat.lt_of_lt_of_le hcurrent piece.le_stop)
    rw [← g₁.code_connect_of_ne _ hstop] at hc
    obtain ⟨_, hc⟩ := chain.code_current c hc
    obtain ⟨_, hc⟩ := hG.exists_code (.inr piece.le_stop) hc
    exact ⟨_, hc⟩

/-- The blocks of the chain behind a piece. -/
theorem continues_rest {g g₁ g' G : Graph} {span : Span} {current last : BlockId}
    {completes passes passes' : Bool} (piece : Piece g g₁ span completes)
    (chain : Chain (g₁.connect current span.start) g' span.stop last completes passes)
    (hG : Continues G g' (fun i => i = current ∨ g.size ≤ i) last passes') :
    Continues G g' (fun i => i = span.stop ∨ (g₁.connect current span.start).size ≤ i) last
      passes' := by
  refine hG.part (fun i hi => .inr ?_) (Nat.le_refl _) (chain.last_mem.imp_right And.left)
    fun _ _ _ => rfl
  rcases hi with rfl | hi
  · exact piece.le_stop
  · exact Nat.le_trans (Nat.le_of_lt piece.size_lt) (by simpa using hi)

theorem completesAll_cons (item : Node) (rest : List Node) :
    completesAll (item :: rest) = (item.completes && completesAll rest) := by
  rw [completesAll]

theorem faithfulItems_cons {item : Node} {rest : List Node} (hitem : item.IsFaithful)
    (hrest : FaithfulItems rest) : FaithfulItems (item :: rest) := by
  intro scope g g' current last running h hcurrent hopen
  obtain ⟨g₁, span, hg₁, h⟩ := layOutItems_cons h
  obtain ⟨piece, realizes⟩ := hitem hg₁
  cases running with
  | false =>
    -- The item is laid out, but nothing leads to it.
    obtain ⟨chain, -⟩ := hrest h (Nat.lt_trans hcurrent piece.size_lt) nofun
    exact ⟨piece.chain_unreached chain hcurrent, nofun⟩
  | true =>
    obtain ⟨statements, hcode⟩ := hopen rfl
    have hstop : span.stop ≠ current := Nat.ne_of_gt (Nat.lt_of_lt_of_le hcurrent piece.le_stop)
    simp only [if_true] at h
    obtain ⟨chain, realizesRest⟩ := hrest h (by simpa using piece.stop_lt) fun hcompletes => by
      rw [g₁.code_connect_of_ne _ hstop]
      exact piece.code_stop hcompletes
    rw [completesAll_cons, Bool.true_and]
    have hchain := piece.chain_connected chain hcurrent hcode
    refine ⟨hchain, fun _ {G after} hG hafter {statements' successors} hcurrentG => ?_⟩
    -- The block before the item goes on with the item.
    rw [hG.code_eq current (.inl rfl) (Nat.lt_of_lt_of_le hcurrent hchain.size_le) fun _ =>
      Nat.ne_of_lt (Nat.lt_of_lt_of_le hcurrent (piece.le_last_of_chain chain)),
      piece.code_current_of_chain chain hcurrent hcode] at hcurrentG
    obtain ⟨-, -, rfl⟩ := Code.mk.inj (Option.some.inj hcurrentG)
    have hitemG := continues_item piece chain hcurrent hG
    obtain ⟨c, hstart⟩ := Graph.exists_code piece.start_lt
    obtain ⟨_, hstart⟩ := hitemG.exists_code piece.le_start hstart
    refine .of_leads (Graph.futureAfter_leads_futureAt hstart) ?_
    rw [readsAll]
    cases hcompletes : item.completes with
    | false =>
      exact .seq_of_stays (stays_reads item hcompletes)
        (realizes hitemG fun h => nomatch hcompletes.symm.trans h) _
    | true =>
      rw [hcompletes, Bool.true_and] at hG hafter
      obtain ⟨_, hopen⟩ := piece.code_stop hcompletes
      obtain ⟨successors, hopen⟩ := hitemG.code_stop hcompletes _ hopen
      have hitem : Realizes (G.futureAt span.start) item.reads
          ⟨G.futureAfter successors, G.futureJump scope⟩ := by
        refine realizes hitemG fun _ statements' successors' hopen' => ?_
        obtain ⟨-, -, rfl⟩ := Code.mk.inj (Option.some.inj (hopen.symm.trans hopen'))
        exact .refl _
      exact hitem.seq (realizesRest hcompletes (continues_rest piece chain hG) hafter hopen)

theorem isFaithful_compound {items : List Node} (hitems : FaithfulItems items) :
    (compound items).IsFaithful := by
  intro scope g g' span h
  obtain ⟨last, hlast, rfl⟩ := layOut_compound h
  have hfirst := g.code_addBlock_self .base
  obtain ⟨chain, realizes⟩ := hitems hlast (by simp) fun _ => ⟨[], hfirst⟩
  have hsize : g.size + 1 ≤ g'.size := by simpa using chain.size_le
  -- The last block is the first one if there are no items.
  have hmem : g.size ≤ last ∧ last < g'.size := by
    rcases chain.last_mem with rfl | ⟨hle, hlt⟩
    · exact ⟨Nat.le_refl _, hsize⟩
    · exact ⟨Nat.le_of_succ_le (by simpa using hle), hlt⟩
  rw [completes]
  refine ⟨{ keeps := ?_, le_start := Nat.le_refl _, start_lt := hsize, le_stop := hmem.1,
            stop_lt := hmem.2, code_stop := ?_ }, fun {G after} hG hafter => ?_⟩
  · intro i hi
    rw [chain.keeps i (by simp; omega) fun _ => Nat.ne_of_lt hi, g.code_addBlock_of_lt _ hi]
  · intro hpasses
    exact chain.code_last (by simpa using hpasses)
  · obtain ⟨_, hcode⟩ := chain.code_current _ hfirst
    obtain ⟨successors, hcode⟩ := hG.exists_code (Nat.le_refl _) hcode
    have hitems : Continues G g' (fun i => i = g.size ∨ (g.addBlock .base).size ≤ i) last
        (completesAll items) :=
      hG.part (fun i hi => by simp at hi; omega) (Nat.le_refl _) (by simp; omega) fun _ _ _ => rfl
    rw [reads]
    exact .of_leads (Graph.futureAt_leads_futureAfter hcode) (realizes rfl hitems hafter hcode)

/-- A branch that may be absent is laid out faithfully to its reading. -/
def IsFaithfulOptional (node : Option Node) : Prop :=
  Faithful (fun scope g => layOutOptional scope g node) (readsOptional node)
    (completesOptional node)

theorem isFaithful_branch {cond onTrue : Node} {onFalse : Option Node} (hyes : onTrue.IsFaithful)
    (hno : IsFaithfulOptional onFalse) : (branch cond onTrue onFalse).IsFaithful := by
  intro scope g g' span h
  obtain ⟨g₁, yes, g₂, no, hg₁, hg₂, rfl, rfl⟩ := layOut_branch h
  have pieceYes := (hyes hg₁).1
  have pieceNo := (hno hg₂).1
  refine ⟨pieceYes.branch pieceNo _, fun {G after} hG hafter => ?_⟩
  have hlt : g.size + 2 < g₂.size := by
    simpa using Nat.lt_trans pieceYes.size_lt pieceNo.size_lt
  have hG' : ∀ i : Nat, g.size ≤ i → i < g₂.size → G.code i = (g₂.addJoin (g.size + 1) yes no
      onTrue.completes (completesOptional onFalse)).code i := fun i hi hlt =>
    hG.code_eq i hi (by rw [Graph.size_addJoin]; exact Nat.lt_succ_of_lt hlt)
      fun _ => Nat.ne_of_lt hlt
  have hfirst : G.code g.size = some ⟨.base, [], [g.size + 1]⟩ := by
    rw [hG' _ (Nat.le_refl _) (by omega), pieceYes.code_branch_first pieceNo]
  have htest : G.code (g.size + 1) = some ⟨.condition, [cond], [yes.start, no.start]⟩ := by
    rw [hG' _ (by omega) (by omega), pieceYes.code_branch_test pieceNo]
  obtain ⟨successors, hjoin⟩ := hG.exists_code (i := g₂.size) (by omega)
    (pieceYes.code_branch_join pieceNo)
  obtain ⟨⟨_, hstartYes⟩, realizesYes⟩ := hyes.inside hg₁ hG (by simp)
    (by rw [Graph.size_addJoin]; exact Nat.le_succ_of_le (Nat.le_of_lt pieceNo.size_lt))
    (fun i _ hi => Nat.ne_of_lt (Nat.lt_trans hi pieceNo.size_lt))
    (fun i => pieceYes.code_branch_yes pieceNo) (pieceYes.code_branch_yes_stop pieceNo) hjoin
  obtain ⟨⟨_, hstartNo⟩, realizesNo⟩ := hno.inside hg₂ hG
    (Nat.le_trans (by simp) (Nat.le_of_lt pieceYes.size_lt)) (by simp)
    (fun i _ hi => Nat.ne_of_lt hi) (fun i => pieceYes.code_branch_no pieceNo)
    (pieceYes.code_branch_no_stop pieceNo) hjoin
  -- Both branches go on with the join, and from there to what comes after.
  have hbranch := Realizes.branch htest hstartYes hstartNo realizesYes realizesNo
  rw [← reads] at hbranch
  refine .of_leads (Graph.futureAt_leads_futureAfter hfirst)
    (.of_leads (Graph.futureAfter_leads_futureAt htest) ?_)
  cases hcompletes : (branch cond onTrue onFalse).completes with
  | false => exact .of_stays (stays_reads _ hcompletes) hbranch
  | true =>
    exact hbranch.lead_on
      ((Graph.futureAt_leads_futureAfter hjoin).trans (hafter hcompletes _ _ hjoin))

theorem isFaithful_whileLoop {cond body : Node} (hbody : body.IsFaithful) :
    (whileLoop cond body).IsFaithful := by
  intro scope g g' span h
  have hcompletes : (whileLoop cond body).completes = true := by simp only [completes]
  obtain ⟨g₁, inner, hg₁, rfl, rfl⟩ := layOut_whileLoop h
  have piece := (hbody hg₁).1
  rw [hcompletes]
  refine ⟨piece.whileLoop, fun {G after} hG hafter => ?_⟩
  have hlt : g.size + 3 < g₁.size := by simpa using piece.size_lt
  have hG' : ∀ i : Nat, g.size ≤ i → i < g.size + 2 → G.code i =
      (g₁.closeWhile (g.size + 1) (g.size + 2) inner body.completes).code i := fun i hi hlt =>
    hG.code_eq i hi (by rw [Graph.size_closeWhile]; omega) fun _ => Nat.ne_of_lt hlt
  have hfirst : G.code g.size = some ⟨.base, [], [g.size + 1]⟩ := by
    rw [hG' _ (Nat.le_refl _) (by simp), piece.code_while_first]
  have htest : G.code (g.size + 1) = some ⟨.condition, [cond], [inner.start, g.size + 2]⟩ := by
    rw [hG' _ (by simp) (by simp), piece.code_while_test]
  obtain ⟨successors, hleft⟩ := hG.exists_code (i := g.size + 2) (by simp) piece.code_while_after
  obtain ⟨⟨_, hstart⟩, realizes⟩ := hbody.inside hg₁ hG (by simp) (by simp)
    (fun i hi _ => by simp at hi; exact Nat.ne_of_gt hi) (fun i hi _ => Piece.code_while_body hi)
    piece.code_while_stop htest
  -- The body leads back to the test, also when it is continued.
  have hround := (realizes.resume rfl).seq (.skip (Graph.futureAt_nil htest 0) _)
  have hloop := Realizes.loop (e := ⟨G.futureAt (g.size + 2), G.futureJump scope⟩) htest hstart
    hleft hround rfl
    (Behavior.not_round_jumped_continueLoop cond body.reads (Behavior.jumpless_emit _)) rfl
  rw [reads]
  exact .of_leads (Graph.futureAt_leads_futureAfter hfirst)
    (.of_leads (Graph.futureAfter_leads_futureAt htest)
      (hloop.lead_on ((Graph.futureAt_leads_futureAfter hleft).trans (hafter rfl _ _ hleft))))

theorem isFaithful_forLoop {init : ForInit} {cond step : Option Node} {body : Node}
    (hbody : body.IsFaithful) : (forLoop init cond step body).IsFaithful := by
  intro scope g g' span h
  have hcompletes : (forLoop init cond step body).completes = true := by simp only [completes]
  obtain ⟨g₁, inner, hg₁, rfl, rfl⟩ := layOut_forLoop h
  have piece := (hbody hg₁).1
  rw [hcompletes]
  refine ⟨piece.forLoop, fun {G after} hG hafter => ?_⟩
  have hlt : g.size + 4 < g₁.size := by simpa using piece.size_lt
  have hG' : ∀ i : Nat, g.size ≤ i → i < g.size + 3 → G.code i =
      (g₁.closeFor g.size (g.size + 1) (g.size + 2) (g.size + 3) inner body.completes).code i :=
    fun i hi hlt => hG.code_eq i hi (by rw [Graph.size_closeFor]; omega) fun _ => Nat.ne_of_lt hlt
  have hfirst : G.code g.size = some ⟨.base, init.statements, [g.size + 1]⟩ := by
    rw [hG' _ (Nat.le_refl _) (by simp), piece.code_for_first]
  have htest : G.code (g.size + 1) =
      some ⟨.condition, [cond.getD (int 1)], [inner.start, g.size + 3]⟩ := by
    rw [hG' _ (by simp) (by simp), piece.code_for_test]
  have hnext : G.code (g.size + 2) = some ⟨.base, step.toList, [g.size + 1]⟩ := by
    rw [hG' _ (by simp) (by simp), piece.code_for_next]
  obtain ⟨successors, hleft⟩ := hG.exists_code (i := g.size + 3) (by simp) piece.code_for_after
  obtain ⟨⟨_, hstart⟩, realizes⟩ := hbody.inside hg₁ hG (by simp) (by simp)
    (fun i hi _ => by simp at hi; exact Nat.ne_of_gt hi) (fun i hi _ => Piece.code_for_body hi)
    piece.code_for_stop hnext
  -- The body leads to the step, also when it is continued, and the step leads back to the test.
  have hstep := (realizes_block hnext
    (G.futureJump (scope.enterLoop (g.size + 2) (g.size + 3)))).lead_on
      (Graph.futureAfter_leads_futureAt htest)
  have hround := (realizes.resume rfl).seq hstep
  have hloop := Realizes.loop (e := ⟨G.futureAt (g.size + 3), G.futureJump scope⟩) htest hstart
    hleft hround rfl
    (Behavior.not_round_jumped_continueLoop _ body.reads (Behavior.jumpless_emit _)) rfl
  rw [reads]
  exact ((realizes_block hfirst _).lead_on (Graph.futureAfter_leads_futureAt htest)).seq
    (hloop.lead_on ((Graph.futureAt_leads_futureAfter hleft).trans (hafter rfl _ _ hleft)))

private theorem isFaithful_of_eq {node : Node} {layOut' : Scope → Graph → Graph × Span}
    {p : Behavior} {passes : Bool} (hlayOut : ∀ scope g, node.layOut scope g = layOut' scope g)
    (hreads : node.reads = p) (hcompletes : node.completes = passes)
    (h : Faithful layOut' p passes) : node.IsFaithful := by
  subst hreads hcompletes
  exact fun hspan => h ((hlayOut _ _).symm.trans hspan)

private theorem isFaithful_of_addSingle {node : Node}
    (hlayOut : ∀ scope g, node.layOut scope g = g.addSingle node false)
    (hreads : node.reads = .run [node]) (hcompletes : node.completes = true) : node.IsFaithful :=
  isFaithful_of_eq hlayOut hreads hcompletes (faithful_addSingle node)

private theorem isFaithfulOptional_of_eq {node : Option Node}
    {layOut' : Scope → Graph → Graph × Span} {p : Behavior} {passes : Bool}
    (hlayOut : ∀ scope g, layOutOptional scope g node = layOut' scope g)
    (hreads : readsOptional node = p) (hcompletes : completesOptional node = passes)
    (h : Faithful layOut' p passes) : IsFaithfulOptional node := by
  subst hreads hcompletes
  exact fun hspan => h ((hlayOut _ _).symm.trans hspan)

mutual

/-- Every node is laid out faithfully to its reading. -/
theorem isFaithful : ∀ node : Node, node.IsFaithful
  | function _ body => isFaithful_function (isFaithful body)
  | compound items => isFaithful_compound (faithfulItems items)
  | branch _ onTrue onFalse =>
    isFaithful_branch (isFaithful onTrue) (isFaithfulOptional onFalse)
  | whileLoop _ body => isFaithful_whileLoop (isFaithful body)
  | forLoop _ _ _ body => isFaithful_forLoop (isFaithful body)
  | ret value =>
    isFaithful_of_eq (fun _ _ => by rw [layOut]) (by rw [reads]) (by rw [completes])
      (faithful_return _)
  | jump kind =>
    isFaithful_of_eq (fun _ _ => by rw [layOut]) (by rw [reads]) (by rw [completes])
      (faithful_jump kind)
  | declarator .. | parameters .. | declaration .. | binary .. | unary .. | assignment ..
  | ident .. | constant .. | call .. =>
    isFaithful_of_addSingle (fun _ _ => by simp only [layOut]) (by simp only [reads])
      (by simp only [completes])

/-- The items of a compound statement are laid out faithfully to their reading. -/
theorem faithfulItems : ∀ items : List Node, FaithfulItems items
  | [] => faithfulItems_nil
  | item :: rest => faithfulItems_cons (isFaithful item) (faithfulItems rest)

private theorem isFaithfulOptional : ∀ node : Option Node, IsFaithfulOptional node
  | none => isFaithfulOptional_of_eq (fun _ _ => by rw [layOutOptional]) (by rw [readsOptional])
      (by rw [completesOptional]) faithful_absent
  | some node => isFaithfulOptional_of_eq (fun _ _ => by rw [layOutOptional])
      (by rw [readsOptional]) (by rw [completesOptional]) (isFaithful node)

end

/-- The entry of the graph of a tree realizes the reading of the tree. Its last block has no
successors. -/
theorem realizes_toGraph (node : Node) :
    Realizes (node.toGraph.futureAt node.toGraph.entry) node.reads
      ⟨fun _ t _ => t = [], node.toGraph.futureJump (.top 0)⟩ := by
  rcases hlay : node.layOut (.top 0) (({} : Graph).addBlock .base) with ⟨g, span⟩
  obtain ⟨piece, realizes⟩ := isFaithful node hlay
  have hgraph : node.toGraph =
      { g with name := node.functionName?, entry := span.start, exit := span.stop } := by
    rw [toGraph, hlay]
  rw [hgraph]
  refine realizes ⟨fun _ _ _ _ => rfl, fun _ c hc => ⟨c.successors, hc⟩⟩ fun hpasses => ?_
  obtain ⟨_, hopen⟩ := piece.code_stop hpasses
  intro statements successors hstop
  obtain ⟨-, -, rfl⟩ := Code.mk.inj (Option.some.inj (hopen.symm.trans hstop))
  -- Nothing comes after the last block.
  constructor
  · rintro n t c (_ | _ | ⟨edge, _⟩)
    · exact ⟨n, Nat.le_refl n, rfl⟩
    · exact ⟨n, Nat.le_refl n, rfl⟩
    · cases edge
  · rintro n t (_ | _) rfl
    · exact ⟨0, .cut⟩
    · exact ⟨0, .complete rfl⟩

theorem run_toGraph_cut_iff {node : Node} (hjumpless : node.reads.Jumpless) (t : List Emission) :
    node.toGraph.Run node.toGraph.entry t .cut ↔ node.reads t .stopped := by
  have hrealizes := realizes_toGraph node
  rw [← Graph.exists_runIn_false_iff]
  constructor
  · rintro ⟨n, hrun⟩
    obtain ⟨t₁, o, t₂, m, -, rfl, part, hexit⟩ := hrealizes.sound hrun
    -- A run that is cut where a behavior completes is one that is stopped there.
    cases o with
    | completed =>
      obtain rfl := hexit
      rw [List.append_nil]
      exact stoppable_reads node _ _ part
    | jumped kind => exact absurd part (hjumpless t₁ kind)
    | returned => cases hexit.2
    | stopped =>
      obtain rfl := hexit.1
      rwa [List.append_nil]
  · intro part
    obtain ⟨m, hrun⟩ := hrealizes.covers part (n := 0) (t := []) (c := false) ⟨rfl, rfl⟩
    rw [List.append_nil] at hrun
    exact ⟨m, hrun⟩

theorem run_toGraph_complete_iff {node : Node} (hjumpless : node.reads.Jumpless)
    (t : List Emission) :
    (∃ last, node.toGraph.Run node.toGraph.entry t (.complete last)) ↔
      node.reads t .completed ∨ node.reads t .returned := by
  have hrealizes := realizes_toGraph node
  rw [← Graph.exists_runIn_true_iff]
  constructor
  · rintro ⟨n, hrun⟩
    obtain ⟨t₁, o, t₂, m, -, rfl, part, hexit⟩ := hrealizes.sound hrun
    -- The survey has found no jump that leaves the tree.
    cases o with
    | completed =>
      obtain rfl := hexit
      rw [List.append_nil]
      exact .inl part
    | jumped kind => exact absurd part (hjumpless t₁ kind)
    | returned =>
      obtain rfl := hexit.1
      rw [List.append_nil]
      exact .inr part
    | stopped => cases hexit.2
  · rintro (part | part)
    · obtain ⟨m, hrun⟩ := hrealizes.covers part (n := 0) (t := []) (c := true) rfl
      rw [List.append_nil] at hrun
      exact ⟨m, hrun⟩
    · obtain ⟨m, hrun⟩ := hrealizes.covers part (n := 0) (t := []) (c := true) ⟨rfl, rfl⟩
      rw [List.append_nil] at hrun
      exact ⟨m, hrun⟩

/-- A graph that is built and not simplified is the graph of the tree, and no jump leaves it. -/
theorem eq_toGraph_of_build {node : Node} {options : Options} {log log' : Log} {g : Graph}
    (hraw : options.simplify = false) (hbuild : (node.build options).run log = .ok g log') :
    g = node.toGraph ∧ node.reads.Jumpless := by
  obtain ⟨_, log₁, hsurvey, hrest⟩ := ok_of_bind hbuild
  obtain ⟨_, log₂, -, hrest⟩ := ok_of_bind hrest
  rw [hraw] at hrest
  cases hrest
  exact ⟨rfl, jumpless_reads_of_survey node hsurvey⟩

/-- The runs of a graph that is built and not simplified are the readings of the tree: the runs up
to some point are the readings that are stopped, and the complete runs are the readings that
complete or return. -/
theorem run_iff_reads_of_build {node : Node} {options : Options} {log log' : Log} {g : Graph}
    (hraw : options.simplify = false) (hbuild : (node.build options).run log = .ok g log') :
    (∀ t, g.Run g.entry t .cut ↔ node.reads t .stopped) ∧
      ∀ t, (∃ last, g.Run g.entry t (.complete last)) ↔
        node.reads t .completed ∨ node.reads t .returned := by
  obtain ⟨rfl, hjumpless⟩ := eq_toGraph_of_build hraw hbuild
  exact ⟨run_toGraph_cut_iff hjumpless, run_toGraph_complete_iff hjumpless⟩

/-- A function whose loop is continued, left and returned from. -/
private def searching : Node :=
  intFunction "find" [declaration "n" "int" none]
    [forLoop (.decls [declaration "i" "int" (some (int 0))]) none (some (ident "i")) (compound
      [branch (ident "a") (jump .continueLoop) (some (branch (ident "b") (jump .breakLoop) none)),
        ret none, ident "dead"]),
      whileLoop (ident "c") (ret (some (ident "n")))]

theorem run_iff_reads_of_build_searching :
    Options.raw.simplify = false ∧
      ∃ log, (searching.build .raw).run {} = .ok searching.toGraph log ∧
        (∀ t, searching.toGraph.Run searching.toGraph.entry t .cut ↔ searching.reads t .stopped) ∧
          ∀ t, (∃ last, searching.toGraph.Run searching.toGraph.entry t (.complete last)) ↔
            searching.reads t .completed ∨ searching.reads t .returned := by
  have hbuild : ∃ log, (searching.build .raw).run {} = .ok searching.toGraph log := ⟨_, rfl⟩
  obtain ⟨log, hbuild⟩ := hbuild
  exact ⟨rfl, log, hbuild, run_iff_reads_of_build rfl hbuild⟩

end Node

end FlowGraph
