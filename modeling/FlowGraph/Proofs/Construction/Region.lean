import FlowGraph.Proofs.Construction.Exit
import FlowGraph.Proofs.Construction.Place
import FlowGraph.Proofs.Construction.Untouched

/-!
# The blocks that control comes to

In every piece there is a region that control enters at the start of the piece. It does not leave
the region other than by a jump or from the end of the piece, it comes to all blocks of the region
except for steps that are never taken, and no dead place has a block in it. The regions of the parts
of a node make up the region of the node.

## Main definitions

* `Graph.FinalsIn`: final blocks stay final
* `Region`: a region of a piece in the graph of the whole tree
* `PartOf`: what a part of a region shares with the whole, put together block by block
* `Node.HasRegion`, `Node.HasRegionItems`: a layout with a region wherever its piece is used

## Main results

* `Node.region_layOut`: the pieces of all nodes
* `Node.region_toGraph`: the region of a tree
-/

namespace FlowGraph

/-- The block of the step of a `for` loop. -/
def Place.IsStep (p : Place) (i : Nat) : Prop :=
  (∃ init cond step body, p.node = .forLoop init cond step body) ∧ i = p.first + 2

namespace Graph

variable {g g' g'' : Graph}

/-- The blocks that are final in `g` are so in `g'`. -/
def FinalsIn (g g' : Graph) : Prop :=
  ∀ ⦃i b⦄, g.block? i = some b → b.isFinal = true → ∃ c, g'.block? i = some c ∧ c.isFinal = true

/-- A block that ends with a return, and from which control goes nowhere else. -/
def Returns (g : Graph) (i : BlockId) : Prop :=
  ∃ b value, g.block? i = some b ∧ b.kind = .base ∧ b.statements = [.ret value] ∧ b.isFinal = true

namespace FinalsIn

theorem refl (g : Graph) : g.FinalsIn g :=
  fun _ b hb hfinal => ⟨b, hb, hfinal⟩

theorem trans (h : g.FinalsIn g') (h' : g'.FinalsIn g'') : g.FinalsIn g'' := by
  intro i b hb hfinal
  obtain ⟨c, hc, hfinal⟩ := h hb hfinal
  exact h' hc hfinal

theorem addBlock (h : g.FinalsIn g') (kind : BlockKind) : g.FinalsIn (g'.addBlock kind) := by
  intro i b hb hfinal
  obtain ⟨c, hc, hfinal⟩ := h hb hfinal
  have hne : i ≠ g'.size := Nat.ne_of_lt (block?_isSome_iff.1 (Option.isSome_of_eq_some hc))
  exact ⟨c, by rw [block?_addBlock, if_neg hne, hc], hfinal⟩

theorem modify (h : g.FinalsIn g') (block : BlockId) {f : Block → Block}
    (hf : ∀ b, b.isFinal = true → (f b).isFinal = true) : g.FinalsIn (g'.modify block f) := by
  intro i b hb hfinal
  obtain ⟨c, hc, hfinal⟩ := h hb hfinal
  rw [block?_modify, hc]
  split
  · exact ⟨f c, rfl, hf c hfinal⟩
  · exact ⟨c, rfl, hfinal⟩

theorem connect (h : g.FinalsIn g') (source target : BlockId) :
    g.FinalsIn (g'.connect source target) :=
  (h.modify target (f := (·.addPredecessor source)) fun _ => id).modify source fun _ => id

theorem connectIf (h : g.FinalsIn g') (connected : Bool) (source target : BlockId) :
    g.FinalsIn (g'.connectIf connected source target) := by
  unfold Graph.connectIf
  split
  · exact h.connect source target
  · exact h

theorem connectBranches (h : g.FinalsIn g') (cond onTrue onFalse : BlockId) :
    g.FinalsIn (g'.connectBranches cond onTrue onFalse) :=
  ((h.modify cond (f := fun b => { b with successors := [onTrue, onFalse] }) fun _ => id).modify
    onTrue (f := fun b => { b.addPredecessor cond with color := .onTrue }) fun _ => id).modify
      onFalse fun _ => id

theorem markFinalIf (h : g.FinalsIn g') (final : Bool) (block : BlockId) :
    g.FinalsIn (g'.markFinalIf final block) := by
  unfold Graph.markFinalIf
  split
  · exact h.modify block fun _ _ => rfl
  · exact h

end FinalsIn

end Graph

theorem Untouched.finalsIn {g g' : Graph} (h : Untouched g.size g g') : g.FinalsIn g' := by
  intro i b hb hfinal
  obtain ⟨entries, -, hb'⟩ :=
    h.block i b (Graph.block?_isSome_iff.1 (Option.isSome_of_eq_some hb)) hb
  exact ⟨_, hb', hfinal⟩

/-- Final blocks stay final when items are laid out behind one of them. -/
theorem Node.finalsIn_layOutItems {items : List Node} {scope : Scope} {g g' : Graph}
    {current last : BlockId} {running : Bool}
    (h : layOutItems scope g current running items = (g', last)) : g.FinalsIn g' := by
  induction items generalizing g current running with
  | nil =>
    rw [layOutItems] at h
    obtain ⟨rfl, rfl⟩ := Prod.mk.inj h
    exact .refl g
  | cons item rest ih =>
    obtain ⟨g₁, span, hg₁, h⟩ := layOutItems_cons h
    have hitem := (untouched_layOut item hg₁ (Nat.le_refl _)).finalsIn
    cases running with
    | false => exact hitem.trans (ih h)
    | true => exact (hitem.connect _ _).trans (ih h)

/-- A region `S` of a piece within some blocks of the whole graph `G`. Control enters it at the
start of the piece. -/
structure Region (G : Graph) (scope : Scope) (within : Nat → Prop) (span : Span) (passes : Bool)
    (places : List Place) (S : Nat → Prop) : Prop where
  start : S span.start
  /-- Control that passes the end comes to the end. -/
  stop : passes = true → S span.stop ∧ G.Connects span.start span.stop
  /-- Control goes nowhere from an end that it cannot pass, outside of all loops. -/
  last : passes = false → (∀ kind, scope.target? kind = none) → G.successors span.stop = []
  mem_within : ∀ i, S i → within i
  closed : ∀ i, S i → ∀ j ∈ G.successors i,
    S j ∨ (passes = true ∧ i = span.stop) ∨ ∃ kind, scope.target? kind = some j
  entered : ∀ i, S i → G.Connects span.start i ∨ ∃ p ∈ places, p.IsStep i
  sink : ∀ i, S i → G.successors i = [] →
    (passes = true ∧ i = span.stop) ∨ G.Returns i ∨ ∃ p ∈ places, p.IsStray
  dead : ∀ p ∈ places, p.Dead → ∀ i, S i → ¬p.Holds i
  /-- Other blocks are dead, or hold nothing. -/
  others : ∀ i, within i → ¬S i →
    (∃ p ∈ places, p.Dead ∧ p.Holds i) ∨ ∀ c, G.code i = some c → c.statements = []

/-- The blocks `S` are part of a whole that control enters at `first`. Control stays in the whole
until it passes the end `last` or jumps. -/
structure PartOf (G : Graph) (scope : Scope) (whole : Nat → Prop) (first last : Nat) (passes : Bool)
    (places : List Place) (S : Nat → Prop) : Prop where
  closed : ∀ i, S i → ∀ j ∈ G.successors i,
    whole j ∨ (passes = true ∧ i = last) ∨ ∃ kind, scope.target? kind = some j
  entered : ∀ i, S i → G.Connects first i ∨ ∃ p ∈ places, p.IsStep i
  sink : ∀ i, S i → G.successors i = [] →
    (passes = true ∧ i = last) ∨ G.Returns i ∨ ∃ p ∈ places, p.IsStray

namespace PartOf

variable {G : Graph} {scope : Scope} {whole S T : Nat → Prop} {first last : Nat} {passes : Bool}
  {places : List Place}

theorem mono (h : PartOf G scope whole first last passes places S) (hT : ∀ i, T i → S i) :
    PartOf G scope whole first last passes places T where
  closed i hi := h.closed i (hT i hi)
  entered i hi := h.entered i (hT i hi)
  sink i hi := h.sink i (hT i hi)

theorem or (h : PartOf G scope whole first last passes places S)
    (h' : PartOf G scope whole first last passes places T) :
    PartOf G scope whole first last passes places fun i => S i ∨ T i where
  closed i hi := hi.elim (h.closed i) (h'.closed i)
  entered i hi := hi.elim (h.entered i) (h'.entered i)
  sink i hi := hi.elim (h.sink i) (h'.sink i)

/-- A block from which control goes on to other blocks of the whole. -/
theorem step {i next : Nat} {further : List BlockId}
    (hentered : G.Connects first i ∨ ∃ p ∈ places, p.IsStep i)
    (hsuccessors : G.successors i = next :: further) (hwhole : ∀ j ∈ next :: further, whole j) :
    PartOf G scope whole first last passes places (· = i) where
  closed j hj k hk := .inl (hwhole k (hsuccessors ▸ hj ▸ hk))
  entered j hj := hj ▸ hentered
  sink j hj hnone := by
    rw [hj, hsuccessors] at hnone
    cases hnone

/-- The block where the whole ends. -/
theorem stop (h : passes = true → G.Connects first last) :
    PartOf G scope whole first last passes places fun i => passes = true ∧ i = last where
  closed _ hi _ _ := .inr (.inl hi)
  entered _ hi := .inl (hi.2 ▸ h hi.1)
  sink _ hi _ := .inl hi

end PartOf

/-- A region is part of a whole in which its jumps have targets, if its end is. -/
theorem Region.partOf {G : Graph} {scope scope' : Scope} {within whole S : Nat → Prop} {span : Span}
    {first last : Nat} {passes passes' : Bool} {places places' : List Place}
    (h : Region G scope' within span passes' places' S) (hto : G.Connects first span.start)
    (hplaces : places' ⊆ places) (hwhole : ∀ i, S i → whole i)
    (htargets : ∀ kind j, scope'.target? kind = some j →
      whole j ∨ ∃ kind, scope.target? kind = some j)
    (hstop : passes' = true → PartOf G scope whole first last passes places (· = span.stop)) :
    PartOf G scope whole first last passes places S where
  closed i hi j hj := by
    rcases h.closed i hi j hj with hj' | ⟨hpasses, rfl⟩ | ⟨kind, htarget⟩
    · exact .inl (hwhole j hj')
    · exact (hstop hpasses).closed _ rfl j hj
    · exact (htargets kind j htarget).imp_right .inr
  entered i hi := (h.entered i hi).imp hto.trans fun ⟨p, hp, hstep⟩ => ⟨p, hplaces hp, hstep⟩
  sink i hi hnone := by
    rcases h.sink i hi hnone with ⟨hpasses, rfl⟩ | hreturns | ⟨p, hp, hstray⟩
    · exact (hstop hpasses).sink _ rfl hnone
    · exact .inr (.inl hreturns)
    · exact .inr (.inr ⟨p, hplaces hp, hstray⟩)

namespace Node

/-- A way to lay out something whose piece has a region in every graph that it is used in. -/
def HasRegion (layOut : Scope → Graph → Graph × Span) (passes : Bool)
    (places : List Node → List Node → Nat → List Place) : Prop :=
  ∀ {scope : Scope} {g g' : Graph} {span : Span}, layOut scope g = (g', span) →
    ∀ {G : Graph}, Continues G g' (g.size ≤ ·) span.stop passes → g'.FinalsIn G →
      ∀ around before : List Node, before.all completes = true →
        (∀ kind, scope.target? kind = none → around.any isLoop = false) →
        ∃ S, Region G scope (fun i => g.size ≤ i ∧ i < g'.size) span passes
          (places around before g.size) S

/-- The same for the items of a compound statement, behind a block that control comes to. -/
def HasRegionItems (items : List Node) : Prop :=
  ∀ {scope : Scope} {g g' : Graph} {current last : BlockId},
    layOutItems scope g current true items = (g', last) → g.size > current →
    (∃ statements, g.code current = some ⟨.base, statements, []⟩) →
    ∀ {G : Graph}, Continues G g' (fun i => i = current ∨ g.size ≤ i) last (completesAll items) →
      g'.FinalsIn G →
      ∀ around before : List Node, before.all completes = true →
        (∀ kind, scope.target? kind = none → around.any isLoop = false) →
        ∃ S, Region G scope (fun i => i = current ∨ g.size ≤ i ∧ i < g'.size) ⟨current, last⟩
          (completesAll items) (placesOfItems Place.topDown around before g.size items) S

variable {cond onTrue body decl item : Node} {onFalse : Option Node} {items rest : List Node}
  {around before : List Node}

/-- A place in front of which every item completes is not dead. -/
theorem not_dead {node : Node} {first : Nat} (h : before.all completes = true) :
    ¬(⟨node, around, before, first⟩ : Place).Dead := by
  rw [Place.dead_iff, h]
  exact nofun

/-- A piece that consists of one block. -/
theorem region_block {G : Graph} {scope : Scope} {g : Graph} {size : Nat} {passes : Bool}
    {places : List Place} (hsize : size = g.size + 1)
    (hdead : ∀ p ∈ places, ¬p.Dead)
    (hlast : passes = false → (∀ kind, scope.target? kind = none) → G.successors g.size = [])
    (hclosed : passes = false → ∀ j ∈ G.successors g.size, ∃ kind, scope.target? kind = some j)
    (hsink : passes = false → G.successors g.size = [] →
      G.Returns g.size ∨ ∃ p ∈ places, p.IsStray) :
    Region G scope (fun i => g.size ≤ i ∧ i < size) ⟨g.size, g.size⟩ passes places
      (· = g.size) where
  start := rfl
  stop _ := ⟨rfl, .refl⟩
  last := hlast
  mem_within i hi := by
    subst hi hsize
    exact ⟨Nat.le_refl _, Nat.lt_succ_self _⟩
  closed i hi j hj := by
    subst hi
    cases hpasses : passes with
    | true => exact .inr (.inl ⟨rfl, rfl⟩)
    | false => exact .inr (.inr (hclosed hpasses j hj))
  entered i hi := .inl (hi ▸ .refl)
  sink i hi hnone := by
    subst hi
    cases hpasses : passes with
    | true => exact .inl ⟨rfl, rfl⟩
    | false => exact .inr (hsink hpasses hnone)
  dead p hp hdead' := absurd hdead' (hdead p hp)
  others i hi hne := absurd (by omega) hne

theorem hasRegion_kept {node : Node} (hplaces : ∀ around before first,
      node.placesIn Place.topDown around before first = [⟨node, around, before, first⟩]) :
    HasRegion (fun _ g => g.addSingle node false) true (node.placesIn Place.topDown) := by
  intro scope g g' span h G hG hfinals around before hbefore hscope
  obtain rfl : (g.addSingle node false).1 = g' := congrArg Prod.fst h
  obtain rfl : (⟨g.size, g.size⟩ : Span) = span := congrArg Prod.snd h
  refine ⟨_, region_block (by simp) (fun p hp => ?_) nofun nofun nofun⟩
  simp only [hplaces, List.mem_singleton] at hp
  exact hp ▸ not_dead hbefore

theorem hasRegion_return (value : Option Node) :
    HasRegion (fun _ g => g.addSingle (ret value) true) false
      ((ret value).placesIn Place.topDown) := by
  intro scope g g' span h G hG hfinals around before hbefore hscope
  obtain rfl : (g.addSingle (ret value) true).1 = g' := congrArg Prod.fst h
  obtain rfl : (⟨g.size, g.size⟩ : Span) = span := congrArg Prod.snd h
  have hcode : G.code g.size = some ⟨.base, [ret value], []⟩ := by
    rw [hG.code_eq g.size (Nat.le_refl _) (by simp) nofun, Graph.code_addSingle, if_pos rfl]
  have hnone : G.successors g.size = [] := Graph.successors_of_code hcode
  have hreturns : G.Returns g.size := by
    obtain ⟨b, hb, hbcode⟩ := Option.map_eq_some_iff.1 hcode
    obtain ⟨hkind, hstatements, -⟩ := Code.mk.inj hbcode
    have hblock : (g.addSingle (ret value) true).1.block? g.size =
        some { id := g.size, kind := .base, statements := [ret value], isFinal := true } := by
      simp [Graph.addSingle, Graph.addStatementBlock, Graph.addStatements, Graph.markFinalIf,
        Graph.block?_modify, Graph.block?_addBlock, Block.addStatements, Block.markFinal]
    obtain ⟨c, hc, hfinal⟩ := hfinals hblock rfl
    obtain rfl := Option.some.inj (hb.symm.trans hc)
    exact ⟨b, value, hb, hkind, hstatements, hfinal⟩
  refine ⟨_, region_block (by simp) (fun p hp => ?_) (fun _ _ => hnone)
    (fun _ j hj => absurd hj (by rw [hnone]; exact List.not_mem_nil)) fun _ _ => .inl hreturns⟩
  simp only [placesIn, Place.topDown, List.mem_singleton] at hp
  exact hp ▸ not_dead hbefore

theorem hasRegion_jump (kind : Jump) :
    HasRegion (fun scope g => g.addJump (scope.target? kind)) false
      ((jump kind).placesIn Place.topDown) := by
  intro scope g g' span h G hG hfinals around before hbefore hscope
  obtain rfl : (g.addJump (scope.target? kind)).1 = g' := congrArg Prod.fst h
  obtain rfl : (⟨g.size, g.size⟩ : Span) = span := congrArg Prod.snd h
  have hcode : G.code g.size = some ⟨.base, [], (scope.target? kind).toList⟩ := by
    rw [hG.code_eq g.size (Nat.le_refl _) (by simp) nofun, Graph.code_addJump]
    exact if_pos rfl
  have hsuccessors : G.successors g.size = (scope.target? kind).toList :=
    Graph.successors_of_code hcode
  refine ⟨_, region_block (by simp) (fun p hp => ?_) (fun _ hnone => ?_)
    (fun _ j hj => ⟨kind, ?_⟩) fun _ hnone => .inr ?_⟩
  · simp only [placesIn, Place.topDown, List.mem_singleton] at hp
    exact hp ▸ not_dead hbefore
  · rw [hsuccessors, hnone, Option.toList_none]
  · rw [hsuccessors] at hj
    exact Option.mem_toList.1 hj
  · rw [hsuccessors, Option.toList_eq_nil_iff] at hnone
    exact ⟨_, mem_placesIn_self _ _ _ _, hscope kind hnone, kind, rfl⟩

theorem hasRegion_absent :
    HasRegion (fun _ g => (g.addBlock .base, ⟨g.size, g.size⟩)) true fun _ _ _ => [] := by
  intro scope g g' span h G hG hfinals around before hbefore hscope
  obtain ⟨rfl, rfl⟩ := Prod.mk.inj h
  exact ⟨_, region_block (by simp) nofun nofun nofun nofun⟩

private theorem exists_of_subset {places places' : List Place} {P : Place → Prop}
    (h : places ⊆ places') : (∃ p ∈ places, P p) → ∃ p ∈ places', P p :=
  fun ⟨p, hp, hP⟩ => ⟨p, h hp, hP⟩

/-- The region of a function is that of its body with the header. -/
theorem hasRegion_function
    (hbody : HasRegion body.layOut body.completes (body.placesIn Place.topDown)) :
    HasRegion (function decl body).layOut (function decl body).completes
      ((function decl body).placesIn Place.topDown) := by
  intro scope g g' span h G hG hfinals around before hbefore hscope
  obtain ⟨g₁, inner, hg₁, rfl, rfl⟩ := layOut_function h
  have piece := piece_layOut hg₁
  rw [completes] at hG ⊢
  have hinner : Continues G g₁ ((g.addHeader decl).size ≤ ·) inner.stop body.completes :=
    hG.part (fun i hi => Nat.le_trans (by simp) hi) (by simp [Graph.closeFunction]) piece.le_stop
      fun i hi _ => Piece.code_function_body hi
  have hheader : G.successors g.size = [inner.start] := by
    refine Graph.successors_of_code ((hG.code_eq _ (Nat.le_refl _) piece.function.start_lt
      fun _ => ?_).trans piece.code_function_header)
    exact Nat.ne_of_lt (Nat.lt_of_lt_of_le (by simp) piece.le_stop)
  have hstart : G.Connects g.size inner.start :=
    .single (by rw [hheader]; exact List.mem_cons_self)
  obtain ⟨S, hS⟩ := hbody hg₁ hinner (((Graph.FinalsIn.refl g₁).connect _ _).trans hfinals)
    (function decl body :: around) [] rfl hscope
  have hsize : (g₁.closeFunction g.size inner).size = g₁.size := Graph.size_connect ..
  have hlt := piece.size_lt
  have hplaces : (function decl body).placesIn Place.topDown around before g.size =
      ⟨function decl body, around, before, g.size⟩ ::
        body.placesIn Place.topDown (function decl body :: around) [] (g.size + 1) := by
    rw [placesIn]
    rfl
  rw [Graph.size_addHeader] at hS hlt
  simp only [hplaces, hsize]
  have hsubset := List.subset_cons_self (⟨function decl body, around, before, g.size⟩ : Place)
    (body.placesIn Place.topDown (function decl body :: around) [] (g.size + 1))
  have hstop (hpasses : body.completes = true) := hstart.trans (hS.stop hpasses).2
  have hparts : PartOf G scope (fun i => i = g.size ∨ S i) g.size inner.stop body.completes _
      fun i => i = g.size ∨ S i :=
    (PartOf.step (.inl .refl) hheader (by simpa using .inr hS.start)).or
      (hS.partOf hstart hsubset (fun _ => .inr) (fun kind j htarget => .inr ⟨kind, htarget⟩)
        fun hpasses => (PartOf.stop hstop).mono fun _ hi => ⟨hpasses, hi⟩)
  refine ⟨fun i => i = g.size ∨ S i,
    { hparts with
      start := .inl rfl
      stop := fun hpasses => ⟨.inr (hS.stop hpasses).1, hstop hpasses⟩
      last := hS.last
      mem_within := ?_, dead := ?_, others := ?_ }⟩
  · rintro i (rfl | hi)
    · omega
    · have hwithin := hS.mem_within i hi
      omega
  · intro p hp hdead
    rcases List.mem_cons.1 hp with rfl | hp
    · exact absurd hdead (not_dead hbefore)
    · rintro i (rfl | hi) hholds
      · have hbounds := bounds_of_mem_placesIn body hp
        rw [Place.Holds] at hholds
        omega
      · exact hS.dead p hp hdead i hi hholds
  · intro i hi hne
    obtain ⟨hheader, hnot⟩ := not_or.1 hne
    exact (hS.others i (by omega) hnot).imp_left (exists_of_subset hsubset)

/-- The region of a loop is that of its body with the blocks around it. Control goes from the body
to the block `next`, which is the test or leads there. -/
private theorem region_loop {G : Graph} {scope : Scope} {node : Node} {first test next after : Nat}
    {low high : Nat} {inner : Span} {passes : Bool} {S : Nat → Prop}
    {places : List Place}
    (hown : ∀ i, first ≤ i ∧ i < low ↔ i = first ∨ i = test ∨ i = next ∨ i = after)
    (hlow : low ≤ high)
    (hS : Region G (scope.enterLoop next after) (fun i => low ≤ i ∧ i < high) inner passes places S)
    (hplaces : ∀ p ∈ places, low ≤ p.first) (hbefore : before.all completes = true)
    (hfirst : G.successors first = [test]) (htest : G.successors test = [inner.start, after])
    (hnext : next = test ∨ G.successors next = [test] ∧
      (⟨node, around, before, first⟩ : Place).IsStep next)
    (hback : passes = true → G.successors inner.stop = [next]) :
    Region G scope (fun i => first ≤ i ∧ i < high) ⟨first, after⟩ true
      (⟨node, around, before, first⟩ :: places) fun i => (first ≤ i ∧ i < low) ∨ S i := by
  have hmem (i : Nat) (hi : i = first ∨ i = test ∨ i = next ∨ i = after) : first ≤ i ∧ i < low :=
    (hown i).2 hi
  have hto : G.Connects first test := .single (by rw [hfirst]; exact List.mem_cons_self)
  have hinner : G.Connects first inner.start :=
    hto.tail (by rw [htest]; exact List.mem_cons_self)
  have hafter : G.Connects first after :=
    hto.tail (by rw [htest]; exact List.mem_cons_of_mem _ List.mem_cons_self)
  have hround : ∀ j ∈ [inner.start, after], (first ≤ j ∧ j < low) ∨ S j := by
    simpa using ⟨.inr hS.start, .inl (hmem after (by simp))⟩
  have hsubset := List.subset_cons_self (⟨node, around, before, first⟩ : Place) places
  have hparts : PartOf G scope (fun i => (first ≤ i ∧ i < low) ∨ S i) first after true
      (⟨node, around, before, first⟩ :: places) fun i => (first ≤ i ∧ i < low) ∨ S i := by
    refine .or (.mono (.or ?first (.or ?test (.or ?next ?after))) fun i hi => (hown i).1 hi) ?body
    case first => exact .step (.inl .refl) hfirst (by simpa using .inl (hmem test (by simp)))
    case test => exact .step (.inl hto) htest hround
    case next =>
      rcases hnext with rfl | ⟨hnext, hstep⟩
      · exact .step (.inl hto) htest hround
      · exact .step (.inr ⟨_, List.mem_cons_self, hstep⟩) hnext
          (by simpa using .inl (hmem test (by simp)))
    case after => exact (PartOf.stop fun _ => hafter).mono fun _ hi => ⟨rfl, hi⟩
    case body =>
      refine hS.partOf hinner hsubset (fun _ => .inr) (fun kind j htarget => ?_) fun hpasses => ?_
      -- A jump in the body leads to one of the blocks around it.
      · cases kind <;> cases htarget <;> exact .inl (.inl (hmem _ (by simp)))
      · exact .step (.inl (hinner.trans (hS.stop hpasses).2)) (hback hpasses)
          (by simpa using .inl (hmem next (by simp)))
  refine
    { hparts with
      start := .inl (hmem _ (.inl rfl))
      stop := fun _ => ⟨.inl (hmem _ (by simp)), hafter⟩
      last := nofun
      mem_within := ?_, dead := ?_, others := ?_ }
  · rintro i (hi | hi)
    · omega
    · have hwithin := hS.mem_within i hi
      have hfirst := hmem first (.inl rfl)
      omega
  · intro p hp hdead
    rcases List.mem_cons.1 hp with rfl | hp
    · exact absurd hdead (not_dead hbefore)
    · rintro i (hi | hi) hholds
      · have hbound := hplaces p hp
        rw [Place.Holds] at hholds
        omega
      · exact hS.dead p hp hdead i hi hholds
  · intro i hi hne
    obtain ⟨hown, hnot⟩ := not_or.1 hne
    exact (hS.others i (by omega) hnot).imp_left (exists_of_subset hsubset)

theorem hasRegion_whileLoop
    (hbody : HasRegion body.layOut body.completes (body.placesIn Place.topDown)) :
    HasRegion (whileLoop cond body).layOut (whileLoop cond body).completes
      ((whileLoop cond body).placesIn Place.topDown) := by
  intro scope g g' span h G hG hfinals around before hbefore hscope
  have hcompletes : (whileLoop cond body).completes = true := by simp only [completes]
  obtain ⟨g₁, inner, hg₁, rfl, rfl⟩ := layOut_whileLoop h
  have piece := piece_layOut hg₁
  have hsize := piece.size_lt
  rw [Graph.size_addWhile] at hsize
  have hG' : ∀ i : Nat, g.size ≤ i → i < g.size + 2 → G.code i =
      (g₁.closeWhile (g.size + 1) (g.size + 2) inner body.completes).code i := fun i hi hlt =>
    hG.code_eq i hi (by rw [Graph.size_closeWhile]; omega) fun _ => Nat.ne_of_lt hlt
  have hfirst : G.successors g.size = [g.size + 1] :=
    Graph.successors_of_code ((hG' _ (by omega) (by omega)).trans piece.code_while_first)
  have htest : G.successors (g.size + 1) = [inner.start, g.size + 2] :=
    Graph.successors_of_code ((hG' _ (by omega) (by omega)).trans piece.code_while_test)
  obtain ⟨hG₁, hedge⟩ := hG.inside piece (by simp) (by simp)
    (fun i hi _ => by simp at hi; exact Nat.ne_of_gt hi) (fun i hi _ => Piece.code_while_body hi)
    piece.code_while_stop
  have hfinals₁ : g₁.FinalsIn (g₁.closeWhile (g.size + 1) (g.size + 2) inner body.completes) :=
    ((Graph.FinalsIn.refl g₁).connectBranches _ _ _).connectIf _ _ _
  obtain ⟨S, hS⟩ := hbody hg₁ hG₁ (hfinals₁.trans hfinals) (whileLoop cond body :: around) [] rfl
    nofun
  rw [Graph.size_addWhile] at hS
  have hplaces : (whileLoop cond body).placesIn Place.topDown around before g.size =
      ⟨whileLoop cond body, around, before, g.size⟩ ::
        body.placesIn Place.topDown (whileLoop cond body :: around) [] (g.size + 3) := by
    rw [placesIn]
    rfl
  simp only [hplaces, hcompletes, Graph.size_closeWhile]
  refine ⟨_, region_loop (fun i => by omega) (Nat.le_of_lt hsize) hS
    (fun p hp => (bounds_of_mem_placesIn body hp).1) hbefore hfirst htest (.inl rfl)
    fun hpasses => ?_⟩
  obtain ⟨_, hcode⟩ := hedge hpasses
  exact Graph.successors_of_code hcode

theorem hasRegion_forLoop {init : ForInit} {cond step : Option Node}
    (hbody : HasRegion body.layOut body.completes (body.placesIn Place.topDown)) :
    HasRegion (forLoop init cond step body).layOut (forLoop init cond step body).completes
      ((forLoop init cond step body).placesIn Place.topDown) := by
  intro scope g g' span h G hG hfinals around before hbefore hscope
  have hcompletes : (forLoop init cond step body).completes = true := by simp only [completes]
  obtain ⟨g₁, inner, hg₁, rfl, rfl⟩ := layOut_forLoop h
  have piece := piece_layOut hg₁
  have hsize := piece.size_lt
  rw [Graph.size_addFor] at hsize
  have hG' : ∀ i : Nat, g.size ≤ i → i < g.size + 3 → G.code i =
      (g₁.closeFor g.size (g.size + 1) (g.size + 2) (g.size + 3) inner body.completes).code i :=
    fun i hi hlt => hG.code_eq i hi (by rw [Graph.size_closeFor]; omega) fun _ => Nat.ne_of_lt hlt
  have hfirst : G.successors g.size = [g.size + 1] :=
    Graph.successors_of_code ((hG' _ (by omega) (by omega)).trans piece.code_for_first)
  have htest : G.successors (g.size + 1) = [inner.start, g.size + 3] :=
    Graph.successors_of_code ((hG' _ (by omega) (by omega)).trans piece.code_for_test)
  have hnext : G.successors (g.size + 2) = [g.size + 1] :=
    Graph.successors_of_code ((hG' _ (by omega) (by omega)).trans piece.code_for_next)
  obtain ⟨hG₁, hedge⟩ := hG.inside piece (by simp) (by simp)
    (fun i hi _ => by simp at hi; exact Nat.ne_of_gt hi) (fun i hi _ => Piece.code_for_body hi)
    piece.code_for_stop
  have hfinals₁ : g₁.FinalsIn
      (g₁.closeFor g.size (g.size + 1) (g.size + 2) (g.size + 3) inner body.completes) :=
    ((((Graph.FinalsIn.refl g₁).connect _ _).connectBranches _ _ _).connectIf _ _ _).connect _ _
  obtain ⟨S, hS⟩ := hbody hg₁ hG₁ (hfinals₁.trans hfinals)
    (forLoop init cond step body :: around) [] rfl nofun
  rw [Graph.size_addFor] at hS
  have hplaces : (forLoop init cond step body).placesIn Place.topDown around before g.size =
      ⟨forLoop init cond step body, around, before, g.size⟩ ::
        body.placesIn Place.topDown (forLoop init cond step body :: around) [] (g.size + 4) := by
    rw [placesIn]
    rfl
  simp only [hplaces, hcompletes, Graph.size_closeFor]
  refine ⟨_, region_loop (fun i => by omega) (Nat.le_of_lt hsize) hS
    (fun p hp => (bounds_of_mem_placesIn body hp).1) hbefore hfirst htest
    (.inr ⟨hnext, ⟨init, cond, step, body, rfl⟩, rfl⟩) fun hpasses => ?_⟩
  obtain ⟨_, hcode⟩ := hedge hpasses
  exact Graph.successors_of_code hcode

/-- The blocks in front of two branches, the regions of these, and the block in which they join if
control passes one of them. -/
def branchRegion (first join : Nat) (passes : Bool) (S T : Nat → Prop) (i : Nat) : Prop :=
  i = first ∨ i = first + 1 ∨ S i ∨ T i ∨ (passes = true ∧ i = join)

/-- The region of a conditional is made up of those of its branches, the blocks in front of them and
the block in which they join, if one of them leads there. -/
private theorem region_branch {G : Graph} {scope : Scope} {node : Node} {first middle join : Nat}
    {yes no : Span} {yesPasses noPasses : Bool} {S T : Nat → Prop} {placesYes placesNo : List Place}
    (hmiddle : first + 2 ≤ middle) (hjoin : middle ≤ join)
    (hS : Region G scope (fun i => first + 2 ≤ i ∧ i < middle) yes yesPasses placesYes S)
    (hT : Region G scope (fun i => middle ≤ i ∧ i < join) no noPasses placesNo T)
    (hyes : ∀ p ∈ placesYes, first + 2 ≤ p.first ∧ p.first + p.node.blockCount ≤ middle)
    (hno : ∀ p ∈ placesNo, middle ≤ p.first ∧ p.first + p.node.blockCount ≤ join)
    (hbefore : before.all completes = true) (hfirst : G.successors first = [first + 1])
    (htest : G.successors (first + 1) = [yes.start, no.start])
    (hyesJoin : yesPasses = true → G.successors yes.stop = [join])
    (hnoJoin : noPasses = true → G.successors no.stop = [join])
    (hlast : (yesPasses || noPasses) = false → G.successors join = [])
    (hempty : ∀ c, G.code join = some c → c.statements = []) :
    Region G scope (fun i => first ≤ i ∧ i < join + 1) ⟨first, join⟩ (yesPasses || noPasses)
      (⟨node, around, before, first⟩ :: (placesYes ++ placesNo))
      (branchRegion first join (yesPasses || noPasses) S T) := by
  have hto : G.Connects first (first + 1) := .single (by rw [hfirst]; exact List.mem_cons_self)
  have htoYes : G.Connects first yes.start := hto.tail (by rw [htest]; exact List.mem_cons_self)
  have htoNo : G.Connects first no.start :=
    hto.tail (by rw [htest]; exact List.mem_cons_of_mem _ List.mem_cons_self)
  have htoJoin (hpasses : (yesPasses || noPasses) = true) : G.Connects first join := by
    rcases Bool.or_eq_true_iff.1 hpasses with hpasses | hpasses
    · exact (htoYes.trans (hS.stop hpasses).2).tail
        (by rw [hyesJoin hpasses]; exact List.mem_cons_self)
    · exact (htoNo.trans (hT.stop hpasses).2).tail
        (by rw [hnoJoin hpasses]; exact List.mem_cons_self)
  have hsubsetYes :
      placesYes ⊆ (⟨node, around, before, first⟩ : Place) :: (placesYes ++ placesNo) :=
    fun _ hp => List.mem_cons_of_mem _ (List.mem_append_left _ hp)
  have hsubsetNo : placesNo ⊆ (⟨node, around, before, first⟩ : Place) :: (placesYes ++ placesNo) :=
    fun _ hp => List.mem_cons_of_mem _ (List.mem_append_right _ hp)
  have hparts : PartOf G scope (branchRegion first join (yesPasses || noPasses) S T) first join
      (yesPasses || noPasses) (⟨node, around, before, first⟩ :: (placesYes ++ placesNo))
      (branchRegion first join (yesPasses || noPasses) S T) := by
    refine .or ?first (.or ?test (.or ?yes (.or ?no (.stop htoJoin))))
    case first => exact .step (.inl .refl) hfirst (by simp [branchRegion])
    case test => exact .step (.inl hto) htest (by simp [branchRegion, hS.start, hT.start])
    case yes =>
      exact hS.partOf htoYes hsubsetYes (fun _ hi => .inr (.inr (.inl hi)))
        (fun kind j htarget => .inr ⟨kind, htarget⟩) fun hpasses =>
          .step (.inl (htoYes.trans (hS.stop hpasses).2)) (hyesJoin hpasses)
            (by simp [branchRegion, hpasses])
    case no =>
      exact hT.partOf htoNo hsubsetNo (fun _ hi => .inr (.inr (.inr (.inl hi))))
        (fun kind j htarget => .inr ⟨kind, htarget⟩) fun hpasses =>
          .step (.inl (htoNo.trans (hT.stop hpasses).2)) (hnoJoin hpasses)
            (by simp [branchRegion, hpasses])
  refine
    { hparts with
      start := .inl rfl
      stop := fun hpasses => ⟨.inr (.inr (.inr (.inr ⟨hpasses, rfl⟩))), htoJoin hpasses⟩
      last := fun hpasses _ => hlast hpasses
      mem_within := ?_, dead := ?_, others := ?_ }
  · rintro i (rfl | rfl | hi | hi | ⟨-, rfl⟩)
    · omega
    · omega
    · have hwithin := hS.mem_within i hi
      omega
    · have hwithin := hT.mem_within i hi
      omega
    · omega
  · intro p hp hdead i hi hholds
    rw [List.mem_cons, List.mem_append] at hp
    rcases hp with rfl | hp | hp
    · exact not_dead hbefore hdead
    -- The blocks of a place in one branch are none of the other one.
    · have hbounds := hyes p hp
      rw [Place.Holds] at hholds
      rcases hi with rfl | rfl | hi | hi | ⟨-, rfl⟩
      · omega
      · omega
      · exact hS.dead p hp hdead i hi hholds
      · have hwithin := hT.mem_within i hi
        omega
      · omega
    · have hbounds := hno p hp
      rw [Place.Holds] at hholds
      rcases hi with rfl | rfl | hi | hi | ⟨-, rfl⟩
      · omega
      · omega
      · have hwithin := hS.mem_within i hi
        omega
      · exact hT.dead p hp hdead i hi hholds
      · omega
  · intro i hi hne
    simp only [branchRegion, not_or] at hne
    obtain ⟨hneFirst, hneTest, hnotYes, hnotNo, -⟩ := hne
    rcases Nat.lt_or_ge i middle with hlt | hge
    · exact (hS.others i (by omega) hnotYes).imp_left (exists_of_subset hsubsetYes)
    · rcases Nat.lt_or_ge i join with hlt | hge
      · exact (hT.others i (by omega) hnotNo).imp_left (exists_of_subset hsubsetNo)
      · obtain rfl : i = join := by omega
        exact .inr hempty

theorem hasRegion_branch
    (hyes : HasRegion onTrue.layOut onTrue.completes (onTrue.placesIn Place.topDown))
    (hno : HasRegion (fun scope g => layOutOptional scope g onFalse) (completesOptional onFalse)
      fun around _ first => placesOfOptional Place.topDown around first onFalse) :
    HasRegion (branch cond onTrue onFalse).layOut (branch cond onTrue onFalse).completes
      ((branch cond onTrue onFalse).placesIn Place.topDown) := by
  intro scope g g' span h G hG hfinals around before hbefore hscope
  obtain ⟨g₁, yes, g₂, no, hg₁, hg₂, rfl, rfl⟩ := layOut_branch h
  have pieceYes := piece_layOut hg₁
  have pieceNo := piece_layOutOptional hg₂
  have hsizeYes := pieceYes.size_lt
  have hsizeNo := pieceNo.size_lt
  have hcountYes := size_layOut onTrue hg₁
  rw [Graph.size_addTest] at hsizeYes hcountYes
  rw [completes] at hG ⊢
  have hG' : ∀ i : Nat, g.size ≤ i → i < g₂.size → G.code i = (g₂.addJoin (g.size + 1) yes no
      onTrue.completes (completesOptional onFalse)).code i := fun i hi hlt =>
    hG.code_eq i hi (by rw [Graph.size_addJoin]; omega) fun _ => Nat.ne_of_lt hlt
  have hfirst : G.successors g.size = [g.size + 1] :=
    Graph.successors_of_code ((hG' _ (by omega) (by omega)).trans
      (pieceYes.code_branch_first pieceNo))
  have htest : G.successors (g.size + 1) = [yes.start, no.start] :=
    Graph.successors_of_code ((hG' _ (by omega) (by omega)).trans
      (pieceYes.code_branch_test pieceNo))
  obtain ⟨joinSuccessors, hjoin⟩ := hG.exists_code (by omega) (pieceYes.code_branch_join pieceNo)
  obtain ⟨hG₁, hedge₁⟩ := hG.inside pieceYes (by simp)
    (by rw [Graph.size_addJoin]; exact Nat.le_succ_of_le (Nat.le_of_lt hsizeNo))
    (fun i _ hi => Nat.ne_of_lt (Nat.lt_trans hi hsizeNo))
    (fun i => pieceYes.code_branch_yes pieceNo) (pieceYes.code_branch_yes_stop pieceNo)
  obtain ⟨hG₂, hedge₂⟩ := hG.inside pieceNo (by omega) (by simp) (fun i _ hi => Nat.ne_of_lt hi)
    (fun i => pieceYes.code_branch_no pieceNo) (pieceYes.code_branch_no_stop pieceNo)
  have hfinals₂ : g₂.FinalsIn
      (g₂.addJoin (g.size + 1) yes no onTrue.completes (completesOptional onFalse)) :=
    (((((Graph.FinalsIn.refl g₂).addBlock _).connectBranches _ _ _).connectIf _ _ _).connectIf _ _
      _).markFinalIf _ _
  have hfinals₁ : g₁.FinalsIn g₂ :=
    (untouched_layOutOptional onFalse hg₂ (Nat.le_refl _)).finalsIn
  obtain ⟨S, hS⟩ := hyes hg₁ hG₁ (hfinals₁.trans (hfinals₂.trans hfinals))
    (branch cond onTrue onFalse :: around) [] rfl hscope
  obtain ⟨T, hT⟩ := hno hg₂ hG₂ (hfinals₂.trans hfinals)
    (branch cond onTrue onFalse :: around) [] rfl hscope
  rw [Graph.size_addTest] at hS
  have hplaces : (branch cond onTrue onFalse).placesIn Place.topDown around before g.size =
      ⟨branch cond onTrue onFalse, around, before, g.size⟩ ::
        (onTrue.placesIn Place.topDown (branch cond onTrue onFalse :: around) [] (g.size + 2) ++
          placesOfOptional Place.topDown (branch cond onTrue onFalse :: around) g₁.size
            onFalse) := by
    rw [placesIn, hcountYes]
    rfl
  simp only [hplaces, Graph.size_addJoin]
  refine ⟨_, region_branch (by omega) (Nat.le_of_lt hsizeNo) hS hT (fun p hp => ?_) (fun p hp => ?_)
    hbefore hfirst htest (fun hpasses => ?_) (fun hpasses => ?_) (fun hpasses => ?_) fun c hc => ?_⟩
  · have hbounds := bounds_of_mem_placesIn onTrue hp
    rwa [← hcountYes] at hbounds
  · have hbounds := bounds_of_mem_placesOfOptional onFalse hp
    rwa [← size_layOutOptional onFalse hg₂] at hbounds
  · obtain ⟨_, hcode⟩ := hedge₁ hpasses
    exact Graph.successors_of_code hcode
  · obtain ⟨_, hcode⟩ := hedge₂ hpasses
    exact Graph.successors_of_code hcode
  · refine Graph.successors_of_code ((hG.code_eq g₂.size (by omega) (by simp) fun h => ?_).trans
      (pieceYes.code_branch_join pieceNo))
    exact nomatch hpasses.symm.trans h
  · rw [hjoin] at hc
    obtain rfl := Option.some.inj hc
    rfl

theorem hasRegionItems_nil : HasRegionItems [] := by
  intro scope g g' current last h hcurrent _ G hG _ around before _ _
  rw [layOutItems] at h
  obtain ⟨rfl, rfl⟩ := Prod.mk.inj h
  rw [completesAll]
  exact ⟨(· = current),
    { start := rfl
      stop := fun _ => ⟨rfl, .refl⟩
      last := nofun
      mem_within := fun i hi => .inl hi
      closed := fun i hi j _ => .inr (.inl ⟨rfl, hi⟩)
      entered := fun i hi => .inl (hi ▸ .refl)
      sink := fun i hi _ => .inl ⟨rfl, hi⟩
      dead := by simp [placesOfItems]
      others := fun i hi hne => absurd (hi.resolve_right (by omega)) hne }⟩

/-- Behind an item whose end control cannot pass, every item is dead. -/
theorem exists_dead_of_layOutItems {scope : Scope} {g g' : Graph} {current last : BlockId}
    (h : layOutItems scope g current false items = (g', last))
    (hbefore : before.all completes = false) {i : Nat} (hi : g.size ≤ i) (hlt : i < g'.size) :
    ∃ p ∈ placesOfItems Place.topDown around before g.size items, p.Dead ∧ p.Holds i := by
  induction items generalizing g before with
  | nil =>
    rw [layOutItems] at h
    obtain ⟨rfl, rfl⟩ := Prod.mk.inj h
    omega
  | cons item rest ih =>
    obtain ⟨g₁, span, hg₁, h⟩ := layOutItems_cons h
    have hcount := size_layOut item hg₁
    rw [placesOfItems, ← hcount]
    rcases Nat.lt_or_ge i g₁.size with hitem | hrest
    · refine ⟨_, List.mem_append_left _ (mem_placesIn_self ..), Place.dead_iff.2 hbefore, hi, ?_⟩
      rwa [← hcount]
    · have hbefore' : (before ++ [item]).all completes = false := by
        rw [List.all_append, hbefore, Bool.false_and]
      obtain ⟨p, hp, hdead⟩ := ih h hbefore' hrest
      exact ⟨p, List.mem_append_right _ hp, hdead⟩

/-- The region of an item whose end control cannot pass, with the block in front of it. -/
private theorem region_cons_of_abrupt {G : Graph} {scope : Scope} {size middle high current : Nat}
    {span : Span} {places placesRest : List Place} {S : Nat → Prop} (hcurrent : current < size)
    (hcurrentG : G.successors current = [span.start])
    (hS : Region G scope (fun i => size ≤ i ∧ i < middle) span false places S)
    (hplaces : ∀ p ∈ places, size ≤ p.first) (hplacesRest : ∀ p ∈ placesRest, middle ≤ p.first)
    (hhigh : middle ≤ high)
    (hrest : ∀ i, middle ≤ i → i < high → ∃ p ∈ placesRest, p.Dead ∧ p.Holds i) :
    Region G scope (fun i => i = current ∨ size ≤ i ∧ i < high) ⟨current, span.stop⟩ false
      (places ++ placesRest) fun i => i = current ∨ S i := by
  have hto : G.Connects current span.start :=
    .single (by rw [hcurrentG]; exact List.mem_cons_self)
  have hstartWithin : size ≤ span.start ∧ middle > span.start := hS.mem_within _ hS.start
  have hsubset : places ⊆ places ++ placesRest := List.subset_append_left _ _
  have hparts : PartOf G scope (fun i => i = current ∨ S i) current span.stop false
      (places ++ placesRest) fun i => i = current ∨ S i :=
    (PartOf.step (.inl .refl) hcurrentG (by simpa using .inr hS.start)).or
      (hS.partOf hto hsubset (fun _ => .inr) (fun kind j htarget => .inr ⟨kind, htarget⟩) nofun)
  refine
    { hparts with
      start := .inl rfl, stop := nofun, last := hS.last
      mem_within := ?_, dead := ?_, others := ?_ }
  · rintro i (rfl | hi)
    · exact .inl rfl
    · have hwithin := hS.mem_within i hi
      exact .inr (by omega)
  · intro p hp hdead i hi hholds
    rcases List.mem_append.1 hp with hp | hp
    · rcases hi with rfl | hi
      · have hbound := hplaces p hp
        rw [Place.Holds] at hholds
        omega
      · exact hS.dead p hp hdead i hi hholds
    · have hbound := hplacesRest p hp
      rw [Place.Holds] at hholds
      rcases hi with rfl | hi
      · omega
      · have hwithin := hS.mem_within i hi
        omega
  · intro i hi hne
    obtain ⟨hne, hnot⟩ := not_or.1 hne
    have hi := hi.resolve_left hne
    rcases Nat.lt_or_ge i middle with hlt | hge
    · exact (hS.others i ⟨hi.1, hlt⟩ hnot).imp_left (exists_of_subset hsubset)
    · exact .inl (exists_of_subset (List.subset_append_right _ _) (hrest i hge hi.2))

/-- The region of an item with the block in front of it, and that of the items behind it. -/
private theorem region_cons {G : Graph} {scope : Scope} {size middle high current last : Nat}
    {span : Span} {passes : Bool} {places placesRest : List Place} {S T : Nat → Prop}
    (hcurrent : current < size) (hcurrentG : G.successors current = [span.start])
    (hS : Region G scope (fun i => size ≤ i ∧ i < middle) span true places S)
    (hT : Region G scope (fun i => i = span.stop ∨ middle ≤ i ∧ i < high) ⟨span.stop, last⟩ passes
      placesRest T)
    (hplaces : ∀ p ∈ places, size ≤ p.first ∧ p.first + p.node.blockCount ≤ middle)
    (hplacesRest : ∀ p ∈ placesRest, middle ≤ p.first) (hhigh : middle ≤ high) :
    Region G scope (fun i => i = current ∨ size ≤ i ∧ i < high) ⟨current, last⟩ passes
      (places ++ placesRest) fun i => i = current ∨ S i ∨ T i := by
  have hto : G.Connects current span.start :=
    .single (by rw [hcurrentG]; exact List.mem_cons_self)
  have hstop : G.Connects current span.stop := hto.trans (hS.stop rfl).2
  have hsubset : places ⊆ places ++ placesRest := List.subset_append_left _ _
  have hsubsetRest : placesRest ⊆ places ++ placesRest := List.subset_append_right _ _
  have hstopWithin : size ≤ span.stop ∧ middle > span.stop := hS.mem_within _ (hS.stop rfl).1
  have hlast (hpasses : passes = true) := hstop.trans (hT.stop hpasses).2
  have hrestPart : PartOf G scope (fun i => i = current ∨ S i ∨ T i) current last passes
      (places ++ placesRest) T :=
    hT.partOf hstop hsubsetRest (fun _ hi => .inr (.inr hi))
      (fun kind j htarget => .inr ⟨kind, htarget⟩)
      fun hpasses => (PartOf.stop hlast).mono fun _ hi => ⟨hpasses, hi⟩
  have hparts : PartOf G scope (fun i => i = current ∨ S i ∨ T i) current last passes
      (places ++ placesRest) fun i => i = current ∨ S i ∨ T i := by
    refine .or ?current (.or ?item hrestPart)
    case current => exact .step (.inl .refl) hcurrentG (by simp [hS.start])
    -- Control goes on from the end of the item as the region behind it says.
    case item =>
      exact hS.partOf hto hsubset (fun _ hi => .inr (.inl hi))
        (fun kind j htarget => .inr ⟨kind, htarget⟩)
        fun _ => hrestPart.mono fun _ hi => hi ▸ hT.start
  refine
    { hparts with
      start := .inl rfl
      stop := fun hpasses => ⟨.inr (.inr (hT.stop hpasses).1), hlast hpasses⟩
      last := hT.last
      mem_within := ?_, dead := ?_, others := ?_ }
  · rintro i (rfl | hi | hi)
    · exact .inl rfl
    · have hwithin := hS.mem_within i hi
      exact .inr (by omega)
    · rcases hT.mem_within i hi with rfl | hwithin
      · exact .inr (by omega)
      · exact .inr (by omega)
  · intro p hp hdead i hi hholds
    rcases List.mem_append.1 hp with hp | hp
    · have hbounds := hplaces p hp
      rcases hi with rfl | hi | hi
      · rw [Place.Holds] at hholds
        omega
      · exact hS.dead p hp hdead i hi hholds
      · rcases hT.mem_within i hi with rfl | hwithin
        · exact hS.dead p hp hdead _ (hS.stop rfl).1 hholds
        · rw [Place.Holds] at hholds
          omega
    · have hbound := hplacesRest p hp
      rcases hi with rfl | hi | hi
      · rw [Place.Holds] at hholds
        omega
      · have hwithin := hS.mem_within i hi
        rw [Place.Holds] at hholds
        omega
      · exact hT.dead p hp hdead i hi hholds
  · intro i hi hne
    simp only [not_or] at hne
    obtain ⟨hne, hnot, hnotRest⟩ := hne
    have hi := hi.resolve_left hne
    rcases Nat.lt_or_ge i middle with hlt | hge
    · exact (hS.others i ⟨hi.1, hlt⟩ hnot).imp_left (exists_of_subset hsubset)
    · exact (hT.others i (.inr ⟨hge, hi.2⟩) hnotRest).imp_left (exists_of_subset hsubsetRest)

theorem hasRegionItems_cons
    (hitem : HasRegion item.layOut item.completes (item.placesIn Place.topDown))
    (hrest : HasRegionItems rest) : HasRegionItems (item :: rest) := by
  intro scope g g' current last h hcurrent hopen G hG hfinals around before hbefore hscope
  obtain ⟨g₁, span, hg₁, h⟩ := layOutItems_cons h
  simp only [if_true] at h
  have piece := piece_layOut hg₁
  have hcount := size_layOut item hg₁
  obtain ⟨statements, hcode⟩ := hopen
  have hstop : span.stop ≠ current := Nat.ne_of_gt (Nat.lt_of_lt_of_le hcurrent piece.le_stop)
  have hopen' : item.completes = true → ∃ statements,
      (g₁.connect current span.start).code span.stop = some ⟨.base, statements, []⟩ :=
    fun hcompletes => by
      rw [g₁.code_connect_of_ne _ hstop]
      exact piece.code_stop hcompletes
  have hsize : (g₁.connect current span.start).size = g₁.size := Graph.size_connect ..
  have chain := chain_layOutItems h (by simpa using piece.stop_lt) hopen'
  have hle : g₁.size ≤ g'.size := hsize ▸ chain.size_le
  rw [completesAll_cons] at hG ⊢
  have hcurrentG : G.successors current = [span.start] := by
    have hchain := piece.chain_connected chain hcurrent hcode
    refine Graph.successors_of_code ((hG.code_eq current (.inl rfl)
      (Nat.lt_of_lt_of_le hcurrent hchain.size_le) fun _ => ?_).trans
        (piece.code_current_of_chain chain hcurrent hcode))
    exact Nat.ne_of_lt (Nat.lt_of_lt_of_le hcurrent (piece.le_last_of_chain chain))
  have hfinals₁ : g₁.FinalsIn g' :=
    ((Graph.FinalsIn.refl g₁).connect _ _).trans (finalsIn_layOutItems h)
  obtain ⟨S, hS⟩ := hitem hg₁ (continues_item piece chain hcurrent hG) (hfinals₁.trans hfinals)
    around before hbefore hscope
  rw [placesOfItems, ← hcount]
  have hplaces (p : Place) (hp : p ∈ item.placesIn Place.topDown around before g.size) :
      g.size ≤ p.first ∧ p.first + p.node.blockCount ≤ g₁.size :=
    hcount ▸ bounds_of_mem_placesIn item hp
  have hplacesRest (p : Place)
      (hp : p ∈ placesOfItems Place.topDown around (before ++ [item]) g₁.size rest) :
      g₁.size ≤ p.first :=
    (bounds_of_mem_placesOfItems rest hp).1
  cases hcompletes : item.completes with
  | false =>
    rw [hcompletes] at h hS
    obtain rfl := layOutItems_unreached h
    exact ⟨_, region_cons_of_abrupt hcurrent hcurrentG hS (fun p hp => (hplaces p hp).1)
      hplacesRest hle fun i hi hlt => hsize ▸ exists_dead_of_layOutItems h
        (by simp [hcompletes]) (hsize ▸ hi) hlt⟩
  | true =>
    have hrestG := continues_rest piece chain hG
    rw [hcompletes] at h hS
    rw [hcompletes, Bool.true_and] at hrestG
    obtain ⟨T, hT⟩ := hrest h (hsize ▸ piece.stop_lt) (hopen' hcompletes) hrestG hfinals around
      (before ++ [item]) (by rw [List.all_append, hbefore]; simp [hcompletes]) hscope
    rw [hsize] at hT
    exact ⟨_, region_cons hcurrent hcurrentG hS hT hplaces hplacesRest hle⟩

/-- The region of a compound statement is that of its items behind its first block. -/
theorem hasRegion_compound (hitems : HasRegionItems items) :
    HasRegion (compound items).layOut (compound items).completes
      ((compound items).placesIn Place.topDown) := by
  intro scope g g' span h G hG hfinals around before hbefore hscope
  have hlt := (piece_layOut h).size_lt
  have hle := (piece_layOut h).le_stop
  obtain ⟨last, hlast, rfl⟩ := layOut_compound h
  have hle : g.size ≤ last := hle
  have hfirst := g.code_addBlock_self .base
  rw [completes] at hG ⊢
  obtain ⟨S, hS⟩ := hitems hlast (by simp) ⟨[], hfirst⟩
    (hG.part (fun i hi => by simp at hi; omega) (Nat.le_refl _) (by simp; omega) fun _ _ _ => rfl)
    hfinals (compound items :: around) [] rfl hscope
  rw [Graph.size_addBlock] at hS
  have hplaces : (compound items).placesIn Place.topDown around before g.size =
      ⟨compound items, around, before, g.size⟩ ::
        placesOfItems Place.topDown (compound items :: around) [] (g.size + 1) items := by
    rw [placesIn]
    rfl
  have hsubset := List.subset_cons_self (⟨compound items, around, before, g.size⟩ : Place)
    (placesOfItems Place.topDown (compound items :: around) [] (g.size + 1) items)
  simp only [hplaces]
  refine ⟨S,
    { start := hS.start, stop := hS.stop, last := hS.last, closed := hS.closed
      mem_within := fun i hi => ?_
      entered := fun i hi => (hS.entered i hi).imp_right (exists_of_subset hsubset)
      sink := fun i hi hnone =>
        (hS.sink i hi hnone).imp_right (.imp_right (exists_of_subset hsubset))
      dead := fun p hp hdead => ?_
      others := fun i hi hnot =>
        (hS.others i (by omega) hnot).imp_left (exists_of_subset hsubset) }⟩
  · have hwithin := hS.mem_within i hi
    omega
  · rcases List.mem_cons.1 hp with rfl | hp
    · exact absurd hdead (not_dead hbefore)
    · exact hS.dead p hp hdead

private theorem hasRegion_of_eq {node : Node} {layOut' : Scope → Graph → Graph × Span}
    {passes : Bool} (hlayOut : ∀ scope g, node.layOut scope g = layOut' scope g)
    (hcompletes : node.completes = passes)
    (h : HasRegion layOut' passes (node.placesIn Place.topDown)) :
    HasRegion node.layOut node.completes (node.placesIn Place.topDown) := by
  subst hcompletes
  exact fun hspan => h ((hlayOut _ _).symm.trans hspan)

mutual

/-- The piece of a node has a region. -/
theorem region_layOut : ∀ node : Node,
    HasRegion node.layOut node.completes (node.placesIn Place.topDown)
  | function _ body => hasRegion_function (region_layOut body)
  | compound items => hasRegion_compound (region_layOutItems items)
  | branch _ onTrue onFalse =>
    hasRegion_branch (region_layOut onTrue) (region_layOutOptional onFalse)
  | whileLoop _ body => hasRegion_whileLoop (region_layOut body)
  | forLoop _ _ _ body => hasRegion_forLoop (region_layOut body)
  | ret value =>
    hasRegion_of_eq (fun _ _ => by rw [layOut]) (by rw [completes])
      (hasRegion_return value)
  | jump kind =>
    hasRegion_of_eq (fun _ _ => by rw [layOut]) (by rw [completes])
      (hasRegion_jump kind)
  | declarator .. | parameters _ | declaration .. | binary .. | unary .. | assignment ..
  | ident _ | constant .. | call .. =>
    hasRegion_of_eq (fun _ _ => by simp only [layOut]) (by simp only [completes])
      (hasRegion_kept fun _ _ _ => by simp only [placesIn]; rfl)

/-- The pieces of the items behind a block have a region. -/
theorem region_layOutItems : ∀ items : List Node, HasRegionItems items
  | [] => hasRegionItems_nil
  | item :: rest => hasRegionItems_cons (region_layOut item) (region_layOutItems rest)

/-- The piece of a branch has a region. -/
theorem region_layOutOptional : ∀ node : Option Node,
    HasRegion (fun scope g => layOutOptional scope g node) (completesOptional node)
      fun around _ first => placesOfOptional Place.topDown around first node
  | none => by
    simp only [layOutOptional, completesOptional, placesOfOptional]
    exact hasRegion_absent
  | some node => by
    intro h G hG hfinals around before _ hscope
    simp only [layOutOptional] at h
    rw [completesOptional] at hG ⊢
    simp only [placesOfOptional]
    exact region_layOut node h hG hfinals around [] rfl hscope

end

/-- The blocks of a tree that control comes to, within those other than the one set aside for
returns. -/
theorem region_toGraph (node : Node) :
    ∃ S, Region node.toGraph (.top 0) (fun i => 1 ≤ i ∧ i < node.toGraph.size)
      ⟨node.toGraph.entry, node.toGraph.exit⟩ node.completes node.places S := by
  rcases hlay : node.layOut (.top 0) (({} : Graph).addBlock .base) with ⟨g, span⟩
  have hgraph : node.toGraph =
      { g with name := node.functionName?, entry := span.start, exit := span.stop } := by
    rw [toGraph, hlay]
  rw [hgraph]
  -- The name and the bounds that are set in the end are not seen by the layout.
  have hcontinues : Continues
      { g with name := node.functionName?, entry := span.start, exit := span.stop } g
      ((({} : Graph).addBlock .base).size ≤ ·) span.stop node.completes :=
    ⟨fun _ _ _ _ => rfl, fun _ c hc => ⟨c.successors, hc⟩⟩
  exact region_layOut node hlay hcontinues (fun _ b hb hfinal => ⟨b, hb, hfinal⟩) [] [] rfl
    fun _ _ => rfl

end Node

end FlowGraph
