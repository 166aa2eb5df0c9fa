import FlowGraph.Proofs.Construction.Final
import FlowGraph.Proofs.Construction.Place
import FlowGraph.Proofs.Simplification.Collapsed

/-!
# Straight code

A function whose body nests compound statements, but neither branches nor jumps except by returning,
becomes a single block. Its layout is a strand: each compound statement starts with an empty block,
each statement has a block of its own, and what stands after a return is not connected. The strand
holds the statements in the order of the text up to the first return, and simplification collapses
it.

## Main definitions

* `Node.isStraight`: compound statements over nodes without control flow but returns
* `Node.flat`: the statements that nested compound statements hold
* `Node.upToReturn`: what is run of a list of statements

## Main results

* `Node.exists_laid_layOut`: the layout of straight code is a strand
* `Node.build_straight`: straight code is built as a single block
-/

namespace FlowGraph

namespace Node

/-- Whether a node is a return. -/
def isReturn : Node → Bool
  | ret _ => true
  | _ => false

mutual

/-- Whether a node is a nesting of compound statements over nodes that are no conditionals, loops,
function definitions or jumps. -/
def isStraight : Node → Bool
  | compound items => areStraight items
  | function .. | branch .. | whileLoop .. | forLoop .. | jump _ => false
  | _ => true

/-- Whether all nodes of a list are straight. -/
def areStraight : List Node → Bool
  | [] => true
  | item :: rest => item.isStraight && areStraight rest

end

mutual

/-- The statements that nested compound statements hold, in the order of the text. -/
def flat : Node → List Node
  | compound items => flatAll items
  | node => [node]

/-- The statements of a list of nested compound statements. -/
def flatAll : List Node → List Node
  | [] => []
  | item :: rest => item.flat ++ flatAll rest

end

/-- The statements up to the first return and this one, all if there is none. -/
def upToReturn : List Node → List Node
  | [] => []
  | node :: rest => if node.isReturn then [node] else node :: upToReturn rest

theorem upToReturn_append (nodes rest : List Node) :
    upToReturn (nodes ++ rest) =
      upToReturn nodes ++ if nodes.any isReturn then [] else upToReturn rest := by
  induction nodes with
  | nil => rfl
  | cons node nodes ih =>
    rw [List.cons_append, upToReturn, upToReturn, List.any_cons]
    by_cases hnode : node.isReturn = true
    · rw [if_pos hnode, if_pos hnode, hnode, Bool.true_or, if_pos rfl, List.append_nil]
    · rw [if_neg hnode, if_neg hnode, ih, Bool.eq_false_iff.2 hnode, Bool.false_or,
        List.cons_append]

mutual

/-- Control passes the end of straight code that does not return. -/
theorem completes_of_isStraight : ∀ node : Node, node.isStraight = true →
    node.completes = !node.flat.any isReturn
  | compound items, h => by
    rw [isStraight] at h
    rw [completes, flat]
    exact completesAll_of_areStraight items h
  | ret _, _ | declarator .., _ | parameters .., _ | declaration .., _ | binary .., _
  | unary .., _ | assignment .., _ | ident .., _ | constant .., _ | call .., _ => by
    simp only [completes, flat]
    rfl

private theorem completesAll_of_areStraight : ∀ items : List Node, areStraight items = true →
    completesAll items = !(flatAll items).any isReturn
  | [], _ => by
    rw [completesAll, flatAll]
    rfl
  | item :: rest, h => by
    rw [areStraight, Bool.and_eq_true] at h
    rw [completesAll, flatAll, completes_of_isStraight item h.1,
      completesAll_of_areStraight rest h.2, List.any_append, Bool.not_or]

end

end Node

/-! ### The layout -/

/-- In `g` a strand leads from `start`, which is below `bound`, through the blocks `ids`, which are
not, to a block that is final if `final` says so. -/
structure Laid (g : Graph) (bound : Nat) (start stop : BlockId) (ids : List BlockId)
    (statements : List Node) (final : Bool) : Prop where
  strand : g.Strand start (start :: ids) statements stop
  start_lt : bound > start
  bound_le : ∀ i ∈ ids, bound ≤ i
  nodup : ids.Nodup
  final_eq : (g.block? stop).map (·.isFinal) = some final

namespace Laid

variable {g g' : Graph} {bound start stop : Nat} {ids : List BlockId} {statements : List Node}
  {final : Bool}

theorem nodup_cons (h : Laid g bound start stop ids statements final) : (start :: ids).Nodup :=
  List.nodup_cons.2 ⟨fun hmem => Nat.lt_irrefl _ (Nat.lt_of_lt_of_le h.start_lt
    (h.bound_le start hmem)), h.nodup⟩

/-- A strand is as it was after an edge from another block was added. -/
theorem connect {source : Nat} (h : Laid g bound start stop ids statements final)
    (hsource : source ∉ start :: ids) (target : BlockId) :
    Laid (g.connect source target) bound start stop ids statements final where
  strand := h.strand.congr fun _ hk => g.code_connect_of_ne target fun heq => hsource (heq ▸ hk)
  start_lt := h.start_lt
  bound_le := h.bound_le
  nodup := h.nodup
  final_eq := (g.final?_connect source target stop).trans h.final_eq

/-- A strand in front of which a block was connected to it. -/
theorem cons {front : Nat} {before : List Node} (h : Laid g bound start stop ids statements final)
    {bound' : Nat} (hlt : bound' > front) (hle : bound' ≤ start) (hbound : start < bound)
    (hcode : g.code front = some ⟨.base, before, [start]⟩) :
    Laid g bound' front stop (start :: ids) (before ++ statements) final where
  strand := .next hcode h.strand
  start_lt := hlt
  bound_le := by
    intro i hi
    rcases List.mem_cons.1 hi with rfl | hi
    · exact hle
    · exact Nat.le_trans hle (Nat.le_trans (Nat.le_of_lt hbound) (h.bound_le i hi))
  nodup := h.nodup_cons
  final_eq := h.final_eq

/-- What only enters the blocks of a strand does not change it. -/
theorem of_untouched (h : Laid g bound start stop ids statements final)
    (huntouched : Untouched g.size g g') : Laid g' bound start stop ids statements final where
  strand := h.strand.congr fun _ hk =>
    huntouched.code_eq (h.strand.lt_size hk) (h.strand.lt_size hk)
  start_lt := h.start_lt
  bound_le := h.bound_le
  nodup := h.nodup
  final_eq :=
    have hlt := h.strand.lt_size h.strand.stop_mem
    (huntouched.final?_eq hlt hlt).trans h.final_eq

/-- A strand that goes on in a later graph, in which its own blocks are as they were. -/
theorem append {last : Nat} {ids' : List BlockId} {before after : List Node} {final' : Bool}
    (h : Laid g bound start stop ids statements final)
    (hlast : g.code stop = some ⟨.base, before, []⟩)
    (h' : Laid g' g.size stop last ids' (before ++ after) final')
    (hkeeps : ∀ k ∈ start :: ids, k ≠ stop → g'.code k = g.code k) (hbound : bound ≤ g.size) :
    Laid g' bound start last (ids ++ ids') (statements ++ after) final' where
  strand := h.strand.append h.nodup_cons hlast h'.strand hkeeps
  start_lt := h.start_lt
  bound_le := by
    intro i hi
    rcases List.mem_append.1 hi with hi | hi
    · exact h.bound_le i hi
    · exact Nat.le_trans hbound (h'.bound_le i hi)
  nodup := by
    refine List.nodup_append.2 ⟨h.nodup, h'.nodup, fun i hi j hj heq => ?_⟩
    have hlt := h.strand.lt_size (List.mem_cons_of_mem _ hi)
    exact Nat.ne_of_lt (Nat.lt_of_lt_of_le hlt (h'.bound_le j hj)) heq
  final_eq := h'.final_eq

end Laid

namespace Node

variable {scope : Scope} {g g' : Graph} {span : Span}

theorem laid_addSingle (g : Graph) (node : Node) (final : Bool) :
    Laid (g.addSingle node final).1 (g.size + 1) g.size g.size [] [node] final where
  strand := .stop (by rw [Graph.code_addSingle, if_pos rfl])
  start_lt := Nat.lt_succ_self _
  bound_le := nofun
  nodup := List.nodup_nil
  final_eq := g.final?_addSingle node final

/-- The layout of a node is a strand from its first block on. -/
def LaysStrand (node : Node) : Prop :=
  ∀ {scope g g' span}, node.layOut scope g = (g', span) → span.start = g.size ∧ ∃ ids,
    Laid g' (g.size + 1) span.start span.stop ids (upToReturn node.flat) (node.flat.any isReturn)

/-- The layout of items behind a block that is not final prolongs the block to a strand. -/
def LayStrand (items : List Node) : Prop :=
  ∀ {scope g g' current last before}, layOutItems scope g current true items = (g', last) →
    g.size > current → g.code current = some ⟨.base, before, []⟩ →
    (g.block? current).map (·.isFinal) = some false → ∃ ids,
      Laid g' g.size current last ids (before ++ upToReturn (flatAll items))
        ((flatAll items).any isReturn)

theorem laysStrand_of_addSingle {node : Node}
    (hlayOut : ∀ scope g, node.layOut scope g = g.addSingle node node.isReturn)
    (hflat : node.flat = [node]) : node.LaysStrand := by
  intro scope g g' span h
  rw [hlayOut] at h
  obtain ⟨rfl, rfl⟩ := Prod.mk.inj h
  refine ⟨rfl, [], ?_⟩
  have hrun : upToReturn [node] = [node] := by
    rw [upToReturn, upToReturn]
    split <;> rfl
  rw [hflat, hrun, List.any_cons, List.any_nil, Bool.or_false]
  exact laid_addSingle g node node.isReturn

theorem layStrand_nil : LayStrand [] := by
  intro scope g g' current last before h hlt hcode hfinal
  rw [layOutItems] at h
  obtain ⟨rfl, rfl⟩ := Prod.mk.inj h
  rw [flatAll, upToReturn, List.append_nil]
  exact ⟨[], .stop hcode, hlt, nofun, List.nodup_nil, hfinal⟩

theorem layStrand_cons {item : Node} {rest : List Node} (hstraight : item.isStraight = true)
    (hitem : item.LaysStrand) (hrest : LayStrand rest) : LayStrand (item :: rest) := by
  intro scope g g' current last before h hlt hcode hfinal
  obtain ⟨g₁, span, hg₁, h⟩ := layOutItems_cons h
  simp only [if_true] at h
  have hpiece := piece_layOut hg₁
  obtain ⟨hstart, ids, hlaid⟩ := hitem hg₁
  have hcompletes := completes_of_isStraight item hstraight
  -- The block in front is older than the piece that it is connected to.
  have hnot : current ∉ span.start :: ids := by
    intro hmem
    rcases List.mem_cons.1 hmem with heq | hmem
    · exact Nat.ne_of_lt hlt (heq.trans hstart)
    · exact Nat.lt_asymm hlt (hlaid.bound_le current hmem)
  have hlaid₂ := hlaid.connect hnot span.start
  have hsize : (g₁.connect current span.start).size = g₁.size := Graph.size_connect ..
  have hopen : item.completes = true →
      ∃ statements, (g₁.connect current span.start).code span.stop =
        some ⟨.base, statements, []⟩ :=
    fun _ => hlaid₂.strand.code_stop
  have hchain := chain_layOutItems h (by rw [hsize]; exact hpiece.stop_lt) hopen
  have hcurrent := hpiece.code_current_of_chain hchain hlt hcode
  rw [flatAll, upToReturn_append, List.any_append]
  cases hreturns : item.flat.any isReturn with
  | true =>
    rw [hreturns, Bool.not_true] at hcompletes
    rw [hcompletes] at h hchain
    obtain ⟨huntouched, rfl⟩ := untouched_layOutItems_of_dead h (Nat.le_refl _)
    -- Nothing that comes after the return changes the strand.
    have hafter := hlaid₂.of_untouched huntouched
    rw [hreturns] at hafter
    refine ⟨span.start :: ids, ?_⟩
    rw [if_pos rfl, List.append_nil, Bool.true_or]
    exact hafter.cons hlt hpiece.le_start hafter.start_lt hcurrent
  | false =>
    rw [hreturns, Bool.not_false] at hcompletes
    rw [hcompletes] at h hchain
    rw [hreturns] at hlaid₂
    obtain ⟨statements, hlast⟩ := hopen hcompletes
    have hstop : (g₁.connect current span.start).size > span.stop :=
      hlaid₂.strand.lt_size hlaid₂.strand.stop_mem
    obtain ⟨ids', hlaid'⟩ := hrest h hstop hlast hlaid₂.final_eq
    have hkeeps : ∀ k ∈ span.start :: ids, k ≠ span.stop →
        g'.code k = (g₁.connect current span.start).code k :=
      fun k hk hne => hchain.keeps k (hlaid₂.strand.lt_size hk) fun _ => hne
    have hafter := hlaid₂.append hlast hlaid' hkeeps (by rw [hsize]; exact hpiece.size_lt)
    refine ⟨span.start :: (ids ++ ids'), ?_⟩
    rw [if_neg Bool.false_ne_true, Bool.false_or]
    exact hafter.cons hlt hpiece.le_start hafter.start_lt hcurrent

theorem laysStrand_compound {items : List Node} (hitems : LayStrand items) :
    (compound items).LaysStrand := by
  intro scope g g' span h
  obtain ⟨last, hlast, rfl⟩ := layOut_compound h
  refine ⟨rfl, ?_⟩
  have hsize : (g.addBlock .base).size = g.size + 1 := Graph.size_addBlock ..
  obtain ⟨ids, hlaid⟩ := hitems hlast (by rw [hsize]; exact Nat.lt_succ_self _)
    (g.code_addBlock_self .base) (by rw [Graph.block?_addBlock, if_pos rfl]; rfl)
  rw [hsize, List.nil_append] at hlaid
  rw [flat]
  exact ⟨ids, hlaid⟩

mutual

/-- The layout of straight code is a strand. -/
theorem exists_laid_layOut : ∀ node : Node, node.isStraight = true → node.LaysStrand
  | compound items, h => by
    rw [isStraight] at h
    exact laysStrand_compound (layStrand_of_areStraight items h)
  | ret _, _ | declarator .., _ | parameters .., _ | declaration .., _ | binary .., _ | unary .., _
  | assignment .., _ | ident .., _ | constant .., _ | call .., _ =>
    laysStrand_of_addSingle (fun _ _ => by simp only [layOut]; rfl) (by simp only [flat])

theorem layStrand_of_areStraight : ∀ items : List Node, areStraight items = true → LayStrand items
  | [], _ => layStrand_nil
  | item :: rest, h => by
    rw [areStraight, Bool.and_eq_true] at h
    exact layStrand_cons h.1 (exists_laid_layOut item h.1) (layStrand_of_areStraight rest h.2)

end

/-! ### The function -/

theorem label_addHeader (g : Graph) (decl : Node) :
    ((g.addHeader decl).block? g.size).map (·.label) =
      some (some ("function " ++ decl.functionName?.getD "" ++ " start")) := by
  rw [Graph.addHeader, Graph.block?_modify_self, Graph.addStatementBlock, Graph.addStatements,
    Graph.block?_modify_self, Graph.block?_addBlock, if_pos rfl]
  rfl

/-- The first block of a function keeps its label. -/
theorem label_function {decl body : Node}
    (h : (function decl body).layOut scope g = (g', span)) :
    (g'.block? g.size).map (·.label) =
      some (some ("function " ++ decl.functionName?.getD "" ++ " start")) := by
  obtain ⟨g₁, inner, hg₁, rfl, rfl⟩ := layOut_function h
  obtain ⟨b, hb, hlabel⟩ := Option.map_eq_some_iff.1 (label_addHeader g decl)
  have huntouched := untouched_layOut body hg₁ (Nat.le_refl _)
  obtain ⟨entries, -, hb'⟩ := huntouched.block g.size b (by simp) hb
  have hne : inner.start ≠ g.size := by
    have hle := (piece_layOut hg₁).le_start
    rw [Graph.size_addHeader] at hle
    exact Nat.ne_of_gt hle
  rw [Graph.closeFunction, Graph.connect, Graph.block?_modify_self, Graph.block?_modify,
    if_neg hne, hb', ← hlabel]
  rfl

/-- The layout of a function with straight code is a strand that starts with the parameters. -/
theorem exists_laid_function {decl body : Node} (hbody : body.isStraight = true)
    (h : (function decl body).layOut scope g = (g', span)) :
    span.start = g.size ∧ ∃ ids, Laid g' (g.size + 1) span.start span.stop ids
      (decl.functionParams ++ upToReturn body.flat) (body.flat.any isReturn) := by
  obtain ⟨g₁, inner, hg₁, rfl, rfl⟩ := layOut_function h
  refine ⟨rfl, ?_⟩
  have hpiece := piece_layOut hg₁
  obtain ⟨hstart, ids, hlaid⟩ := exists_laid_layOut body hbody hg₁
  rw [Graph.size_addHeader] at hstart
  have hnot : g.size ∉ inner.start :: ids := by
    intro hmem
    rcases List.mem_cons.1 hmem with heq | hmem
    · exact Nat.ne_of_lt (Nat.lt_succ_self g.size) (heq.trans hstart)
    · have hle := hlaid.bound_le _ hmem
      rw [Graph.size_addHeader] at hle
      omega
  exact ⟨_, (hlaid.connect hnot inner.start).cons (Nat.lt_succ_self _) (Nat.le_of_eq hstart.symm)
    hlaid.start_lt hpiece.code_function_header⟩

/-- The graph of a function with straight code is a strand once it is pruned. -/
theorem exists_strung_toGraph (decl : Node) {body : Node} (hbody : body.isStraight = true) :
    ∃ ids, (function decl body).toGraph.pruned.Strung ids
      (decl.functionParams ++ upToReturn body.flat) (body.flat.any isReturn)
      ("function " ++ decl.functionName?.getD "" ++ " start") := by
  have hpristine := pristine_toGraph (function decl body)
  rcases hlay : (function decl body).layOut (.top 0) (({} : Graph).addBlock .base) with ⟨g, span⟩
  have hgraph : (function decl body).toGraph =
      { g with name := (function decl body).functionName?, entry := span.start,
               exit := span.stop } := by
    rw [toGraph, hlay]
  rw [hgraph] at hpristine ⊢
  obtain ⟨hstart, ids, hlaid⟩ := exists_laid_function hbody hlay
  obtain ⟨first, hfirst, hlabel⟩ := Option.map_eq_some_iff.1 (hstart ▸ label_function hlay)
  obtain ⟨last, hlast, hfinal⟩ := Option.map_eq_some_iff.1 hlaid.final_eq
  refine ⟨span.start :: ids, .pruned hpristine.consistent.numbered
    (hlaid.strand.congr fun _ _ => rfl) hlaid.nodup_cons (fun i hi => ?_)
    ⟨first, ⟨hfirst, hpristine.live hfirst⟩, hlabel⟩ ⟨last, ⟨hlast, hpristine.live hlast⟩, hfinal⟩⟩
  exact hpristine.exists_live (hlaid.strand.lt_size hi)

section Places

variable {p : Place}

mutual

/-- The places in straight code are straight. -/
theorem isStraight_of_mem_placesIn : ∀ (node : Node) {around before : List Node} {first : Nat},
    node.isStraight = true → p ∈ node.placesIn Place.topDown around before first →
      p.node.isStraight = true
  | compound items, _, _, _, h, hp => by
    simp only [placesIn, Place.topDown, List.mem_cons] at hp
    rcases hp with rfl | hp
    · exact h
    · rw [isStraight] at h
      exact isStraight_of_mem_placesOfItems items h hp
  | ret _, _, _, _, h, hp | declarator .., _, _, _, h, hp | parameters .., _, _, _, h, hp
  | declaration .., _, _, _, h, hp | binary .., _, _, _, h, hp | unary .., _, _, _, h, hp
  | assignment .., _, _, _, h, hp | ident .., _, _, _, h, hp | constant .., _, _, _, h, hp
  | call .., _, _, _, h, hp => by
    simp only [placesIn, Place.topDown, List.mem_singleton] at hp
    rw [hp]
    exact h

private theorem isStraight_of_mem_placesOfItems : ∀ (items : List Node)
    {around before : List Node} {first : Nat}, areStraight items = true →
      p ∈ placesOfItems Place.topDown around before first items → p.node.isStraight = true
  | [], _, _, _, _, hp => by
    rw [placesOfItems] at hp
    cases hp
  | item :: rest, _, _, _, h, hp => by
    rw [areStraight, Bool.and_eq_true] at h
    rw [placesOfItems, List.mem_append] at hp
    rcases hp with hp | hp
    · exact isStraight_of_mem_placesIn item h.1 hp
    · exact isStraight_of_mem_placesOfItems rest h.2 hp

end

/-- No jump stands in a function with straight code. -/
theorem not_isStray_of_isStraight {decl body : Node} (hbody : body.isStraight = true)
    (hp : p ∈ (function decl body).places) : ¬p.IsStray := by
  rintro ⟨-, kind, hkind⟩
  rw [places, placesIn, Place.topDown, List.mem_cons] at hp
  rcases hp with rfl | hp
  · cases hkind
  · have hstraight := isStraight_of_mem_placesIn body hbody hp
    rw [hkind, isStraight] at hstraight
    cases hstraight

end Places

theorem any_isReturn_iff {nodes : List Node} :
    nodes.any isReturn = true ↔ ∃ value, ret value ∈ nodes := by
  rw [List.any_eq_true]
  constructor
  · rintro ⟨node, hmem, hreturn⟩
    cases node with
    | ret value => exact ⟨value, hmem⟩
    | _ => cases hreturn
  · rintro ⟨value, hmem⟩
    exact ⟨_, hmem, rfl⟩

/-- A function whose body is straight and nested within bounds is built and simplified to one live
block. It is the entry and the exit, it is labelled with the name of the function and has no
successors, it holds the parameters and then the statements of the body in the order of the text up
to the first return, and it is final if and only if there is a return. -/
theorem build_straight {decl body : Node} {options : Options} (log : Log)
    (hoption : options.simplify = true) (hbody : body.isStraight = true)
    (hdepth : ∀ p ∈ (function decl body).places, p.depth ≤ options.maxDepth) :
    ∃ g log' b, ((function decl body).build options).run log = .ok g log' ∧ g.live = [b] ∧
      g.Live g.entry b ∧ g.exit = g.entry ∧
      b.label = some ("function " ++ decl.functionName?.getD "" ++ " start") ∧
      b.successors = [] ∧ b.statements = decl.functionParams ++ upToReturn body.flat ∧
      (b.isFinal = true ↔ ∃ value, ret value ∈ body.flat) := by
  have hoffends : ∀ p ∈ (function decl body).places, ¬p.Offends options.maxDepth := by
    rintro p hp (hdeep | hstray)
    · exact Nat.not_lt.2 (hdepth p hp) hdeep
    · exact not_isStray_of_isStraight hbody hp hstray
  obtain ⟨g, log', hbuild⟩ := exists_run_build_of_not_offends log hoffends
  rcases graph_eq_of_build hbuild with ⟨hoff, -⟩ | ⟨-, report, hrun⟩
  · rw [hoption] at hoff
    cases hoff
  have hraw := wellFormed_toGraph (function decl body)
  obtain ⟨report', g', hrun', hrewrites, hconsistent, hrooted, hnormal⟩ :=
    Edit.exists_run_simplify_normalForm hraw.consistent hraw.rooted
  cases hrun.symm.trans hrun'
  obtain ⟨ids, hstrung⟩ := exists_strung_toGraph decl hbody
  obtain ⟨ids', hstrung'⟩ := hrewrites.strung hraw.pruned.consistent hraw.pruned.rooted hstrung
  obtain ⟨b, hlive, hb, hexit, hlabel, hsuccessors, hstatements, hfinal⟩ :=
    hstrung'.live_eq hconsistent hrooted hnormal
  exact ⟨g, log', b, hbuild, hlive, hb, hexit, hlabel, hsuccessors, hstatements,
    by rw [hfinal, any_isReturn_iff]⟩

/-- The declarator of a function with one parameter. -/
private def ofOne : Node :=
  declarator "f" "int" (some (parameters [ident "x"]))

/-- Nested braces, one of which returns in front of another statement. -/
private def twoLevels : Node :=
  compound [ident "a", compound [compound [], compound [ident "b", ret none, ident "c"]], ident "d"]

theorem build_straight_nested :
    twoLevels.isStraight = true ∧
      (∀ p ∈ (function ofOne twoLevels).places, p.depth ≤ ({} : Options).maxDepth) ∧
      ∃ g log' b, ((function ofOne twoLevels).build {}).run {} = .ok g log' ∧ g.live = [b] ∧
        g.exit = g.entry ∧ b.label = some "function f start" ∧
        b.statements = [ident "x", ident "a", ident "b", ret none] ∧ b.isFinal = true := by
  have hbody : twoLevels.isStraight = true := rfl
  have hdepth : ∀ p ∈ (function ofOne twoLevels).places, p.depth ≤ ({} : Options).maxDepth := by
    decide
  obtain ⟨g, log', b, hbuild, hlive, -, hexit, hlabel, -, hstatements, hfinal⟩ :=
    build_straight {} rfl hbody hdepth
  exact ⟨hbody, hdepth, g, log', b, hbuild, hlive, hexit, hlabel, hstatements,
    hfinal.2 ⟨none, by simp [twoLevels, flat, flatAll]⟩⟩

end Node

end FlowGraph
