import FlowGraph.Proofs.Ssa.Offered
import FlowGraph.Proofs.Ssa.Shape
import Mathlib.Data.List.Forall2

/-!
# Conversion changes names only

Conversion adds phi nodes to the reachable joins and rewrites names in the statements of reachable
blocks. A name is kept, or it is replaced by a version of the variable that it names, one of those
that were handed out. Nothing else is touched.

## Main definitions

* `Versions.Renames`: a name that is kept or replaced by a version that was handed out
* `Node.RenamedBy`: two trees that differ in their identifiers and declared names only
* `Graph.ChangesNamesOnly`: a graph and what conversion may make of it

## Main results

* `Naming.Issued.renamed_statement`: what renaming a statement changes
* `Edit.run_rename_changes`: what renaming a graph changes
* `Graph.converted_changesNamesOnly`: conversion changes names only
-/

namespace FlowGraph

/-- A name is kept, or replaced by one of the versions of it that were handed out. -/
def Versions.Renames (versions : Versions) (name name' : String) : Prop :=
  name' = name ∨ ∃ n < versions.count name, name' = versionName name n

namespace Node

mutual

/-- Two statements or expressions that are the same, or in which names that are related by `R` stand
in the places of identifiers and declared variables. -/
inductive RenamedBy (R : String → String → Prop) : Node → Node → Prop
  | same (node : Node) : RenamedBy R node node
  | ident {name name' : String} (hname : R name name') : RenamedBy R (ident name) (ident name')
  | declaration {name name' type : String} {init init' : Option Node} (hname : R name name')
    (hinit : RenamedOptional R init init') :
    RenamedBy R (declaration name type init) (declaration name' type init')
  | assignment {op : Operator.Assign} {target target' value value' : Node}
    (htarget : RenamedBy R target target') (hvalue : RenamedBy R value value') :
    RenamedBy R (assignment op target value) (assignment op target' value')
  | binary {op : Operator.Binary} {left left' right right' : Node}
    (hleft : RenamedBy R left left') (hright : RenamedBy R right right') :
    RenamedBy R (binary op left right) (binary op left' right')
  | unary {op : Operator.Unary} {operand operand' : Node} (h : RenamedBy R operand operand') :
    RenamedBy R (unary op operand) (unary op operand')
  | ret {value value' : Option Node} (h : RenamedOptional R value value') :
    RenamedBy R (ret value) (ret value')
  | call {callee : String} {args args' : List Node} (h : RenamedAll R args args') :
    RenamedBy R (call callee args) (call callee args')

/-- The same for children that may be absent. -/
inductive RenamedOptional (R : String → String → Prop) : Option Node → Option Node → Prop
  | none : RenamedOptional R none none
  | some {node node' : Node} (h : RenamedBy R node node') :
    RenamedOptional R (some node) (some node')

/-- The same for the nodes of two lists. -/
inductive RenamedAll (R : String → String → Prop) : List Node → List Node → Prop
  | nil : RenamedAll R [] []
  | cons {node node' : Node} {rest rest' : List Node} (h : RenamedBy R node node')
    (hrest : RenamedAll R rest rest') : RenamedAll R (node :: rest) (node' :: rest')

end

variable {R S : String → String → Prop}

mutual

theorem RenamedBy.mono (hRS : ∀ name name', R name name' → S name name') {node node' : Node} :
    RenamedBy R node node' → RenamedBy S node node'
  | .same node => .same node
  | .ident hname => .ident (hRS _ _ hname)
  | .declaration hname hinit => .declaration (hRS _ _ hname) (hinit.mono hRS)
  | .assignment htarget hvalue => .assignment (htarget.mono hRS) (hvalue.mono hRS)
  | .binary hleft hright => .binary (hleft.mono hRS) (hright.mono hRS)
  | .unary h => .unary (h.mono hRS)
  | .ret h => .ret (h.mono hRS)
  | .call h => .call (h.mono hRS)

theorem RenamedOptional.mono (hRS : ∀ name name', R name name' → S name name')
    {node node' : Option Node} : RenamedOptional R node node' → RenamedOptional S node node'
  | .none => .none
  | .some h => .some (h.mono hRS)

theorem RenamedAll.mono (hRS : ∀ name name', R name name' → S name name')
    {nodes nodes' : List Node} : RenamedAll R nodes nodes' → RenamedAll S nodes nodes'
  | .nil => .nil
  | .cons h hrest => .cons (h.mono hRS) (hrest.mono hRS)

end

theorem RenamedAll.forall₂ {nodes nodes' : List Node} (h : RenamedAll R nodes nodes') :
    List.Forall₂ (RenamedBy R) nodes nodes' := by
  induction nodes generalizing nodes' with
  | nil =>
    cases h
    exact .nil
  | cons node rest ih =>
    cases h with
    | cons hnode hrest => exact .cons hnode (ih hrest)

/-- A look-up that answers related names, where every name is related to itself. -/
structure Looks (R : String → String → Prop) (lookup : String → Option String) : Prop where
  refl : ∀ name, R name name
  answer : ∀ {name name'}, lookup name = some name' → R name name'

variable {lookup : String → Option String}

mutual

/-- A substitution replaces identifiers, and keeps those for which there is no answer. -/
theorem renamedBy_substitute (hlookup : Looks R lookup) :
    (node : Node) → RenamedBy R node (node.substitute lookup)
  | declaration name _ init => by
    rw [substitute]
    exact .declaration (hlookup.refl name) (renamedOptional_substitute hlookup init)
  | assignment _ target value => by
    rw [substitute]
    exact .assignment (renamedBy_substitute hlookup target) (renamedBy_substitute hlookup value)
  | binary _ left right => by
    rw [substitute]
    exact .binary (renamedBy_substitute hlookup left) (renamedBy_substitute hlookup right)
  | unary _ operand => by
    rw [substitute]
    exact .unary (renamedBy_substitute hlookup operand)
  | ret value => by
    rw [substitute]
    exact .ret (renamedOptional_substitute hlookup value)
  | call _ args => by
    rw [substitute]
    exact .call (renamedAll_substitute hlookup args)
  | ident name => by
    rw [substitute]
    cases h : lookup name with
    | none => exact .same _
    | some version => exact .ident (hlookup.answer h)
  | function .. | declarator .. | parameters .. | compound .. | branch .. | whileLoop ..
  | forLoop .. | jump .. | constant .. => .same _

theorem renamedOptional_substitute (hlookup : Looks R lookup) :
    (node : Option Node) → RenamedOptional R node (substituteOptional lookup node)
  | none => .none
  | some node => by
    rw [substituteOptional]
    exact .some (renamedBy_substitute hlookup node)

theorem renamedAll_substitute (hlookup : Looks R lookup) :
    (nodes : List Node) → RenamedAll R nodes (substituteAll lookup nodes)
  | [] => .nil
  | node :: rest => by
    rw [substituteAll]
    exact .cons (renamedBy_substitute hlookup node) (renamedAll_substitute hlookup rest)

end

/-- A new name for the variable that a statement defines is put in its place. -/
theorem renamedBy_withDefined (hlookup : Looks R lookup) {s : Node} {name name' : String}
    (hname : s.defined? = some name) (h : R name name') :
    RenamedBy R s ((s.substitute lookup).withDefined name') := by
  cases s with
  | declaration other type init =>
    obtain rfl := Option.some.inj hname
    rw [substitute, withDefined]
    exact .declaration h (renamedOptional_substitute hlookup init)
  | assignment op target value =>
    cases target with
    | ident other =>
      obtain rfl := Option.some.inj hname
      rw [substitute, substitute, withDefined]
      exact .assignment (.ident h) (renamedBy_substitute hlookup value)
    | _ => cases hname
  | _ => cases hname

end Node

/-! ### Statements -/

namespace Versions

variable {versions versions' : Versions}

/-- More versions rename more names. -/
theorem Renames.mono (hle : ∀ name, versions.count name ≤ versions'.count name)
    (name name' : String) (h : versions.Renames name name') : versions'.Renames name name' := by
  rcases h with h | ⟨n, hn, h⟩
  · exact .inl h
  · exact .inr ⟨n, Nat.lt_of_lt_of_le hn (hle name), h⟩

end Versions

namespace Naming.Issued

variable {naming : Naming}

theorem looks (h : naming.Issued) {versions : Versions}
    (hle : ∀ name, naming.versions.count name ≤ versions.count name) :
    Node.Looks versions.Renames (naming.current[·]?) where
  refl := fun _ => .inl rfl
  answer := by
    intro name version hversion
    obtain ⟨n, hn, heq⟩ := h hversion
    exact .inr ⟨n, Nat.lt_of_lt_of_le hn (hle name), heq⟩

/-- Renaming a statement replaces names by versions that were handed out before, and the variable
that it defines by the next one. -/
theorem renamed_statement (h : naming.Issued) (s : Node) :
    Node.RenamedBy (naming.statement s).2.versions.Renames s (naming.statement s).1 := by
  have hlooks := h.looks (naming.leads_statement s)
  cases hs : s.defined? with
  | none =>
    rw [naming.statement_of_defined?_eq_none s hs] at hlooks ⊢
    exact Node.renamedBy_substitute hlooks s
  | some name =>
    rw [naming.statement_of_defined?_eq_some s hs] at hlooks ⊢
    refine Node.renamedBy_withDefined hlooks hs (.inr ⟨naming.versions.count name, ?_, rfl⟩)
    change _ < (naming.versions.fresh name).2.count name
    rw [Versions.count_fresh, if_pos rfl]
    exact Nat.lt_succ_self _

theorem renamed_statements (h : naming.Issued) (statements : List Node) :
    Node.RenamedAll (naming.statements statements).2.versions.Renames statements
      (naming.statements statements).1 := by
  induction statements generalizing naming with
  | nil => exact .nil
  | cons s rest ih =>
    -- What the first statement was given is still counted when the others are done.
    have hleads := leads_statements (naming.statement s).2 rest
    rw [statements_cons]
    exact .cons ((h.renamed_statement s).mono (Versions.Renames.mono hleads)) (ih (h.statement s))

theorem renamed_block (h : naming.Issued) (block : Block) :
    Node.RenamedAll (naming.block block).2.versions.Renames block.statements
      (naming.block block).1.statements :=
  (h.phis block.phis).renamed_statements block.statements

end Naming.Issued

/-! ### Graphs -/

/-- A block that has kept its shape differs in its statements and phi nodes at most. -/
theorem Block.eq_of_shape {b c : Block} (h : c.shape = b.shape) :
    c = { b with statements := c.statements, phis := c.phis } := by
  have hblock := congrArg Prod.fst h
  simp only [shape, mk.injEq, true_and, and_true] at hblock
  obtain ⟨hid, hkind, hpredecessors, hsuccessors, hcolor, hfinal, hdetached, hlabel⟩ := hblock
  rw [← hid, ← hkind, ← hpredecessors, ← hsuccessors, ← hcolor, ← hfinal, ← hdetached, ← hlabel]

namespace Graph

variable {g g' h : Graph} {b c : Block} {i j : BlockId} {r : Walk.Record RenamingFrame}
  {frame : RenamingFrame} {s : RenamingState} {versions : Versions}

theorem SameShape.closed (hs : g.SameShape h) (hg : g.Closed) : h.Closed where
  entry := by
    rw [hs.entry_eq, hs.size_eq]
    exact hg.entry
  edge := by
    rw [hs.reachable_eq, hs.successors_eq, hs.size_eq]
    exact hg.edge

theorem sameShape_withPhis (g : Graph) (phis : BlockId → List Phi) :
    g.SameShape (g.withPhis phis) := by
  refine ⟨rfl, rfl, rfl, fun i => ?_⟩
  rw [block?_withPhis, Option.map_map]
  rfl

/-- What is known of the statements in the middle of a renaming. -/
structure Rewording (g : Graph) (r : Walk.Record RenamingFrame) (s : RenamingState) : Prop where
  tracing : g.Tracing r s
  /-- Blocks that the walk does not come to are left alone. -/
  outside : ∀ {i}, i ∉ g.reachable → s.graph.block? i = g.block? i
  renamed : ∀ {i frame b}, r.frame? i = some frame → g.block? i = some b →
    ∃ c, s.graph.block? i = some c ∧
      Node.RenamedAll s.versions.Renames b.statements c.statements

namespace Rewording

/-- Versions arrive over an edge, and the statements are as before. -/
theorem cross (h : g.Rewording r s) (frame : RenamingFrame) (hj : j ∈ g.reachable) :
    g.Rewording (r.cross i) (RenamingState.cross frame j s) where
  tracing := h.tracing.cross i frame j
  outside := by
    intro k hk
    rw [RenamingState.cross, block?_modify, if_neg (by rintro rfl; exact hk hj)]
    exact h.outside hk
  renamed := by
    intro k f b hf hb
    obtain ⟨c, hc, hrenamed⟩ := h.renamed hf hb
    obtain ⟨c', hc', hstatements, -⟩ := s.sameDefinitions_cross frame j k c hc
    exact ⟨c', hc', hstatements ▸ hrenamed⟩

/-- The statements of a new block are renamed. -/
theorem enter (h : g.Rewording r s) (hframe : r.frame? i = some frame) (edge : j ∈ g.successors i)
    (hnew : r.frame? j = none) (hj : j ∈ g.reachable) (hc : s.graph.block? j = some c) :
    g.Rewording
      (r.enter j ⟨j, (Naming.block ⟨frame.current, s.versions⟩ c).2.current, c.successors⟩)
      ⟨s.graph.modify j fun _ => (Naming.block ⟨frame.current, s.versions⟩ c).1,
        (Naming.block ⟨frame.current, s.versions⟩ c).2.versions⟩ where
  tracing := h.tracing.enter hframe (h.tracing.along.successors hframe ▸ edge) hnew hc
  outside := by
    intro k hk
    rw [block?_modify, if_neg (by rintro rfl; exact hk hj)]
    exact h.outside hk
  renamed := by
    intro k f b hf hb
    rw [block?_modify]
    rcases r.of_frame?_enter _ hf with ⟨rfl, -⟩ | ⟨hne, hf⟩
    · rw [if_pos rfl, hc, ← h.tracing.waiting hb hc hnew]
      exact ⟨_, rfl, (h.tracing.issued hframe).renamed_block c⟩
    -- The versions that were handed out before are still there.
    · rw [if_neg hne.symm]
      obtain ⟨d, hd, hrenamed⟩ := h.renamed hf hb
      exact ⟨d, hd, hrenamed.mono (Versions.Renames.mono
        (Naming.leads_block ⟨frame.current, s.versions⟩ c))⟩

theorem start (hentry : g.entry ∈ g.reachable) (hb : g.block? g.entry = some b)
    (versions : Versions) :
    g.Rewording
      (.start g.entry ⟨g.entry, (Naming.block ⟨∅, versions⟩ b).2.current, b.successors⟩)
      ⟨g.modify g.entry fun _ => (Naming.block ⟨∅, versions⟩ b).1,
        (Naming.block ⟨∅, versions⟩ b).2.versions⟩ where
  tracing := .start hb versions
  outside := by
    intro k hk
    rw [block?_modify, if_neg (by rintro rfl; exact hk hentry)]
  renamed := by
    intro k f d hf hd
    obtain ⟨rfl, -⟩ := Walk.Record.eq_of_frame?_start _ hf
    obtain rfl := Option.some.inj (hb.symm.trans hd)
    rw [block?_modify_self, hb]
    exact ⟨_, rfl, (Naming.issued_empty versions).renamed_block b⟩

end Rewording

end Graph

/-- What is known of a renaming along the depth-first tree. -/
theorem ordered_renamingWalk_rewording {g : Graph} (hg : g.Closed) :
    renamingWalk.Ordered g RenamingFrame.successors fun _ r s => g.Rewording r s where
  slots := fun _ _ => rfl
  cross := fun h _ _ hj => h.cross _ hj
  enter := by
    intro order r s i frame j h hframe hparent hnew _ _ hj
    obtain ⟨b, c, -, hc, hsuccessors⟩ := h.tracing.exists_blocks hg hj
    exact ⟨_, _, RenamingState.enter_eq_ok (Graph.find_eq_ok_iff.2 hc), hsuccessors,
      h.enter hframe (Graph.parent?_spec hparent).2 hnew hj hc⟩

/-- Renaming a graph without dangling edges succeeds. It keeps the blocks that cannot be reached,
and it changes names only in the statements of the others. -/
theorem Edit.run_rename_changes {g : Graph} (hg : g.Closed) (declared : Std.TreeSet String) :
    ∃ versions g', (rename declared).run g = .ok versions g' ∧ g.SameShape g' ∧
      (∀ i, (g'.block? i).map Block.outline = (g.block? i).map Block.outline) ∧
      (∀ i ∉ g.reachable, g'.block? i = g.block? i) ∧
      ∀ i ∈ g.reachable, ∀ b, g.block? i = some b → ∃ c, g'.block? i = some c ∧
        List.Forall₂ (Node.RenamedBy versions.Renames) b.statements c.statements := by
  have hentry : g.entry ∈ g.reachable := Graph.mem_reachable_iff.2 ⟨hg.entry, .refl⟩
  obtain ⟨r, t, hrename, h, -, hreachable⟩ := exists_run_rename_of_closed hg
    (ordered_renamingWalk_rewording hg) declared fun hb => .start hentry hb (.start declared)
  refine ⟨t.versions, t.graph, hrename, sameShape_of_run_rename hrename, h.tracing.outline,
    fun i hi => h.outside hi, fun i hi b hb => ?_⟩
  obtain ⟨frame, hframe⟩ := Option.isSome_iff_exists.1 ((hreachable i).1 hi)
  obtain ⟨c, hc, hrenamed⟩ := h.renamed hframe hb
  exact ⟨c, hc, hrenamed.forall₂⟩

namespace Graph

variable {g g' : Graph} {versions : Versions} {phis : BlockId → List Phi}

/-- The graph `g'` is `g` with phi nodes in the reachable joins, and with names in the statements of
reachable blocks that were kept or replaced by some of the versions that were handed out. -/
structure ChangesNamesOnly (g g' : Graph) (versions : Versions) : Prop where
  name_eq : g'.name = g.name
  entry_eq : g'.entry = g.entry
  exit_eq : g'.exit = g.exit
  unreachable : ∀ {i}, i ∉ g.reachable → g'.block? i = g.block? i
  reachable : ∀ {i b}, i ∈ g.reachable → g.block? i = some b → ∃ statements phis,
    g'.block? i = some { b with statements := statements, phis := phis } ∧
      (b.isJoin = false → phis = []) ∧
      List.Forall₂ (Node.RenamedBy versions.Renames) b.statements statements

/-- When a graph passes the check of its edges, its entry is live and it has no phi nodes, its
conversion succeeds and changes names only. -/
theorem converted_changesNamesOnly {b : Block} (hn : g.Numbered) (hcheck : g.checkEdges = .ok ())
    (hb : g.Live g.entry b) (hnone : ∀ {i b}, g.block? i = some b → b.phis = []) :
    ∃ added placed versions g' report,
      (Edit.placePhis g.declared).run g = .ok added placed ∧
        (Edit.rename g.declared).run placed = .ok versions g' ∧
        g.converted = .ok (g', report) ∧ g.ChangesNamesOnly g' versions := by
  have hg : g.Closed := ((checkEdges_eq_ok_iff hn).1 hcheck).closed hb
  obtain ⟨added, phis, hplace, -, hoffered⟩ :=
    Edit.run_placePhis_of_closed hg hnone g.declared
  have hplaced := g.sameShape_withPhis phis
  obtain ⟨versions, g', hrename, hshape, houtline, hunreachable, hreachable⟩ :=
    Edit.run_rename_changes (hplaced.closed hg) g.declared
  obtain ⟨report, hconverted⟩ := exists_converted_iff.2 ⟨added, _, versions, hplace, hrename⟩
  have hall := hplaced.trans hshape
  rw [hplaced.reachable_eq] at hunreachable hreachable
  refine ⟨added, _, versions, g', report, hplace, hrename, hconverted, hall.name_eq, hall.entry_eq,
    hall.exit_eq, fun {i} hi => ?_, fun {i b} hi hb => ?_⟩
  · rw [hunreachable i hi, block?_withPhis, hoffered.unreachable hi]
    cases hb : g.block? i with
    | none => rfl
    | some b => rw [Option.map_some, ← hnone hb]
  · have hplacedBlock : (g.withPhis phis).block? i = some { b with phis := phis i } := by
      rw [block?_withPhis, hb, Option.map_some]
    obtain ⟨c, hc, hrenamed⟩ := hreachable i hi _ hplacedBlock
    obtain ⟨c', hc', hsame⟩ := hall.exists_block? hb
    obtain rfl := Option.some.inj (hc.symm.trans hc')
    refine ⟨c.statements, c.phis, hc.trans (congrArg some (Block.eq_of_shape hsame)),
      fun hjoin => ?_, hrenamed⟩
    -- Renaming keeps the variables of phi nodes, so there are none where none were placed.
    have hbases := houtline i
    rw [hc, hplacedBlock, Option.map_some, Option.map_some, Option.some.injEq] at hbases
    have hnone : phis i = [] :=
      hoffered.single hb (Nat.le_of_not_lt (of_decide_eq_false hjoin))
    have hnames : c.phis.map (·.base) = (phis i).map (·.base) := congrArg Prod.snd hbases
    rwa [hnone, List.map_nil, List.map_eq_nil_iff] at hnames

/-- A loop that steps a variable, and a block behind it that cannot be reached. -/
private def stepping : Graph :=
  { blocks := #[
      { id := 0, kind := .base, statements := [.declaration "x" "int" (some (.int 0))],
        successors := [1] },
      { id := 1, kind := .condition, statements := [.ident "x"], predecessors := [0, 2],
        successors := [2, 3] },
      { id := 2, kind := .base, predecessors := [1], successors := [1],
        statements := [.assignment .assign (.ident "x") (.call "next" [.ident "x"])] },
      { id := 3, kind := .base, statements := [.ret (some (.ident "x"))], predecessors := [1] },
      { id := 4, kind := .base, statements := [.declaration "x" "int" none] }]
    exit := 3 }

private theorem exists_of_block?_stepping {i : BlockId} {b : Block}
    (hb : stepping.block? i = some b) : b.id = i ∧ b.phis = [] := by
  obtain ⟨hi, rfl⟩ := Array.getElem?_eq_some_iff.1 hb
  have hblocks : ∀ i : Fin 5, stepping.blocks[i].id = i ∧ stepping.blocks[i].phis = [] := by decide
  exact hblocks ⟨i, hi⟩

theorem converted_changesNamesOnly_stepping :
    stepping.Numbered ∧ stepping.checkEdges = .ok () ∧ (∃ b, stepping.Live 0 b) ∧
      (∀ {i b}, stepping.block? i = some b → b.phis = []) ∧
      ∃ added placed versions g' report,
        (Edit.placePhis stepping.declared).run stepping = .ok added placed ∧
          (Edit.rename stepping.declared).run placed = .ok versions g' ∧
          stepping.converted = .ok (g', report) ∧ stepping.ChangesNamesOnly g' versions := by
  have hn : stepping.Numbered := fun i b hb => (exists_of_block?_stepping hb).1
  have hcheck : stepping.checkEdges = .ok () := rfl
  have hb : stepping.Live 0 _ := ⟨rfl, rfl⟩
  have hnone : ∀ {i b}, stepping.block? i = some b → b.phis = [] :=
    fun hb => (exists_of_block?_stepping hb).2
  exact ⟨hn, hcheck, ⟨_, hb⟩, hnone, converted_changesNamesOnly hn hcheck hb hnone⟩

end Graph

end FlowGraph
