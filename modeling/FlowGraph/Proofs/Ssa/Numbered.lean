import FlowGraph.Proofs.Ssa.Shape
import FlowGraph.Proofs.Traversal.Ordered
import Mathlib.Data.List.Nodup

/-!
# How versions are numbered

The versions of a variable are numbered along the depth-first order of the blocks. What renaming
hands out over a whole graph can therefore be told from the graph as it was: the definitions of a
variable, counted along this order, get the versions from zero on.

## Main definitions

* `Block.definedNames`, `Graph.definedNamesAlong`: the variables that are defined, in order
* `Versions.Numbers`: definitions that got the versions handed out in between
* `Graph.NumbersDefinitions`: what renaming makes of the definitions of a graph

## Main results

* `Naming.numbers_block`: the definitions of a renamed block are numbered
* `Edit.numbersDefinitions_of_closed`: renaming numbers the definitions of a whole graph
-/

namespace FlowGraph

/-- The variables that a block defines, those of its phi nodes before those of its statements. -/
def Block.definedNames (block : Block) : List String :=
  block.phis.map (·.base) ++ block.statements.filterMap Node.defined?

/-- The variables that are defined in some blocks, in order. -/
def Graph.definedNamesAlong (g : Graph) (path : List BlockId) : List String :=
  path.flatMap fun i => (g.block? i).elim [] Block.definedNames

namespace Versions

/-- The definitions `made` are those for which versions were handed out between two counts, and each
variable got them in ascending order. -/
structure Numbers (before after : Versions) (made : List (String × String)) : Prop where
  count : ∀ name, after.count name = before.count name + (made.map (·.1)).count name
  versions : ∀ name, (made.filter (·.1 == name)).map (·.2) =
    (List.range' (before.count name) ((made.map (·.1)).count name)).map (versionName name)

namespace Numbers

variable {first second third : Versions} {made made' : List (String × String)}

theorem nil (versions : Versions) : versions.Numbers versions [] :=
  ⟨fun _ => rfl, fun _ => rfl⟩

/-- What is handed out later is numbered on from there. -/
theorem append (h : first.Numbers second made) (h' : second.Numbers third made') :
    first.Numbers third (made ++ made') where
  count := by
    intro name
    rw [h'.count, h.count, List.map_append, List.count_append, Nat.add_assoc]
  versions := by
    intro name
    rw [List.filter_append, List.map_append, h.versions, h'.versions, h.count, List.map_append,
      List.count_append, ← List.map_append, List.range'_append_1]

/-- A new version gets the number of versions before it. -/
theorem fresh (versions : Versions) (name : String) :
    versions.Numbers (versions.fresh name).2 [(name, (versions.fresh name).1)] where
  count := by
    intro other
    rw [count_fresh, List.map_singleton, List.count_singleton]
    by_cases h : name = other
    · simp [h]
    · simp [h]
  versions := by
    intro other
    rw [List.map_singleton, List.count_singleton]
    by_cases h : name = other
    · subst h
      simp [Versions.fresh]
    · simp [h]

end Numbers

/-- Declared variables start without versions. -/
theorem count_start (declared : Std.TreeSet String) (name : String) :
    (start declared).count name = 0 := by
  have hzero (counts : Std.TreeMap String Nat) (names : List String)
      (h : counts[name]?.getD 0 = 0) :
      (names.foldl (fun counts name => counts.insert name 0) counts)[name]?.getD 0 = 0 := by
    induction names generalizing counts with
    | nil => exact h
    | cons other names ih =>
      apply ih
      rw [Std.TreeMap.getElem?_insert]
      split
      · rfl
      · exact h
  rw [start, count, Std.TreeSet.foldl_eq_foldl_toList]
  exact hzero ∅ _ (by rw [Std.TreeMap.getElem?_emptyc]; rfl)

end Versions

namespace Naming

variable (naming : Naming)

/-- The phi nodes of a block are numbered in their order. -/
theorem numbers_phis (phis : List Phi) :
    naming.versions.Numbers (naming.phis phis).2.versions
      ((naming.phis phis).1.filterMap Phi.definition?) := by
  induction phis generalizing naming with
  | nil => exact .nil naming.versions
  | cons first rest ih =>
    exact (Versions.Numbers.fresh naming.versions first.base).append (ih (naming.phi first).2)

theorem numbers_statement (s : Node) :
    naming.versions.Numbers (naming.statement s).2.versions
      (s.definition? (naming.statement s).1).toList := by
  rw [Node.definition?, naming.defined?_statement]
  cases h : s.defined? with
  | none =>
    rw [naming.statement_of_defined?_eq_none s h]
    exact .nil naming.versions
  | some name =>
    rw [naming.statement_of_defined?_eq_some s h]
    exact .fresh naming.versions name

/-- So are the statements of a block. -/
theorem numbers_statements (statements : List Node) :
    naming.versions.Numbers (naming.statements statements).2.versions
      (definitions statements (naming.statements statements).1) := by
  induction statements generalizing naming with
  | nil => exact .nil naming.versions
  | cons s rest ih =>
    rw [statements_cons, definitions_cons]
    exact (naming.numbers_statement s).append (ih (naming.statement s).2)

/-- The definitions of a renamed block got the versions that were handed out for it. -/
theorem numbers_block {before block : Block} (h : block.statements = before.statements) :
    naming.versions.Numbers (naming.block block).2.versions
      (before.definitions (naming.block block).1) := by
  rw [Block.definitions, ← h]
  exact (naming.numbers_phis block.phis).append
    ((naming.phis block.phis).2.numbers_statements block.statements)

theorem names_phis (phis : List Phi) :
    ((naming.phis phis).1.filterMap Phi.definition?).map (·.1) = phis.map (·.base) := by
  induction phis generalizing naming with
  | nil => rfl
  | cons first rest ih =>
    rw [phis_cons, List.map_cons, ← ih (naming.phi first).2]
    rfl

theorem names_statements (statements : List Node) :
    (definitions statements (naming.statements statements).1).map (·.1) =
      statements.filterMap Node.defined? := by
  induction statements generalizing naming with
  | nil => rfl
  | cons s rest ih =>
    rw [statements_cons, definitions_cons, List.map_append, ih, Node.definition?,
      naming.defined?_statement, List.filterMap_cons]
    cases s.defined? <;> rfl

/-- Renaming a block gives a version to each of its definitions. -/
theorem names_block {before block : Block} (h : block.statements = before.statements)
    (hbases : block.phis.map (·.base) = before.phis.map (·.base)) :
    (before.definitions (naming.block block).1).map (·.1) = before.definedNames := by
  rw [Block.definitions, Block.definedNames, ← h, ← hbases, List.map_append]
  congr 1
  · exact naming.names_phis block.phis
  · exact (naming.phis block.phis).2.names_statements block.statements

end Naming

namespace Graph

variable {g g' : Graph} {b c : Block} {i j : BlockId} {order : List BlockId} {s : RenamingState}
  {frame : RenamingFrame} {versions : Versions}

/-- What is known in the middle of a renaming about the blocks entered so far, in order. -/
structure Numbering (g : Graph) (start : Versions) (order : List BlockId) (s : RenamingState) :
    Prop where
  outline : ∀ i, (s.graph.block? i).map Block.outline = (g.block? i).map Block.outline
  isSome : ∀ i ∈ order, (s.graph.block? i).isSome
  /-- A block that was not entered has the statements it had. -/
  waiting : ∀ {i b c}, i ∉ order → g.block? i = some b → s.graph.block? i = some c →
    c.statements = b.statements
  names : (g.definitionsAlong s.graph order).map (·.1) = g.definedNamesAlong order
  numbers : start.Numbers s.versions (g.definitionsAlong s.graph order)

namespace Numbering

theorem exists_block? (hn : g.Numbering versions order s) (hi : i < g.size) :
    ∃ b c, g.block? i = some b ∧ s.graph.block? i = some c ∧ c.outline = b.outline := by
  obtain ⟨b, hb⟩ := Option.isSome_iff_exists.1 (block?_isSome_iff.2 hi)
  have houtline := hn.outline i
  rw [hb, Option.map_some, Option.map_eq_some_iff] at houtline
  obtain ⟨c, hc, heq⟩ := houtline
  exact ⟨b, c, hb, hc, heq⟩

/-- Versions that arrive over an edge define nothing. -/
theorem cross (hn : g.Numbering versions order s) (frame : RenamingFrame) (j : BlockId) :
    g.Numbering versions order (RenamingState.cross frame j s) := by
  have halong : g.definitionsAlong (RenamingState.cross frame j s).graph order =
      g.definitionsAlong s.graph order :=
    definitionsAlong_congr fun k hk => ⟨s.sameDefinitions_cross frame j k, hn.isSome k hk⟩
  refine ⟨fun k => ?_, fun k hk => ?_, fun hk hb hc => ?_, ?_, ?_⟩
  · rw [s.outline_cross, hn.outline]
  · rw [s.isSome_block?_cross]
    exact hn.isSome k hk
  · obtain ⟨c', hc', hstatements⟩ := s.exists_of_block?_cross hc
    rw [← hstatements]
    exact hn.waiting hk hb hc'
  · rw [halong]
    exact hn.names
  · rw [halong]
    exact hn.numbers

/-- A new block is numbered after the blocks before it. -/
theorem enter (hn : g.Numbering versions order s) (hj : j ∉ order) (hb : g.block? j = some b)
    (hc : s.graph.block? j = some c) (current : Std.TreeMap String String) :
    g.Numbering versions (order ++ [j])
      ⟨s.graph.modify j fun _ => (Naming.block ⟨current, s.versions⟩ c).1,
        (Naming.block ⟨current, s.versions⟩ c).2.versions⟩ := by
  have hwaiting := hn.waiting hj hb hc
  have houtline := hn.outline j
  rw [hb, hc, Option.map_some, Option.map_some, Option.some_inj] at houtline
  have hnew : (s.graph.modify j fun _ =>
      (Naming.block ⟨current, s.versions⟩ c).1).block? j =
        some (Naming.block ⟨current, s.versions⟩ c).1 := by
    rw [block?_modify_self, hc, Option.map_some]
  have hother {k : BlockId} (hk : k ≠ j) : (s.graph.modify j fun _ =>
      (Naming.block ⟨current, s.versions⟩ c).1).block? k = s.graph.block? k := by
    rw [block?_modify, if_neg (Ne.symm hk)]
  -- The blocks before it define what they defined.
  have halong : g.definitionsAlong (s.graph.modify j fun _ =>
      (Naming.block ⟨current, s.versions⟩ c).1) order = g.definitionsAlong s.graph order := by
    refine definitionsAlong_congr fun k hk => ⟨fun d hd => ⟨d, ?_, rfl, rfl⟩, hn.isSome k hk⟩
    rw [hother (ne_of_mem_of_not_mem hk hj), hd]
  refine ⟨fun k => ?_, fun k hk => ?_, fun {k b' c'} hk hb' hc' => ?_, ?_, ?_⟩
  · rw [← hn.outline k]
    by_cases hk : k = j
    · subst hk
      rw [hnew, hc, Option.map_some, Option.map_some, Block.outline, Block.outline]
      congr 2
      exact Naming.bases_phis _ c.phis
    · rw [hother hk]
  · rcases List.mem_append.1 hk with hk | hk
    · rw [hother (ne_of_mem_of_not_mem hk hj)]
      exact hn.isSome k hk
    · rw [List.mem_singleton.1 hk, hnew, Option.isSome_some]
  · have hkj : k ≠ j := fun hkj => hk (hkj ▸ List.mem_append_right _ List.mem_cons_self)
    rw [hother hkj] at hc'
    exact hn.waiting (fun hmem => hk (List.mem_append_left _ hmem)) hb' hc'
  · have hnames : g.definedNamesAlong (order ++ [j]) =
        g.definedNamesAlong order ++ b.definedNames := by
      rw [definedNamesAlong, List.flatMap_append, List.flatMap_singleton, hb, Option.elim_some,
        definedNamesAlong]
    rw [definitionsAlong_append_singleton, halong, definitionsAt_eq hb hnew, List.map_append,
      hn.names, hnames]
    congr 1
    exact Naming.names_block _ hwaiting (congrArg Prod.snd houtline)
  · rw [definitionsAlong_append_singleton, halong, definitionsAt_eq hb hnew]
    exact hn.numbers.append (Naming.numbers_block ⟨current, s.versions⟩ hwaiting)

/-- Nothing is defined before the entry is entered. -/
theorem nil (g : Graph) (versions : Versions) : g.Numbering versions [] ⟨g, versions⟩ where
  outline := fun _ => rfl
  isSome := nofun
  waiting := by
    intro i b c _ hb hc
    obtain rfl := Option.some.inj (hb.symm.trans hc)
    rfl
  names := rfl
  numbers := .nil versions

end Numbering

end Graph

/-- What is known of the numbering in a renaming holds on, and the renaming does not fail. -/
theorem ordered_renamingWalk_numbering {g : Graph} (hg : g.Closed) (versions : Versions) :
    renamingWalk.Ordered g RenamingFrame.successors fun order _ s =>
      g.Numbering versions order s where
  slots := fun _ _ => rfl
  cross := fun hn _ _ _ => hn.cross _ _
  enter := by
    intro order r s i frame j hn _ hparent _ _ hfresh hj
    have hedge := (Graph.parent?_spec hparent).2
    obtain ⟨b, c, hb, hc, houtline⟩ :=
      hn.exists_block? (hg.edge (Graph.mem_reachable_of_parent? hparent) hedge)
    refine ⟨_, _, RenamingState.enter_eq_ok (Graph.find_eq_ok_iff.2 hc), ?_,
      hn.enter hfresh hb hc frame.current⟩
    rw [Graph.successors, hb, Option.elim_some]
    exact congrArg Prod.fst houtline

namespace Graph

/-- The graph `g` was renamed to `g'`, and `versions` were handed out. The definitions of a variable
in reachable blocks, in depth-first order, have got its versions from zero on. -/
structure NumbersDefinitions (g g' : Graph) (versions : Versions) : Prop where
  shape : g.SameShape g'
  /-- Each definition has got a version. -/
  names : (g.definitionsAlong g' g.reachable).map (·.1) = g.definedNamesAlong g.reachable
  /-- As many versions are counted as there are definitions. -/
  count : ∀ name, versions.count name = (g.definedNamesAlong g.reachable).count name
  /-- Along the order the versions of a variable are numbered from zero. -/
  numbered : ∀ name, ((g.definitionsAlong g' g.reachable).filter (·.1 == name)).map (·.2) =
    (List.range (versions.count name)).map (versionName name)
  /-- No two definitions, of one variable or of two, have got the same name. -/
  distinct : ((g.definitionsAlong g' g.reachable).map (·.2)).Nodup

/-- Numbered definitions have different names. -/
theorem nodup_of_numbered {made : List (String × String)}
    (h : ∀ name, (made.filter (·.1 == name)).map (·.2) =
      (List.range ((made.map (·.1)).count name)).map (versionName name)) :
    (made.map (·.2)).Nodup := by
  have hversion (pair : String × String) (hmem : pair ∈ made) :
      ∃ n, pair.2 = versionName pair.1 n := by
    have hfiltered : pair.2 ∈ (made.filter (·.1 == pair.1)).map (·.2) :=
      List.mem_map.2 ⟨_, List.mem_filter.2 ⟨hmem, beq_self_eq_true pair.1⟩, rfl⟩
    rw [h pair.1] at hfiltered
    obtain ⟨n, -, hn⟩ := List.mem_map.1 hfiltered
    exact ⟨n, hn.symm⟩
  rw [List.nodup_iff_count_le_one]
  intro version
  by_cases hmem : version ∈ made.map (·.2)
  · obtain ⟨⟨name, version'⟩, hpair, rfl⟩ := List.mem_map.1 hmem
    -- All definitions with this version are of the same variable, which has it once.
    have hcount : (made.map (·.2)).count version' =
        ((made.filter (·.1 == name)).map (·.2)).count version' := by
      rw [List.count_eq_countP, List.count_eq_countP, List.countP_map, List.countP_map,
        List.countP_filter]
      refine List.countP_congr fun pair hpair' => ?_
      simp only [Function.comp_apply, beq_iff_eq, Bool.and_eq_true]
      refine ⟨fun heq => ⟨heq, ?_⟩, fun heq => heq.1⟩
      obtain ⟨n, hn⟩ := hversion (name, version') hpair
      obtain ⟨m, hm⟩ := hversion pair hpair'
      exact (versionName_injective (hm.symm.trans (heq.trans hn))).1
    rw [hcount, h name]
    refine List.nodup_iff_count_le_one.1 (List.nodup_range.map ?_) version'
    exact fun n m hnm => (versionName_injective hnm).2
  · rw [List.count_eq_zero.2 hmem]
    exact Nat.zero_le 1

end Graph

/-- Renaming a graph without dangling edges succeeds, whatever its phi nodes and the declared
variables are. It hands out the versions of each variable from zero on, one for each definition in a
reachable block, in depth-first order. -/
theorem Edit.numbersDefinitions_of_closed {g : Graph} (hg : g.Closed)
    (declared : Std.TreeSet String) :
    ∃ versions g', (rename declared).run g = .ok versions g' ∧
      g.NumbersDefinitions g' versions := by
  obtain ⟨r, t, hrename, hn, -⟩ := exists_run_rename_of_closed hg
    (ordered_renamingWalk_numbering hg (.start declared)) declared fun hb =>
      (Graph.Numbering.nil g (.start declared)).enter (List.not_mem_nil (a := g.entry)) hb hb ∅
  have hcount (name : String) :
      t.versions.count name = (g.definedNamesAlong g.reachable).count name := by
    rw [hn.numbers.count, Versions.count_start, Nat.zero_add, hn.names]
  have hnumbered (name : String) :
      ((g.definitionsAlong t.graph g.reachable).filter (·.1 == name)).map (·.2) =
        (List.range (t.versions.count name)).map (versionName name) := by
    rw [hn.numbers.versions, Versions.count_start, hn.names, hcount, List.range_eq_range']
  refine ⟨t.versions, t.graph, hrename, sameShape_of_run_rename hrename, hn.names, hcount,
    hnumbered, ?_⟩
  refine Graph.nodup_of_numbered fun name => ?_
  rw [hnumbered, hcount, hn.names]

/-- A loop over two variables, one of which has the name of a version of the other. The last block
cannot be reached. -/
private def looping : Graph :=
  { blocks := #[
      { id := 0, kind := .base, successors := [1],
        statements := [.declaration "a" "int" none, .declaration "a_0" "int" (some (.ident "a"))] },
      { id := 1, kind := .condition, statements := [.ident "a_0"], predecessors := [0, 2],
        successors := [2, 3], phis := [.placeholder "a", .placeholder "a_0"] },
      { id := 2, kind := .base, predecessors := [1], successors := [1],
        statements := [.assignment .assign (.ident "a") (.ident "a_0")] },
      { id := 3, kind := .base, predecessors := [1] },
      { id := 4, kind := .base, statements := [.declaration "a" "int" none] }]
    exit := 3 }

private theorem reachable_looping : looping.reachable = [0, 1, 2, 3] := by
  cbv

private theorem closed_looping : looping.Closed where
  entry := by decide
  edge := by
    intro i j hi hj
    have hclosed : ∀ i ∈ [0, 1, 2, 3], ∀ j ∈ looping.successors i, j < looping.size := by decide
    rw [reachable_looping] at hi
    exact hclosed i hi j hj

theorem Edit.numbersDefinitions_looping :
    looping.Closed ∧ ∃ versions g', (rename ∅).run looping = .ok versions g' ∧
      looping.NumbersDefinitions g' versions :=
  ⟨closed_looping, numbersDefinitions_of_closed closed_looping ∅⟩

end FlowGraph
