import FlowGraph.Proofs.Ssa.Traced
import Mathlib

/-!
# Variables that are assigned and not declared

Assignments get versions whether or not their variable is declared, but phi nodes are placed for
declarations only. Where paths join, the versions of a variable that no reachable block declares are
those of the one way on which the walk came to the join first, the tree path. A path that has
defined the variable since its last join has forgotten which way that was; another path need not
agree with it.

## Main definitions

* `Graph.nameOn`: the name of a variable that is its last definition on a path
* `Graph.DefinedSinceJoins`: a path that defines a variable after its last join
* `Graph.TracksOneWay`: what conversion does with a variable that it places no phi nodes for

## Main results

* `Graph.Renaming.lastDefinition_eq`: such a path ends in the versions that a block starts from
* `Node.tracksOneWay_of_build`: conversion of the graphs that are built
-/

namespace FlowGraph

/-- Values with a default that is none of them. -/
private theorem getD_eq_getD_iff {first second : Option String} {name : String}
    (hfirst : first ≠ some name) (hsecond : second ≠ some name) :
    first.getD name = second.getD name ↔ first = second := by
  cases first <;> cases second <;> simp_all [eq_comm]

namespace Graph

variable {g g' : Graph} {b c : Block} {name version : String} {i j : BlockId} {k : Nat}
  {before : List BlockId} {report : ConversionReport}

/-- The name that a variable has in statement `k` of block `i` by its last definition on a path
there, its own name if there is none. -/
def nameOn (g g' : Graph) (name : String) (before : List BlockId) (i : BlockId) (k : Nat) :
    String :=
  (lastDefinition name (g.definitionsBefore g' before i k)).getD name

/-- On a path to statement `k` of block `i`, a variable is defined in or after each join. -/
def DefinedSinceJoins (g g' : Graph) (name : String) (before : List BlockId) (i : BlockId)
    (k : Nat) : Prop :=
  ∀ ⦃later⦄, later <:+ before → ∀ j b, (later ++ [i]).head? = some j → g.block? j = some b →
    b.isJoin = true → (lastDefinition name (g.definitionsBefore g' later i k)).isSome

/-- The graph `g` has become `g'`, in which a variable has no phi nodes. Its uses in a block name
the last definition on the tree path to the block. They name that on any other path if and only if
it is the same one. A path that defines the variable after its last join is of this kind. -/
structure TracksOneWay (g g' : Graph) (name : String) : Prop where
  phi : ∀ {i c phi}, g'.block? i = some c → phi ∈ c.phis → phi.base ≠ name
  path : ∀ {i}, i ∈ g.reachable → g.Path (g.treePath i) i
  use : ∀ {i b k} {s : Node} {m : Nat}, i ∈ g.reachable → g.block? i = some b →
    b.statements[k]? = some s → s.uses[m]? = some name →
      ∃ c, ∃ s' : Node, g'.block? i = some c ∧ c.statements[k]? = some s' ∧
        s'.uses[m]? = some (g.nameOn g' name (g.treePath i) i k) ∧
        ∀ before, g.Path before i →
          (s'.uses[m]? = some (g.nameOn g' name before i k) ↔
            lastDefinition name (g.definitionsBefore g' before i k) =
              lastDefinition name (g.definitionsBefore g' (g.treePath i) i k)) ∧
          (g.DefinedSinceJoins g' name before i k →
            s'.uses[m]? = some (g.nameOn g' name before i k))

/-- What is met before the end of a block. -/
theorem definitionsBefore_length (hb : g.block? i = some b) :
    g.definitionsBefore g' before i b.statements.length =
      g.definitionsAlong g' (before ++ [i]) := by
  rw [definitionsAlong_append_singleton, definitionsBefore, definitionsAt, hb]
  cases g'.block? i with
  | none => rfl
  | some c => rw [Option.elim_some, Option.elim_some, Option.elim_some, Option.elim_some,
      Block.definitionsUpTo_length]

/-- What a path forgets when its last block does not define the variable. -/
theorem DefinedSinceJoins.source {p : BlockId} {bp : Block}
    (h : g.DefinedSinceJoins g' name (before ++ [p]) i k) (hb : g.block? i = some b)
    (hc : g'.block? i = some c) (hnone : lastDefinition name (b.definitionsUpTo c k) = none)
    (hp : g.block? p = some bp) :
    g.DefinedSinceJoins g' name before p bp.statements.length := by
  intro later hlater j b' hj hb' hjoin
  have hsuffix : later ++ [p] <:+ before ++ [p] :=
    (List.suffix_append_inj_of_length_eq rfl).2 ⟨hlater, rfl⟩
  have hhead : (later ++ [p] ++ [i]).head? = some j := by
    rw [List.head?_append, hj, Option.some_or]
  have hsome := h hsuffix j b' hhead hb' hjoin
  rw [definitionsBefore_eq hb hc, lastDefinition_append, hnone, Option.none_or] at hsome
  rwa [definitionsBefore_length hp]

/-- On a path that defines a variable after its last join, the last definition is the version from
which its block was renamed. -/
theorem Renaming.lastDefinition_eq {phis : BlockId → List Phi} {r : Walk.Record RenamingFrame}
    {env : Std.TreeMap String String} (hr : g.Renaming phis r g') (hg : g.Mirrored)
    (hroot : g.Rooted) (path : g.Path before i) (hb : g.block? i = some b)
    (hc : g'.block? i = some c) (hstart : g.StartsFrom r i env)
    (hsince : g.DefinedSinceJoins g' name before i k) :
    lastDefinition name (g.definitionsBefore g' before i k) =
      (lastDefinition name (b.definitionsUpTo c k)).or env[name]? := by
  -- Back to the last definition a path has no joins, so there is one block to come from.
  induction path generalizing b c env k with
  | entry =>
    rcases hstart with ⟨-, rfl⟩ | ⟨p, frame, hframe, edge, -⟩
    · rw [definitionsBefore_eq hb hc, lastDefinition_append, Std.TreeMap.getElem?_emptyc]
      rfl
    · obtain ⟨way, hway⟩ := hr.along.path hframe
      have hnil := (hway.step edge).eq_nil_of_entry hg hroot
      cases List.append_ne_nil_of_right_ne_nil way (List.cons_ne_nil p []) hnil
  | @step before p i path edge ih =>
    rw [definitionsBefore_eq hb hc, lastDefinition_append]
    cases hown : lastDefinition name (b.definitionsUpTo c k) with
    | some version => rfl
    | none =>
      obtain ⟨b', hlive⟩ := (path.step edge).exists_live hg hroot
      obtain rfl := Option.some.inj (hb.symm.trans hlive.1)
      have hjoin : b.isJoin = false := by
        rw [Bool.eq_false_iff]
        intro hjoin
        have hsome := hsince List.nil_suffix i b rfl hb hjoin
        rw [definitionsBefore_eq hb hc, lastDefinition_append, hown] at hsome
        cases hsome
      obtain ⟨frame, hframe, rfl⟩ := hr.exists_source hg hroot path edge hlive hjoin hstart
      obtain ⟨bp, hp⟩ := path.exists_live hg hroot
      obtain ⟨cp, hcp, -⟩ := hr.received hp.1
      obtain ⟨envp, hstartp, hrenamed⟩ := hr.renamed hp.1 hcp hframe
      have hlast := ih hp.1 hcp hstartp (hsince.source hb hc hown hp.1)
      rw [definitionsBefore_length hp.1, Block.definitionsUpTo_length] at hlast
      rw [Option.none_or, Option.none_or, hlast, hrenamed.current]

/-- What a reachable block defines, other than by phi nodes, are versions. -/
theorem Traced.exists_versionName {way : List BlockId} (ht : g.Traced g' way i)
    (hphi : ∀ {c phi}, g'.block? i = some c → phi ∈ c.phis → phi.base ≠ name)
    (hmem : (name, version) ∈ g.definitionsAt g' i) : ∃ n, version = versionName name n := by
  unfold definitionsAt at hmem
  cases hb : g.block? i with
  | none =>
    rw [hb] at hmem
    cases hmem
  | some b =>
    cases hc : g'.block? i with
    | none =>
      rw [hb, hc] at hmem
      cases hmem
    | some c =>
      rw [hb, hc, Option.elim_some, Option.elim_some, Block.definitions] at hmem
      rcases List.mem_append.1 hmem with hmem | hmem
      · obtain ⟨phi, hphis, hdefinition⟩ := List.mem_filterMap.1 hmem
        obtain ⟨result, -, heq⟩ := Option.map_eq_some_iff.1 hdefinition
        exact absurd (Prod.mk.inj heq).1 (hphi hc hphis)
      · obtain ⟨⟨s, _⟩, hzip, hdefinition⟩ := List.mem_filterMap.1 hmem
        obtain ⟨l, hl⟩ := List.mem_iff_getElem?.1 hzip
        obtain ⟨hs, hs'⟩ := List.getElem?_zip_eq_some.1 hl
        obtain ⟨c', here, hc', -, hstatement, -⟩ := ht.statement hb hs
        obtain rfl := Option.some.inj (hc.symm.trans hc')
        obtain rfl : _ = (here.statement s).1 := Option.some.inj (hs'.symm.trans hstatement)
        obtain ⟨defined, hdefined, hdefinition⟩ := Option.bind_eq_some_iff.1 hdefinition
        rw [here.defined?_statement, hdefined] at hdefinition
        obtain ⟨rfl, rfl⟩ := Prod.mk.inj (Option.some.inj hdefinition)
        exact ⟨_, rfl⟩

/-- No variable without phi nodes has itself as its last definition on a path. -/
theorem lastDefinition_ne (hg : g.Mirrored) (hroot : g.Rooted) (h : g.converted = .ok (g', report))
    (hphi : ∀ {i c phi}, g'.block? i = some c → phi ∈ c.phis → phi.base ≠ name)
    (path : g.Path before i) :
    lastDefinition name (g.definitionsBefore g' before i k) ≠ some name := by
  intro hlast
  obtain ⟨j, hj, hmem⟩ := exists_mem_definitionsAt (mem_of_lastDefinition hlast)
  have ht := traced_of_converted h (path.mem_reachable_of_mem hg hroot hj)
  obtain ⟨n, hn⟩ := ht.exists_versionName hphi hmem
  exact versionName_ne name n hn.symm

/-- Only what a reachable block declares is a variable to convert. -/
theorem exists_declares_of_mem_declared (h : name ∈ g.declared) :
    ∃ i ∈ g.reachable, g.Declares i name := by
  rw [declared, Std.TreeSet.mem_ofList, List.contains_iff_mem, List.mem_flatMap] at h
  obtain ⟨b, hb, hname⟩ := h
  obtain ⟨i, hi, hb⟩ := List.mem_filterMap.1 hb
  exact ⟨i, hi, b, hb, hname⟩

namespace WellFormed

/-- Conversion tracks a variable that no reachable block declares on the tree path to each block. -/
theorem exists_tracksOneWay (hg : g.WellFormed)
    (hname : ∀ i ∈ g.reachable, ¬g.Declares i name) :
    ∃ g' report, g.converted = .ok (g', report) ∧ g.TracksOneWay g' name := by
  obtain ⟨g', report, phis, r, hconverted, hr, hcomplete⟩ := hg.exists_renaming
  have hm := hg.consistent.mirrored
  have hphi {i : BlockId} {c : Block} {phi : Phi} (hc : g'.block? i = some c)
      (hphi : phi ∈ c.phis) : phi.base ≠ name := by
    rintro rfl
    obtain ⟨j, hj, hdeclares⟩ := exists_declares_of_mem_declared
      (mem_declared_of_mem_phis hconverted hg.phis hc hphi)
    exact hname j hj hdeclares
  refine ⟨g', report, hconverted, hphi, path_treePath, fun {i b k s m} hi hb hs hm' => ?_⟩
  have ht := traced_of_converted hconverted hi
  obtain ⟨c, here, hc, -, hs', hcurrent⟩ := ht.statement hb hs
  have huse : (here.statement s).1.uses[m]? = some (g.nameOn g' name (g.treePath i) i k) := by
    rw [here.uses_statement, List.getElem?_map, hm', Option.map_some, hcurrent, nameOn]
  refine ⟨c, _, hc, hs', huse, fun before path => ?_⟩
  have hiff : (here.statement s).1.uses[m]? = some (g.nameOn g' name before i k) ↔
      lastDefinition name (g.definitionsBefore g' before i k) =
        lastDefinition name (g.definitionsBefore g' (g.treePath i) i k) := by
    rw [huse, Option.some_inj, eq_comm]
    exact getD_eq_getD_iff (lastDefinition_ne hm hg.rooted hconverted hphi path)
      (lastDefinition_ne hm hg.rooted hconverted hphi ht.path)
  refine ⟨hiff, fun hsince => ?_⟩
  obtain ⟨frame, hframe⟩ := hr.along.exists_frame hcomplete path
  obtain ⟨env, hstart, hrenamed⟩ := hr.renamed hb hc hframe
  obtain ⟨s₁, hs₁, -, huses⟩ := hrenamed.statement hs
  obtain rfl := Option.some.inj (hs'.symm.trans hs₁)
  rw [huses, List.getElem?_map, hm', Option.map_some, nameOn,
    hr.lastDefinition_eq hm hg.rooted path hb hc hstart hsince]

end WellFormed

end Graph

namespace Node

variable {node : Node} {options : Options} {log log' : Log} {g : Graph} {name : String}

/-- Conversion of a graph that was built succeeds. It places no phi nodes for a variable that no
reachable block declares, and the uses of the variable name its last definition on the tree path to
their block, or keep its name if there is none. On any other path they do so exactly if it agrees
with the tree path, in particular if it defines the variable after its last join. -/
theorem tracksOneWay_of_build (hbuild : (node.build options).run log = .ok g log')
    (hname : ∀ i ∈ g.reachable, ¬g.Declares i name) :
    ∃ g' report, g.converted = .ok (g', report) ∧ g.TracksOneWay g' name :=
  (wellFormed_of_build hbuild).exists_tracksOneWay hname

/-- A function that sets a variable of another scope under a condition and returns it. -/
private def setting : Node :=
  intFunction "f" [] [branch (ident "c") (assignment .assign (ident "g") (.int 1)) none,
    ret (some (ident "g"))]

/-- Its graph, with `name` for the variable. -/
private def settingGraph (name : String) : Graph :=
  { name := some "f"
    entry := 1
    exit := 8
    blocks := #[
      { id := 0, kind := .base, isDetached := true },
      { id := 1, kind := .base, successors := [4], label := some "function f start" },
      { id := 2, kind := .base, isDetached := true },
      { id := 3, kind := .base, isDetached := true },
      { id := 4, kind := .condition, statements := [ident "c"], predecessors := [1],
        successors := [5, 8] },
      { id := 5, kind := .base, statements := [assignment .assign (ident name) (.int 1)],
        predecessors := [4], successors := [8], color := .onTrue },
      { id := 6, kind := .base, color := .onFalse, isDetached := true },
      { id := 7, kind := .base, isDetached := true },
      { id := 8, kind := .base, statements := [ret (some (ident name))], predecessors := [5, 4],
        isFinal := true }] }

private def settingLog : Log :=
  { events := #[.built "f" 9, .simplified ⟨"f", 1, 2, 4⟩] }

private theorem build_setting :
    (setting.build {}).run {} = .ok (settingGraph "g") settingLog := by
  cbv

private theorem converted_setting :
    (settingGraph "g").converted = .ok (settingGraph "g_0", ⟨"f", 0, 0, 0⟩) := by
  cbv

private theorem not_declares_setting (i : BlockId) : ¬(settingGraph "g").Declares i "g" := by
  rintro ⟨b, hb, hname⟩
  obtain ⟨hi, rfl⟩ := Array.getElem?_eq_some_iff.1 hb
  have hblocks : ∀ i : Fin 9, "g" ∉ (settingGraph "g").blocks[i].declared := by decide
  exact hblocks ⟨i, hi⟩ hname

private theorem mem_reachable_setting :
    5 ∈ (settingGraph "g").reachable ∧ 8 ∈ (settingGraph "g").reachable := by
  have hentry : 1 ∈ (settingGraph "g").reachable :=
    Graph.mem_reachable_iff.2 ⟨by decide, .refl⟩
  have htest : 4 ∈ (settingGraph "g").reachable :=
    Graph.mem_reachable_of_mem_successors hentry (by decide) (by decide)
  exact ⟨Graph.mem_reachable_of_mem_successors htest (by decide) (by decide),
    Graph.mem_reachable_of_mem_successors htest (by decide) (by decide)⟩

/-- Around the branch. -/
private theorem path_setting : (settingGraph "g").Path [1, 4] 8 :=
  (Graph.Path.entry.step (j := 4) (by decide)).step (by decide)

private theorem phis_setting {i : BlockId} {c : Block}
    (hc : (settingGraph "g_0").block? i = some c) : c.phis = [] := by
  obtain ⟨hi, rfl⟩ := Array.getElem?_eq_some_iff.1 hc
  have hblocks : ∀ i : Fin 9, (settingGraph "g_0").blocks[i].phis = [] := by decide
  exact hblocks ⟨i, hi⟩

/-- On the path around the branch the variable is not assigned, and there are no phi nodes. Still
its use is a version: that of the assignment in the branch. -/
theorem use_setting_disagrees :
    ∃ g log g' report, (setting.build {}).run {} = .ok g log ∧
      g.converted = .ok (g', report) ∧ (∀ i ∈ g.reachable, ¬g.Declares i "g") ∧
      (∀ {i c}, g'.block? i = some c → c.phis = []) ∧
      (5 ∈ g.reachable ∧ ∃ b, ∃ s : Node, g.block? 5 = some b ∧ b.statements[0]? = some s ∧
        s.defined? = some "g") ∧
      8 ∈ g.reachable ∧ ∃ b c, ∃ s s' : Node, g.block? 8 = some b ∧ g'.block? 8 = some c ∧
        b.statements[0]? = some s ∧ c.statements[0]? = some s' ∧ s.uses[0]? = some "g" ∧
        s'.uses[0]? = some "g_0" ∧ g.Path [1, 4] 8 ∧
        lastDefinition "g" (g.definitionsBefore g' [1, 4] 8 0) = none :=
  ⟨_, _, _, _, build_setting, converted_setting, fun i _ => not_declares_setting i,
    fun hc => phis_setting hc, ⟨mem_reachable_setting.1, _, _, rfl, rfl, rfl⟩,
    mem_reachable_setting.2, _, _, _, _, rfl, rfl, rfl, rfl, rfl, rfl, path_setting, by decide⟩

private theorem treePath_setting : (settingGraph "g").treePath 8 = [1, 4, 5] := by
  have htest : (settingGraph "g").parent? 4 = some 1 := by cbv
  have hbranch : (settingGraph "g").parent? 5 = some 4 := by cbv
  have hreturn : (settingGraph "g").parent? 8 = some 5 := by cbv
  rw [Graph.treePath_of_parent? hreturn, Graph.treePath_of_parent? hbranch,
    Graph.treePath_of_parent? htest, Graph.treePath_of_parent?_eq_none]
  · rfl
  · exact Graph.parent?_entry _

/-- The walk comes to the return through the branch, so that what is returned there is the version
of the assignment. -/
theorem tracksOneWay_of_build_setting :
    (setting.build {}).run {} = .ok (settingGraph "g") settingLog ∧
      (∀ i ∈ (settingGraph "g").reachable, ¬(settingGraph "g").Declares i "g") ∧
      ∃ g' report, (settingGraph "g").converted = .ok (g', report) ∧
        (settingGraph "g").TracksOneWay g' "g" ∧ ∃ c, ∃ s' : Node, g'.block? 8 = some c ∧
          c.statements[0]? = some s' ∧ s'.uses[0]? = some "g_0" := by
  obtain ⟨g', report, hconverted, htracks⟩ :=
    tracksOneWay_of_build build_setting fun i _ => not_declares_setting i
  refine ⟨build_setting, fun i _ => not_declares_setting i, g', report, hconverted, htracks, ?_⟩
  obtain ⟨c, s', hc, hs', huse, -⟩ :=
    htracks.use (i := 8) (k := 0) (m := 0) mem_reachable_setting.2 rfl rfl rfl
  refine ⟨c, s', hc, hs', huse.trans ?_⟩
  cases hconverted.symm.trans converted_setting
  rw [treePath_setting]
  decide

end Node

end FlowGraph
