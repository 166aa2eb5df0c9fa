import FlowGraph.Proofs.Ssa.Shape
import Mathlib

/-!
# What is assigned once

Every version is handed out once, so no two phi nodes or statements of a converted graph define the
same one. This is said about what a statement as a whole defines. An assignment inside a statement,
such as the one to `b` in `a = (b = 1)`, gets no version: its target is renamed like a use, and
names a version that some phi node or statement has defined before.

## Main definitions

* `Node.nested`: the definitions inside a statement
* `Graph.targets`, `Graph.nestedWrites`, `Graph.writes`: what a graph writes to
* `Naming.Mints`: versions that were handed out between two namings
* `Graph.AssignsOnce`: what conversion makes of the definitions of a graph

## Main results

* `Naming.mints_block`: a renamed block defines versions that were handed out for it
* `Node.assignsOnce_of_build`: conversion of the graphs that are built
-/

namespace FlowGraph

namespace Node

mutual

/-- The nodes inside a statement that a substitution goes through, each before those inside it. -/
def inner : Node → List Node
  | declaration _ _ init => innerOptional init
  | assignment _ target value => target :: target.inner ++ value :: value.inner
  | binary _ left right => left :: left.inner ++ right :: right.inner
  | unary _ operand => operand :: operand.inner
  | ret value => innerOptional value
  | call _ args => innerAll args
  | _ => []

/-- A child that may be absent, with the nodes inside it. -/
def innerOptional : Option Node → List Node
  | none => []
  | some node => node :: node.inner

/-- The nodes of a list, each with those inside it. -/
def innerAll : List Node → List Node
  | [] => []
  | node :: rest => node :: node.inner ++ innerAll rest

end

/-- The declarations and the assignments to plain identifiers inside a statement. -/
def nested (s : Node) : List Node :=
  s.inner.filter (·.defined?.isSome)

section Substitution

variable (lookup : String → Option String)

mutual

theorem inner_substitute : (node : Node) →
    (node.substitute lookup).inner = node.inner.map (·.substitute lookup)
  | declaration _ _ init => by rw [substitute, inner, inner, innerOptional_substituteOptional init]
  | assignment _ target value => by
    rw [substitute, inner, inner, inner_substitute target, inner_substitute value]
    simp
  | binary _ left right => by
    rw [substitute, inner, inner, inner_substitute left, inner_substitute right]
    simp
  | unary _ operand => by rw [substitute, inner, inner, inner_substitute operand, List.map_cons]
  | ret value => by rw [substitute, inner, inner, innerOptional_substituteOptional value]
  | call _ args => by rw [substitute, inner, inner, innerAll_substituteAll args]
  | ident _ => rfl
  | function .. | declarator .. | parameters .. | compound .. | branch .. | whileLoop ..
  | forLoop .. | jump .. | constant .. => rfl

theorem innerOptional_substituteOptional : (node : Option Node) →
    innerOptional (substituteOptional lookup node) =
      (innerOptional node).map (·.substitute lookup)
  | none => rfl
  | some node => by
    rw [substituteOptional, innerOptional, innerOptional, inner_substitute node, List.map_cons]

theorem innerAll_substituteAll : (nodes : List Node) →
    innerAll (substituteAll lookup nodes) = (innerAll nodes).map (·.substitute lookup)
  | [] => rfl
  | node :: rest => by
    rw [substituteAll, innerAll, innerAll, inner_substitute node, innerAll_substituteAll rest]
    simp

end

/-- A substitution goes through the definitions inside a statement one by one. -/
theorem nested_substitute (s : Node) :
    (s.substitute lookup).nested = s.nested.map (·.substitute lookup) := by
  rw [nested, nested, inner_substitute, List.filter_map]
  congr 1
  exact List.filter_congr fun part _ => isSome_defined?_substitute lookup part

/-- The variable that a statement as a whole defines is not defined inside it. -/
@[simp] theorem nested_withDefined (name : String) (s : Node) :
    (s.withDefined name).nested = s.nested := by
  cases s with
  | assignment op target value => cases target <;> rfl
  | _ => rfl

end Substitution

end Node

/-- The definitions inside a statement are renamed like its uses. -/
theorem Naming.nested_statement (naming : Naming) (s : Node) :
    (naming.statement s).1.nested = s.nested.map (·.substitute (naming.current[·]?)) := by
  cases h : s.defined? with
  | none => rw [naming.statement_of_defined?_eq_none s h, Node.nested_substitute]
  | some name =>
    rw [naming.statement_of_defined?_eq_some s h, Node.nested_withDefined, Node.nested_substitute]

namespace Block

/-- What the phi nodes and the statements of a block define. -/
def targets (block : Block) : List String :=
  block.phis.filterMap (·.result) ++ block.statements.filterMap Node.defined?

/-- What is defined inside the statements of a block. -/
def nestedWrites (block : Block) : List String :=
  block.statements.flatMap fun s => s.nested.filterMap Node.defined?

/-- All that is written in a block: the results of phi nodes, and what statements define as a whole
and inside. -/
def writes (block : Block) : List String :=
  block.phis.filterMap (·.result) ++
    block.statements.flatMap fun s => (s :: s.nested).filterMap Node.defined?

theorem writes_perm (block : Block) : block.writes.Perm (block.targets ++ block.nestedWrites) := by
  rw [writes, targets, List.append_assoc]
  refine .append_left _ ?_
  rw [nestedWrites]
  induction block.statements with
  | nil => exact .refl _
  | cons s rest ih =>
    rw [List.flatMap_cons, List.flatMap_cons, List.filterMap_cons, List.filterMap_cons]
    -- What is defined inside the first statement moves behind what the others define.
    have hmove := (List.perm_append_comm_assoc (s.nested.filterMap Node.defined?)
      (rest.filterMap Node.defined?) (rest.flatMap fun s => s.nested.filterMap Node.defined?))
    have hrest := (ih.append_left (s.nested.filterMap Node.defined?)).trans hmove
    cases s.defined? with
    | none => exact hrest
    | some name => exact hrest.cons name

theorem mem_targets_of_mem_definitions {before after : Block} {name version : String}
    (h : (name, version) ∈ before.definitions after) : version ∈ after.targets := by
  rcases List.mem_append.1 h with h | h
  · obtain ⟨phi, hphi, hdefinition⟩ := List.mem_filterMap.1 h
    obtain ⟨result, hresult, heq⟩ := Option.map_eq_some_iff.1 hdefinition
    obtain ⟨rfl, rfl⟩ := Prod.mk.inj heq
    exact List.mem_append_left _ (List.mem_filterMap.2 ⟨phi, hphi, hresult⟩)
  · obtain ⟨⟨s, s'⟩, hzip, hdefinition⟩ := List.mem_filterMap.1 h
    obtain ⟨defined, -, hdefinition⟩ := Option.bind_eq_some_iff.1 hdefinition
    obtain ⟨result, hresult, heq⟩ := Option.map_eq_some_iff.1 hdefinition
    obtain ⟨rfl, rfl⟩ := Prod.mk.inj heq
    exact List.mem_append_right _ (List.mem_filterMap.2 ⟨s', (List.of_mem_zip hzip).2, hresult⟩)

theorem targets_receive {c : Block} {source : BlockId} {current : Std.TreeMap String String} :
    (c.receive source current).targets = c.targets := by
  rw [targets, targets, statements_receive]
  congr 1
  cases hjoin : c.isJoin with
  | false => rw [receive_of_not_isJoin hjoin]
  | true =>
    rw [phis_receive hjoin, List.filterMap_map]
    rfl

end Block

namespace Naming

/-- The names `minted` were handed out between two namings, each of them once. -/
structure Mints (naming naming' : Naming) (minted : List String) : Prop where
  leads : naming.Leads naming'
  nodup : minted.Nodup
  exists_versionName : ∀ version ∈ minted, ∃ name n, naming.versions.count name ≤ n ∧
    n < naming'.versions.count name ∧ version = versionName name n

namespace Mints

theorem nil (naming : Naming) : naming.Mints naming [] :=
  ⟨fun _ => Nat.le_refl _, List.nodup_nil, by simp⟩

/-- What is handed out later is something else. -/
theorem append {first second third : Naming} {before after : List String}
    (h : first.Mints second before) (h' : second.Mints third after) :
    first.Mints third (before ++ after) where
  leads := h.leads.trans h'.leads
  nodup := by
    refine h.nodup.append h'.nodup fun version hbefore hafter => ?_
    obtain ⟨name, n, -, hn, rfl⟩ := h.exists_versionName version hbefore
    obtain ⟨other, m, hm, -, heq⟩ := h'.exists_versionName _ hafter
    obtain ⟨rfl, rfl⟩ := versionName_injective heq
    exact Nat.lt_irrefl _ (Nat.lt_of_lt_of_le hn hm)
  exists_versionName := by
    intro version hversion
    rcases List.mem_append.1 hversion with hversion | hversion
    · obtain ⟨name, n, hle, hlt, rfl⟩ := h.exists_versionName version hversion
      exact ⟨name, n, hle, Nat.lt_of_lt_of_le hlt (h'.leads name), rfl⟩
    · obtain ⟨name, n, hle, hlt, rfl⟩ := h'.exists_versionName version hversion
      exact ⟨name, n, Nat.le_trans (h.leads name) hle, hlt, rfl⟩

end Mints

variable (naming : Naming)

theorem mints_define (name : String) :
    naming.Mints (naming.define name).2 [(naming.define name).1] where
  leads := naming.leads_define name
  nodup := List.nodup_singleton _
  exists_versionName := by
    intro version hversion
    refine ⟨name, naming.versions.count name, Nat.le_refl _, ?_, List.mem_singleton.1 hversion⟩
    change _ < (naming.versions.fresh name).2.count name
    rw [Versions.count_fresh, if_pos rfl]
    exact Nat.lt_succ_self _

theorem mints_phis (phis : List Phi) :
    naming.Mints (naming.phis phis).2 ((naming.phis phis).1.filterMap (·.result)) := by
  induction phis generalizing naming with
  | nil => exact .nil naming
  | cons first rest ih => exact (naming.mints_define first.base).append (ih (naming.phi first).2)

theorem mints_statement (s : Node) :
    naming.Mints (naming.statement s).2 (naming.statement s).1.defined?.toList := by
  rw [naming.defined?_statement]
  cases h : s.defined? with
  | none =>
    rw [naming.statement_of_defined?_eq_none s h]
    exact .nil naming
  | some name =>
    rw [naming.statement_of_defined?_eq_some s h]
    exact naming.mints_define name

theorem mints_statements (statements : List Node) :
    naming.Mints (naming.statements statements).2
      ((naming.statements statements).1.filterMap Node.defined?) := by
  induction statements generalizing naming with
  | nil => exact .nil naming
  | cons s rest ih =>
    have hsplit : (naming.statements (s :: rest)).1.filterMap Node.defined? =
        (naming.statement s).1.defined?.toList ++
          ((naming.statement s).2.statements rest).1.filterMap Node.defined? := by
      rw [statements_cons, List.filterMap_cons]
      cases (naming.statement s).1.defined? <;> rfl
    rw [hsplit]
    exact (naming.mints_statement s).append (ih (naming.statement s).2)

/-- What a renamed block defines was handed out for it. -/
theorem mints_block (block : Block) :
    naming.Mints (naming.block block).2 (naming.block block).1.targets :=
  (naming.mints_phis block.phis).append
    ((naming.phis block.phis).2.mints_statements block.statements)

end Naming

namespace Graph

variable {g g' h : Graph} {b c d : Block} {i j : BlockId} {r : Walk.Record RenamingFrame}
  {s : RenamingState} {frame : RenamingFrame}

/-- What the phi nodes and the statements of reachable blocks define. -/
def targets (g : Graph) : List String :=
  g.reachableBlocks.flatMap Block.targets

/-- What is defined inside the statements of reachable blocks. -/
def nestedWrites (g : Graph) : List String :=
  g.reachableBlocks.flatMap Block.nestedWrites

/-- All that is written in reachable blocks. -/
def writes (g : Graph) : List String :=
  g.reachableBlocks.flatMap Block.writes

theorem writes_perm (g : Graph) : g.writes.Perm (g.targets ++ g.nestedWrites) := by
  rw [writes, targets, nestedWrites]
  exact (List.Perm.flatMap_left _ fun b _ => b.writes_perm).trans
    (List.flatMap_append_perm _ _ _).symm

/-- What is known in the middle of a renaming about the definitions in the blocks that were
entered. -/
structure Minting (r : Walk.Record RenamingFrame) (s : RenamingState) : Prop where
  nodup : ∀ {i c}, (r.frame? i).isSome → s.graph.block? i = some c → c.targets.Nodup
  /-- What is defined was handed out before. -/
  issued : ∀ {i c}, (r.frame? i).isSome → s.graph.block? i = some c → ∀ version ∈ c.targets,
    ∃ name n, n < s.versions.count name ∧ version = versionName name n
  disjoint : ∀ {i j c d}, (r.frame? i).isSome → (r.frame? j).isSome → i ≠ j →
    s.graph.block? i = some c → s.graph.block? j = some d → c.targets.Disjoint d.targets

namespace Minting

/-- Versions that arrive over an edge change operands only. -/
theorem cross (hm : Minting r s) (i : BlockId) (frame : RenamingFrame) (j : BlockId) :
    Minting (r.cross i) (RenamingState.cross frame j s) := by
  have hsame {k : BlockId} {c : Block}
      (hc : (RenamingState.cross frame j s).graph.block? k = some c) :
      ∃ c', s.graph.block? k = some c' ∧ c'.targets = c.targets := by
    rw [RenamingState.cross, block?_modify] at hc
    split at hc
    · obtain ⟨c', hc', rfl⟩ := Option.map_eq_some_iff.1 hc
      exact ⟨c', hc', Block.targets_receive.symm⟩
    · exact ⟨c, hc, rfl⟩
  refine ⟨fun hk hc => ?_, fun hk hc => ?_, fun hk hl hne hc hd => ?_⟩
  · obtain ⟨c', hc', heq⟩ := hsame hc
    exact heq ▸ hm.nodup hk hc'
  · obtain ⟨c', hc', heq⟩ := hsame hc
    exact heq ▸ hm.issued hk hc'
  · obtain ⟨c', hc', heq⟩ := hsame hc
    obtain ⟨d', hd', heq'⟩ := hsame hd
    exact heq ▸ heq' ▸ hm.disjoint hk hl hne hc' hd'

/-- A new block defines what is handed out for it, so none of what was defined before. -/
theorem enter (hm : Minting r s) (hnew : r.frame? j = none) (hc : s.graph.block? j = some c)
    (current : Std.TreeMap String String) (child : RenamingFrame) :
    Minting (r.enter j child)
      ⟨s.graph.modify j fun _ => (Naming.block ⟨current, s.versions⟩ c).1,
        (Naming.block ⟨current, s.versions⟩ c).2.versions⟩ := by
  have hmints := Naming.mints_block ⟨current, s.versions⟩ c
  -- A block that counts as entered now is the new one, or it is as it was.
  have hcases {k : BlockId} {d : Block} (hk : ((r.enter j child).frame? k).isSome)
      (hd : (s.graph.modify j fun _ =>
        (Naming.block ⟨current, s.versions⟩ c).1).block? k = some d) :
      k = j ∧ d = (Naming.block ⟨current, s.versions⟩ c).1 ∨
        k ≠ j ∧ (r.frame? k).isSome ∧ s.graph.block? k = some d := by
    by_cases hkj : k = j
    · subst hkj
      rw [block?_modify_self, hc, Option.map_some] at hd
      exact .inl ⟨rfl, (Option.some.inj hd).symm⟩
    · rw [r.frame?_enter_of_ne child hkj] at hk
      rw [block?_modify, if_neg (Ne.symm hkj)] at hd
      exact .inr ⟨hkj, hk, hd⟩
  have hfresh {k : BlockId} {d : Block} (hk : (r.frame? k).isSome)
      (hd : s.graph.block? k = some d) :
      d.targets.Disjoint (Naming.block ⟨current, s.versions⟩ c).1.targets := by
    intro version hold hminted
    obtain ⟨name, n, hn, rfl⟩ := hm.issued hk hd version hold
    obtain ⟨other, m, hm', -, heq⟩ := hmints.exists_versionName _ hminted
    obtain ⟨rfl, rfl⟩ := versionName_injective heq
    exact Nat.lt_irrefl _ (Nat.lt_of_lt_of_le hn hm')
  refine ⟨fun hk hd => ?_, fun hk hd version hversion => ?_, fun hk hl hne hd he => ?_⟩
  · rcases hcases hk hd with ⟨-, rfl⟩ | ⟨-, hk', hd'⟩
    · exact hmints.nodup
    · exact hm.nodup hk' hd'
  · rcases hcases hk hd with ⟨-, rfl⟩ | ⟨-, hk', hd'⟩
    · obtain ⟨name, n, -, hn, rfl⟩ := hmints.exists_versionName version hversion
      exact ⟨name, n, hn, rfl⟩
    · obtain ⟨name, n, hn, rfl⟩ := hm.issued hk' hd' version hversion
      exact ⟨name, n, Nat.lt_of_lt_of_le hn (hmints.leads name), rfl⟩
  · rcases hcases hk hd with ⟨hkj, rfl⟩ | ⟨-, hk', hd'⟩ <;>
      rcases hcases hl he with ⟨hlj, rfl⟩ | ⟨-, hl', he'⟩
    · exact absurd (hkj.trans hlj.symm) hne
    · exact (hfresh hl' he').symm
    · exact hfresh hk' hd'
    · exact hm.disjoint hk' hl' hne hd' he'

/-- Nothing is defined before the entry is renamed. -/
theorem start (hb : g.block? g.entry = some b) (versions : Versions) (frame : RenamingFrame) :
    Minting (.start g.entry frame)
      ⟨g.modify g.entry fun _ => (Naming.block ⟨∅, versions⟩ b).1,
        (Naming.block ⟨∅, versions⟩ b).2.versions⟩ := by
  have hnone : Minting ⟨fun _ => none, fun _ => 0⟩ ⟨g, versions⟩ :=
    ⟨(nomatch ·), (nomatch ·), (nomatch ·)⟩
  rw [Walk.Record.start_eq_enter]
  exact hnone.enter rfl hb ∅ frame

end Minting

end Graph

/-- What is recorded of the definitions in a renaming. -/
theorem minting_renamingWalk : renamingWalk.Recorded RenamingFrame.successors Graph.Minting where
  slots := fun _ _ => rfl
  cross := fun hm _ _ => hm.cross _ _ _
  enter := by
    intro r s i frame j child s' hm _ _ hnew henter
    obtain ⟨c, hc, -, rfl⟩ := RenamingState.exists_of_enter_eq_ok henter
    exact hm.enter hnew hc frame.current child

namespace Graph

variable {g g' : Graph} {b c : Block} {i : BlockId} {k : Nat} {report : ConversionReport}
  {name version : String}

theorem nodup_targets_of_run_rename {wanted : Std.TreeSet String} {versions : Versions}
    (hrun : (Edit.rename wanted).run g = .ok versions g') : g'.targets.Nodup := by
  have hreachable := (Edit.sameShape_of_run_rename hrun).reachable_eq
  obtain ⟨r, s, rfl, ⟨ht, hm⟩, hcomplete⟩ := Edit.exists_record_of_run_rename
    ((recorded_renamingWalk g).and minting_renamingWalk)
    (fun hb => ⟨.start hb _, .start hb _ _⟩) hrun
  have hentered {i : BlockId} (hi : i ∈ s.graph.reachable) : (r.frame? i).isSome := by
    obtain ⟨before, path⟩ := exists_path_of_mem_reachable (hreachable ▸ hi)
    exact Option.isSome_iff_exists.2 (ht.along.exists_frame hcomplete path)
  refine List.nodup_flatMap.2 ⟨fun c hc => ?_, ?_⟩
  · obtain ⟨i, hi, hc⟩ := List.mem_filterMap.1 hc
    exact hm.nodup (hentered hi) hc
  · refine List.pairwise_filterMap.2 (s.graph.nodup_reachable.imp_of_mem ?_)
    intro i j hi hj hne c hc d hd
    exact hm.disjoint (hentered hi) (hentered hj) hne hc hd

/-- No two phi nodes or statements of a converted graph define the same version. -/
theorem nodup_targets_of_converted (h : g.converted = .ok (g', report)) : g'.targets.Nodup := by
  obtain ⟨added, placed, versions, -, hrename⟩ := exists_converted_iff.1 ⟨report, h⟩
  exact nodup_targets_of_run_rename hrename

theorem nestedWrites_eq_nil_iff : g.nestedWrites = [] ↔
    ∀ i ∈ g.reachable, ∀ b, g.block? i = some b → ∀ s ∈ b.statements, s.nested = [] := by
  have hnested (s : Node) : s.nested.filterMap Node.defined? = [] ↔ s.nested = [] := by
    rw [List.filterMap_eq_nil_iff, List.eq_nil_iff_forall_not_mem]
    refine forall_congr' fun part => ⟨fun h hpart => ?_, fun h hpart => absurd hpart h⟩
    have hsome := (List.mem_filter.1 hpart).2
    rw [h hpart] at hsome
    cases hsome
  simp only [nestedWrites, Block.nestedWrites, List.flatMap_eq_nil_iff, hnested, reachableBlocks,
    List.mem_filterMap]
  refine ⟨fun h i hi b hb => h b ⟨i, hi, hb⟩, fun h b hmem => ?_⟩
  obtain ⟨i, hi, hb⟩ := hmem
  exact h i hi b hb

/-- The graph `g` has become `g'`, in which no two phi nodes or statements define the same version.
A definition inside a statement gets no version of its own. -/
structure AssignsOnce (g g' : Graph) : Prop where
  targets : g'.targets.Nodup
  /-- An assignment inside a statement is renamed like a use, by the last definitions on the tree
  path to its block. What it writes to, if that has a version, is the target of a phi node or
  statement. -/
  nested : ∀ {i b k} {s : Node}, i ∈ g.reachable → g.block? i = some b →
    b.statements[k]? = some s → ∃ c, ∃ s' : Node, g'.block? i = some c ∧
      c.statements[k]? = some s' ∧
      s'.nested = s.nested.map (·.substitute fun name =>
        lastDefinition name (g.definitionsBefore g' (g.treePath i) i k)) ∧
      ∀ name version,
        lastDefinition name (g.definitionsBefore g' (g.treePath i) i k) = some version →
          version ∈ g'.targets
  /-- Whether everything is written once depends on the definitions inside statements. -/
  writes : g'.writes.Nodup ↔ g'.nestedWrites.Nodup ∧ g'.targets.Disjoint g'.nestedWrites
  /-- It is if there are none. -/
  plain : g.nestedWrites = [] → g'.writes.Nodup

/-- The last definition on a path is one that a phi node or a statement makes. -/
theorem mem_targets_of_lastDefinition {way : List BlockId} (hg : g.Mirrored) (hroot : g.Rooted)
    (hshape : g.SameShape g') (path : g.Path way i)
    (h : lastDefinition name (g.definitionsBefore g' way i k) = some version) :
    version ∈ g'.targets := by
  obtain ⟨j, hj, hmem⟩ := exists_mem_definitionsAt (mem_of_lastDefinition h)
  obtain ⟨shorter, hshorter⟩ := (exists_path_iff hg hroot).2 (path.mem_reachable_of_mem hg hroot hj)
  obtain ⟨b, hb⟩ := hshorter.exists_live hg hroot
  obtain ⟨c, hc, -⟩ := hshape.exists_block? hb.1
  rw [definitionsAt_eq hb.1 hc] at hmem
  refine mem_flatMap_reachableBlocks_iff.2
    ⟨j, ?_, c, hc, Block.mem_targets_of_mem_definitions hmem⟩
  rw [hshape.reachable_eq]
  exact path.mem_reachable_of_mem hg hroot hj

/-- What a conversion that has succeeded makes of the definitions of a well-formed graph. -/
theorem assignsOnce_of_converted (hg : g.WellFormed) (h : g.converted = .ok (g', report)) :
    g.AssignsOnce g' := by
  have hshape := sameShape_of_converted h
  have htargets := nodup_targets_of_converted h
  have hnested : ∀ {i b k} {s : Node}, i ∈ g.reachable → g.block? i = some b →
      b.statements[k]? = some s → ∃ c, ∃ s' : Node, g'.block? i = some c ∧
        c.statements[k]? = some s' ∧ s'.nested = s.nested.map (·.substitute fun name =>
          lastDefinition name (g.definitionsBefore g' (g.treePath i) i k)) := by
    intro i b k s hi hb hs
    obtain ⟨c, here, hc, -, hs', hcurrent⟩ := (traced_of_converted h hi).statement hb hs
    refine ⟨c, _, hc, hs', ?_⟩
    rw [here.nested_statement, funext hcurrent]
  have hwrites : g'.writes.Nodup ↔
      g'.nestedWrites.Nodup ∧ g'.targets.Disjoint g'.nestedWrites := by
    rw [g'.writes_perm.nodup_iff, List.nodup_append']
    exact and_iff_right htargets
  refine ⟨htargets, fun {i b k s} hi hb hs => ?_, hwrites, fun hnone => hwrites.2 ?_⟩
  · obtain ⟨c, s', hc, hs', heq⟩ := hnested hi hb hs
    exact ⟨c, s', hc, hs', heq, fun name version =>
      mem_targets_of_lastDefinition hg.consistent.mirrored hg.rooted hshape (path_treePath hi)⟩
  -- Without definitions inside statements there are none after conversion.
  · have hnone' : g'.nestedWrites = [] := by
      refine nestedWrites_eq_nil_iff.2 fun i hi c hc s' hs' => ?_
      rw [hshape.reachable_eq] at hi
      obtain ⟨k, hk⟩ := List.mem_iff_getElem?.1 hs'
      obtain ⟨b, s, hb, hs⟩ := hshape.symm.exists_statement hc hk
      obtain ⟨c', s'', hc', hs'', hmap⟩ := hnested hi hb hs
      obtain rfl := Option.some.inj (hc.symm.trans hc')
      obtain rfl := Option.some.inj (hk.symm.trans hs'')
      rw [hmap, nestedWrites_eq_nil_iff.1 hnone i hi b hb _ (List.mem_of_getElem? hs),
        List.map_nil]
    rw [hnone']
    exact ⟨List.nodup_nil, List.disjoint_nil_right _⟩

end Graph

namespace Node

variable {node : Node} {options : Options} {log log' : Log} {g : Graph}

/-- Conversion of a graph that was built succeeds, and no two phi nodes or statements define the
same version then. An assignment inside a statement writes to the version that its variable had
before, so a graph without such assignments has everything written once. -/
theorem assignsOnce_of_build (hbuild : (node.build options).run log = .ok g log') :
    ∃ g' report, g.converted = .ok (g', report) ∧ g.AssignsOnce g' := by
  have hg := wellFormed_of_build hbuild
  obtain ⟨g', report, -, -, hconverted, -⟩ := hg.exists_renaming
  exact ⟨g', report, hconverted, Graph.assignsOnce_of_converted hg hconverted⟩

/-- A function that sets two variables in one statement. -/
private def chained : Node :=
  intFunction "f" [] [declaration "b" "int" (some (.int 0)),
    assignment .assign (ident "a") (assignment .assign (ident "b") (.int 1))]

/-- Its graph, with names for the two variables. -/
private def chainedGraph (a b : String) : Graph :=
  { name := some "f"
    entry := 1
    exit := 1
    blocks := #[
      { id := 0, kind := .base, isDetached := true },
      { id := 1, kind := .base, label := some "function f start",
        statements := [declaration b "int" (some (.int 0)),
          assignment .assign (ident a) (assignment .assign (ident b) (.int 1))] },
      { id := 2, kind := .base, isDetached := true },
      { id := 3, kind := .base, isDetached := true },
      { id := 4, kind := .base, isDetached := true }] }

private def chainedLog : Log :=
  { events := #[.built "f" 5, .simplified ⟨"f", 1, 2, 1⟩] }

private theorem build_chained :
    (chained.build {}).run {} = .ok (chainedGraph "a" "b") chainedLog := by
  cbv

private theorem converted_chained :
    (chainedGraph "a" "b").converted = .ok (chainedGraph "a_0" "b_0", ⟨"f", 1, 0, 1⟩) := by
  cbv

private theorem writes_chained : (chainedGraph "a_0" "b_0").writes = ["b_0", "a_0", "b_0"] := by
  cbv

/-- The inner assignment writes to the version that the declaration has defined. -/
theorem writes_chained_repeats :
    ∃ g log g' report, (chained.build {}).run {} = .ok g log ∧
      g.converted = .ok (g', report) ∧ ¬g'.writes.Nodup := by
  refine ⟨_, _, _, _, build_chained, converted_chained, ?_⟩
  rw [writes_chained]
  decide

theorem assignsOnce_of_build_chained :
    (chained.build {}).run {} = .ok (chainedGraph "a" "b") chainedLog ∧
      ∃ g' report, (chainedGraph "a" "b").converted = .ok (g', report) ∧
        (chainedGraph "a" "b").AssignsOnce g' :=
  ⟨build_chained, assignsOnce_of_build build_chained⟩

end Node

end FlowGraph
