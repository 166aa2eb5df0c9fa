import FlowGraph.Proofs.Construction.WellFormed
import FlowGraph.Proofs.Ssa.Issued
import FlowGraph.Proofs.Ssa.UseDefinition
import Mathlib.Data.List.Basic

/-!
# The way on which a block is renamed

Nothing has to be known of a graph to say what a renaming that has succeeded did to it. It came to
each reachable block along the depth-first tree, and each statement of the block was renamed from
the versions that are the last definitions on that way. All of them had been handed out before.

## Main definitions

* `Graph.Traced`: a block was renamed on a way to it
* `Graph.EnteredOn`: a block was entered on a way to it, and what is current at its end
* `Graph.Tracing`: what is known in the middle of a renaming that has not failed
* `Graph.OnTree`: what is known of the ways on which it has entered blocks

## Main results

* `Edit.closed_of_run_rename`: a renaming succeeds only where no edge dangles
* `Edit.exists_run_rename_of_closed`: there it succeeds, and keeps to the depth-first order
* `Edit.traced_of_run_rename`: each reachable block was renamed on the tree path to it
* `Graph.converted_eq`: the two halves of a conversion
* `Graph.WellFormed.exists_renaming`: conversion of a well-formed graph succeeds
* `Graph.traced_of_converted`: the same for a conversion
-/

namespace FlowGraph

/-- What renaming leaves as it is in a block: where it leads, and the variables of its phi nodes. -/
def Block.outline (block : Block) : List BlockId × List String :=
  (block.successors, block.phis.map (·.base))

/-- What renaming a block does to one of its statements. -/
theorem Naming.Issued.exists_statement_block {naming : Naming} (h : naming.Issued)
    {before block : Block} (hsame : block.statements = before.statements) {k : Nat} {s : Node}
    (hs : before.statements[k]? = some s) :
    ∃ here : Naming, here.Issued ∧
      (naming.block block).1.statements[k]? = some (here.statement s).1 ∧
      ∀ name, here.current[name]? =
        (lastDefinition name (before.definitionsUpTo (naming.block block).1 k)).or
          naming.current[name]? := by
  rw [← hsame] at hs
  obtain ⟨here, hissued, hs', hcurrent⟩ := (h.phis block.phis).exists_statement hs
  refine ⟨here, hissued, hs', fun name => ?_⟩
  -- Phi nodes come first, so the versions after them are those the statements start from.
  have hsplit : before.definitionsUpTo (naming.block block).1 k =
      (naming.phis block.phis).1.filterMap Phi.definition? ++
        definitions (block.statements.take k)
          (((naming.phis block.phis).2.statements block.statements).1.take k) := by
    rw [Block.definitionsUpTo, ← hsame]
    rfl
  rw [hcurrent, hsplit, lastDefinition_append, Option.or_assoc, ← Naming.current_phis]

namespace Graph

variable {g h h' : Graph} {b c : Block} {i j : BlockId} {way : List BlockId}
  {r : Walk.Record RenamingFrame} {frame : RenamingFrame} {s : RenamingState}

/-- Block `i` of `g` was renamed on a way to it, with what has become of it in `h`: each statement
from versions that were handed out before and that are the last definitions on that way. -/
structure Traced (g h : Graph) (way : List BlockId) (i : BlockId) : Prop where
  path : g.Path way i
  statement : ∀ {b k} {s : Node}, g.block? i = some b → b.statements[k]? = some s →
    ∃ c, ∃ here : Naming, h.block? i = some c ∧ here.Issued ∧
      c.statements[k]? = some (here.statement s).1 ∧
      ∀ name, here.current[name]? = lastDefinition name (g.definitionsBefore h way i k)

/-- Two graphs in which a block has the same statements, and phi nodes with the same results. -/
def SameDefinitions (h h' : Graph) (i : BlockId) : Prop :=
  ∀ c, h.block? i = some c → ∃ c', h'.block? i = some c' ∧ c'.statements = c.statements ∧
    c'.phis.filterMap Phi.definition? = c.phis.filterMap Phi.definition?

theorem SameDefinitions.definitionsAt (hsame : SameDefinitions h h' i)
    (hi : (h.block? i).isSome) : g.definitionsAt h' i = g.definitionsAt h i := by
  obtain ⟨c, hc⟩ := Option.isSome_iff_exists.1 hi
  obtain ⟨c', hc', hstatements, hphis⟩ := hsame c hc
  unfold Graph.definitionsAt
  rw [hc, hc']
  simp only [Option.elim_some, Block.definitions, hstatements, hphis]

theorem definitionsAlong_congr
    (hsame : ∀ j ∈ way, SameDefinitions h h' j ∧ (h.block? j).isSome) :
    g.definitionsAlong h' way = g.definitionsAlong h way :=
  List.flatMap_congr fun j hj => (hsame j hj).1.definitionsAt (hsame j hj).2

/-- A block stays traced when nothing on its way is defined otherwise. -/
theorem Traced.congr (ht : g.Traced h way i)
    (hsame : ∀ j ∈ way ++ [i], SameDefinitions h h' j ∧ (h.block? j).isSome) :
    g.Traced h' way i where
  path := ht.path
  statement := by
    intro b k s hb hs
    obtain ⟨c, here, hc, hissued, hs', hcurrent⟩ := ht.statement hb hs
    obtain ⟨c', hc', hstatements, hphis⟩ := (hsame i (by simp)).1 c hc
    refine ⟨c', here, hc', hissued, hstatements ▸ hs', fun name => ?_⟩
    have halong : g.definitionsAlong h' way = g.definitionsAlong h way :=
      definitionsAlong_congr fun j hj => hsame j (List.mem_append_left _ hj)
    have hupTo : b.definitionsUpTo c' k = b.definitionsUpTo c k := by
      rw [Block.definitionsUpTo, Block.definitionsUpTo, hstatements, hphis]
    rw [hcurrent, definitionsBefore_eq hb hc, definitionsBefore_eq hb hc', halong, hupTo]

end Graph

namespace RenamingState

variable (s : RenamingState) (frame : RenamingFrame) (j k : BlockId)

/-- Versions that arrive over an edge leave the outline of a block as it is. -/
theorem outline_cross : ((cross frame j s).graph.block? k).map Block.outline =
    (s.graph.block? k).map Block.outline := by
  rw [cross, Graph.block?_modify]
  split
  · rw [Option.map_map]
    congr 1
    funext c
    rw [Function.comp_apply, Block.outline, Block.outline, Block.successors_receive,
      Block.bases_receive]
  · rfl

theorem isSome_block?_cross :
    ((cross frame j s).graph.block? k).isSome = (s.graph.block? k).isSome := by
  have h := congrArg Option.isSome (s.outline_cross frame j k)
  rwa [Option.isSome_map, Option.isSome_map] at h

/-- They change operands only, so all is defined as before. -/
theorem sameDefinitions_cross : Graph.SameDefinitions s.graph (cross frame j s).graph k := by
  intro c hc
  rw [cross, Graph.block?_modify]
  split
  · exact ⟨_, by rw [hc, Option.map_some], Block.statements_receive, Block.definitions_phis_receive⟩
  · exact ⟨c, hc, rfl, rfl⟩

variable {s frame j k}

theorem exists_of_block?_cross {c : Block} (hc : (cross frame j s).graph.block? k = some c) :
    ∃ c', s.graph.block? k = some c' ∧ c'.statements = c.statements := by
  have hsome : (s.graph.block? k).isSome := by
    rw [← s.isSome_block?_cross frame j k, hc, Option.isSome_some]
  obtain ⟨c', hc'⟩ := Option.isSome_iff_exists.1 hsome
  obtain ⟨d, hd, hstatements, -⟩ := s.sameDefinitions_cross frame j k c' hc'
  obtain rfl := Option.some.inj (hc.symm.trans hd)
  exact ⟨c', hc', hstatements.symm⟩

end RenamingState

namespace Graph

variable {g h h' : Graph} {b c : Block} {i j : BlockId} {way : List BlockId}
  {r : Walk.Record RenamingFrame} {frame : RenamingFrame} {s : RenamingState}

/-- Block `i` was entered on a way over blocks that were entered before it, and the last definitions
on the way and in the block are current at its end. -/
def EnteredOn (g : Graph) (r : Walk.Record RenamingFrame) (h : Graph) (way : List BlockId)
    (i : BlockId) (frame : RenamingFrame) : Prop :=
  (∀ j ∈ way ++ [i], (r.frame? j).isSome ∧ (h.block? j).isSome) ∧
    g.Traced h way i ∧
    ∀ name, frame.current[name]? = lastDefinition name (g.definitionsAlong h (way ++ [i]))

namespace EnteredOn

variable {f child : RenamingFrame} {versions : Versions}

/-- Versions arrive over an edge, which changes operands only. -/
theorem cross (he : g.EnteredOn r s.graph way i f) (frame : RenamingFrame) (j k : BlockId) :
    g.EnteredOn (r.cross k) (RenamingState.cross frame j s).graph way i f := by
  obtain ⟨hway, htraced, hcurrent⟩ := he
  have hall : ∀ l ∈ way ++ [i], SameDefinitions s.graph (RenamingState.cross frame j s).graph l ∧
      (s.graph.block? l).isSome :=
    fun l hl => ⟨s.sameDefinitions_cross frame j l, (hway l hl).2⟩
  refine ⟨fun l hl => ⟨(hway l hl).1, ?_⟩, htraced.congr hall, fun name => ?_⟩
  · rw [s.isSome_block?_cross]
    exact (hway l hl).2
  · rw [hcurrent, definitionsAlong_congr hall]

/-- Blocks that were entered before another one is entered are left alone. -/
theorem keep (he : g.EnteredOn r h way i f) (hnew : r.frame? j = none) (child : RenamingFrame)
    (c : Block) :
    ∀ k ∈ way ++ [i], (((r.enter j child).frame? k).isSome ∧
      ((h.modify j fun _ => c).block? k).isSome) ∧
        SameDefinitions h (h.modify j fun _ => c) k ∧ (h.block? k).isSome := by
  intro k hk
  have hway := he.1 k hk
  have hne : k ≠ j := by
    intro hkj
    rw [hkj, hnew] at hway
    cases hway.1
  have hblock : (h.modify j fun _ => c).block? k = h.block? k := by
    rw [block?_modify, if_neg (Ne.symm hne)]
  rw [r.frame?_enter_of_ne child hne, hblock]
  exact ⟨hway, fun d hd => ⟨d, hblock.trans hd, rfl, rfl⟩, hway.2⟩

theorem enter (he : g.EnteredOn r h way i f) (hnew : r.frame? j = none) :
    g.EnteredOn (r.enter j child) (h.modify j fun _ => c) way i f := by
  have hkeep := he.keep hnew child c
  refine ⟨fun k hk => (hkeep k hk).1, he.2.1.congr fun k hk => (hkeep k hk).2, fun name => ?_⟩
  rw [he.2.2, definitionsAlong_congr fun k hk => (hkeep k hk).2]

/-- A block that was waiting is renamed on a way that ends in a block whose versions it starts
from. -/
theorem traced {naming : Naming} (hissued : naming.Issued) (hb : g.block? j = some b)
    (hc : h.block? j = some c) (hsame : c.statements = b.statements) (hpath : g.Path way j)
    (hcurrent : ∀ name, naming.current[name]? =
      lastDefinition name (g.definitionsAlong (h.modify j fun _ => (naming.block c).1) way)) :
    g.Traced (h.modify j fun _ => (naming.block c).1) way j ∧
      ∀ name, (naming.block c).2.current[name]? = lastDefinition name
        (g.definitionsAlong (h.modify j fun _ => (naming.block c).1) (way ++ [j])) := by
  have hnew : (h.modify j fun _ => (naming.block c).1).block? j = some (naming.block c).1 := by
    rw [block?_modify_self, hc, Option.map_some]
  refine ⟨⟨hpath, fun {b' k s} hb' hs => ?_⟩, fun name => ?_⟩
  · obtain rfl := Option.some.inj (hb'.symm.trans hb)
    obtain ⟨here, hhere, hs', hupTo⟩ := hissued.exists_statement_block hsame hs
    refine ⟨_, here, hnew, hhere, hs', fun name => ?_⟩
    rw [hupTo, hcurrent, definitionsBefore_eq hb' hnew, lastDefinition_append]
  · rw [(naming.renamed_block hsame).current, hcurrent, definitionsAlong_append_singleton,
      definitionsAt_eq hb hnew, lastDefinition_append]

/-- The way to a new block goes on from the way to the block before it. -/
theorem next (he : g.EnteredOn r h way i f) (hissued : Naming.Issued ⟨f.current, versions⟩)
    (edge : j ∈ g.successors i) (hnew : r.frame? j = none) (hb : g.block? j = some b)
    (hc : h.block? j = some c) (hsame : c.statements = b.statements)
    (hchild : child.current = (Naming.block ⟨f.current, versions⟩ c).2.current) :
    g.EnteredOn (r.enter j child) (h.modify j fun _ => (Naming.block ⟨f.current, versions⟩ c).1)
      (way ++ [i]) j child := by
  have hkeep := he.keep hnew child (Naming.block ⟨f.current, versions⟩ c).1
  refine ⟨fun k hk => ?_, ?_⟩
  · rcases List.mem_append.1 hk with hk | hk
    · exact (hkeep k hk).1
    · obtain rfl := List.mem_singleton.1 hk
      rw [Walk.Record.frame?_enter_self, block?_modify_self, hc]
      exact ⟨rfl, rfl⟩
  · rw [hchild]
    refine traced hissued hb hc hsame (he.2.1.path.step edge) fun name => ?_
    rw [definitionsAlong_congr fun k hk => (hkeep k hk).2]
    exact he.2.2 name

/-- The entry is entered first, and no variable has a version then. -/
theorem start (hb : g.block? g.entry = some b)
    (hchild : child.current = (Naming.block ⟨∅, versions⟩ b).2.current) :
    g.EnteredOn (.start g.entry child)
      (g.modify g.entry fun _ => (Naming.block ⟨∅, versions⟩ b).1) [] g.entry child := by
  refine ⟨fun k hk => ?_, ?_⟩
  · obtain rfl := List.mem_singleton.1 hk
    rw [Walk.Record.frame?_start_self, block?_modify_self, hb]
    exact ⟨rfl, rfl⟩
  · rw [hchild]
    exact traced (Naming.issued_empty versions) hb hb rfl .entry fun _ =>
      Std.TreeMap.getElem?_emptyc

end EnteredOn

/-- What is known in the middle of a renaming of the graph `g` that has not failed. -/
structure Tracing (g : Graph) (r : Walk.Record RenamingFrame) (s : RenamingState) : Prop where
  along : r.Along g RenamingFrame.successors
  outline : ∀ i, (s.graph.block? i).map Block.outline = (g.block? i).map Block.outline
  /-- A block that was not entered has the statements it had. -/
  waiting : ∀ {i b c}, g.block? i = some b → s.graph.block? i = some c → r.frame? i = none →
    c.statements = b.statements
  issued : ∀ {i frame}, r.frame? i = some frame → Naming.Issued ⟨frame.current, s.versions⟩
  /-- Only a block that is there is entered. -/
  found : ∀ {i frame}, r.frame? i = some frame → (g.block? i).isSome

namespace Tracing

theorem exists_block? (ht : g.Tracing r s) (hc : s.graph.block? i = some c) :
    ∃ b, g.block? i = some b ∧ b.outline = c.outline := by
  have h := ht.outline i
  rw [hc, Option.map_some, eq_comm, Option.map_eq_some_iff] at h
  exact h

/-- A reachable block is there, and leads where it led before. -/
theorem exists_blocks (ht : g.Tracing r s) (hg : g.Closed) (hi : i ∈ g.reachable) :
    ∃ b c, g.block? i = some b ∧ s.graph.block? i = some c ∧ c.successors = g.successors i := by
  obtain ⟨b, hb⟩ := hg.exists_block? hi
  have h := ht.outline i
  rw [hb, Option.map_some, Option.map_eq_some_iff] at h
  obtain ⟨c, hc, houtline⟩ := h
  refine ⟨b, c, hb, hc, ?_⟩
  rw [Graph.successors, hb, Option.elim_some]
  exact congrArg Prod.fst houtline

/-- Versions arrive over an edge, which changes operands only. -/
theorem cross (ht : g.Tracing r s) (i : BlockId) (frame : RenamingFrame) (j : BlockId) :
    g.Tracing (r.cross i) (RenamingState.cross frame j s) where
  along := ht.along.cross i
  outline := by
    intro k
    rw [s.outline_cross, ht.outline]
  waiting := by
    intro k b c hb hc hk
    obtain ⟨c', hc', hstatements⟩ := RenamingState.exists_of_block?_cross hc
    rw [← hstatements]
    exact ht.waiting hb hc' hk
  issued := ht.issued
  found := ht.found

/-- A new block is renamed from the versions at the end of the block before it. -/
theorem enter (ht : g.Tracing r s) (hframe : r.frame? i = some frame)
    (hj : j ∈ frame.successors) (hnew : r.frame? j = none) (hc : s.graph.block? j = some c) :
    g.Tracing
      (r.enter j ⟨j, (Naming.block ⟨frame.current, s.versions⟩ c).2.current, c.successors⟩)
      ⟨s.graph.modify j fun _ => (Naming.block ⟨frame.current, s.versions⟩ c).1,
        (Naming.block ⟨frame.current, s.versions⟩ c).2.versions⟩ := by
  obtain ⟨b, hb, houtline⟩ := ht.exists_block? hc
  have hissued := ht.issued hframe
  have hleads := Naming.leads_block ⟨frame.current, s.versions⟩ c
  refine ⟨?_, ?_, ?_, ?_, ?_⟩
  · refine ht.along.enter _ hnew hframe hj ?_
    rw [Graph.successors, hb, Option.elim_some]
    exact (congrArg Prod.fst houtline).symm
  · intro k
    rw [← ht.outline k, block?_modify]
    split
    · rename_i hk
      subst hk
      rw [hc, Option.map_some, Option.map_some, Option.map_some, Block.outline, Block.outline]
      congr 2
      exact Naming.bases_phis _ c.phis
    · rfl
  · intro k b' c' hb' hc' hk
    have hkj : k ≠ j := by
      rintro rfl
      rw [Walk.Record.frame?_enter_self] at hk
      cases hk
    rw [block?_modify, if_neg (Ne.symm hkj)] at hc'
    rw [r.frame?_enter_of_ne _ hkj] at hk
    exact ht.waiting hb' hc' hk
  · intro k f hk
    rcases r.of_frame?_enter _ hk with ⟨rfl, rfl⟩ | ⟨-, hk⟩
    · exact hissued.block c
    · exact (ht.issued hk).mono hleads
  · intro k f hk
    rcases r.of_frame?_enter _ hk with ⟨rfl, -⟩ | ⟨-, hk⟩
    · rw [hb, Option.isSome_some]
    · exact ht.found hk

/-- Renaming starts at the entry, where no variable has a version. -/
theorem start (hb : g.block? g.entry = some b) (versions : Versions) :
    g.Tracing
      (.start g.entry ⟨g.entry, (Naming.block ⟨∅, versions⟩ b).2.current, b.successors⟩)
      ⟨g.modify g.entry fun _ => (Naming.block ⟨∅, versions⟩ b).1,
        (Naming.block ⟨∅, versions⟩ b).2.versions⟩ := by
  refine ⟨.start (by rw [Graph.successors, hb, Option.elim_some]), ?_, ?_, ?_, ?_⟩
  · intro k
    rw [block?_modify]
    split
    · rename_i hk
      subst hk
      rw [hb, Option.map_some, Option.map_some, Option.map_some, Block.outline, Block.outline]
      congr 2
      exact Naming.bases_phis _ b.phis
    · rfl
  · intro k b' c' hb' hc' hk
    have hne : g.entry ≠ k := by
      rintro rfl
      rw [Walk.Record.frame?_start_self] at hk
      cases hk
    rw [block?_modify, if_neg hne, hb'] at hc'
    rw [Option.some.inj hc']
  · intro k f hk
    obtain ⟨rfl, rfl⟩ := Walk.Record.eq_of_frame?_start _ hk
    exact (Naming.issued_empty versions).block b
  · intro k f hk
    obtain ⟨rfl, -⟩ := Walk.Record.eq_of_frame?_start _ hk
    rw [hb, Option.isSome_some]

end Tracing

/-- What is known in the middle of a renaming of the graph `g` that has entered blocks along the
depth-first tree: each of them on the tree path to it. -/
structure OnTree (g : Graph) (r : Walk.Record RenamingFrame) (s : RenamingState) : Prop where
  tracing : g.Tracing r s
  entered : ∀ {i frame}, r.frame? i = some frame → g.EnteredOn r s.graph (g.treePath i) i frame

namespace OnTree

theorem cross (ht : g.OnTree r s) (i : BlockId) (frame : RenamingFrame) (j : BlockId) :
    g.OnTree (r.cross i) (RenamingState.cross frame j s) where
  tracing := ht.tracing.cross i frame j
  entered := fun hk => (ht.entered hk).cross frame j i

/-- A new block is entered after its parent, so the way goes on by one block. -/
theorem enter (ht : g.OnTree r s) (hframe : r.frame? i = some frame)
    (hparent : g.parent? j = some i) (hnew : r.frame? j = none) (hb : g.block? j = some b)
    (hc : s.graph.block? j = some c) :
    g.OnTree
      (r.enter j ⟨j, (Naming.block ⟨frame.current, s.versions⟩ c).2.current, c.successors⟩)
      ⟨s.graph.modify j fun _ => (Naming.block ⟨frame.current, s.versions⟩ c).1,
        (Naming.block ⟨frame.current, s.versions⟩ c).2.versions⟩ where
  tracing := by
    refine ht.tracing.enter hframe ?_ hnew hc
    rw [ht.tracing.along.successors hframe]
    exact (parent?_spec hparent).2
  entered := by
    intro k f hk
    rcases r.of_frame?_enter _ hk with ⟨rfl, rfl⟩ | ⟨-, hk⟩
    · rw [treePath_of_parent? hparent]
      exact (ht.entered hframe).next (ht.tracing.issued hframe) (parent?_spec hparent).2 hnew hb hc
        (ht.tracing.waiting hb hc hnew) rfl
    · exact (ht.entered hk).enter hnew

theorem start (hb : g.block? g.entry = some b) (versions : Versions) :
    g.OnTree
      (.start g.entry ⟨g.entry, (Naming.block ⟨∅, versions⟩ b).2.current, b.successors⟩)
      ⟨g.modify g.entry fun _ => (Naming.block ⟨∅, versions⟩ b).1,
        (Naming.block ⟨∅, versions⟩ b).2.versions⟩ where
  tracing := .start hb versions
  entered := by
    intro i f hi
    obtain ⟨rfl, rfl⟩ := Walk.Record.eq_of_frame?_start _ hi
    rw [treePath_entry]
    exact .start hb rfl

end OnTree

end Graph

/-- A block is entered when it is there, and what is known then is what renaming it gives. -/
theorem RenamingState.exists_of_enter_eq_ok {s s' : RenamingState} {frame child : RenamingFrame}
    {j : BlockId} (h : enter frame j s = .ok child s') :
    ∃ c, s.graph.block? j = some c ∧
      child = ⟨j, (Naming.block ⟨frame.current, s.versions⟩ c).2.current, c.successors⟩ ∧
      s' = ⟨s.graph.modify j fun _ => (Naming.block ⟨frame.current, s.versions⟩ c).1,
        (Naming.block ⟨frame.current, s.versions⟩ c).2.versions⟩ := by
  cases hfind : s.graph.find j with
  | error e =>
    unfold enter at h
    rw [hfind] at h
    cases h
  | ok c =>
    rw [RenamingState.enter_eq_ok hfind] at h
    cases h
    exact ⟨c, Graph.find_eq_ok_iff.1 hfind, rfl, rfl⟩

/-- What is recorded of a renaming. -/
theorem recorded_renamingWalk (g : Graph) :
    renamingWalk.Recorded RenamingFrame.successors g.Tracing where
  slots := fun _ _ => rfl
  cross := fun ht _ _ => ht.cross _ _ _
  enter := by
    intro r s i frame j child s' ht hframe hj hnew henter
    obtain ⟨c, hc, rfl, rfl⟩ := RenamingState.exists_of_enter_eq_ok henter
    exact ht.enter hframe hj hnew hc

/-- Renaming a closed graph enters its blocks along the depth-first tree. -/
theorem ordered_renamingWalk_onTree {g : Graph} (hg : g.Closed) :
    renamingWalk.Ordered g RenamingFrame.successors fun _ r s => g.OnTree r s where
  slots := fun _ _ => rfl
  cross := fun ht _ _ _ => ht.cross _ _ _
  enter := by
    intro order r s i frame j ht hframe hparent hnew _ _ hj
    obtain ⟨b, c, hb, hc, hsuccessors⟩ := ht.tracing.exists_blocks hg hj
    exact ⟨_, _, RenamingState.enter_eq_ok (Graph.find_eq_ok_iff.2 hc), hsuccessors,
      ht.enter hframe hparent hnew hb hc⟩

namespace Edit

variable {g g' : Graph} {declared : Std.TreeSet String} {versions : Versions}

/-- A renaming that succeeds is a walk that succeeds. -/
theorem exists_walk_of_run_rename (hrun : (rename declared).run g = .ok versions g') :
    ∃ s, renamingWalk.run g.size {} g.entry ⟨g, .start declared⟩ = .ok () s ∧ s.graph = g' := by
  change rename declared g = _ at hrun
  unfold rename at hrun
  split at hrun
  · cases hrun
    exact ⟨_, by assumption, rfl⟩
  · cases hrun

/-- What is recorded of a renaming holds after a renaming that has succeeded. -/
theorem exists_record_of_run_rename {S : Walk.Record RenamingFrame → RenamingState → Prop}
    (h : renamingWalk.Recorded RenamingFrame.successors S)
    (hstart : ∀ {b}, g.block? g.entry = some b → S
      (.start g.entry ⟨g.entry, (Naming.block ⟨∅, .start declared⟩ b).2.current, b.successors⟩)
      ⟨g.modify g.entry fun _ => (Naming.block ⟨∅, .start declared⟩ b).1,
        (Naming.block ⟨∅, .start declared⟩ b).2.versions⟩)
    (hrun : (rename declared).run g = .ok versions g') :
    ∃ r s, s.graph = g' ∧ S r s ∧ r.Complete RenamingFrame.successors := by
  obtain ⟨s, hwalk, hs⟩ := exists_walk_of_run_rename hrun
  obtain ⟨r, hS, hcomplete⟩ := h.of_run (fun {frame s'} henter => by
    obtain ⟨b, hb, rfl, rfl⟩ := RenamingState.exists_of_enter_eq_ok henter
    exact hstart hb) hwalk
  exact ⟨r, s, hs, hS, hcomplete⟩

/-- Renaming a closed graph succeeds, and what is known of it in depth-first order holds then. -/
theorem exists_run_rename_of_closed
    {S : List BlockId → Walk.Record RenamingFrame → RenamingState → Prop} (hg : g.Closed)
    (h : renamingWalk.Ordered g RenamingFrame.successors S) (declared : Std.TreeSet String)
    (hstart : ∀ {b}, g.block? g.entry = some b → S [g.entry]
      (.start g.entry ⟨g.entry, (Naming.block ⟨∅, .start declared⟩ b).2.current, b.successors⟩)
      ⟨g.modify g.entry fun _ => (Naming.block ⟨∅, .start declared⟩ b).1,
        (Naming.block ⟨∅, .start declared⟩ b).2.versions⟩) :
    ∃ r s, (rename declared).run g = .ok s.versions s.graph ∧ S g.reachable r s ∧
      r.Complete RenamingFrame.successors ∧ ∀ i, i ∈ g.reachable ↔ (r.frame? i).isSome := by
  obtain ⟨b, hb⟩ := Option.isSome_iff_exists.1 (Graph.block?_isSome_iff.2 hg.entry)
  obtain ⟨r, s, hrun, hS, hcomplete, hreachable, -⟩ :=
    h.exists_run hg {} (s := ⟨g, .start declared⟩)
      (RenamingState.enter_eq_ok (Graph.find_eq_ok_iff.2 hb))
      (by rw [Graph.successors, hb, Option.elim_some]) (hstart hb)
  refine ⟨r, s, ?_, hS, hcomplete, hreachable⟩
  simp only [EStateM.run, rename, hrun]

/-- A renaming looks at the entry and at the end of every edge out of a reachable block, so they are
there if it succeeds. -/
theorem closed_of_run_rename (hrun : (rename declared).run g = .ok versions g') : g.Closed := by
  obtain ⟨r, s, -, ht, hcomplete⟩ :=
    exists_record_of_run_rename (recorded_renamingWalk g) (fun hb => .start hb _) hrun
  -- A path leads to blocks that were entered, and these are there.
  have hfound {before : List BlockId} {i : BlockId} (path : g.Path before i) : i < g.size := by
    obtain ⟨frame, hframe⟩ := ht.along.exists_frame hcomplete path
    exact Graph.block?_isSome_iff.1 (ht.found hframe)
  refine ⟨hfound .entry, fun hi hj => ?_⟩
  obtain ⟨before, path⟩ := Graph.exists_path_of_mem_reachable hi
  exact hfound (path.step hj)

/-- After a renaming that has succeeded, each reachable block was renamed on the tree path to it.
What a block leads to and the variables of its phi nodes are as before. -/
theorem traced_of_run_rename (hrun : (rename declared).run g = .ok versions g') :
    (∀ i, (g'.block? i).map Block.outline = (g.block? i).map Block.outline) ∧
      ∀ i ∈ g.reachable, g.Traced g' (g.treePath i) i := by
  have hg := closed_of_run_rename hrun
  obtain ⟨r, s, hrename, ht, -, hreachable⟩ := exists_run_rename_of_closed hg
    (ordered_renamingWalk_onTree hg) declared fun hb => .start hb _
  cases hrun.symm.trans hrename
  refine ⟨ht.tracing.outline, fun i hi => ?_⟩
  obtain ⟨frame, hframe⟩ := Option.isSome_iff_exists.1 ((hreachable i).1 hi)
  exact (ht.entered hframe).2.1

end Edit

namespace Graph

variable {g g' h : Graph} {report : ConversionReport}

/-- A conversion is a placement and then a renaming. -/
theorem converted_eq (g : Graph) : g.converted =
    match (Edit.placePhis g.declared).run g with
    | .error e _ => .error e
    | .ok placeholders placed =>
      match (Edit.rename g.declared).run placed with
      | .error e _ => .error e
      | .ok versions g' => .ok (g', {
          function := g.displayName
          declared := g.declared.size
          placeholders
          versions := g.declared.foldl (fun total name => total + versions.count name) 0 }) := by
  unfold converted Edit.convert
  rw [EStateM.run_bind, EStateM.run_get]
  simp only [EStateM.run_bind]
  cases (Edit.placePhis g.declared).run g with
  | error e h => rfl
  | ok placeholders placed =>
    simp only
    cases (Edit.rename g.declared).run placed <;> rfl

/-- A conversion that succeeds is a placement and a renaming that succeed. -/
theorem exists_converted_iff : (∃ report, g.converted = .ok (g', report)) ↔
    ∃ added placed versions, (Edit.placePhis g.declared).run g = .ok added placed ∧
      (Edit.rename g.declared).run placed = .ok versions g' := by
  rw [converted_eq]
  constructor
  · rintro ⟨report, h⟩
    split at h
    · cases h
    · rename_i added placed hplace
      split at h
      · cases h
      · rename_i versions k hrename
        cases h
        exact ⟨added, placed, versions, hplace, hrename⟩
  · rintro ⟨added, placed, versions, hplace, hrename⟩
    rw [hplace]
    simp only [hrename]
    exact ⟨_, rfl⟩

/-- Conversion of a well-formed graph succeeds. -/
theorem WellFormed.exists_renaming (hg : g.WellFormed) :
    ∃ g' report phis r, g.converted = .ok (g', report) ∧ g.Renaming phis r g' ∧
      r.Complete RenamingFrame.successors := by
  obtain ⟨added, phis, hplace, hphis⟩ :=
    Edit.run_placePhis hg.consistent.mirrored hg.rooted hg.phis g.declared
  obtain ⟨versions, g', r, hrename, hrenaming, hcomplete⟩ :=
    Edit.run_rename hg.consistent.mirrored hg.rooted hphis g.declared
  obtain ⟨report, hreport⟩ := exists_converted_iff.2 ⟨_, _, _, hplace, hrename⟩
  exact ⟨g', report, phis, r, hreport, hrenaming, hcomplete⟩

namespace Placing

variable {wanted : Std.TreeSet String} {r : Walk.Record PlacementFrame} {i : BlockId}
  {way : List BlockId}

theorem path (hp : g.Placing wanted r h) (path : h.Path way i) : g.Path way i := by
  induction path with
  | entry => exact hp.entry_eq ▸ .entry
  | step _ edge ih => exact ih.step (hp.successors_eq ▸ edge)

theorem definitionsAt (hp : g.Placing wanted r h) :
    h.definitionsAt g' i = g.definitionsAt g' i := by
  unfold Graph.definitionsAt
  cases hb : g.block? i with
  | some b =>
    obtain ⟨phis, hplaced, -⟩ := hp.exists_block? hb
    rw [hplaced]
    rfl
  | none =>
    cases hc : h.block? i with
    | none => rfl
    | some c =>
      obtain ⟨b, -, hb', -⟩ := hp.kept hc
      rw [hb] at hb'
      cases hb'

/-- Placement leaves the depth-first tree as it is. -/
theorem treePath_eq (hp : g.Placing wanted r h) (i : BlockId) : h.treePath i = g.treePath i :=
  treePath_congr hp.reachable_eq hp.successors_eq i

/-- A way on which a block is renamed after placement is one on which it is renamed. -/
theorem traced (hp : g.Placing wanted r h) (ht : h.Traced g' way i) : g.Traced g' way i where
  path := hp.path ht.path
  statement := by
    intro b k s hb hs
    obtain ⟨phis, hplaced, -⟩ := hp.exists_block? hb
    obtain ⟨c, here, hc, hissued, hs', hcurrent⟩ := ht.statement hplaced hs
    refine ⟨c, here, hc, hissued, hs', fun name => ?_⟩
    have halong : h.definitionsAlong g' way = g.definitionsAlong g' way :=
      List.flatMap_congr fun j _ => hp.definitionsAt
    rw [hcurrent, definitionsBefore_eq hb hc, definitionsBefore_eq hplaced hc, halong]
    rfl

end Placing

/-- After a conversion that has succeeded, each reachable block was renamed on the tree path to
it. -/
theorem traced_of_converted (h : g.converted = .ok (g', report)) {i : BlockId}
    (hi : i ∈ g.reachable) : g.Traced g' (g.treePath i) i := by
  obtain ⟨added, placed, versions, hplace, hrename⟩ := exists_converted_iff.1 ⟨report, h⟩
  obtain ⟨r, hp⟩ := Edit.placing_of_run_placePhis hplace
  have ht := (Edit.traced_of_run_rename hrename).2 i (hp.reachable_eq ▸ hi)
  rw [hp.treePath_eq] at ht
  exact hp.traced ht

/-- Conversion adds phi nodes for variables only that a reachable block declares. -/
theorem mem_declared_of_mem_phis (h : g.converted = .ok (g', report))
    (hnone : ∀ {i b}, g.block? i = some b → b.phis = []) {i : BlockId} {c : Block} {phi : Phi}
    (hc : g'.block? i = some c) (hphi : phi ∈ c.phis) : phi.base ∈ g.declared := by
  obtain ⟨added, placed, versions, hplace, hrename⟩ := exists_converted_iff.1 ⟨report, h⟩
  obtain ⟨r, hp⟩ := Edit.placing_of_run_placePhis hplace
  -- Renaming keeps the variables of phi nodes.
  have houtline := (Edit.traced_of_run_rename hrename).1 i
  rw [hc, Option.map_some, eq_comm, Option.map_eq_some_iff] at houtline
  obtain ⟨d, hd, houtline⟩ := houtline
  obtain ⟨b, phis, hb, rfl, hphis⟩ := hp.kept hd
  have hbases : phis.map (·.base) = c.phis.map (·.base) := congrArg Prod.snd houtline
  have hmem := List.mem_map_of_mem (f := (·.base)) hphi
  rw [← hbases] at hmem
  obtain ⟨old, hold, hbase⟩ := List.mem_map.1 hmem
  rw [← hbase]
  refine (hphis old hold).resolve_left fun hold => ?_
  rw [hnone hb] at hold
  cases hold

end Graph

end FlowGraph
