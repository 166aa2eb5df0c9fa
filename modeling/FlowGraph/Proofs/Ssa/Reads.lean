import FlowGraph.Proofs.Ssa.Traced
import Mathlib.Data.List.Permutation

/-!
# Reads that renaming loses

A compound assignment reads the variable that it defines. Renaming knows one name for both: it first
replaces the target by the current version, as it does with every identifier, and then by the new
version, and with that the read is gone. All other reads are kept.

## Main definitions

* `Node.inputs`: the identifiers that a statement reads

## Main results

* `Edit.reached_iff_of_run_rename`: which statements name the version that they read
-/

namespace FlowGraph

namespace Node

mutual

/-- The identifiers that a statement reads, in order. The target of a plain assignment is written
only; that of any other assignment is read as well. -/
def inputs : Node → List String
  | declaration _ _ init => inputsOptional init
  | assignment op target value =>
    let target := match op, target with
      | .assign, ident _ => []
      | _, _ => target.inputs
    target ++ value.inputs
  | binary _ left right => left.inputs ++ right.inputs
  | unary _ operand => operand.inputs
  | ret value => inputsOptional value
  | call _ args => inputsAll args
  | ident name => [name]
  | _ => []

/-- The identifiers that a child reads that may be absent. -/
def inputsOptional : Option Node → List String
  | none => []
  | some node => node.inputs

/-- The identifiers that the nodes of a list read. -/
def inputsAll : List Node → List String
  | [] => []
  | node :: rest => node.inputs ++ inputsAll rest

end

private theorem append_subset_append {first second first' second' : List String}
    (h : first ⊆ first') (h' : second ⊆ second') : first ++ second ⊆ first' ++ second' :=
  List.append_subset.2 ⟨List.subset_append_of_subset_left _ h,
    List.subset_append_of_subset_right _ h'⟩

mutual

/-- What is read is reached. -/
theorem inputs_subset_reached : (node : Node) → node.inputs ⊆ node.reached
  | declaration _ _ init => by
    rw [inputs, reached]
    exact inputsOptional_subset_reachedOptional init
  | assignment op target value => by
    rw [reached]
    unfold inputs
    refine append_subset_append ?_ (inputs_subset_reached value)
    split
    · exact List.nil_subset _
    · exact inputs_subset_reached target
  | binary _ left right => by
    rw [inputs, reached]
    exact append_subset_append (inputs_subset_reached left) (inputs_subset_reached right)
  | unary _ operand => by
    rw [inputs, reached]
    exact inputs_subset_reached operand
  | ret value => by
    rw [inputs, reached]
    exact inputsOptional_subset_reachedOptional value
  | call _ args => by
    rw [inputs, reached]
    exact inputsAll_subset_reachedAll args
  | ident _ => List.Subset.refl _
  | function .. | declarator .. | parameters .. | compound .. | branch .. | whileLoop ..
  | forLoop .. | jump .. | constant .. => List.nil_subset _

theorem inputsOptional_subset_reachedOptional : (node : Option Node) →
    inputsOptional node ⊆ reachedOptional node
  | none => List.nil_subset _
  | some node => by
    rw [inputsOptional, reachedOptional]
    exact inputs_subset_reached node

theorem inputsAll_subset_reachedAll : (nodes : List Node) → inputsAll nodes ⊆ reachedAll nodes
  | [] => List.nil_subset _
  | node :: rest => by
    rw [inputsAll, reachedAll]
    exact append_subset_append (inputs_subset_reached node) (inputsAll_subset_reachedAll rest)

end

/-- A statement reaches what it uses, and the variable that it assigns. -/
theorem mem_reached_iff {s : Node} {name : String} :
    name ∈ s.reached ↔ name ∈ s.uses ∨ ∃ op value, s = assignment op (ident name) value := by
  unfold uses
  split
  · simp [reached, or_comm, eq_comm]
  · rename_i hne
    refine ⟨.inl, ?_⟩
    rintro (h | ⟨op, value, rfl⟩)
    · exact h
    · exact absurd rfl (hne op name value)

/-- A read that is not among the uses is that of a variable to which a value is added, or the
like. -/
theorem exists_eq_assignment_of_mem_inputs {s : Node} {name : String} (h : name ∈ s.inputs)
    (hnot : name ∉ s.uses) :
    ∃ op value, op ≠ .assign ∧ s = assignment op (ident name) value := by
  rcases mem_reached_iff.1 (s.inputs_subset_reached h) with huse | ⟨op, value, rfl⟩
  · exact absurd huse hnot
  · refine ⟨op, value, ?_, rfl⟩
    -- A plain assignment reads its value only, which it uses.
    rintro rfl
    rw [inputs] at h
    exact hnot (value.inputs_subset_reached h)

end Node

namespace Naming

variable {naming : Naming} {s : Node} {name version : String}

/-- A renamed statement names a current version if it uses the variable of that version, or if it
uses a name that is spelled like it. -/
theorem Issued.mem_reached_statement_iff (h : naming.Issued)
    (hversion : naming.current[name]? = some version) :
    version ∈ (naming.statement s).1.reached ↔
      name ∈ s.uses ∨ version ∈ s.uses ∧ naming.current[version]? = none := by
  -- The target is a new version, so it is not this one.
  have htarget : ¬∃ op value, (naming.statement s).1 = .assignment op (.ident version) value := by
    rintro ⟨op, value, heq⟩
    have hdefined := naming.defined?_statement s
    rw [heq, Node.defined?, eq_comm, Option.map_eq_some_iff] at hdefined
    obtain ⟨other, -, rfl⟩ := hdefined
    exact h.current_ne_fresh other hversion
  rw [Node.mem_reached_iff, or_iff_left htarget, uses_statement, List.mem_map]
  constructor
  · rintro ⟨use, huse, heq⟩
    cases hcurrent : naming.current[use]? with
    | none =>
      rw [hcurrent, Option.getD_none] at heq
      exact .inr ⟨heq ▸ huse, heq ▸ hcurrent⟩
    | some other =>
      rw [hcurrent, Option.getD_some] at heq
      subst heq
      exact .inl (h.eq_of_current_eq hcurrent hversion ▸ huse)
  · rintro (huse | ⟨huse, hcurrent⟩)
    · exact ⟨name, huse, by rw [hversion, Option.getD_some]⟩
    · exact ⟨version, huse, by rw [hcurrent, Option.getD_none]⟩

end Naming

namespace Edit

variable {g g' : Graph}

/-- After a renaming that has succeeded, a statement of a reachable block still names the current
version of a variable, its last definition on the tree path, exactly if it uses the variable, or a
name that has no version and is spelled like that one. A variable that is read without being used is
the target of a compound assignment: the version that it had is named no longer. -/
theorem reached_iff_of_run_rename {declared : Std.TreeSet String} {versions : Versions}
    (hrun : (rename declared).run g = .ok versions g') {i : BlockId} {b : Block} {k : Nat}
    {s : Node} (hi : i ∈ g.reachable) (hb : g.block? i = some b) (hs : b.statements[k]? = some s) :
    ∃ c, ∃ s' : Node, g'.block? i = some c ∧ c.statements[k]? = some s' ∧
      ∀ name ∈ s.inputs, ∀ version,
        lastDefinition name (g.definitionsBefore g' (g.treePath i) i k) = some version →
          (version ∈ s'.reached ↔ name ∈ s.uses ∨ version ∈ s.uses ∧
            lastDefinition version (g.definitionsBefore g' (g.treePath i) i k) = none) ∧
          (name ∉ s.uses → ∃ op value, op ≠ .assign ∧ s = .assignment op (.ident name) value) := by
  have htraced := (traced_of_run_rename hrun).2 i hi
  obtain ⟨c, here, hc, hissued, hs', hcurrent⟩ := htraced.statement hb hs
  refine ⟨c, _, hc, hs', fun name hname version hversion => ⟨?_, ?_⟩⟩
  · rw [← hcurrent] at hversion ⊢
    exact hissued.mem_reached_statement_iff hversion
  · exact Node.exists_eq_assignment_of_mem_inputs hname

/-- A block that declares a variable and then adds to it. -/
private def adding : Graph :=
  { blocks := #[
      { id := 0, kind := .base, statements := [.declaration "x" "int" (some (.int 1)),
        .assignment .addAssign (.ident "x") (.int 2)] }] }

/-- What renaming makes of it. -/
private def added : Graph :=
  { blocks := #[
      { id := 0, kind := .base, statements := [.declaration "x_0" "int" (some (.int 1)),
        .assignment .addAssign (.ident "x_1") (.int 2)] }] }

private theorem run_rename_adding :
    (rename ∅).run adding = .ok (((Versions.start ∅).fresh "x").2.fresh "x").2 added := by
  cbv

private theorem mem_reachable_adding : 0 ∈ adding.reachable :=
  Graph.mem_reachable_iff.2 ⟨by decide, .refl⟩

private theorem lastDefinition_adding :
    lastDefinition "x" (adding.definitionsBefore added (adding.treePath 0) 0 1) = some "x_0" := by
  have hentry : adding.treePath 0 = [] := adding.treePath_entry
  rw [hentry]
  decide

/-- The version to which something is added is read, and it is lost: `x += 2` becomes `x_1 += 2`. -/
theorem rename_adding_loses_read :
    ∃ versions g', (rename ∅).run adding = .ok versions g' ∧ 0 ∈ adding.reachable ∧
      ∃ b c, ∃ s s' : Node, adding.block? 0 = some b ∧ g'.block? 0 = some c ∧
        b.statements[1]? = some s ∧ c.statements[1]? = some s' ∧ "x" ∈ s.inputs ∧
        lastDefinition "x" (adding.definitionsBefore g' (adding.treePath 0) 0 1) = some "x_0" ∧
        "x_0" ∉ s'.reached :=
  ⟨_, added, run_rename_adding, mem_reachable_adding, _, _, _, _, rfl, rfl, rfl, rfl, by decide,
    lastDefinition_adding, by decide⟩

theorem reached_iff_of_run_rename_adding :
    ∃ versions, (rename ∅).run adding = .ok versions added ∧ 0 ∈ adding.reachable ∧
      ∃ c, ∃ s' : Node, added.block? 0 = some c ∧ c.statements[1]? = some s' ∧
        ("x_0" ∈ s'.reached ↔
          "x" ∈ (Node.assignment .addAssign (.ident "x") (.int 2)).uses ∨
            "x_0" ∈ (Node.assignment .addAssign (.ident "x") (.int 2)).uses ∧
              lastDefinition "x_0"
                (adding.definitionsBefore added (adding.treePath 0) 0 1) = none) := by
  obtain ⟨c, s', hc, hs', hreads⟩ :=
    reached_iff_of_run_rename run_rename_adding mem_reachable_adding (k := 1) rfl rfl
  exact ⟨_, run_rename_adding, mem_reachable_adding, c, s', hc, hs',
    (hreads "x" (by decide) "x_0" lastDefinition_adding).1⟩

end Edit

end FlowGraph
