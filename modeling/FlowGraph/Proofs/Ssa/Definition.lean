import FlowGraph.Ssa.Declared
import FlowGraph.Ssa.Renaming
import Mathlib.Tactic.Common

/-!
# Definitions and uses

A definition is a variable together with the version it gets. Renaming a block replaces each use of
a variable by the version of the last definition before it in the block, or else by the version that
was current when the block was entered.

## Main definitions

* `Node.uses`: the identifiers of a statement that renaming replaces, in order
* `Block.definitions`, `Block.definitionsUpTo`: what a block defines
* `lastDefinition`: the version of the last definition of a variable
* `Block.Renamed`: a block that was renamed from given versions

## Main results

* `Naming.renamed_block`: renaming a block renames it from the current versions
-/

namespace FlowGraph

namespace Node

mutual

/-- The identifiers that a substitution reaches, in order. -/
def reached : Node → List String
  | declaration _ _ init => reachedOptional init
  | assignment _ target value => target.reached ++ value.reached
  | binary _ left right => left.reached ++ right.reached
  | unary _ operand => operand.reached
  | ret value => reachedOptional value
  | call _ args => reachedAll args
  | ident name => [name]
  | _ => []

/-- The identifiers of a child that may be absent. -/
def reachedOptional : Option Node → List String
  | none => []
  | some node => node.reached

/-- The identifiers of each node of a list. -/
def reachedAll : List Node → List String
  | [] => []
  | node :: rest => node.reached ++ reachedAll rest

end

/-- The identifiers that a statement uses: those a substitution reaches, apart from a plain target
that the statement defines. -/
def uses : Node → List String
  | assignment _ (ident _) value => value.reached
  | node => node.reached

/-- A declaration defines what it declares. -/
theorem defined?_of_declared? {s : Node} {name : String} (h : s.declared? = some name) :
    s.defined? = some name := by
  cases s with
  | declaration => exact h
  | _ => cases h

variable (lookup : String → Option String)

mutual

/-- A substitution replaces what it reaches one by one. -/
theorem reached_substitute : (node : Node) →
    (node.substitute lookup).reached = node.reached.map fun name => (lookup name).getD name
  | declaration _ _ init => by
    rw [substitute, reached, reached, reachedOptional_substituteOptional init]
  | assignment _ target value => by
    rw [substitute, reached, reached, reached_substitute target, reached_substitute value,
      List.map_append]
  | binary _ left right => by
    rw [substitute, reached, reached, reached_substitute left, reached_substitute right,
      List.map_append]
  | unary _ operand => by rw [substitute, reached, reached, reached_substitute operand]
  | ret value => by rw [substitute, reached, reached, reachedOptional_substituteOptional value]
  | call _ args => by rw [substitute, reached, reached, reachedAll_substituteAll args]
  | ident _ => rfl
  | function .. | declarator .. | parameters .. | compound .. | branch .. | whileLoop ..
  | forLoop .. | jump .. | constant .. => rfl

theorem reachedOptional_substituteOptional : (node : Option Node) →
    reachedOptional (substituteOptional lookup node) =
      (reachedOptional node).map fun name => (lookup name).getD name
  | none => rfl
  | some node => by
    rw [substituteOptional, reachedOptional, reachedOptional, reached_substitute node]

theorem reachedAll_substituteAll : (nodes : List Node) →
    reachedAll (substituteAll lookup nodes) =
      (reachedAll nodes).map fun name => (lookup name).getD name
  | [] => rfl
  | node :: rest => by
    rw [substituteAll, reachedAll, reachedAll, reached_substitute node,
      reachedAll_substituteAll rest, List.map_append]

end

@[simp] theorem isSome_defined?_substitute (node : Node) :
    (node.substitute lookup).defined?.isSome = node.defined?.isSome := by
  cases node with
  | assignment op target value => cases target <;> rfl
  | _ => rfl

/-- A substitution replaces the uses of a statement one by one. -/
theorem uses_substitute (node : Node) :
    (node.substitute lookup).uses = node.uses.map fun name => (lookup name).getD name := by
  cases node with
  | assignment op target value =>
    cases target with
    | ident name => exact reached_substitute lookup value
    | _ => exact reached_substitute lookup (assignment op _ value)
  | _ => exact reached_substitute lookup _

/-- The variable that a statement defines is none of its uses. -/
@[simp] theorem uses_withDefined (name : String) (node : Node) :
    (node.withDefined name).uses = node.uses := by
  cases node with
  | assignment op target value => cases target <;> rfl
  | _ => rfl

end Node

/-- The version of the last definition of a variable. -/
def lastDefinition (name : String) (definitions : List (String × String)) : Option String :=
  definitions.reverse.lookup name

@[simp] theorem lastDefinition_nil (name : String) : lastDefinition name [] = none := rfl

/-- A later definition hides the ones before it. -/
theorem lastDefinition_append (name : String) (first second : List (String × String)) :
    lastDefinition name (first ++ second) =
      (lastDefinition name second).or (lastDefinition name first) := by
  rw [lastDefinition, List.reverse_append, List.lookup_append, lastDefinition, lastDefinition]

theorem lastDefinition_singleton (name other version : String) :
    lastDefinition name [(other, version)] = if name = other then some version else none := by
  by_cases h : name = other <;> simp [lastDefinition, h]

/-- A variable with a definition has a last one. -/
theorem lastDefinition_isSome_of_mem {name version : String} {definitions : List (String × String)}
    (h : (name, version) ∈ definitions) : (lastDefinition name definitions).isSome := by
  obtain ⟨first, second, rfl⟩ := List.append_of_mem h
  rw [← List.singleton_append, lastDefinition_append, lastDefinition_append,
    lastDefinition_singleton, if_pos rfl]
  simp

/-- The last definition is one of them. -/
theorem mem_of_lastDefinition {name version : String} {definitions : List (String × String)}
    (h : lastDefinition name definitions = some version) : (name, version) ∈ definitions := by
  obtain ⟨first, second, heq, -⟩ := List.lookup_eq_some_iff.1 h
  rw [← List.mem_reverse, heq]
  exact List.mem_append_right _ List.mem_cons_self

/-- A variable that is defined in a block, or else has a current version that is the last one so
far, has a last definition at the end of the block. -/
theorem exists_lastDefinition {name : String} {own earlier : List (String × String)}
    {current : Option String} (h : (lastDefinition name own).isSome ∨
      ∃ version, current = some version ∧ lastDefinition name earlier = some version) :
    ∃ version, (lastDefinition name own).or current = some version ∧
      lastDefinition name (earlier ++ own) = some version := by
  rw [lastDefinition_append]
  rcases h with hown | ⟨version, rfl, hearlier⟩
  · obtain ⟨version, hversion⟩ := Option.isSome_iff_exists.1 hown
    exact ⟨version, by rw [hversion, Option.some_or], by rw [hversion, Option.some_or]⟩
  · rw [hearlier]
    cases lastDefinition name own with
    | none => exact ⟨version, rfl, rfl⟩
    | some later => exact ⟨later, rfl, rfl⟩

/-- What a statement defines: its variable, with the name that it has after renaming. -/
def Node.definition? (before after : Node) : Option (String × String) :=
  before.defined?.bind fun name => after.defined?.map fun version => (name, version)

/-- What statements define, in order. -/
def definitions (before after : List Node) : List (String × String) :=
  (before.zip after).filterMap fun pair => pair.1.definition? pair.2

theorem definitions_cons (s s' : Node) (before after : List Node) :
    definitions (s :: before) (s' :: after) =
      (s.definition? s').toList ++ definitions before after := by
  rw [definitions, List.zip_cons_cons, List.filterMap_cons, definitions]
  cases s.definition? s' <;> rfl

/-- A statement that defines a variable is among the definitions. -/
theorem exists_mem_definitions {before after : List Node} {k : Nat} {s s' : Node} {name : String}
    (hs : before[k]? = some s) (hs' : after[k]? = some s') (hname : s.defined? = some name)
    (hdefined : s'.defined?.isSome) : ∃ version, (name, version) ∈ definitions before after := by
  obtain ⟨version, hversion⟩ := Option.isSome_iff_exists.1 hdefined
  refine ⟨version, List.mem_filterMap.2 ⟨(s, s'), ?_, ?_⟩⟩
  · exact List.mem_of_getElem? (List.getElem?_zip_eq_some.2 ⟨hs, hs'⟩)
  · rw [Node.definition?, hname, hversion]
    rfl

/-- What a phi node defines, once it has a result. -/
def Phi.definition? (phi : Phi) : Option (String × String) :=
  phi.result.map fun version => (phi.base, version)

namespace Block

/-- What a block defines before its `k`-th statement: the results of its phi nodes, then what the
first `k` statements define. -/
def definitionsUpTo (before after : Block) (k : Nat) : List (String × String) :=
  after.phis.filterMap Phi.definition? ++
    FlowGraph.definitions (before.statements.take k) (after.statements.take k)

/-- What a block defines. -/
def definitions (before after : Block) : List (String × String) :=
  after.phis.filterMap Phi.definition? ++
    FlowGraph.definitions before.statements after.statements

theorem definitionsUpTo_eq (before after : Block) (k : Nat) :
    before.definitionsUpTo after k = after.phis.filterMap Phi.definition? ++
      ((before.statements.zip after.statements).take k).filterMap fun pair =>
        pair.1.definition? pair.2 := by
  rw [definitionsUpTo, FlowGraph.definitions, List.zip_eq_zipWith, List.zip_eq_zipWith,
    List.take_zipWith]

theorem definitionsUpTo_length (before after : Block) :
    before.definitionsUpTo after before.statements.length = before.definitions after := by
  rw [definitionsUpTo_eq, definitions, FlowGraph.definitions, List.take_of_length_le]
  rw [List.length_zip]
  exact Nat.min_le_left ..

theorem definitionsUpTo_subset (before after : Block) (k : Nat) :
    before.definitionsUpTo after k ⊆ before.definitions after := by
  rw [definitionsUpTo_eq, definitions, FlowGraph.definitions]
  exact List.append_subset.2 ⟨List.subset_append_left .., List.Subset.trans
    ((List.take_sublist ..).filterMap _).subset (List.subset_append_right ..)⟩

/-- The block `after` was renamed from `before`, starting from the versions `env`, and the versions
`env'` are current at its end. -/
structure Renamed (before : Block) (env : Std.TreeMap String String) (after : Block)
    (env' : Std.TreeMap String String) : Prop where
  /-- The last definition of a variable is current at the end. -/
  current : ∀ name, env'[name]? = (lastDefinition name (before.definitions after)).or env[name]?
  /-- A use is replaced by the last definition before its statement. -/
  statement : ∀ {k : Nat} {s : Node}, before.statements[k]? = some s →
    ∃ s' : Node, after.statements[k]? = some s' ∧ s'.defined?.isSome = s.defined?.isSome ∧
      s'.uses = s.uses.map fun name =>
        ((lastDefinition name (before.definitionsUpTo after k)).or env[name]?).getD name
  /-- Every phi node has a result. -/
  resolved : ∀ phi ∈ after.phis, phi.result.isSome

namespace Renamed

variable {before after : Block} {env env' : Std.TreeMap String String} {k : Nat}

/-- The result of a phi node is among the definitions of its block. -/
theorem exists_mem_of_phi (h : before.Renamed env after env') {phi : Phi}
    (hphi : phi ∈ after.phis) :
    ∃ version, (phi.base, version) ∈ after.phis.filterMap Phi.definition? := by
  obtain ⟨version, hversion⟩ := Option.isSome_iff_exists.1 (h.resolved phi hphi)
  refine ⟨version, List.mem_filterMap.2 ⟨phi, hphi, ?_⟩⟩
  rw [Phi.definition?, hversion]
  rfl

theorem isSome_upTo_of_phi (h : before.Renamed env after env') {phi : Phi}
    (hphi : phi ∈ after.phis) :
    (lastDefinition phi.base (before.definitionsUpTo after k)).isSome := by
  obtain ⟨version, hversion⟩ := h.exists_mem_of_phi hphi
  exact lastDefinition_isSome_of_mem (List.mem_append_left _ hversion)

theorem isSome_of_phi (h : before.Renamed env after env') {phi : Phi} (hphi : phi ∈ after.phis) :
    (lastDefinition phi.base (before.definitions after)).isSome := by
  obtain ⟨version, hversion⟩ := h.exists_mem_of_phi hphi
  exact lastDefinition_isSome_of_mem (List.mem_append_left _ hversion)

/-- A variable is defined once its declaration was passed. -/
theorem isSome_upTo_of_declared (h : before.Renamed env after env') {l : Nat} {s : Node}
    {name : String} (hs : before.statements[l]? = some s) (hname : s.declared? = some name)
    (hl : l < k) : (lastDefinition name (before.definitionsUpTo after k)).isSome := by
  have hdefines := Node.defined?_of_declared? hname
  obtain ⟨s', hs', hdefined, -⟩ := h.statement hs
  rw [hdefines] at hdefined
  rw [← List.getElem?_take_of_lt hl] at hs hs'
  obtain ⟨version, hversion⟩ := exists_mem_definitions hs hs' hdefines hdefined
  exact lastDefinition_isSome_of_mem (List.mem_append_right _ hversion)

theorem isSome_of_declared (h : before.Renamed env after env') {name : String}
    (hname : name ∈ before.declared) :
    (lastDefinition name (before.definitions after)).isSome := by
  obtain ⟨s, hs, hdeclared⟩ := List.mem_filterMap.1 hname
  obtain ⟨l, hl⟩ := List.mem_iff_getElem?.1 hs
  have hdefines := Node.defined?_of_declared? hdeclared
  obtain ⟨s', hs', hdefined, -⟩ := h.statement hl
  rw [hdefines] at hdefined
  obtain ⟨version, hversion⟩ := exists_mem_definitions hl hs' hdefines hdefined
  exact lastDefinition_isSome_of_mem (List.mem_append_right _ hversion)

end Renamed

end Block

namespace Naming

variable (naming : Naming)

theorem current_define (name other : String) :
    (naming.define name).2.current[other]? =
      (lastDefinition other [(name, (naming.define name).1)]).or naming.current[other]? := by
  have hinsert : (naming.define name).2.current =
      naming.current.insert name (naming.define name).1 := rfl
  rw [hinsert, Std.TreeMap.getElem?_insert, lastDefinition_singleton]
  simp only [Std.compare_eq_iff_eq]
  by_cases h : name = other
  · simp [h]
  · simp [h, Ne.symm h]

/-- A phi node defines a new version. -/
theorem current_phi (phi : Phi) (name : String) :
    (naming.phi phi).2.current[name]? =
      (lastDefinition name (naming.phi phi).1.definition?.toList).or naming.current[name]? :=
  naming.current_define phi.base name

theorem phis_cons (first : Phi) (rest : List Phi) :
    naming.phis (first :: rest) = ((naming.phi first).1 :: ((naming.phi first).2.phis rest).1,
      ((naming.phi first).2.phis rest).2) := rfl

/-- The results of phi nodes are current after them. -/
theorem current_phis (phis : List Phi) (name : String) :
    (naming.phis phis).2.current[name]? =
      (lastDefinition name ((naming.phis phis).1.filterMap Phi.definition?)).or
        naming.current[name]? := by
  induction phis generalizing naming with
  | nil => rfl
  | cons first rest ih =>
    have hsplit : (naming.phis (first :: rest)).1.filterMap Phi.definition? =
        (naming.phi first).1.definition?.toList ++
          ((naming.phi first).2.phis rest).1.filterMap Phi.definition? := rfl
    rw [hsplit, lastDefinition_append, Option.or_assoc, ← current_phi]
    exact ih (naming.phi first).2

theorem isSome_result_of_mem_phis {phis : List Phi} {phi : Phi} (h : phi ∈ (naming.phis phis).1) :
    phi.result.isSome := by
  induction phis generalizing naming with
  | nil => cases h
  | cons first rest ih =>
    rw [phis_cons] at h
    rcases List.mem_cons.1 h with rfl | h
    · rfl
    · exact ih _ h

variable (s : Node)

theorem statement_of_defined?_eq_some {name : String} (h : s.defined? = some name) :
    naming.statement s =
      ((s.substitute (naming.current[·]?)).withDefined (naming.define name).1,
        (naming.define name).2) := by
  unfold statement
  rw [h]

theorem statement_of_defined?_eq_none (h : s.defined? = none) :
    naming.statement s = (s.substitute (naming.current[·]?), naming) := by
  unfold statement
  rw [h]

/-- The uses of a statement are replaced by the current versions. -/
theorem uses_statement : (naming.statement s).1.uses =
    s.uses.map fun name => naming.current[name]?.getD name := by
  cases h : s.defined? with
  | none => rw [naming.statement_of_defined?_eq_none s h, Node.uses_substitute]
  | some name =>
    rw [naming.statement_of_defined?_eq_some s h, Node.uses_withDefined, Node.uses_substitute]

/-- What a statement defines is a new version of the variable it defined. -/
theorem defined?_statement :
    (naming.statement s).1.defined? = s.defined?.map fun name => (naming.define name).1 := by
  cases h : s.defined? with
  | none =>
    rw [naming.statement_of_defined?_eq_none s h, Option.map_none]
    refine Option.not_isSome_iff_eq_none.1 ?_
    rw [Node.isSome_defined?_substitute, h, Option.isSome_none]
    exact Bool.false_ne_true
  | some name =>
    -- Substitution keeps what is defined, so that the new version replaces it.
    rw [naming.statement_of_defined?_eq_some s h, Node.defined?_withDefined]
    have hsome : (s.substitute (naming.current[·]?)).defined?.isSome := by
      rw [Node.isSome_defined?_substitute, h, Option.isSome_some]
    obtain ⟨old, hold⟩ := Option.isSome_iff_exists.1 hsome
    rw [hold, Option.map_some, Option.map_some]

theorem isSome_defined?_statement :
    (naming.statement s).1.defined?.isSome = s.defined?.isSome := by
  rw [naming.defined?_statement, Option.isSome_map]

/-- What a statement defines is current after it. -/
theorem current_statement (name : String) :
    (naming.statement s).2.current[name]? =
      (lastDefinition name (s.definition? (naming.statement s).1).toList).or
        naming.current[name]? := by
  cases h : s.defined? with
  | none => simp [naming.statement_of_defined?_eq_none s h, Node.definition?, h]
  | some defined =>
    have hdefinition : s.definition? (naming.statement s).1 =
        some (defined, (naming.define defined).1) := by
      rw [Node.definition?, naming.defined?_statement, h]
      rfl
    rw [hdefinition, naming.statement_of_defined?_eq_some s h, naming.current_define]
    rfl

theorem statements_cons (rest : List Node) :
    naming.statements (s :: rest) =
      ((naming.statement s).1 :: ((naming.statement s).2.statements rest).1,
        ((naming.statement s).2.statements rest).2) := rfl

/-- What statements define is current after them. -/
theorem current_statements (statements : List Node) (name : String) :
    (naming.statements statements).2.current[name]? =
      (lastDefinition name (definitions statements (naming.statements statements).1)).or
        naming.current[name]? := by
  induction statements generalizing naming with
  | nil => rfl
  | cons s rest ih =>
    rw [statements_cons, definitions_cons, lastDefinition_append, Option.or_assoc,
      ← current_statement]
    exact ih (naming.statement s).2

/-- Each statement sees the definitions of those before it. -/
theorem exists_statement {statements : List Node} {k : Nat} {s : Node}
    (hs : statements[k]? = some s) :
    ∃ s' : Node, (naming.statements statements).1[k]? = some s' ∧
      s'.defined?.isSome = s.defined?.isSome ∧ s'.uses = s.uses.map fun name =>
        ((lastDefinition name
          (definitions (statements.take k) ((naming.statements statements).1.take k))).or
            naming.current[name]?).getD name := by
  -- The versions that a statement starts from are those after the statements before it.
  induction statements generalizing naming k with
  | nil => cases hs
  | cons first rest ih =>
    rw [statements_cons]
    cases k with
    | zero =>
      obtain rfl := Option.some.inj hs
      exact ⟨_, rfl, naming.isSome_defined?_statement first, naming.uses_statement first⟩
    | succ k =>
      obtain ⟨s', hs', hdefined, huses⟩ := ih (naming.statement first).2 hs
      refine ⟨s', hs', hdefined, huses.trans (List.map_congr_left fun name _ => ?_)⟩
      rw [List.take_succ_cons, List.take_succ_cons, definitions_cons, lastDefinition_append,
        Option.or_assoc, ← current_statement]

/-- Renaming a block renames it from the current versions. -/
theorem renamed_block {before block : Block} (h : block.statements = before.statements) :
    before.Renamed naming.current (naming.block block).1 (naming.block block).2.current where
  current := by
    intro name
    -- Phi nodes come first, so the versions after them are those the statements start from.
    have hsplit : before.definitions (naming.block block).1 =
        (naming.phis block.phis).1.filterMap Phi.definition? ++ definitions block.statements
          ((naming.phis block.phis).2.statements block.statements).1 := by
      rw [Block.definitions, ← h]
      rfl
    rw [hsplit, lastDefinition_append, Option.or_assoc, ← current_phis]
    exact (naming.phis block.phis).2.current_statements block.statements name
  statement := by
    intro k s hs
    rw [← h] at hs
    obtain ⟨s', hs', hdefined, huses⟩ := (naming.phis block.phis).2.exists_statement hs
    refine ⟨s', hs', hdefined, huses.trans (List.map_congr_left fun name _ => ?_)⟩
    have hsplit : before.definitionsUpTo (naming.block block).1 k =
        (naming.phis block.phis).1.filterMap Phi.definition? ++
          definitions (block.statements.take k)
            (((naming.phis block.phis).2.statements block.statements).1.take k) := by
      rw [Block.definitionsUpTo, ← h]
      rfl
    rw [hsplit, lastDefinition_append, Option.or_assoc, ← current_phis]
  resolved := fun _ hphi => naming.isSome_result_of_mem_phis hphi

end Naming

end FlowGraph
