import FlowGraph.Proofs.Ssa.NamesOnly

/-!
# Names that conversion identifies

Conversion replaces a name by a version of it or leaves it as it is. Versions of different variables
are different, so two names can become the same only if one of them is left alone and is spelled
like a version of the other.

## Main definitions

* `Node.names`: all names in a statement
* `Graph.Respells`: a name in a reachable statement before and after conversion

## Main results

* `Graph.respells_eq_of_converted`: when conversion identifies two names
-/

namespace FlowGraph

/-- A name that was kept, or replaced by a version of it. -/
def Respelled (before after : String) : Prop :=
  after = before ∨ ∃ n, after = versionName before n

/-- If two names become the same, one of them was kept and is spelled like a version of the
other. -/
theorem Respelled.eq_or_eq {first second name : String} (hfirst : Respelled first name)
    (hsecond : Respelled second name) (hne : first ≠ second) :
    (name = first ∧ ∃ n, first = versionName second n) ∨
      (name = second ∧ ∃ n, second = versionName first n) := by
  rcases hfirst with rfl | ⟨n, rfl⟩ <;> rcases hsecond with heq | ⟨m, heq⟩
  · exact absurd heq hne
  · exact .inl ⟨rfl, m, heq⟩
  · exact .inr ⟨heq, n, heq.symm⟩
  · exact absurd (versionName_injective heq).1 hne

namespace Node

mutual

/-- All names in a tree, in order: identifiers, and what declarations and calls name. -/
def names : Node → List String
  | function decl body => decl.names ++ body.names
  | declarator name _ params => name :: namesOptional params
  | parameters params => namesAll params
  | declaration name _ init => name :: namesOptional init
  | compound items => namesAll items
  | branch cond onTrue onFalse => cond.names ++ onTrue.names ++ namesOptional onFalse
  | whileLoop cond body => cond.names ++ body.names
  | forLoop init cond step body =>
    namesInit init ++ namesOptional cond ++ namesOptional step ++ body.names
  | ret value => namesOptional value
  | jump _ => []
  | binary _ left right => left.names ++ right.names
  | unary _ operand => operand.names
  | assignment _ target value => target.names ++ value.names
  | ident name => [name]
  | constant .. => []
  | call callee args => callee :: namesAll args

/-- The names in an initial clause. -/
def namesInit : ForInit → List String
  | .absent => []
  | .decls items => namesAll items
  | .expr value => value.names

/-- The names in a child that may be absent. -/
def namesOptional : Option Node → List String
  | none => []
  | some node => node.names

/-- The names in the nodes of a list. -/
def namesAll : List Node → List String
  | [] => []
  | node :: rest => node.names ++ namesAll rest

end

variable {R : String → String → Prop}

mutual

/-- In two trees that differ in names only, related names stand in the same places. -/
theorem RenamedBy.forall₂_names (hrefl : ∀ name, R name name) {node node' : Node} :
    RenamedBy R node node' → List.Forall₂ R node.names node'.names
  | .same _ => List.forall₂_same.2 fun name _ => hrefl name
  | .ident hname => by
    rw [names, names]
    exact .cons hname .nil
  | .declaration hname hinit => by
    rw [names, names]
    exact .cons hname (hinit.forall₂_names hrefl)
  | .assignment htarget hvalue => by
    rw [names, names]
    exact List.rel_append (htarget.forall₂_names hrefl) (hvalue.forall₂_names hrefl)
  | .binary hleft hright => by
    rw [names, names]
    exact List.rel_append (hleft.forall₂_names hrefl) (hright.forall₂_names hrefl)
  | .unary h => by
    rw [names, names]
    exact h.forall₂_names hrefl
  | .ret h => by
    rw [names, names]
    exact h.forall₂_names hrefl
  | .call h => by
    rw [names, names]
    exact .cons (hrefl _) (h.forall₂_names hrefl)

theorem RenamedOptional.forall₂_names (hrefl : ∀ name, R name name) {node node' : Option Node} :
    RenamedOptional R node node' → List.Forall₂ R (namesOptional node) (namesOptional node')
  | .none => .nil
  | .some h => by
    rw [namesOptional, namesOptional]
    exact h.forall₂_names hrefl

theorem RenamedAll.forall₂_names (hrefl : ∀ name, R name name) {nodes nodes' : List Node} :
    RenamedAll R nodes nodes' → List.Forall₂ R (namesAll nodes) (namesAll nodes')
  | .nil => .nil
  | .cons h hrest => by
    rw [namesAll, namesAll]
    exact List.rel_append (h.forall₂_names hrefl) (hrest.forall₂_names hrefl)

end

end Node

theorem Versions.Renames.respelled {versions : Versions} {before after : String}
    (h : versions.Renames before after) : Respelled before after := by
  rcases h with h | ⟨n, -, h⟩
  · exact .inl h
  · exact .inr ⟨n, h⟩

/-- A statement that is renamed keeps each name or gets a version of it. -/
theorem Naming.Issued.respelled_statement {naming : Naming} (h : naming.Issued) (s : Node) :
    List.Forall₂ Respelled s.names (naming.statement s).1.names :=
  (h.renamed_statement s).mono (fun _ _ => Versions.Renames.respelled)
    |>.forall₂_names fun _ => .inl rfl

namespace Graph

variable {g g' : Graph} {report : ConversionReport}

/-- A statement of a reachable block of `g` has the name `before`, where the same statement in `g'`
has the name `after`. -/
def Respells (g g' : Graph) (before after : String) : Prop :=
  ∃ i ∈ g.reachable, ∃ (b c : Block) (k : Nat) (s s' : Node) (m : Nat),
    g.block? i = some b ∧ g'.block? i = some c ∧ b.statements[k]? = some s ∧
      c.statements[k]? = some s' ∧ s.names[m]? = some before ∧ s'.names[m]? = some after

/-- After a conversion that has succeeded, the statements of the reachable blocks have their names
where they had them. Two names that were different have become the same only if one of them was kept
and is spelled like the version by which the other one was replaced. -/
theorem respells_eq_of_converted (h : g.converted = .ok (g', report)) :
    (∀ i ∈ g.reachable, ∀ (b : Block) (k : Nat) (s : Node), g.block? i = some b →
      b.statements[k]? = some s → ∃ c, ∃ s' : Node, g'.block? i = some c ∧
        c.statements[k]? = some s' ∧ s'.names.length = s.names.length) ∧
    ∀ first second name, g.Respells g' first name → g.Respells g' second name → first ≠ second →
      (name = first ∧ ∃ n, first = versionName second n) ∨
        (name = second ∧ ∃ n, second = versionName first n) := by
  have hstatement {i : BlockId} (hi : i ∈ g.reachable) {b : Block} {k : Nat} {s : Node}
      (hb : g.block? i = some b) (hs : b.statements[k]? = some s) :
      ∃ c, ∃ s' : Node, g'.block? i = some c ∧ c.statements[k]? = some s' ∧
        List.Forall₂ Respelled s.names s'.names := by
    obtain ⟨c, here, hc, hissued, hs', -⟩ := (traced_of_converted h hi).statement hb hs
    exact ⟨c, _, hc, hs', hissued.respelled_statement s⟩
  have hrespelled {before after : String} (hpair : g.Respells g' before after) :
      Respelled before after := by
    obtain ⟨i, hi, b, c, k, s, s', m, hb, hc, hs, hs', hbefore, hafter⟩ := hpair
    obtain ⟨c', t, hc', ht, hall⟩ := hstatement hi hb hs
    obtain rfl := Option.some.inj (hc.symm.trans hc')
    obtain rfl := Option.some.inj (hs'.symm.trans ht)
    exact List.forall₂_zip hall
      (List.mem_of_getElem? (List.getElem?_zip_eq_some.2 ⟨hbefore, hafter⟩))
  refine ⟨fun i hi b k s hb hs => ?_, fun first second name hfirst hsecond hne => ?_⟩
  · obtain ⟨c, s', hc, hs', hall⟩ := hstatement hi hb hs
    exact ⟨c, s', hc, hs', hall.length_eq.symm⟩
  · exact (hrespelled hfirst).eq_or_eq (hrespelled hsecond) hne

/-- A block that declares `x` and adds it to another variable, which is called `x_0`. -/
private def capturing : Graph :=
  { blocks := #[
      { id := 0, kind := .base, statements := [.declaration "x" "int" none,
        .ret (some (.binary .add (.ident "x") (.ident "x_0")))] }] }

/-- What conversion makes of it. -/
private def captured : Graph :=
  { blocks := #[
      { id := 0, kind := .base, statements := [.declaration "x_0" "int" none,
        .ret (some (.binary .add (.ident "x_0") (.ident "x_0")))] }] }

private theorem converted_capturing :
    capturing.converted = .ok (captured, ⟨"<anonymous>", 1, 0, 1⟩) := by
  rw [converted_eq]
  cbv

private theorem respells_capturing :
    capturing.Respells captured "x" "x_0" ∧ capturing.Respells captured "x_0" "x_0" := by
  have hi : 0 ∈ capturing.reachable := mem_reachable_iff.2 ⟨by decide, .refl⟩
  exact ⟨⟨0, hi, _, _, 1, _, _, 0, rfl, rfl, rfl, rfl, rfl, rfl⟩,
    ⟨0, hi, _, _, 1, _, _, 1, rfl, rfl, rfl, rfl, rfl, rfl⟩⟩

/-- Two different variables are the same after conversion. -/
theorem converted_capturing_identifies :
    ∃ g' report, capturing.converted = .ok (g', report) ∧
      capturing.Respells g' "x" "x_0" ∧ capturing.Respells g' "x_0" "x_0" :=
  ⟨captured, _, converted_capturing, respells_capturing⟩

theorem respells_eq_of_converted_capturing :
    ∃ report, capturing.converted = .ok (captured, report) ∧
      capturing.Respells captured "x" "x_0" ∧ capturing.Respells captured "x_0" "x_0" ∧
        (("x_0" = "x" ∧ ∃ n, "x" = versionName "x_0" n) ∨
          ("x_0" = "x_0" ∧ ∃ n, "x_0" = versionName "x" n)) :=
  ⟨_, converted_capturing, respells_capturing.1, respells_capturing.2,
    (respells_eq_of_converted converted_capturing).2 _ _ _ respells_capturing.1
      respells_capturing.2 (by decide)⟩

end Graph

end FlowGraph
