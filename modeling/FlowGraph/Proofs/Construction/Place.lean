import FlowGraph.Proofs.Construction.WellFormed

/-!
# Places in a tree

Construction comes to the nodes that stand in statement position: the bodies of functions and loops,
the items of compound statements and the branches of conditionals. Each of them is a place, with the
nodes around it, the items in front of it and the number of its first block. What a survey does can
be read off the places: it fails for the first one that is too deep or holds a stray jump, and
otherwise leaves the remarks about all of them in the log.

## Main definitions

* `Place`: a node in statement position and where it stands
* `Node.placesIn`: the places in a node, in one of two orders
* `Place.Offends`, `Place.remarks`: what a survey does at a place
* `Node.Abrupt`: the nodes that control cannot pass the end of

## Main results

* `Node.size_layOut`: how many blocks are added for a node
* `Node.surveys_survey`: a survey is read off the places
* `Node.build_fails_iff`: when construction fails, and how
-/

namespace FlowGraph

/-- A node in statement position and where it stands. -/
structure Place where
  node : Node
  /-- The nodes around it, the innermost one first. -/
  around : List Node
  /-- The items in front of it, if it is an item of a compound statement. -/
  before : List Node
  /-- The number of the first block that is added for it. -/
  first : Nat

namespace Node

/-- Whether a node is a loop. -/
def isLoop : Node → Bool
  | whileLoop .. | forLoop .. => true
  | _ => false

mutual

/-- The number of blocks that are added for a node. -/
def blockCount : Node → Nat
  | function _ body => body.blockCount + 1
  | compound items => blockCountAll items + 1
  | branch _ onTrue onFalse => onTrue.blockCount + blockCountOptional onFalse + 3
  | whileLoop _ body => body.blockCount + 3
  | forLoop _ _ _ body => body.blockCount + 4
  | _ => 1

/-- The number of blocks that are added for a list of nodes. -/
def blockCountAll : List Node → Nat
  | [] => 0
  | item :: rest => item.blockCount + blockCountAll rest

/-- The number of blocks that are added for a branch. An absent one has a block as well. -/
def blockCountOptional : Option Node → Nat
  | none => 1
  | some node => node.blockCount

end

end Node

namespace Place

/-- How many nodes are around a place. -/
def depth (p : Place) : Nat :=
  p.around.length

/-- Whether a place is in the body of a loop. -/
def inLoop (p : Place) : Bool :=
  p.around.any Node.isLoop

/-- The blocks that are added for the node of a place. -/
def Holds (p : Place) (i : Nat) : Prop :=
  p.first ≤ i ∧ i < p.first + p.node.blockCount

/-- A place before the places in its node. -/
def topDown (p : Place) (inner : List Place) : List Place :=
  p :: inner

/-- A place after the places in its node. -/
def bottomUp (p : Place) (inner : List Place) : List Place :=
  inner ++ [p]

end Place

namespace Node

mutual

/-- The places in a node that stands somewhere, from left to right. The order of a node and the
nodes in it is given by `order`. -/
def placesIn (order : Place → List Place → List Place) (around before : List Node)
    (first : Nat) (node : Node) : List Place :=
  order ⟨node, around, before, first⟩ <|
    match node with
    | function decl body => body.placesIn order (function decl body :: around) [] (first + 1)
    | compound items => placesOfItems order (compound items :: around) [] (first + 1) items
    | branch cond onTrue onFalse =>
      onTrue.placesIn order (branch cond onTrue onFalse :: around) [] (first + 2) ++
        placesOfOptional order (branch cond onTrue onFalse :: around)
          (first + 2 + onTrue.blockCount) onFalse
    | whileLoop cond body => body.placesIn order (whileLoop cond body :: around) [] (first + 3)
    | forLoop init cond step body =>
      body.placesIn order (forLoop init cond step body :: around) [] (first + 4)
    | _ => []
termination_by structural node

/-- The places in the items of a compound statement. -/
def placesOfItems (order : Place → List Place → List Place) (around before : List Node)
    (first : Nat) (items : List Node) : List Place :=
  match items with
  | [] => []
  | item :: rest =>
    item.placesIn order around before first ++
      placesOfItems order around (before ++ [item]) (first + item.blockCount) rest
termination_by structural items

/-- The places in a branch that may be absent. -/
def placesOfOptional (order : Place → List Place → List Place) (around : List Node)
    (first : Nat) (node : Option Node) : List Place :=
  match node with
  | none => []
  | some node => node.placesIn order around [] first
termination_by structural node

end

/-- The places in a tree, each one before those in its node. -/
def places (node : Node) : List Place :=
  node.placesIn Place.topDown [] [] 1

/-- The places in a tree, each one after those in its node. -/
def placesBottomUp (node : Node) : List Place :=
  node.placesIn Place.bottomUp [] [] 1

/-- The items in front of a node matter for its own place only. -/
theorem exists_inner (order : Place → List Place → List Place) (around : List Node)
    (first : Nat) (node : Node) : ∃ inner, ∀ before,
      node.placesIn order around before first = order ⟨node, around, before, first⟩ inner := by
  cases node <;> exact ⟨_, fun before => by simp only [placesIn]; rfl⟩

/-- Two ways to order a node and the places in it list related places, one node at a time. -/
structure RelatesOrders (R : List Place → List Place → Prop)
    (order order' : Place → List Place → List Place) : Prop where
  nil : R [] []
  append : ∀ {k l k' l' : List Place}, R k l → R k' l' → R (k ++ k') (l ++ l')
  node : ∀ (p : Place) {inner inner' : List Place}, R inner inner' →
    R (order p inner) (order' p inner')

section Orders

variable {R : List Place → List Place → Prop} {order order' : Place → List Place → List Place}

mutual

/-- The places in a node, in two orders. -/
theorem RelatesOrders.placesIn (hR : RelatesOrders R order order') : ∀ (node : Node)
    {around before : List Node} {first : Nat},
    R (node.placesIn order around before first) (node.placesIn order' around before first)
  | function _ body => by
    simp only [Node.placesIn]
    exact hR.node _ (hR.placesIn body)
  | compound items => by
    simp only [Node.placesIn]
    exact hR.node _ (hR.placesOfItems items)
  | branch _ onTrue onFalse => by
    simp only [Node.placesIn]
    exact hR.node _ (hR.append (hR.placesIn onTrue) (hR.placesOfOptional onFalse))
  | whileLoop _ body => by
    simp only [Node.placesIn]
    exact hR.node _ (hR.placesIn body)
  | forLoop _ _ _ body => by
    simp only [Node.placesIn]
    exact hR.node _ (hR.placesIn body)
  | ret _ | jump _ | declarator .. | parameters _ | declaration .. | binary .. | unary ..
  | assignment .. | ident _ | constant .. | call .. => by
    simp only [Node.placesIn]
    exact hR.node _ hR.nil

theorem RelatesOrders.placesOfItems (hR : RelatesOrders R order order') : ∀ (items : List Node)
    {around before : List Node} {first : Nat},
    R (placesOfItems order around before first items)
      (placesOfItems order' around before first items)
  | [] => by
    simp only [Node.placesOfItems]
    exact hR.nil
  | item :: rest => by
    simp only [Node.placesOfItems]
    exact hR.append (hR.placesIn item) (hR.placesOfItems rest)

theorem RelatesOrders.placesOfOptional (hR : RelatesOrders R order order') :
    ∀ (node : Option Node) {around : List Node} {first : Nat},
    R (placesOfOptional order around first node) (placesOfOptional order' around first node)
  | none => by
    simp only [Node.placesOfOptional]
    exact hR.nil
  | some node => by
    simp only [Node.placesOfOptional]
    exact hR.placesIn node

end

end Orders

/-- Both orders list the same places. -/
theorem perm_placesBottomUp (node : Node) : node.placesBottomUp.Perm node.places :=
  RelatesOrders.placesIn
    { nil := .nil
      append := .append
      node := fun p _ _ h => (List.perm_append_singleton p _).trans (h.cons p) } node

/-! ### Blocks -/

mutual

/-- How many blocks are added for a node. -/
theorem size_layOut : ∀ (node : Node) {scope : Scope} {g g' : Graph} {span : Span},
    node.layOut scope g = (g', span) → g'.size = g.size + node.blockCount
  | function _ body => by
    intro h
    obtain ⟨g₁, inner, hg₁, rfl, rfl⟩ := layOut_function h
    rw [Graph.closeFunction, Graph.size_connect, size_layOut body hg₁, Graph.size_addHeader,
      blockCount]
    omega
  | compound items => by
    intro h
    obtain ⟨last, hlast, rfl⟩ := layOut_compound h
    rw [size_layOutItems items hlast, Graph.size_addBlock, blockCount]
    omega
  | branch _ onTrue onFalse => by
    intro h
    obtain ⟨g₁, yes, g₂, no, hg₁, hg₂, rfl, rfl⟩ := layOut_branch h
    rw [Graph.size_addJoin, size_layOutOptional onFalse hg₂, size_layOut onTrue hg₁,
      Graph.size_addTest, blockCount]
    omega
  | whileLoop _ body => by
    intro h
    obtain ⟨g₁, inner, hg₁, rfl, rfl⟩ := layOut_whileLoop h
    rw [Graph.size_closeWhile, size_layOut body hg₁, Graph.size_addWhile, blockCount]
    omega
  | forLoop _ _ _ body => by
    intro h
    obtain ⟨g₁, inner, hg₁, rfl, rfl⟩ := layOut_forLoop h
    rw [Graph.size_closeFor, size_layOut body hg₁, Graph.size_addFor, blockCount]
    omega
  | jump kind => by
    intro h
    rw [layOut] at h
    simp only [blockCount]
    rw [← Graph.size_addJump, h]
  | ret _ | declarator .. | parameters _ | declaration .. | binary .. | unary ..
  | assignment .. | ident _ | constant .. | call .. => by
    intro h
    simp only [layOut] at h
    obtain ⟨rfl, rfl⟩ := Prod.mk.inj h
    simp [blockCount]

/-- How many blocks are added for a list of items. -/
theorem size_layOutItems : ∀ (items : List Node) {scope : Scope} {g g' : Graph}
    {current last : BlockId} {running : Bool},
    layOutItems scope g current running items = (g', last) →
      g'.size = g.size + blockCountAll items
  | [], _, _, _, _, _, _ => by
    intro h
    rw [layOutItems] at h
    obtain ⟨rfl, rfl⟩ := Prod.mk.inj h
    rw [blockCountAll]
    rfl
  | item :: rest, scope, g, _, _, _, running => by
    intro h
    obtain ⟨g₁, span, hg₁, h⟩ := layOutItems_cons h
    have hitem := size_layOut item hg₁
    rw [blockCountAll]
    cases running with
    | false =>
      rw [size_layOutItems rest h, hitem]
      omega
    | true =>
      simp only [if_true] at h
      rw [size_layOutItems rest h, Graph.size_connect, hitem]
      omega

/-- How many blocks are added for a branch. -/
theorem size_layOutOptional : ∀ (node : Option Node) {scope : Scope} {g g' : Graph} {span : Span},
    layOutOptional scope g node = (g', span) → g'.size = g.size + blockCountOptional node
  | none => by
    intro h
    rw [layOutOptional] at h
    obtain ⟨rfl, rfl⟩ := Prod.mk.inj h
    rw [blockCountOptional, Graph.size_addBlock]
  | some node => by
    intro h
    rw [layOutOptional] at h
    rw [blockCountOptional, size_layOut node h]

end

/-! ### Blocks of places -/

section Bounds

variable {p : Place} {around before : List Node} {first : Nat}

theorem mem_placesIn_self (around before : List Node) (first : Nat) (node : Node) :
    ⟨node, around, before, first⟩ ∈ node.placesIn Place.topDown around before first := by
  obtain ⟨inner, hinner⟩ := exists_inner Place.topDown around first node
  rw [hinner]
  exact List.mem_cons_self

mutual

/-- The blocks of the places in a node are blocks of the node. -/
theorem bounds_of_mem_placesIn : ∀ (node : Node) {around before : List Node} {first : Nat},
    p ∈ node.placesIn Place.topDown around before first →
      first ≤ p.first ∧ p.first + p.node.blockCount ≤ first + node.blockCount
  | function _ body => by
    intro h
    simp only [placesIn, Place.topDown, List.mem_cons] at h
    rcases h with rfl | h
    · exact ⟨Nat.le_refl _, Nat.le_refl _⟩
    · have hbounds := bounds_of_mem_placesIn body h
      rw [blockCount]
      omega
  | compound items => by
    intro h
    simp only [placesIn, Place.topDown, List.mem_cons] at h
    rcases h with rfl | h
    · exact ⟨Nat.le_refl _, Nat.le_refl _⟩
    · have hbounds := bounds_of_mem_placesOfItems items h
      rw [blockCount]
      omega
  | branch _ onTrue onFalse => by
    intro h
    simp only [placesIn, Place.topDown, List.mem_cons, List.mem_append] at h
    rcases h with rfl | h | h
    · exact ⟨Nat.le_refl _, Nat.le_refl _⟩
    · have hbounds := bounds_of_mem_placesIn onTrue h
      rw [blockCount]
      omega
    · have hbounds := bounds_of_mem_placesOfOptional onFalse h
      rw [blockCount]
      omega
  | whileLoop _ body => by
    intro h
    simp only [placesIn, Place.topDown, List.mem_cons] at h
    rcases h with rfl | h
    · exact ⟨Nat.le_refl _, Nat.le_refl _⟩
    · have hbounds := bounds_of_mem_placesIn body h
      rw [blockCount]
      omega
  | forLoop _ _ _ body => by
    intro h
    simp only [placesIn, Place.topDown, List.mem_cons] at h
    rcases h with rfl | h
    · exact ⟨Nat.le_refl _, Nat.le_refl _⟩
    · have hbounds := bounds_of_mem_placesIn body h
      rw [blockCount]
      omega
  | ret _ | jump _ | declarator .. | parameters _ | declaration .. | binary .. | unary ..
  | assignment .. | ident _ | constant .. | call .. => by
    intro h
    simp only [placesIn, Place.topDown, List.mem_singleton] at h
    subst h
    exact ⟨Nat.le_refl _, Nat.le_refl _⟩

/-- The blocks of the places in items are blocks of the items. -/
theorem bounds_of_mem_placesOfItems : ∀ (items : List Node) {around before : List Node}
    {first : Nat}, p ∈ placesOfItems Place.topDown around before first items →
      first ≤ p.first ∧ p.first + p.node.blockCount ≤ first + blockCountAll items
  | [] => by
    intro h
    rw [placesOfItems] at h
    cases h
  | item :: rest => by
    intro h
    rw [placesOfItems, List.mem_append] at h
    rw [blockCountAll]
    rcases h with h | h
    · have hbounds := bounds_of_mem_placesIn item h
      omega
    · have hbounds := bounds_of_mem_placesOfItems rest h
      omega

/-- The blocks of the places in a branch are blocks of the branch. -/
theorem bounds_of_mem_placesOfOptional : ∀ (node : Option Node) {around : List Node}
    {first : Nat}, p ∈ placesOfOptional Place.topDown around first node →
      first ≤ p.first ∧ p.first + p.node.blockCount ≤ first + blockCountOptional node
  | none => by
    intro h
    rw [placesOfOptional] at h
    cases h
  | some node => by
    intro h
    rw [placesOfOptional] at h
    exact bounds_of_mem_placesIn node h

end

end Bounds

/-! ### Completion -/

/-- A node that control cannot pass the end of: a return or a jump, or a statement in which control
comes to one of these on every way. -/
inductive Abrupt : Node → Prop
  | ret (value : Option Node) : Abrupt (ret value)
  | jump (kind : Jump) : Abrupt (jump kind)
  | compound {items : List Node} {item : Node} (mem : item ∈ items) (abrupt : item.Abrupt) :
    Abrupt (compound items)
  | branch {onTrue onFalse : Node} (cond : Node) (onTrue_abrupt : onTrue.Abrupt)
    (onFalse_abrupt : onFalse.Abrupt) : Abrupt (branch cond onTrue (some onFalse))
  | function {body : Node} (decl : Node) (abrupt : body.Abrupt) : Abrupt (function decl body)

theorem Abrupt.completes_eq_false {node : Node} (h : node.Abrupt) : node.completes = false := by
  induction h with
  | ret | jump => rw [completes]
  | compound hmem _ ih =>
    rw [completes, completesAll_eq_all, List.all_eq_false]
    exact ⟨_, hmem, by simp [ih]⟩
  | branch _ _ _ ihTrue ihFalse => rw [completes, completesOptional, ihTrue, ihFalse, Bool.or_self]
  | function _ _ ih => rw [completes, ih]

mutual

private theorem abrupt_of_completes : ∀ node : Node, node.completes = false → node.Abrupt
  | function decl body, h => by
    rw [completes] at h
    exact .function decl (abrupt_of_completes body h)
  | compound items, h => by
    rw [completes] at h
    obtain ⟨item, hmem, habrupt⟩ := abrupt_of_completesAll items h
    exact .compound hmem habrupt
  | branch cond onTrue onFalse, h => by
    rw [completes, Bool.or_eq_false_iff] at h
    obtain ⟨onFalse, rfl, habrupt⟩ := abrupt_of_completesOptional onFalse h.2
    exact .branch cond (abrupt_of_completes onTrue h.1) habrupt
  | ret value, _ => .ret value
  | jump kind, _ => .jump kind
  | whileLoop .., h | forLoop .., h | declarator .., h | parameters _, h | declaration .., h
  | binary .., h | unary .., h | assignment .., h | ident _, h | constant .., h | call .., h => by
    simp only [completes, Bool.true_eq_false] at h

private theorem abrupt_of_completesAll : ∀ items : List Node, completesAll items = false →
    ∃ item ∈ items, item.Abrupt
  | [], h => by
    rw [completesAll] at h
    cases h
  | item :: rest, h => by
    rw [completesAll, Bool.and_eq_false_iff] at h
    rcases h with h | h
    · exact ⟨item, List.mem_cons_self, abrupt_of_completes item h⟩
    · obtain ⟨item', hmem, habrupt⟩ := abrupt_of_completesAll rest h
      exact ⟨item', List.mem_cons_of_mem _ hmem, habrupt⟩

private theorem abrupt_of_completesOptional : ∀ node : Option Node,
    completesOptional node = false → ∃ n, node = some n ∧ n.Abrupt
  | none, h => by
    rw [completesOptional] at h
    cases h
  | some node, h => by
    rw [completesOptional] at h
    exact ⟨node, rfl, abrupt_of_completes node h⟩

end

/-- A node is abrupt if control cannot pass its end. -/
theorem abrupt_iff {node : Node} : node.Abrupt ↔ node.completes = false :=
  ⟨Abrupt.completes_eq_false, abrupt_of_completes node⟩

end Node

namespace Place

/-- Control does not come to an item behind one whose end it cannot pass. -/
def Dead (p : Place) : Prop :=
  ∃ item ∈ p.before, item.Abrupt

theorem dead_iff {p : Place} : p.Dead ↔ p.before.all Node.completes = false := by
  simp [Dead, Node.abrupt_iff]

instance (p : Place) : Decidable p.Dead :=
  decidable_of_iff _ dead_iff.symm

/-- The remarks about the node of a place in a survey for some function. -/
def remarks (function : Option String) (p : Place) : List Diagnostic :=
  (if p.node.isUnknown then [.unknownNode function p.node] else []) ++
    if p.Dead then [.unreachableItem function p.node] else []

/-- A jump outside of every loop. -/
def IsStray (p : Place) : Prop :=
  p.inLoop = false ∧ ∃ kind, p.node = .jump kind

/-- A survey fails at a place that is too deep, and at a stray jump. -/
def Offends (maxDepth : Nat) (p : Place) : Prop :=
  maxDepth < p.depth ∨ p.IsStray

/-- The error for a stray jump. -/
def strayJump? (p : Place) : Option Error :=
  match p.node with
  | .jump kind => if p.inLoop then none else some (.notInLoop kind)
  | _ => none

/-- The error with which a survey fails at a place. The depth is looked at first. -/
def offence? (maxDepth : Nat) (p : Place) : Option Error :=
  if maxDepth < p.depth then some (.tooDeep maxDepth) else p.strayJump?

variable {p : Place} {maxDepth : Nat} {e : Error}

theorem strayJump?_eq_some_iff :
    p.strayJump? = some e ↔
      p.inLoop = false ∧ ∃ kind, p.node = .jump kind ∧ e = .notInLoop kind := by
  unfold strayJump?
  split
  · rename_i kind hkind
    simp [hkind, @eq_comm _ e]
  · rename_i hne
    simp only [reduceCtorEq, false_iff, not_and, not_exists]
    exact fun _ kind hkind _ => hne kind hkind

theorem strayJump?_eq_none (h : ∀ kind, p.node ≠ .jump kind) : p.strayJump? = none := by
  unfold strayJump?
  split
  · rename_i kind hkind
    exact absurd hkind (h kind)
  · rfl

theorem offence?_eq_some_iff :
    p.offence? maxDepth = some e ↔
      (maxDepth < p.depth ∧ e = .tooDeep maxDepth) ∨
        (p.depth ≤ maxDepth ∧ p.inLoop = false ∧
          ∃ kind, p.node = .jump kind ∧ e = .notInLoop kind) := by
  unfold offence?
  split
  · rename_i hdeep
    simp [hdeep, Nat.not_le.2 hdeep, @eq_comm _ e]
  · rename_i hdeep
    simp [hdeep, Nat.not_lt.1 hdeep, strayJump?_eq_some_iff]

theorem offence?_eq_none_iff : p.offence? maxDepth = none ↔ ¬p.Offends maxDepth := by
  rw [← not_iff_not, not_not, ← ne_eq, Option.ne_none_iff_exists']
  simp only [offence?_eq_some_iff, Offends, IsStray]
  by_cases hdeep : maxDepth < p.depth
  · simp [hdeep]
  · simp [hdeep, Nat.not_lt.1 hdeep]

end Place

/-! ### Surveys -/

/-- What a survey does: it fails with the error `offence`, or else adds remarks to the log. -/
structure Surveys (x : EStateM Error Log Unit) (offence : Option Error)
    (remarks : List Diagnostic) : Prop where
  fails : ∀ {e}, offence = some e → ∀ log, ∃ log', x.run log = .error e log'
  reports : offence = none → ∀ log, ∃ log', x.run log = .ok () log' ∧
    log'.diagnostics.entries.toList = log.diagnostics.entries.toList ++ remarks

namespace Surveys

variable {x y : EStateM Error Log Unit} {offence offence' : Option Error}
  {remarks remarks' : List Diagnostic}

theorem skip : Surveys (pure ()) none [] :=
  ⟨nofun, fun _ log => ⟨log, rfl, (List.append_nil _).symm⟩⟩

theorem throw (e : Error) (remarks : List Diagnostic) : Surveys (throw e) (some e) remarks :=
  ⟨fun h log => ⟨log, by rw [Option.some.inj h]; rfl⟩, nofun⟩

theorem warnUnknown (s : Survey) (node : Node) :
    Surveys (s.warnUnknown node) none [.unknownNode s.function node] :=
  ⟨nofun, fun _ _ => ⟨_, rfl, by simp [Log.report, Log.tell, Diagnostics.push]⟩⟩

theorem reportUnless (s : Survey) (running : Bool) (item : Node) :
    Surveys (s.reportUnless running item) none
      (if running then [] else [.unreachableItem s.function item]) := by
  refine ⟨nofun, fun _ log => ⟨_, rfl, ?_⟩⟩
  cases running <;> simp [Log.report, Diagnostics.push]

/-- Of two surveys, the first one that fails decides. -/
theorem andThen (h : Surveys x offence remarks) (h' : Surveys y offence' remarks') :
    Surveys (do x; y) (offence.or offence') (remarks ++ remarks') where
  fails := by
    intro e he log
    cases hoffence : offence with
    | some e' =>
      rw [hoffence, Option.some_or] at he
      obtain ⟨log', hrun⟩ := h.fails (hoffence.trans he) log
      exact ⟨log', by rw [EStateM.run_bind, hrun]⟩
    | none =>
      rw [hoffence, Option.none_or] at he
      obtain ⟨log₁, hrun, -⟩ := h.reports hoffence log
      obtain ⟨log', hrun'⟩ := h'.fails he log₁
      exact ⟨log', by rw [EStateM.run_bind, hrun]; exact hrun'⟩
  reports := by
    intro hnone log
    rw [Option.or_eq_none_iff] at hnone
    obtain ⟨log₁, hrun, hlog₁⟩ := h.reports hnone.1 log
    obtain ⟨log', hrun', hlog'⟩ := h'.reports hnone.2 log₁
    refine ⟨log', ?_, by rw [hlog', hlog₁, List.append_assoc]⟩
    rw [EStateM.run_bind, hrun]
    exact hrun'

/-- A survey of something that may be too deep. -/
theorem guard (h : Surveys x offence remarks) (maxDepth depth : Nat) :
    Surveys (if maxDepth < depth then .throw (.tooDeep maxDepth) else x)
      (if maxDepth < depth then some (.tooDeep maxDepth) else offence) remarks := by
  split
  · exact .throw _ _
  · exact h

end Surveys

namespace Node

section Survey

variable {s : Survey} {around before : List Node} {first : Nat} {node : Node}
  {x : EStateM Error Log Unit} {inner inner' : List Place}

/-- A node has its own error and remark, unless it is too deep, and those of the places in it. -/
private theorem surveys_of_inner
    (hsurvey : node.survey s (around.any isLoop) around.length =
      if s.maxDepth < around.length then throw (.tooDeep s.maxDepth) else x)
    (htop : node.placesIn Place.topDown around [] first =
      Place.topDown ⟨node, around, [], first⟩ inner)
    (hbottom : node.placesIn Place.bottomUp around [] first =
      Place.bottomUp ⟨node, around, [], first⟩ inner')
    (h : Surveys x
      ((Place.strayJump? ⟨node, around, [], first⟩).or
        (inner.findSome? (Place.offence? s.maxDepth)))
      (inner'.flatMap (Place.remarks s.function) ++
        if node.isUnknown then [.unknownNode s.function node] else [])) :
    Surveys (node.survey s (around.any isLoop) around.length)
      ((node.placesIn Place.topDown around [] first).findSome? (Place.offence? s.maxDepth))
      ((node.placesIn Place.bottomUp around [] first).flatMap (Place.remarks s.function)) := by
  have hremarks : (⟨node, around, [], first⟩ : Place).remarks s.function =
      if node.isUnknown then [.unknownNode s.function node] else [] := by
    simp [Place.remarks, Place.Dead]
  have hoffence : (Place.topDown ⟨node, around, [], first⟩ inner).findSome?
      (Place.offence? s.maxDepth) =
        if s.maxDepth < around.length then some (.tooDeep s.maxDepth)
        else (Place.strayJump? ⟨node, around, [], first⟩).or
          (inner.findSome? (Place.offence? s.maxDepth)) := by
    rw [Place.topDown, List.findSome?_cons, Place.offence?, Place.depth]
    split_ifs
    · rfl
    · cases Place.strayJump? ⟨node, around, [], first⟩ <;> rfl
  rw [hsurvey, htop, hbottom, hoffence, Place.bottomUp, List.flatMap_append,
    List.flatMap_singleton, hremarks]
  exact h.guard _ _

/-- A node without an error or a remark of its own, other than that it is too deep. -/
private theorem surveys_of_parts (hstray : ∀ kind, node ≠ jump kind)
    (hknown : node.isUnknown = false)
    (hsurvey : node.survey s (around.any isLoop) around.length =
      if s.maxDepth < around.length then throw (.tooDeep s.maxDepth) else x)
    (htop : node.placesIn Place.topDown around [] first =
      Place.topDown ⟨node, around, [], first⟩ inner)
    (hbottom : node.placesIn Place.bottomUp around [] first =
      Place.bottomUp ⟨node, around, [], first⟩ inner')
    (h : Surveys x (inner.findSome? (Place.offence? s.maxDepth))
      (inner'.flatMap (Place.remarks s.function))) :
    Surveys (node.survey s (around.any isLoop) around.length)
      ((node.placesIn Place.topDown around [] first).findSome? (Place.offence? s.maxDepth))
      ((node.placesIn Place.bottomUp around [] first).flatMap (Place.remarks s.function)) := by
  refine surveys_of_inner hsurvey htop hbottom ?_
  rw [Place.strayJump?_eq_none hstray, Option.none_or, hknown, if_neg Bool.false_ne_true,
    List.append_nil]
  exact h

/-- A node that is kept as it is, with a warning if it is unknown. -/
private theorem surveys_of_kept (hstray : ∀ kind, node ≠ jump kind)
    (hsurvey : node.survey s (around.any isLoop) around.length =
      if s.maxDepth < around.length then throw (.tooDeep s.maxDepth)
      else if node.isUnknown then s.warnUnknown node else pure ())
    (hplaces : ∀ order, node.placesIn order around [] first = order ⟨node, around, [], first⟩ []) :
    Surveys (node.survey s (around.any isLoop) around.length)
      ((node.placesIn Place.topDown around [] first).findSome? (Place.offence? s.maxDepth))
      ((node.placesIn Place.bottomUp around [] first).flatMap (Place.remarks s.function)) := by
  refine surveys_of_inner hsurvey (hplaces _) (hplaces _) ?_
  rw [Place.strayJump?_eq_none hstray]
  cases node.isUnknown with
  | true => exact .warnUnknown s node
  | false => exact .skip

private theorem surveys_jump (kind : Jump) :
    Surveys ((jump kind).survey s (around.any isLoop) around.length)
      (((jump kind).placesIn Place.topDown around [] first).findSome? (Place.offence? s.maxDepth))
      (((jump kind).placesIn Place.bottomUp around [] first).flatMap
        (Place.remarks s.function)) := by
  refine surveys_of_inner (by rw [survey]) (by simp only [placesIn]; rfl)
    (by simp only [placesIn]; rfl) ?_
  rw [Place.strayJump?, Place.inLoop]
  cases around.any isLoop with
  | true => exact .skip
  | false => exact .throw _ _

/-- The items in front of a node make no error there. -/
private theorem offence?_before (around before : List Node) (first : Nat) (item : Node)
    (maxDepth : Nat) :
    (item.placesIn Place.topDown around before first).findSome? (Place.offence? maxDepth) =
      (item.placesIn Place.topDown around [] first).findSome? (Place.offence? maxDepth) := by
  obtain ⟨inner, hinner⟩ := exists_inner Place.topDown around first item
  rw [hinner, hinner]
  rfl

/-- If control does not come to an item, then this is the last remark about it. -/
private theorem remarks_before (around before : List Node) (first : Nat) (item : Node)
    (function : Option String) :
    (item.placesIn Place.bottomUp around before first).flatMap (Place.remarks function) =
      (item.placesIn Place.bottomUp around [] first).flatMap (Place.remarks function) ++
        if before.all completes then [] else [.unreachableItem function item] := by
  obtain ⟨inner, hinner⟩ := exists_inner Place.bottomUp around first item
  simp only [hinner, Place.bottomUp, List.flatMap_append, List.flatMap_singleton, Place.remarks,
    Place.dead_iff, List.all_nil, List.append_assoc]
  cases before.all completes <;> simp

mutual

/-- A survey fails with the first error at the places of a node, or else makes the remarks about
them. -/
private theorem surveys_placesIn : ∀ (node : Node) (s : Survey) (around : List Node)
    (first : Nat),
    Surveys (node.survey s (around.any isLoop) around.length)
      ((node.placesIn Place.topDown around [] first).findSome? (Place.offence? s.maxDepth))
      ((node.placesIn Place.bottomUp around [] first).flatMap (Place.remarks s.function))
  | function decl body, _, around, _ =>
    surveys_of_parts nofun rfl (by rw [survey]; rfl) (by rw [placesIn]) (by rw [placesIn])
      (surveys_placesIn body _ (function decl body :: around) _)
  | compound items, _, around, _ =>
    surveys_of_parts nofun rfl (by rw [survey]; rfl) (by rw [placesIn]) (by rw [placesIn])
      (surveys_placesOfItems items _ (compound items :: around) [] _)
  | branch cond onTrue onFalse, _, around, _ => by
    refine surveys_of_parts nofun rfl (by rw [survey]) (by rw [placesIn]) (by rw [placesIn]) ?_
    rw [List.findSome?_append, List.flatMap_append]
    exact (surveys_placesIn onTrue _ (branch cond onTrue onFalse :: around) _).andThen
      (surveys_placesOfOptional onFalse _ (branch cond onTrue onFalse :: around) _)
  | whileLoop cond body, _, around, _ =>
    surveys_of_parts nofun rfl (by rw [survey]; rfl) (by rw [placesIn]) (by rw [placesIn])
      (surveys_placesIn body _ (whileLoop cond body :: around) _)
  | forLoop init cond step body, _, around, _ =>
    surveys_of_parts nofun rfl (by rw [survey]; rfl) (by rw [placesIn]) (by rw [placesIn])
      (surveys_placesIn body _ (forLoop init cond step body :: around) _)
  | jump kind, _, _, _ => surveys_jump kind
  | ret _, _, _, _ | declarator .., _, _, _ | parameters _, _, _, _ | declaration .., _, _, _
  | binary .., _, _, _ | unary .., _, _, _ | assignment .., _, _, _ | ident _, _, _, _
  | constant .., _, _, _ | call .., _, _, _ =>
    surveys_of_kept nofun (by simp only [survey]) fun _ => by simp only [placesIn]

private theorem surveys_placesOfItems : ∀ (items : List Node) (s : Survey)
    (around before : List Node) (first : Nat),
    Surveys (surveyItems s (around.any isLoop) around.length (before.all completes) items)
      ((placesOfItems Place.topDown around before first items).findSome?
        (Place.offence? s.maxDepth))
      ((placesOfItems Place.bottomUp around before first items).flatMap
        (Place.remarks s.function))
  | [], _, _, _, _ => by
    simp only [surveyItems, placesOfItems]
    exact .skip
  | item :: rest, s, around, before, first => by
    have hrest := surveys_placesOfItems rest s around (before ++ [item]) (first + item.blockCount)
    rw [List.all_append, List.all_cons, List.all_nil, Bool.and_true] at hrest
    rw [surveyItems, placesOfItems, placesOfItems, List.findSome?_append, List.flatMap_append,
      offence?_before, remarks_before, List.append_assoc]
    exact (surveys_placesIn item s around first).andThen
      ((Surveys.reportUnless s _ item).andThen hrest)

private theorem surveys_placesOfOptional : ∀ (node : Option Node) (s : Survey)
    (around : List Node) (first : Nat),
    Surveys (surveyOptional s (around.any isLoop) around.length node)
      ((placesOfOptional Place.topDown around first node).findSome? (Place.offence? s.maxDepth))
      ((placesOfOptional Place.bottomUp around first node).flatMap (Place.remarks s.function))
  | none, _, _, _ => by
    simp only [surveyOptional, placesOfOptional]
    exact .skip
  | some node, s, around, first => by
    simp only [surveyOptional, placesOfOptional]
    exact surveys_placesIn node s around first

end

end Survey

/-- A survey of a tree fails with the first error at its places, or else makes the remarks about
them from the bottom up. -/
theorem surveys_survey (s : Survey) (node : Node) :
    Surveys (node.survey s false 0) (node.places.findSome? (Place.offence? s.maxDepth))
      (node.placesBottomUp.flatMap (Place.remarks s.function)) :=
  surveys_placesIn node s [] 1

section Build

variable {node : Node} {options : Options} {log log' : Log} {e : Error}

theorem run_build_of_survey_error
    (h : (node.survey ⟨options.maxDepth, node.functionName?⟩ false 0).run log = .error e log') :
    (node.build options).run log = .error e log' := by
  rw [build, EStateM.run_bind, h]

/-- Construction succeeds with the remarks of a survey that succeeds. -/
theorem exists_run_build_of_survey_ok
    (h : (node.survey ⟨options.maxDepth, node.functionName?⟩ false 0).run log = .ok () log') :
    ∃ g log'', (node.build options).run log = .ok g log'' ∧
      log''.diagnostics = log'.diagnostics := by
  have hraw := wellFormed_toGraph node
  obtain ⟨b, hb, -⟩ := hraw.pruned.rooted
  obtain ⟨report, g, hrun, -⟩ := Edit.exists_run_simplify hraw.consistent hb.settled
  cases hsimplify : options.simplify with
  | false =>
    have hbuild : (node.build options).run log =
        .ok node.toGraph (log'.tell (.built node.toGraph.displayName node.toGraph.liveCount)) := by
      rw [build, EStateM.run_bind, h, hsimplify]
      rfl
    exact ⟨_, _, hbuild, rfl⟩
  | true =>
    have hbuild : (node.build options).run log =
        .ok g ((log'.tell (.built node.toGraph.displayName node.toGraph.liveCount)).tell
          (.simplified report)) := by
      rw [build, EStateM.run_bind, h, hsimplify]
      simp only [if_true, hrun]
      rfl
    exact ⟨_, _, hbuild, rfl⟩

/-- Construction fails as the survey does. -/
theorem exists_run_build_eq_error_iff :
    (∃ log', (node.build options).run log = .error e log') ↔
      node.places.findSome? (Place.offence? options.maxDepth) = some e := by
  have hsurveys := surveys_survey ⟨options.maxDepth, node.functionName?⟩ node
  cases hoffence : node.places.findSome? (Place.offence? options.maxDepth) with
  | some e' =>
    obtain ⟨log', hrun⟩ := hsurveys.fails hoffence log
    have hbuild := run_build_of_survey_error hrun
    rw [hbuild]
    simp
  | none =>
    obtain ⟨log₁, hrun, -⟩ := hsurveys.reports hoffence log
    obtain ⟨g, log', hbuild, -⟩ := exists_run_build_of_survey_ok hrun
    rw [hbuild]
    simp

/-- There is no error at the places of a tree that is built. -/
theorem not_offends_of_build {g : Graph} (hbuild : (node.build options).run log = .ok g log')
    (p : Place) (hp : p ∈ node.places) : ¬p.Offends options.maxDepth := by
  rw [← Place.offence?_eq_none_iff]
  by_contra hoffends
  have hsome : (node.places.findSome? (Place.offence? options.maxDepth)).isSome := by
    rw [List.findSome?_isSome_iff]
    exact ⟨p, hp, Option.isSome_iff_ne_none.2 hoffends⟩
  obtain ⟨e, he⟩ := Option.isSome_iff_exists.1 hsome
  obtain ⟨log'', hfails⟩ := (@exists_run_build_eq_error_iff node options log e).2 he
  cases hbuild.symm.trans hfails

/-- A tree without errors at its places is built. -/
theorem exists_run_build_of_findSome?_eq_none (log : Log)
    (h : node.places.findSome? (Place.offence? options.maxDepth) = none) :
    ∃ g log', (node.build options).run log = .ok g log' := by
  have hsurveys := surveys_survey ⟨options.maxDepth, node.functionName?⟩ node
  obtain ⟨log₁, hrun, -⟩ := hsurveys.reports h log
  obtain ⟨g, log', hbuild, -⟩ := exists_run_build_of_survey_ok hrun
  exact ⟨g, log', hbuild⟩

theorem exists_run_build_of_not_offends (log : Log)
    (h : ∀ p ∈ node.places, ¬p.Offends options.maxDepth) :
    ∃ g log', (node.build options).run log = .ok g log' :=
  exists_run_build_of_findSome?_eq_none log
    (List.findSome?_eq_none_iff.2 fun p hp => Place.offence?_eq_none_iff.2 (h p hp))

/-- A construction that succeeds makes the remarks about all places. -/
theorem diagnostics_of_build {g : Graph} (hbuild : (node.build options).run log = .ok g log') :
    log'.diagnostics.entries.toList = log.diagnostics.entries.toList ++
      node.placesBottomUp.flatMap (Place.remarks node.functionName?) := by
  have hsurveys := surveys_survey ⟨options.maxDepth, node.functionName?⟩ node
  cases hoffence : node.places.findSome? (Place.offence? options.maxDepth) with
  | some e =>
    obtain ⟨log₁, hrun⟩ := hsurveys.fails hoffence log
    rw [run_build_of_survey_error hrun] at hbuild
    cases hbuild
  | none =>
    obtain ⟨log₁, hrun, hlog₁⟩ := hsurveys.reports hoffence log
    obtain ⟨g', log'', hbuild', hsame⟩ := exists_run_build_of_survey_ok hrun
    cases hbuild.symm.trans hbuild'
    rw [hsame, hlog₁]

/-- Construction fails if some place is too deep or holds a stray jump. The first such place from
top to bottom decides on the error, and its depth is looked at before its jump. Simplification adds
no failure. -/
theorem build_fails_iff (node : Node) (options : Options) (log : Log) :
    ((∃ e log', (node.build options).run log = .error e log') ↔
        ∃ p ∈ node.places, options.maxDepth < p.depth ∨
          (p.inLoop = false ∧ ∃ kind, p.node = .jump kind)) ∧
      (∀ e, (∃ log', (node.build options).run log = .error e log') ↔
        ∃ before p after, node.places = before ++ p :: after ∧
          (∀ q ∈ before, ¬q.Offends options.maxDepth) ∧
          ((options.maxDepth < p.depth ∧ e = .tooDeep options.maxDepth) ∨
            (p.depth ≤ options.maxDepth ∧ p.inLoop = false ∧
              ∃ kind, p.node = .jump kind ∧ e = .notInLoop kind))) ∧
      ∀ e, (∃ log', (node.build { options with simplify := true }).run log = .error e log') ↔
        ∃ log', (node.build { options with simplify := false }).run log = .error e log' := by
  have hiff (options : Options) (e : Error) :=
    @exists_run_build_eq_error_iff node options log e
  refine ⟨?_, fun e => ?_, fun e => ?_⟩
  · simp only [hiff]
    constructor
    · rintro ⟨e, he⟩
      obtain ⟨p, hp, he⟩ := List.exists_of_findSome?_eq_some he
      refine ⟨p, hp, ?_⟩
      by_contra hoffends
      rw [Place.offence?_eq_none_iff.2 hoffends] at he
      cases he
    · rintro ⟨p, hp, hoffends⟩
      rw [← Option.isSome_iff_exists, List.findSome?_isSome_iff]
      refine ⟨p, hp, ?_⟩
      rw [Option.isSome_iff_ne_none, ne_eq, Place.offence?_eq_none_iff, not_not]
      exact hoffends
  · rw [hiff, List.findSome?_eq_some_iff]
    simp only [Place.offence?_eq_none_iff, Place.offence?_eq_some_iff]
    refine exists_congr fun before => exists_congr fun p => exists_congr fun after => ?_
    rw [and_congr_right_iff]
    exact fun _ => and_comm
  · rw [hiff, hiff]

end Build

end Node

end FlowGraph
