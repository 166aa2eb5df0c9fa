import FlowGraph.Proofs.Construction.Place

/-!
# Trees without dead items

Where an item of a compound statement has an end that control cannot pass, the survey reports all
items behind it. A tree without these items, at any depth, has the places of the tree that are not
inside of such an item; none of them is dead, and a construction of it fails only if one of the tree
does.

## Main definitions

* `Node.withoutDead`: a tree without the items that are reported as unreachable
* `Node.alivePlaces`: the places that are not inside of such an item

## Main results

* `Node.completes_withoutDead`: control passes the end of the tree as before
* `Node.map_setting_places_withoutDead`: the places that are left
* `Node.not_dead_of_mem_places_withoutDead`: nothing is left to be reported
* `Node.exists_run_build_withoutDead`: a tree without its dead items can be built if the tree can
-/

namespace FlowGraph.Node

mutual

/-- A tree without the items of compound statements that control does not come to. -/
def withoutDead : Node → Node
  | function decl body => function decl body.withoutDead
  | compound items => compound (withoutDeadItems true items)
  | branch cond onTrue onFalse => branch cond onTrue.withoutDead (withoutDeadOptional onFalse)
  | whileLoop cond body => whileLoop cond body.withoutDead
  | forLoop init cond step body => forLoop init cond step body.withoutDead
  | node => node

/-- The items that control comes to, each without its own dead items. Control comes to the next one
if `running` says so. -/
def withoutDeadItems (running : Bool) : List Node → List Node
  | [] => []
  | item :: rest =>
    let rest := withoutDeadItems (running && item.completes) rest
    if running then item.withoutDead :: rest else rest

/-- A branch that may be absent, without its dead items. -/
def withoutDeadOptional : Option Node → Option Node
  | none => none
  | some node => some node.withoutDead

end

theorem withoutDeadItems_false (items : List Node) : withoutDeadItems false items = [] := by
  induction items with
  | nil => rw [withoutDeadItems]
  | cons item rest ih => rw [withoutDeadItems, Bool.false_and, ih, if_neg Bool.false_ne_true]

theorem withoutDeadItems_cons (item : Node) (rest : List Node) :
    withoutDeadItems true (item :: rest) =
      item.withoutDead :: withoutDeadItems item.completes rest := by
  rw [withoutDeadItems, Bool.true_and, if_pos rfl]

mutual

/-- Control passes the end of a tree as it does with its dead items. -/
theorem completes_withoutDead : ∀ node : Node, node.withoutDead.completes = node.completes
  | function _ body => by rw [withoutDead, completes, completes, completes_withoutDead body]
  | compound items => by
    rw [withoutDead, completes, completes, completesAll_withoutDeadItems items]
  | branch _ onTrue onFalse => by
    rw [withoutDead, completes, completes, completes_withoutDead onTrue,
      completesOptional_withoutDead onFalse]
  | whileLoop .. | forLoop .. => by simp only [withoutDead, completes]
  | ret _ | jump _ | declarator .. | parameters _ | declaration .. | binary .. | unary ..
  | assignment .. | ident _ | constant .. | call .. => by simp only [withoutDead]

/-- Control passes through a list of items as it does with the dead ones. -/
theorem completesAll_withoutDeadItems : ∀ items : List Node,
    completesAll (withoutDeadItems true items) = completesAll items
  | [] => by rw [withoutDeadItems]
  | item :: rest => by
    rw [withoutDeadItems_cons, completesAll, completesAll, completes_withoutDead item]
    cases item.completes with
    | true => rw [completesAll_withoutDeadItems rest]
    | false => rw [Bool.false_and, Bool.false_and]

/-- Control passes the end of a branch as it does with its dead items. -/
theorem completesOptional_withoutDead : ∀ node : Option Node,
    completesOptional (withoutDeadOptional node) = completesOptional node
  | none => by rw [withoutDeadOptional]
  | some node => by
    rw [withoutDeadOptional, completesOptional, completesOptional, completes_withoutDead node]

end

theorem functionName?_withoutDead (node : Node) :
    node.withoutDead.functionName? = node.functionName? := by
  cases node <;> simp only [withoutDead, functionName?]

theorem isLoop_withoutDead (node : Node) : node.withoutDead.isLoop = node.isLoop := by
  cases node <;> simp only [withoutDead, isLoop]

end Node

/-! ### Places -/

namespace Place

/-- A place before the places in its node, and neither of them if control does not come there. -/
def skipDead (p : Place) (inner : List Place) : List Place :=
  if p.Dead then [] else p :: inner

/-- What stands at a place and around it, whatever the numbers of the blocks are. -/
def setting (p : Place) : Node × List Node × List Node :=
  (p.node, p.around, p.before)

/-- What stands at a place and around it when the dead items are gone. -/
def settingWithoutDead (p : Place) : Node × List Node × List Node :=
  (p.node.withoutDead, p.around.map Node.withoutDead, p.before.map Node.withoutDead)

theorem dead_iff_of_setting_eq {p q : Place} (h : q.setting = p.settingWithoutDead) :
    q.Dead ↔ p.Dead := by
  have hbefore : q.before = p.before.map Node.withoutDead := congrArg (·.2.2) h
  rw [dead_iff, dead_iff, hbefore, List.all_map]
  simp only [Function.comp_def, Node.completes_withoutDead]

/-- A place that is left is too deep or holds a stray jump only if the one in the tree does. -/
theorem not_offends_of_setting_eq {p q : Place} (h : q.setting = p.settingWithoutDead)
    {maxDepth : Nat} (hp : ¬p.Offends maxDepth) : ¬q.Offends maxDepth := by
  have hnode : q.node = p.node.withoutDead := congrArg (·.1) h
  have haround : q.around = p.around.map Node.withoutDead := congrArg (·.2.1) h
  have hdepth : q.depth = p.depth := by
    rw [depth, depth, haround, List.length_map]
  have hinLoop : q.inLoop = p.inLoop := by
    rw [inLoop, inLoop, haround, List.any_map]
    simp only [Function.comp_def, Node.isLoop_withoutDead]
  have hjump (kind : Jump) (hkind : q.node = .jump kind) : p.node = .jump kind := by
    rw [hnode] at hkind
    cases hp : p.node <;> simp_all [Node.withoutDead]
  rintro (hdeep | ⟨hstray, kind, hkind⟩)
  · exact hp (.inl (hdepth ▸ hdeep))
  · exact hp (.inr ⟨hinLoop ▸ hstray, kind, hjump kind hkind⟩)

end Place

namespace Node

/-- The places in a tree that are not inside of a dead item. -/
def alivePlaces (node : Node) : List Place :=
  node.placesIn Place.skipDead [] [] 1

theorem sublist_alivePlaces (node : Node) : node.alivePlaces.Sublist node.places :=
  RelatesOrders.placesIn
    { nil := .slnil
      append := .append
      node := fun p inner inner' h => by
        rw [Place.skipDead]
        split
        · exact List.nil_sublist _
        · exact h.cons_cons p } node

/-- No place in an item behind one whose end control cannot pass is left. -/
theorem placesOfItems_skipDead {items around before : List Node} {first : Nat}
    (hbefore : before.all completes = false) :
    placesOfItems Place.skipDead around before first items = [] := by
  induction items generalizing before first with
  | nil => rw [placesOfItems]
  | cons item rest ih =>
    obtain ⟨inner, hinner⟩ := exists_inner Place.skipDead around first item
    rw [placesOfItems, hinner, Place.skipDead, if_pos (Place.dead_iff.2 hbefore), List.nil_append]
    exact ih (by rw [List.all_append, hbefore, Bool.false_and])

/-- Control comes to a place in a tree, and these are its surroundings when the dead items are
gone. -/
structure Cleared (around before around' before' : List Node) : Prop where
  around_eq : around' = around.map withoutDead
  before_eq : before' = before.map withoutDead
  completes : before.all completes = true

namespace Cleared

variable {node node' item : Node} {around before around' before' : List Node} {first first' : Nat}

/-- The place is left, in front of what is left of the places in its node. -/
theorem map_setting_topDown (h : Cleared around before around' before')
    (hnode : node' = node.withoutDead) {inner inner' : List Place}
    (hinner : inner'.map Place.setting = inner.map Place.settingWithoutDead) :
    (Place.topDown ⟨node', around', before', first'⟩ inner').map Place.setting =
      (Place.skipDead ⟨node, around, before, first⟩ inner).map Place.settingWithoutDead := by
  have halive : ¬(⟨node, around, before, first⟩ : Place).Dead := by
    rw [Place.dead_iff, h.completes]
    exact nofun
  rw [Place.topDown, Place.skipDead, if_neg halive, List.map_cons, List.map_cons, hinner,
    Place.setting, Place.settingWithoutDead, hnode, h.around_eq, h.before_eq]

/-- Inside of a node. -/
theorem enter (h : Cleared around before around' before') (hnode : node' = node.withoutDead) :
    Cleared (node :: around) [] (node' :: around') [] :=
  ⟨by rw [h.around_eq, hnode, List.map_cons], rfl, rfl⟩

/-- Behind an item whose end control can pass. -/
theorem pass (h : Cleared around before around' before') (hitem : item.completes = true) :
    Cleared around (before ++ [item]) around' (before' ++ [item.withoutDead]) :=
  ⟨h.around_eq, by rw [h.before_eq, List.map_append, List.map_singleton],
    by rw [List.all_append, h.completes, List.all_cons, hitem]; rfl⟩

end Cleared

mutual

private theorem map_setting_placesIn : ∀ (node : Node) {around before around' before' : List Node}
    {first first' : Nat}, Cleared around before around' before' →
    (node.withoutDead.placesIn Place.topDown around' before' first').map Place.setting =
      (node.placesIn Place.skipDead around before first).map Place.settingWithoutDead
  | function decl body, _, _, _, _, _, _, h => by
    have hnode : function decl body.withoutDead = (function decl body).withoutDead := by
      rw [withoutDead]
    rw [← hnode]
    simp only [placesIn]
    exact h.map_setting_topDown hnode (map_setting_placesIn body (h.enter hnode))
  | compound items, _, _, _, _, _, _, h => by
    have hnode : compound (withoutDeadItems true items) = (compound items).withoutDead := by
      rw [withoutDead]
    rw [← hnode]
    simp only [placesIn]
    exact h.map_setting_topDown hnode (map_setting_placesOfItems items (h.enter hnode))
  | branch cond onTrue onFalse, _, _, _, _, _, _, h => by
    have hnode : branch cond onTrue.withoutDead (withoutDeadOptional onFalse) =
        (branch cond onTrue onFalse).withoutDead := by
      rw [withoutDead]
    rw [← hnode]
    simp only [placesIn]
    refine h.map_setting_topDown hnode ?_
    rw [List.map_append, List.map_append, map_setting_placesIn onTrue (h.enter hnode),
      map_setting_placesOfOptional onFalse (h.enter hnode)]
  | whileLoop cond body, _, _, _, _, _, _, h => by
    have hnode : whileLoop cond body.withoutDead = (whileLoop cond body).withoutDead := by
      rw [withoutDead]
    rw [← hnode]
    simp only [placesIn]
    exact h.map_setting_topDown hnode (map_setting_placesIn body (h.enter hnode))
  | forLoop init cond step body, _, _, _, _, _, _, h => by
    have hnode : forLoop init cond step body.withoutDead =
        (forLoop init cond step body).withoutDead := by
      rw [withoutDead]
    rw [← hnode]
    simp only [placesIn]
    exact h.map_setting_topDown hnode (map_setting_placesIn body (h.enter hnode))
  | ret _, _, _, _, _, _, _, h | jump _, _, _, _, _, _, _, h | declarator .., _, _, _, _, _, _, h
  | parameters _, _, _, _, _, _, _, h | declaration .., _, _, _, _, _, _, h
  | binary .., _, _, _, _, _, _, h | unary .., _, _, _, _, _, _, h
  | assignment .., _, _, _, _, _, _, h | ident _, _, _, _, _, _, _, h
  | constant .., _, _, _, _, _, _, h | call .., _, _, _, _, _, _, h => by
    simp only [withoutDead, placesIn]
    exact h.map_setting_topDown (by simp only [withoutDead]) rfl

private theorem map_setting_placesOfItems : ∀ (items : List Node)
    {around before around' before' : List Node} {first first' : Nat},
    Cleared around before around' before' →
    (placesOfItems Place.topDown around' before' first' (withoutDeadItems true items)).map
        Place.setting =
      (placesOfItems Place.skipDead around before first items).map Place.settingWithoutDead
  | [], _, _, _, _, _, _, _ => by
    rw [withoutDeadItems, placesOfItems, placesOfItems]
    rfl
  | item :: rest, _, before, _, _, _, _, h => by
    rw [withoutDeadItems_cons, placesOfItems, placesOfItems, List.map_append, List.map_append,
      map_setting_placesIn item h]
    cases hitem : item.completes with
    | true => rw [map_setting_placesOfItems rest (h.pass hitem)]
    | false =>
      have hbefore : (before ++ [item]).all completes = false := by simp [hitem]
      rw [withoutDeadItems_false, placesOfItems, placesOfItems_skipDead hbefore, List.map_nil,
        List.map_nil]

private theorem map_setting_placesOfOptional : ∀ (node : Option Node)
    {around around' : List Node} {first first' : Nat}, Cleared around [] around' [] →
    (placesOfOptional Place.topDown around' first' (withoutDeadOptional node)).map Place.setting =
      (placesOfOptional Place.skipDead around first node).map Place.settingWithoutDead
  | none, _, _, _, _, _ => by
    rw [withoutDeadOptional, placesOfOptional, placesOfOptional]
    rfl
  | some node, _, _, _, _, h => by
    rw [withoutDeadOptional, placesOfOptional, placesOfOptional]
    exact map_setting_placesIn node h

end

/-- The places that are left are, from top to bottom, those that are not inside of a dead item. -/
theorem map_setting_places_withoutDead (node : Node) :
    node.withoutDead.places.map Place.setting =
      node.alivePlaces.map Place.settingWithoutDead :=
  map_setting_placesIn node ⟨rfl, rfl, rfl⟩

/-- Each place that is left is one of the tree that control comes to. -/
theorem exists_place_of_mem_withoutDead {node : Node} {q : Place}
    (hq : q ∈ node.withoutDead.places) :
    ∃ p ∈ node.alivePlaces, q.setting = p.settingWithoutDead := by
  have hsetting := List.mem_map_of_mem (f := Place.setting) hq
  rw [map_setting_places_withoutDead, List.mem_map] at hsetting
  exact hsetting.imp fun p hp => ⟨hp.1, hp.2.symm⟩

theorem not_dead_of_mem_alivePlaces {node : Node} {p : Place} (hp : p ∈ node.alivePlaces) :
    ¬p.Dead := by
  have halive : RelatesOrders (fun inner _ => ∀ p ∈ inner, ¬p.Dead) Place.skipDead
      Place.skipDead :=
    { nil := nofun
      append := fun hk hk' p hp => (List.mem_append.1 hp).elim (hk p) (hk' p)
      node := fun p inner _ h => by
        rw [Place.skipDead]
        split
        · exact nofun
        · rename_i hp
          exact List.forall_mem_cons.2 ⟨hp, h⟩ }
  exact halive.placesIn node p hp

/-- Nothing is left to be reported as unreachable. -/
theorem not_dead_of_mem_places_withoutDead {node : Node} {q : Place}
    (hq : q ∈ node.withoutDead.places) : ¬q.Dead := by
  obtain ⟨p, hp, hsetting⟩ := exists_place_of_mem_withoutDead hq
  rw [Place.dead_iff_of_setting_eq hsetting]
  exact not_dead_of_mem_alivePlaces hp

/-- A tree without its dead items can be built if the tree can. -/
theorem exists_run_build_withoutDead {node : Node} {options : Options} {log log₁ : Log} {g : Graph}
    (hbuild : (node.build options).run log = .ok g log₁) (log' : Log) :
    ∃ g' log₁', (node.withoutDead.build options).run log' = .ok g' log₁' := by
  cases hrun : (node.withoutDead.build options).run log' with
  | ok g' log₁' => exact ⟨g', log₁', rfl⟩
  | error e log₁' =>
    obtain ⟨q, hq, he⟩ :=
      List.exists_of_findSome?_eq_some (exists_run_build_eq_error_iff.1 ⟨log₁', hrun⟩)
    obtain ⟨p, hp, hsetting⟩ := exists_place_of_mem_withoutDead hq
    have hoffends := not_offends_of_build hbuild p ((sublist_alivePlaces node).subset hp)
    rw [Place.offence?_eq_none_iff.2 (Place.not_offends_of_setting_eq hsetting hoffends)] at he
    cases he

end Node

end FlowGraph
