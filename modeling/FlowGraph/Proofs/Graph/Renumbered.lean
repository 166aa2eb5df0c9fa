import FlowGraph.Proofs.Graph.MapBlocks
import FlowGraph.Proofs.Traversal.Lockstep
import Mathlib.Order.Monotone.Basic

/-!
# Renumbered graphs

Two graphs may differ in the numbers of their blocks only. One of them may also have further blocks
between the others, as long as these are detached: no edge of a graph says anything about them. An
edit that asks for nothing but the contents of blocks does the same to both graphs.

## Main definitions

* `Block.renumber`: a block with other numbers
* `Graph.Renumbers`: a graph is another one with other numbers and further detached blocks
* `Edit.Follows`: two edits that do the same to two such graphs

## Main results

* `Graph.Renumbers.reachable_eq`: the reachable blocks are the same
* `Edit.Follows.bind`, `Edit.Follows.update`, `Edit.Follows.forM`: edits of several steps
-/

namespace FlowGraph

/-- An operand whose predecessor has another number. -/
def Phi.Operand.renumber (ν : BlockId → BlockId) (operand : Phi.Operand) : Phi.Operand :=
  { operand with predecessor := ν operand.predecessor }

/-- A phi node whose operands come from blocks with other numbers. -/
def Phi.renumber (ν : BlockId → BlockId) (phi : Phi) : Phi :=
  { phi with operands := phi.operands.map (·.renumber ν) }

namespace Block

variable (ν : BlockId → BlockId) (block : Block)

/-- A block with another number, among blocks with other numbers. -/
def renumber : Block :=
  { block with
    id := ν block.id
    predecessors := block.predecessors.map ν
    successors := block.successors.map ν
    phis := block.phis.map (·.renumber ν) }

@[simp] theorem id_renumber : (block.renumber ν).id = ν block.id := rfl

@[simp] theorem kind_renumber : (block.renumber ν).kind = block.kind := rfl

@[simp] theorem statements_renumber : (block.renumber ν).statements = block.statements := rfl

@[simp] theorem predecessors_renumber :
    (block.renumber ν).predecessors = block.predecessors.map ν := rfl

@[simp] theorem successors_renumber :
    (block.renumber ν).successors = block.successors.map ν := rfl

@[simp] theorem isDetached_renumber : (block.renumber ν).isDetached = block.isDetached := rfl

@[simp] theorem phis_renumber :
    (block.renumber ν).phis = block.phis.map (·.renumber ν) := rfl

@[simp] theorem isCondition_renumber : (block.renumber ν).isCondition = block.isCondition := rfl

@[simp] theorem isEmpty_renumber : (block.renumber ν).isEmpty = block.isEmpty := rfl

@[simp] theorem isJoin_renumber : (block.renumber ν).isJoin = block.isJoin := by
  rw [isJoin, isJoin, predecessors_renumber, List.length_map]

end Block

namespace Graph

variable {ν : BlockId → BlockId} {g h : Graph} {i : BlockId} {b : Block}

/-- The graph `h` is `g` with the blocks renumbered in the same order. It may have further blocks,
all of which are detached. -/
structure Renumbers (ν : BlockId → BlockId) (g h : Graph) : Prop where
  mono : StrictMono ν
  block?_eq : ∀ i, h.block? (ν i) = (g.block? i).map (·.renumber ν)
  others : ∀ j b, (∀ i, ν i ≠ j) → h.block? j = some b → b.isDetached = true
  name_eq : h.name = g.name
  entry_eq : h.entry = ν g.entry
  exit_eq : h.exit = ν g.exit

namespace Renumbers

theorem block? (hr : g.Renumbers ν h) (hb : g.block? i = some b) :
    h.block? (ν i) = some (b.renumber ν) := by
  rw [hr.block?_eq, hb, Option.map_some]

theorem lt_size_iff (hr : g.Renumbers ν h) (i : BlockId) : ν i < h.size ↔ i < g.size := by
  rw [← block?_isSome_iff, ← block?_isSome_iff, hr.block?_eq, Option.isSome_map]

theorem find_eq (hr : g.Renumbers ν h) (hb : g.find i = .ok b) :
    h.find (ν i) = .ok (b.renumber ν) :=
  find_eq_ok_iff.2 (hr.block? (find_eq_ok_iff.1 hb))

theorem successors_eq (hr : g.Renumbers ν h) (i : BlockId) :
    h.successors (ν i) = (g.successors i).map ν := by
  rw [successors, successors, hr.block?_eq]
  cases g.block? i <;> rfl

/-- The entries lead to the same blocks, in the same order. -/
theorem reachable_eq (hr : g.Renumbers ν h) : h.reachable = g.reachable.map ν := by
  rw [reachable, reachable, preorder, preorder, hr.entry_eq]
  exact Traversal.preorder_map hr.mono.injective hr.lt_size_iff hr.successors_eq g.entry

theorem displayName_eq (hr : g.Renumbers ν h) : h.displayName = g.displayName := by
  rw [displayName, displayName, hr.name_eq]

/-- The same change of a block in both graphs. -/
theorem modify (hr : g.Renumbers ν h) (i : BlockId) {f k : Block → Block}
    (hf : ∀ b, g.block? i = some b → k (b.renumber ν) = (f b).renumber ν) :
    (g.modify i f).Renumbers ν (h.modify (ν i) k) where
  mono := hr.mono
  block?_eq := by
    intro j
    rw [block?_modify, block?_modify, hr.block?_eq]
    by_cases hij : i = j
    · subst hij
      cases hb : g.block? i with
      | none => simp
      | some b => simp [hf b hb]
    · rw [if_neg hij, if_neg (hr.mono.injective.ne hij)]
  others := by
    intro j b hj hb
    rw [block?_modify, if_neg (hj i)] at hb
    exact hr.others j b hj hb
  name_eq := hr.name_eq
  entry_eq := hr.entry_eq
  exit_eq := hr.exit_eq

end Renumbers

end Graph

namespace Edit

variable {ν : BlockId → BlockId} {α β γ δ : Type}

/-- An edit that does to a renumbered graph what another one does to the graph, whenever that one
succeeds. The answers are related by `R`. -/
structure Follows (ν : BlockId → BlockId) (R : α → β → Prop) (x : Edit α) (y : Edit β) : Prop where
  exists_run : ∀ {g h g' : Graph} {a}, g.Renumbers ν h → x.run g = .ok a g' →
    ∃ b h', y.run h = .ok b h' ∧ R a b ∧ g'.Renumbers ν h'

namespace Follows

variable {R : α → β → Prop} {S : γ → δ → Prop} {x : Edit α} {y : Edit β}

protected theorem pure {a : α} {b : β} (hab : R a b) : Follows ν R (pure a) (pure b) := by
  refine ⟨fun {g h g' a'} hr hrun => ?_⟩
  obtain ⟨rfl, rfl⟩ := run_pure_eq_ok_iff.1 hrun
  exact ⟨b, h, rfl, hab, hr⟩

theorem bind (hx : Follows ν R x y) {f : α → Edit γ} {k : β → Edit δ}
    (hf : ∀ a b, R a b → Follows ν S (f a) (k b)) : Follows ν S (x >>= f) (y >>= k) := by
  refine ⟨fun {g h g' c} hr hrun => ?_⟩
  obtain ⟨a, g₁, hrun₁, hrun₂⟩ := run_bind_eq_ok_iff.1 hrun
  obtain ⟨b, h₁, hrun₁', hab, hr₁⟩ := hx.exists_run hr hrun₁
  obtain ⟨d, h', hrun₂', hcd, hr'⟩ := (hf a b hab).exists_run hr₁ hrun₂
  exact ⟨d, h', run_bind_eq_ok_iff.2 ⟨b, h₁, hrun₁', hrun₂'⟩, hcd, hr'⟩

theorem ask {q : Graph → Except Error α} {r : Graph → Except Error β}
    (hq : ∀ {g h : Graph} {a}, g.Renumbers ν h → q g = .ok a → ∃ b, r h = .ok b ∧ R a b) :
    Follows ν R (ask q) (ask r) := by
  refine ⟨fun {g h g' a} hr hrun => ?_⟩
  obtain ⟨ha, rfl⟩ := run_ask_eq_ok_iff.1 hrun
  obtain ⟨b, hb, hab⟩ := hq hr ha
  exact ⟨b, h, run_ask_of_eq_ok hb, hab, hr⟩

theorem update (i : BlockId) {f k : Block → Block}
    (hf : ∀ b : Block, k (b.renumber ν) = (f b).renumber ν) :
    Follows ν Eq (update i f) (update (ν i) k) := by
  refine ⟨fun {g h g' u} hr hrun => ?_⟩
  obtain ⟨hi, rfl⟩ := run_update_eq_ok_iff.1 hrun
  exact ⟨(), _, run_update_eq_ok_iff.2 ⟨(hr.lt_size_iff i).2 hi, rfl⟩, rfl,
    hr.modify i fun b _ => hf b⟩

theorem modify {f k : Graph → Graph}
    (hf : ∀ {g h : Graph}, g.Renumbers ν h → (f g).Renumbers ν (k h)) :
    Follows ν Eq (modify f) (modify k) := by
  refine ⟨fun {g h g' u} hr hrun => ?_⟩
  obtain rfl := run_modify_eq_ok_iff.1 hrun
  exact ⟨(), _, rfl, rfl, hf hr⟩

theorem forM {f k : BlockId → Edit Unit} (hf : ∀ i, Follows ν Eq (f i) (k (ν i)))
    (ids : List BlockId) : Follows ν Eq (ids.forM f) ((ids.map ν).forM k) := by
  induction ids with
  | nil => exact .pure rfl
  | cons i ids ih => exact (hf i).bind fun _ _ _ => ih

end Follows

end Edit

end FlowGraph
