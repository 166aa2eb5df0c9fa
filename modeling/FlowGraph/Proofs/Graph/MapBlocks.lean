import FlowGraph.Graph.Edit
import FlowGraph.Proofs.Graph.Mirrored

/-!
# Changing all blocks at once

What a sequence of edits does is easier to see when it is told for one block at a time. The edits of
this library, each of which changes one block after another, come down to a single function that is
applied to every block with its id.

## Main definitions

* `Graph.mapBlocks`: change every block of a graph

## Main results

* `Graph.live_mapBlocks_iff`: the live blocks after a change
* `Edit.run_update`, `Edit.run_forM_update`: updates as changes of all blocks
-/

namespace FlowGraph

namespace Graph

variable {g g' : Graph} {i j : BlockId} {b c : Block}

/-- Changes every block of a graph. -/
def mapBlocks (g : Graph) (f : BlockId → Block → Block) : Graph :=
  { g with blocks := g.blocks.mapIdx f }

@[simp] theorem block?_mapBlocks (g : Graph) (f : BlockId → Block → Block) (i : BlockId) :
    (g.mapBlocks f).block? i = (g.block? i).map (f i) := by
  simp [mapBlocks, block?]

@[simp] theorem size_mapBlocks (g : Graph) (f : BlockId → Block → Block) :
    (g.mapBlocks f).size = g.size := by
  simp [mapBlocks, size]

/-- A change of blocks that keeps all successors. -/
theorem successors_mapBlocks {f : BlockId → Block → Block}
    (hf : ∀ i b, (f i b).successors = b.successors) (i : BlockId) :
    (g.mapBlocks f).successors i = g.successors i := by
  rw [successors, successors, block?_mapBlocks]
  cases g.block? i <;> simp [hf]

theorem ext_block? (hname : g.name = g'.name) (hblocks : ∀ i, g.block? i = g'.block? i)
    (hentry : g.entry = g'.entry) (hexit : g.exit = g'.exit) : g = g' := by
  have hblocks : g.blocks = g'.blocks := Array.ext_getElem? hblocks
  cases g
  cases g'
  rw [Graph.mk.injEq]
  exact ⟨hname, hblocks, hentry, hexit⟩

theorem modify_eq_mapBlocks (g : Graph) (i : BlockId) (f : Block → Block) :
    g.modify i f = g.mapBlocks fun j b => if i = j then f b else b := by
  refine ext_block? rfl (fun j => ?_) rfl rfl
  rw [block?_modify, block?_mapBlocks]
  split <;> simp

theorem mapBlocks_mapBlocks (g : Graph) (f k : BlockId → Block → Block) :
    (g.mapBlocks f).mapBlocks k = g.mapBlocks fun i b => k i (f i b) := by
  refine ext_block? rfl (fun i => ?_) rfl rfl
  simp only [block?_mapBlocks, Option.map_map]
  rfl

theorem Numbered.mapBlocks (hn : g.Numbered) {f : BlockId → Block → Block}
    (hf : ∀ i b, (f i b).id = b.id) : (g.mapBlocks f).Numbered := by
  intro i b hb
  rw [block?_mapBlocks, Option.map_eq_some_iff] at hb
  obtain ⟨b, hb, rfl⟩ := hb
  rw [hf, hn hb]

/-- The live blocks after a change of every block. -/
theorem live_mapBlocks_iff {f : BlockId → Block → Block} :
    (g.mapBlocks f).Live i c ↔ ∃ b, g.block? i = some b ∧ f i b = c ∧ c.isDetached = false := by
  rw [Live, block?_mapBlocks, Option.map_eq_some_iff]
  constructor
  · rintro ⟨⟨b, hb, hc⟩, hlive⟩
    exact ⟨b, hb, hc, hlive⟩
  · rintro ⟨b, hb, hc, hlive⟩
    exact ⟨⟨b, hb, hc⟩, hlive⟩

end Graph

namespace Edit

variable {g g' : Graph} {f : Block → Block}

theorem run_bind_of_run_eq_ok {α β : Type} {x : Edit α} {k : α → Edit β} {a : α}
    (hx : x.run g = .ok a g') : (x >>= k).run g = (k a).run g' := by
  rw [EStateM.run_bind, hx]

theorem run_ask_of_eq_ok {α : Type} {q : Graph → Except Error α} {a : α} (h : q g = .ok a) :
    (ask q).run g = .ok a g :=
  run_ask_eq_ok_iff.2 ⟨h, rfl⟩

theorem run_ask_of_eq_error {α : Type} {q : Graph → Except Error α} {e : Error}
    (h : q g = .error e) : (ask q).run g = .error e g := by
  rw [run_ask, h]

theorem run_update_of_lt {id : BlockId} (h : id < g.size) :
    (update id f).run g = .ok () (g.mapBlocks fun i b => if id = i then f b else b) :=
  run_update_eq_ok_iff.2 ⟨h, (g.modify_eq_mapBlocks id f).symm⟩

/-- Updating the blocks of a list, of which some may be named more than once. -/
theorem run_forM_update (hf : ∀ b, f (f b) = f b) {ids : List BlockId}
    (hids : ∀ id ∈ ids, id < g.size) :
    (ids.forM fun id => update id f).run g =
      .ok () (g.mapBlocks fun i b => if i ∈ ids then f b else b) := by
  induction ids generalizing g with
  | nil =>
    have hsame : g.mapBlocks (fun i b => if i ∈ [] then f b else b) = g :=
      Graph.ext_block? rfl (fun i => by simp) rfl rfl
    rw [hsame]
    rfl
  | cons id ids ih =>
    obtain ⟨hid, hids⟩ := List.forall_mem_cons.1 hids
    rw [List.forM, run_bind_of_run_eq_ok (run_update_of_lt hid), ih (by simpa using hids),
      Graph.mapBlocks_mapBlocks]
    congr 2
    funext i b
    -- A block that is named again is changed twice, which is the same as once.
    by_cases hi : id = i
    · subst hi
      by_cases hmem : id ∈ ids <;> simp [hmem, hf]
    · simp [hi, Ne.symm hi]

end Edit

end FlowGraph
