import FlowGraph.Graph.Keeps
import FlowGraph.Proofs.Simplification.Absorbed

/-!
# The contract of an absorption

Whoever asks a block to absorb another one should get an error and the graph as it was, or the whole
of what an absorption promises. In a graph whose edges are mirrored this is what happens unless the
block absorbs itself or is detached. The check before an absorption asks for neither, and
simplification, which does, never gets there.

## Main definitions

* `Graph.TakesOver`: what an absorption promises
* `Graph.KeepsContract`: it fails without a trace or does what it promises

## Main results

* `Graph.Absorbs.takesOver`: two different blocks keep the promise
* `Edit.absorb_keepsContract_iff`: when the contract is kept
-/

namespace FlowGraph

namespace Graph

variable {g g' : Graph} {id next : BlockId} {b n : Block}

/-- In `g'` block `id` has taken over what block `next` had in `g`. -/
structure TakesOver (g g' : Graph) (id next : BlockId) : Prop where
  vacated : ∃ c, g'.block? next = some c ∧ c.isDetached = true ∧ c.statements = [] ∧
    c.successors = [] ∧ c.predecessors = []
  merged : ∃ b n c, g.block? id = some b ∧ g.block? next = some n ∧ g'.Live id c ∧
    c.statements = b.statements ++ n.statements ∧ c.successors = n.successors
  others : ∀ i, i ≠ id → i ≠ next → ∀ b, g.block? i = some b →
    ∃ c, g'.block? i = some c ∧ c.statements = b.statements ∧ c.successors = b.successors
  size_eq : g'.size = g.size
  exit_eq : g'.exit = if g.exit = next then id else g.exit
  checked : g'.checkEdges = .ok ()

/-- To let `id` absorb `next` either fails and leaves the graph as it was, or does what it
promises. -/
def KeepsContract (g : Graph) (id next : BlockId) : Prop :=
  (∃ e, (Edit.absorb id next).run g = .error e g) ∨
    ∃ g', (Edit.absorb id next).run g = .ok () g' ∧ g.TakesOver g' id next

/-- A block that absorbs another one takes it over. -/
theorem Absorbs.takesOver (h : g.Absorbs id next b n) (hne : id ≠ next) (hn : g.Numbered)
    (hg : g.Mirrored) : g.TakesOver (g.absorbed id next n) id next where
  vacated := by
    refine ⟨_, by rw [block?_absorbed, h.target.1, Option.map_some], ?_⟩
    -- The absorbed block is only vacated, since it goes on with neither itself nor its source.
    have hloop : next ∉ n.successors := fun hmem =>
      hne (h.eq_of_mem_successors hg h.target hmem).symm
    simp [absorbedBlock, hloop, hne, Block.vacate, Block.detach]
  merged := by
    refine ⟨b, n, _, h.source.1, h.target.1, live_absorbed_iff.2 ⟨b, h.source, hne, rfl⟩, ?_, ?_⟩
    · rw [statements_absorbedBlock hne, if_pos rfl]
    · rw [successors_absorbedBlock b hne, if_pos rfl]
  others := by
    intro i hid hnext c hc
    refine ⟨_, by rw [block?_absorbed, hc, Option.map_some], ?_, ?_⟩
    · rw [statements_absorbedBlock hnext, if_neg hid.symm]
    · rw [successors_absorbedBlock c hnext, if_neg hid.symm]
  size_eq := size_absorbed ..
  exit_eq := exit_absorbed ..
  checked := (checkEdges_eq_ok_iff (hn.absorbed id next n)).2 (h.mirrored hg)

/-- No block takes over itself. -/
theorem TakesOver.ne (h : g.TakesOver g' id next) : id ≠ next := by
  rintro rfl
  obtain ⟨c, hc, hdetached, -⟩ := h.vacated
  obtain ⟨-, -, d, -, -, hd, -⟩ := h.merged
  rw [Option.some.inj (hc.symm.trans hd.1), hd.2] at hdetached
  cases hdetached

end Graph

namespace Edit

variable {g g' : Graph} {id next : BlockId} {n : Block}

/-- Whether a block is there and no edge enters it. -/
private def unentered (next : BlockId) (g : Graph) : Option Bool :=
  (g.block? next).map (·.predecessors.isEmpty)

private theorem unentered_modify (g : Graph) (next i : BlockId) {f : Block → Block}
    (hf : ∀ b, (f b).predecessors.isEmpty = b.predecessors.isEmpty) :
    unentered next (g.modify i f) = unentered next g := by
  unfold unentered
  rw [Graph.block?_modify]
  split
  · rw [Option.map_map]
    exact Option.map_congr fun b _ => hf b
  · rfl

/-- What an absorption does after it has vacated the absorbed block, which held what is in `n`. -/
private def handOver (id next : BlockId) (n : Block) : Edit Unit := do
  n.successors.forM fun successor => update successor (·.replacePredecessor next id)
  update id (·.takeOver n)
  modify (·.moveExit next id)

private theorem keeps_unentered_handOver (id next : BlockId) (n : Block) :
    Keeps (unentered next) (handOver id next n) := by
  refine .bind (.forM fun j _ => .update fun g => unentered_modify g next j fun b => ?_)
    fun _ => .bind (.update fun g => unentered_modify g next id fun b => rfl)
      fun _ => .change fun g => ?_
  -- Entries are renamed, so there are as many as before.
  · rw [Block.replacePredecessor, List.isEmpty_map]
  · rw [unentered, Graph.block?_moveExit]
    rfl

/-- Once the check has passed, an absorption leaves a trace even if it fails later on. -/
private theorem unentered_after_absorb (hcheck : g.checkAbsorb id next = .ok n) :
    unentered next ((absorb id next).after g) = some true := by
  obtain ⟨-, -, -, -, hn, -⟩ := Graph.checkAbsorb_eq_ok_iff.1 hcheck
  have hlt : next < g.size := Graph.block?_isSome_iff.1 (by rw [hn]; rfl)
  have hrun : (absorb id next).run g = (handOver id next n).run (g.modify next (·.vacate)) := by
    rw [absorb, run_bind_of_run_eq_ok (run_ask_of_eq_ok hcheck),
      run_bind_of_run_eq_ok (run_update_eq_ok_iff (u := ()).2 ⟨hlt, rfl⟩)]
    rfl
  have hafter : (absorb id next).after g =
      (handOver id next n).after (g.modify next (·.vacate)) := by
    unfold after
    rw [hrun]
  rw [hafter, keeps_unentered_handOver, unentered, Graph.block?_modify_self, hn]
  rfl

/-- Whatever passes the check and keeps the contract are two different blocks, the first one
live. -/
theorem ne_and_live_of_keepsContract (h : g.KeepsContract id next)
    (hcheck : g.checkAbsorb id next = .ok n) : id ≠ next ∧ ∃ b, g.Live id b := by
  rcases h with ⟨e, hrun⟩ | ⟨g', hrun, htakes⟩
  -- The block to be absorbed was entered over one edge, and it no longer is.
  · obtain ⟨-, -, -, -, hn, -, hone⟩ := Graph.checkAbsorb_eq_ok_iff.1 hcheck
    have hafter := unentered_after_absorb hcheck
    rw [after_of_run_eq_error hrun, unentered, hn, Option.map_some, Option.some.injEq,
      List.isEmpty_iff] at hafter
    rw [hafter] at hone
    cases hone
  · have hne := htakes.ne
    obtain ⟨b, -, c, hb, -, hc, -⟩ := htakes.merged
    have hflags := congrArg (·[id]?) (detachment_of_run_absorb hrun)
    simp only [List.getElem?_set_ne hne.symm, Graph.getElem?_detachment, hc.1, hb, Option.map_some,
      Option.some.injEq] at hflags
    exact ⟨hne, b, hb, hflags.symm.trans hc.2⟩

/-- For two blocks of a graph that the check of the edges accepts, an absorption fails and leaves
the graph as it was or does all that it promises, if and only if what passes the check before it are
two different blocks, of which the absorbing one is live. -/
theorem absorb_keepsContract_iff (hn : g.Numbered) (hedges : g.checkEdges = .ok ()) :
    g.KeepsContract id next ↔
      ∀ n, g.checkAbsorb id next = .ok n → id ≠ next ∧ ∃ b, g.Live id b := by
  have hg := (Graph.checkEdges_eq_ok_iff hn).1 hedges
  refine ⟨fun h n hcheck => ne_and_live_of_keepsContract h hcheck, fun h => ?_⟩
  cases hcheck : g.checkAbsorb id next with
  | error e => exact .inl ⟨e, run_absorb_of_checkAbsorb_eq_error hcheck⟩
  | ok n =>
    obtain ⟨hne, b, hb⟩ := h n hcheck
    have habsorbs := hg.absorbs_of_live hb hcheck
    exact .inr ⟨_, run_absorb hg habsorbs, habsorbs.takesOver hne hn hg⟩

/-- A block that goes on with a join over two edges and with the block before it over a third. -/
private def forking : Graph :=
  { blocks := #[
      { id := 0, kind := .base, statements := [.ident "a"], predecessors := [1],
        successors := [1] },
      { id := 1, kind := .base, statements := [.ident "b"], predecessors := [0],
        successors := [2, 0, 2] },
      { id := 2, kind := .base, statements := [.ret none], predecessors := [1, 1] }]
    exit := 1 }

theorem absorb_keepsContract_iff_forking :
    forking.Numbered ∧ forking.checkEdges = .ok () ∧
      (forking.KeepsContract 0 1 ↔
        ∀ n, forking.checkAbsorb 0 1 = .ok n → (0 : BlockId) ≠ 1 ∧ ∃ b, forking.Live 0 b) ∧
      forking.KeepsContract 0 1 := by
  have hn : forking.Numbered := by
    intro i b hb
    obtain ⟨hi, rfl⟩ := Array.getElem?_eq_some_iff.1 hb
    have hids : ∀ i : Fin 3, forking.blocks[i].id = i := by decide
    exact hids ⟨i, hi⟩
  have hedges : forking.checkEdges = .ok () := rfl
  have hiff : forking.KeepsContract 0 1 ↔
      ∀ n, forking.checkAbsorb 0 1 = .ok n → (0 : BlockId) ≠ 1 ∧ ∃ b, forking.Live 0 b :=
    absorb_keepsContract_iff hn hedges
  exact ⟨hn, hedges, hiff, hiff.2 fun n _ => ⟨by decide, _, rfl, rfl⟩⟩

/-- A block that only goes on with itself. -/
private def lonely : Graph :=
  { blocks := #[
      { id := 0, kind := .base, statements := [.ident "a"], predecessors := [0],
        successors := [0] }] }

/-- The check of the edges accepts a block that only goes on with itself, and that block absorbs
itself without an error and against the contract: it is detached and keeps its statements and its
edge. -/
theorem absorb_lonely_breaks_contract :
    lonely.Numbered ∧ lonely.checkEdges = .ok () ∧
      (∃ g' c, (absorb 0 0).run lonely = .ok () g' ∧ g'.block? 0 = some c ∧
        c.isDetached = true ∧ c.statements = [.ident "a"] ∧ c.successors = [0]) ∧
      ¬lonely.KeepsContract 0 0 := by
  refine ⟨?_, rfl, ⟨_, _, rfl, rfl, rfl, rfl, rfl⟩, fun h => ?_⟩
  · have hids : ∀ i : Fin 1, lonely.blocks[i].id = i := by decide
    intro i b hb
    obtain ⟨hi, rfl⟩ := Array.getElem?_eq_some_iff.1 hb
    exact hids ⟨i, hi⟩
  · exact (ne_and_live_of_keepsContract h rfl).1 rfl

end Edit

end FlowGraph
