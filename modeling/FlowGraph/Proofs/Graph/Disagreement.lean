import FlowGraph.Proofs.Graph.Mirrored

/-!
# What the check of the edges decides

The check compares numbers for the edges that it finds in successor lists, and for predecessor
entries it only asks whether there is an edge at all. Both together still compare the two ends of
every pair of live blocks: an entry too many is noticed at its source, unless that has no edge to
its target, and then at its target. What is reported is a disagreement of the graph.

## Main definitions

* `Graph.Disagrees`: the disagreements of a graph, by the errors that report them

## Main results

* `Graph.disagrees_of_checkEdges_eq_error`: what the check reports is there
* `Graph.checkEdges_decides_mirroring`: the check accepts a graph if and only if the numbers at both
  ends agree for every two live blocks
-/

namespace FlowGraph.Graph

variable {g : Graph} {i j : BlockId} {b c : Block} {e : Error}

/-- A disagreement between the blocks of a graph, by the error that reports it. -/
inductive Disagrees (g : Graph) : Error → Prop
  /-- A live block lists a block that is out of range. -/
  | outOfRange {i j : BlockId} {b : Block} (hb : g.Live i b)
    (hj : j ∈ b.successors ++ b.predecessors) (hsize : g.size ≤ j) :
    Disagrees g (.noSuchBlock j)
  /-- A live block has edges to a block that is detached or records another number of them. -/
  | unbalanced {i j : BlockId} {b c : Block} (hb : g.Live i b) (hj : j ∈ b.successors)
    (hc : g.block? j = some c)
    (h : c.isDetached = true ∨ b.successors.count j ≠ c.predecessors.count i) :
    Disagrees g (.unbalancedEdge i j (b.successors.count j) (c.predecessors.count i))
  /-- A live block records an edge from a block that is detached or has none to it. -/
  | stray {i j : BlockId} {b c : Block} (hb : g.Live i b) (hj : j ∈ b.predecessors)
    (hc : g.block? j = some c) (h : c.isDetached = true ∨ i ∉ c.successors) :
    Disagrees g (.strayPredecessor j i)

/-- A computation followed by another fails when the first fails, or the second after it. -/
theorem bind_eq_error_iff {ε α β : Type} {x : Except ε α} {f : α → Except ε β} {e : ε} :
    (x >>= f) = .error e ↔ x = .error e ∨ ∃ a, x = .ok a ∧ f a = .error e := by
  cases x <;> simp [bind, Except.bind]

private theorem exists_of_forM_eq_error {ε α : Type} {f : α → Except ε Unit} {l : List α} {e : ε}
    (h : l.forM f = .error e) : ∃ x ∈ l, f x = .error e := by
  induction l with
  | nil => cases h
  | cons x l ih =>
    rw [List.forM, bind_eq_error_iff] at h
    rcases h with hx | ⟨-, -, hl⟩
    · exact ⟨x, List.mem_cons_self, hx⟩
    · obtain ⟨y, hy, hfail⟩ := ih hl
      exact ⟨y, List.mem_cons_of_mem x hy, hfail⟩

private theorem ite_throw_eq_error_iff {ε α : Type} {p : Prop} [Decidable p] {e e' : ε} {a : α} :
    (if p then throw e else pure a : Except ε α) = .error e' ↔ p ∧ e = e' := by
  split <;> simp_all [throw, throwThe, MonadExceptOf.throw, pure, Except.pure]

theorem find_eq_error_iff : g.find j = .error e ↔ g.size ≤ j ∧ e = .noSuchBlock j := by
  have hrange : g.block? j = none ↔ g.size ≤ j := by
    rw [← Option.not_isSome_iff_eq_none, block?_isSome_iff, Nat.not_lt]
  unfold find
  split
  · rename_i b hb
    simp [← hrange, hb]
  · rename_i hb
    simp [← hrange, hb, eq_comm]

/-- What is reported about an edge of a live block is a disagreement. -/
theorem disagrees_of_checkSuccessor_eq_error (hn : g.Numbered) (hb : g.Live i b)
    (hj : j ∈ b.successors) (h : g.checkSuccessor b j = .error e) : g.Disagrees e := by
  rcases bind_eq_error_iff.1 h with hfind | ⟨c, hfind, hcompare⟩
  · obtain ⟨hsize, rfl⟩ := find_eq_error_iff.1 hfind
    exact .outOfRange hb (List.mem_append_left _ hj) hsize
  · obtain ⟨hdiffer, rfl⟩ := ite_throw_eq_error_iff.1 hcompare
    rw [hn hb.1] at hdiffer ⊢
    exact .unbalanced hb hj (find_eq_ok_iff.1 hfind) (by simpa using hdiffer)

/-- What is reported about a predecessor entry of a live block is a disagreement. -/
theorem disagrees_of_checkPredecessor_eq_error (hn : g.Numbered) (hb : g.Live i b)
    (hj : j ∈ b.predecessors) (h : g.checkPredecessor b j = .error e) : g.Disagrees e := by
  rcases bind_eq_error_iff.1 h with hfind | ⟨c, hfind, hcompare⟩
  · obtain ⟨hsize, rfl⟩ := find_eq_error_iff.1 hfind
    exact .outOfRange hb (List.mem_append_right _ hj) hsize
  · obtain ⟨hdiffer, rfl⟩ := ite_throw_eq_error_iff.1 hcompare
    rw [hn hb.1] at hdiffer ⊢
    exact .stray hb hj (find_eq_ok_iff.1 hfind) (by simpa using hdiffer)

/-- What the check reports is a disagreement of the graph. -/
theorem disagrees_of_checkEdges_eq_error (hn : g.Numbered) (h : g.checkEdges = .error e) :
    g.Disagrees e := by
  obtain ⟨b, hmem, hblock⟩ := exists_of_forM_eq_error h
  obtain ⟨i, hb⟩ := mem_live_iff.1 hmem
  rcases bind_eq_error_iff.1 hblock with hsuccessors | ⟨-, -, hpredecessors⟩
  · obtain ⟨j, hj, hfail⟩ := exists_of_forM_eq_error hsuccessors
    exact disagrees_of_checkSuccessor_eq_error hn hb hj hfail
  · obtain ⟨j, hj, hfail⟩ := exists_of_forM_eq_error hpredecessors
    exact disagrees_of_checkPredecessor_eq_error hn hb hj hfail

/-- Ids being positions, the check accepts a graph if and only if live blocks list live blocks only
and, for every two of them, there are as many edges at the source as there are entries at the
target. An error it answers with is about a place where this fails. -/
theorem checkEdges_decides_mirroring (hn : g.Numbered) :
    (g.checkEdges = .ok () ↔
      (∀ i b, g.Live i b → ∀ j ∈ b.successors ++ b.predecessors, ∃ c, g.Live j c) ∧
        ∀ i b j c, g.Live i b → g.Live j c → b.successors.count j = c.predecessors.count i) ∧
      ∀ e, g.checkEdges = .error e → g.Disagrees e := by
  refine ⟨(checkEdges_eq_ok_iff hn).trans ⟨fun hg => ⟨fun i b hb j hj => ?_, ?_⟩, ?_⟩,
    fun e => disagrees_of_checkEdges_eq_error hn⟩
  · exact (List.mem_append.1 hj).elim (hg.successor_live hb) (hg.predecessor_live hb)
  · exact fun i b j c hb hc => hg.count_eq hb hc
  · rintro ⟨hlive, hcount⟩
    exact ⟨fun hb hj => hlive _ _ hb _ (List.mem_append_left _ hj),
      fun hb hj => hlive _ _ hb _ (List.mem_append_right _ hj), fun hb hc => hcount _ _ _ _ hb hc⟩

/-- A block before a condition that leads back to itself and has one entry too many for the block
before it. -/
private def surplus : Graph :=
  { blocks := #[
      { id := 0, kind := .base, successors := [1] },
      { id := 1, kind := .condition, statements := [.ident "c"], predecessors := [0, 1, 0],
        successors := [1, 2] },
      { id := 2, kind := .base, predecessors := [1] }]
    exit := 2 }

theorem checkEdges_decides_mirroring_surplus :
    surplus.Numbered ∧ surplus.checkEdges = .error (.unbalancedEdge 0 1 1 2) ∧
      surplus.Disagrees (.unbalancedEdge 0 1 1 2) ∧
      ¬((∀ i b, surplus.Live i b → ∀ j ∈ b.successors ++ b.predecessors, ∃ c, surplus.Live j c) ∧
        ∀ i b j c, surplus.Live i b → surplus.Live j c →
          b.successors.count j = c.predecessors.count i) := by
  have hn : surplus.Numbered := by
    intro i b hb
    obtain ⟨hi, rfl⟩ := Array.getElem?_eq_some_iff.1 hb
    have hids : ∀ i : Fin 3, surplus.blocks[i].id = i := by decide
    exact hids ⟨i, hi⟩
  have hreport : surplus.checkEdges = .error (.unbalancedEdge 0 1 1 2) := rfl
  obtain ⟨haccepts, hreports⟩ := checkEdges_decides_mirroring hn
  refine ⟨hn, hreport, hreports _ hreport, fun hmirrored => ?_⟩
  cases hreport.symm.trans (haccepts.2 hmirrored)

end FlowGraph.Graph
