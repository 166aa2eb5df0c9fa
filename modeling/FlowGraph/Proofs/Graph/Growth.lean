import FlowGraph.Proofs.Graph.MapBlocks

/-!
# Growing a graph

Blocks are added without edges, and edges are added at both of their ends. So a graph that grows
stays mirrored, as long as no edge is drawn to or from a detached block.

## Main results

* `Graph.Mirrored.mapBlocks_append`: adding slots and entries that match
* `Graph.Mirrored.connect`, `Graph.Mirrored.connectBranches`: adding edges
-/

namespace FlowGraph.Graph

variable {g : Graph} {i j source target cond onTrue onFalse : BlockId} {b c : Block}

@[simp] theorem size_addBlock (g : Graph) (kind : BlockKind) :
    (g.addBlock kind).size = g.size + 1 := by
  simp [addBlock, size]

theorem block?_addBlock (g : Graph) (kind : BlockKind) (id : BlockId) :
    (g.addBlock kind).block? id =
      if id = g.size then some { id := g.size, kind := kind } else g.block? id :=
  Array.getElem?_push

@[simp] theorem size_connect (g : Graph) (source target : BlockId) :
    (g.connect source target).size = g.size := by
  simp [connect]

@[simp] theorem size_connectBranches (g : Graph) (cond onTrue onFalse : BlockId) :
    (g.connectBranches cond onTrue onFalse).size = g.size := by
  simp [connectBranches]

section AddBlock

variable {kind : BlockKind}

theorem live_addBlock_iff :
    (g.addBlock kind).Live i c ↔
      (i = g.size ∧ c = { id := g.size, kind := kind }) ∨ (i ≠ g.size ∧ g.Live i c) := by
  rw [Live, Live, block?_addBlock]
  by_cases hi : i = g.size
  · simp only [hi, if_true, Option.some.injEq, true_and, ne_eq, not_true_eq_false, false_and,
      or_false]
    constructor
    · exact fun h => h.1.symm
    · rintro rfl
      exact ⟨rfl, rfl⟩
  · simp [hi]

theorem Numbered.addBlock (hn : g.Numbered) : (g.addBlock kind).Numbered := by
  intro i b hb
  rw [block?_addBlock] at hb
  split at hb
  · rename_i hi
    rw [hi, ← Option.some.inj hb]
  · exact hn hb

theorem Apart.addBlock (ha : g.Apart) : (g.addBlock kind).Apart := by
  intro i b hb hdetached
  rw [block?_addBlock] at hb
  split at hb
  · rw [← Option.some.inj hb] at hdetached
    cases hdetached
  · exact ha hb hdetached

/-- A new block has no edges, and no edge was there for it before. -/
theorem Mirrored.addBlock (hg : g.Mirrored) : (g.addBlock kind).Mirrored := by
  have hold {j : BlockId} (hj : ∃ c, g.Live j c) :
      j ≠ g.size ∧ ∃ c, (g.addBlock kind).Live j c := by
    obtain ⟨c, hc⟩ := hj
    have hne : j ≠ g.size := Nat.ne_of_lt hc.lt_size
    exact ⟨hne, c, live_addBlock_iff.2 (.inr ⟨hne, hc⟩)⟩
  -- The new block has no edges, and the edges of the others lead to others.
  refine ⟨fun {i b j} hb hj => ?_, fun {i b j} hb hj => ?_, fun {i b j c} hb hc => ?_⟩
  · rcases live_addBlock_iff.1 hb with ⟨-, rfl⟩ | ⟨-, hb⟩
    · cases hj
    · exact (hold (hg.successor_live hb hj)).2
  · rcases live_addBlock_iff.1 hb with ⟨-, rfl⟩ | ⟨-, hb⟩
    · cases hj
    · exact (hold (hg.predecessor_live hb hj)).2
  -- Only the last of the four cases is about edges that are there.
  · rcases live_addBlock_iff.1 hb with ⟨rfl, rfl⟩ | ⟨-, hb⟩ <;>
      rcases live_addBlock_iff.1 hc with ⟨rfl, rfl⟩ | ⟨-, hc⟩
    · rfl
    · refine (List.count_eq_zero.2 fun hmem => ?_).symm
      exact (hold (hg.predecessor_live hc hmem)).1 rfl
    · refine List.count_eq_zero.2 fun hmem => ?_
      exact (hold (hg.successor_live hb hmem)).1 rfl
    · exact hg.count_eq hb hc

end AddBlock

section Append

variable {f : BlockId → Block → Block}

/-- Adding to every block some slots and some entries that match each other. -/
theorem Mirrored.mapBlocks_append (hg : g.Mirrored) (out inn : BlockId → List BlockId)
    (hdetached : ∀ i b, (f i b).isDetached = b.isDetached)
    (hsuccessors : ∀ {i b}, g.Live i b → (f i b).successors = b.successors ++ out i)
    (hpredecessors : ∀ {i b}, g.Live i b → (f i b).predecessors = b.predecessors ++ inn i)
    (hout : ∀ {i j}, j ∈ out i → ∃ c, g.Live j c) (hinn : ∀ {i j}, j ∈ inn i → ∃ c, g.Live j c)
    (hcount : ∀ i j, (out i).count j = (inn j).count i) : (g.mapBlocks f).Mirrored := by
  have hlive {i : BlockId} {c : Block} (hc : (g.mapBlocks f).Live i c) :
      ∃ b, g.Live i b ∧ f i b = c := by
    obtain ⟨b, hb, rfl, hlive⟩ := live_mapBlocks_iff.1 hc
    exact ⟨b, ⟨hb, hdetached i b ▸ hlive⟩, rfl⟩
  have hkeep {i : BlockId} (hi : ∃ b, g.Live i b) : ∃ c, (g.mapBlocks f).Live i c := by
    obtain ⟨b, hb⟩ := hi
    exact ⟨f i b, live_mapBlocks_iff.2 ⟨b, hb.1, rfl, (hdetached i b).trans hb.2⟩⟩
  -- Old slots and entries are matched by the old graph, new ones by each other.
  refine ⟨fun {i c j} hc hj => ?_, fun {i c j} hc hj => ?_, fun {i c j d} hc hd => ?_⟩
  · obtain ⟨b, hb, rfl⟩ := hlive hc
    rw [hsuccessors hb, List.mem_append] at hj
    exact hkeep (hj.elim (hg.successor_live hb) hout)
  · obtain ⟨b, hb, rfl⟩ := hlive hc
    rw [hpredecessors hb, List.mem_append] at hj
    exact hkeep (hj.elim (hg.predecessor_live hb) hinn)
  · obtain ⟨b, hb, rfl⟩ := hlive hc
    obtain ⟨b', hb', rfl⟩ := hlive hd
    rw [hsuccessors hb, hpredecessors hb', List.count_append, List.count_append,
      hg.count_eq hb hb', hcount]

/-- A change that leaves the edges of detached blocks alone. -/
theorem Apart.mapBlocks (ha : g.Apart) (hdetached : ∀ i b, (f i b).isDetached = b.isDetached)
    (hsame : ∀ {i b}, g.block? i = some b → b.isDetached = true →
      (f i b).predecessors = b.predecessors ∧ (f i b).successors = b.successors) :
    (g.mapBlocks f).Apart := by
  intro i c hc h
  rw [block?_mapBlocks, Option.map_eq_some_iff] at hc
  obtain ⟨b, hb, rfl⟩ := hc
  rw [hdetached] at h
  rw [(hsame hb h).1, (hsame hb h).2]
  exact ha hb h

private theorem ne_of_isDetached (hc : g.Live j c) (hb : g.block? i = some b)
    (h : b.isDetached = true) : j ≠ i := by
  rintro rfl
  rw [Option.some.inj (hb.symm.trans hc.1), hc.2] at h
  cases h

theorem connect_eq_mapBlocks (g : Graph) (source target : BlockId) :
    g.connect source target = g.mapBlocks fun i b =>
      let entered := if target = i then b.addPredecessor source else b
      if source = i then entered.addSuccessor target else entered := by
  rw [connect, modify_eq_mapBlocks, modify_eq_mapBlocks, mapBlocks_mapBlocks]

theorem Mirrored.connect (hg : g.Mirrored) (hsource : g.Live source b)
    (htarget : g.Live target c) : (g.connect source target).Mirrored := by
  rw [connect_eq_mapBlocks]
  -- One slot at the source and one entry at the target, which may be the same block.
  refine hg.mapBlocks_append (fun i => if source = i then [target] else [])
    (fun i => if target = i then [source] else []) ?_ ?_ ?_ ?_ ?_ ?_
  · intro i b
    split_ifs <;> rfl
  · intro i b _
    split_ifs <;> simp [Block.addSuccessor, Block.addPredecessor]
  · intro i b _
    split_ifs <;> simp [Block.addSuccessor, Block.addPredecessor]
  · intro i j hj
    split_ifs at hj
    · exact ⟨c, List.mem_singleton.1 hj ▸ htarget⟩
    · cases hj
  · intro i j hj
    split_ifs at hj
    · exact ⟨b, List.mem_singleton.1 hj ▸ hsource⟩
    · cases hj
  · intro i j
    by_cases hi : source = i <;> by_cases hj : target = j <;> simp [hi, hj]

theorem Numbered.connect (hn : g.Numbered) : (g.connect source target).Numbered := by
  rw [connect_eq_mapBlocks]
  refine hn.mapBlocks fun i b => ?_
  dsimp only
  split_ifs <;> rfl

theorem Apart.connect (ha : g.Apart) (hsource : g.Live source b) (htarget : g.Live target c) :
    (g.connect source target).Apart := by
  rw [connect_eq_mapBlocks]
  refine ha.mapBlocks (fun i b => ?_) fun {i b} hb h => ?_
  · dsimp only
    split_ifs <;> rfl
  · simp [ne_of_isDetached hsource hb h, ne_of_isDetached htarget hb h]

theorem connectBranches_eq_mapBlocks (g : Graph) (cond onTrue onFalse : BlockId) :
    g.connectBranches cond onTrue onFalse = g.mapBlocks fun i b =>
      let branching := if cond = i then { b with successors := [onTrue, onFalse] } else b
      let entered := if onTrue = i then { branching.addPredecessor cond with color := .onTrue }
        else branching
      if onFalse = i then { entered.addPredecessor cond with color := .onFalse } else entered := by
  rw [connectBranches, modify_eq_mapBlocks, modify_eq_mapBlocks, modify_eq_mapBlocks,
    mapBlocks_mapBlocks, mapBlocks_mapBlocks]

/-- The two branches may start with the same block, which then is entered twice. -/
theorem Mirrored.connectBranches (hg : g.Mirrored) (hcond : g.Live cond b)
    (hnone : b.successors = []) (htrue : ∃ c, g.Live onTrue c) (hfalse : ∃ c, g.Live onFalse c) :
    (g.connectBranches cond onTrue onFalse).Mirrored := by
  rw [connectBranches_eq_mapBlocks]
  refine hg.mapBlocks_append (fun i => if cond = i then [onTrue, onFalse] else [])
    (fun i => (if onTrue = i then [cond] else []) ++ if onFalse = i then [cond] else [])
    ?_ ?_ ?_ ?_ ?_ ?_
  · intro i b
    split_ifs <;> rfl
  · intro i c hc
    by_cases hi : cond = i
    -- The condition has no slots yet, so that setting them is adding them.
    · subst hi
      obtain rfl := hc.eq hcond
      split_ifs <;> simp [Block.addPredecessor, hnone]
    · split_ifs <;> simp [Block.addPredecessor]
  · intro i c _
    split_ifs <;> simp [Block.addPredecessor]
  · intro i j hj
    split_ifs at hj
    · rw [List.mem_cons, List.mem_singleton] at hj
      rcases hj with rfl | rfl
      · exact htrue
      · exact hfalse
    · cases hj
  · intro i j hj
    refine ⟨b, ?_⟩
    rcases List.mem_append.1 hj with hj | hj
    · split_ifs at hj
      · exact List.mem_singleton.1 hj ▸ hcond
      · cases hj
    · split_ifs at hj
      · exact List.mem_singleton.1 hj ▸ hcond
      · cases hj
  -- Each slot has its entry, also when both lead to the same block.
  · intro i j
    by_cases hi : cond = i <;> by_cases ht : onTrue = j <;> by_cases hf : onFalse = j <;>
      simp [hi, ht, hf]

theorem Numbered.connectBranches (hn : g.Numbered) :
    (g.connectBranches cond onTrue onFalse).Numbered := by
  rw [connectBranches_eq_mapBlocks]
  refine hn.mapBlocks fun i b => ?_
  dsimp only
  split_ifs <;> rfl

theorem Apart.connectBranches (ha : g.Apart) (hcond : g.Live cond b)
    (htrue : ∃ c, g.Live onTrue c) (hfalse : ∃ c, g.Live onFalse c) :
    (g.connectBranches cond onTrue onFalse).Apart := by
  obtain ⟨c, hc⟩ := htrue
  obtain ⟨d, hd⟩ := hfalse
  rw [connectBranches_eq_mapBlocks]
  refine ha.mapBlocks (fun i b => ?_) fun {i b} hb h => ?_
  · dsimp only
    split_ifs <;> rfl
  · simp [ne_of_isDetached hcond hb h, ne_of_isDetached hc hb h, ne_of_isDetached hd hb h]

end Append

end FlowGraph.Graph
