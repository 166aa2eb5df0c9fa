import FlowGraph.Proofs.Ssa.Offered
import FlowGraph.Proofs.Ssa.Renamed
import FlowGraph.Ssa.Conversion

/-!
# Uses and their definitions

In a converted graph a use of a variable that is in scope names the last definition of the variable
on every path to it. The walk that renames a graph comes to each block on one path only. What makes
it right for all paths is that they agree: a block that is no join is entered from one block alone,
and a join that the declaration strictly dominates starts with a definition of its own.

## Main definitions

* `Graph.definitionsAlong`, `Graph.definitionsBefore`: the definitions that are met on a path
* `Graph.InScope`: a declaration that comes before a statement on every path
* `Graph.Selects`: a phi node with the right operands
* `Graph.UsesLastDefinitions`: what conversion is for

## Main results

* `Graph.converted_usesLastDefinitions`: conversion succeeds and does what it is for
-/

namespace FlowGraph

namespace Graph

variable {g g' : Graph} {b c : Block} {name : String} {d i j p : BlockId} {before : List BlockId}

/-- The definitions of a block of `g` that has become a block of `g'`. -/
def definitionsAt (g g' : Graph) (i : BlockId) : List (String × String) :=
  (g.block? i).elim [] fun before => (g'.block? i).elim [] before.definitions

/-- The definitions that are met on the blocks of a path, in the order in which they are met. -/
def definitionsAlong (g g' : Graph) (path : List BlockId) : List (String × String) :=
  path.flatMap (g.definitionsAt g')

/-- The definitions that are met on the way to statement `k` of block `i`, with the blocks on the
way before that one given. -/
def definitionsBefore (g g' : Graph) (before : List BlockId) (i : BlockId) (k : Nat) :
    List (String × String) :=
  g.definitionsAlong g' before ++
    (g.block? i).elim [] fun before => (g'.block? i).elim [] fun after =>
      before.definitionsUpTo after k

/-- Block `d` declares a variable, and its declaration comes before statement `k` of block `i` on
every path: in another block that strictly dominates that one, or in the same block. -/
def InScope (g : Graph) (name : String) (d i : BlockId) (k : Nat) : Prop :=
  g.Declares d name ∧ g.StrictlyDominates d i ∨
    d = i ∧ ∃ b, g.block? i = some b ∧
      ∃ l < k, ∃ s : Node, b.statements[l]? = some s ∧ s.declared? = some name

/-- The operands of a phi node are, one for each edge into its block from a reachable block, the
last definition on every path to the end of that block. -/
structure Selects (g g' : Graph) (j : BlockId) (phi : Phi) : Prop where
  edge : ∀ {before p}, g.Path before p → j ∈ g.successors p →
    ∃ version, lastDefinition phi.base (g.definitionsAlong g' (before ++ [p])) = some version ∧
      phi.operands.filter (·.predecessor == p) =
        List.replicate ((g.successors p).count j) ⟨version, p⟩
  operand : ∀ operand ∈ phi.operands,
    operand.predecessor ∈ g.reachable ∧ j ∈ g.successors operand.predecessor

/-- The graph `g` has become `g'`, in which uses of variables that are in scope name the last
definition on every path to them. -/
structure UsesLastDefinitions (g g' : Graph) : Prop where
  entry_eq : g'.entry = g.entry
  /-- The paths are the same as before. -/
  edges : ∀ {i b}, g.block? i = some b → ∃ c, g'.block? i = some c ∧ c.successors = b.successors
  /-- Only joins have phi nodes. -/
  join : ∀ {i b c phi}, g.block? i = some b → g'.block? i = some c → phi ∈ c.phis →
    b.isJoin = true
  /-- A use is the last definition on every path to it. -/
  use : ∀ {name d i k b} {s : Node} {m : Nat}, g.InScope name d i k → i ∈ g.reachable →
    g.block? i = some b → b.statements[k]? = some s → s.uses[m]? = some name →
      ∃ c, ∃ s' : Node, g'.block? i = some c ∧ c.statements[k]? = some s' ∧
        ∀ before, g.Path before i → ∃ version,
          lastDefinition name (g.definitionsBefore g' before i k) = some version ∧
            s'.uses[m]? = some version
  /-- A join has a phi node for each variable that is declared in a block that strictly dominates
  it. -/
  phi : ∀ {name d j b}, g.Declares d name → g.StrictlyDominates d j → j ∈ g.reachable →
    g.block? j = some b → b.isJoin = true →
      ∃ c, g'.block? j = some c ∧ (∃ phi ∈ c.phis, phi.base = name) ∧
        ∀ phi ∈ c.phis, phi.base = name → g.Selects g' j phi

theorem definitionsAt_eq (hb : g.block? i = some b) (hc : g'.block? i = some c) :
    g.definitionsAt g' i = b.definitions c := by
  rw [definitionsAt, hb, hc, Option.elim_some, Option.elim_some]

theorem definitionsAlong_append_singleton (before : List BlockId) (i : BlockId) :
    g.definitionsAlong g' (before ++ [i]) =
      g.definitionsAlong g' before ++ g.definitionsAt g' i := by
  rw [definitionsAlong, List.flatMap_append, List.flatMap_singleton, definitionsAlong]

theorem definitionsBefore_eq (hb : g.block? i = some b) (hc : g'.block? i = some c) (k : Nat) :
    g.definitionsBefore g' before i k =
      g.definitionsAlong g' before ++ b.definitionsUpTo c k := by
  rw [definitionsBefore, hb, hc, Option.elim_some, Option.elim_some]

/-- What is met before a statement is defined in a block on the way or in its own. -/
theorem exists_mem_definitionsAt {definition : String × String} {k : Nat}
    (h : definition ∈ g.definitionsBefore g' before i k) :
    ∃ j ∈ before ++ [i], definition ∈ g.definitionsAt g' j := by
  rcases List.mem_append.1 h with h | h
  · obtain ⟨j, hj, hmem⟩ := List.mem_flatMap.1 h
    exact ⟨j, List.mem_append_left _ hj, hmem⟩
  · refine ⟨i, List.mem_append_right _ (List.mem_singleton.2 rfl), ?_⟩
    unfold definitionsAt
    cases hb : g.block? i <;> cases hc : g'.block? i <;> simp only [hb, hc, Option.elim] at h ⊢
    · cases h
    · cases h
    · cases h
    · exact Block.definitionsUpTo_subset _ _ _ h

/-- What a reachable block declares is a variable to convert. -/
theorem Declares.mem_declared (h : g.Declares i name) (hi : i ∈ g.reachable) :
    name ∈ g.declared := by
  obtain ⟨b, hb, hname⟩ := h
  rw [declared, Std.TreeSet.mem_ofList, List.contains_iff_mem]
  exact List.mem_flatMap.2 ⟨b, List.mem_filterMap.2 ⟨i, hi, hb⟩, hname⟩

end Graph

namespace Graph.Renaming

variable {g g' : Graph} {b c : Block} {name : String} {d i j p : BlockId} {before : List BlockId}
  {phis : BlockId → List Phi} {wanted : Std.TreeSet String} {r : Walk.Record RenamingFrame}
  {frame : RenamingFrame} {env : Std.TreeMap String String}

/-- A block that is no join starts from the versions at the end of the one block before it. -/
theorem exists_source (hr : g.Renaming phis r g') (hg : g.Mirrored) (hroot : g.Rooted)
    (path : g.Path before p) (edge : i ∈ g.successors p) (hb : g.Live i b)
    (hjoin : b.isJoin = false) (hstart : g.StartsFrom r i env) :
    ∃ frame, r.frame? p = some frame ∧ env = frame.current := by
  rcases hstart with ⟨rfl, -⟩ | ⟨q, frame, hframe, hedge, rfl⟩
  · -- No edge leads to the entry.
    have hnil := (path.step edge).eq_nil_of_entry hg hroot
    cases List.append_ne_nil_of_right_ne_nil before (List.cons_ne_nil p []) hnil
  · obtain ⟨way, hway⟩ := hr.along.path hframe
    obtain ⟨bq, hq⟩ := hway.exists_live hg hroot
    obtain ⟨bp, hp⟩ := path.exists_live hg hroot
    rw [hq.successors] at hedge
    rw [hp.successors] at edge
    obtain rfl := hg.eq_of_not_isJoin hb hjoin hq hp hedge edge
    exact ⟨frame, hframe, rfl⟩

/-- A join has a phi node for a variable whose declaration strictly dominates it. -/
theorem exists_phi (hr : g.Renaming phis r g') (hphis : g.PhisPlaced wanted phis)
    (hd : g.Declares d name) (hwanted : name ∈ wanted) (hdom : g.StrictlyDominates d j)
    (path : g.Path before j) (hb : g.block? j = some b) (hjoin : b.isJoin = true)
    (hc : g'.block? j = some c) : ∃ phi ∈ c.phis, phi.base = name := by
  obtain ⟨phi, hphi, hbase⟩ := hphis.dominated hd hwanted hdom path hb hjoin
  obtain ⟨c', hc', hreceived⟩ := hr.received hb
  obtain rfl := Option.some.inj (hc.symm.trans hc')
  have hmem : name ∈ c.phis.map (·.base) := by
    rw [hreceived.bases]
    exact List.mem_map.2 ⟨phi, hphi, hbase⟩
  exact List.mem_map.1 hmem

/-- What a block that is strictly dominated by a declaration starts from, if the law holds for the
block before it on a path: it has a phi node for the variable, or it starts from the last definition
on the path. -/
theorem exists_phi_or_env_eq (hr : g.Renaming phis r g') (hphis : g.PhisPlaced wanted phis)
    (hg : g.Mirrored) (hroot : g.Rooted) (hd : g.Declares d name) (hwanted : name ∈ wanted)
    (hdom : g.StrictlyDominates d i) (path : g.Path before p) (edge : i ∈ g.successors p)
    (hb : g.Live i b) (hc : g'.block? i = some c) (hstart : g.StartsFrom r i env)
    (hlaw : ∀ frame, r.frame? p = some frame → ∃ version, frame.current[name]? = some version ∧
      lastDefinition name (g.definitionsAlong g' (before ++ [p])) = some version) :
    (∃ phi ∈ c.phis, phi.base = name) ∨ ∃ version, env[name]? = some version ∧
      lastDefinition name (g.definitionsAlong g' (before ++ [p])) = some version := by
  cases hjoin : b.isJoin with
  | true => exact .inl (hr.exists_phi hphis hd hwanted hdom (path.step edge) hb.1 hjoin hc)
  | false =>
    obtain ⟨frame, hframe, rfl⟩ := hr.exists_source hg hroot path edge hb hjoin hstart
    exact .inr (hlaw frame hframe)

/-- At the end of a block that a declaration dominates, the last definition on every path is
current. -/
theorem current_eq (hr : g.Renaming phis r g') (hphis : g.PhisPlaced wanted phis)
    (hg : g.Mirrored) (hroot : g.Rooted) (hd : g.Declares d name) (hwanted : name ∈ wanted)
    (path : g.Path before i) (hdom : g.Dominates d i) (hframe : r.frame? i = some frame) :
    ∃ version, frame.current[name]? = some version ∧
      lastDefinition name (g.definitionsAlong g' (before ++ [i])) = some version := by
  -- A block before a block that is strictly dominated is dominated as well, so the induction goes
  -- back to the declaration itself.
  induction path generalizing frame with
  | entry =>
    obtain ⟨b, hb, -⟩ := id hroot
    obtain ⟨c, hc, -⟩ := hr.received hb.1
    obtain ⟨env, -, hrenamed⟩ := hr.renamed hb.1 hc hframe
    obtain rfl := List.mem_singleton.1 (hdom [] .entry)
    rw [definitionsAlong_append_singleton, definitionsAt_eq hb.1 hc, hrenamed.current]
    exact exists_lastDefinition (.inl (hrenamed.isSome_of_declared ((declares_iff hb.1).1 hd)))
  | @step before p i path edge ih =>
    obtain ⟨b, hb⟩ := (path.step edge).exists_live hg hroot
    obtain ⟨c, hc, -⟩ := hr.received hb.1
    obtain ⟨env, hstart, hrenamed⟩ := hr.renamed hb.1 hc hframe
    rw [definitionsAlong_append_singleton, definitionsAt_eq hb.1 hc, hrenamed.current]
    rcases hdom.eq_or_strictly with rfl | hstrict
    · exact exists_lastDefinition (.inl (hrenamed.isSome_of_declared ((declares_iff hb.1).1 hd)))
    -- A join has a definition of its own, and another block has one block before it.
    · refine exists_lastDefinition ?_
      refine (hr.exists_phi_or_env_eq hphis hg hroot hd hwanted hstrict path edge hb hc hstart
        fun _ => ih (hstrict.dominates_source edge)).imp_left ?_
      rintro ⟨phi, hphi, rfl⟩
      exact hrenamed.isSome_of_phi hphi

/-- The versions that have arrived in a phi node after the whole walk are the right ones. -/
theorem selects (hr : g.Renaming phis r g') (hcomplete : r.Complete RenamingFrame.successors)
    (hphis : g.PhisPlaced wanted phis) (hg : g.Mirrored) (hroot : g.Rooted)
    (hwanted : name ∈ wanted) (hd : g.Declares d name) (hdom : g.StrictlyDominates d j)
    (hreceived : b.Received c ((phis j).map (·.base)) r j) {phi : Phi} (hphi : phi ∈ c.phis)
    (hbase : phi.base = name) : g.Selects g' j phi where
  edge := by
    intro before p path edge
    obtain ⟨frame, hframe⟩ := hr.along.exists_frame hcomplete path
    obtain ⟨version, hcurrent, hlast⟩ := hr.current_eq hphis hg hroot hd hwanted path
      (hdom.dominates_source edge) hframe
    refine ⟨version, hbase ▸ hlast, ?_⟩
    rw [hreceived.operands phi hphi, arrived_of_frame? hframe, hbase, hcurrent, Option.elim_some,
      hcomplete.crossed_eq hframe, List.take_length, hr.along.successors hframe]
  operand := by
    intro operand hoperand
    -- An operand has arrived from its block, so that block was entered and has an edge.
    have hmem : operand ∈ phi.operands.filter (·.predecessor == operand.predecessor) :=
      List.mem_filter.2 ⟨hoperand, beq_self_eq_true _⟩
    rw [hreceived.operands phi hphi, arrived] at hmem
    cases hframe : r.frame? operand.predecessor with
    | none =>
      rw [hframe] at hmem
      cases hmem
    | some frame =>
      rw [hframe, Option.elim_some] at hmem
      cases hcurrent : frame.current[phi.base]? with
      | none =>
        rw [hcurrent] at hmem
        cases hmem
      | some version =>
        rw [hcurrent, Option.elim_some, List.mem_replicate] at hmem
        refine ⟨(exists_path_iff hg hroot).1 (hr.along.path hframe), ?_⟩
        rw [← hr.along.successors hframe]
        exact List.mem_of_mem_take (List.count_pos_iff.1 (Nat.pos_of_ne_zero hmem.1))

/-- After the whole walk uses name the last definition on every path to them. -/
theorem exists_use (hr : g.Renaming phis r g') (hcomplete : r.Complete RenamingFrame.successors)
    (hphis : g.PhisPlaced g.declared phis) (hg : g.Mirrored) (hroot : g.Rooted) {k m : Nat}
    {s : Node} (hscope : g.InScope name d i k) (hb : g.Live i b) (hi : i ∈ g.reachable)
    (hs : b.statements[k]? = some s) (hm : s.uses[m]? = some name) :
    ∃ c, ∃ s' : Node, g'.block? i = some c ∧ c.statements[k]? = some s' ∧
      ∀ before, g.Path before i → ∃ version,
        lastDefinition name (g.definitionsBefore g' before i k) = some version ∧
          s'.uses[m]? = some version := by
  obtain ⟨way, hway⟩ := (exists_path_iff hg hroot).2 hi
  obtain ⟨frame, hframe⟩ := hr.along.exists_frame hcomplete hway
  obtain ⟨c, hc, -⟩ := hr.received hb.1
  obtain ⟨env, hstart, hrenamed⟩ := hr.renamed hb.1 hc hframe
  obtain ⟨s', hs', -, huses⟩ := hrenamed.statement hs
  refine ⟨c, s', hc, hs', fun before path => ?_⟩
  -- What comes before the statement in its block hides what comes before the block.
  have hdefined : (lastDefinition name (b.definitionsUpTo c k)).isSome ∨
      ∃ version, env[name]? = some version ∧
        lastDefinition name (g.definitionsAlong g' before) = some version := by
    rcases hscope with ⟨hd, hdom⟩ | ⟨-, b', hb', l, hl, t, ht, hname⟩
    · cases path with
      | entry => cases hdom.2 [] .entry
      | @step before p _ path edge =>
        obtain ⟨shorter, hshorter⟩ :=
          (path.step edge).exists_of_mem (hdom.2 _ (path.step edge))
        have hwanted := hd.mem_declared ((exists_path_iff hg hroot).1 ⟨shorter, hshorter⟩)
        refine (hr.exists_phi_or_env_eq hphis hg hroot hd hwanted hdom path edge hb hc hstart
          fun _ => hr.current_eq hphis hg hroot hd hwanted path
            (hdom.dominates_source edge)).imp_left ?_
        rintro ⟨phi, hphi, rfl⟩
        exact hrenamed.isSome_upTo_of_phi hphi
    · obtain rfl := Option.some.inj (hb.1.symm.trans hb')
      exact .inl (hrenamed.isSome_upTo_of_declared ht hname hl)
  obtain ⟨version, hversion, hlast⟩ := exists_lastDefinition hdefined
  refine ⟨version, ?_, ?_⟩
  · rw [definitionsBefore_eq hb.1 hc, hlast]
  · rw [huses, List.getElem?_map, hm, Option.map_some, hversion, Option.getD_some]

/-- What is known of renaming after the whole walk is what conversion is for. -/
theorem usesLastDefinitions (hr : g.Renaming phis r g')
    (hcomplete : r.Complete RenamingFrame.successors) (hphis : g.PhisPlaced g.declared phis)
    (hg : g.Mirrored) (hroot : g.Rooted) : g.UsesLastDefinitions g' where
  entry_eq := hr.entry_eq
  edges := by
    intro i b hb
    obtain ⟨c, hc, hreceived⟩ := hr.received hb
    exact ⟨c, hc, hreceived.successors⟩
  join := by
    intro i b c phi hb hc hphi
    obtain ⟨c', hc', hreceived⟩ := hr.received hb
    obtain rfl := Option.some.inj (hc.symm.trans hc')
    have hmem := List.mem_map_of_mem (f := (·.base)) hphi
    rw [hreceived.bases] at hmem
    obtain ⟨old, hold, -⟩ := List.mem_map.1 hmem
    exact hphis.join hb hold
  use := by
    intro name d i k b s m hscope hi hb hs hm
    obtain ⟨way, hway⟩ := (exists_path_iff hg hroot).2 hi
    obtain ⟨b', hb'⟩ := hway.exists_live hg hroot
    obtain rfl := Option.some.inj (hb.symm.trans hb'.1)
    exact hr.exists_use hcomplete hphis hg hroot hscope hb' hi hs hm
  phi := by
    intro name d j b hd hdom hj hb hjoin
    obtain ⟨way, hway⟩ := (exists_path_iff hg hroot).2 hj
    obtain ⟨shorter, hshorter⟩ := hway.exists_of_mem (hdom.2 way hway)
    have hwanted := hd.mem_declared ((exists_path_iff hg hroot).1 ⟨shorter, hshorter⟩)
    obtain ⟨c, hc, hreceived⟩ := hr.received hb
    exact ⟨c, hc, hr.exists_phi hphis hd hwanted hdom hway hb hjoin hc, fun phi hphi hbase =>
      hr.selects hcomplete hphis hg hroot hwanted hd hdom hreceived hphi hbase⟩

end Graph.Renaming

namespace Graph

variable {g : Graph}

/-- Conversion succeeds on a graph without phi nodes that passes the check of its edges and to whose
live entry no edge leads. In the graph that it answers, uses of variables that are in scope name the
last definition on every path to them. -/
theorem converted_usesLastDefinitions (hn : g.Numbered) (hcheck : g.checkEdges = .ok ())
    (hroot : g.Rooted) (hnone : ∀ {i b}, g.block? i = some b → b.phis = []) :
    ∃ g' report, g.converted = .ok (g', report) ∧ g.UsesLastDefinitions g' := by
  have hg := (checkEdges_eq_ok_iff hn).1 hcheck
  obtain ⟨added, phis, hplace, hphis⟩ := Edit.run_placePhis hg hroot hnone g.declared
  obtain ⟨versions, g', r, hrename, hrenaming, hcomplete⟩ :=
    Edit.run_rename hg hroot hphis g.declared
  have hconvert : ∃ report, Edit.convert.run g = .ok report g' := by
    have hget : (get : Edit Graph).run g = .ok g g := rfl
    rw [Edit.convert, Edit.run_bind_of_run_eq_ok hget, Edit.run_bind_of_run_eq_ok hplace,
      Edit.run_bind_of_run_eq_ok hrename]
    exact ⟨_, rfl⟩
  obtain ⟨report, hreport⟩ := hconvert
  refine ⟨g', report, ?_, hrenaming.usesLastDefinitions hcomplete hphis hg hroot⟩
  rw [converted, hreport]

/-- A loop that counts in a variable that is declared before it. -/
private def counting : Graph :=
  { blocks := #[
      { id := 0, kind := .base, statements := [.declaration "x" "int" (some (.int 0))],
        successors := [1] },
      { id := 1, kind := .condition, statements := [.ident "x"], predecessors := [0, 2],
        successors := [2, 3] },
      { id := 2, kind := .base, predecessors := [1], successors := [1],
        statements := [.assignment .assign (.ident "x") (.call "next" [.ident "x"])] },
      { id := 3, kind := .base, statements := [.ret (some (.ident "x"))], predecessors := [1] }]
    exit := 3 }

private theorem exists_of_block?_counting {i : BlockId} {b : Block}
    (hb : counting.block? i = some b) : b.id = i ∧ b.phis = [] := by
  obtain ⟨hi, rfl⟩ := Array.getElem?_eq_some_iff.1 hb
  have hblocks : ∀ i : Fin 4, counting.blocks[i].id = i ∧ counting.blocks[i].phis = [] := by decide
  exact hblocks ⟨i, hi⟩

theorem converted_usesLastDefinitions_counting :
    counting.Numbered ∧ counting.checkEdges = .ok () ∧ counting.Rooted ∧
      counting.InScope "x" 0 1 0 ∧
        ∃ g' report, counting.converted = .ok (g', report) ∧ counting.UsesLastDefinitions g' := by
  have hn : counting.Numbered := fun i b hb => (exists_of_block?_counting hb).1
  have hcheck : counting.checkEdges = .ok () := rfl
  have hroot : counting.Rooted := ⟨_, ⟨rfl, rfl⟩, rfl⟩
  have hscope : counting.InScope "x" 0 1 0 :=
    .inl ⟨⟨_, rfl, List.mem_singleton.2 rfl⟩, strictlyDominates_entry Nat.one_ne_zero⟩
  exact ⟨hn, hcheck, hroot, hscope, converted_usesLastDefinitions hn hcheck hroot fun hb =>
    (exists_of_block?_counting hb).2⟩

end Graph

end FlowGraph
