import FlowGraph.Proofs.Ssa.Definition
import FlowGraph.Proofs.Ssa.Placed

/-!
# What renaming does to a graph

Renaming enters every block on some path once, and starts there from the versions that are current
at the end of one block with an edge to it. Over every edge the current versions arrive as operands.

## Main definitions

* `arrived`: the operands that have arrived in a block from another one
* `Graph.Renaming`: what is known in the middle of renaming

## Main results

* `Edit.run_rename`: renaming succeeds, and what is known holds of the renamed graph
-/

namespace FlowGraph

variable {r : Walk.Record RenamingFrame} {frame child : RenamingFrame} {p q i j : BlockId}
  {name : String}

/-- The operands for a variable that have arrived in a block over the edges from `source`. -/
def arrived (r : Walk.Record RenamingFrame) (name : String) (source target : BlockId) :
    List Phi.Operand :=
  (r.frame? source).elim [] fun frame =>
    frame.current[name]?.elim [] fun version =>
      List.replicate ((frame.successors.take (r.crossed source)).count target) ⟨version, source⟩

theorem arrived_of_frame? (hframe : r.frame? p = some frame) :
    arrived r name p j = frame.current[name]?.elim [] fun version =>
      List.replicate ((frame.successors.take (r.crossed p)).count j) ⟨version, p⟩ := by
  rw [arrived, hframe, Option.elim_some]

theorem arrived_of_crossed_eq_zero (h : r.crossed p = 0) : arrived r name p j = [] := by
  unfold arrived
  cases r.frame? p with
  | none => rfl
  | some frame =>
    rw [Option.elim_some, h]
    cases frame.current[name]? <;> rfl

/-- An operand arrives over each edge that is crossed, if the variable has a version. -/
theorem arrived_cross (hframe : r.frame? p = some frame)
    (hj : frame.successors[r.crossed p]? = some j) :
    arrived (r.cross p) name p j =
      arrived r name p j ++ frame.current[name]?.toList.map fun version => ⟨version, p⟩ := by
  rw [arrived_of_frame? (r := r.cross p) hframe, arrived_of_frame? hframe,
    Walk.Record.crossed_cross_self, List.take_add_one, hj]
  cases frame.current[name]? with
  | none => rfl
  | some version =>
    rw [Option.elim_some, Option.elim_some, Option.toList_some, Option.toList_some,
      List.count_append, List.count_singleton_self, ← List.replicate_append_replicate]
    rfl

/-- Nothing else arrives with it. -/
theorem arrived_cross_of_ne (hframe : r.frame? p = some frame)
    (hj : frame.successors[r.crossed p]? = some j) (hne : q ≠ p ∨ i ≠ j) :
    arrived (r.cross p) name q i = arrived r name q i := by
  by_cases hq : q = p
  · subst hq
    rw [arrived_of_frame? (r := r.cross q) hframe, arrived_of_frame? hframe,
      Walk.Record.crossed_cross_self, List.take_add_one, hj, List.count_append,
      Option.toList_some, List.count_singleton, if_neg, Nat.add_zero]
    simpa using Ne.symm (hne.resolve_left (fun h => h rfl))
  · rw [arrived, arrived, r.crossed_cross_of_ne hq]
    rfl

theorem arrived_enter (name : String) (q : BlockId) (child : RenamingFrame)
    (hnew : r.frame? j = none) (hcrossed : r.crossed j = 0) :
    arrived (r.enter j child) name q i = arrived r name q i := by
  by_cases hq : q = j
  · subst hq
    rw [arrived_of_crossed_eq_zero (r := r.enter q child) hcrossed,
      arrived_of_crossed_eq_zero hcrossed]
  · rw [arrived, arrived, r.frame?_enter_of_ne child hq, Walk.Record.crossed_enter]

/-- What a phi node is left with when versions arrive. -/
def Phi.receive (phi : Phi) (source : BlockId) (current : Std.TreeMap String String) : Phi :=
  { phi with
    operands := phi.operands ++ current[phi.base]?.toList.map fun version => ⟨version, source⟩ }

namespace Block

variable {b c : Block} {source : BlockId} {current env env' : Std.TreeMap String String}

theorem phis_receive (hjoin : c.isJoin = true) :
    (c.receive source current).phis = c.phis.map fun phi => phi.receive source current := by
  rw [receive, if_pos hjoin]
  refine List.map_congr_left fun phi _ => ?_
  rw [Phi.receive]
  cases current[phi.base]? with
  | none =>
    rw [Option.toList_none, List.map_nil, List.append_nil]
  | some version => rfl

theorem receive_of_not_isJoin (hjoin : c.isJoin = false) : c.receive source current = c := by
  rw [receive, hjoin]
  rfl

@[simp] theorem statements_receive : (c.receive source current).statements = c.statements := by
  unfold receive
  split <;> rfl

@[simp] theorem successors_receive : (c.receive source current).successors = c.successors := by
  unfold receive
  split <;> rfl

@[simp] theorem predecessors_receive :
    (c.receive source current).predecessors = c.predecessors := by
  unfold receive
  split <;> rfl

@[simp] theorem definitions_phis_receive :
    (c.receive source current).phis.filterMap Phi.definition? =
      c.phis.filterMap Phi.definition? := by
  cases hjoin : c.isJoin with
  | false => rw [receive_of_not_isJoin hjoin]
  | true =>
    rw [phis_receive hjoin, List.filterMap_map]
    rfl

@[simp] theorem bases_receive :
    (c.receive source current).phis.map (·.base) = c.phis.map (·.base) := by
  cases hjoin : c.isJoin with
  | false => rw [receive_of_not_isJoin hjoin]
  | true =>
    rw [phis_receive hjoin, List.map_map]
    rfl

/-- A renamed block may receive versions: they change operands only. -/
theorem Renamed.receive (h : b.Renamed env c env') :
    b.Renamed env (c.receive source current) env' where
  current := by
    intro name
    rw [h.current, definitions, definitions, definitions_phis_receive, statements_receive]
  statement := by
    intro k s hs
    simp only [definitionsUpTo, definitions_phis_receive, statements_receive]
    exact h.statement hs
  resolved := by
    cases hjoin : c.isJoin with
    | false =>
      rw [receive_of_not_isJoin hjoin]
      exact h.resolved
    | true =>
      rw [phis_receive hjoin, List.forall_mem_map]
      exact h.resolved

end Block

/-- Renaming phi nodes keeps their variables and operands. -/
theorem Naming.map_phis (naming : Naming) (phis : List Phi) :
    (naming.phis phis).1.map (fun phi => (phi.base, phi.operands)) =
      phis.map fun phi => (phi.base, phi.operands) := by
  induction phis generalizing naming with
  | nil => rfl
  | cons first rest ih =>
    rw [phis_cons, List.map_cons, List.map_cons, ih]
    rfl

theorem Naming.bases_phis (naming : Naming) (phis : List Phi) :
    (naming.phis phis).1.map (·.base) = phis.map (·.base) := by
  have h := congrArg (List.map Prod.fst) (naming.map_phis phis)
  rwa [List.map_map, List.map_map] at h

theorem Naming.exists_of_mem_phis (naming : Naming) {phis : List Phi} {phi : Phi}
    (h : phi ∈ (naming.phis phis).1) :
    ∃ old ∈ phis, old.base = phi.base ∧ old.operands = phi.operands := by
  have hmem := List.mem_map_of_mem (f := fun phi => (phi.base, phi.operands)) h
  rw [naming.map_phis] at hmem
  obtain ⟨old, hold, heq⟩ := List.mem_map.1 hmem
  exact ⟨old, hold, (Prod.mk.inj heq).1, (Prod.mk.inj heq).2⟩

/-- What is known about the edges and phi nodes of block `i` in the middle of renaming. -/
structure Block.Received (b c : Block) (bases : List String) (r : Walk.Record RenamingFrame)
    (i : BlockId) : Prop where
  successors : c.successors = b.successors
  predecessors : c.predecessors = b.predecessors
  bases : c.phis.map (·.base) = bases
  /-- The operands of a phi node are those that have arrived. -/
  operands : ∀ phi ∈ c.phis, ∀ source,
    phi.operands.filter (·.predecessor == source) = arrived r phi.base source i

namespace Block.Received

variable {b c : Block} {bases : List String}

theorem isJoin_eq (h : b.Received c bases r i) : c.isJoin = b.isJoin := by
  rw [isJoin, isJoin, h.predecessors]

theorem congr {r' : Walk.Record RenamingFrame} (h : b.Received c bases r i)
    (hsame : ∀ name source, arrived r' name source i = arrived r name source i) :
    b.Received c bases r' i where
  successors := h.successors
  predecessors := h.predecessors
  bases := h.bases
  operands := by
    intro phi hphi source
    rw [hsame]
    exact h.operands phi hphi source

/-- The current versions arrive over an edge. -/
theorem receive (h : b.Received c bases r j) (hjoin : bases ≠ [] → b.isJoin = true)
    (hframe : r.frame? p = some frame) (hj : frame.successors[r.crossed p]? = some j) :
    b.Received (c.receive p frame.current) bases (r.cross p) j where
  successors := by rw [successors_receive, h.successors]
  predecessors := by rw [predecessors_receive, h.predecessors]
  bases := by rw [bases_receive, h.bases]
  operands := by
    intro phi hphi source
    have hbases : (c.receive p frame.current).phis.map (·.base) = bases := by
      rw [bases_receive, h.bases]
    -- There are phi nodes in joins only, and it is joins that receive.
    have hcjoin : c.isJoin = true := by
      rw [h.isJoin_eq]
      refine hjoin fun hnil => ?_
      rw [hnil, List.map_eq_nil_iff] at hbases
      rw [hbases] at hphi
      cases hphi
    rw [phis_receive hcjoin] at hphi
    obtain ⟨old, hold, rfl⟩ := List.mem_map.1 hphi
    have hbase : (old.receive p frame.current).base = old.base := rfl
    rw [hbase, Phi.receive, List.filter_append, h.operands old hold]
    by_cases hsource : source = p
    · subst hsource
      rw [arrived_cross hframe hj, List.filter_eq_self.2]
      simp
    · rw [arrived_cross_of_ne hframe hj (.inl hsource), List.filter_eq_nil_iff.2, List.append_nil]
      simp [Ne.symm hsource]

/-- Renaming a block changes neither its edges nor the operands that have arrived. -/
theorem naming (h : b.Received c bases r i) (naming : Naming) :
    b.Received (naming.block c).1 bases r i where
  successors := h.successors
  predecessors := h.predecessors
  bases := (naming.bases_phis c.phis).trans h.bases
  operands := by
    intro phi hphi source
    obtain ⟨old, hold, hbase, hoperands⟩ := naming.exists_of_mem_phis hphi
    rw [← hbase, ← hoperands]
    exact h.operands old hold source

end Block.Received

namespace Graph

variable {g h : Graph} {b c : Block} {phis : BlockId → List Phi}
  {env : Std.TreeMap String String}

/-- The versions from which a block starts: none at the entry, and otherwise those at the end of a
block with an edge to it. -/
def StartsFrom (g : Graph) (r : Walk.Record RenamingFrame) (i : BlockId)
    (env : Std.TreeMap String String) : Prop :=
  i = g.entry ∧ env = ∅ ∨
    ∃ p frame, r.frame? p = some frame ∧ i ∈ g.successors p ∧ env = frame.current

theorem StartsFrom.enter (hstart : g.StartsFrom r i env) (hnew : r.frame? j = none) :
    g.StartsFrom (r.enter j child) i env := by
  refine hstart.imp_right ?_
  rintro ⟨p, f, hp, hedge, rfl⟩
  exact ⟨p, f, r.frame?_enter_of_eq_some child hnew hp, hedge, rfl⟩

/-- What is known in the middle of renaming the graph `g`, which has become `h` so far. The phi
nodes were `phis` at first. -/
structure Renaming (g : Graph) (phis : BlockId → List Phi) (r : Walk.Record RenamingFrame)
    (h : Graph) : Prop where
  entry_eq : h.entry = g.entry
  along : r.Along g RenamingFrame.successors
  source : ∀ {i frame}, r.frame? i = some frame → frame.block = i
  received : ∀ {i b}, g.block? i = some b →
    ∃ c, h.block? i = some c ∧ b.Received c ((phis i).map (·.base)) r i
  /-- A block that was not entered has the statements it had. -/
  waiting : ∀ {i b c}, g.block? i = some b → h.block? i = some c → r.frame? i = none →
    c.statements = b.statements
  /-- A block that was entered is renamed. -/
  renamed : ∀ {i b c frame}, g.block? i = some b → h.block? i = some c →
    r.frame? i = some frame → ∃ env, g.StartsFrom r i env ∧ b.Renamed env c frame.current

namespace Renaming

/-- The current versions of a block arrive over one of its edges. -/
theorem cross (hr : g.Renaming phis r h) (hjoin : phis j ≠ [] → b.isJoin = true)
    (hb : g.block? j = some b) (hframe : r.frame? i = some frame)
    (hj : frame.successors[r.crossed i]? = some j) :
    g.Renaming phis (r.cross i) (h.modify j (·.receive frame.block frame.current)) where
  entry_eq := hr.entry_eq
  along := hr.along.cross i
  source := hr.source
  received := by
    intro k b' hb'
    obtain ⟨c, hc, hreceived⟩ := hr.received hb'
    rw [block?_modify]
    by_cases hk : j = k
    -- The target receives the versions, all other blocks stay as they are.
    · subst hk
      obtain rfl := Option.some.inj (hb'.symm.trans hb)
      rw [if_pos rfl, hc, hr.source hframe]
      refine ⟨_, rfl, hreceived.receive (fun hne => hjoin fun hnil => hne ?_) hframe hj⟩
      rw [hnil, List.map_nil]
    · rw [if_neg hk]
      exact ⟨c, hc, hreceived.congr fun name source =>
        arrived_cross_of_ne hframe hj (.inr (Ne.symm hk))⟩
  waiting := by
    intro k b' c' hb' hc' hk
    obtain ⟨c, hc, -⟩ := hr.received hb'
    rw [block?_modify, hc] at hc'
    split at hc'
    · obtain rfl := Option.some.inj hc'
      rw [Block.statements_receive]
      exact hr.waiting hb' hc hk
    · obtain rfl := Option.some.inj hc'
      exact hr.waiting hb' hc hk
  renamed := by
    intro k b' c' f hb' hc' hk
    obtain ⟨c, hc, -⟩ := hr.received hb'
    obtain ⟨env, hstart, hrenamed⟩ := hr.renamed hb' hc hk
    rw [block?_modify, hc] at hc'
    split at hc'
    · obtain rfl := Option.some.inj hc'
      exact ⟨env, hstart, hrenamed.receive⟩
    · obtain rfl := Option.some.inj hc'
      exact ⟨env, hstart, hrenamed⟩

/-- A new block is renamed from the versions at the end of a block with an edge to it. -/
theorem enter (hr : g.Renaming phis r h) (hb : g.block? j = some b) (hc : h.block? j = some c)
    (hnew : r.frame? j = none) (hcrossed : r.crossed j = 0) (hframe : r.frame? i = some frame)
    (hj : j ∈ frame.successors) (versions : Versions) :
    g.Renaming phis
      (r.enter j ⟨j, (Naming.block ⟨frame.current, versions⟩ c).2.current, c.successors⟩)
      (h.modify j fun _ => (Naming.block ⟨frame.current, versions⟩ c).1) where
  entry_eq := hr.entry_eq
  along := by
    obtain ⟨c', hc', hreceived⟩ := hr.received hb
    obtain rfl := Option.some.inj (hc.symm.trans hc')
    refine hr.along.enter _ hnew hframe hj ?_
    rw [Graph.successors, hb, Option.elim_some]
    exact hreceived.successors
  source := by
    intro k f hk
    rcases r.of_frame?_enter _ hk with ⟨rfl, rfl⟩ | ⟨-, hk⟩
    · rfl
    · exact hr.source hk
  received := by
    intro k b' hb'
    obtain ⟨c', hc', hreceived⟩ := hr.received hb'
    have henter := hreceived.congr fun name source => arrived_enter name source
      ⟨j, (Naming.block ⟨frame.current, versions⟩ c).2.current, c.successors⟩ hnew hcrossed
    rw [block?_modify]
    by_cases hk : j = k
    · subst hk
      obtain rfl := Option.some.inj (hc.symm.trans hc')
      rw [if_pos rfl, hc]
      exact ⟨_, rfl, henter.naming _⟩
    · rw [if_neg hk]
      exact ⟨c', hc', henter⟩
  waiting := by
    intro k b' c' hb' hc' hk
    have hkj : k ≠ j := by
      rintro rfl
      rw [Walk.Record.frame?_enter_self] at hk
      cases hk
    rw [block?_modify, if_neg (Ne.symm hkj)] at hc'
    rw [r.frame?_enter_of_ne _ hkj] at hk
    exact hr.waiting hb' hc' hk
  renamed := by
    intro k b' c' f hb' hc' hk
    rw [block?_modify] at hc'
    rcases r.of_frame?_enter _ hk with ⟨rfl, rfl⟩ | ⟨hkj, hk⟩
    -- The new block was waiting, so its statements are renamed for the first time.
    · obtain rfl := Option.some.inj (hb'.symm.trans hb)
      rw [if_pos rfl, hc] at hc'
      obtain rfl := Option.some.inj hc'
      refine ⟨frame.current, .inr ⟨i, frame, ?_, hr.along.successors hframe ▸ hj, rfl⟩, ?_⟩
      · exact r.frame?_enter_of_eq_some _ hnew hframe
      · exact Naming.renamed_block ⟨frame.current, versions⟩ (hr.waiting hb' hc hnew)
    · rw [if_neg (Ne.symm hkj)] at hc'
      obtain ⟨env, hstart, hrenamed⟩ := hr.renamed hb' hc' hk
      exact ⟨env, hstart.enter hnew, hrenamed⟩

/-- Renaming starts at the entry, where no variable has a version. -/
theorem start (hphis : ∀ {i phi}, phi ∈ phis i → phi = .placeholder phi.base)
    (hb : g.block? g.entry = some b) (versions : Versions) :
    g.Renaming phis
      (.start g.entry
        ⟨g.entry, (Naming.block ⟨∅, versions⟩ { b with phis := phis g.entry }).2.current,
          b.successors⟩)
      ((g.withPhis phis).modify g.entry fun _ =>
        (Naming.block ⟨∅, versions⟩ { b with phis := phis g.entry }).1) where
  entry_eq := rfl
  along := .start (by rw [Graph.successors, hb, Option.elim_some])
  source := by
    intro i f hi
    obtain ⟨rfl, rfl⟩ := Walk.Record.eq_of_frame?_start _ hi
    rfl
  received := by
    intro i b' hb'
    -- Placeholders have no operands, and none have arrived.
    have hplaced (r : Walk.Record RenamingFrame) (hr : ∀ p, r.crossed p = 0) :
        b'.Received { b' with phis := phis i } ((phis i).map (·.base)) r i := by
      refine ⟨rfl, rfl, rfl, fun phi hphi source => ?_⟩
      rw [arrived_of_crossed_eq_zero (hr source), hphis hphi]
      rfl
    rw [block?_modify, block?_withPhis, hb']
    by_cases hi : g.entry = i
    · subst hi
      obtain rfl := Option.some.inj (hb'.symm.trans hb)
      rw [if_pos rfl]
      exact ⟨_, rfl, (hplaced _ fun _ => rfl).naming _⟩
    · rw [if_neg hi]
      exact ⟨_, rfl, hplaced _ fun _ => rfl⟩
  waiting := by
    intro i b' c' hb' hc' hi
    have hne : i ≠ g.entry := by
      rintro rfl
      rw [Walk.Record.frame?_start_self] at hi
      cases hi
    rw [block?_modify, if_neg (Ne.symm hne), block?_withPhis, hb'] at hc'
    obtain rfl := Option.some.inj hc'
    rfl
  renamed := by
    intro i b' c' f hb' hc' hi
    obtain ⟨rfl, rfl⟩ := Walk.Record.eq_of_frame?_start _ hi
    obtain rfl := Option.some.inj (hb'.symm.trans hb)
    rw [block?_modify_self, block?_withPhis, hb'] at hc'
    obtain rfl := Option.some.inj hc'
    exact ⟨∅, .inl ⟨rfl, rfl⟩, Naming.renamed_block ⟨∅, versions⟩ rfl⟩

end Renaming

end Graph

theorem RenamingState.enter_eq_ok {s : RenamingState} {c : Block}
    (hc : s.graph.find j = .ok c) :
    enter frame j s =
      .ok ⟨j, (Naming.block ⟨frame.current, s.versions⟩ c).2.current, c.successors⟩
        ⟨s.graph.modify j fun _ => (Naming.block ⟨frame.current, s.versions⟩ c).1,
          (Naming.block ⟨frame.current, s.versions⟩ c).2.versions⟩ := by
  unfold enter
  rw [hc]

/-- What is tracked of renaming. -/
theorem tracked_renamingWalk {g : Graph} (hg : g.Mirrored) (hroot : g.Rooted)
    {phis : BlockId → List Phi}
    (hjoin : ∀ {i b}, g.block? i = some b → phis i ≠ [] → b.isJoin = true) :
    renamingWalk.Tracked g.size RenamingFrame.successors fun r s =>
      g.Renaming phis r s.graph where
  slots := fun _ _ => rfl
  inRange := by
    intro r s i frame j hr hframe hj
    obtain ⟨b, hb⟩ := hr.along.exists_live hg hroot hframe hj
    exact hb.lt_size
  cross := by
    intro r s i frame j hr hframe hj
    obtain ⟨b, hb, -⟩ := hr.along.exists_live hg hroot hframe (List.mem_of_getElem? hj)
    exact hr.cross (hjoin hb) hb hframe hj
  enter := by
    intro r s i frame j hr hframe hj hnew hcrossed
    obtain ⟨b, hb, -⟩ := hr.along.exists_live hg hroot hframe hj
    obtain ⟨c, hc, -⟩ := hr.received hb
    exact ⟨_, _, RenamingState.enter_eq_ok (Graph.find_eq_ok_iff.2 hc),
      hr.enter hb hc hnew hcrossed hframe hj s.versions⟩

/-- Renaming succeeds after placement, and each edge out of a reachable block was crossed. -/
theorem Edit.run_rename {g : Graph} (hg : g.Mirrored) (hroot : g.Rooted)
    {wanted : Std.TreeSet String} {phis : BlockId → List Phi} (hphis : g.PhisPlaced wanted phis)
    (declared : Std.TreeSet String) :
    ∃ versions g' r, (rename declared).run (g.withPhis phis) = .ok versions g' ∧
      g.Renaming phis r g' ∧ r.Complete RenamingFrame.successors := by
  obtain ⟨b, hb, -⟩ := id hroot
  have hjoin {i : BlockId} {b : Block} (hb : g.block? i = some b) (hne : phis i ≠ []) :
      b.isJoin = true := by
    obtain ⟨phi, hphi⟩ := List.exists_mem_of_ne_nil _ hne
    exact hphis.join hb hphi
  have hfind : (g.withPhis phis).find g.entry = .ok { b with phis := phis g.entry } := by
    rw [Graph.find_eq_ok_iff, Graph.block?_withPhis, hb.1, Option.map_some]
  obtain ⟨r, t, hrun, hrenaming, hcomplete⟩ := (tracked_renamingWalk hg hroot hjoin).exists_run {}
    (s := ⟨g.withPhis phis, .start declared⟩) hb.lt_size (RenamingState.enter_eq_ok hfind)
      (.start hphis.placeholder hb.1 (.start declared))
  refine ⟨t.versions, t.graph, r, ?_, hrenaming, hcomplete⟩
  have hsize : (g.withPhis phis).size = g.size := Graph.size_mapBlocks ..
  have hentry : (g.withPhis phis).entry = g.entry := rfl
  simp only [EStateM.run, rename, hsize, hentry, hrun]

end FlowGraph
