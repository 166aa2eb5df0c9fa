import FlowGraph.Proofs.Graph.Renumbered
import FlowGraph.Proofs.Simplification.Rewriting
import Mathlib.Data.List.Basic

/-!
# Simplification of renumbered graphs

Passes look at the kind, the statements and the edges of blocks, at how many edges enter them and at
whether two blocks are the same. None of this depends on the numbers of the blocks, so passes over
two graphs that differ in these make the same changes.

## Main results

* `Edit.follows_absorb`, `Edit.follows_bypass`: the two changes
* `ShrinkingStep.follows_exhaust`: the repetition of a step
* `Edit.follows_pass`, `Edit.follows_passing`: a pass, and all passes
* `Edit.renumbers_of_run_simplify`: simplification
-/

namespace FlowGraph

variable {ν : BlockId → BlockId}

namespace Block

theorem absorbTarget?_renumber (b : Block) :
    (b.renumber ν).absorbTarget? = b.absorbTarget?.map ν := by
  unfold absorbTarget?
  rw [successors_renumber]
  rcases b.successors with _ | ⟨target, _ | ⟨other, rest⟩⟩
  · rfl
  · simp only [List.map_cons, List.map_nil, kind_renumber, isDetached_renumber,
      predecessors_renumber, List.length_map]
    split_ifs <;> rfl
  · rfl

theorem forwardTarget?_renumber (hν : Function.Injective ν) (b : Block) :
    (b.renumber ν).forwardTarget? = b.forwardTarget?.map ν := by
  unfold forwardTarget?
  rw [successors_renumber]
  rcases b.successors with _ | ⟨target, _ | ⟨other, rest⟩⟩
  · rfl
  · have hne : (ν target != ν b.id) = (target != b.id) := by
      rw [Bool.eq_iff_iff, bne_iff_ne, bne_iff_ne, hν.ne_iff]
    simp only [List.map_cons, List.map_nil, kind_renumber, isDetached_renumber, isEmpty_renumber,
      id_renumber, hne]
    split_ifs <;> rfl
  · rfl

theorem isForwarding_renumber (hν : Function.Injective ν) (b : Block) :
    (b.renumber ν).isForwarding = b.isForwarding := by
  rw [isForwarding, isForwarding, forwardTarget?_renumber hν, Option.isSome_map]

theorem replacePredecessor_renumber (hν : Function.Injective ν) (old new : BlockId) (b : Block) :
    (b.renumber ν).replacePredecessor (ν old) (ν new) =
      (b.replacePredecessor old new).renumber ν := by
  have hentries : (b.predecessors.map ν).map (fun p => if p == ν old then ν new else p) =
      (b.predecessors.map fun p => if p == old then new else p).map ν := by
    rw [List.map_map, List.map_map]
    refine List.map_congr_left fun p _ => ?_
    simp only [Function.comp_apply, beq_iff_eq, hν.eq_iff, apply_ite ν]
  simp only [replacePredecessor, predecessors_renumber, hentries]
  rfl

theorem dropPredecessor_renumber (hν : Function.Injective ν) (p : BlockId) (b : Block) :
    (b.renumber ν).dropPredecessor (ν p) = (b.dropPredecessor p).renumber ν := by
  have hentries : (b.predecessors.map ν).filter (· != ν p) =
      (b.predecessors.filter (· != p)).map ν := by
    rw [List.filter_map]
    congr 1
    refine List.filter_congr fun q _ => ?_
    rw [Bool.eq_iff_iff, Function.comp_apply, bne_iff_ne, bne_iff_ne, hν.ne_iff]
  simp only [dropPredecessor, predecessors_renumber, hentries]
  rfl

theorem addPredecessor_renumber (p : BlockId) (b : Block) :
    (b.renumber ν).addPredecessor (ν p) = (b.addPredecessor p).renumber ν := by
  simp only [addPredecessor, renumber, List.map_append, List.map_cons, List.map_nil]

theorem redirect_renumber (hν : Function.Injective ν) (old new : BlockId) (b : Block) :
    (b.renumber ν).redirect (ν old) (ν new) = (b.redirect old new).renumber ν := by
  have hslots (l : List BlockId) :
      (l.map ν).replace (ν old) (ν new) = (l.replace old new).map ν := by
    induction l with
    | nil => rfl
    | cons j l ih =>
      rw [List.map_cons, List.replace_cons, List.replace_cons, ih]
      have hbeq : (ν old == ν j) = (old == j) := by
        rw [Bool.eq_iff_iff, beq_iff_eq, beq_iff_eq, hν.eq_iff]
      rw [hbeq]
      cases old == j <;> rfl
  simp only [redirect, successors_renumber, hslots]
  rfl

end Block

namespace Graph

variable {g h : Graph} {id next i : BlockId} {b n : Block}

theorem Renumbers.moveExit (hr : g.Renumbers ν h) (old new : BlockId) :
    (g.moveExit old new).Renumbers ν (h.moveExit (ν old) (ν new)) where
  mono := hr.mono
  block?_eq i := by rw [block?_moveExit, block?_moveExit, hr.block?_eq]
  others j b hj hb := hr.others j b hj (by rwa [block?_moveExit] at hb)
  name_eq := by
    unfold Graph.moveExit
    split_ifs <;> exact hr.name_eq
  entry_eq := by rw [entry_moveExit, entry_moveExit, hr.entry_eq]
  exit_eq := by
    unfold Graph.moveExit
    rw [hr.exit_eq]
    simp only [hr.mono.injective.eq_iff]
    split_ifs
    · rfl
    · exact hr.exit_eq

theorem Renumbers.checkAbsorb (hr : g.Renumbers ν h) (hcheck : g.checkAbsorb id next = .ok n) :
    h.checkAbsorb (ν id) (ν next) = .ok (n.renumber ν) := by
  obtain ⟨b, hb, hkind, hsuccessors, hn, hbase, hone⟩ := checkAbsorb_eq_ok_iff.1 hcheck
  refine checkAbsorb_eq_ok_iff.2 ⟨b.renumber ν, hr.block? hb, hkind, ?_, hr.block? hn, hbase, ?_⟩
  · rw [Block.successors_renumber, hsuccessors, List.map_singleton]
  · rw [Block.predecessors_renumber, List.length_map, hone]

theorem Renumbers.mayAbsorb (hr : g.Renumbers ν h) :
    h.mayAbsorb (ν id) (ν next) (n.renumber ν) = g.mayAbsorb id next n := by
  have hν := hr.mono.injective
  have hpredecessors : (n.predecessors.map ν = [ν id]) ↔ n.predecessors = [id] := by
    rw [← List.map_singleton, (List.map_injective_iff.2 hν).eq_iff]
  rw [Bool.eq_iff_iff]
  simp only [Graph.mayAbsorb, hr.entry_eq, Block.isCondition_renumber, Block.isDetached_renumber,
    Block.predecessors_renumber, Bool.and_eq_true, bne_iff_ne, beq_iff_eq, hν.ne_iff, hpredecessors]

/-- The same successor may be absorbed. -/
theorem Renumbers.absorbable? (hr : g.Renumbers ν h) {found : Option BlockId}
    (hfound : g.absorbable? id = .ok found) : h.absorbable? (ν id) = .ok (found.map ν) := by
  simp only [Graph.absorbable?, bind_eq_ok_iff] at hfound ⊢
  obtain ⟨b, hb, hfound⟩ := hfound
  refine ⟨b.renumber ν, hr.find_eq hb, ?_⟩
  rw [Block.absorbTarget?_renumber]
  cases htarget : b.absorbTarget? with
  | none =>
    rw [htarget] at hfound
    cases hfound
    rfl
  | some next =>
    rw [htarget] at hfound
    simp only [bind_eq_ok_iff] at hfound
    obtain ⟨n, hn, hfound⟩ := hfound
    simp only [Option.map_some, bind_eq_ok_iff]
    refine ⟨n.renumber ν, hr.find_eq hn, ?_⟩
    rw [hr.mayAbsorb]
    cases hfound
    split <;> rfl

theorem Renumbers.firstForwarding? (hr : g.Renumbers ν h) {ids : List BlockId}
    {found : Option BlockId} (hfound : g.firstForwarding? ids = .ok found) :
    h.firstForwarding? (ids.map ν) = .ok (found.map ν) := by
  induction ids with
  | nil =>
    cases hfound
    rfl
  | cons i ids ih =>
    simp only [List.map_cons, Graph.firstForwarding?, bind_eq_ok_iff] at hfound ⊢
    obtain ⟨b, hb, hfound⟩ := hfound
    refine ⟨b.renumber ν, hr.find_eq hb, ?_⟩
    rw [Block.isForwarding_renumber hr.mono.injective]
    split at hfound
    · rename_i hforwarding
      cases hfound
      rw [if_pos hforwarding]
      rfl
    · rename_i hnot
      rw [if_neg hnot]
      exact ih hfound

/-- The same successor may be bypassed. -/
theorem Renumbers.bypassable? (hr : g.Renumbers ν h) {found : Option BlockId}
    (hfound : g.bypassable? id = .ok found) : h.bypassable? (ν id) = .ok (found.map ν) := by
  simp only [Graph.bypassable?, bind_eq_ok_iff] at hfound ⊢
  obtain ⟨b, hb, hfound⟩ := hfound
  exact ⟨b.renumber ν, hr.find_eq hb, hr.firstForwarding? hfound⟩

end Graph

namespace Edit

/-- Absorbing a block is the same change in both graphs. -/
theorem follows_absorb (hν : Function.Injective ν) (id next : BlockId) :
    Follows ν Eq (absorb id next) (absorb (ν id) (ν next)) := by
  have hcheck : Follows ν (fun n n' => n' = n.renumber ν) (ask (·.checkAbsorb id next))
      (ask (·.checkAbsorb (ν id) (ν next))) :=
    .ask fun hr hn => ⟨_, hr.checkAbsorb hn, rfl⟩
  refine hcheck.bind ?_
  rintro n _ rfl
  have hvacate : Follows ν Eq (update next (·.vacate)) (update (ν next) (·.vacate)) :=
    .update next fun _ => rfl
  have hreplace (i : BlockId) :
      Follows ν Eq (update i (·.replacePredecessor next id))
        (update (ν i) (·.replacePredecessor (ν next) (ν id))) :=
    .update i (Block.replacePredecessor_renumber hν next id)
  have htake : Follows ν Eq (update id (·.takeOver n))
      (update (ν id) (·.takeOver (n.renumber ν))) := .update id fun _ => rfl
  exact hvacate.bind fun _ _ _ => (Follows.forM hreplace n.successors).bind fun _ _ _ =>
    htake.bind fun _ _ _ => .modify fun hr => hr.moveExit next id

/-- Bypassing a block is the same change in both graphs. -/
theorem follows_bypass (hν : Function.Injective ν) (id : BlockId) :
    Follows ν Eq (bypass id) (bypass (ν id)) := by
  have hask : Follows ν (fun a a' => a' = (a.1.renumber ν, ν a.2)) (ask (·.forwardTarget id))
      (ask (·.forwardTarget (ν id))) := by
    refine .ask fun {g h a} hr ha => ⟨_, ?_, rfl⟩
    simp only [Graph.forwardTarget, Graph.bind_eq_ok_iff] at ha ⊢
    obtain ⟨b, hb, ha⟩ := ha
    refine ⟨b.renumber ν, hr.find_eq hb, ?_⟩
    rw [Block.forwardTarget?_renumber hν]
    cases htarget : b.forwardTarget? with
    | none =>
      rw [htarget] at ha
      cases ha
    | some target =>
      rw [htarget] at ha
      cases ha
      rfl
  have hretarget (target source : BlockId) :
      Follows ν Eq (retarget id target source) (retarget (ν id) (ν target) (ν source)) :=
    (Follows.update source (Block.redirect_renumber hν id target)).bind fun _ _ _ =>
      .update target (Block.addPredecessor_renumber source)
  refine hask.bind ?_
  rintro ⟨b, target⟩ _ rfl
  have hclear : Follows ν Eq (update id (·.clearPredecessors))
      (update (ν id) (·.clearPredecessors)) := .update id fun _ => rfl
  have hdrop : Follows ν Eq (update target (·.dropPredecessor id))
      (update (ν target) (·.dropPredecessor (ν id))) :=
    .update target (Block.dropPredecessor_renumber hν id)
  have hdetach : Follows ν Eq (update id (·.detach)) (update (ν id) (·.detach)) :=
    .update id fun _ => rfl
  exact hclear.bind fun _ _ _ => hdrop.bind fun _ _ _ =>
    (Follows.forM (hretarget target) b.predecessors).bind fun _ _ _ =>
      hdetach.bind fun _ _ _ => .modify fun hr => hr.moveExit id target

end Edit

namespace ShrinkingStep

/-- Searches that find the same block, and changes that are the same for it. -/
theorem follows_searchAndAct {search search' : Graph → Except Error (Option BlockId)}
    {act act' : BlockId → Edit Unit}
    (hsearch : ∀ {g h : Graph} {found}, g.Renumbers ν h → search g = .ok found →
      search' h = .ok (found.map ν))
    (hact : ∀ i, Edit.Follows ν Eq (act i) (act' (ν i))) :
    Edit.Follows ν Eq (searchAndAct search act) (searchAndAct search' act') := by
  have hask : Edit.Follows ν (fun found found' => found' = found.map ν) (Edit.ask search)
      (Edit.ask search') := .ask fun hr hfound => ⟨_, hsearch hr hfound, rfl⟩
  refine hask.bind ?_
  rintro found _ rfl
  cases found with
  | none => exact .pure rfl
  | some i => exact (hact i).bind fun _ _ _ => .pure rfl

/-- Steps that make the same changes can be repeated. -/
theorem follows_exhaust {s s' : ShrinkingStep} (hstep : Edit.Follows ν Eq s.step s'.step) :
    Edit.Follows ν Eq s.exhaust s'.exhaust := by
  refine ⟨fun {g h g' count} hr hrun => ?_⟩
  change s.exhaust g = .ok count g' at hrun
  fun_induction s.exhaust g generalizing h count with
  | case1 => cases hrun
  -- Both steps answer the same, so both repetitions end in the same round.
  | case2 g g₁ hfalse _ =>
    cases hrun
    obtain ⟨_, h₁, hfalse', rfl, hr₁⟩ := hstep.exists_run hr hfalse
    exact ⟨0, h₁, s'.run_exhaust_of_false hfalse', rfl, hr₁⟩
  | case3 => cases hrun
  | case4 g g₁ htrue _ rest g₂ hrest ih =>
    cases hrun
    obtain ⟨_, h₁, htrue', rfl, hr₁⟩ := hstep.exists_run hr htrue
    obtain ⟨_, h₂, hrest', rfl, hr₂⟩ := ih hr₁ hrest
    exact ⟨rest + 1, h₂, s'.run_exhaust_of_true htrue' hrest', rfl, hr₂⟩

end ShrinkingStep

/-- Two passes in the middle of their work that have made the same changes. -/
def PassState.Renumbers (ν : BlockId → BlockId) (s t : PassState) : Prop :=
  s.graph.Renumbers ν t.graph ∧ t.changes = s.changes

namespace Edit

theorem follows_simplifyBlock (hν : Function.Injective ν) (id : BlockId) :
    Follows ν Eq (simplifyBlock id) (simplifyBlock (ν id)) := by
  have habsorption : Follows ν Eq (absorption id).step (absorption (ν id)).step :=
    ShrinkingStep.follows_searchAndAct (fun hr => hr.absorbable?) (follows_absorb hν id)
  have hbypassing : Follows ν Eq (bypassing id).step (bypassing (ν id)).step :=
    ShrinkingStep.follows_searchAndAct (fun hr => hr.bypassable?) (follows_bypass hν)
  refine (ShrinkingStep.follows_exhaust habsorption).bind ?_
  rintro absorbed _ rfl
  refine (ShrinkingStep.follows_exhaust hbypassing).bind ?_
  rintro bypassed _ rfl
  exact .pure rfl

/-- The walk of a pass makes the same moves in both graphs. -/
theorem follows_passWalk (hν : Function.Injective ν) :
    passWalk.Follows ν (PassState.Renumbers ν) (fun i j => j = ν i) passWalk where
  slots := by
    rintro s t i _ ⟨hr, -⟩ rfl
    exact hr.successors_eq i
  cross hst _ _ := hst
  enter := by
    rintro s t f k i child s' ⟨hr, hchanges⟩ - henter
    simp only [passWalk, PassState.simplifyBlock] at henter ⊢
    split at henter
    · rename_i changes g' hrun
      cases henter
      obtain ⟨_, h', hrun', rfl, hr'⟩ := (follows_simplifyBlock hν i).exists_run hr hrun
      refine ⟨ν i, ⟨h', t.changes + changes⟩, by rw [hrun'], rfl, hr', ?_⟩
      rw [hchanges]
    · cases henter

/-- A pass makes the same changes in both graphs. -/
theorem follows_pass (hν : Function.Injective ν) : Follows ν Eq pass pass := by
  refine ⟨fun {g h g' count} hr hrun => ?_⟩
  change pass g = .ok count g' at hrun
  unfold pass at hrun
  split at hrun
  · rename_i s hwalk
    cases hrun
    have hstart : PassState.Renumbers ν ⟨g, 0⟩ ⟨h, 0⟩ := ⟨hr, rfl⟩
    obtain ⟨t, hwalk', hr', hchanges⟩ :=
      (follows_passWalk hν).exists_run hν hr.lt_size_iff rfl hstart hwalk
    refine ⟨t.changes, t.graph, ?_, hchanges.symm, hr'⟩
    change pass h = _
    rw [pass, hr.entry_eq, hwalk']
  · cases hrun

/-- Passing over the graphs until nothing changes leads to the same graph. -/
theorem follows_passing (hν : Function.Injective ν) :
    Follows ν Eq passing.exhaust passing.exhaust := by
  refine ShrinkingStep.follows_exhaust ((follows_pass hν).bind ?_)
  rintro count _ rfl
  exact .pure rfl

/-- Simplification is pruning and passing. -/
theorem run_passing_of_run_simplify {g g' : Graph} {report : SimplificationReport}
    (hg : g.Consistent) (hrun : simplify.run g = .ok report g') :
    ∃ changing, passing.exhaust.run g.pruned = .ok changing g' := by
  rw [simplify, run_bind_of_run_eq_ok (run_prune hg.mirrored hg.numbered)] at hrun
  obtain ⟨changing, k, hpassing, hrest⟩ := run_bind_eq_ok_iff.1 hrun
  cases hrest
  exact ⟨changing, hpassing⟩

/-- Simplification of graphs that are renumbered when they are pruned leads to the same graph. -/
theorem renumbers_of_run_simplify {g h g' h' : Graph} {report report' : SimplificationReport}
    (hg : g.Consistent) (hh : h.Consistent) (hpruned : g.pruned.Renumbers ν h.pruned)
    (hrun : simplify.run g = .ok report g') (hrun' : simplify.run h = .ok report' h') :
    g'.Renumbers ν h' := by
  obtain ⟨changing, hpassing⟩ := run_passing_of_run_simplify hg hrun
  obtain ⟨changing', hpassing'⟩ := run_passing_of_run_simplify hh hrun'
  obtain ⟨_, k, hsame, -, hr⟩ :=
    (follows_passing hpruned.mono.injective).exists_run hpruned hpassing
  cases hpassing'.symm.trans hsame
  exact hr

end Edit

end FlowGraph
