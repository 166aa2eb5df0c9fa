import FlowGraph.Simplification.Fixpoint

/-!
# Edits that only retire blocks

No part of simplification brings a detached block back, adds a block or drops one. This holds of any
graph, however its edges are recorded, and of an edit that fails half-way as well, because each
single change of a block keeps a detached block detached.

## Main definitions

* `Graph.Retires`: the blocks of one graph, of which more are detached in another
* `Edit.Retiring`: an edit that does no more than that

## Main results

* `Graph.Retires.liveCount_le`: there are not more live blocks than before
* `Edit.retiring_absorb`, `Edit.retiring_bypass`, `Edit.retiring_prune`: the parts of simplification
* `Edit.retires_of_run_exhaust`: the repetition of a step
-/

namespace FlowGraph

namespace Graph

/-- `h` has the blocks of `g`, and those that are detached in `g` are detached in `h`. -/
structure Retires (g h : Graph) : Prop where
  size_eq : h.size = g.size
  detached : ∀ i : Nat, g.detachment[i]? = some true → h.detachment[i]? = some true

namespace Retires

variable {g h k : Graph}

theorem refl (g : Graph) : g.Retires g :=
  ⟨rfl, fun _ hi => hi⟩

theorem trans (hgh : g.Retires h) (hhk : h.Retires k) : g.Retires k :=
  ⟨hhk.size_eq.trans hgh.size_eq, fun i hi => hhk.detached i (hgh.detached i hi)⟩

theorem modify (g : Graph) (id : BlockId) {f : Block → Block}
    (hf : ∀ b, b.isDetached = true → (f b).isDetached = true) : g.Retires (g.modify id f) := by
  refine ⟨g.size_modify id f, fun i hi => ?_⟩
  rw [getElem?_detachment] at hi ⊢
  rw [block?_modify]
  obtain ⟨b, hb, hdetached⟩ := Option.map_eq_some_iff.1 hi
  rw [hb]
  split
  · exact congrArg some (hf b hdetached)
  · exact congrArg some hdetached

theorem moveExit (g : Graph) (old new : BlockId) : g.Retires (g.moveExit old new) := by
  have hsame : (g.moveExit old new).detachment = g.detachment := by
    rw [detachment, blocks_moveExit, detachment]
  refine ⟨?_, fun i hi => hsame ▸ hi⟩
  rw [size, blocks_moveExit, size]

private theorem count_false_le {flags flags' : List Bool} (hlength : flags'.length = flags.length)
    (h : ∀ i : Nat, flags[i]? = some true → flags'[i]? = some true) :
    flags'.count false ≤ flags.count false := by
  induction flags generalizing flags' with
  | nil => simp [List.length_eq_zero_iff.1 hlength]
  | cons flag flags ih =>
    obtain ⟨flag', flags', rfl⟩ := List.exists_cons_of_length_eq_add_one hlength
    have hrest := ih (Nat.succ.inj hlength) fun i hi => h (i + 1) hi
    have hfirst : flag = true → flag' = true := by simpa using h 0
    cases flag with
    | true =>
      rw [hfirst rfl]
      simpa using hrest
    | false =>
      cases flag' with
      | true => exact Nat.le_trans (by simpa using hrest) (by simp)
      | false => simpa using hrest

theorem liveCount_le (hgh : g.Retires h) : h.liveCount ≤ g.liveCount := by
  rw [liveCount_eq_count_detachment, liveCount_eq_count_detachment]
  apply count_false_le _ hgh.detached
  rw [length_detachment, length_detachment, hgh.size_eq]

end Retires

end Graph

namespace Edit

variable {α β : Type}

/-- An edit that detaches blocks at most, whether it fails or not. -/
def Retiring (x : Edit α) : Prop :=
  ∀ g : Graph, g.Retires (x.after g)

namespace Retiring

theorem of_run_eq_ok {x : Edit α} (hx : x.Retiring) {g h : Graph} {a : α}
    (hrun : x.run g = .ok a h) : g.Retires h :=
  after_of_run_eq_ok hrun ▸ hx g

theorem of_run_eq_error {x : Edit α} (hx : x.Retiring) {g h : Graph} {e : Error}
    (hrun : x.run g = .error e h) : g.Retires h :=
  after_of_run_eq_error hrun ▸ hx g

theorem pure (a : α) : Retiring (Pure.pure a : Edit α) :=
  fun g => .refl g

theorem get : Retiring (MonadState.get : Edit Graph) :=
  fun g => .refl g

theorem change {f : Graph → Graph} (hf : ∀ g : Graph, g.Retires (f g)) :
    Retiring (modify f : Edit Unit) :=
  hf

theorem ask (question : Graph → Except Error α) : Retiring (Edit.ask question) := by
  intro g
  unfold after
  rw [run_ask]
  cases question g <;> exact .refl g

theorem bind {x : Edit α} {f : α → Edit β} (hx : x.Retiring) (hf : ∀ a, (f a).Retiring) :
    Retiring (x >>= f) := by
  intro g
  unfold after
  rw [EStateM.run_bind]
  cases hrun : x.run g with
  | error e h => exact hx.of_run_eq_error hrun
  | ok a h => exact (hx.of_run_eq_ok hrun).trans (hf a h)

theorem map (f : α → β) {x : Edit α} (hx : x.Retiring) : Retiring (f <$> x) := by
  rw [map_eq_pure_bind]
  exact bind hx fun _ => pure _

theorem update (id : BlockId) {f : Block → Block}
    (hf : ∀ b, b.isDetached = true → (f b).isDetached = true) : Retiring (Edit.update id f) :=
  bind (ask _) fun _ => change fun g => .modify g id hf

theorem forM {f : α → Edit PUnit} (hf : ∀ a, (f a).Retiring) (l : List α) :
    Retiring (l.forM f) := by
  induction l with
  | nil => exact pure _
  | cons a l ih => exact bind (hf a) fun _ => ih

end Retiring

theorem retiring_prune : prune.Retiring := by
  refine .bind .get fun g => .bind (.forM (fun id => ?_) _) fun _ =>
    .bind (.forM (fun id => .update id fun _ _ => rfl) _) fun _ => .pure _
  refine .bind (.ask _) fun b => .forM (fun successor => ?_) _
  exact .update successor fun _ hb => hb

theorem retiring_absorb (id next : BlockId) : (absorb id next).Retiring := by
  refine .bind (.ask _) fun absorbed => .bind (.update next fun _ _ => rfl) fun _ =>
    .bind (.forM (fun successor => ?_) _) fun _ => .bind (.update id fun _ hb => hb) fun _ =>
    .change fun g => .moveExit g next id
  exact .update successor fun _ hb => hb

theorem retiring_bypass (id : BlockId) : (bypass id).Retiring := by
  refine .bind (.ask _) fun ⟨b, target⟩ => .bind (.update id fun _ hb => hb) fun _ =>
    .bind (.update target fun _ hb => hb) fun _ => .bind (.forM (fun source => ?_) b.predecessors)
      fun _ => .bind (.update id fun _ _ => rfl) fun _ => .change fun g => .moveExit g id target
  -- One edge is moved by two changes, of which neither is about the flag.
  exact .bind (.update source fun _ hb => hb) fun _ => .update target fun _ hb => hb

theorem Retiring.searchAndAct (search : Graph → Except Error (Option BlockId))
    {act : BlockId → Edit Unit} (hact : ∀ id, (act id).Retiring) :
    (ShrinkingStep.searchAndAct search act).Retiring := by
  refine .bind (.ask search) fun found => ?_
  cases found with
  | none => exact .pure _
  | some id => exact .bind (hact id) fun _ => .pure _

/-- What a step retires, its repetition retires. -/
theorem retires_of_run_exhaust {s : ShrinkingStep} (hs : s.step.Retiring) {g h : Graph}
    {count : Nat} (hrun : s.exhaust.run g = .ok count h) : g.Retires h := by
  change s.exhaust g = .ok count h at hrun
  fun_induction s.exhaust g generalizing count with
  | case1 => cases hrun
  | case2 g g' hstep _ =>
    cases hrun
    exact hs.of_run_eq_ok hstep
  | case3 => cases hrun
  | case4 g g' hstep _ rest g'' hrest ih =>
    cases hrun
    exact (hs.of_run_eq_ok hstep).trans (ih hrest)

/-- What a pass does at one block drops no block and adds none. -/
theorem size_of_run_simplifyBlock {g h : Graph} {id : BlockId} {changes : Nat}
    (hrun : (simplifyBlock id).run g = .ok changes h) : h.size = g.size := by
  simp only [simplifyBlock, run_bind_eq_ok_iff, run_pure_eq_ok_iff] at hrun
  obtain ⟨absorbed, g', habsorbed, bypassed, h, hbypassed, rfl, rfl⟩ := hrun
  have hfirst := retires_of_run_exhaust (.searchAndAct _ (retiring_absorb id)) habsorbed
  have hsecond := retires_of_run_exhaust (.searchAndAct _ retiring_bypass) hbypassed
  exact (hfirst.trans hsecond).size_eq

end Edit

end FlowGraph
