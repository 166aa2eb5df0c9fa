import FlowGraph.Proofs.Construction.Code
import FlowGraph.Proofs.Construction.Reading

/-!
# Places in a graph that realize a behavior

A place in a graph realizes a behavior if the runs from there are exactly the emissions of the
behavior, each followed by a run from the place to which its outcome leads. The ways of putting
behaviors together have their counterparts in the wiring of blocks.

Loops are the reason for counting edges: a run that comes back to the condition of a loop has
followed an edge, so what remains of it is shorter.

## Main definitions

* `Graph.RunIn`, `Graph.LeavesIn`: runs of bounded length from the start and from the end of a block
* `Future`, `Exits`: what may follow at a place, and where the outcomes of a behavior lead
* `Realizes`: a place realizes a behavior

## Main results

* `Graph.exists_runIn_false_iff`, `Graph.exists_runIn_true_iff`: runs of bounded length are runs
* `realizes_block`, `Realizes.seq`, `Realizes.branch`, `Realizes.loop`: blocks and their wiring
-/

namespace FlowGraph

namespace Graph

/-- The runs from a block over at most `n` edges, each with what it emits and whether it is
complete. -/
inductive RunIn (g : Graph) : Nat → BlockId → List Emission → Bool → Prop
  | cut {n : Nat} {id : BlockId} {b : Block} {t : List Emission} (block : g.block? id = some b)
      (emits : t <+: b.emitted) : RunIn g n id t false
  | complete {n : Nat} {id : BlockId} {b : Block} (block : g.block? id = some b)
      (last : b.successors = []) : RunIn g n id b.emitted true
  | step {n : Nat} {id next : BlockId} {b : Block} {slot : Nat} {t : List Emission} {c : Bool}
      (block : g.block? id = some b) (edge : b.successors[slot]? = some next)
      (rest : RunIn g n next t c) : RunIn g (n + 1) id (b.emittedOver slot ++ t) c

theorem exists_runIn_false_iff {g : Graph} {id : BlockId} {t : List Emission} :
    (∃ n, g.RunIn n id t false) ↔ g.Run id t .cut := by
  constructor
  · rintro ⟨n, h⟩
    generalize hc : false = c at h
    induction h with
    | cut block emits => exact .cut block emits
    | complete => cases hc
    | step block edge _ ih => exact .step block edge (ih hc)
  · intro h
    generalize he : Ending.cut = e at h
    induction h with
    | cut block emits => exact ⟨0, .cut block emits⟩
    | complete => cases he
    | step block edge _ ih =>
      obtain ⟨n, h⟩ := ih he
      exact ⟨n + 1, .step block edge h⟩

theorem exists_runIn_true_iff {g : Graph} {id : BlockId} {t : List Emission} :
    (∃ n, g.RunIn n id t true) ↔ ∃ last, g.Run id t (.complete last) := by
  constructor
  · rintro ⟨n, h⟩
    generalize hc : true = c at h
    induction h with
    | cut => cases hc
    | complete block last => exact ⟨_, .complete block last⟩
    | step block edge _ ih =>
      obtain ⟨last, h⟩ := ih hc
      exact ⟨last, .step block edge h⟩
  -- A run is finite, so it goes over some number of edges.
  · rintro ⟨last, h⟩
    generalize he : Ending.complete last = e at h
    induction h with
    | cut => cases he
    | complete block last => exact ⟨0, .complete block last⟩
    | step block edge _ ih =>
      obtain ⟨n, h⟩ := ih he
      exact ⟨n + 1, .step block edge h⟩

end Graph

/-- What may follow at a place: runs over at most so many edges, each with whether it is
complete. -/
abbrev Future :=
  Nat → List Emission → Bool → Prop

/-- Two futures with the same runs, where the second one is not longer than the first. -/
structure Future.Leads (k k' : Future) : Prop where
  shorter : ∀ {n t c}, k n t c → ∃ m ≤ n, k' m t c
  back : ∀ {n t c}, k' n t c → ∃ m, k m t c

namespace Future.Leads

variable {k k' k'' : Future}

theorem refl (k : Future) : k.Leads k :=
  ⟨fun {n _ _} h => ⟨n, Nat.le_refl n, h⟩, fun {n _ _} h => ⟨n, h⟩⟩

theorem trans (h : k.Leads k') (h' : k'.Leads k'') : k.Leads k'' where
  shorter := by
    intro n t c hk
    obtain ⟨m, hm, hk'⟩ := h.shorter hk
    obtain ⟨l, hl, hk''⟩ := h'.shorter hk'
    exact ⟨l, Nat.le_trans hl hm, hk''⟩
  back := by
    intro n t c hk''
    obtain ⟨m, hk'⟩ := h'.back hk''
    exact h.back hk'

end Future.Leads

namespace Graph

/-- The runs from the end of a block with some successors, over at most `n` edges. -/
inductive LeavesIn (g : Graph) (successors : List BlockId) : Nat → List Emission → Bool → Prop
  | cut {n : Nat} : LeavesIn g successors n [] false
  | complete {n : Nat} (last : successors = []) : LeavesIn g successors n [] true
  | step {n slot : Nat} {next : BlockId} {t : List Emission} {c : Bool}
      (edge : successors[slot]? = some next) (rest : g.RunIn n next t c) :
      LeavesIn g successors (n + 1) t c

/-- What may follow from the start of a block. -/
def futureAt (g : Graph) (id : BlockId) : Future :=
  fun n => g.RunIn n id

/-- What may follow from the end of a block with some successors. -/
def futureAfter (g : Graph) (successors : List BlockId) : Future :=
  g.LeavesIn successors

variable {g : Graph} {id next : BlockId} {statements : List Node} {successors : List BlockId}

private theorem exists_block {c : Code} (h : g.code id = some c) :
    ∃ b, g.block? id = some b ∧ b.code = c :=
  Option.map_eq_some_iff.1 h

/-- A run from an existing block may be cut at once. -/
theorem futureAt_nil {c : Code} (h : g.code id = some c) (n : Nat) :
    g.futureAt id n [] false := by
  obtain ⟨b, hb, -⟩ := exists_block h
  exact .cut hb List.nil_prefix

/-- A run from a base block emits its statements, unless it is cut before. -/
theorem futureAt_base_iff (h : g.code id = some ⟨.base, statements, successors⟩) {n : Nat}
    {t : List Emission} {c : Bool} :
    g.futureAt id n t c ↔ (t <+: statements.map .statement ∧ c = false) ∨
      ∃ t', t = statements.map .statement ++ t' ∧ g.futureAfter successors n t' c := by
  obtain ⟨b, hb, hcode⟩ := exists_block h
  obtain ⟨hkind, hstatements, hsuccessors⟩ := Code.mk.inj hcode
  have hemitted : b.emitted = statements.map .statement := by
    rw [Block.emitted, hkind, hstatements]
  have hover (slot : Nat) : b.emittedOver slot = statements.map .statement := by
    rw [Block.emittedOver, hkind, hstatements]
  -- The three ways a run goes at a block are cut, complete and step.
  constructor
  · rintro (⟨block, emits⟩ | ⟨block, last⟩ | ⟨block, edge, rest⟩)
    all_goals obtain rfl := Option.some.inj (hb.symm.trans block)
    · exact .inl ⟨hemitted ▸ emits, rfl⟩
    · exact .inr ⟨[], by rw [hemitted, List.append_nil], .complete (hsuccessors ▸ last)⟩
    · exact .inr ⟨_, by rw [hover], .step (hsuccessors ▸ edge) rest⟩
  · rintro (⟨emits, rfl⟩ | ⟨t', rfl, _ | last | ⟨edge, rest⟩⟩)
    · exact .cut hb (hemitted ▸ emits)
    · rw [List.append_nil, ← hemitted]
      exact .cut hb (List.prefix_refl _)
    · rw [List.append_nil, ← hemitted]
      exact .complete hb (hsuccessors.trans last)
    · rename_i slot _
      rw [← hover slot]
      exact .step hb (hsuccessors ▸ edge) rest

/-- A run from a condition block emits the condition with the slot that it takes. -/
theorem futureAt_condition_iff {cond : Node} {onTrue onFalse : BlockId}
    (h : g.code id = some ⟨.condition, [cond], [onTrue, onFalse]⟩) {n : Nat}
    {t : List Emission} {c : Bool} :
    g.futureAt id n t c ↔ (t = [] ∧ c = false) ∨
      (∃ m t', n = m + 1 ∧ t = .test [cond] 0 :: t' ∧ g.futureAt onTrue m t' c) ∨
      (∃ m t', n = m + 1 ∧ t = .test [cond] 1 :: t' ∧ g.futureAt onFalse m t' c) := by
  obtain ⟨b, hb, hcode⟩ := exists_block h
  obtain ⟨hkind, hstatements, hsuccessors⟩ := Code.mk.inj hcode
  have hemitted : b.emitted = [] := by
    rw [Block.emitted, hkind]
  have hover (slot : Nat) : b.emittedOver slot = [.test [cond] slot] := by
    rw [Block.emittedOver, hkind, hstatements]
  constructor
  · rintro (⟨block, emits⟩ | ⟨block, last⟩ | ⟨block, edge, rest⟩)
    all_goals obtain rfl := Option.some.inj (hb.symm.trans block)
    · rw [hemitted] at emits
      exact .inl ⟨List.prefix_nil.1 emits, rfl⟩
    · rw [hsuccessors] at last
      cases last
    · rename_i m next slot t'
      rw [hsuccessors] at edge
      rw [hover]
      -- There are two slots only.
      rcases slot with _ | _ | slot
      · cases edge
        exact .inr (.inl ⟨m, t', rfl, rfl, rest⟩)
      · cases edge
        exact .inr (.inr ⟨m, t', rfl, rfl, rest⟩)
      · cases edge
  · rintro (⟨rfl, rfl⟩ | ⟨m, t', rfl, rfl, rest⟩ | ⟨m, t', rfl, rfl, rest⟩)
    · exact .cut hb List.nil_prefix
    · have edge : b.successors[0]? = some onTrue := by rw [hsuccessors]; rfl
      have hstep := RunIn.step hb edge rest
      rwa [hover] at hstep
    · have edge : b.successors[1]? = some onFalse := by rw [hsuccessors]; rfl
      have hstep := RunIn.step hb edge rest
      rwa [hover] at hstep

/-- Control that leaves a block with a single successor comes to the start of that one. -/
theorem futureAfter_leads_futureAt {c : Code} (h : g.code next = some c) :
    (g.futureAfter [next]).Leads (g.futureAt next) where
  shorter := by
    rintro n t c (_ | last | ⟨edge, rest⟩)
    · exact ⟨n, Nat.le_refl n, futureAt_nil h n⟩
    · cases last
    · rename_i m slot next'
      obtain ⟨rfl, rfl⟩ : slot = 0 ∧ next = next' := by
        cases slot with
        | zero => exact ⟨rfl, Option.some.inj edge⟩
        | succ slot => cases edge
      exact ⟨m, Nat.le_succ m, rest⟩
  back := fun {n _ _} hrun => ⟨n + 1, .step (rfl : [next][0]? = some next) hrun⟩

/-- An empty block only passes control on. -/
theorem futureAt_leads_futureAfter (h : g.code id = some ⟨.base, [], successors⟩) :
    (g.futureAt id).Leads (g.futureAfter successors) where
  shorter := by
    intro n t c hrun
    rcases (futureAt_base_iff h).1 hrun with ⟨emits, rfl⟩ | ⟨t', rfl, hleave⟩
    · obtain rfl := List.prefix_nil.1 emits
      exact ⟨n, Nat.le_refl n, .cut⟩
    · exact ⟨n, Nat.le_refl n, hleave⟩
  back := fun {n t _} hleave => ⟨n, (futureAt_base_iff h).2 (.inr ⟨t, rfl, hleave⟩)⟩

end Graph

/-- Where the outcomes of a behavior lead. After a return the run is complete. -/
structure Exits where
  completed : Future
  jumped : Jump → Future

/-- What may follow after an outcome. -/
def Exits.future (e : Exits) : Outcome → Future
  | .completed => e.completed
  | .jumped kind => e.jumped kind
  | .returned => fun _ t c => t = [] ∧ c = true
  | .stopped => fun _ t c => t = [] ∧ c = false

/-- The runs of a place are the emissions of a behavior, with what follows after its outcomes. -/
structure Realizes (k : Future) (p : Behavior) (e : Exits) : Prop where
  sound : ∀ {n t c}, k n t c →
    ∃ t₁ o t₂ m, m ≤ n ∧ t = t₁ ++ t₂ ∧ p t₁ o ∧ e.future o m t₂ c
  covers : ∀ {s o n t c}, p s o → e.future o n t c → ∃ m, k m (s ++ t) c

namespace Realizes

variable {k k' k'' : Future} {p q : Behavior} {e : Exits} {jumped : Jump → Future}

theorem of_leads (h : k.Leads k') (hp : Realizes k' p e) : Realizes k p e where
  sound := by
    intro n t c hk
    obtain ⟨m, hm, hk'⟩ := h.shorter hk
    obtain ⟨t₁, o, t₂, l, hl, rfl, part, hexit⟩ := hp.sound hk'
    exact ⟨t₁, o, t₂, l, Nat.le_trans hl hm, rfl, part, hexit⟩
  covers := by
    intro t₁ o n t₂ c part hexit
    obtain ⟨m, hk'⟩ := hp.covers part hexit
    exact h.back hk'

/-- The places to which the outcomes of a behavior lead may be replaced by where they lead in
turn. -/
theorem change_exits {e' : Exits} (h : ∀ {t o}, p t o → (e.future o).Leads (e'.future o))
    (hp : Realizes k p e) : Realizes k p e' where
  sound := by
    intro n t c hk
    obtain ⟨t₁, o, t₂, m, hm, rfl, part, hexit⟩ := hp.sound hk
    obtain ⟨l, hl, hexit⟩ := (h part).shorter hexit
    exact ⟨t₁, o, t₂, l, Nat.le_trans hl hm, rfl, part, hexit⟩
  covers := by
    intro t₁ o n t₂ c part hexit
    obtain ⟨m, hexit⟩ := (h part).back hexit
    exact hp.covers part hexit

theorem lead_on (h : k'.Leads k'') (hp : Realizes k p ⟨k', jumped⟩) :
    Realizes k p ⟨k'', jumped⟩ := by
  refine hp.change_exits fun {t o} _ => ?_
  cases o with
  | completed => exact h
  | _ => exact .refl _

/-- It does not matter where completion would lead if a behavior never completes. -/
theorem of_stays (hstays : p.Stays) (hp : Realizes k p ⟨k', jumped⟩) :
    Realizes k p ⟨k'', jumped⟩ := by
  refine hp.change_exits fun {t o} part => ?_
  cases o with
  | completed => exact absurd part (hstays t)
  | _ => exact .refl _

theorem seq (hp : Realizes k p ⟨k', jumped⟩) (hq : Realizes k' q ⟨k'', jumped⟩) :
    Realizes k (p.seq q) ⟨k'', jumped⟩ where
  sound := by
    intro n t c hk
    obtain ⟨t₁, o, t₂, m, hm, rfl, part, hexit⟩ := hp.sound hk
    -- The second behavior starts where the first one completes.
    cases o with
    | completed =>
      obtain ⟨t₃, o, t₄, l, hl, rfl, rest, hexit⟩ := hq.sound hexit
      refine ⟨t₁ ++ t₃, o, t₄, l, Nat.le_trans hl hm, by rw [List.append_assoc],
        .both part rest, ?_⟩
      cases o <;> exact hexit
    | _ => exact ⟨t₁, _, t₂, m, hm, rfl, .first part (by simp), hexit⟩
  covers := by
    rintro t₁ o n t₂ c (⟨part, ends⟩ | ⟨part, rest⟩) hexit
    · cases o with
      | completed => exact absurd rfl ends
      | _ => exact hp.covers part (n := n) hexit
    · rw [List.append_assoc]
      obtain ⟨m, hk'⟩ := hq.covers rest (n := n) (by cases o <;> exact hexit)
      exact hp.covers part (n := m) hk'

/-- A behavior that takes `continue` for completion, where both lead to the same place. -/
theorem resume (h : e.jumped .continueLoop = e.completed) (hp : Realizes k p e) :
    Realizes k (p.redirect .resume) e := by
  have hresume : ∀ o, e.future o.resume = e.future o := by
    rintro (_ | ⟨_ | _⟩ | _ | _)
    case jumped.continueLoop => exact h.symm
    all_goals rfl
  constructor
  · intro n t c hk
    obtain ⟨t₁, o, t₂, m, hm, rfl, part, hexit⟩ := hp.sound hk
    exact ⟨t₁, o.resume, t₂, m, hm, rfl, .mk part, by rwa [hresume]⟩
  · rintro t₁ _ n t₂ c ⟨part⟩ hexit
    rw [hresume] at hexit
    exact hp.covers part hexit

/-- Nothing is run at a place where a run may be cut. -/
theorem skip (hk : k 0 [] false) (jumped : Jump → Future) :
    Realizes k (.run []) ⟨k, jumped⟩ where
  sound := fun {n t _} hrun => ⟨[], _, t, n, Nat.le_refl n, rfl, .complete, hrun⟩
  covers := by
    rintro t₁ o n t₂ c (part | _) hexit
    · obtain rfl := List.prefix_nil.1 part
      obtain ⟨rfl, rfl⟩ := hexit
      exact ⟨0, hk⟩
    · exact ⟨n, hexit⟩

/-- Every behavior is realized by the future that consists of it. -/
theorem exists_future (q : Behavior) (e : Exits) : ∃ k, Realizes k q e :=
  ⟨fun n t c => ∃ t₁ o t₂, t = t₁ ++ t₂ ∧ q t₁ o ∧ e.future o n t₂ c,
    fun {n _ _} ⟨t₁, o, t₂, ht, part, hexit⟩ =>
      ⟨t₁, o, t₂, n, Nat.le_refl n, ht, part, hexit⟩,
    fun {t₁ o n t₂ _} part hexit => ⟨n, t₁, o, t₂, rfl, part, hexit⟩⟩

/-- What would come after a behavior that never completes does not matter. -/
theorem seq_of_stays (hstays : p.Stays) (hp : Realizes k p e) (q : Behavior) :
    Realizes k (p.seq q) e := by
  obtain ⟨k', hq⟩ := exists_future q e
  exact (hp.of_stays hstays).seq hq

end Realizes

section Blocks

variable {g : Graph} {id : BlockId} {statements : List Node} {successors : List BlockId}

/-- A base block runs its statements. -/
theorem realizes_block (h : g.code id = some ⟨.base, statements, successors⟩)
    (jumped : Jump → Future) :
    Realizes (g.futureAt id) (.run statements) ⟨g.futureAfter successors, jumped⟩ where
  sound := by
    intro n t c hrun
    rcases (Graph.futureAt_base_iff h).1 hrun with ⟨emits, rfl⟩ | ⟨t', rfl, hleave⟩
    · exact ⟨t, _, [], n, Nat.le_refl n, (List.append_nil t).symm, .stop emits, rfl, rfl⟩
    · exact ⟨_, _, t', n, Nat.le_refl n, rfl, .complete, hleave⟩
  covers := by
    rintro t₁ o n t₂ c (part | _) hexit
    · obtain ⟨rfl, rfl⟩ := hexit
      rw [List.append_nil]
      exact ⟨0, (Graph.futureAt_base_iff h).2 (.inl ⟨part, rfl⟩)⟩
    · exact ⟨n, (Graph.futureAt_base_iff h).2 (.inr ⟨t₂, rfl, hexit⟩)⟩

/-- Control that comes to the end of a block without successors ends the run. -/
theorem realizes_end (g : Graph) {e : Exits} {o : Outcome}
    (he : e.future o = fun _ t c => t = [] ∧ c = true) :
    Realizes (g.futureAfter []) (.leave o) e where
  sound := by
    rintro n t c (_ | _ | ⟨edge, _⟩)
    · exact ⟨[], .stopped, [], 0, Nat.zero_le n, rfl, .stop, rfl, rfl⟩
    · exact ⟨[], o, [], 0, Nat.zero_le n, rfl, .done, by rw [he]; exact ⟨rfl, rfl⟩⟩
    · cases edge
  covers := by
    rintro t₁ o' n t₂ c (_ | _) hexit
    · obtain ⟨rfl, rfl⟩ := hexit
      exact ⟨0, .cut⟩
    · rw [he] at hexit
      obtain ⟨rfl, rfl⟩ := hexit
      exact ⟨0, .complete rfl⟩

/-- Control that comes to the end of a block with a single successor goes there. -/
theorem realizes_leave (g : Graph) {target : BlockId} {e : Exits} {o : Outcome}
    (he : e.future o = g.futureAt target) :
    Realizes (g.futureAfter [target]) (.leave o) e where
  sound := by
    rintro n t c (_ | last | ⟨edge, rest⟩)
    · exact ⟨[], .stopped, [], 0, Nat.zero_le n, rfl, .stop, rfl, rfl⟩
    · cases last
    · rename_i m slot next
      cases slot with
      | zero =>
        cases edge
        exact ⟨[], o, t, m, Nat.le_succ m, rfl, .done, by rw [he]; exact rest⟩
      | succ slot => cases edge
  covers := by
    rintro t₁ o' n t₂ c (_ | _) hexit
    · obtain ⟨rfl, rfl⟩ := hexit
      exact ⟨0, .cut⟩
    · rw [he] at hexit
      exact ⟨n + 1, .step (rfl : [target][0]? = some target) hexit⟩

end Blocks

section Conditions

variable {g : Graph} {id onTrue onFalse : BlockId} {cond : Node} {p q r : Behavior} {e : Exits}

/-- A run may be cut before and after a test. -/
private theorem covers_prefix_test {next : BlockId} {slot : Nat} {code : Code}
    (hid : g.futureAt id 0 [] false) (hnext : g.code next = some code)
    (hstep : ∀ {n t c}, g.futureAt next n t c → g.futureAt id (n + 1) (.test [cond] slot :: t) c)
    {t : List Emission} (part : t <+: [.test [cond] slot]) : ∃ m, g.futureAt id m t false := by
  rcases List.prefix_cons_iff.1 part with rfl | ⟨t, rfl, hnil⟩
  · exact ⟨0, hid⟩
  · obtain rfl := List.prefix_nil.1 hnil
    exact ⟨1, hstep (Graph.futureAt_nil hnext 0)⟩

/-- A behavior behind a slot of a condition block is run after the test. -/
private theorem covers_test {next : BlockId} {slot : Nat} {code : Code}
    (hid : g.futureAt id 0 [] false) (hnext : g.code next = some code)
    (hstep : ∀ {n t c}, g.futureAt next n t c → g.futureAt id (n + 1) (.test [cond] slot :: t) c)
    (hp : Realizes (g.futureAt next) p e) {t₁ t₂ : List Emission} {o : Outcome} {n : Nat} {c : Bool}
    (h : ((Behavior.test cond slot).seq p) t₁ o) (hexit : e.future o n t₂ c) :
    ∃ m, g.futureAt id m (t₁ ++ t₂) c := by
  rcases h with ⟨part | _, ends⟩ | ⟨_ | _, rest⟩
  · obtain ⟨rfl, rfl⟩ := hexit
    rw [List.append_nil]
    exact covers_prefix_test hid hnext hstep part
  · exact absurd rfl ends
  · obtain ⟨m, hrun⟩ := hp.covers rest hexit
    exact ⟨m + 1, hstep hrun⟩

variable (h : g.code id = some ⟨.condition, [cond], [onTrue, onFalse]⟩)

include h

private theorem futureAt_test_true {n : Nat} {t : List Emission} {c : Bool}
    (hrun : g.futureAt onTrue n t c) : g.futureAt id (n + 1) (.test [cond] 0 :: t) c :=
  (Graph.futureAt_condition_iff h).2 (.inr (.inl ⟨n, t, rfl, rfl, hrun⟩))

private theorem futureAt_test_false {n : Nat} {t : List Emission} {c : Bool}
    (hrun : g.futureAt onFalse n t c) : g.futureAt id (n + 1) (.test [cond] 1 :: t) c :=
  (Graph.futureAt_condition_iff h).2 (.inr (.inr ⟨n, t, rfl, rfl, hrun⟩))

/-- A condition block selects between the behaviors behind its slots. -/
theorem Realizes.branch {yes no : Code} (hyes : g.code onTrue = some yes)
    (hno : g.code onFalse = some no) (hp : Realizes (g.futureAt onTrue) p e)
    (hq : Realizes (g.futureAt onFalse) q e) :
    Realizes (g.futureAt id)
      (((Behavior.test cond 0).seq p).either ((Behavior.test cond 1).seq q)) e where
  sound := by
    intro n t c hrun
    -- The run is cut before the test, or it takes one of the two slots.
    rcases (Graph.futureAt_condition_iff h).1 hrun with ⟨rfl, rfl⟩ | ⟨m, t, rfl, rfl, rest⟩ |
      ⟨m, t, rfl, rfl, rest⟩
    · exact ⟨[], .stopped, [], n, Nat.le_refl n, rfl,
        .inl (.first (.stop List.nil_prefix) (by simp)), rfl, rfl⟩
    · obtain ⟨t₁, o, t₂, l, hl, rfl, part, hexit⟩ := hp.sound rest
      exact ⟨_, o, t₂, l, Nat.le_succ_of_le hl, rfl, .inl (.both .complete part), hexit⟩
    · obtain ⟨t₁, o, t₂, l, hl, rfl, part, hexit⟩ := hq.sound rest
      exact ⟨_, o, t₂, l, Nat.le_succ_of_le hl, rfl, .inr (.both .complete part), hexit⟩
  covers := by
    rintro t₁ o n t₂ c (part | part) hexit
    · exact covers_test (Graph.futureAt_nil h 0) hyes (futureAt_test_true h) hp part hexit
    · exact covers_test (Graph.futureAt_nil h 0) hno (futureAt_test_false h) hq part hexit

section Loop

variable {yes no : Code} {inner : Jump → Future}
  (hr : Realizes (g.futureAt onTrue) r ⟨g.futureAt id, inner⟩)
  (he : e.completed = g.futureAt onFalse)
  (hexits : ∀ {t o}, ((Behavior.test cond 0).seq r) t o → o ≠ .completed →
    e.future o.leaveLoop = Exits.future ⟨g.futureAt id, inner⟩ o)

include hr he hexits

/-- A run from the condition of a loop goes through rounds. -/
private theorem loop_sound {n : Nat} {t : List Emission} {c : Bool} (hrun : g.futureAt id n t c) :
    ∃ t₁ o t₂ m, m ≤ n ∧ t = t₁ ++ t₂ ∧
      Behavior.loop cond ((Behavior.test cond 0).seq r) t₁ o ∧ e.future o m t₂ c := by
  -- A run that comes back to the condition has followed an edge, so the rest of it is shorter.
  induction n using Nat.strongRecOn generalizing t c with
  | ind n ih =>
    rcases (Graph.futureAt_condition_iff h).1 hrun with ⟨rfl, rfl⟩ | ⟨m, t, rfl, rfl, rest⟩ |
      ⟨m, t, rfl, rfl, rest⟩
    · exact ⟨[], .stopped, [], n, Nat.le_refl n, rfl, .leave (.stop List.nil_prefix), rfl, rfl⟩
    · obtain ⟨t₁, o, t₂, l, hl, rfl, part, hexit⟩ := hr.sound rest
      have hround := Behavior.seq.both (p := .test cond 0) .complete part
      by_cases ho : o = .completed
      · subst ho
        obtain ⟨t₃, o, t₄, l', hl', rfl, again, hexit⟩ := ih l (Nat.lt_succ_of_le hl) hexit
        exact ⟨_, o, t₄, l', Nat.le_trans hl' (Nat.le_succ_of_le hl), by simp,
          .again hround again, hexit⟩
      · rw [← hexits hround ho] at hexit
        exact ⟨_, o.leaveLoop, t₂, l, Nat.le_succ_of_le hl, rfl, .last hround ho, hexit⟩
    · refine ⟨_, .completed, t, m, Nat.le_succ m, rfl, .leave .complete, ?_⟩
      rw [Exits.future, he]
      exact rest

/-- Any number of rounds is a run from the condition of a loop. -/
private theorem loop_covers (hyes : g.code onTrue = some yes) (hno : g.code onFalse = some no)
    {t₁ t₂ : List Emission} {o : Outcome} {n : Nat} {c : Bool}
    (hloop : Behavior.loop cond ((Behavior.test cond 0).seq r) t₁ o)
    (hexit : e.future o n t₂ c) : ∃ m, g.futureAt id m (t₁ ++ t₂) c := by
  have hid := Graph.futureAt_nil h 0
  -- The induction is on the rounds of the loop.
  induction hloop generalizing n t₂ with
  | leave part =>
    rcases part with part | _
    · obtain ⟨rfl, rfl⟩ := hexit
      rw [List.append_nil]
      exact covers_prefix_test hid hno (futureAt_test_false h) part
    · rw [Exits.future, he] at hexit
      exact ⟨n + 1, futureAt_test_false h hexit⟩
  | last part ends =>
    rw [hexits part ends] at hexit
    exact covers_test hid hyes (futureAt_test_true h) hr part hexit
  | again part rest ih =>
    obtain ⟨m, hrun⟩ := ih hexit
    rw [List.append_assoc]
    exact covers_test hid hyes (futureAt_test_true h) hr part (n := m) hrun

end Loop

/-- A condition block to which the rounds in its first slot lead back repeats them. -/
theorem Realizes.loop {yes no : Code} (hyes : g.code onTrue = some yes)
    (hno : g.code onFalse = some no) {inner : Jump → Future}
    (hr : Realizes (g.futureAt onTrue) r ⟨g.futureAt id, inner⟩)
    (hbreak : inner .breakLoop = g.futureAt onFalse)
    (hcontinue : ∀ t, ¬ ((Behavior.test cond 0).seq r) t (.jumped .continueLoop))
    (he : e.completed = g.futureAt onFalse) :
    Realizes (g.futureAt id) (.loop cond ((Behavior.test cond 0).seq r)) e := by
  have hexits : ∀ {t o}, ((Behavior.test cond 0).seq r) t o → o ≠ .completed →
      e.future o.leaveLoop = Exits.future ⟨g.futureAt id, inner⟩ o := by
    rintro t (_ | ⟨_ | _⟩ | _ | _) part ends
    case completed => exact absurd rfl ends
    case jumped.breakLoop => exact he.trans hbreak.symm
    case jumped.continueLoop => exact absurd part (hcontinue t)
    all_goals rfl
  exact ⟨loop_sound h hr he hexits, loop_covers h hr he hexits hyes hno⟩

end Conditions

end FlowGraph
