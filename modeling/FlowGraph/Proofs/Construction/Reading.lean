import FlowGraph.Construction.Survey
import FlowGraph.Proofs.Run

/-!
# Reading a tree as a structured program

A tree is read by what it may emit and how it may end, and the reading of a tree is put together
from the readings of its children. A reading may always stop before its end, so readings that go on
for ever are covered by the beginnings of them.

## Main definitions

* `Outcome`: how the reading of a tree ends
* `Behavior`: a set of emissions with outcomes, with `emit`, `leave`, `seq`, `either`, `redirect`
  and `loop` to build them
* `Node.reads`: the structured reading of a tree

## Main results

* `Node.stoppable_reads`: every reading may be stopped at its end
* `Node.stays_reads`: a statement that does not complete is not read to its end
* `Node.jumpless_reads_of_survey`: no jump leaves a tree that was surveyed
-/

namespace FlowGraph

/-- How the reading of a statement ends. -/
inductive Outcome
  /-- Control passes the end of the statement. -/
  | completed
  /-- A jump leaves the statement. -/
  | jumped (kind : Jump)
  /-- A return ends the whole run. -/
  | returned
  /-- The reading is stopped at some point. -/
  | stopped
  deriving DecidableEq, Repr

namespace Outcome

/-- A round of a loop that ends by `continue` ends like one that completes. -/
def resume : Outcome → Outcome
  | jumped .continueLoop => completed
  | o => o

/-- A round that ends by `break` completes the loop. -/
def leaveLoop : Outcome → Outcome
  | jumped .breakLoop => completed
  | o => o

end Outcome

/-- What a statement may emit, and how it may end then. -/
abbrev Behavior :=
  List Emission → Outcome → Prop

namespace Behavior

/-- Emits a list. -/
inductive emit (es : List Emission) : Behavior
  | stop {t : List Emission} (part : t <+: es) : emit es t .stopped
  | complete : emit es es .completed

/-- Emits statements. -/
def run (nodes : List Node) : Behavior :=
  emit (nodes.map .statement)

/-- Emits a condition with the slot taken after it. -/
def test (cond : Node) (slot : Nat) : Behavior :=
  emit [.test [cond] slot]

/-- Ends at once. -/
inductive leave (o : Outcome) : Behavior
  | stop : leave o [] .stopped
  | done : leave o [] o

/-- One behavior, then another if the first one completes. -/
inductive seq (p q : Behavior) : Behavior
  | first {t : List Emission} {o : Outcome} (part : p t o) (ends : o ≠ .completed) : seq p q t o
  | both {t t' : List Emission} {o : Outcome} (part : p t .completed) (rest : q t' o) :
      seq p q (t ++ t') o

/-- One of two behaviors. -/
def either (p q : Behavior) : Behavior :=
  fun t o => p t o ∨ q t o

/-- A behavior with its outcomes replaced. -/
inductive redirect (f : Outcome → Outcome) (p : Behavior) : Behavior
  | mk {t : List Emission} {o : Outcome} (part : p t o) : redirect f p t (f o)

/-- A round of a loop: the condition holds, the body runs, and after a body that completes or
continues comes the step. -/
def round (cond : Node) (body step : Behavior) : Behavior :=
  (test cond 0).seq ((body.redirect .resume).seq step)

/-- Rounds, until the condition does not hold or a round ends otherwise than by completing. -/
inductive loop (cond : Node) (round : Behavior) : Behavior
  | leave {t : List Emission} {o : Outcome} (part : test cond 1 t o) : loop cond round t o
  | last {t : List Emission} {o : Outcome} (part : round t o) (ends : o ≠ .completed) :
      loop cond round t o.leaveLoop
  | again {t t' : List Emission} {o : Outcome} (part : round t .completed)
      (rest : loop cond round t' o) : loop cond round (t ++ t') o

/-- A behavior that may be stopped wherever it may end. -/
def Stoppable (p : Behavior) : Prop :=
  ∀ t o, p t o → p t .stopped

/-- A behavior that never completes. -/
def Stays (p : Behavior) : Prop :=
  ∀ t, ¬ p t .completed

/-- A behavior that no jump leaves. -/
def Jumpless (p : Behavior) : Prop :=
  ∀ t kind, ¬ p t (.jumped kind)

section Stoppable

variable {p q : Behavior}

theorem stoppable_emit (es : List Emission) : (emit es).Stoppable := by
  rintro t o (part | _)
  · exact .stop part
  · exact .stop (List.prefix_refl _)

theorem stoppable_leave (o : Outcome) : (leave o).Stoppable := by
  rintro t o' (_ | _)
  · exact .stop
  · exact .stop

theorem Stoppable.seq (hp : p.Stoppable) (hq : q.Stoppable) : (p.seq q).Stoppable := by
  rintro t o (⟨part, _⟩ | ⟨part, rest⟩)
  · exact .first (hp _ _ part) (by decide)
  · exact .both part (hq _ _ rest)

theorem Stoppable.either (hp : p.Stoppable) (hq : q.Stoppable) : (p.either q).Stoppable :=
  fun _ _ h => h.imp (hp _ _) (hq _ _)

theorem Stoppable.redirect {f : Outcome → Outcome} (hf : f .stopped = .stopped)
    (hp : p.Stoppable) : (p.redirect f).Stoppable := by
  rintro t _ ⟨part⟩
  have hstop := redirect.mk (f := f) (hp _ _ part)
  rwa [hf] at hstop

theorem Stoppable.round (cond : Node) (hp : p.Stoppable) (hq : q.Stoppable) :
    (round cond p q).Stoppable :=
  (stoppable_emit _).seq ((hp.redirect rfl).seq hq)

theorem Stoppable.loop (cond : Node) (hp : p.Stoppable) : (loop cond p).Stoppable := by
  intro t o h
  induction h with
  | leave part => exact .leave (stoppable_emit _ _ _ part)
  | last part _ => exact .last (hp _ _ part) (by decide)
  | again part _ ih => exact .again part ih

end Stoppable

section Outcomes

variable {p q : Behavior}

theorem Stays.seq_left (hp : p.Stays) (q : Behavior) : (p.seq q).Stays := by
  rintro t (⟨_, ends⟩ | ⟨part, _⟩)
  · exact ends rfl
  · exact hp _ part

theorem Stays.seq_right (p : Behavior) (hq : q.Stays) : (p.seq q).Stays := by
  rintro t (⟨_, ends⟩ | ⟨_, rest⟩)
  · exact ends rfl
  · exact hq _ rest

theorem stays_leave {o : Outcome} (ho : o ≠ .completed) : (leave o).Stays := by
  rintro t (_ | _)
  exact ho rfl

theorem jumpless_emit (es : List Emission) : (emit es).Jumpless := by
  rintro t kind (_ | _)

theorem Jumpless.seq (hp : p.Jumpless) (hq : q.Jumpless) : (p.seq q).Jumpless := by
  rintro t kind (⟨part, _⟩ | ⟨_, rest⟩)
  · exact hp _ _ part
  · exact hq _ _ rest

theorem jumpless_leave {o : Outcome} (ho : ∀ kind, o ≠ .jumped kind) : (leave o).Jumpless := by
  rintro t kind (_ | _)
  exact ho kind rfl

/-- In a round, `continue` is taken by the loop. -/
theorem not_round_jumped_continueLoop (cond : Node) (p : Behavior) {step : Behavior}
    (hstep : step.Jumpless) (t : List Emission) :
    ¬ round cond p step t (.jumped .continueLoop) := by
  rintro (⟨part, _⟩ | ⟨_, ⟨part, _⟩ | ⟨_, rest⟩⟩)
  · exact jumpless_emit _ _ _ part
  · generalize ho : Outcome.jumped .continueLoop = o at part
    obtain ⟨part⟩ := part
    rename_i o'
    cases o' with
    | jumped kind => cases kind <;> simp [Outcome.resume] at ho
    | _ => simp [Outcome.resume] at ho
  · exact hstep _ _ rest

/-- A loop takes both jumps. -/
theorem jumpless_loop {cond : Node} (hp : ∀ t, ¬ p t (.jumped .continueLoop)) :
    (loop cond p).Jumpless := by
  intro t kind h
  generalize ho : Outcome.jumped kind = o at h
  induction h with
  | leave part => exact jumpless_emit _ _ _ (ho ▸ part)
  | @last _ o' part _ =>
    cases o' with
    | jumped kind =>
      cases kind with
      | breakLoop => simp [Outcome.leaveLoop] at ho
      | continueLoop => exact hp _ part
    | _ => simp [Outcome.leaveLoop] at ho
  | again _ _ ih => exact ih ho

end Outcomes

end Behavior

namespace Node

mutual

/-- The structured reading of a tree. -/
def reads : Node → Behavior
  | function decl body => (Behavior.run decl.functionParams).seq body.reads
  | compound items => readsAll items
  | branch cond onTrue onFalse =>
    ((Behavior.test cond 0).seq onTrue.reads).either
      ((Behavior.test cond 1).seq (readsOptional onFalse))
  | whileLoop cond body => .loop cond (.round cond body.reads (.run []))
  | forLoop init cond step body =>
    (Behavior.run init.statements).seq
      (.loop (cond.getD (int 1)) (.round (cond.getD (int 1)) body.reads (.run step.toList)))
  | ret value => (Behavior.run [ret value]).seq (.leave .returned)
  | jump kind => .leave (.jumped kind)
  | node => .run [node]

/-- The reading of statements one after another. -/
def readsAll : List Node → Behavior
  | [] => .run []
  | item :: rest => item.reads.seq (readsAll rest)

/-- The reading of a branch, which is empty if the branch is absent. -/
def readsOptional : Option Node → Behavior
  | none => .run []
  | some node => node.reads

end

open Behavior

mutual

/-- Every reading may be stopped at its end. -/
theorem stoppable_reads : ∀ node : Node, node.reads.Stoppable
  | function _ body => by
    rw [reads]
    exact (stoppable_emit _).seq (stoppable_reads body)
  | compound items => by
    rw [reads]
    exact stoppable_readsAll items
  | branch _ onTrue onFalse => by
    rw [reads]
    exact ((stoppable_emit _).seq (stoppable_reads onTrue)).either
      ((stoppable_emit _).seq (stoppable_readsOptional onFalse))
  | whileLoop _ body => by
    rw [reads]
    exact ((stoppable_reads body).round _ (stoppable_emit _)).loop _
  | forLoop _ _ _ body => by
    rw [reads]
    exact (stoppable_emit _).seq (((stoppable_reads body).round _ (stoppable_emit _)).loop _)
  | ret _ => by
    rw [reads]
    exact (stoppable_emit _).seq (stoppable_leave _)
  | jump _ => by
    rw [reads]
    exact stoppable_leave _
  | declarator .. | parameters .. | declaration .. | binary .. | unary .. | assignment ..
  | ident .. | constant .. | call .. => by
    simp only [reads]
    exact stoppable_emit _

private theorem stoppable_readsAll : ∀ items : List Node, (readsAll items).Stoppable
  | [] => by
    rw [readsAll]
    exact stoppable_emit _
  | item :: rest => by
    rw [readsAll]
    exact (stoppable_reads item).seq (stoppable_readsAll rest)

private theorem stoppable_readsOptional : ∀ node : Option Node, (readsOptional node).Stoppable
  | none => by
    rw [readsOptional]
    exact stoppable_emit _
  | some node => by
    rw [readsOptional]
    exact stoppable_reads node

end

mutual

/-- A statement that does not complete is not read to its end. -/
theorem stays_reads : ∀ node : Node, node.completes = false → node.reads.Stays
  | function _ body, h => by
    rw [completes] at h
    rw [reads]
    exact (stays_reads body h).seq_right _
  | compound items, h => by
    rw [completes] at h
    rw [reads]
    exact stays_readsAll items h
  | branch _ onTrue onFalse, h => by
    rw [completes, Bool.or_eq_false_iff] at h
    rw [reads]
    rintro t (part | part)
    · exact (stays_reads onTrue h.1).seq_right _ _ part
    · exact (stays_readsOptional onFalse h.2).seq_right _ _ part
  | ret _, _ => by
    rw [reads]
    exact (stays_leave (by decide)).seq_right _
  | jump _, _ => by
    rw [reads]
    exact stays_leave (by simp)
  | whileLoop .., h | forLoop .., h | declarator .., h | parameters .., h | declaration .., h
  | binary .., h | unary .., h | assignment .., h | ident .., h | constant .., h | call .., h => by
    simp [completes] at h

private theorem stays_readsAll : ∀ items : List Node, completesAll items = false →
    (readsAll items).Stays
  | [], h => by simp [completesAll] at h
  | item :: rest, h => by
    rw [completesAll, Bool.and_eq_false_iff] at h
    rw [readsAll]
    cases h with
    | inl hitem => exact (stays_reads item hitem).seq_left _
    | inr hrest => exact (stays_readsAll rest hrest).seq_right _

private theorem stays_readsOptional : ∀ node : Option Node, completesOptional node = false →
    (readsOptional node).Stays
  | none, h => by simp [completesOptional] at h
  | some node, h => by
    rw [completesOptional] at h
    rw [readsOptional]
    exact stays_reads node h

end

/-- What a sequence of two steps that succeeds consists of. -/
theorem ok_of_bind {σ α β : Type} {x : EStateM Error σ α} {f : α → EStateM Error σ β}
    {s s' : σ} {b : β} (h : (x >>= f) s = .ok b s') :
    ∃ a s₁, x s = .ok a s₁ ∧ f a s₁ = .ok b s' := by
  change (x >>= f).run s = _ at h
  rw [EStateM.run_bind] at h
  cases hx : x.run s with
  | ok a s₁ =>
    rw [hx] at h
    exact ⟨a, s₁, hx, h⟩
  | error e s₁ =>
    rw [hx] at h
    cases h

mutual

/-- No jump leaves a tree whose survey outside of every loop succeeds. -/
theorem jumpless_reads_of_survey {s : Survey} : ∀ (node : Node) {depth : Nat} {log log' : Log},
    node.survey s false depth log = .ok () log' → node.reads.Jumpless
  | function _ body, depth, log, log', h => by
    rw [survey] at h
    split at h
    · cases h
    · rw [reads]
      exact (jumpless_emit _).seq (jumpless_reads_of_survey body h)
  | compound items, depth, log, log', h => by
    rw [survey] at h
    split at h
    · cases h
    · rw [reads]
      exact jumpless_readsAll_of_survey items h
  | branch _ onTrue onFalse, depth, log, log', h => by
    rw [survey] at h
    split at h
    · cases h
    · obtain ⟨_, _, hyes, hno⟩ := ok_of_bind h
      rw [reads]
      rintro t kind (part | part)
      · exact (jumpless_emit _).seq (jumpless_reads_of_survey onTrue hyes) _ _ part
      · exact (jumpless_emit _).seq (jumpless_readsOptional_of_survey onFalse hno) _ _ part
  | whileLoop cond body, _, _, _, _ => by
    rw [reads]
    exact jumpless_loop (not_round_jumped_continueLoop _ _ (jumpless_emit _))
  | forLoop _ cond step body, _, _, _, _ => by
    rw [reads]
    exact (jumpless_emit _).seq
      (jumpless_loop (not_round_jumped_continueLoop _ _ (jumpless_emit _)))
  | ret _, _, _, _, _ => by
    rw [reads]
    exact (jumpless_emit _).seq (jumpless_leave (by simp))
  | jump _, depth, log, log', h => by
    rw [survey] at h
    split at h <;> cases h
  | declarator .., _, _, _, _ | parameters .., _, _, _, _ | declaration .., _, _, _, _
  | binary .., _, _, _, _ | unary .., _, _, _, _ | assignment .., _, _, _, _
  | ident .., _, _, _, _ | constant .., _, _, _, _ | call .., _, _, _, _ => by
    simp only [reads]
    exact jumpless_emit _

private theorem jumpless_readsAll_of_survey {s : Survey} : ∀ (items : List Node) {depth : Nat}
    {running : Bool} {log log' : Log}, surveyItems s false depth running items log = .ok () log' →
    (readsAll items).Jumpless
  | [], _, _, _, _, _ => by
    rw [readsAll]
    exact jumpless_emit _
  | item :: rest, depth, running, log, log', h => by
    rw [surveyItems] at h
    obtain ⟨_, _, hitem, h⟩ := ok_of_bind h
    obtain ⟨_, _, _, hrest⟩ := ok_of_bind h
    rw [readsAll]
    exact (jumpless_reads_of_survey item hitem).seq (jumpless_readsAll_of_survey rest hrest)

private theorem jumpless_readsOptional_of_survey {s : Survey} : ∀ (node : Option Node) {depth : Nat}
    {log log' : Log}, surveyOptional s false depth node log = .ok () log' →
    (readsOptional node).Jumpless
  | none, _, _, _, _ => by
    rw [readsOptional]
    exact jumpless_emit _
  | some node, depth, log, log', h => by
    rw [surveyOptional] at h
    rw [readsOptional]
    exact jumpless_reads_of_survey node h

end

end Node

end FlowGraph
