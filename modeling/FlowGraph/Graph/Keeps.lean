import FlowGraph.Graph.Edit

/-!
# What an edit keeps

An edit keeps a view of graphs when the view reads the same before and after it, whether it fails or
not. Sequences and loops keep what their steps keep.

## Main definitions

* `Edit.after`: the graph that an edit leaves behind
* `Edit.Keeps`: an edit does not change a view

## Main results

* `Edit.Keeps.bind`, `Edit.Keeps.forM`: sequences and loops
* `Edit.Keeps.update`: a change of one block
* `Edit.Keeps.of_run_eq_ok`: the view after an edit that succeeded
-/

namespace FlowGraph.Edit

variable {α β γ : Type}

/-- The graph that an edit leaves behind. -/
def after (x : Edit α) (g : Graph) : Graph :=
  match x.run g with
  | .ok _ h => h
  | .error _ h => h

theorem after_of_run_eq_ok {x : Edit α} {g h : Graph} {a : α} (hx : x.run g = .ok a h) :
    x.after g = h := by
  rw [after, hx]

theorem after_of_run_eq_error {x : Edit α} {g h : Graph} {e : Error} (hx : x.run g = .error e h) :
    x.after g = h := by
  rw [after, hx]

/-- An edit that leaves `view` as it was. -/
def Keeps (view : Graph → γ) (x : Edit α) : Prop :=
  ∀ g, view (x.after g) = view g

namespace Keeps

variable {view : Graph → γ}

theorem of_run_eq_ok {x : Edit α} (hx : Keeps view x) {g h : Graph} {a : α}
    (hrun : x.run g = .ok a h) : view h = view g := by
  rw [← hx g, after_of_run_eq_ok hrun]

theorem of_run_eq_error {x : Edit α} (hx : Keeps view x) {g h : Graph} {e : Error}
    (hrun : x.run g = .error e h) : view h = view g := by
  rw [← hx g, after_of_run_eq_error hrun]

theorem pure (a : α) : Keeps view (Pure.pure a : Edit α) :=
  fun _ => rfl

theorem change {f : Graph → Graph} (hf : ∀ g, view (f g) = view g) :
    Keeps view (modify f : Edit Unit) :=
  hf

theorem bind {x : Edit α} {f : α → Edit β} (hx : Keeps view x) (hf : ∀ a, Keeps view (f a)) :
    Keeps view (x >>= f) := by
  intro g
  unfold after
  rw [EStateM.run_bind]
  cases hrun : x.run g with
  | error e h => exact hx.of_run_eq_error hrun
  | ok a h => exact (hf a h).trans (hx.of_run_eq_ok hrun)

theorem ask (question : Graph → Except Error α) : Keeps view (Edit.ask question) := by
  intro g
  unfold after
  rw [run_ask]
  cases question g <;> rfl

theorem block (id : BlockId) : Keeps view (Edit.block id) :=
  ask _

theorem update {id : BlockId} {f : Block → Block} (hf : ∀ g, view (g.modify id f) = view g) :
    Keeps view (Edit.update id f) :=
  bind (block id) fun _ => change hf

theorem forM {f : α → Edit PUnit} : ∀ {l : List α}, (∀ a ∈ l, Keeps view (f a)) →
    Keeps view (l.forM f)
  | [], _ => pure _
  | a :: l, h => by
    rw [List.forM]
    exact bind (h a List.mem_cons_self) fun _ => forM fun b hb => h b (List.mem_cons_of_mem _ hb)

end Keeps

end FlowGraph.Edit
