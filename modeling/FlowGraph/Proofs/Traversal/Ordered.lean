import FlowGraph.Proofs.Graph.Tree
import FlowGraph.Proofs.Traversal.Tracking
import Mathlib.Data.List.Basic

/-!
# Walks and the depth-first order

A walk whose frames list the edges of a graph enters the reachable blocks in depth-first order, each
over the edge from its parent on the depth-first tree. What a walk does may be told block by block
in that order.

## Main definitions

* `Walk.pending`: where the edges lead that a stack has yet to cross
* `Walk.Ordered`: a statement about the blocks entered so far, in order, that a walk keeps

## Main results

* `Walk.Ordered.exists_run`: such a walk succeeds and has entered the reachable blocks in order
-/

namespace FlowGraph.Walk

variable {σ φ : Type}

/-- Where the edges lead that the frames of a stack have yet to cross, in the order in which they
are crossed. -/
def pending (succ : φ → List BlockId) (stack : List (φ × Nat)) : List BlockId :=
  stack.flatMap fun top => (succ top.1).drop top.2

/-- A statement about the blocks that were entered, in order, and about the record and the state of
a walk through the graph `g`, that holds on. The slots of a frame are `succ`. -/
structure Ordered (w : Walk σ φ) (g : Graph) (succ : φ → List BlockId)
    (S : List BlockId → Record φ → σ → Prop) : Prop where
  slots : ∀ s frame, w.slots s frame = succ frame
  /-- The next edge out of a block is crossed. -/
  cross : ∀ {order r s i frame j}, S order r s → r.frame? i = some frame →
    (succ frame)[r.crossed i]? = some j → j ∈ g.reachable → S order (r.cross i) (w.cross frame j s)
  /-- A new block is entered over the edge from its parent. -/
  enter : ∀ {order r s i frame j}, S order r s → r.frame? i = some frame → g.parent? j = some i →
    r.frame? j = none → r.crossed j = 0 → j ∉ order → j ∈ g.reachable →
      ∃ child s', w.enter frame j s = .ok child s' ∧ succ child = g.successors j ∧
        S (order ++ [j]) (r.enter j child) s'

/-- The blocks of a record in the order in which they were entered. Those on the stack are among
them from the bottom to the top, and what the stack leads to is what is missing. -/
structure Record.Orders (g : Graph) (succ : φ → List BlockId) (r : Record φ)
    (stack : List (φ × Nat)) (seen : Std.TreeSet Nat) (ids order : List BlockId) : Prop where
  fits : r.Fits succ stack seen ids
  edges : ∀ {i frame}, r.frame? i = some frame → succ frame = g.successors i
  mem_iff : ∀ i, i ∈ order ↔ (r.frame? i).isSome
  sublist : ids.reverse.Sublist order
  missing : order ++ Traversal.preorderFrom g.size g.successors (pending succ stack) seen =
    g.reachable

namespace Record.Orders

variable {g : Graph} {succ : φ → List BlockId} {r : Record φ} {frame : φ} {slot : Nat}
  {stack rest : List (φ × Nat)} {seen : Std.TreeSet Nat} {ids order : List BlockId}
  {i j : BlockId}

theorem mem_reachable (h : r.Orders g succ stack seen ids order)
    (hframe : r.frame? i = some frame) : i ∈ g.reachable := by
  rw [← h.missing]
  exact List.mem_append_left _ ((h.mem_iff i).2 (Option.isSome_iff_exists.2 ⟨frame, hframe⟩))

/-- A block on top of the stack without further edges is left. -/
theorem leave (h : r.Orders g succ ((frame, slot) :: rest) seen ids order)
    (hnone : (succ frame)[slot]? = none) : r.Orders g succ rest seen ids.tail order where
  fits := h.fits.leave hnone
  edges := h.edges
  mem_iff := h.mem_iff
  sublist := by
    refine List.Sublist.trans ?_ h.sublist
    exact ids.tail_sublist.reverse
  missing := by
    rw [← h.missing, pending, pending, List.flatMap_cons,
      List.drop_eq_nil_of_le (List.getElem?_eq_none_iff.1 hnone), List.nil_append]

private theorem pending_cons (hj : (succ frame)[slot]? = some j) (rest : List (φ × Nat)) :
    pending succ ((frame, slot) :: rest) = j :: pending succ ((frame, slot + 1) :: rest) := by
  obtain ⟨hlt, hget⟩ := List.getElem?_eq_some_iff.1 hj
  rw [pending, pending, List.flatMap_cons, List.flatMap_cons, List.drop_eq_getElem_cons hlt, hget]
  rfl

/-- An edge to a block that was entered before is crossed. -/
theorem again (h : r.Orders g succ ((frame, slot) :: rest) seen ids order)
    (hj : (succ frame)[slot]? = some j) (hseen : j ∈ seen) :
    ∃ i, r.frame? i = some frame ∧ r.crossed i = slot ∧
      (r.cross i).Orders g succ ((frame, slot + 1) :: rest) seen ids order := by
  obtain ⟨i, hframe, hcrossed, hfits⟩ := h.fits.again hj hseen
  refine ⟨i, hframe, hcrossed, hfits, h.edges, h.mem_iff, h.sublist, ?_⟩
  rw [← h.missing, pending_cons hj, Traversal.preorderFrom_cons_of_seen hseen]

/-- A block that was entered and has an edge to a block that was not is on the stack. -/
theorem mem_ids (h : r.Orders g succ stack seen ids order) (hi : i ∈ order)
    (edge : j ∈ g.successors i) (hnew : r.frame? j = none) : i ∈ ids := by
  obtain ⟨frame, hframe⟩ := Option.isSome_iff_exists.1 ((h.mem_iff i).1 hi)
  by_contra hids
  -- Otherwise it is finished, and all blocks behind it were entered.
  have htarget : (r.frame? j).isSome := by
    apply h.fits.target hframe
    rw [h.fits.done hframe hids, List.take_length, h.edges hframe]
    exact edge
  rw [hnew] at htarget
  cases htarget

/-- The parent of a block that comes next is the block on top of the stack. -/
theorem parent?_eq {after : List BlockId} (h : r.Orders g succ stack seen ids order)
    (hhead : ids.head? = some i) (edge : j ∈ g.successors i) (hnew : r.frame? j = none)
    (horder : g.reachable = order ++ j :: after) : g.parent? j = some i := by
  obtain ⟨tail, rfl⟩ : ∃ tail, ids = i :: tail := ⟨ids.tail, List.eq_cons_of_mem_head? hhead⟩
  have hsublist := h.sublist
  rw [List.reverse_cons] at hsublist
  -- The blocks below the top were entered before it.
  obtain ⟨first, last, rfl, hfirst, hlast⟩ := List.append_sublist_iff.1 hsublist
  obtain ⟨before, between, rfl⟩ := List.append_of_mem (List.singleton_sublist.1 hlast)
  have hnodup : (first ++ (before ++ i :: between)).Nodup := by
    have hreachable := g.nodup_reachable
    rw [horder] at hreachable
    exact (List.nodup_append.1 hreachable).1
  rw [← List.append_assoc] at horder hnodup
  refine Graph.parent?_eq_of_order horder edge fun k hk hedge => ?_
  -- A block between with an edge to the new one would be on the stack, so it would come earlier.
  have hmem : k ∈ i :: tail := by
    refine h.mem_ids ?_ hedge hnew
    simp [hk]
  have hapart := (List.nodup_append.1 hnodup).2.2
  rcases List.mem_cons.1 hmem with rfl | htail
  · exact (List.nodup_cons.1 (List.nodup_append.1 hnodup).2.1).1 hk
  · have hearly : k ∈ first ++ before :=
      List.mem_append_left _ (hfirst.subset (List.mem_reverse.2 htail))
    exact hapart k hearly k (List.mem_cons_of_mem i hk) rfl

/-- An edge to a new block is crossed, and the block is entered. -/
theorem descend (hg : g.Closed) (h : r.Orders g succ ((frame, slot) :: rest) seen ids order)
    (hj : (succ frame)[slot]? = some j) (hseen : j ∉ seen) :
    ∃ i, r.frame? i = some frame ∧ r.crossed i = slot ∧ g.parent? j = some i ∧
      r.frame? j = none ∧ (r.cross i).crossed j = 0 ∧ j ∉ order ∧ j ∈ g.reachable ∧
      ∀ child, succ child = g.successors j → ((r.cross i).enter j child).Orders g succ
        ((child, 0) :: (frame, slot + 1) :: rest) (seen.insert j) (j :: ids) (order ++ [j]) := by
  obtain ⟨i, hhead, hframe, hcrossed, hnew, hzero, hentered⟩ := h.fits.descend hj hseen
  have edge : j ∈ g.successors i := h.edges hframe ▸ List.mem_of_getElem? hj
  have hreachable : j ∈ g.reachable := hg.mem_reachable (h.mem_reachable hframe) edge
  have hmissing := h.missing
  rw [pending_cons hj,
    Traversal.preorderFrom_cons_of_new (hg.edge (h.mem_reachable hframe) edge) hseen] at hmissing
  have hfresh : j ∉ order := by
    intro hmem
    have hsome := (h.mem_iff j).1 hmem
    rw [hnew] at hsome
    cases hsome
  refine ⟨i, hframe, hcrossed, h.parent?_eq hhead edge hnew hmissing.symm, hnew, hzero, hfresh,
    hreachable, fun child hchild => ⟨hentered child, ?_, ?_, ?_, ?_⟩⟩
  · intro k f hk
    rcases (r.cross i).of_frame?_enter child hk with ⟨rfl, rfl⟩ | ⟨-, hk⟩
    · exact hchild
    · exact h.edges hk
  · intro k
    rw [List.mem_append, List.mem_singleton, h.mem_iff]
    by_cases hkj : k = j
    · simp [hkj]
    · rw [(r.cross i).frame?_enter_of_ne child hkj]
      simp only [hkj, or_false]
      rfl
  · rw [List.reverse_cons]
    exact h.sublist.append_right [j]
  · have hpending : pending succ ((child, 0) :: (frame, slot + 1) :: rest) =
        g.successors j ++ pending succ ((frame, slot + 1) :: rest) := by
      rw [pending, List.flatMap_cons, List.drop_zero, hchild]
      rfl
    rw [hpending, List.append_assoc, List.singleton_append, hmissing]

/-- A walk starts with the entry. -/
theorem start (hg : g.Closed) (hframe : succ frame = g.successors g.entry) :
    (Record.start g.entry frame).Orders g succ [(frame, 0)] {g.entry} [g.entry] [g.entry] where
  fits := .start g.entry frame
  edges := by
    intro i f hi
    obtain ⟨rfl, rfl⟩ := eq_of_frame?_start frame hi
    exact hframe
  mem_iff := by
    intro i
    rw [List.mem_singleton]
    by_cases hi : i = g.entry
    · simp [hi]
    · simp [hi, frame?_start_of_ne frame hi]
  sublist := .refl _
  missing := by
    have hpending : pending succ [(frame, 0)] = g.successors g.entry ++ [] := by
      rw [pending, List.flatMap_cons, List.drop_zero, hframe]
      rfl
    rw [hpending]
    exact (Traversal.preorderFrom_cons_of_new hg.entry Std.TreeSet.not_mem_emptyc).symm

end Record.Orders

namespace Ordered

variable {w : Walk σ φ} {g : Graph} {succ : φ → List BlockId}
  {S : List BlockId → Record φ → σ → Prop}

/-- What is known of the order is an invariant of the walk. -/
theorem invariant (h : w.Ordered g succ S) (hg : g.Closed) :
    w.Invariant g.size fun stack seen s =>
      ∃ r ids order, r.Orders g succ stack seen ids order ∧ S order r s where
  inRange := by
    rintro frame slot rest seen s j ⟨r, ids, order, horders, hS⟩ hj
    obtain ⟨i, tail, -, -, hframe, -⟩ := horders.fits.exists_top
    rw [h.slots] at hj
    exact hg.edge (horders.mem_reachable hframe) (horders.edges hframe ▸ List.mem_of_getElem? hj)
  leave := by
    rintro frame slot rest seen s ⟨r, ids, order, horders, hS⟩ hnone
    rw [h.slots] at hnone
    exact ⟨r, ids.tail, order, horders.leave hnone, hS⟩
  again := by
    rintro frame slot rest seen s j ⟨r, ids, order, horders, hS⟩ hj hseen
    rw [h.slots] at hj
    obtain ⟨i, hframe, rfl, hcrossed⟩ := horders.again hj hseen
    have hreachable : j ∈ g.reachable :=
      hg.mem_reachable (horders.mem_reachable hframe)
        (horders.edges hframe ▸ List.mem_of_getElem? hj)
    exact ⟨r.cross i, ids, order, hcrossed, h.cross hS hframe hj hreachable⟩
  enter := by
    rintro frame slot rest seen s j ⟨r, ids, order, horders, hS⟩ hj hseen
    rw [h.slots] at hj
    obtain ⟨i, hframe, rfl, hparent, hnew, hzero, hfresh, hreachable, hentered⟩ :=
      horders.descend hg hj hseen
    obtain ⟨child, s', henter, hchild, hS'⟩ :=
      h.enter (h.cross hS hframe hj hreachable) hframe hparent hnew hzero hfresh hreachable
    exact ⟨child, s', henter, (r.cross i).enter j child, j :: ids, order ++ [j],
      hentered child hchild, hS'⟩

/-- A walk through a closed graph succeeds. It has entered the reachable blocks in depth-first
order then, and its record is complete. -/
theorem exists_run (h : w.Ordered g succ S) (hg : g.Closed) (root : φ) {frame : φ} {s s' : σ}
    (henter : w.enter root g.entry s = .ok frame s') (hframe : succ frame = g.successors g.entry)
    (hS : S [g.entry] (.start g.entry frame) s') :
    ∃ r t, w.run g.size root g.entry s = .ok () t ∧ S g.reachable r t ∧ r.Complete succ ∧
      (∀ i, i ∈ g.reachable ↔ (r.frame? i).isSome) ∧
        ∀ {i frame}, r.frame? i = some frame → succ frame = g.successors i := by
  obtain ⟨seen, t, hrun, r, ids, order, horders, hS⟩ := (h.invariant hg).exists_run hg.entry henter
    ⟨.start g.entry frame, [g.entry], [g.entry], .start hg hframe, hS⟩
  have hreachable : order = g.reachable := by
    rw [← horders.missing, pending, List.flatMap_nil, Traversal.preorderFrom, List.append_nil]
  subst hreachable
  exact ⟨r, t, hrun, hS, horders.fits.complete, horders.mem_iff, horders.edges⟩

end Ordered

end FlowGraph.Walk
