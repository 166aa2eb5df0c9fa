import FlowGraph.Proofs.Graph.Reachability

/-!
# Depth-first order by recursion and by an iterator

The depth-first order is the recursive pre-order: list a node, then what its successors lead to, one
after the other, and skip what was visited before. An iterator comes to the same order one node at a
time. It looks at a successor twice, once when it goes on the stack and once when it leaves it, and
in between the successor may become stale, because the search has come to it over another edge. So
its stack is the one of the order without some entries that are stale by now.

## Main definitions

* `Traversal.list`, `Traversal.listEach`: the pre-order of one node, and of several, by recursion
* `Traversal.Search`: the state of the iterator
* `Traversal.Search.next?`: the node that the iterator comes to next
* `Traversal.Search.Yields`: what the iterator comes to until it ends
* `Traversal.Thins`: one stack is another one without some stale entries

## Main results

* `Traversal.preorderFrom_append`: the order from a stack lists its upper part by recursion first
* `Traversal.yields_of_thins`: the iterator yields the order from a stack with more stale entries
* `Traversal.preorder_eq_recursive`: the order is the recursive one, the iterator yields it, and it
  lists each node that the start leads to once
-/

namespace FlowGraph.Traversal

variable {bound : Nat} {next : Nat → List Nat}

/-! ### The recursive pre-order -/

/-- What a call lists, and what is visited when it ends. -/
structure Listing (bound : Nat) (seen : Std.TreeSet Nat) where
  nodes : List Nat
  visited : Std.TreeSet Nat
  unvisited_le : unvisited bound visited ≤ unvisited bound seen

mutual

/-- The pre-order of a node: the node, then what its successors lead to. It is empty if the node was
visited before or is out of range. -/
def list (bound : Nat) (next : Nat → List Nat) (node : Nat) (seen : Std.TreeSet Nat) :
    Listing bound seen :=
  if new : node < bound ∧ node ∉ seen then
    have lower := unvisited_insert_lt new.1 new.2
    let below := listEach bound next (next node) (seen.insert node)
    ⟨node :: below.nodes, below.visited, Nat.le_trans below.unvisited_le (Nat.le_of_lt lower)⟩
  else
    ⟨[], seen, Nat.le_refl _⟩
termination_by (unvisited bound seen, 0)
decreasing_by exact Prod.Lex.left _ _ lower

/-- The pre-orders of some nodes, one after the other. -/
def listEach (bound : Nat) (next : Nat → List Nat) (nodes : List Nat) (seen : Std.TreeSet Nat) :
    Listing bound seen :=
  match nodes with
  | [] => ⟨[], seen, Nat.le_refl _⟩
  | node :: rest =>
    let first := list bound next node seen
    let others := listEach bound next rest first.visited
    ⟨first.nodes ++ others.nodes, others.visited,
      Nat.le_trans others.unvisited_le first.unvisited_le⟩
termination_by (unvisited bound seen, nodes.length)
decreasing_by
  · exact Prod.Lex.right _ (Nat.zero_lt_succ _)
  · exact Prod.Lex.right' _ first.unvisited_le (Nat.lt_succ_self _)

end

mutual

/-- A node on top of a stack is listed by recursion before the rest of the stack. -/
theorem preorderFrom_cons (bound : Nat) (next : Nat → List Nat) (node : Nat) (rest : List Nat)
    (seen : Std.TreeSet Nat) :
    preorderFrom bound next (node :: rest) seen = (list bound next node seen).nodes ++
      preorderFrom bound next rest (list bound next node seen).visited := by
  rw [preorderFrom, list]
  by_cases new : node < bound ∧ node ∉ seen
  · have lower := unvisited_insert_lt new.1 new.2
    rw [dif_pos new, dif_pos new, preorderFrom_append bound next (next node) rest]
    rfl
  · rw [dif_neg new, dif_neg new]
    rfl
termination_by (unvisited bound seen, 0)
decreasing_by exact Prod.Lex.left _ _ lower

/-- The upper part of a stack is listed by recursion before the rest of the stack. -/
theorem preorderFrom_append (bound : Nat) (next : Nat → List Nat) (nodes rest : List Nat)
    (seen : Std.TreeSet Nat) :
    preorderFrom bound next (nodes ++ rest) seen = (listEach bound next nodes seen).nodes ++
      preorderFrom bound next rest (listEach bound next nodes seen).visited := by
  match nodes with
  | [] =>
    rw [listEach]
    rfl
  | node :: others =>
    have ih := preorderFrom_append bound next others rest (list bound next node seen).visited
    rw [List.cons_append, preorderFrom_cons bound next node (others ++ rest) seen, ih, listEach,
      List.append_assoc]
termination_by (unvisited bound seen, nodes.length)
decreasing_by
  · exact Prod.Lex.right' _ (list bound next node seen).unvisited_le (Nat.lt_succ_self _)
  · exact Prod.Lex.right _ (Nat.zero_lt_succ _)

end

theorem preorder_eq_list (bound : Nat) (next : Nat → List Nat) (start : Nat) :
    preorder bound next start = (list bound next start ∅).nodes := by
  rw [preorder, preorderFrom_cons, preorderFrom, List.append_nil]

/-! ### The iterator -/

/-- Where the iterator is: what it still has to look at, and for each node whether it came to it. -/
structure Search where
  stack : List Nat
  visited : List Bool
  inRange : ∀ i ∈ stack, i < visited.length

namespace Search

/-- The iterator before its first node. It is empty if the start is out of range. -/
def start (bound start : Nat) : Search :=
  if h : start < bound then
    ⟨[start], List.replicate bound false, by simpa using h⟩
  else
    ⟨[], [], by simp⟩

/-- The node that the iterator comes to next, and where it is then. Entries that were visited since
they went on the stack are dropped. Of the successors of the node only those go on the stack that
are in range and not visited. -/
def next? (next : Nat → List Nat) (visited : List Bool) :
    (stack : List Nat) → (∀ i ∈ stack, i < visited.length) → Option (Nat × Search)
  | [], _ => none
  | node :: rest, inRange =>
    have _ := inRange node List.mem_cons_self
    if visited[node] then
      next? next visited rest fun i hi => inRange i (List.mem_cons_of_mem node hi)
    else
      let marked := visited.set node true
      some (node, {
        stack := (next node).filter (fun i => marked[i]? == some false) ++ rest
        visited := marked
        inRange := by
          intro i hi
          rcases List.mem_append.1 hi with hi | hi
          · have hfresh := eq_of_beq (List.mem_filter.1 hi).2
            exact (List.getElem?_eq_some_iff.1 hfresh).1
          · rw [List.length_set]
            exact inRange i (List.mem_cons_of_mem node hi) })

/-- What the iterator comes to until it ends. -/
inductive Yields (next : Nat → List Nat) : Search → List Nat → Prop
  | done {s : Search} (h : next? next s.visited s.stack s.inRange = none) : Yields next s []
  | node {s s' : Search} {i : Nat} {nodes : List Nat}
      (h : next? next s.visited s.stack s.inRange = some (i, s')) (rest : Yields next s' nodes) :
      Yields next s (i :: nodes)

theorem Yields.unique {s : Search} {nodes nodes' : List Nat} (h : s.Yields next nodes)
    (h' : s.Yields next nodes') : nodes = nodes' := by
  induction h generalizing nodes' with
  | done h =>
    cases h' with
    | done => rfl
    | node h' => cases h.symm.trans h'
  | node h _ ih =>
    cases h' with
    | done h' => cases h.symm.trans h'
    | node h' rest' =>
      obtain ⟨rfl, rfl⟩ := Prod.mk.inj (Option.some.inj (h.symm.trans h'))
      rw [ih rest']

/-- What comes after a visited entry is what comes after the entries below it. -/
theorem Yields.cons_of_visited {visited : List Bool} {node : Nat} {rest nodes : List Nat}
    {inRange : ∀ i ∈ node :: rest, i < visited.length} (hvisited : visited[node]? = some true)
    (h : Yields next ⟨rest, visited, fun i hi => inRange i (List.mem_cons_of_mem node hi)⟩ nodes) :
    Yields next ⟨node :: rest, visited, inRange⟩ nodes := by
  have hnext : next? next visited (node :: rest) inRange = next? next visited rest
      fun i hi => inRange i (List.mem_cons_of_mem node hi) := by
    rw [next?, if_pos (List.getElem?_eq_some_iff.1 hvisited).2]
  cases h with
  | done h => exact .done (hnext.trans h)
  | node h rest => exact .node (hnext.trans h) rest

end Search

/-! ### Stale entries -/

/-- The second stack is the first one without some of its entries that are `stale`. -/
inductive Thins (stale : Nat → Prop) : List Nat → List Nat → Prop
  | nil : Thins stale [] []
  | keep {stack stack' : List Nat} (i : Nat) (h : Thins stale stack stack') :
      Thins stale (i :: stack) (i :: stack')
  | drop {stack stack' : List Nat} {i : Nat} (hstale : stale i) (h : Thins stale stack stack') :
      Thins stale (i :: stack) stack'

namespace Thins

variable {stale stale' : Nat → Prop} {stack stack' : List Nat}

theorem refl (stale : Nat → Prop) (stack : List Nat) : Thins stale stack stack := by
  induction stack with
  | nil => exact .nil
  | cons i stack ih => exact .keep i ih

theorem mono (hstale : ∀ i, stale i → stale' i) (h : Thins stale stack stack') :
    Thins stale' stack stack' := by
  induction h with
  | nil => exact .nil
  | keep i _ ih => exact .keep i ih
  | drop hi _ ih => exact .drop (hstale _ hi) ih

/-- New entries on top may be thinned as well. -/
theorem filter_append {p : Nat → Bool} (hp : ∀ i, ¬p i → stale i) (top : List Nat)
    (h : Thins stale stack stack') : Thins stale (top ++ stack) (top.filter p ++ stack') := by
  induction top with
  | nil => exact h
  | cons i top ih =>
    by_cases hi : p i
    · rw [List.filter_cons_of_pos hi]
      exact .keep i ih
    · rw [List.filter_cons_of_neg hi]
      exact .drop (hp i hi) ih

end Thins

/-- The flags of an iterator say which of the nodes below a bound were visited. -/
structure Flags (bound : Nat) (seen : Std.TreeSet Nat) (visited : List Bool) : Prop where
  length_eq : visited.length = bound
  getElem?_eq : ∀ i < bound, visited[i]? = some (decide (i ∈ seen))

theorem flags_replicate (bound : Nat) : Flags bound ∅ (List.replicate bound false) where
  length_eq := List.length_replicate
  getElem?_eq := fun i hi => by simp [hi]

theorem Flags.set {seen : Std.TreeSet Nat} {visited : List Bool} {node : Nat}
    (h : Flags bound seen visited) (hnode : node < bound) :
    Flags bound (seen.insert node) (visited.set node true) where
  length_eq := by rw [List.length_set, h.length_eq]
  getElem?_eq := by
    intro i hi
    by_cases hne : node = i
    · subst hne
      simp [h.length_eq, hnode]
    · rw [List.getElem?_set_ne hne, h.getElem?_eq i hi]
      simp [hne]

/-- From a stack that keeps all entries but stale ones, the iterator yields the order from the whole
stack. -/
theorem yields_of_thins {stack : List Nat} {seen : Std.TreeSet Nat} {s : Search}
    (hthins : Thins (fun i => ¬(i < bound ∧ i ∉ seen)) stack s.stack)
    (hflags : Flags bound seen s.visited) : s.Yields next (preorderFrom bound next stack seen) := by
  obtain ⟨stack', visited, inRange⟩ := s
  fun_induction preorderFrom bound next stack seen generalizing stack' visited with
  | case1 =>
    cases hthins
    exact .done rfl
  | case2 seen node rest new ih =>
    cases hthins with
    | drop hstale => exact absurd new hstale
    | @keep _ rest' _ h =>
      have hvisited : visited[node]? = some false := by
        rw [hflags.getElem?_eq node new.1, decide_eq_false new.2]
      have hmarked := hflags.set new.1
      have hfalse : ¬visited.get ⟨node, inRange node List.mem_cons_self⟩ = true :=
        Bool.eq_false_iff.1 (List.getElem?_eq_some_iff.1 hvisited).2
      refine .node (by rw [Search.next?]; exact if_neg hfalse) (ih _ _ _ ?_ hmarked)
      have hold : ∀ i, ¬(i < bound ∧ i ∉ seen) → ¬(i < bound ∧ i ∉ seen.insert node) :=
        fun i hi hnew => hi ⟨hnew.1, fun hseen => hnew.2 (mem_insert_iff.2 (.inr hseen))⟩
      -- What was stale before is still stale, and what is not pushed is stale by now.
      refine .filter_append (fun i hi => ?_) _ (h.mono hold)
      rintro ⟨hin, hfresh⟩
      rw [hmarked.getElem?_eq i hin, decide_eq_false hfresh] at hi
      exact hi (beq_self_eq_true _)
  | case3 seen node rest hstale ih =>
    cases hthins with
    | drop _ h => exact ih _ _ _ h hflags
    | @keep _ rest' _ h =>
      have hin : node < bound := hflags.length_eq ▸ inRange node List.mem_cons_self
      have hseen : node ∈ seen := Decidable.by_contra fun hnot => hstale ⟨hin, hnot⟩
      have hvisited : visited[node]? = some true := by
        rw [hflags.getElem?_eq node hin, decide_eq_true hseen]
      exact .cons_of_visited hvisited (ih _ _ _ h hflags)

theorem preorder_of_not_lt {start : Nat} (h : ¬start < bound) : preorder bound next start = [] := by
  rw [preorder, preorderFrom, dif_neg fun hnew => h hnew.1, preorderFrom]

theorem yields_start (bound : Nat) (next : Nat → List Nat) (start : Nat) :
    (Search.start bound start).Yields next (preorder bound next start) := by
  by_cases h : start < bound
  · rw [Search.start, dif_pos h]
    exact yields_of_thins (.refl _ _) (flags_replicate bound)
  · rw [Search.start, dif_neg h, preorder_of_not_lt h]
    exact .done rfl

/-- The iterator yields the depth-first order and nothing else, this order is the recursive
pre-order, and it lists each node once to which edges within the range lead from the start. From a
start that is out of range it lists nothing. -/
theorem preorder_eq_recursive (bound : Nat) (next : Nat → List Nat) (start : Nat) :
    (∀ nodes, (Search.start bound start).Yields next nodes ↔ nodes = preorder bound next start) ∧
      preorder bound next start = (list bound next start ∅).nodes ∧
      (preorder bound next start).Nodup ∧
      (∀ i, i ∈ preorder bound next start ↔
        start < bound ∧ Relation.ReflTransGen (Step bound next) start i) ∧
      (¬start < bound → preorder bound next start = []) := by
  refine ⟨fun nodes => ⟨fun h => h.unique (yields_start bound next start), ?_⟩,
    preorder_eq_list bound next start, (nodup_preorderFrom ..).1, fun i => mem_preorder_iff,
    preorder_of_not_lt⟩
  rintro rfl
  exact yields_start bound next start

-- A node is listed over the edge on which the search comes to it first, here `2` below `1`.
example : preorder 4 (fun i => if i = 0 then [1, 2, 9] else if i = 1 then [2, 0] else [3, 3]) 0 =
    [0, 1, 2, 3] := by cbv

end FlowGraph.Traversal
