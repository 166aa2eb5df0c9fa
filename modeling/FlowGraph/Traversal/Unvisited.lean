import Std.Data.TreeSet

/-!
# Unvisited nodes

Every traversal of this library ends because each node below a bound is visited at most once. The
measure behind that is the number of nodes not visited so far.

## Main definitions

* `unvisited`: how many nodes below a bound lie outside of a set

## Main results

* `unvisited_insert_lt`: visiting a new node lowers the number
-/

namespace FlowGraph.Traversal

/-- The number of nodes below `bound` that are not in `seen`. -/
def unvisited (bound : Nat) (seen : Std.TreeSet Nat) : Nat :=
  (List.range bound).countP fun node => !seen.contains node

private theorem countP_lt_countP {p q : Nat → Bool} {l : List Nat} (hle : ∀ a ∈ l, p a → q a)
    {b : Nat} (hb : b ∈ l) (hp : p b = false) (hq : q b = true) : l.countP p < l.countP q := by
  induction l with
  | nil => simp at hb
  | cons a l ih =>
    have tail : l.countP p ≤ l.countP q :=
      List.countP_mono_left fun x hx => hle x (List.mem_cons_of_mem _ hx)
    rcases List.mem_cons.1 hb with rfl | hb
    · simp [hp, hq]
      omega
    · have ih := ih (fun x hx => hle x (List.mem_cons_of_mem _ hx)) hb
      have head : (if p a then 1 else 0) ≤ if q a then 1 else 0 := by
        by_cases hpa : p a
        · exact Nat.le_of_eq (by rw [if_pos hpa, if_pos (hle a List.mem_cons_self hpa)])
        · rw [if_neg hpa]
          exact Nat.zero_le _
      rw [List.countP_cons, List.countP_cons]
      exact Nat.add_lt_add_of_lt_of_le ih head

theorem unvisited_insert_lt {bound node : Nat} {seen : Std.TreeSet Nat} (hlt : node < bound)
    (hnew : node ∉ seen) : unvisited bound (seen.insert node) < unvisited bound seen := by
  have hnot : seen.contains node = false :=
    Bool.eq_false_iff.2 fun h => hnew (Std.TreeSet.mem_iff_contains.2 h)
  have hle : ∀ a ∈ List.range bound,
      (!(seen.insert node).contains a) = true → (!seen.contains a) = true := by
    intro a _ ha
    simp_all [Std.TreeSet.contains_insert]
  exact countP_lt_countP hle (List.mem_range.2 hlt) (by simp) (by simp [hnot])

end FlowGraph.Traversal
