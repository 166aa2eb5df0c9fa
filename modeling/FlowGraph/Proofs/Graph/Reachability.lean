import FlowGraph.Graph.Basic
import Mathlib.Logic.Relation
import Mathlib.Tactic.Common

/-!
# Reachable blocks

The depth-first order from a node lists exactly the nodes to which edges lead from there. Whatever
is listed was reached over edges, and what is listed together with what was seen before is closed
under edges.

## Main definitions

* `Traversal.Step`: an edge that is followed
* `Graph.Reaches`: edges lead from one block to another

## Main results

* `Traversal.mem_preorder_iff`, `Graph.mem_reachable_iff`: the order lists what is reached
-/

namespace FlowGraph

namespace Traversal

variable {bound : Nat} {next : Nat → List Nat}

/-- An edge that is followed: its target is in range. -/
def Step (bound : Nat) (next : Nat → List Nat) (i j : Nat) : Prop :=
  j ∈ next i ∧ j < bound

theorem mem_insert_iff {seen : Std.TreeSet Nat} {i j : Nat} :
    j ∈ seen.insert i ↔ j = i ∨ j ∈ seen := by
  rw [Std.TreeSet.mem_insert, Nat.compare_eq_eq, eq_comm]

theorem mem_singleton_iff {i j : Nat} : j ∈ ({i} : Std.TreeSet Nat) ↔ j = i := by
  change j ∈ (∅ : Std.TreeSet Nat).insert i ↔ j = i
  rw [mem_insert_iff]
  exact or_iff_left Std.TreeSet.not_mem_emptyc

/-- What is listed is reached from the stack. -/
theorem reaches_of_mem_preorderFrom {stack : List Nat} {seen : Std.TreeSet Nat} {i : Nat}
    (h : i ∈ preorderFrom bound next stack seen) :
    ∃ s ∈ stack, s < bound ∧ Relation.ReflTransGen (Step bound next) s i := by
  fun_induction preorderFrom bound next stack seen with
  | case1 => cases h
  | case2 seen node rest hnew ih =>
    rcases List.mem_cons.1 h with rfl | h
    · exact ⟨i, List.mem_cons_self, hnew.1, .refl⟩
    · obtain ⟨s, hs, hbound, hpath⟩ := ih h
      rcases List.mem_append.1 hs with hs | hs
      · exact ⟨node, List.mem_cons_self, hnew.1, hpath.head ⟨hs, hbound⟩⟩
      · exact ⟨s, List.mem_cons_of_mem node hs, hbound, hpath⟩
  | case3 seen node rest _ ih =>
    obtain ⟨s, hs, hpath⟩ := ih h
    exact ⟨s, List.mem_cons_of_mem node hs, hpath⟩

/-- What is on the stack is listed unless it was seen before, and so are the targets of what is
listed. -/
theorem preorderFrom_closed (bound : Nat) (next : Nat → List Nat) (stack : List Nat)
    (seen : Std.TreeSet Nat) :
    (∀ s ∈ stack, s < bound → s ∈ seen ∨ s ∈ preorderFrom bound next stack seen) ∧
      ∀ i ∈ preorderFrom bound next stack seen, ∀ j, Step bound next i j →
        j ∈ seen ∨ j ∈ preorderFrom bound next stack seen := by
  fun_induction preorderFrom bound next stack seen with
  | case1 => simp
  | case2 seen node rest hnew ih =>
    obtain ⟨hstack, hedges⟩ := ih
    -- The node itself counts as seen for all that comes after it.
    have hseen {j : Nat} (h : j ∈ seen.insert node ∨
        j ∈ preorderFrom bound next (next node ++ rest) (seen.insert node)) :
        j ∈ seen ∨ j ∈ node :: preorderFrom bound next (next node ++ rest) (seen.insert node) := by
      rcases h with h | h
      · rcases mem_insert_iff.1 h with rfl | h
        · exact .inr List.mem_cons_self
        · exact .inl h
      · exact .inr (List.mem_cons_of_mem node h)
    refine ⟨fun s hs hbound => ?_, fun i hi j hstep => ?_⟩
    · rcases List.mem_cons.1 hs with rfl | hs
      · exact .inr List.mem_cons_self
      · exact hseen (hstack s (List.mem_append_right _ hs) hbound)
    · rcases List.mem_cons.1 hi with rfl | hi
      · exact hseen (hstack j (List.mem_append_left _ hstep.1) hstep.2)
      · exact hseen (hedges i hi j hstep)
  | case3 seen node rest hold ih =>
    obtain ⟨hstack, hedges⟩ := ih
    refine ⟨fun s hs hbound => ?_, hedges⟩
    rcases List.mem_cons.1 hs with rfl | hs
    · exact .inl (Decidable.by_contra fun h => hold ⟨hbound, h⟩)
    · exact hstack s hs hbound

/-- The depth-first order lists no node twice, and none that was seen before. -/
theorem nodup_preorderFrom (bound : Nat) (next : Nat → List Nat) (stack : List Nat)
    (seen : Std.TreeSet Nat) :
    (preorderFrom bound next stack seen).Nodup ∧
      ∀ i ∈ preorderFrom bound next stack seen, i ∉ seen := by
  fun_induction preorderFrom bound next stack seen with
  | case1 => simp
  | case2 seen node rest hnew ih =>
    obtain ⟨hnodup, hfresh⟩ := ih
    refine ⟨List.nodup_cons.2 ⟨fun hmem => hfresh node hmem (mem_insert_iff.2 (.inl rfl)), hnodup⟩,
      List.forall_mem_cons.2 ⟨hnew.2, fun i hi hseen => ?_⟩⟩
    exact hfresh i hi (mem_insert_iff.2 (.inr hseen))
  | case3 seen node rest _ ih => exact ih

/-- The depth-first order lists what its start leads to. -/
theorem mem_preorder_iff {start i : Nat} :
    i ∈ preorder bound next start ↔
      start < bound ∧ Relation.ReflTransGen (Step bound next) start i := by
  constructor
  · intro h
    obtain ⟨s, hs, hbound, hpath⟩ := reaches_of_mem_preorderFrom h
    obtain rfl := List.mem_singleton.1 hs
    exact ⟨hbound, hpath⟩
  · rintro ⟨hbound, hpath⟩
    have hclosed := preorderFrom_closed bound next [start] ∅
    have hempty (j : Nat) : j ∉ (∅ : Std.TreeSet Nat) := Std.TreeSet.not_mem_emptyc
    induction hpath with
    | refl => exact (hclosed.1 start List.mem_cons_self hbound).resolve_left (hempty start)
    | tail _ hstep ih => exact (hclosed.2 _ ih _ hstep).resolve_left (hempty _)

end Traversal

namespace Graph

variable {g : Graph} {i j : BlockId}

/-- Edges between existing blocks lead from one block to another. -/
def Reaches (g : Graph) : BlockId → BlockId → Prop :=
  Relation.ReflTransGen (Traversal.Step g.size g.successors)

theorem mem_reachable_iff : i ∈ g.reachable ↔ g.entry < g.size ∧ g.Reaches g.entry i :=
  Traversal.mem_preorder_iff

theorem nodup_reachable (g : Graph) : g.reachable.Nodup :=
  (Traversal.nodup_preorderFrom ..).1

/-- An edge from a reachable block leads to a reachable block. -/
theorem mem_reachable_of_mem_successors (hi : i ∈ g.reachable) (hj : j ∈ g.successors i)
    (hbound : j < g.size) : j ∈ g.reachable := by
  obtain ⟨hentry, hpath⟩ := mem_reachable_iff.1 hi
  exact mem_reachable_iff.2 ⟨hentry, hpath.tail ⟨hj, hbound⟩⟩

/-- A reachable block is the entry or behind a reachable block. -/
theorem exists_reachable_predecessor (hi : i ∈ g.reachable) (hne : i ≠ g.entry) :
    ∃ p ∈ g.reachable, i ∈ g.successors p := by
  obtain ⟨hsize, hpath⟩ := mem_reachable_iff.1 hi
  rcases hpath.cases_tail with heq | ⟨p, path, step⟩
  · exact absurd heq hne
  · exact ⟨p, mem_reachable_iff.2 ⟨hsize, path⟩, step.1⟩

/-- What is collected from the reachable blocks is found in one of them. -/
theorem mem_flatMap_reachableBlocks_iff {α : Type} {f : Block → List α} {x : α} :
    x ∈ g.reachableBlocks.flatMap f ↔ ∃ i ∈ g.reachable, ∃ b, g.block? i = some b ∧ x ∈ f b := by
  rw [reachableBlocks, List.mem_flatMap]
  constructor
  · rintro ⟨b, hb, hx⟩
    obtain ⟨i, hi, hb⟩ := List.mem_filterMap.1 hb
    exact ⟨i, hi, b, hb, hx⟩
  · rintro ⟨i, hi, b, hb, hx⟩
    exact ⟨b, List.mem_filterMap.2 ⟨i, hi, hb⟩, hx⟩

end Graph

end FlowGraph
