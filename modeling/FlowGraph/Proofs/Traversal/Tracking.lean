import FlowGraph.Proofs.Graph.Path
import FlowGraph.Proofs.Traversal.Walk
import Mathlib.Logic.Function.Basic

/-!
# Walks whose frames list the slots

When a frame itself says which edges leave its block, a walk can be told without its stack: by the
frame of each block that was entered and by the number of its edges crossed so far. In the end every
edge of an entered block was crossed exactly once, and leads to an entered block.

## Main definitions

* `Walk.Record`: the frames of the entered blocks, and how many of their edges were crossed
* `Walk.Tracked`: a statement about record and state that crossing and entering keep
* `Walk.Record.Along`: a record of a walk along the edges of a graph
* `Walk.Recorded`: such a statement for walks that may fail

## Main results

* `Walk.Tracked.exists_run`: a tracked walk succeeds, and its record is complete
* `Walk.Recorded.of_run`: the record of a walk that has succeeded is complete
-/

namespace FlowGraph.Walk

variable {σ φ : Type}

/-- What has happened on a walk. -/
structure Record (φ : Type) where
  /-- The frame of each block that was entered. -/
  frame? : BlockId → Option φ
  /-- How many edges out of each block were crossed. -/
  crossed : BlockId → Nat

namespace Record

/-- One more edge out of a block was crossed. -/
def cross (r : Record φ) (i : BlockId) : Record φ :=
  { r with crossed := Function.update r.crossed i (r.crossed i + 1) }

/-- A block was entered. -/
def enter (r : Record φ) (i : BlockId) (frame : φ) : Record φ :=
  { r with frame? := Function.update r.frame? i (some frame) }

/-- Only one block was entered, and no edge was crossed. -/
def start (i : BlockId) (frame : φ) : Record φ :=
  { frame? := fun j => if j = i then some frame else none, crossed := fun _ => 0 }

variable (r : Record φ) {i j : BlockId} (frame : φ)

@[simp] theorem crossed_enter : (r.enter i frame).crossed = r.crossed := rfl

@[simp] theorem crossed_cross_self : (r.cross i).crossed i = r.crossed i + 1 :=
  Function.update_self ..

theorem crossed_cross_of_ne (h : j ≠ i) : (r.cross i).crossed j = r.crossed j :=
  Function.update_of_ne h ..

@[simp] theorem frame?_enter_self : (r.enter i frame).frame? i = some frame :=
  Function.update_self ..

theorem frame?_enter_of_ne (h : j ≠ i) : (r.enter i frame).frame? j = r.frame? j :=
  Function.update_of_ne h ..

/-- A block that was entered before is still entered when another one is. -/
theorem frame?_enter_of_eq_some {f : φ} (hnew : r.frame? i = none) (hj : r.frame? j = some f) :
    (r.enter i frame).frame? j = some f := by
  rw [frame?_enter_of_ne, hj]
  rintro rfl
  cases hnew.symm.trans hj

/-- A block that is entered after another one was entered is that one, or it was entered before. -/
theorem of_frame?_enter {f : φ} (h : (r.enter i frame).frame? j = some f) :
    j = i ∧ f = frame ∨ j ≠ i ∧ r.frame? j = some f := by
  by_cases hj : j = i
  · subst hj
    rw [frame?_enter_self] at h
    exact .inl ⟨rfl, (Option.some.inj h).symm⟩
  · rw [r.frame?_enter_of_ne frame hj] at h
    exact .inr ⟨hj, h⟩

/-- To start is to enter the first block when there is no record yet. -/
theorem start_eq_enter : start i frame = Record.enter ⟨fun _ => none, fun _ => 0⟩ i frame := by
  rw [start, Record.enter]
  congr 1
  funext k
  rw [Function.update_apply]

@[simp] theorem frame?_start_self : (start i frame).frame? i = some frame :=
  if_pos rfl

theorem frame?_start_of_ne (h : j ≠ i) : (start i frame).frame? j = none :=
  if_neg h

theorem eq_of_frame?_start {f : φ} (h : (start i frame).frame? j = some f) : j = i ∧ f = frame := by
  by_cases hj : j = i
  · subst hj
    rw [frame?_start_self] at h
    exact ⟨rfl, (Option.some.inj h).symm⟩
  · rw [frame?_start_of_ne frame hj] at h
    cases h

end Record

/-- A statement about the record and the state of a walk that holds on. The slots of a frame are
`succ`. -/
structure Tracked (w : Walk σ φ) (bound : Nat) (succ : φ → List BlockId)
    (S : Record φ → σ → Prop) : Prop where
  slots : ∀ s frame, w.slots s frame = succ frame
  /-- Edges lead to blocks in range. -/
  inRange : ∀ {r s i frame j}, S r s → r.frame? i = some frame → j ∈ succ frame → j < bound
  /-- The next edge out of a block is crossed. -/
  cross : ∀ {r s i frame j}, S r s → r.frame? i = some frame →
    (succ frame)[r.crossed i]? = some j → S (r.cross i) (w.cross frame j s)
  /-- A new block is entered over an edge that was crossed. -/
  enter : ∀ {r s i frame j}, S r s → r.frame? i = some frame → j ∈ succ frame →
    r.frame? j = none → r.crossed j = 0 →
      ∃ child s', w.enter frame j s = .ok child s' ∧ S (r.enter j child) s'

/-- A record that goes with a stack: blocks on the stack are in progress, and all edges out of other
entered blocks were crossed. -/
structure Record.Fits (succ : φ → List BlockId) (r : Record φ) (stack : List (φ × Nat))
    (seen : Std.TreeSet Nat) (ids : List BlockId) : Prop where
  nodup : ids.Nodup
  stack_eq : ids.map (fun i => (r.frame? i, r.crossed i)) = stack.map fun top => (some top.1, top.2)
  mem_seen : ∀ i, i ∈ seen ↔ (r.frame? i).isSome
  crossed_le : ∀ {i frame}, r.frame? i = some frame → r.crossed i ≤ (succ frame).length
  done : ∀ {i frame}, r.frame? i = some frame → i ∉ ids → r.crossed i = (succ frame).length
  fresh : ∀ {i}, r.frame? i = none → r.crossed i = 0
  target : ∀ {i frame j}, r.frame? i = some frame → j ∈ (succ frame).take (r.crossed i) →
    (r.frame? j).isSome

namespace Record.Fits

variable {succ : φ → List BlockId} {r : Record φ} {frame : φ} {slot : Nat}
  {stack rest : List (φ × Nat)} {seen : Std.TreeSet Nat} {ids : List BlockId} {i j : BlockId}

/-- The block on top of the stack. -/
theorem exists_top (h : r.Fits succ ((frame, slot) :: rest) seen ids) :
    ∃ i tail, ids = i :: tail ∧ i ∉ tail ∧ r.frame? i = some frame ∧ r.crossed i = slot ∧
      tail.map (fun i => (r.frame? i, r.crossed i)) = rest.map fun top => (some top.1, top.2) := by
  have heq := h.stack_eq
  cases ids with
  | nil => simp at heq
  | cons i tail =>
    simp only [List.map_cons, List.cons.injEq, Prod.mk.injEq] at heq
    exact ⟨i, tail, rfl, (List.nodup_cons.1 h.nodup).1, heq.1.1, heq.1.2, heq.2⟩

/-- A block is left when all its edges were crossed. -/
theorem leave (h : r.Fits succ ((frame, slot) :: rest) seen ids)
    (hnone : (succ frame)[slot]? = none) : r.Fits succ rest seen ids.tail := by
  obtain ⟨i, tail, rfl, -, hframe, hcrossed, hrest⟩ := h.exists_top
  refine ⟨(List.nodup_cons.1 h.nodup).2, hrest, h.mem_seen, h.crossed_le, ?_, h.fresh, h.target⟩
  -- Only the top block is finished now, all others off the stack were before.
  intro k f hk hmem
  by_cases hki : k = i
  · subst hki
    obtain rfl := Option.some.inj (hframe.symm.trans hk)
    have hle := List.getElem?_eq_none_iff.1 hnone
    exact Nat.le_antisymm (h.crossed_le hframe) (hcrossed ▸ hle)
  · rw [List.tail_cons] at hmem
    exact h.done hk (by simp [hki, hmem])

private theorem mem_take_succ {l : List BlockId} {n : Nat} {a b : BlockId} (hb : l[n]? = some b)
    (ha : a ∈ l.take (n + 1)) : a ∈ l.take n ∨ a = b := by
  rw [List.take_add_one, hb] at ha
  simpa using ha

/-- An edge out of a block on the stack is crossed, to a block that was entered. -/
theorem cross_to {stack' : List (φ × Nat)} (h : r.Fits succ stack seen ids) (hi : i ∈ ids)
    (hframe : r.frame? i = some frame) (hj : (succ frame)[r.crossed i]? = some j)
    (hseen : (r.frame? j).isSome)
    (hstack : ids.map (fun k => (r.frame? k, (r.cross i).crossed k)) =
      stack'.map fun top => (some top.1, top.2)) : (r.cross i).Fits succ stack' seen ids where
  nodup := h.nodup
  stack_eq := hstack
  mem_seen := h.mem_seen
  crossed_le := by
    intro k f hk
    by_cases hki : k = i
    · subst hki
      obtain rfl := Option.some.inj (hframe.symm.trans hk)
      rw [crossed_cross_self]
      exact (List.getElem?_eq_some_iff.1 hj).1
    · rw [r.crossed_cross_of_ne hki]
      exact h.crossed_le hk
  done := by
    intro k f hk hmem
    rw [r.crossed_cross_of_ne (by rintro rfl; exact hmem hi)]
    exact h.done hk hmem
  fresh := by
    intro k hk
    have hki : k ≠ i := by
      rintro rfl
      cases hframe.symm.trans hk
    rw [r.crossed_cross_of_ne hki]
    exact h.fresh hk
  -- The edges of other blocks are those crossed before, and this one leads to an entered block.
  target := by
    intro k f t hk ht
    by_cases hki : k = i
    · subst hki
      obtain rfl := Option.some.inj (hframe.symm.trans hk)
      rw [crossed_cross_self] at ht
      rcases mem_take_succ hj ht with ht | rfl
      · exact h.target hframe ht
      · exact hseen
    · rw [r.crossed_cross_of_ne hki] at ht
      exact h.target hk ht

/-- The stack after an edge out of its top block was crossed. -/
private theorem map_cross (hi : i ∉ ids) (hframe : r.frame? i = some frame)
    (hrest : ids.map (fun k => (r.frame? k, r.crossed k)) =
      rest.map fun top => (some top.1, top.2)) :
    (i :: ids).map (fun k => (r.frame? k, (r.cross i).crossed k)) =
      ((frame, r.crossed i + 1) :: rest).map fun top => (some top.1, top.2) := by
  rw [List.map_cons, List.map_cons, crossed_cross_self, hframe, ← hrest]
  refine congrArg _ (List.map_congr_left fun k hk => ?_)
  rw [r.crossed_cross_of_ne (ne_of_mem_of_not_mem hk hi)]

/-- A new block is entered. -/
theorem enter (h : r.Fits succ stack seen ids) (child : φ) (hnew : r.frame? j = none) :
    (r.enter j child).Fits succ ((child, 0) :: stack) (seen.insert j) (j :: ids) := by
  have hkeep {k : BlockId} {f : φ} (hk : r.frame? k = some f) :
      (r.enter j child).frame? k = some f :=
    r.frame?_enter_of_eq_some child hnew hk
  -- No block on the stack is new.
  have hids : j ∉ ids := by
    intro hj
    have hmem := List.mem_map_of_mem (f := fun i => (r.frame? i, r.crossed i)) hj
    rw [h.stack_eq, hnew] at hmem
    obtain ⟨top, -, htop⟩ := List.mem_map.1 hmem
    cases (Prod.mk.inj htop).1
  refine ⟨List.nodup_cons.2 ⟨hids, h.nodup⟩, ?_, ?_, ?_, ?_, ?_, ?_⟩
  · rw [List.map_cons, List.map_cons, ← h.stack_eq, frame?_enter_self, crossed_enter, h.fresh hnew]
    refine congrArg _ (List.map_congr_left fun k hk => ?_)
    rw [r.frame?_enter_of_ne child (ne_of_mem_of_not_mem hk hids)]
  · intro k
    rw [Traversal.mem_insert_iff, h.mem_seen]
    by_cases hkj : k = j
    · simp [hkj]
    · rw [r.frame?_enter_of_ne child hkj]
      simp [hkj]
  · intro k f hk
    rcases r.of_frame?_enter child hk with ⟨rfl, -⟩ | ⟨-, hk⟩
    · rw [crossed_enter, h.fresh hnew]
      exact Nat.zero_le _
    · exact h.crossed_le hk
  · intro k f hk hmem
    rcases r.of_frame?_enter child hk with ⟨rfl, -⟩ | ⟨-, hk⟩
    · exact absurd List.mem_cons_self hmem
    · exact h.done hk fun hk => hmem (List.mem_cons_of_mem j hk)
  · intro k hk
    by_cases hkj : k = j
    · rw [hkj, frame?_enter_self] at hk
      cases hk
    · exact h.fresh (r.frame?_enter_of_ne child hkj ▸ hk)
  · intro k f t hk ht
    have hold (htarget : (r.frame? t).isSome) : ((r.enter j child).frame? t).isSome := by
      obtain ⟨f, hf⟩ := Option.isSome_iff_exists.1 htarget
      rw [hkeep hf]
      rfl
    rcases r.of_frame?_enter child hk with ⟨rfl, -⟩ | ⟨-, hk⟩
    · rw [crossed_enter, h.fresh hnew] at ht
      cases ht
    · exact hold (h.target hk ht)

/-- The next edge of the top block is crossed, to a block that was seen before. -/
theorem again (h : r.Fits succ ((frame, slot) :: rest) seen ids) (hj : (succ frame)[slot]? = some j)
    (hseen : j ∈ seen) :
    ∃ i, r.frame? i = some frame ∧ r.crossed i = slot ∧
      (r.cross i).Fits succ ((frame, slot + 1) :: rest) seen ids := by
  obtain ⟨i, tail, rfl, hi, hframe, rfl, hrest⟩ := h.exists_top
  exact ⟨i, hframe, rfl, h.cross_to List.mem_cons_self hframe hj ((h.mem_seen j).1 hseen)
    (map_cross hi hframe hrest)⟩

/-- The next edge of the top block is crossed, and a new block is entered over it. -/
theorem descend (h : r.Fits succ ((frame, slot) :: rest) seen ids)
    (hj : (succ frame)[slot]? = some j) (hseen : j ∉ seen) :
    ∃ i, ids.head? = some i ∧ r.frame? i = some frame ∧ r.crossed i = slot ∧ r.frame? j = none ∧
      (r.cross i).crossed j = 0 ∧ ∀ child, ((r.cross i).enter j child).Fits succ
        ((child, 0) :: (frame, slot + 1) :: rest) (seen.insert j) (j :: ids) := by
  obtain ⟨i, tail, rfl, hi, hframe, rfl, hrest⟩ := h.exists_top
  have hnew : r.frame? j = none := by
    rw [h.mem_seen, Bool.not_eq_true, Option.isSome_eq_false_iff] at hseen
    exact Option.isNone_iff_eq_none.1 hseen
  have hij : i ≠ j := by
    rintro rfl
    cases hnew.symm.trans hframe
  have hcrossed : (r.cross i).crossed j = 0 := by
    rw [r.crossed_cross_of_ne hij.symm, h.fresh hnew]
  refine ⟨i, rfl, hframe, rfl, hnew, hcrossed, fun child => ?_⟩
  -- In the record the new block is entered first, so the edge leads to an entered block.
  change ((r.enter j child).cross i).Fits succ _ _ _
  have hentered := h.enter child hnew
  have hmoved := hentered.stack_eq
  rw [List.map_cons, List.map_cons] at hmoved
  refine hentered.cross_to (List.mem_cons_of_mem j List.mem_cons_self)
    (r.frame?_enter_of_eq_some child hnew hframe) hj (by simp) ?_
  have hstack := map_cross (r := r.enter j child) hi
    (r.frame?_enter_of_eq_some child hnew hframe) (List.cons.inj (List.cons.inj hmoved).2).2
  rw [List.map_cons, hstack, frame?_enter_self, crossed_cross_of_ne _ hij.symm, crossed_enter,
    h.fresh hnew]
  rfl

theorem start (i : BlockId) (frame : φ) :
    (Record.start i frame).Fits succ [(frame, 0)] {i} [i] where
  nodup := by simp
  stack_eq := by
    rw [List.map_singleton, List.map_singleton, frame?_start_self]
    rfl
  mem_seen := by
    intro k
    rw [Traversal.mem_singleton_iff]
    by_cases hk : k = i
    · simp [hk]
    · simp [hk, frame?_start_of_ne frame hk]
  crossed_le := fun _ => Nat.zero_le _
  done := by
    intro k f hk hmem
    exact absurd (List.mem_singleton.2 (eq_of_frame?_start frame hk).1) hmem
  fresh := fun _ => rfl
  target := by
    intro k f t _ ht
    cases ht

end Record.Fits

/-- A record in which every edge of an entered block was crossed and leads to an entered block. -/
structure Record.Complete (succ : φ → List BlockId) (r : Record φ) : Prop where
  crossed_eq : ∀ {i frame}, r.frame? i = some frame → r.crossed i = (succ frame).length
  target : ∀ {i frame j}, r.frame? i = some frame → j ∈ succ frame → (r.frame? j).isSome

/-- When no block is left on the stack, the record is complete. -/
theorem Record.Fits.complete {succ : φ → List BlockId} {r : Record φ} {seen : Std.TreeSet Nat}
    {ids : List BlockId} (h : r.Fits succ [] seen ids) : r.Complete succ := by
  have hids : ids = [] := by simpa using h.stack_eq
  refine ⟨fun hframe => h.done hframe (by simp [hids]), fun {i frame j} hframe hj => ?_⟩
  refine h.target hframe ?_
  rw [h.done hframe (by simp [hids]), List.take_length]
  exact hj

/-- A record of a walk that has followed the edges of a graph from its entry. -/
structure Record.Along (g : Graph) (succ : φ → List BlockId) (r : Record φ) : Prop where
  entry : (r.frame? g.entry).isSome
  path : ∀ {i frame}, r.frame? i = some frame → ∃ before, g.Path before i
  successors : ∀ {i frame}, r.frame? i = some frame → succ frame = g.successors i

namespace Record.Along

variable {g : Graph} {succ : φ → List BlockId} {r : Record φ} {frame : φ} {i j : BlockId}

/-- An edge leads to a live block. -/
theorem exists_live (h : r.Along g succ) (hg : g.Mirrored) (hroot : g.Rooted)
    (hframe : r.frame? i = some frame) (hj : j ∈ succ frame) : ∃ c, g.Live j c := by
  obtain ⟨before, path⟩ := h.path hframe
  rw [h.successors hframe] at hj
  exact (path.step hj).exists_live hg hroot

theorem cross (h : r.Along g succ) (i : BlockId) : (r.cross i).Along g succ :=
  ⟨h.entry, h.path, h.successors⟩

theorem enter (h : r.Along g succ) (child : φ) (hnew : r.frame? j = none)
    (hframe : r.frame? i = some frame) (hj : j ∈ succ frame)
    (hchild : succ child = g.successors j) : (r.enter j child).Along g succ where
  entry := by
    obtain ⟨f, hf⟩ := Option.isSome_iff_exists.1 h.entry
    rw [r.frame?_enter_of_eq_some child hnew hf, Option.isSome_some]
  path := by
    intro k f hk
    rcases r.of_frame?_enter child hk with ⟨rfl, -⟩ | ⟨-, hk⟩
    · obtain ⟨before, path⟩ := h.path hframe
      rw [h.successors hframe] at hj
      exact ⟨before ++ [i], path.step hj⟩
    · exact h.path hk
  successors := by
    intro k f hk
    rcases r.of_frame?_enter child hk with ⟨rfl, rfl⟩ | ⟨-, hk⟩
    · exact hchild
    · exact h.successors hk

theorem start (hframe : succ frame = g.successors g.entry) :
    (Record.start g.entry frame).Along g succ where
  entry := by rw [frame?_start_self, Option.isSome_some]
  path := by
    intro i f hi
    obtain ⟨rfl, -⟩ := eq_of_frame?_start frame hi
    exact ⟨[], .entry⟩
  successors := by
    intro i f hi
    obtain ⟨rfl, rfl⟩ := eq_of_frame?_start frame hi
    exact hframe

/-- A complete record has entered every block to which a path leads. -/
theorem exists_frame (h : r.Along g succ) (hr : r.Complete succ) {before : List BlockId}
    (path : g.Path before i) : ∃ frame, r.frame? i = some frame := by
  induction path with
  | entry => exact Option.isSome_iff_exists.1 h.entry
  | step _ edge ih =>
    obtain ⟨frame, hframe⟩ := ih
    rw [← h.successors hframe] at edge
    exact Option.isSome_iff_exists.1 (hr.target hframe edge)

end Record.Along

namespace Tracked

variable {w : Walk σ φ} {bound : Nat} {succ : φ → List BlockId} {S : Record φ → σ → Prop}

/-- What is tracked of a walk is an invariant of it. -/
theorem invariant (h : w.Tracked bound succ S) : w.Invariant bound fun stack seen s =>
    ∃ r ids, r.Fits succ stack seen ids ∧ S r s where
  inRange := by
    rintro frame slot rest seen s j ⟨r, ids, hfits, hS⟩ hj
    obtain ⟨i, tail, -, -, hframe, -⟩ := hfits.exists_top
    rw [h.slots] at hj
    exact h.inRange hS hframe (List.mem_of_getElem? hj)
  leave := by
    rintro frame slot rest seen s ⟨r, ids, hfits, hS⟩ hnone
    rw [h.slots] at hnone
    exact ⟨r, ids.tail, hfits.leave hnone, hS⟩
  again := by
    rintro frame slot rest seen s j ⟨r, ids, hfits, hS⟩ hj hseen
    rw [h.slots] at hj
    obtain ⟨i, hframe, rfl, hcrossed⟩ := hfits.again hj hseen
    exact ⟨r.cross i, ids, hcrossed, h.cross hS hframe hj⟩
  enter := by
    rintro frame slot rest seen s j ⟨r, ids, hfits, hS⟩ hj hseen
    rw [h.slots] at hj
    obtain ⟨i, -, hframe, rfl, hnew, hzero, hentered⟩ := hfits.descend hj hseen
    obtain ⟨child, s', henter, hS'⟩ := h.enter (h.cross hS hframe hj) hframe
      (List.mem_of_getElem? hj) hnew hzero
    exact ⟨child, s', henter, (r.cross i).enter j child, j :: ids, hentered child, hS'⟩

/-- A tracked walk succeeds, and its record is complete. -/
theorem exists_run (h : w.Tracked bound succ S) (root : φ) {frame : φ} {start : BlockId} {s s' : σ}
    (hstart : start < bound) (henter : w.enter root start s = .ok frame s')
    (hS : S (.start start frame) s') :
    ∃ r t, w.run bound root start s = .ok () t ∧ S r t ∧ r.Complete succ := by
  obtain ⟨seen, t, hrun, r, ids, hfits, hS⟩ := h.invariant.exists_run hstart henter
    ⟨.start start frame, [start], .start start frame, hS⟩
  exact ⟨r, t, hrun, hS, hfits.complete⟩

end Tracked

/-- A statement about the record and the state of a walk that holds on as long as the walk does not
fail. The slots of a frame are `succ`. -/
structure Recorded (w : Walk σ φ) (succ : φ → List BlockId) (S : Record φ → σ → Prop) : Prop where
  slots : ∀ s frame, w.slots s frame = succ frame
  /-- The next edge out of a block is crossed. -/
  cross : ∀ {r s i frame j}, S r s → r.frame? i = some frame →
    (succ frame)[r.crossed i]? = some j → S (r.cross i) (w.cross frame j s)
  /-- A new block was entered over an edge that was crossed. -/
  enter : ∀ {r s i frame j child s'}, S r s → r.frame? i = some frame → j ∈ succ frame →
    r.frame? j = none → w.enter frame j s = .ok child s' → S (r.enter j child) s'

namespace Recorded

variable {w : Walk σ φ} {bound : Nat} {succ : φ → List BlockId} {S : Record φ → σ → Prop}

theorem of_visit (h : w.Recorded succ S) {stack : List (φ × Nat)} {seen : Std.TreeSet Nat}
    {s t : σ} {u : Unit} {r : Record φ} {ids : List BlockId} (hfits : r.Fits succ stack seen ids)
    (hS : S r s) (hvisit : w.visit bound stack seen s = .ok u t) :
    ∃ r, S r t ∧ r.Complete succ := by
  -- The cases are the moves of the walk; it did not fail, so three of them remain.
  fun_induction w.visit bound stack seen s generalizing r ids with
  | case1 seen s =>
    cases hvisit
    exact ⟨r, hS, hfits.complete⟩
  | case2 seen s frame slot rest hnone ih =>
    rw [h.slots] at hnone
    exact ih (hfits.leave hnone) hS hvisit
  | case3 seen s frame slot rest block hsome _ hseen ih =>
    rw [h.slots] at hsome
    obtain ⟨i, hframe, rfl, hcrossed⟩ := hfits.again hsome hseen
    exact ih hcrossed (h.cross hS hframe hsome) hvisit
  | case4 => cases hvisit
  | case5 seen s frame slot rest block hsome _ hseen child s' hok ih =>
    rw [h.slots] at hsome
    obtain ⟨i, -, hframe, rfl, hnew, -, hentered⟩ := hfits.descend hsome hseen
    exact ih (hentered child) (h.enter (h.cross hS hframe hsome) hframe
      (List.mem_of_getElem? hsome) hnew hok) hvisit
  | case6 => cases hvisit

/-- Two statements that hold on hold on together. -/
theorem and {T : Record φ → σ → Prop} (h : w.Recorded succ S) (h' : w.Recorded succ T) :
    w.Recorded succ fun r s => S r s ∧ T r s where
  slots := h.slots
  cross := fun hST hframe hj => ⟨h.cross hST.1 hframe hj, h'.cross hST.2 hframe hj⟩
  enter := fun hST hframe hj hnew henter =>
    ⟨h.enter hST.1 hframe hj hnew henter, h'.enter hST.2 hframe hj hnew henter⟩

/-- What is recorded of a walk holds after a walk that succeeds, and its record is complete. -/
theorem of_run (h : w.Recorded succ S) {root : φ} {start : BlockId} {s t : σ} {u : Unit}
    (hstart : ∀ {frame s'}, w.enter root start s = .ok frame s' → S (.start start frame) s')
    (hrun : w.run bound root start s = .ok u t) : ∃ r, S r t ∧ r.Complete succ := by
  obtain ⟨frame, s', henter, hvisit⟩ := exists_of_run hrun
  exact h.of_visit (.start start frame) (hstart henter) hvisit

end Recorded

end FlowGraph.Walk
