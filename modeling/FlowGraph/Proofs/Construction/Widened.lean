import FlowGraph.Proofs.Construction.Deletion
import FlowGraph.Proofs.Construction.Untouched
import FlowGraph.Proofs.Graph.Renumbered

/-!
# The layout of a tree with and without its dead items

A dead item is laid out, but it is connected to the rest of the graph by its jumps only, and these
lead out of it. So the blocks of a tree without its dead items are found in the graph of the tree
under other numbers. They lead to the same blocks, and only entries for blocks of dead items come in
between their predecessor entries.

## Main definitions

* `Widens`: a list of ids, renumbered, with entries for further blocks in between
* `Graph.Widens`: a graph, renumbered, with further blocks in between
* `Node.FoundIn`: a way to lay out something that comes to part of what another way comes to

## Main results

* `Node.foundIn_layOut`: the layouts of a node
* `Node.widens_toGraph`: the graphs of a tree
-/

namespace FlowGraph

/-- The second list is the first one with other numbers and with entries in between that are the
number of no block. The blocks of the first list are below `n`, the further ones below `m`. -/
inductive Widens (ν : Nat → Nat) (n m : Nat) : List Nat → List Nat → Prop
  | nil : Widens ν n m [] []
  | keep {i : Nat} {l k : List Nat} (lt : i < n) (rest : Widens ν n m l k) :
    Widens ν n m (i :: l) (ν i :: k)
  | extra {j : Nat} {l k : List Nat} (lt : j < m) (ne : ∀ i, ν i ≠ j) (rest : Widens ν n m l k) :
    Widens ν n m l (j :: k)

namespace Widens

variable {ν ν' : Nat → Nat} {n n' m m' : Nat} {l l' k k' : List Nat}

theorem append (h : Widens ν n m l k) (h' : Widens ν n m l' k') :
    Widens ν n m (l ++ l') (k ++ k') := by
  induction h with
  | nil => exact h'
  | keep hlt _ ih => exact .keep hlt ih
  | extra hlt hne _ ih => exact .extra hlt hne ih

theorem extras (hk : ∀ j ∈ k, j < m ∧ ∀ i, ν i ≠ j) : Widens ν n m [] k := by
  induction k with
  | nil => exact .nil
  | cons j k ih =>
    obtain ⟨⟨hlt, hne⟩, hk⟩ := List.forall_mem_cons.1 hk
    exact .extra hlt hne (ih hk)

theorem append_extras (h : Widens ν n m l k) (hk : ∀ j ∈ k', j < m ∧ ∀ i, ν i ≠ j) :
    Widens ν n m l (k ++ k') := by
  simpa using h.append (extras hk)

/-- The numbers of blocks that are not there yet may change, and blocks may be added. -/
theorem mono (h : Widens ν n m l k) (heq : ∀ i < n, ν' i = ν i) (hn : n ≤ n') (hm : m ≤ m')
    (hnew : ∀ i, n ≤ i → m ≤ ν' i) : Widens ν' n' m' l k := by
  induction h with
  | nil => exact .nil
  | @keep i l k hlt _ ih =>
    rw [← heq i hlt]
    exact .keep (Nat.lt_of_lt_of_le hlt hn) ih
  | @extra j l k hlt hne _ ih =>
    refine .extra (Nat.lt_of_lt_of_le hlt hm) (fun i => ?_) ih
    rcases Nat.lt_or_ge i n with hi | hi
    · rw [heq i hi]
      exact hne i
    · exact Nat.ne_of_gt (Nat.lt_of_lt_of_le hlt (hnew i hi))

/-- Where the further entries are filtered out, the others are left. -/
theorem filter_eq (h : Widens ν n m l k) {p q : Nat → Bool} (hp : ∀ i, q (ν i) = p i)
    (hextra : ∀ j ∈ k, (∀ i, ν i ≠ j) → q j = false) : k.filter q = (l.filter p).map ν := by
  induction h with
  | nil => rfl
  | @keep i l k _ _ ih =>
    rw [List.filter_cons, List.filter_cons, hp, ih fun j hj => hextra j (List.mem_cons_of_mem _ hj)]
    cases p i <;> rfl
  | @extra j l k _ hne _ ih =>
    rw [List.filter_cons, hextra j List.mem_cons_self hne, if_neg Bool.false_ne_true,
      ih fun j hj => hextra j (List.mem_cons_of_mem _ hj)]

end Widens

/-- The numbers of blocks from `n` on start at `m`, and those of the blocks below stay. -/
def renumberFrom (ν : Nat → Nat) (n m i : Nat) : Nat :=
  if i < n then ν i else m + (i - n)

section RenumberFrom

variable {ν : Nat → Nat} {n m i : Nat}

theorem renumberFrom_of_lt (hi : i < n) : renumberFrom ν n m i = ν i :=
  if_pos hi

theorem renumberFrom_of_le (hi : n ≤ i) : renumberFrom ν n m i = m + (i - n) :=
  if_neg (Nat.not_lt.2 hi)

theorem le_renumberFrom (hi : n ≤ i) : m ≤ renumberFrom ν n m i := by
  rw [renumberFrom_of_le hi]
  exact Nat.le_add_right m _

theorem strictMono_renumberFrom (hν : StrictMono ν) (hm : ∀ i < n, ν i < m) :
    StrictMono (renumberFrom ν n m) := by
  intro i j hij
  rcases Nat.lt_or_ge j n with hj | hj
  · rw [renumberFrom_of_lt (Nat.lt_trans hij hj), renumberFrom_of_lt hj]
    exact hν hij
  · rcases Nat.lt_or_ge i n with hi | hi
    · rw [renumberFrom_of_lt hi]
      exact Nat.lt_of_lt_of_le (hm i hi) (le_renumberFrom hj)
    · rw [renumberFrom_of_le hi, renumberFrom_of_le hj]
      omega

end RenumberFrom

/-- A block with another number, among blocks with other numbers, and with given predecessor
entries. -/
def Block.renumberWith (ν : BlockId → BlockId) (block : Block) (entries : List BlockId) : Block :=
  { block.renumber ν with predecessors := entries }

/-- The entries of a block, renumbered, with further ones in between. Ids are below `n`. -/
structure Block.Widens (ν : Nat → Nat) (n m : Nat) (b : Block) (entries : List Nat) : Prop where
  predecessors : FlowGraph.Widens ν n m b.predecessors entries
  successors_lt : ∀ j ∈ b.successors, n > j
  id_lt : n > b.id
  phis : b.phis = []

/-- The graph `h` is `g` with other numbers and with further blocks in between. Blocks that are
added to both of them correspond to each other. -/
structure Graph.Widens (ν : Nat → Nat) (g h : Graph) : Prop where
  mono : StrictMono ν
  align : ∀ k, ν (g.size + k) = h.size + k
  block : ∀ i b, g.block? i = some b →
    ∃ entries, h.block? (ν i) = some (b.renumberWith ν entries) ∧
      b.Widens ν g.size h.size entries

namespace Block.Widens

variable {ν ν' : Nat → Nat} {n n' m m' : Nat} {b : Block} {entries : List Nat}

theorem mono (h : b.Widens ν n m entries) (heq : ∀ i < n, ν' i = ν i) (hn : n ≤ n') (hm : m ≤ m')
    (hnew : ∀ i, n ≤ i → m ≤ ν' i) : b.Widens ν' n' m' entries where
  predecessors := h.predecessors.mono heq hn hm hnew
  successors_lt j hj := Nat.lt_of_lt_of_le (h.successors_lt j hj) hn
  id_lt := Nat.lt_of_lt_of_le h.id_lt hn
  phis := h.phis

theorem renumberWith_eq (h : b.Widens ν n m entries) (heq : ∀ i < n, ν' i = ν i)
    (entries' : List Nat) : b.renumberWith ν' entries' = b.renumberWith ν entries' := by
  have hsuccessors : b.successors.map ν' = b.successors.map ν :=
    List.map_congr_left fun j hj => heq j (h.successors_lt j hj)
  simp only [renumberWith, renumber, hsuccessors, heq b.id h.id_lt, h.phis, List.map_nil]

theorem addPredecessor (h : b.Widens ν n m entries) {source : Nat} (hsource : source < n) :
    (b.addPredecessor source).Widens ν n m (entries ++ [ν source]) where
  predecessors := h.predecessors.append (.keep hsource .nil)
  successors_lt := h.successors_lt
  id_lt := h.id_lt
  phis := h.phis

end Block.Widens

namespace Graph.Widens

variable {ν : Nat → Nat} {g h h' : Graph} {i : Nat}

theorem align_zero (hw : g.Widens ν h) : ν g.size = h.size :=
  hw.align 0

theorem lt_size (hw : g.Widens ν h) (hi : i < g.size) : ν i < h.size := by
  rw [← hw.align_zero]
  exact hw.mono hi

theorem le_of_size_le (hw : g.Widens ν h) (hi : g.size ≤ i) : h.size ≤ ν i := by
  rw [← hw.align_zero]
  exact hw.mono.monotone hi

theorem addBlock (hw : g.Widens ν h) (kind : BlockKind) :
    (g.addBlock kind).Widens ν (h.addBlock kind) where
  mono := hw.mono
  align k := by
    rw [size_addBlock, size_addBlock, Nat.add_assoc, Nat.add_assoc]
    exact hw.align (1 + k)
  block i b hb := by
    rw [block?_addBlock] at hb ⊢
    rw [size_addBlock, size_addBlock]
    split at hb
    · rename_i hi
      obtain rfl := Option.some.inj hb
      refine ⟨[], ?_, .nil, nofun, Nat.lt_succ_self _, rfl⟩
      rw [if_pos (by rw [hi, hw.align_zero]), ← hw.align_zero]
      rfl
    · have hlt : i < g.size := block?_isSome_iff.1 (Option.isSome_of_eq_some hb)
      obtain ⟨entries, hc, hblock⟩ := hw.block i b hb
      refine ⟨entries, by rw [if_neg (Nat.ne_of_lt (hw.lt_size hlt)), hc], ?_⟩
      exact hblock.mono (fun _ _ => rfl) (Nat.le_succ _) (Nat.le_succ _)
        fun j hj => hw.le_of_size_le hj

/-- The same change of a block. -/
theorem modify (hw : g.Widens ν h) (i : Nat) {f k : Block → Block}
    (hf : ∀ b entries, b.Widens ν g.size h.size entries →
      ∃ entries', k (b.renumberWith ν entries) = (f b).renumberWith ν entries' ∧
        (f b).Widens ν g.size h.size entries') :
    (g.modify i f).Widens ν (h.modify (ν i) k) where
  mono := hw.mono
  align := by
    rw [size_modify, size_modify]
    exact hw.align
  block j c hc := by
    rw [size_modify, size_modify]
    rw [block?_modify] at hc ⊢
    by_cases hij : i = j
    · subst hij
      rw [if_pos rfl] at hc ⊢
      obtain ⟨b, hb, rfl⟩ := Option.map_eq_some_iff.1 hc
      obtain ⟨entries, hb', hblock⟩ := hw.block i b hb
      obtain ⟨entries', heq, hblock'⟩ := hf b entries hblock
      exact ⟨entries', by rw [hb', Option.map_some, heq], hblock'⟩
    · rw [if_neg hij] at hc
      rw [if_neg (hw.mono.injective.ne hij)]
      exact hw.block j c hc

/-- A change that leaves the edges of a block alone. -/
theorem modify_of_edges_eq (hw : g.Widens ν h) (i : Nat) {f : Block → Block}
    (hf : ∀ b entries, f (b.renumberWith ν entries) = (f b).renumberWith ν entries)
    (hedges : ∀ b : Block, (f b).predecessors = b.predecessors ∧ (f b).successors = b.successors ∧
      (f b).id = b.id ∧ (f b).phis = b.phis) :
    (g.modify i f).Widens ν (h.modify (ν i) f) := by
  refine hw.modify i fun b entries hb => ⟨entries, hf b entries, ?_⟩
  obtain ⟨hpredecessors, hsuccessors, hid, hphis⟩ := hedges b
  exact ⟨hpredecessors ▸ hb.predecessors, hsuccessors ▸ hb.successors_lt, hid ▸ hb.id_lt,
    hphis ▸ hb.phis⟩

theorem addStatements (hw : g.Widens ν h) (i : Nat) (statements : List Node) :
    (g.addStatements i statements).Widens ν (h.addStatements (ν i) statements) :=
  hw.modify_of_edges_eq i (fun _ _ => rfl) fun _ => ⟨rfl, rfl, rfl, rfl⟩

theorem addStatementBlock (hw : g.Widens ν h) (kind : BlockKind) (statements : List Node) :
    (g.addStatementBlock kind statements).Widens ν (h.addStatementBlock kind statements) := by
  have hadded := (hw.addBlock kind).addStatements g.size statements
  rwa [hw.align_zero] at hadded

theorem markFinalIf (hw : g.Widens ν h) (final : Bool) (i : Nat) :
    (g.markFinalIf final i).Widens ν (h.markFinalIf final (ν i)) := by
  cases final with
  | false => exact hw
  | true => exact hw.modify_of_edges_eq i (fun _ _ => rfl) fun _ => ⟨rfl, rfl, rfl, rfl⟩

theorem addHeader (hw : g.Widens ν h) (decl : Node) :
    (g.addHeader decl).Widens ν (h.addHeader decl) := by
  have hadded := (hw.addStatementBlock .base decl.functionParams).modify_of_edges_eq g.size
    (f := fun b => { b with label := some ("function " ++ decl.functionName?.getD "" ++ " start") })
    (fun _ _ => rfl) fun _ => ⟨rfl, rfl, rfl, rfl⟩
  rwa [hw.align_zero] at hadded

theorem connect (hw : g.Widens ν h) (source target : Nat) (hsource : g.size > source)
    (htarget : g.size > target) :
    (g.connect source target).Widens ν (h.connect (ν source) (ν target)) := by
  have hentered : (g.modify target (·.addPredecessor source)).Widens ν
      (h.modify (ν target) (·.addPredecessor (ν source))) :=
    hw.modify target fun b entries hb => ⟨_, rfl, hb.addPredecessor hsource⟩
  refine hentered.modify source fun b entries hb => ⟨entries, ?_, hb.predecessors, ?_, hb.id_lt,
    hb.phis⟩
  · simp only [Block.addSuccessor, Block.renumberWith, Block.renumber, List.map_append,
      List.map_cons, List.map_nil]
  · intro j hj
    rcases List.mem_append.1 hj with hj | hj
    · exact hb.successors_lt j hj
    · rw [List.mem_singleton.1 hj, size_modify]
      exact htarget

theorem connectIf (hw : g.Widens ν h) (connected : Bool) (source target : Nat)
    (hsource : g.size > source) (htarget : g.size > target) :
    (g.connectIf connected source target).Widens ν
      (h.connectIf connected (ν source) (ν target)) := by
  cases connected with
  | false => exact hw
  | true => exact hw.connect source target hsource htarget

theorem connectBranches (hw : g.Widens ν h) (cond onTrue onFalse : Nat) (hcond : g.size > cond)
    (htrue : g.size > onTrue) (hfalse : g.size > onFalse) :
    (g.connectBranches cond onTrue onFalse).Widens ν
      (h.connectBranches (ν cond) (ν onTrue) (ν onFalse)) := by
  have hslots : (g.modify cond fun b => { b with successors := [onTrue, onFalse] }).Widens ν
      (h.modify (ν cond) fun b => { b with successors := [ν onTrue, ν onFalse] }) := by
    refine hw.modify cond fun b entries hb => ⟨entries, rfl, hb.predecessors, ?_, hb.id_lt, hb.phis⟩
    simpa using ⟨htrue, hfalse⟩
  have hyes := hslots.modify onTrue
    (f := fun b => { b.addPredecessor cond with color := .onTrue })
    (k := fun b => { b.addPredecessor (ν cond) with color := .onTrue }) fun b entries hb =>
      ⟨_, rfl, (hb.addPredecessor (by rwa [size_modify])).predecessors, hb.successors_lt, hb.id_lt,
        hb.phis⟩
  exact hyes.modify onFalse fun b entries hb =>
    ⟨_, rfl, (hb.addPredecessor (by rwa [size_modify, size_modify])).predecessors,
      hb.successors_lt, hb.id_lt, hb.phis⟩

/-- Blocks are added to the second graph only, and its other blocks get predecessor entries for them
at most. -/
theorem untouched (hw : g.Widens ν h) (hh : Untouched h.size h h') :
    g.Widens (renumberFrom ν g.size h'.size) h' where
  mono := strictMono_renumberFrom hw.mono fun i hi => Nat.lt_of_lt_of_le (hw.lt_size hi) hh.size_le
  align k := by rw [renumberFrom_of_le (Nat.le_add_right _ _), Nat.add_sub_cancel_left]
  block i b hb := by
    have hi : i < g.size := block?_isSome_iff.1 (Option.isSome_of_eq_some hb)
    obtain ⟨entries, hc, hblock⟩ := hw.block i b hb
    obtain ⟨further, hfurther, hc'⟩ := hh.block (ν i) _ (hw.lt_size hi) hc
    -- The further entries are for blocks that were added now.
    have hextra (p : Nat) (hp : p ∈ further) :
        p < h'.size ∧ ∀ j, renumberFrom ν g.size h'.size j ≠ p := by
      obtain ⟨hge, hlt⟩ := hfurther p hp
      refine ⟨hlt, fun j => ?_⟩
      rcases Nat.lt_or_ge j g.size with hj | hj
      · rw [renumberFrom_of_lt hj]
        exact Nat.ne_of_lt (Nat.lt_of_lt_of_le (hw.lt_size hj) hge)
      · exact Nat.ne_of_gt (Nat.lt_of_lt_of_le hlt (le_renumberFrom hj))
    have hkept := hblock.mono (fun _ => renumberFrom_of_lt) (Nat.le_refl _) hh.size_le
      fun j hj => Nat.le_trans hh.size_le (le_renumberFrom hj)
    refine ⟨entries ++ further, ?_, hkept.predecessors.append_extras hextra, hkept.successors_lt,
      hkept.id_lt, hkept.phis⟩
    rw [renumberFrom_of_lt hi, hc', hblock.renumberWith_eq fun _ => renumberFrom_of_lt]
    rfl

end Graph.Widens

/-- A piece in a graph with other numbers. -/
def Span.renumber (ν : BlockId → BlockId) (span : Span) : Span :=
  ⟨ν span.start, ν span.stop⟩

/-- The jump targets in a graph with other numbers. The block set aside for returns stays. -/
def Scope.renumber (ν : BlockId → BlockId) (scope : Scope) : Scope :=
  { scope with onContinue := scope.onContinue.map ν, onBreak := scope.onBreak.map ν }

theorem Span.renumber_congr {ν ν' : Nat → Nat} {span : Span} {n : Nat}
    (heq : ∀ i, n > i → ν' i = ν i) (hstart : n > span.start) (hstop : n > span.stop) :
    span.renumber ν' = span.renumber ν := by
  rw [renumber, renumber, heq span.start hstart, heq span.stop hstop]

theorem Scope.Below.renumber_congr {ν ν' : Nat → Nat} {scope : Scope} {n : Nat}
    (h : scope.Below n) (heq : ∀ i, n > i → ν' i = ν i) :
    scope.renumber ν' = scope.renumber ν := by
  have hcontinue : scope.onContinue.map ν' = scope.onContinue.map ν :=
    Option.map_congr fun i hi => heq i (h .continueLoop i hi)
  have hbreak : scope.onBreak.map ν' = scope.onBreak.map ν :=
    Option.map_congr fun i hi => heq i (h .breakLoop i hi)
  rw [renumber, renumber, hcontinue, hbreak]

theorem Scope.renumber_enterLoop (ν : BlockId → BlockId) (scope : Scope)
    (onContinue onBreak : BlockId) : (scope.enterLoop onContinue onBreak).renumber ν =
      (scope.renumber ν).enterLoop (ν onContinue) (ν onBreak) :=
  rfl

theorem Scope.target?_renumber (ν : BlockId → BlockId) (scope : Scope) (kind : Jump) :
    (scope.renumber ν).target? kind = (scope.target? kind).map ν := by
  cases kind <;> rfl

namespace Graph.Widens

variable {ν : Nat → Nat} {g h : Graph} {first test next after : Nat} {body yes no : Span}

theorem addSingle (hw : g.Widens ν h) (node : Node) (final : Bool) :
    ((g.addStatementBlock .base [node]).markFinalIf final g.size).Widens ν
      ((h.addStatementBlock .base [node]).markFinalIf final h.size) := by
  have hadded := (hw.addStatementBlock .base [node]).markFinalIf final g.size
  rwa [hw.align_zero] at hadded

theorem addJump (hw : g.Widens ν h) {target : Option BlockId}
    (htarget : ∀ i, target = some i → g.size > i) :
    (g.addJump target).1.Widens ν (h.addJump (target.map ν)).1 := by
  have hjump := (hw.addBlock .base).markFinalIf true g.size
  cases target with
  | none => rwa [hw.align_zero] at hjump
  | some i =>
    have hlt : g.size > i := htarget i rfl
    have hadded := hjump.connect g.size i (by simp) (by simp; omega)
    rwa [hw.align_zero] at hadded

theorem addTest (hw : g.Widens ν h) (cond : Node) :
    (g.addTest cond).Widens ν (h.addTest cond) := by
  have hadded := ((hw.addBlock .base).addStatementBlock .condition [cond]).connect
    g.size (g.size + 1) (by rw [size_addStatementBlock, size_addBlock]; omega) (by simp)
  rwa [hw.align_zero, hw.align 1] at hadded

theorem addJoin (hw : g.Widens ν h) (htest : g.size > test) (hyes : g.size > yes.start)
    (hyesStop : g.size > yes.stop) (hno : g.size > no.start) (hnoStop : g.size > no.stop)
    (yesPasses noPasses : Bool) :
    (g.addJoin test yes no yesPasses noPasses).Widens ν
      (h.addJoin (ν test) (yes.renumber ν) (no.renumber ν) yesPasses noPasses) := by
  have hbranches := (hw.addBlock .base).connectBranches test yes.start no.start (by simp; omega)
    (by simp; omega) (by simp; omega)
  have hyesJoined := hbranches.connectIf yesPasses yes.stop g.size (by simp; omega) (by simp)
  have hnoJoined := hyesJoined.connectIf noPasses no.stop g.size (by simp; omega) (by simp)
  have hjoined := hnoJoined.markFinalIf (!yesPasses && !noPasses) g.size
  rwa [hw.align_zero] at hjoined

theorem addWhile (hw : g.Widens ν h) (cond : Node) :
    (g.addWhile cond).Widens ν (h.addWhile cond) := by
  have hadded := (((hw.addBlock .base).addStatementBlock .condition [cond]).addBlock .base).connect
    g.size (g.size + 1) (by simp; omega) (by simp)
  rwa [hw.align_zero, hw.align 1] at hadded

theorem closeWhile (hw : g.Widens ν h) (htest : g.size > test) (hafter : g.size > after)
    (hstart : g.size > body.start) (hstop : g.size > body.stop) (passes : Bool) :
    (g.closeWhile test after body passes).Widens ν
      (h.closeWhile (ν test) (ν after) (body.renumber ν) passes) :=
  (hw.connectBranches test body.start after htest hstart hafter).connectIf passes body.stop test
    (by simpa using hstop) (by simpa using htest)

theorem addFor (hw : g.Widens ν h) (init : List Node) (cond : Node) (step : List Node) :
    (g.addFor init cond step).Widens ν (h.addFor init cond step) :=
  (((hw.addStatementBlock .base init).addStatementBlock .condition [cond]).addStatementBlock .base
    step).addBlock .base

theorem closeFor (hw : g.Widens ν h) (hfirst : g.size > first) (htest : g.size > test)
    (hnext : g.size > next) (hafter : g.size > after) (hstart : g.size > body.start)
    (hstop : g.size > body.stop) (passes : Bool) :
    (g.closeFor first test next after body passes).Widens ν
      (h.closeFor (ν first) (ν test) (ν next) (ν after) (body.renumber ν) passes) := by
  have hbranches := (hw.connect first test hfirst htest).connectBranches test body.start after
    (by simpa using htest) (by simpa using hstart) (by simpa using hafter)
  have hclosed := hbranches.connectIf passes body.stop next (by simpa using hstop)
    (by simpa using hnext)
  exact hclosed.connect next test (by simpa using hnext) (by simpa using htest)

end Graph.Widens

namespace Node

/-- Two ways to lay out something, so that the piece that comes of the first one is found in the
piece that comes of the second one. -/
def FoundIn (layOut layOut' : Scope → Graph → Graph × Span) : Prop :=
  ∀ {ν : Nat → Nat} {scope : Scope} {g h g' h' : Graph} {span span' : Span}, g.Widens ν h →
    scope.Below g.size → layOut scope g = (g', span) → layOut' (scope.renumber ν) h = (h', span') →
      ∃ ν', (∀ i, g.size > i → ν' i = ν i) ∧ g'.Widens ν' h' ∧ span' = span.renumber ν'

/-- The same for the items that control comes to and all items of a compound statement. -/
def ItemsFoundIn (items : List Node) : Prop :=
  ∀ {ν : Nat → Nat} {scope : Scope} {g h g' h' : Graph} {current last last' : BlockId},
    g.Widens ν h → scope.Below g.size → g.size > current →
    layOutItems scope g current true (withoutDeadItems true items) = (g', last) →
    layOutItems (scope.renumber ν) h (ν current) true items = (h', last') →
      ∃ ν', (∀ i, g.size > i → ν' i = ν i) ∧ g'.Widens ν' h' ∧ last' = ν' last

variable {cond onTrue body decl item : Node} {onFalse : Option Node} {items rest : List Node}

theorem foundIn_addSingle (node : Node) (final : Bool) :
    FoundIn (fun _ g => g.addSingle node final) fun _ g => g.addSingle node final := by
  intro ν scope g h g' h' span span' hw _ hlay hlay'
  obtain ⟨rfl, rfl⟩ := Prod.mk.inj hlay
  obtain ⟨rfl, rfl⟩ := Prod.mk.inj hlay'
  refine ⟨ν, fun _ _ => rfl, hw.addSingle _ _, ?_⟩
  rw [← hw.align_zero]
  rfl

theorem foundIn_addJump (kind : Jump) :
    FoundIn (fun scope g => g.addJump (scope.target? kind)) fun scope g =>
      g.addJump (scope.target? kind) := by
  intro ν scope g h g' h' span span' hw hbelow hlay hlay'
  obtain ⟨rfl, rfl⟩ := Prod.mk.inj hlay
  obtain ⟨rfl, rfl⟩ := Prod.mk.inj hlay'
  refine ⟨ν, fun _ _ => rfl, ?_, ?_⟩
  · rw [Scope.target?_renumber]
    exact hw.addJump fun i hi => hbelow kind i hi
  · rw [← hw.align_zero]
    rfl

theorem foundIn_absent :
    FoundIn (fun _ g => (g.addBlock .base, ⟨g.size, g.size⟩)) fun _ g =>
      (g.addBlock .base, ⟨g.size, g.size⟩) := by
  intro ν scope g h g' h' span span' hw _ hlay hlay'
  obtain ⟨rfl, rfl⟩ := Prod.mk.inj hlay
  obtain ⟨rfl, rfl⟩ := Prod.mk.inj hlay'
  refine ⟨ν, fun _ _ => rfl, hw.addBlock .base, ?_⟩
  rw [← hw.align_zero]
  rfl

theorem foundIn_function (hbody : FoundIn body.withoutDead.layOut body.layOut) :
    FoundIn (function decl body).withoutDead.layOut (function decl body).layOut := by
  intro ν scope g h g' h' span span' hw hbelow hlay hlay'
  rw [withoutDead] at hlay
  obtain ⟨g₁, inner, hg₁, rfl, rfl⟩ := layOut_function hlay
  obtain ⟨h₁, inner', hh₁, rfl, rfl⟩ := layOut_function hlay'
  have piece := piece_layOut hg₁
  have hsize := piece.size_lt
  rw [Graph.size_addHeader] at hsize
  obtain ⟨ν', heq, hw', rfl⟩ := hbody (hw.addHeader decl) (hbelow.mono (by simp)) hg₁ hh₁
  have hheader : ν' g.size = h.size := by rw [heq g.size (by simp), hw.align_zero]
  refine ⟨ν', fun i hi => heq i (by simp; omega), ?_, ?_⟩
  · have hclosed := hw'.connect g.size inner.start (by omega) piece.start_lt
    rwa [hheader] at hclosed
  · rw [← hheader]
    rfl

theorem foundIn_branch (hyes : FoundIn onTrue.withoutDead.layOut onTrue.layOut)
    (hno : FoundIn (fun scope g => layOutOptional scope g (withoutDeadOptional onFalse))
      fun scope g => layOutOptional scope g onFalse) :
    FoundIn (branch cond onTrue onFalse).withoutDead.layOut
      (branch cond onTrue onFalse).layOut := by
  intro ν scope g h g' h' span span' hw hbelow hlay hlay'
  rw [withoutDead] at hlay
  obtain ⟨g₁, yes, g₂, no, hg₁, hg₂, rfl, rfl⟩ := layOut_branch hlay
  obtain ⟨h₁, yes', h₂, no', hh₁, hh₂, rfl, rfl⟩ := layOut_branch hlay'
  have pieceYes := piece_layOut hg₁
  have pieceNo := piece_layOutOptional hg₂
  have hsizeYes := pieceYes.size_lt
  have hsizeNo := pieceNo.size_lt
  have hstart : g₁.size > yes.start := pieceYes.start_lt
  have hstop : g₁.size > yes.stop := pieceYes.stop_lt
  rw [Graph.size_addTest] at hsizeYes
  obtain ⟨ν₁, heq₁, hw₁, rfl⟩ := hyes (hw.addTest cond) (hbelow.mono (by simp)) hg₁ hh₁
  rw [Graph.size_addTest] at heq₁
  -- The jump targets are older blocks, so they have the same numbers in the second branch.
  have hscope : scope.renumber ν₁ = scope.renumber ν :=
    hbelow.renumber_congr fun i hi => heq₁ i (by omega)
  rw [← hscope] at hh₂
  obtain ⟨ν₂, heq₂, hw₂, rfl⟩ := hno hw₁ (hbelow.mono (by omega)) hg₂ hh₂
  have hyes : yes.renumber ν₂ = yes.renumber ν₁ := Span.renumber_congr heq₂ hstart hstop
  have heq (i : Nat) (hi : g.size + 2 > i) : ν₂ i = ν i := by
    rw [heq₂ i (by omega), heq₁ i hi]
  have htest : ν₂ (g.size + 1) = h.size + 1 := by rw [heq _ (by omega), hw.align 1]
  rw [completes_withoutDead, completesOptional_withoutDead]
  refine ⟨ν₂, fun i hi => heq i (by omega), ?_, ?_⟩
  · rw [← hyes, ← htest]
    exact hw₂.addJoin (by omega) (by omega) (by omega) pieceNo.start_lt pieceNo.stop_lt _ _
  · rw [Span.renumber, heq g.size (by omega), hw.align_zero, hw₂.align_zero]

theorem foundIn_whileLoop (hbody : FoundIn body.withoutDead.layOut body.layOut) :
    FoundIn (whileLoop cond body).withoutDead.layOut (whileLoop cond body).layOut := by
  intro ν scope g h g' h' span span' hw hbelow hlay hlay'
  rw [withoutDead] at hlay
  obtain ⟨g₁, inner, hg₁, rfl, rfl⟩ := layOut_whileLoop hlay
  obtain ⟨h₁, inner', hh₁, rfl, rfl⟩ := layOut_whileLoop hlay'
  have piece := piece_layOut hg₁
  have hsize := piece.size_lt
  rw [Graph.size_addWhile] at hsize
  rw [← hw.align 1, ← hw.align 2, ← Scope.renumber_enterLoop] at hh₁
  obtain ⟨ν', heq, hw', rfl⟩ := hbody (hw.addWhile cond)
    (Scope.below_enterLoop (by simp) (by simp)) hg₁ hh₁
  rw [Graph.size_addWhile] at heq
  rw [completes_withoutDead]
  refine ⟨ν', fun i hi => heq i (by omega), ?_, ?_⟩
  · rw [← hw.align 1, ← hw.align 2, ← heq (g.size + 1) (by omega), ← heq (g.size + 2) (by omega)]
    exact hw'.closeWhile (by omega) (by omega) piece.start_lt piece.stop_lt _
  · rw [Span.renumber, heq g.size (by omega), heq (g.size + 2) (by omega), hw.align_zero,
      hw.align 2]

theorem foundIn_forLoop {init : ForInit} {cond step : Option Node}
    (hbody : FoundIn body.withoutDead.layOut body.layOut) :
    FoundIn (forLoop init cond step body).withoutDead.layOut
      (forLoop init cond step body).layOut := by
  intro ν scope g h g' h' span span' hw hbelow hlay hlay'
  rw [withoutDead] at hlay
  obtain ⟨g₁, inner, hg₁, rfl, rfl⟩ := layOut_forLoop hlay
  obtain ⟨h₁, inner', hh₁, rfl, rfl⟩ := layOut_forLoop hlay'
  have piece := piece_layOut hg₁
  have hsize := piece.size_lt
  rw [Graph.size_addFor] at hsize
  rw [← hw.align 2, ← hw.align 3, ← Scope.renumber_enterLoop] at hh₁
  obtain ⟨ν', heq, hw', rfl⟩ := hbody (hw.addFor _ _ _)
    (Scope.below_enterLoop (by simp) (by simp)) hg₁ hh₁
  rw [Graph.size_addFor] at heq
  rw [completes_withoutDead]
  refine ⟨ν', fun i hi => heq i (by omega), ?_, ?_⟩
  · rw [← hw.align 1, ← hw.align 2, ← hw.align 3, ← hw.align_zero, ← heq g.size (by omega),
      ← heq (g.size + 1) (by omega), ← heq (g.size + 2) (by omega),
      ← heq (g.size + 3) (by omega)]
    exact hw'.closeFor (by omega) (by omega) (by omega) (by omega) piece.start_lt piece.stop_lt _
  · rw [Span.renumber, heq g.size (by omega), heq (g.size + 3) (by omega), hw.align_zero,
      hw.align 3]

theorem itemsFoundIn_nil : ItemsFoundIn [] := by
  intro ν scope g h g' h' current last last' hw _ _ hlay hlay'
  rw [withoutDeadItems, layOutItems] at hlay
  rw [layOutItems] at hlay'
  obtain ⟨rfl, rfl⟩ := Prod.mk.inj hlay
  obtain ⟨rfl, rfl⟩ := Prod.mk.inj hlay'
  exact ⟨ν, fun _ _ => rfl, hw, rfl⟩

theorem itemsFoundIn_cons (hitem : FoundIn item.withoutDead.layOut item.layOut)
    (hrest : ItemsFoundIn rest) : ItemsFoundIn (item :: rest) := by
  intro ν scope g h g' h' current last last' hw hbelow hcurrent hlay hlay'
  rw [withoutDeadItems_cons, layOutItems] at hlay
  rw [layOutItems] at hlay'
  rcases hg₁ : item.withoutDead.layOut scope g with ⟨g₁, span⟩
  rcases hh₁ : item.layOut (scope.renumber ν) h with ⟨h₁, span'⟩
  rw [hg₁] at hlay
  rw [hh₁] at hlay'
  simp only [if_true] at hlay hlay'
  obtain ⟨ν₁, heq₁, hw₁, rfl⟩ := hitem hw hbelow hg₁ hh₁
  have piece := piece_layOut hg₁
  have hsize := piece.size_lt
  have hconnected := hw₁.connect current span.start (by omega) piece.start_lt
  have hscope : scope.renumber ν₁ = scope.renumber ν := hbelow.renumber_congr heq₁
  rw [heq₁ current hcurrent] at hconnected
  rw [completes_withoutDead] at hlay
  cases hpasses : item.completes with
  | true =>
    rw [hpasses] at hlay hlay'
    rw [← hscope] at hlay'
    obtain ⟨ν₂, heq₂, hw₂, rfl⟩ := hrest hconnected (hbelow.mono (by simp; omega))
      (by simpa using piece.stop_lt) hlay hlay'
    exact ⟨ν₂, fun i hi => by rw [heq₂ i (by simp; omega), heq₁ i hi], hw₂, rfl⟩
  | false =>
    -- The items behind are laid out in the second graph only.
    rw [hpasses, withoutDeadItems_false, layOutItems] at hlay
    rw [hpasses] at hlay'
    obtain ⟨rfl, rfl⟩ := Prod.mk.inj hlay
    obtain ⟨hh, rfl⟩ := untouched_layOutItems_of_dead hlay' (Nat.le_refl _)
    have hlt : g₁.size > span.stop := piece.stop_lt
    refine ⟨_, fun i hi => ?_, hconnected.untouched hh, ?_⟩
    · rw [renumberFrom_of_lt (by simp; omega), heq₁ i hi]
    · exact (renumberFrom_of_lt (by simpa using hlt)).symm

theorem foundIn_compound (hitems : ItemsFoundIn items) :
    FoundIn (compound items).withoutDead.layOut (compound items).layOut := by
  intro ν scope g h g' h' span span' hw hbelow hlay hlay'
  rw [withoutDead] at hlay
  obtain ⟨last, hlast, rfl⟩ := layOut_compound hlay
  obtain ⟨last', hlast', rfl⟩ := layOut_compound hlay'
  rw [← hw.align_zero] at hlast' ⊢
  obtain ⟨ν', heq, hw', rfl⟩ := hitems (hw.addBlock .base) (hbelow.mono (by simp)) (by simp)
    hlast hlast'
  refine ⟨ν', fun i hi => heq i (by simp; omega), hw', ?_⟩
  rw [← heq g.size (by simp)]
  rfl

mutual

/-- The piece of a node without its dead items is found in the piece of the node. -/
theorem foundIn_layOut : ∀ node : Node, FoundIn node.withoutDead.layOut node.layOut
  | function _ body => foundIn_function (foundIn_layOut body)
  | compound items => foundIn_compound (itemsFoundIn_layOutItems items)
  | branch _ onTrue onFalse =>
    foundIn_branch (foundIn_layOut onTrue) (foundIn_layOutOptional onFalse)
  | whileLoop _ body => foundIn_whileLoop (foundIn_layOut body)
  | forLoop _ _ _ body => foundIn_forLoop (foundIn_layOut body)
  | jump kind => fun hw hbelow hlay hlay' => by
    simp only [withoutDead, layOut] at hlay hlay'
    exact foundIn_addJump kind hw hbelow hlay hlay'
  | ret _ | declarator .. | parameters _ | declaration .. | binary .. | unary .. | assignment ..
  | ident _ | constant .. | call .. => fun hw hbelow hlay hlay' => by
    simp only [withoutDead, layOut] at hlay hlay'
    exact foundIn_addSingle _ _ hw hbelow hlay hlay'

theorem itemsFoundIn_layOutItems : ∀ items : List Node, ItemsFoundIn items
  | [] => itemsFoundIn_nil
  | item :: rest => itemsFoundIn_cons (foundIn_layOut item) (itemsFoundIn_layOutItems rest)

theorem foundIn_layOutOptional : ∀ node : Option Node,
    FoundIn (fun scope g => layOutOptional scope g (withoutDeadOptional node)) fun scope g =>
      layOutOptional scope g node
  | none => fun hw hbelow hlay hlay' => by
    simp only [withoutDeadOptional, layOutOptional] at hlay hlay'
    exact foundIn_absent hw hbelow hlay hlay'
  | some node => fun hw hbelow hlay hlay' => by
    simp only [withoutDeadOptional, layOutOptional] at hlay hlay'
    exact foundIn_layOut node hw hbelow hlay hlay'

end

/-- The graph of a tree without its dead items is found in the graph of the tree, and control starts
and ends at the same blocks. -/
theorem widens_toGraph (node : Node) :
    ∃ ν, node.withoutDead.toGraph.Widens ν node.toGraph ∧
      node.toGraph.name = node.withoutDead.toGraph.name ∧
      node.toGraph.entry = ν node.withoutDead.toGraph.entry ∧
      node.toGraph.exit = ν node.withoutDead.toGraph.exit := by
  have hempty : ({} : Graph).Widens id {} :=
    ⟨strictMono_id, fun _ => rfl, fun i b hb => by simp [Graph.block?] at hb⟩
  rcases hg : node.withoutDead.layOut (.top 0) (({} : Graph).addBlock .base) with ⟨g, span⟩
  rcases hh : node.layOut (.top 0) (({} : Graph).addBlock .base) with ⟨h, span'⟩
  obtain ⟨ν, -, hw, rfl⟩ := foundIn_layOut node (hempty.addBlock .base) below_top hg hh
  rw [toGraph, hg, toGraph, hh]
  exact ⟨ν, ⟨hw.mono, hw.align, hw.block⟩, (functionName?_withoutDead node).symm, rfl, rfl⟩

end Node

end FlowGraph
