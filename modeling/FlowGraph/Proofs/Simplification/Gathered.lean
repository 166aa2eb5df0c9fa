import FlowGraph.Proofs.Simplification.NormalForm
import FlowGraph.Proofs.Ssa.Undeclared
import Mathlib.Data.List.Lattice
import Mathlib.Data.List.Nodup
import Mathlib.Data.List.Perm.Basic

/-!
# Where statements go

Simplification moves statements and drops none. Each live block of a simplified graph is made of
reachable blocks of the original one: it holds their statements, block after block, each of them as
it was. No block is used twice, and only empty ones are left out. Tests stay where they are.

## Main definitions

* `Graph.Gathers`: the blocks of which the live blocks of a rewritten graph are made
* `Graph.KeepsTest`: a condition block as it was

## Main results

* `Graph.Gathers.existsUnique`: a block with statements is part of exactly one live block
* `Graph.Gathers.perm`: the live blocks hold the statements of the reachable ones
* `Edit.simplify_gathers`: simplification loses and duplicates no statement
-/

namespace FlowGraph

namespace Graph

variable {g k k' g' : Graph} {parts : BlockId → List BlockId} {i j p id next target : BlockId}
  {b c n : Block} {sources : List BlockId} {name : String}

/-- The statements of a block, none for an id out of range. -/
def statementsAt (g : Graph) (i : BlockId) : List Node :=
  (g.block? i).elim [] (·.statements)

theorem statementsAt_eq (hb : g.block? i = some b) : g.statementsAt i = b.statements := by
  rw [statementsAt, hb, Option.elim_some]

/-- The live blocks of `g'` are made of reachable blocks of `g`, which are its parts. -/
structure Gathers (g : Graph) (parts : BlockId → List BlockId) (g' : Graph) : Prop where
  /-- A live block holds the statements of its parts, one part after another. -/
  statements : ∀ {i c}, g'.Live i c → c.statements = (parts i).flatMap g.statementsAt
  mem_reachable : ∀ {i c p}, g'.Live i c → p ∈ parts i → p ∈ g.reachable
  /-- No block is a part of another one twice. -/
  nodup : ∀ {i c}, g'.Live i c → (parts i).Nodup
  /-- No block is a part of two others. -/
  apart : ∀ {i j c d p}, g'.Live i c → g'.Live j d → p ∈ parts i → p ∈ parts j → i = j
  /-- Every reachable block with statements is a part of some live block. -/
  covered : ∀ {p}, p ∈ g.reachable → g.statementsAt p ≠ [] → ∃ i c, g'.Live i c ∧ p ∈ parts i

/-- The live blocks after pruning are the reachable ones. -/
theorem gathers_pruned (hn : g.Numbered) (hg : g.Mirrored) (hentry : g.Live g.entry b) :
    g.Gathers (fun i => [i]) g.pruned where
  statements := by
    intro i c hc
    obtain ⟨d, hd, -, rfl⟩ := (live_pruned_iff hn).1 hc
    rw [List.flatMap_singleton, statementsAt_eq hd.1]
    rfl
  mem_reachable := by
    intro i c p hc hp
    obtain ⟨-, -, hi, -⟩ := (live_pruned_iff hn).1 hc
    exact List.mem_singleton.1 hp ▸ hi
  nodup := fun _ => List.nodup_singleton _
  apart := by
    intro i j c d p _ _ hi hj
    exact (List.mem_singleton.1 hi).symm.trans (List.mem_singleton.1 hj)
  covered := by
    intro p hp _
    obtain ⟨c, hc⟩ := hg.exists_live_of_mem_reachable hentry hp
    exact ⟨p, _, (live_pruned_iff hn).2 ⟨c, hc, hp, rfl⟩, List.mem_singleton_self p⟩

namespace Gathers

/-- The parts of a block after an absorption are its own or those of the absorbed block. -/
private theorem mem_or_of_mem_update
    (hp : p ∈ Function.update parts id (parts id ++ parts next) i) :
    p ∈ parts i ∨ i = id ∧ p ∈ parts next := by
  by_cases hid : i = id
  · subst hid
    rw [Function.update_self] at hp
    exact (List.mem_append.1 hp).imp_right fun hp => ⟨rfl, hp⟩
  · rw [Function.update_of_ne hid] at hp
    exact .inl hp

/-- A block that absorbs another one gets its parts. -/
theorem absorbed (h : g.Gathers parts k) (habsorbs : k.Absorbs id next b n) (hne : id ≠ next) :
    g.Gathers (Function.update parts id (parts id ++ parts next)) (k.absorbed id next n) where
  statements := by
    intro i c' hc'
    obtain ⟨c, hc, hi, rfl⟩ := live_absorbed_iff.1 hc'
    rw [statements_absorbedBlock hi]
    by_cases hid : i = id
    · subst hid
      rw [if_pos rfl, Function.update_self, List.flatMap_append, h.statements hc,
        h.statements habsorbs.target]
    · rw [if_neg (Ne.symm hid), Function.update_of_ne hid, h.statements hc]
  mem_reachable := by
    intro i c' p hc' hp
    obtain ⟨c, hc, -, -⟩ := live_absorbed_iff.1 hc'
    rcases mem_or_of_mem_update hp with hp | ⟨-, hp⟩
    · exact h.mem_reachable hc hp
    · exact h.mem_reachable habsorbs.target hp
  nodup := by
    intro i c' hc'
    obtain ⟨c, hc, hi, -⟩ := live_absorbed_iff.1 hc'
    by_cases hid : i = id
    · subst hid
      rw [Function.update_self]
      refine (h.nodup hc).append (h.nodup habsorbs.target) fun p hp hp' => hi ?_
      exact h.apart hc habsorbs.target hp hp'
    · rw [Function.update_of_ne hid]
      exact h.nodup hc
  apart := by
    intro i j c' d' p hc' hd' hi hj
    obtain ⟨c, hc, hikeep, -⟩ := live_absorbed_iff.1 hc'
    obtain ⟨d, hd, hjkeep, -⟩ := live_absorbed_iff.1 hd'
    -- The absorbed block is not live any more, so its parts are parts of one block only.
    rcases mem_or_of_mem_update hi with hi | ⟨hid, hi⟩ <;>
      rcases mem_or_of_mem_update hj with hj | ⟨hjd, hj⟩
    · exact h.apart hc hd hi hj
    · exact absurd (h.apart hc habsorbs.target hi hj) hikeep
    · exact absurd (h.apart hd habsorbs.target hj hi) hjkeep
    · exact hid.trans hjd.symm
  covered := by
    intro p hp hstatements
    obtain ⟨i, c, hc, hi⟩ := h.covered hp hstatements
    by_cases hnext : i = next
    · subst hnext
      refine ⟨id, _, live_absorbed_iff.2 ⟨b, habsorbs.source, hne, rfl⟩, ?_⟩
      rw [Function.update_self]
      exact List.mem_append_right _ hi
    · refine ⟨i, _, live_absorbed_iff.2 ⟨c, hc, hnext, rfl⟩, ?_⟩
      by_cases hid : i = id
      · subst hid
        rw [Function.update_self]
        exact List.mem_append_left _ hi
      · rwa [Function.update_of_ne hid]

/-- A block that is bypassed is empty, so its parts are not missed. -/
theorem bypassed (h : g.Gathers parts k) (hbypasses : k.Bypasses id target b)
    (sources : List BlockId) : g.Gathers parts (k.bypassed id target sources) where
  statements := by
    intro i c' hc'
    obtain ⟨c, hc, hi, rfl⟩ := live_bypassed_iff.1 hc'
    rw [bypassedBlock, if_neg hi.symm, ← h.statements hc]
  mem_reachable := by
    intro i c' p hc' hp
    obtain ⟨c, hc, -⟩ := live_bypassed_iff.1 hc'
    exact h.mem_reachable hc hp
  nodup := by
    intro i c' hc'
    obtain ⟨c, hc, -⟩ := live_bypassed_iff.1 hc'
    exact h.nodup hc
  apart := by
    intro i j c' d' p hc' hd' hi hj
    obtain ⟨c, hc, -⟩ := live_bypassed_iff.1 hc'
    obtain ⟨d, hd, -⟩ := live_bypassed_iff.1 hd'
    exact h.apart hc hd hi hj
  covered := by
    intro p hp hstatements
    obtain ⟨i, c, hc, hi⟩ := h.covered hp hstatements
    refine ⟨i, _, live_bypassed_iff.2 ⟨c, hc, ?_, rfl⟩, hi⟩
    -- A part with statements would give the bypassed block some.
    rintro rfl
    have hempty := h.statements hbypasses.source
    rw [hbypasses.statements, eq_comm, List.flatMap_eq_nil_iff] at hempty
    exact hstatements (hempty p hi)

theorem rewrites (h : g.Gathers parts k) (step : k.Rewrites k') :
    ∃ parts', g.Gathers parts' k' := by
  cases step with
  | absorb absorbs ne => exact ⟨_, h.absorbed absorbs ne⟩
  | bypass bypasses => exact ⟨_, h.bypassed bypasses _⟩

theorem rewritesTo (h : g.Gathers parts k) (steps : k.RewritesTo k') :
    ∃ parts', g.Gathers parts' k' :=
  steps.preserves (P := fun k => ∃ parts, g.Gathers parts k)
    (fun step ⟨_, h⟩ => h.rewrites step) ⟨parts, h⟩

/-- A reachable block with statements is a part of exactly one live block, in which its statements
stand together. -/
theorem existsUnique (h : g.Gathers parts g') (hp : p ∈ g.reachable)
    (hstatements : g.statementsAt p ≠ []) :
    ∃! i, p ∈ parts i ∧ ∃ c before after, g'.Live i c ∧
      c.statements = before ++ g.statementsAt p ++ after := by
  obtain ⟨i, c, hc, hi⟩ := h.covered hp hstatements
  obtain ⟨first, last, hparts⟩ := List.append_of_mem hi
  refine ⟨i, ⟨hi, c, first.flatMap g.statementsAt, last.flatMap g.statementsAt, hc, ?_⟩, ?_⟩
  · rw [h.statements hc, hparts, List.flatMap_append, List.flatMap_cons, List.append_assoc]
  · rintro j ⟨hj, d, -, -, hd, -⟩
    exact h.apart hd hc hj hi

end Gathers

/-! ### All statements at once -/

theorem flatMap_statements_reachableBlocks (g : Graph) :
    g.reachableBlocks.flatMap (·.statements) = g.reachable.flatMap g.statementsAt := by
  rw [reachableBlocks]
  induction g.reachable with
  | nil => rfl
  | cons i rest ih =>
    rw [List.filterMap_cons, List.flatMap_cons, ← ih, statementsAt]
    cases g.block? i with
    | none => rfl
    | some b => rfl

/-- Lists without duplicates that have the same members, apart from some that give nothing, give the
same. -/
private theorem perm_flatMap {α β : Type} {f : α → List β} {l l' : List α} (hl : l.Nodup)
    (hl' : l'.Nodup) (h : ∀ a, f a ≠ [] → (a ∈ l ↔ a ∈ l')) :
    (l.flatMap f).Perm (l'.flatMap f) := by
  have hfilter (l : List α) : (l.filter fun a => !(f a).isEmpty).flatMap f = l.flatMap f := by
    induction l with
    | nil => rfl
    | cons a rest ih =>
      rw [List.filter_cons, List.flatMap_cons, ← ih]
      by_cases ha : f a = []
      · rw [if_neg (by simp [ha]), ha, List.nil_append]
      · rw [if_pos (by simp [ha]), List.flatMap_cons]
  -- Without those that give nothing, the two lists have the same members.
  rw [← hfilter l, ← hfilter l']
  refine List.Perm.flatMap_right f ?_
  refine (List.perm_ext_iff_of_nodup (hl.filter _) (hl'.filter _)).2 fun a => ?_
  rw [List.mem_filter, List.mem_filter]
  refine and_congr_left fun ha => h a fun hempty => ?_
  rw [hempty] at ha
  cases ha

/-- The statements of the live blocks are those of the reachable blocks of the graph of which they
are made, each as often. -/
theorem Gathers.perm (h : g.Gathers parts g') (hn : g'.Numbered) :
    (g'.live.flatMap (·.statements)).Perm (g.reachableBlocks.flatMap (·.statements)) := by
  have hlive {b : Block} (hb : b ∈ g'.live) : g'.Live b.id b := by
    obtain ⟨i, hi⟩ := mem_live_iff.1 hb
    rwa [hn hi.1]
  have hstatements : g'.live.flatMap (·.statements) =
      ((g'.live.map (·.id)).flatMap parts).flatMap g.statementsAt := by
    rw [List.flatMap_map, List.flatMap_assoc]
    exact List.flatMap_congr fun b hb => h.statements (hlive hb)
  have hmem (i : BlockId) (hi : i ∈ g'.live.map (·.id)) : ∃ c, g'.Live i c := by
    obtain ⟨b, hb, rfl⟩ := List.mem_map.1 hi
    exact ⟨b, hlive hb⟩
  rw [hstatements, flatMap_statements_reachableBlocks]
  refine perm_flatMap (List.nodup_flatMap.2 ⟨fun i hi => ?_, ?_⟩) g.nodup_reachable fun p hp => ?_
  · obtain ⟨c, hc⟩ := hmem i hi
    exact h.nodup hc
  · refine hn.nodup_live.imp_of_mem fun {i j} hi hj hij p hpi hpj => hij ?_
    obtain ⟨c, hc⟩ := hmem i hi
    obtain ⟨d, hd⟩ := hmem j hj
    exact h.apart hc hd hpi hpj
  · constructor
    · intro hmem'
      obtain ⟨i, hi, hpi⟩ := List.mem_flatMap.1 hmem'
      obtain ⟨c, hc⟩ := hmem i hi
      exact h.mem_reachable hc hpi
    · intro hreachable
      obtain ⟨i, c, hc, hpi⟩ := h.covered hreachable hp
      have hid : i ∈ g'.live.map (·.id) :=
        List.mem_map.2 ⟨c, mem_live_iff.2 ⟨i, hc⟩, hn hc.1⟩
      exact List.mem_flatMap.2 ⟨i, hid, hpi⟩

/-! ### Tests and declarations -/

/-- Block `i` is a live condition block that is like `b` in its id, its statements and the number of
its slots. -/
def KeepsTest (g : Graph) (i : BlockId) (b : Block) : Prop :=
  ∃ c, g.Live i c ∧ c.kind = .condition ∧ c.id = b.id ∧ c.statements = b.statements ∧
    c.successors.length = b.successors.length

/-- A condition block is neither absorbed nor bypassed, and it does not absorb. -/
theorem KeepsTest.rewrites (h : k.KeepsTest i b) (step : k.Rewrites k') : k'.KeepsTest i b := by
  obtain ⟨c, hc, hkind, hid, hstatements, hlength⟩ := h
  have hne {j : BlockId} {d : Block} (hd : k.Live j d) (hbase : d.kind = .base) : i ≠ j := by
    rintro rfl
    rw [hc.eq hd, hbase] at hkind
    cases hkind
  cases step with
  | absorb absorbs =>
    have hsource := hne absorbs.source absorbs.source_kind
    have htarget := hne absorbs.target absorbs.target_kind
    refine ⟨_, live_absorbed_iff.2 ⟨c, hc, htarget, rfl⟩, ?_, ?_, ?_, ?_⟩
    · rw [kind_absorbedBlock, hkind]
    · rw [id_absorbedBlock, hid]
    · rw [statements_absorbedBlock htarget, if_neg hsource.symm, hstatements]
    · rw [successors_absorbedBlock _ htarget, if_neg hsource.symm, hlength]
  | bypass bypasses =>
    have hsource := hne bypasses.source bypasses.kind
    refine ⟨_, live_bypassed_iff.2 ⟨c, hc, hsource, rfl⟩, ?_, ?_, ?_, ?_⟩
    · rw [bypassedBlock, if_neg hsource.symm, ← hkind]
    · rw [id_bypassedBlock, hid]
    · rw [bypassedBlock, if_neg hsource.symm, ← hstatements]
    · rw [successors_bypassedBlock _ _ _ hsource, ← hlength]
      split
      · exact List.length_map _
      · rfl

theorem mem_declared_iff : name ∈ g.declared ↔ ∃ i ∈ g.reachable, g.Declares i name :=
  ⟨exists_declares_of_mem_declared, fun ⟨_, hi, hdeclares⟩ => hdeclares.mem_declared hi⟩

theorem declares_iff_statementsAt :
    g.Declares i name ↔ ∃ s ∈ g.statementsAt i, s.declared? = some name := by
  rw [Declares, statementsAt]
  cases g.block? i with
  | none => simp
  | some b => simp [Block.declared]

/-- The same variables are declared in a graph whose live blocks are those that are reachable. -/
theorem Gathers.mem_declared_iff (h : g.Gathers parts g')
    (hlive : ∀ i, (∃ c, g'.Live i c) ↔ i ∈ g'.reachable) :
    name ∈ g'.declared ↔ name ∈ g.declared := by
  rw [Graph.mem_declared_iff, Graph.mem_declared_iff]
  simp only [declares_iff_statementsAt]
  constructor
  · rintro ⟨i, hi, s, hs, hname⟩
    obtain ⟨c, hc⟩ := (hlive i).2 hi
    rw [statementsAt_eq hc.1, h.statements hc] at hs
    obtain ⟨p, hp, hs⟩ := List.mem_flatMap.1 hs
    exact ⟨p, h.mem_reachable hc hp, s, hs, hname⟩
  · rintro ⟨p, hp, s, hs, hname⟩
    obtain ⟨i, c, hc, hi⟩ := h.covered hp (List.ne_nil_of_mem hs)
    refine ⟨i, (hlive i).1 ⟨c, hc⟩, s, ?_, hname⟩
    rw [statementsAt_eq hc.1, h.statements hc]
    exact List.mem_flatMap.2 ⟨p, hi, hs⟩

end Graph

namespace Edit

variable {g : Graph} {b : Block}

/-- Simplification succeeds on a graph that passes the check of its edges and whose entry is live.
It loses no statement of a reachable block and doubles none, and keeps those of a block together. A
reachable test stays as it is, and if no edge leads to the entry, the same variables are
declared. -/
theorem simplify_gathers (hn : g.Numbered) (hcheck : g.checkEdges = .ok ())
    (hb : g.Live g.entry b) :
    ∃ report g' parts, simplify.run g = .ok report g' ∧ g.Gathers parts g' ∧
      (∀ {p}, p ∈ g.reachable → g.statementsAt p ≠ [] →
        ∃! i, p ∈ parts i ∧ ∃ c before after, g'.Live i c ∧
          c.statements = before ++ g.statementsAt p ++ after) ∧
      (g'.live.flatMap (·.statements)).Perm (g.reachableBlocks.flatMap (·.statements)) ∧
      (∀ {i c}, i ∈ g.reachable → g.block? i = some c → c.kind = .condition → g'.KeepsTest i c) ∧
      (b.predecessors = [] → g'.declared.Equiv g.declared) := by
  have hg : g.Consistent := ⟨hn, (Graph.checkEdges_eq_ok_iff hn).1 hcheck⟩
  have hpruned : g.pruned.Consistent := ⟨hn.pruned, hg.mirrored.pruned hn⟩
  have hentry : g.entry ∈ g.reachable := Graph.mem_reachable_iff.2 ⟨hb.lt_size, .refl⟩
  have hsettled : g.pruned.Settled g.entry :=
    ((Graph.live_pruned_iff hn).2 ⟨b, hb, hentry, rfl⟩).settled
  obtain ⟨report, g', hrun, hrewrites⟩ := exists_run_simplify hg hsettled
  obtain ⟨parts, hgathers⟩ := (Graph.gathers_pruned hn hg.mirrored hb).rewritesTo hrewrites
  refine ⟨report, g', parts, hrun, hgathers, hgathers.existsUnique,
    hgathers.perm (hrewrites.consistent hpruned).numbered, fun {i c} hi hc hkind => ?_,
    fun hnone => ?_⟩
  · obtain ⟨d, hd⟩ := hg.mirrored.exists_live_of_mem_reachable hb hi
    obtain rfl := Option.some.inj (hc.symm.trans hd.1)
    have hpruned : g.pruned.KeepsTest i c :=
      ⟨_, (Graph.live_pruned_iff hn).2 ⟨c, hd, hi, rfl⟩, hkind, rfl, rfl, rfl⟩
    exact hrewrites.preserves (P := fun k => k.KeepsTest i c) (fun step hk => hk.rewrites step)
      hpruned
  -- In normal form the live blocks are the reachable ones, on which declarations are collected.
  · obtain ⟨_, k, hrun', -, -, -, hnormal⟩ := exists_run_simplify_normalForm hg ⟨b, hb, hnone⟩
    obtain ⟨-, rfl⟩ := EStateM.Result.ok.inj (hrun.symm.trans hrun')
    exact .of_forall_mem_iff fun name => hgathers.mem_declared_iff hnormal.live_iff

/-- Two straight blocks before a test with an empty side, and a block that cannot be reached. -/
private def threading : Graph :=
  { blocks := #[
      { id := 0, kind := .base, statements := [.declaration "x" "int" none], successors := [1] },
      { id := 1, kind := .base, statements := [.ident "x", .ident "x"], predecessors := [0],
        successors := [2] },
      { id := 2, kind := .condition, statements := [.ident "x"], predecessors := [1],
        successors := [3, 4] },
      { id := 3, kind := .base, predecessors := [2], successors := [4] },
      { id := 4, kind := .base, statements := [.ret none], predecessors := [2, 3] },
      { id := 5, kind := .base, statements := [.declaration "y" "int" none] }]
    exit := 4 }

private theorem numbered_threading : threading.Numbered := by
  intro i b hb
  obtain ⟨hi, rfl⟩ := Array.getElem?_eq_some_iff.1 hb
  have hids : ∀ i : Fin 6, threading.blocks[i].id = i := by decide
  exact hids ⟨i, hi⟩

theorem simplify_gathers_threading :
    threading.Numbered ∧ threading.checkEdges = .ok () ∧ (∃ b, threading.Live 0 b) ∧
      ∃ report g' parts, simplify.run threading = .ok report g' ∧ threading.Gathers parts g' ∧
        (g'.live.flatMap (·.statements)).Perm
          (threading.reachableBlocks.flatMap (·.statements)) ∧
        g'.declared.Equiv threading.declared := by
  have hcheck : threading.checkEdges = .ok () := rfl
  have hb : threading.Live 0 _ := ⟨rfl, rfl⟩
  obtain ⟨report, g', parts, hrun, hgathers, -, hperm, -, hdeclared⟩ :=
    simplify_gathers numbered_threading hcheck hb
  exact ⟨numbered_threading, hcheck, ⟨_, hb⟩, report, g', parts, hrun, hgathers, hperm,
    hdeclared rfl⟩

end Edit

end FlowGraph
