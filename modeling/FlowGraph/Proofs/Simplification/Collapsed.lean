import FlowGraph.Proofs.Graph.Strand
import FlowGraph.Proofs.Simplification.NormalForm

/-!
# Collapsing a strand

Simplification makes one block of a graph whose live blocks are a strand. Every step leaves a strand
with the same statements in the same order: an absorption joins two neighbours, and a bypass takes
an empty block out. In normal form nothing is left behind the entry, since the entry could absorb
it.

## Main definitions

* `Graph.Strung`: the live blocks are a strand from the entry to the exit

## Main results

* `Graph.Strand.absorbed`, `Graph.Strand.bypassed`: a strand after one step
* `Graph.RewritesTo.strung`: a strand after all steps
* `Graph.Strung.live_eq`: in normal form it is a single block
-/

namespace FlowGraph.Graph

variable {g g' : Graph} {id next target i stop : BlockId} {b n c : Block} {ids : List BlockId}
  {statements : List Node} {final : Bool} {label : String}

/-! ### One step -/

section Absorption

theorem code_absorbed (hi : i ≠ next) :
    (g.absorbed id next n).code i = (g.code i).map fun c =>
      if id = i then ⟨c.kind, c.statements ++ n.statements, n.successors⟩ else c := by
  rw [code, block?_absorbed, Option.map_map, code, Option.map_map]
  refine congrArg (Option.map · _) (funext fun block => ?_)
  simp only [Function.comp_apply, Block.code, kind_absorbedBlock, statements_absorbedBlock hi,
    successors_absorbedBlock block hi]
  split <;> rfl

theorem Live.code (hb : g.Live i b) : g.code i = some b.code := by
  rw [Graph.code, hb.1, Option.map_some]

/-- A strand after an absorption. One that starts with the absorbed block starts with the block
before it instead, and with its statements. -/
theorem Strand.absorbed (h : g.Absorbs id next b n) (hne : id ≠ next) (hg : g.Mirrored)
    (hs : g.Strand i ids statements stop) (hlive : ∀ k ∈ ids, ∃ c, g.Live k c) :
    (i ≠ next → (g.absorbed id next n).Strand i (ids.filter (· != next)) statements
      (if stop = next then id else stop)) ∧
    (i = next → (g.absorbed id next n).Strand id (id :: ids.filter (· != next))
      (b.statements ++ statements) (if stop = next then id else stop)) := by
  have hsource : g.code id = some ⟨.base, b.statements, [next]⟩ := by
    rw [h.source.code, Block.code, h.source_kind, h.successors]
  have htarget : g.code next = some ⟨.base, n.statements, n.successors⟩ := by
    rw [h.target.code, Block.code, h.target_kind]
  have hjoined : (g.absorbed id next n).code id =
      some ⟨.base, b.statements ++ n.statements, n.successors⟩ := by
    rw [code_absorbed hne, hsource, Option.map_some, if_pos rfl]
  have hother {k : BlockId} {code : Code} (hk : k ≠ next) (hkid : k ≠ id)
      (hcode : g.code k = some code) : (g.absorbed id next n).code k = some code := by
    rw [code_absorbed hk, hcode, Option.map_some, if_neg hkid.symm]
  induction hs with
  | @stop i statements code =>
    refine ⟨fun hi => ?_, ?_⟩
    · have hid : i ≠ id := by
        rintro rfl
        cases code.symm.trans hsource
      rw [if_neg hi, List.filter_cons_of_pos (p := (· != next)) (bne_iff_ne.2 hi), List.filter_nil]
      exact .stop (hother hi hid code)
    · rintro rfl
      obtain ⟨rfl, hnone⟩ : statements = n.statements ∧ [] = n.successors := by
        simpa using code.symm.trans htarget
      rw [if_pos rfl, List.filter_cons_of_neg (by simp), List.filter_nil]
      exact .stop (hnone ▸ hjoined)
  | @next i j stop ids before after code rest ih =>
    obtain ⟨ihOther, ihNext⟩ := ih fun k hk => hlive k (List.mem_cons_of_mem i hk)
    obtain ⟨c, hc⟩ := hlive i List.mem_cons_self
    have hedge : j ∈ c.successors := by
      rw [← hc.successors, successors_of_code code]
      exact List.mem_cons_self
    refine ⟨fun hi => ?_, ?_⟩
    · rw [List.filter_cons_of_pos (p := (· != next)) (bne_iff_ne.2 hi)]
      by_cases hid : i = id
      -- The block that absorbs is followed by the one that it absorbs.
      · subst hid
        obtain ⟨rfl, rfl⟩ : before = b.statements ∧ j = next := by
          simpa using code.symm.trans hsource
        exact ihNext rfl
      · have hj : j ≠ next := by
          rintro rfl
          exact hid (h.eq_of_mem_successors hg hc hedge)
        exact .next (hother hi hid code) (ihOther hj)
    · rintro rfl
      have hj : j ≠ i := by
        rintro rfl
        exact hne (h.eq_of_mem_successors hg hc hedge).symm
      obtain ⟨rfl, hsuccessors⟩ : before = n.statements ∧ [j] = n.successors := by
        simpa using code.symm.trans htarget
      rw [List.filter_cons_of_neg (by simp), ← List.append_assoc]
      exact .next (hsuccessors ▸ hjoined) (ihOther hj)

end Absorption

section Bypass

/-- A strand after a bypass. One that starts with the bypassed block starts with the block behind it
instead. -/
theorem Strand.bypassed (h : g.Bypasses id target b) (hg : g.Mirrored)
    (hs : g.Strand i ids statements stop) (hlive : ∀ k ∈ ids, ∃ c, g.Live k c) :
    (g.bypassed id target b.predecessors).Strand (if i == id then target else i)
      (ids.filter (· != id)) statements stop := by
  have hsource : g.code id = some ⟨.base, [], [target]⟩ := by
    rw [h.source.code, Block.code, h.kind, h.statements, h.successors]
  have hother {k : BlockId} {kind : BlockKind} {statements : List Node}
      {successors : List BlockId} (hk : k ≠ id) (hmem : ∃ c, g.Live k c)
      (hcode : g.code k = some ⟨kind, statements, successors⟩) :
      (g.bypassed id target b.predecessors).code k =
        some ⟨kind, statements, successors.map fun j => if j == id then target else j⟩ := by
    obtain ⟨c, hc⟩ := hmem
    obtain ⟨rfl, rfl, rfl⟩ : c.kind = kind ∧ c.statements = statements ∧
        c.successors = successors := by
      simpa [Block.code] using hc.code.symm.trans hcode
    have hsuccessors := h.successors_eq hg hc hk
    rw [Graph.code, block?_bypassed, hc.1, Option.map_some, Option.map_some, Block.code,
      hsuccessors, bypassedBlock, if_neg hk.symm]
  induction hs with
  | @stop i statements code =>
    have hi : i ≠ id := by
      rintro rfl
      cases code.symm.trans hsource
    rw [if_neg (by simpa using hi), List.filter_cons_of_pos (p := (· != id)) (bne_iff_ne.2 hi),
      List.filter_nil]
    exact .stop (hother hi (hlive i List.mem_cons_self) code)
  | @next i j stop ids before after code rest ih =>
    have ih := ih fun k hk => hlive k (List.mem_cons_of_mem i hk)
    by_cases hi : i = id
    · subst hi
      obtain ⟨rfl, rfl⟩ : before = [] ∧ j = target := by
        simpa using code.symm.trans hsource
      rw [if_neg (by simpa using h.ne)] at ih
      rw [if_pos (beq_self_eq_true i), List.filter_cons_of_neg (by simp)]
      exact ih
    · rw [if_neg (by simpa using hi), List.filter_cons_of_pos (p := (· != id)) (bne_iff_ne.2 hi)]
      exact .next (hother hi (hlive i List.mem_cons_self) code) ih

end Bypass

/-! ### All steps -/

/-- The live blocks of a graph are the strand `ids` from its entry, which is labelled, to its
exit. -/
structure Strung (g : Graph) (ids : List BlockId) (statements : List Node) (final : Bool)
    (label : String) : Prop where
  strand : g.Strand g.entry ids statements g.exit
  nodup : ids.Nodup
  live_iff : ∀ i, (∃ b, g.Live i b) ↔ i ∈ ids
  labelled : ∃ b, g.Live g.entry b ∧ b.label = some label
  ends : ∃ b, g.Live g.exit b ∧ b.isFinal = final

namespace Strung

theorem exists_live (h : g.Strung ids statements final label) : ∀ i ∈ ids, ∃ b, g.Live i b :=
  fun i hi => (h.live_iff i).2 hi

theorem absorbed (hs : g.Strung ids statements final label) (h : g.Absorbs id next b n)
    (hne : id ≠ next) (hinner : g.entry ≠ next) (hg : g.Mirrored) :
    (g.absorbed id next n).Strung (ids.filter (· != next)) statements final label where
  strand := by
    rw [entry_absorbed, exit_absorbed]
    exact (hs.strand.absorbed h hne hg hs.exists_live).1 hinner
  nodup := hs.nodup.filter _
  live_iff := by
    intro i
    rw [List.mem_filter, ← hs.live_iff, bne_iff_ne]
    constructor
    · rintro ⟨c, hc⟩
      obtain ⟨block, hblock, hi, -⟩ := live_absorbed_iff.1 hc
      exact ⟨⟨block, hblock⟩, hi⟩
    · rintro ⟨⟨block, hblock⟩, hi⟩
      exact ⟨_, live_absorbed_iff.2 ⟨block, hblock, hi, rfl⟩⟩
  labelled := by
    obtain ⟨e, he, hlabel⟩ := hs.labelled
    rw [entry_absorbed]
    refine ⟨_, live_absorbed_iff.2 ⟨e, he, hinner, rfl⟩, ?_⟩
    unfold absorbedBlock
    rw [if_neg hinner.symm]
    split_ifs <;> simp [Block.takeOver, Block.replacePredecessor, hlabel]
  ends := by
    obtain ⟨e, he, hfinal⟩ := hs.ends
    rw [exit_absorbed]
    by_cases hexit : g.exit = next
    · rw [if_pos hexit]
      obtain rfl := (hexit ▸ he).eq h.target
      refine ⟨_, live_absorbed_iff.2 ⟨b, h.source, hne, rfl⟩, ?_⟩
      rw [isFinal_absorbedBlock hne, if_pos rfl, hfinal]
    · rw [if_neg hexit]
      -- The block that absorbs goes on, so it is not the last one of the strand.
      have hid : id ≠ g.exit := by
        rintro rfl
        obtain ⟨last, hlast⟩ := hs.strand.code_stop
        have hnone := successors_of_code hlast
        rw [h.source.successors, h.successors] at hnone
        cases hnone
      refine ⟨_, live_absorbed_iff.2 ⟨e, he, hexit, rfl⟩, ?_⟩
      rw [isFinal_absorbedBlock hexit, if_neg hid, hfinal]

theorem bypassed (hs : g.Strung ids statements final label) (h : g.Bypasses id target b)
    (hinner : g.entry ≠ id) (hg : g.Mirrored) :
    (g.bypassed id target b.predecessors).Strung (ids.filter (· != id)) statements final label := by
  -- The bypassed block goes on, so it is not the last one of the strand.
  have hexit : g.exit ≠ id := by
    rintro rfl
    obtain ⟨last, hlast⟩ := hs.strand.code_stop
    have hnone := successors_of_code hlast
    rw [h.source.successors, h.successors] at hnone
    cases hnone
  have hexit_eq : (g.bypassed id target b.predecessors).exit = g.exit := by
    rw [exit_bypassed, if_neg hexit]
  refine ⟨?_, hs.nodup.filter _, fun i => ?_, ?_, ?_⟩
  · have hstrand := hs.strand.bypassed h hg hs.exists_live
    rw [if_neg (by simpa using hinner)] at hstrand
    rw [entry_bypassed, hexit_eq]
    exact hstrand
  · rw [List.mem_filter, ← hs.live_iff, bne_iff_ne]
    constructor
    · rintro ⟨c, hc⟩
      obtain ⟨block, hblock, hi, -⟩ := live_bypassed_iff.1 hc
      exact ⟨⟨block, hblock⟩, hi⟩
    · rintro ⟨⟨block, hblock⟩, hi⟩
      exact ⟨_, live_bypassed_iff.2 ⟨block, hblock, hi, rfl⟩⟩
  · obtain ⟨e, he, hlabel⟩ := hs.labelled
    rw [entry_bypassed]
    refine ⟨_, live_bypassed_iff.2 ⟨e, he, hinner, rfl⟩, ?_⟩
    rw [bypassedBlock, if_neg hinner.symm]
    exact hlabel
  · obtain ⟨e, he, hfinal⟩ := hs.ends
    rw [hexit_eq]
    refine ⟨_, live_bypassed_iff.2 ⟨e, he, hexit, rfl⟩, ?_⟩
    rw [bypassedBlock, if_neg hexit.symm]
    exact hfinal

theorem rewrites (hs : g.Strung ids statements final label) (h : g.Rewrites g') (hg : g.Mirrored)
    (hroot : g.Rooted) : ∃ ids', g'.Strung ids' statements final label := by
  cases h with
  | absorb habsorbs hne hinner _ => exact ⟨_, hs.absorbed habsorbs hne hinner hg⟩
  | @bypass id target b hbypasses hentered =>
    -- No edge leads to the entry, so it is not bypassed.
    have hinner : g.entry ≠ id := by
      rintro rfl
      obtain ⟨e, he, hnone⟩ := hroot
      exact hentered (hbypasses.source.eq he ▸ hnone)
    exact ⟨_, hs.bypassed hbypasses hinner hg⟩

/-- Pruning leaves nothing but the strand that starts with the entry. -/
theorem pruned (hn : g.Numbered) (hstrand : g.Strand g.entry ids statements g.exit)
    (hnodup : ids.Nodup) (hlive : ∀ i ∈ ids, ∃ b, g.Live i b)
    (hlabelled : ∃ b, g.Live g.entry b ∧ b.label = some label)
    (hends : ∃ b, g.Live g.exit b ∧ b.isFinal = final) :
    g.pruned.Strung ids statements final label where
  strand := by
    refine hstrand.congr fun k hk => ?_
    obtain ⟨b, hb⟩ := hlive k hk
    have hpruned := (live_pruned_iff hn).2 ⟨b, hb, hstrand.mem_reachable_iff.2 hk, rfl⟩
    rw [hpruned.code, hb.code]
    rfl
  nodup := hnodup
  live_iff := by
    intro i
    constructor
    · rintro ⟨c, hc⟩
      obtain ⟨-, -, hi, -⟩ := (live_pruned_iff hn).1 hc
      exact hstrand.mem_reachable_iff.1 hi
    · intro hi
      obtain ⟨b, hb⟩ := hlive i hi
      exact ⟨_, (live_pruned_iff hn).2 ⟨b, hb, hstrand.mem_reachable_iff.2 hi, rfl⟩⟩
  labelled := by
    obtain ⟨b, hb, hlabel⟩ := hlabelled
    exact ⟨_, (live_pruned_iff hn).2 ⟨b, hb, hstrand.mem_reachable_iff.2 hstrand.start_mem, rfl⟩,
      hlabel⟩
  ends := by
    obtain ⟨b, hb, hfinal⟩ := hends
    exact ⟨_, (live_pruned_iff hn).2 ⟨b, hb, hstrand.mem_reachable_iff.2 hstrand.stop_mem, rfl⟩,
      hfinal⟩

/-- Only the entry leads to the second block of a strand. -/
theorem absorbs_of_next {j : BlockId} {before after : List Node}
    (hs : g.Strung (g.entry :: ids) statements final label) (hg : g.Mirrored)
    (hcode : g.code g.entry = some ⟨.base, before, [j]⟩) (hrest : g.Strand j ids after stop) :
    ∃ b n, g.Absorbs g.entry j b n := by
  obtain ⟨b, hb⟩ := hs.exists_live g.entry List.mem_cons_self
  obtain ⟨n, hn⟩ := hs.exists_live j (List.mem_cons_of_mem _ hrest.start_mem)
  obtain ⟨hkind, -, hsuccessors⟩ : b.kind = .base ∧ b.statements = before ∧ b.successors = [j] := by
    simpa [Block.code] using hb.code.symm.trans hcode
  have htarget : n.kind = .base := by
    cases hrest with
    | stop code | next code _ =>
      have heq := Option.some.inj (hn.code.symm.trans code)
      exact congrArg Code.kind heq
  refine ⟨b, n, hb, hn, hkind, htarget, hsuccessors, ?_⟩
  have hentries : ∀ p ∈ n.predecessors, p = g.entry := by
    intro p hp
    obtain ⟨c, hc, hedge⟩ := hg.exists_predecessor hn hp
    rcases List.mem_cons.1 ((hs.live_iff p).1 ⟨c, hc⟩) with heq | hmem
    · exact heq
    -- An edge from a later block would lead back, past the start of the rest.
    · have htail := hrest.mem_tail hmem (hc.successors ▸ hedge)
      obtain ⟨tail, rfl⟩ := hrest.exists_cons
      exact absurd htail (List.nodup_cons.1 (List.nodup_cons.1 hs.nodup).2).1
  have hcount : n.predecessors.count g.entry = 1 := by
    rw [← hg.count_eq hb hn, hsuccessors, List.count_singleton_self]
  rw [List.count_eq_length.2 fun p hp => (hentries p hp).symm] at hcount
  exact List.eq_replicate_iff.2 ⟨hcount, hentries⟩

/-- In normal form the strand is a single block. -/
theorem eq_singleton (hs : g.Strung ids statements final label) (hg : g.Mirrored)
    (hroot : g.Rooted) (hnormal : g.NormalForm) : ids = [g.entry] ∧ g.exit = g.entry ∧
      g.code g.entry = some ⟨.base, statements, []⟩ := by
  obtain ⟨hstrand, hnodup, -⟩ := id hs
  generalize hentry : g.entry = e at hstrand
  generalize hexit : g.exit = x at hstrand
  cases hstrand with
  | stop code => exact ⟨rfl, rfl, code⟩
  | @next _ j _ ids before after code rest =>
    subst hentry
    obtain ⟨b, n, habsorbs⟩ := hs.absorbs_of_next hg code rest
    have hne : g.entry ≠ j := fun heq => (List.nodup_cons.1 hnodup).1 (heq ▸ rest.start_mem)
    -- The entry is not entered, so that nothing keeps it from absorbing.
    obtain ⟨e, he, hnone⟩ := hroot
    have hmany := hnormal.not_absorbs habsorbs hne hne
    rw [habsorbs.source.eq he, hnone] at hmany
    cases hmany

/-- In normal form a graph whose live blocks are a strand has one live block, which holds all
statements of the strand. -/
theorem live_eq (hs : g.Strung ids statements final label) (hg : g.Consistent)
    (hroot : g.Rooted) (hnormal : g.NormalForm) :
    ∃ b, g.live = [b] ∧ g.Live g.entry b ∧ g.exit = g.entry ∧ b.label = some label ∧
      b.successors = [] ∧ b.statements = statements ∧ b.isFinal = final := by
  obtain ⟨rfl, hexit, hcode⟩ := hs.eq_singleton hg.mirrored hroot hnormal
  obtain ⟨b, hb, hlabel⟩ := hs.labelled
  obtain ⟨e, he, hfinal⟩ := hs.ends
  rw [hexit] at he
  obtain rfl := hb.eq he
  obtain ⟨-, hstatements, hsuccessors⟩ : b.kind = .base ∧ b.statements = statements ∧
      b.successors = [] := by
    simpa [Block.code] using hb.code.symm.trans hcode
  refine ⟨b, ?_, hb, hexit, hlabel, hsuccessors, hstatements, hfinal⟩
  have hall : ∀ c ∈ g.live, c = b := by
    intro c hc
    obtain ⟨i, hc⟩ := mem_live_iff.1 hc
    obtain rfl := List.mem_singleton.1 ((hs.live_iff i).1 ⟨c, hc⟩)
    exact hc.eq hb
  have hmem : b ∈ g.live := mem_live_iff.2 ⟨g.entry, hb⟩
  have hnodup := hg.numbered.nodup_live
  rw [List.eq_replicate_of_mem hall] at hmem hnodup ⊢
  rw [List.map_replicate, List.nodup_replicate] at hnodup
  have hpos := List.length_pos_of_mem hmem
  rw [List.length_replicate] at hpos
  rw [Nat.le_antisymm hnodup hpos, List.replicate_one]

end Strung

theorem RewritesTo.strung (h : g.RewritesTo g') (hg : g.Consistent) (hroot : g.Rooted)
    (hs : g.Strung ids statements final label) :
    ∃ ids', g'.Strung ids' statements final label := by
  have hall := h.preserves
    (P := fun k => k.Consistent ∧ k.Rooted ∧ ∃ ids, k.Strung ids statements final label)
    (fun step ⟨hk, hrooted, _, hstrung⟩ => ⟨step.consistent hk, step.rooted hk.mirrored hrooted,
      hstrung.rewrites step hk.mirrored hrooted⟩) ⟨hg, hroot, ids, hs⟩
  exact hall.2.2

end FlowGraph.Graph
