import FlowGraph.Proofs.Graph.Mirrored
import FlowGraph.Proofs.Ssa.Placed
import FlowGraph.Proofs.Traversal.Ordered
import Mathlib.Data.String.Basic

/-!
# What placement offers to a join

Placement takes the declarations on its way along the depth-first tree, and offers them to every
block to which an edge leads from the end of that way. A join gets a phi node for each variable that
it is offered and for no others; what other blocks are offered is lost. What strictly dominates a
join is on every way to it, so its declarations are always offered. Where everything that is offered
is there already, placement changes nothing.

## Main definitions

* `Phi.Ascending`: phi nodes in the order of their variables
* `Graph.Offers`: the variables that placement takes along at the end of a block
* `Graph.phiCount`: the number of phi nodes in a graph
* `Graph.PhisOffered`: where the phi nodes are that were placed

## Main results

* `Edit.run_placePhis_of_closed`: placement succeeds, and places what is offered
* `Edit.run_placePhis`: it serves the joins that a declaration strictly dominates
* `Edit.run_placePhis_of_offered`: placement of phi nodes that are there already
* `Edit.placesOffered`: both, for the graphs that pass the check of their edges
-/

namespace FlowGraph

/-! ### Phi nodes in order -/

namespace Phi

/-- Phi nodes in ascending order of their variables, of which each has one at most. -/
def Ascending (phis : List Phi) : Prop :=
  phis.Pairwise fun phi next => phi.base < next.base

theorem sublist_insert (name : String) (phis : List Phi) : phis.Sublist (insert name phis) := by
  induction phis with
  | nil => exact List.nil_sublist _
  | cons first rest ih =>
    rw [insert]
    split
    · exact List.sublist_cons_self _ _
    · exact ih.cons_cons first

theorem Ascending.insert {name : String} {phis : List Phi} (h : Ascending phis)
    (hnew : ∀ phi ∈ phis, phi.base ≠ name) : Ascending (Phi.insert name phis) := by
  induction phis with
  | nil => exact List.pairwise_singleton _ _
  | cons first rest ih =>
    obtain ⟨hfirst, hrest⟩ := List.pairwise_cons.1 h
    obtain ⟨hne, hnew⟩ := List.forall_mem_cons.1 hnew
    rw [Phi.insert]
    split
    · rename_i hlt
      refine List.pairwise_cons.2 ⟨List.forall_mem_cons.2 ⟨hlt, fun phi hphi => ?_⟩, h⟩
      exact lt_trans hlt (hfirst phi hphi)
    · rename_i hle
      refine List.pairwise_cons.2 ⟨fun phi hphi => ?_, ih hrest hnew⟩
      rcases mem_insert_iff.1 hphi with rfl | hphi
      · exact lt_of_le_of_ne (not_lt.1 hle) hne
      · exact hfirst phi hphi

end Phi

namespace Block

variable {block : Block} {name : String} {names : List String}

theorem phi?_isSome_iff :
    (block.phi? name).isSome = true ↔ ∃ phi ∈ block.phis, phi.base = name := by
  rw [phi?, List.find?_isSome]
  simp only [beq_iff_eq]

theorem sublist_addPhi (block : Block) (name : String) :
    block.phis.Sublist (block.addPhi name).phis := by
  unfold addPhi
  split
  · exact List.Sublist.refl _
  · exact Phi.sublist_insert name block.phis

theorem ascending_addPhi (h : Phi.Ascending block.phis) (name : String) :
    Phi.Ascending (block.addPhi name).phis := by
  unfold addPhi
  split
  · exact h
  · rename_i hnone
    refine h.insert fun phi hphi hbase => hnone ?_
    exact phi?_isSome_iff.2 ⟨phi, hphi, hbase⟩

theorem sublist_addPhis (block : Block) (names : List String) :
    block.phis.Sublist (block.addPhis names).phis := by
  induction names generalizing block with
  | nil => exact List.Sublist.refl _
  | cons name names ih => exact (block.sublist_addPhi name).trans (ih (block.addPhi name))

theorem ascending_addPhis (h : Phi.Ascending block.phis) (names : List String) :
    Phi.Ascending (block.addPhis names).phis := by
  induction names generalizing block with
  | nil => exact h
  | cons name names ih => exact ih (ascending_addPhi h name)

/-- Placeholders for variables that have a phi node change nothing. -/
theorem addPhis_of_forall (h : ∀ name ∈ names, ∃ phi ∈ block.phis, phi.base = name) :
    block.addPhis names = block := by
  induction names with
  | nil => rfl
  | cons name names ih =>
    obtain ⟨hname, hnames⟩ := List.forall_mem_cons.1 h
    rw [addPhis, List.foldl_cons, addPhi, if_pos (phi?_isSome_iff.2 hname)]
    exact ih hnames

theorem of_mem_addPhis {phi : Phi} (h : phi ∈ (block.addPhis names).phis) :
    phi ∈ block.phis ∨ ∃ name ∈ names, phi = .placeholder name := by
  obtain ⟨phis, hphis, honly, -⟩ := block.exists_addPhis names
  rw [hphis] at h
  exact honly phi h

/-- Variables that have a phi node when placeholders for a list of variables were added. -/
theorem mem_addPhis_iff (block : Block) (names : List String) (name : String) :
    (∃ phi ∈ (block.addPhis names).phis, phi.base = name) ↔
      (∃ phi ∈ block.phis, phi.base = name) ∨ name ∈ names := by
  obtain ⟨phis, hphis, -, hkept, hall⟩ := block.exists_addPhis names
  constructor
  · rintro ⟨phi, hphi, rfl⟩
    rcases of_mem_addPhis hphi with hphi | ⟨other, hother, rfl⟩
    · exact .inl ⟨phi, hphi, rfl⟩
    · exact .inr hother
  · rw [hphis]
    rintro (⟨phi, hphi, hbase⟩ | hname)
    · exact ⟨phi, hkept hphi, hbase⟩
    · exact hall name hname

end Block

/-! ### Crossed edges -/

namespace Walk.Record

variable {φ : Type} {succ : φ → List BlockId} {r : Record φ} {frame : φ} {p q i j : BlockId}

/-- An edge from block `p` to block `i` was crossed. -/
def HasCrossed (succ : φ → List BlockId) (r : Record φ) (p i : BlockId) : Prop :=
  ∃ frame, r.frame? p = some frame ∧ i ∈ (succ frame).take (r.crossed p)

theorem hasCrossed_cross_iff (hframe : r.frame? p = some frame)
    (hj : (succ frame)[r.crossed p]? = some j) :
    (r.cross p).HasCrossed succ q i ↔ r.HasCrossed succ q i ∨ q = p ∧ i = j := by
  have hother (hqp : q ≠ p) : (r.cross p).HasCrossed succ q i ↔ r.HasCrossed succ q i := by
    unfold HasCrossed
    rw [r.crossed_cross_of_ne hqp]
    rfl
  by_cases hqp : q = p
  · subst hqp
    have htake (f : φ) (hf : r.frame? q = some f) :
        i ∈ (succ f).take (r.crossed q + 1) ↔ i ∈ (succ f).take (r.crossed q) ∨ i = j := by
      obtain rfl := Option.some.inj (hframe.symm.trans hf)
      rw [List.take_add_one, hj, List.mem_append, Option.toList_some, List.mem_singleton]
    unfold HasCrossed
    rw [crossed_cross_self]
    change (∃ f, r.frame? q = some f ∧ _) ↔ _
    constructor
    · rintro ⟨f, hf, hi⟩
      exact ((htake f hf).1 hi).imp (fun hi => ⟨f, hf, hi⟩) fun hi => ⟨rfl, hi⟩
    · rintro (⟨f, hf, hi⟩ | ⟨-, hi⟩)
      · exact ⟨f, hf, (htake f hf).2 (.inl hi)⟩
      · exact ⟨frame, hframe, (htake frame hframe).2 (.inr hi)⟩
  · rw [hother hqp]
    exact (or_iff_left fun h => hqp h.1).symm

theorem hasCrossed_enter_iff (child : φ) (hnew : r.frame? j = none) (hzero : r.crossed j = 0) :
    (r.enter j child).HasCrossed succ q i ↔ r.HasCrossed succ q i := by
  unfold HasCrossed
  by_cases hqj : q = j
  · subst hqj
    simp [hnew, hzero]
  · rw [r.frame?_enter_of_ne child hqj]
    rfl

theorem not_hasCrossed_start (k : BlockId) (frame : φ) :
    ¬(Record.start k frame).HasCrossed succ q i := by
  rintro ⟨f, -, hi⟩
  cases hi

/-- In a complete record all edges were crossed. -/
theorem Complete.hasCrossed_iff (h : r.Complete succ) :
    r.HasCrossed succ p i ↔ ∃ frame, r.frame? p = some frame ∧ i ∈ succ frame := by
  refine exists_congr fun frame => and_congr_right fun hframe => ?_
  rw [h.crossed_eq hframe, List.take_length]

end Walk.Record

/-! ### Counting phi nodes -/

private theorem length_flatMap_modify {α β : Type} {f : α → List β} {u : α → α} {l : List α}
    {i : Nat} {a : α} (h : l[i]? = some a) :
    ((l.modify i u).flatMap f).length + (f a).length = (l.flatMap f).length + (f (u a)).length := by
  induction l generalizing i with
  | nil => cases h
  | cons first rest ih =>
    cases i with
    | zero =>
      obtain rfl := Option.some.inj h
      rw [List.modify_zero_cons, List.flatMap_cons, List.flatMap_cons, List.length_append,
        List.length_append]
      omega
    | succ i =>
      have hrest := ih h
      rw [List.modify_succ_cons, List.flatMap_cons, List.flatMap_cons, List.length_append,
        List.length_append]
      omega

namespace Graph

variable {g : Graph} {wanted : Std.TreeSet String} {phis : BlockId → List Phi} {i j p : BlockId}
  {b c : Block} {frame : PlacementFrame} {name : String}

/-- The number of phi nodes in a graph. -/
def phiCount (g : Graph) : Nat :=
  (g.blocks.toList.flatMap (·.phis)).length

theorem phiCount_modify (hb : g.block? i = some b) (f : Block → Block) :
    (g.modify i f).phiCount + b.phis.length = g.phiCount + (f b).phis.length := by
  rw [phiCount, phiCount, modify, Array.toList_modify]
  exact length_flatMap_modify (by rw [Array.getElem?_toList]; exact hb)

theorem phiCount_withPhis_nil (g : Graph) : (g.withPhis fun _ => []).phiCount = 0 := by
  rw [phiCount, List.length_eq_zero_iff, List.flatMap_eq_nil_iff]
  intro c hc
  obtain ⟨i, hi⟩ := List.mem_iff_getElem?.1 hc
  rw [Array.getElem?_toList] at hi
  change (g.withPhis fun _ => []).block? i = some c at hi
  rw [block?_withPhis, Option.map_eq_some_iff] at hi
  obtain ⟨b, -, rfl⟩ := hi
  rfl

theorem phiCount_withPhis_update (hb : g.block? i = some b) (phis : BlockId → List Phi)
    (l : List Phi) : (g.withPhis (Function.update phis i l)).phiCount + (phis i).length =
      (g.withPhis phis).phiCount + l.length := by
  rw [← modify_withPhis hb]
  exact phiCount_modify (b := { b with phis := phis i }) (by rw [block?_withPhis, hb]; rfl) _

/-! ### What is offered -/

/-- At the end of block `p` placement takes a variable along: it is to be placed, and it is declared
on the way to the block along the depth-first tree or in the block. -/
def Offers (g : Graph) (wanted : Std.TreeSet String) (p : BlockId) (name : String) : Prop :=
  name ∈ wanted ∧ ∃ d ∈ g.treePath p ++ [p], g.Declares d name

theorem offers_entry_iff : g.Offers wanted g.entry name ↔
    g.Declares g.entry name ∧ name ∈ wanted := by
  rw [Offers, treePath_entry]
  simp [and_comm]

theorem offers_iff_of_parent? (h : g.parent? j = some i) : g.Offers wanted j name ↔
    g.Offers wanted i name ∨ g.Declares j name ∧ name ∈ wanted := by
  rw [Offers, Offers, treePath_of_parent? h]
  simp only [List.mem_append, List.mem_singleton, or_and_right, exists_or, exists_eq_left]
  rw [and_or_left, and_comm (b := g.Declares j name)]

/-- What is offered over an edge is offered by the block that it leaves. -/
theorem offers_of_strictlyDominates {d : BlockId} (hd : g.StrictlyDominates d i)
    (hp : p ∈ g.reachable) (edge : i ∈ g.successors p) (hdeclares : g.Declares d name)
    (hwanted : name ∈ wanted) : g.Offers wanted p name :=
  ⟨hwanted, d, hd.dominates_source edge _ (path_treePath hp), hdeclares⟩

/-- A frame of placement at block `i`. -/
structure OfferedBy (g : Graph) (wanted : Std.TreeSet String) (i : BlockId)
    (frame : PlacementFrame) : Prop where
  mem_reachable : i ∈ g.reachable
  successors : frame.successors = g.successors i
  mem_declared_iff : ∀ name, name ∈ frame.declared ↔ g.Offers wanted i name

/-- The frame of placement at a block that is entered from a frame. -/
def frameOf (wanted : Std.TreeSet String) (frame : PlacementFrame) (block : Block) :
    PlacementFrame :=
  ⟨frame.declared.insertMany (block.declared.filter (wanted.contains ·)), block.successors⟩

theorem mem_declared_frameOf_iff (hc : g.block? j = some c) :
    name ∈ (frameOf wanted frame c).declared ↔
      name ∈ frame.declared ∨ g.Declares j name ∧ name ∈ wanted := by
  rw [declares_iff hc]
  simp [frameOf]

namespace OfferedBy

theorem start (hentry : g.entry ∈ g.reachable) (hb : g.block? g.entry = some b) :
    g.OfferedBy wanted g.entry (frameOf wanted {} b) where
  mem_reachable := hentry
  successors := by
    rw [Graph.successors, hb]
    rfl
  mem_declared_iff := by
    intro name
    rw [mem_declared_frameOf_iff hb, offers_entry_iff]
    exact or_iff_right Std.TreeSet.not_mem_emptyc

/-- A block is entered from the frame of its parent. -/
theorem next (h : g.OfferedBy wanted i frame) (hparent : g.parent? j = some i)
    (hj : j ∈ g.reachable) (hc : g.block? j = some c) :
    g.OfferedBy wanted j (frameOf wanted frame c) where
  mem_reachable := hj
  successors := by
    rw [Graph.successors, hc]
    rfl
  mem_declared_iff := by
    intro name
    rw [mem_declared_frameOf_iff hc, offers_iff_of_parent? hparent, h.mem_declared_iff]

end OfferedBy

/-- What is known about the phi nodes in the middle of placement: a join has one for each variable
that was offered over an edge that was crossed. -/
structure PhisOffering (g : Graph) (wanted : Std.TreeSet String) (r : Walk.Record PlacementFrame)
    (phis : BlockId → List Phi) : Prop where
  frames : ∀ {i frame}, r.frame? i = some frame → g.OfferedBy wanted i frame
  placeholder : ∀ {i phi}, phi ∈ phis i → phi = .placeholder phi.base
  ascending : ∀ i, Phi.Ascending (phis i)
  offered_iff : ∀ {i name}, (∃ phi ∈ phis i, phi.base = name) ↔
    (∃ b, g.block? i = some b ∧ b.isJoin = true) ∧
      ∃ p, r.HasCrossed PlacementFrame.successors p i ∧ g.Offers wanted p name

/-- Where the phi nodes are that were placed for the variables in `wanted`. -/
structure PhisOffered (g : Graph) (wanted : Std.TreeSet String) (phis : BlockId → List Phi) :
    Prop where
  placeholder : ∀ {i phi}, phi ∈ phis i → phi = .placeholder phi.base
  ascending : ∀ i, Phi.Ascending (phis i)
  unreachable : ∀ {i}, i ∉ g.reachable → phis i = []
  single : ∀ {i b}, g.block? i = some b → b.predecessors.length ≤ 1 → phis i = []
  /-- A join has phi nodes for the variables that are declared on the tree path to the end of a
  block with an edge to it. -/
  offered_iff : ∀ {i b name}, i ∈ g.reachable → g.block? i = some b → 1 < b.predecessors.length →
    ((∃ phi ∈ phis i, phi.base = name) ↔ name ∈ wanted ∧
      ∃ p ∈ g.reachable, i ∈ g.successors p ∧ ∃ d ∈ g.treePath p ++ [p], g.Declares d name)
  /-- It has those that are declared in a block that strictly dominates it. -/
  dominated : ∀ {i d b name}, i ∈ g.reachable → g.block? i = some b → 1 < b.predecessors.length →
    name ∈ wanted → g.Declares d name → g.StrictlyDominates d i → ∃ phi ∈ phis i, phi.base = name
  /-- Each variable is declared in a block from which edges lead there. -/
  declared : ∀ {i phi}, phi ∈ phis i →
    ∃ d p, g.Declares d phi.base ∧ g.Reaches d p ∧ i ∈ g.successors p

namespace PhisOffering

variable {r : Walk.Record PlacementFrame} {phis' : BlockId → List Phi}

/-- An edge is crossed, over which a join gets the phi nodes for what it is offered. -/
theorem cross (h : g.PhisOffering wanted r phis) (hframe : r.frame? p = some frame)
    (hj : frame.successors[r.crossed p]? = some j) (hc : g.block? j = some c)
    (hplaceholder : ∀ {i phi}, phi ∈ phis' i → phi = .placeholder phi.base)
    (hascending : ∀ i, Phi.Ascending (phis' i))
    (hoffered : ∀ i name, (∃ phi ∈ phis' i, phi.base = name) ↔
      (∃ phi ∈ phis i, phi.base = name) ∨ i = j ∧ c.isJoin = true ∧ name ∈ frame.declared) :
    g.PhisOffering wanted (r.cross p) phis' where
  frames := h.frames
  placeholder := hplaceholder
  ascending := hascending
  offered_iff := by
    intro i name
    rw [hoffered, h.offered_iff, (h.frames hframe).mem_declared_iff]
    simp only [Walk.Record.hasCrossed_cross_iff hframe hj]
    constructor
    · rintro (⟨hjoin, q, hq, hoffers⟩ | ⟨rfl, hjoin, hoffers⟩)
      · exact ⟨hjoin, q, .inl hq, hoffers⟩
      · exact ⟨⟨c, hc, hjoin⟩, p, .inr ⟨rfl, rfl⟩, hoffers⟩
    · rintro ⟨⟨b, hb, hjoin⟩, q, hq | ⟨rfl, rfl⟩, hoffers⟩
      · exact .inl ⟨⟨b, hb, hjoin⟩, q, hq, hoffers⟩
      · obtain rfl := Option.some.inj (hb.symm.trans hc)
        exact .inr ⟨rfl, hjoin, hoffers⟩

/-- Placeholders for the variables of the frame are added to a join. -/
theorem cross_join (h : g.PhisOffering wanted r phis) (hframe : r.frame? p = some frame)
    (hj : frame.successors[r.crossed p]? = some j) (hc : g.block? j = some c)
    (hjoin : c.isJoin = true) {l : List Phi}
    (hl : Block.addPhis { c with phis := phis j } frame.declared.toList = { c with phis := l }) :
    g.PhisOffering wanted (r.cross p) (Function.update phis j l) := by
  have hphis : l = (Block.addPhis { c with phis := phis j } frame.declared.toList).phis := by
    rw [hl]
  refine h.cross hframe hj hc (fun {i phi} hphi => ?_) (fun i => ?_) fun i name => ?_
  · by_cases hij : i = j
    · subst hij
      rw [Function.update_self, hphis] at hphi
      rcases Block.of_mem_addPhis hphi with hphi | ⟨name, -, rfl⟩
      · exact h.placeholder hphi
      · rfl
    · rw [Function.update_of_ne hij] at hphi
      exact h.placeholder hphi
  · by_cases hij : i = j
    · subst hij
      rw [Function.update_self, hphis]
      exact Block.ascending_addPhis (h.ascending i) _
    · rw [Function.update_of_ne hij]
      exact h.ascending i
  · by_cases hij : i = j
    · subst hij
      rw [Function.update_self, hphis, Block.mem_addPhis_iff, Std.TreeSet.mem_toList]
      simp [hjoin]
    · rw [Function.update_of_ne hij]
      simp [hij]

/-- A block is entered, and no edge out of it was crossed so far. -/
theorem enter (h : g.PhisOffering wanted r phis) (hframe : r.frame? i = some frame)
    (hparent : g.parent? j = some i) (hnew : r.frame? j = none) (hzero : r.crossed j = 0)
    (hj : j ∈ g.reachable) (hc : g.block? j = some c) :
    g.PhisOffering wanted (r.enter j (frameOf wanted frame c)) phis where
  frames := by
    intro k f hk
    rcases r.of_frame?_enter _ hk with ⟨rfl, rfl⟩ | ⟨-, hk⟩
    · exact (h.frames hframe).next hparent hj hc
    · exact h.frames hk
  placeholder := h.placeholder
  ascending := h.ascending
  offered_iff := by
    intro k name
    simp only [Walk.Record.hasCrossed_enter_iff _ hnew hzero]
    exact h.offered_iff

theorem start (hentry : g.entry ∈ g.reachable) (hb : g.block? g.entry = some b) :
    g.PhisOffering wanted (.start g.entry (frameOf wanted {} b)) fun _ => [] where
  frames := by
    intro k f hk
    obtain ⟨rfl, rfl⟩ := Walk.Record.eq_of_frame?_start _ hk
    exact .start hentry hb
  placeholder := fun hphi => nomatch hphi
  ascending := fun _ => List.Pairwise.nil
  offered_iff := by
    intro k name
    simp only [Walk.Record.not_hasCrossed_start]
    simp

/-- After a whole walk every edge out of a reachable block was crossed. -/
theorem offered (h : g.PhisOffering wanted r phis)
    (hcomplete : r.Complete PlacementFrame.successors) (hg : g.Closed)
    (hreachable : ∀ i, i ∈ g.reachable ↔ (r.frame? i).isSome) : g.PhisOffered wanted phis := by
  -- The record is complete, so what was crossed are the edges out of reachable blocks.
  have hcrossed (p i : BlockId) : r.HasCrossed PlacementFrame.successors p i ↔
      p ∈ g.reachable ∧ i ∈ g.successors p := by
    rw [hcomplete.hasCrossed_iff, hreachable, Option.isSome_iff_exists, ← exists_and_right]
    refine exists_congr fun frame => and_congr_right fun hframe => ?_
    rw [(h.frames hframe).successors]
  have hjoin {i : BlockId} {b : Block} {name : String} (hb : g.block? i = some b)
      (hmany : 1 < b.predecessors.length) : (∃ phi ∈ phis i, phi.base = name) ↔
        ∃ p ∈ g.reachable, i ∈ g.successors p ∧ g.Offers wanted p name := by
    rw [h.offered_iff, and_iff_right ⟨b, hb, by rw [Block.isJoin, decide_eq_true hmany]⟩]
    simp only [hcrossed, and_assoc]
  have hof {i : BlockId} {phi : Phi} (hphi : phi ∈ phis i) :
      (∃ b, g.block? i = some b ∧ b.isJoin = true) ∧
        ∃ p ∈ g.reachable, i ∈ g.successors p ∧ g.Offers wanted p phi.base := by
    obtain ⟨hb, p, hp, hoffers⟩ := h.offered_iff.1 ⟨phi, hphi, rfl⟩
    obtain ⟨hp, edge⟩ := (hcrossed p i).1 hp
    exact ⟨hb, p, hp, edge, hoffers⟩
  refine ⟨h.placeholder, h.ascending, ?_, ?_, ?_, ?_, ?_⟩
  · intro i hi
    refine List.eq_nil_iff_forall_not_mem.2 fun phi hphi => hi ?_
    obtain ⟨-, p, hp, edge, -⟩ := hof hphi
    exact hg.mem_reachable hp edge
  · intro i b hb hone
    refine List.eq_nil_iff_forall_not_mem.2 fun phi hphi => ?_
    obtain ⟨⟨b', hb', hmany⟩, -⟩ := hof hphi
    obtain rfl := Option.some.inj (hb.symm.trans hb')
    exact absurd (of_decide_eq_true hmany) (Nat.not_lt.2 hone)
  · intro i b name _ hb hmany
    rw [hjoin hb hmany]
    constructor
    · rintro ⟨p, hp, edge, hwanted, hway⟩
      exact ⟨hwanted, p, hp, edge, hway⟩
    · rintro ⟨hwanted, p, hp, edge, hway⟩
      exact ⟨p, hp, edge, hwanted, hway⟩
  · intro i d b name hi hb hmany hwanted hdeclares hd
    have hne : i ≠ g.entry := by
      rintro rfl
      cases hd.2 [] .entry
    -- Whichever edge leads there, the dominating block is on the way to it.
    obtain ⟨p, hp, edge⟩ := exists_reachable_predecessor hi hne
    exact (hjoin hb hmany).2
      ⟨p, hp, edge, offers_of_strictlyDominates hd hp edge hdeclares hwanted⟩
  · intro i phi hphi
    obtain ⟨-, p, hp, edge, -, d, hd, hdeclares⟩ := hof hphi
    exact ⟨d, p, hdeclares, hg.reaches_of_mem_path (path_treePath hp) hd, edge⟩

end PhisOffering

end Graph

namespace PlacementState

variable {g : Graph} {wanted : Std.TreeSet String} {phis : BlockId → List Phi} {j : BlockId}
  {c : Block} {s : PlacementState}

/-- A join gets phi nodes for the variables of the frame, which are counted. -/
theorem exists_cross_of_isJoin (frame : PlacementFrame) (hs : s.graph = g.withPhis phis)
    (hc : g.block? j = some c) (hjoin : c.isJoin = true) :
    ∃ l, Block.addPhis { c with phis := phis j } frame.declared.toList = { c with phis := l } ∧
      cross frame j s =
        ⟨g.withPhis (Function.update phis j l), s.added + (l.length - (phis j).length)⟩ := by
  obtain ⟨l, hl, -⟩ := Block.exists_addPhis { c with phis := phis j } frame.declared.toList
  have hblock : s.graph.block? j = some { c with phis := phis j } := by
    rw [hs, Graph.block?_withPhis, hc, Option.map_some]
  have hsame : Block.isJoin { c with phis := phis j } = true := hjoin
  refine ⟨l, hl, ?_⟩
  unfold cross
  rw [hblock]
  simp only [hsame, if_true]
  rw [hl, hs, Graph.modify_withPhis hc]

end PlacementState

/-- What is known of placement along the depth-first tree. -/
theorem ordered_placementWalk {g : Graph} (hg : g.Closed) (wanted : Std.TreeSet String) :
    (placementWalk wanted).Ordered g PlacementFrame.successors fun _ r s =>
      ∃ phis, s.graph = g.withPhis phis ∧ s.added = s.graph.phiCount ∧
        g.PhisOffering wanted r phis where
  slots := fun _ _ => rfl
  cross := by
    rintro order r s i frame j ⟨phis, hs, hadded, h⟩ hframe hj hreachable
    obtain ⟨c, hc⟩ := hg.exists_block? hreachable
    cases hjoin : c.isJoin with
    | false =>
      have hsame : (placementWalk wanted).cross frame j s = s :=
        PlacementState.cross_of_not_isJoin frame hs hc hjoin
      rw [hsame]
      exact ⟨phis, hs, hadded, h.cross hframe hj hc h.placeholder h.ascending fun i name => by
        simp [hjoin]⟩
    | true =>
      obtain ⟨l, hl, hcross⟩ := PlacementState.exists_cross_of_isJoin frame hs hc hjoin
      have hmove : (placementWalk wanted).cross frame j s = _ := hcross
      rw [hmove]
      refine ⟨Function.update phis j l, rfl, ?_, h.cross_join hframe hj hc hjoin hl⟩
      -- The answer grows by what the join has got, and nothing is taken away from it.
      have hcount := Graph.phiCount_withPhis_update hc phis l
      have hlength := (Block.sublist_addPhis { c with phis := phis j }
        frame.declared.toList).length_le
      rw [hl] at hlength
      rw [hs] at hadded
      simp only at hlength ⊢
      omega
  enter := by
    rintro order r s i frame j ⟨phis, hs, hadded, h⟩ hframe hparent hnew hzero - hj
    obtain ⟨c, hc⟩ := hg.exists_block? hj
    refine ⟨_, s, PlacementState.enter_eq_ok frame hs hc, ?_, phis, hs, hadded,
      h.enter hframe hparent hnew hzero hj hc⟩
    rw [Graph.successors, hc]
    rfl

/-- Where all that is offered has phi nodes, placement changes nothing along the depth-first
tree. -/
theorem ordered_placementWalk_of_offered {g : Graph} {wanted : Std.TreeSet String}
    {phis : BlockId → List Phi} (hg : g.Closed) (hphis : g.PhisOffered wanted phis) :
    (placementWalk wanted).Ordered g PlacementFrame.successors fun _ r s =>
      s = ⟨g.withPhis phis, 0⟩ ∧
        ∀ {i frame}, r.frame? i = some frame → g.OfferedBy wanted i frame where
  slots := fun _ _ => rfl
  cross := by
    rintro order r s i frame j ⟨rfl, hframes⟩ hframe hj hreachable
    refine ⟨?_, hframes⟩
    obtain ⟨c, hc⟩ := hg.exists_block? hreachable
    change PlacementState.cross frame j _ = _
    cases hjoin : c.isJoin with
    | false => exact PlacementState.cross_of_not_isJoin frame rfl hc hjoin
    | true =>
      obtain ⟨hi, hsuccessors, hdeclared⟩ := hframes hframe
      have edge : j ∈ g.successors i := hsuccessors ▸ List.mem_of_getElem? hj
      obtain ⟨l, hl, hcross⟩ :=
        PlacementState.exists_cross_of_isJoin (s := ⟨g.withPhis phis, 0⟩) frame rfl hc hjoin
      -- Nothing is offered that has no phi node.
      have hsame : l = phis j := by
        rw [Block.addPhis_of_forall fun name hname => ?_] at hl
        · exact (congrArg Block.phis hl).symm
        · obtain ⟨hwanted, hway⟩ := (hdeclared name).1 (Std.TreeSet.mem_toList.1 hname)
          exact (hphis.offered_iff hreachable hc (of_decide_eq_true hjoin)).2
            ⟨hwanted, i, hi, edge, hway⟩
      rw [hcross, hsame, Function.update_eq_self, Nat.sub_self]
  enter := by
    rintro order r s i frame j ⟨rfl, hframes⟩ hframe hparent hnew - - hj
    obtain ⟨c, hc⟩ := hg.exists_block? hj
    refine ⟨_, _, PlacementState.enter_eq_ok frame rfl hc, ?_, rfl, fun {k f} hk => ?_⟩
    · rw [Graph.successors, hc]
      rfl
    · rcases r.of_frame?_enter _ hk with ⟨rfl, rfl⟩ | ⟨-, hk⟩
      · exact (hframes hframe).next hparent hj hc
      · exact hframes hk

namespace Edit

variable {g : Graph} {phis : BlockId → List Phi}

/-- Placement in a graph without dangling edges that has no phi nodes succeeds, places what is
offered, and answers how many phi nodes there are. -/
theorem run_placePhis_of_closed (hg : g.Closed)
    (hnone : ∀ {i b}, g.block? i = some b → b.phis = []) (wanted : Std.TreeSet String) :
    ∃ added phis, (placePhis wanted).run g = .ok added (g.withPhis phis) ∧
      added = (g.withPhis phis).phiCount ∧ g.PhisOffered wanted phis := by
  have hentry : g.entry ∈ g.reachable := Graph.mem_reachable_iff.2 ⟨hg.entry, .refl⟩
  obtain ⟨b, hb⟩ := hg.exists_block? hentry
  have hstate : (PlacementState.mk g 0).graph = g.withPhis fun _ => [] :=
    (Graph.withPhis_nil hnone).symm
  have hzero : 0 = (PlacementState.mk g 0).graph.phiCount := by
    rw [hstate, Graph.phiCount_withPhis_nil]
  obtain ⟨r, t, hrun, ⟨phis, ht, hadded, hoffering⟩, hcomplete, hreachable, -⟩ :=
    (ordered_placementWalk hg wanted).exists_run hg {} (PlacementState.enter_eq_ok _ hstate hb)
      (by rw [Graph.successors, hb]; rfl) ⟨_, hstate, hzero, .start hentry hb⟩
  refine ⟨t.added, phis, ?_, ht ▸ hadded, hoffering.offered hcomplete hg hreachable⟩
  rw [← ht]
  simp only [EStateM.run, placePhis, hrun]

/-- In particular a join has phi nodes for what a block declares that strictly dominates it. -/
theorem run_placePhis (hg : g.Mirrored) (hroot : g.Rooted)
    (hnone : ∀ {i b}, g.block? i = some b → b.phis = []) (wanted : Std.TreeSet String) :
    ∃ added phis, (placePhis wanted).run g = .ok added (g.withPhis phis) ∧
      g.PhisPlaced wanted phis := by
  obtain ⟨e, he, -⟩ := hroot
  have hclosed := hg.closed he
  obtain ⟨added, phis, hrun, -, h⟩ := run_placePhis_of_closed hclosed hnone wanted
  refine ⟨added, phis, hrun, h.placeholder, fun {i b phi} hb hphi => ?_,
    fun {d j before c name} hdeclares hwanted hd path hc hjoin => ?_⟩
  · refine decide_eq_true (Nat.lt_of_not_le fun hone => ?_)
    rw [h.single hb hone] at hphi
    cases hphi
  · exact h.dominated (hclosed.mem_reachable_of_path path) hc (of_decide_eq_true hjoin) hwanted
      hdeclares hd

/-- Placing what is there already changes nothing. -/
theorem run_placePhis_of_offered {wanted : Std.TreeSet String} (hg : g.Closed)
    (hphis : g.PhisOffered wanted phis) :
    (placePhis wanted).run (g.withPhis phis) = .ok 0 (g.withPhis phis) := by
  have hentry : g.entry ∈ g.reachable := Graph.mem_reachable_iff.2 ⟨hg.entry, .refl⟩
  obtain ⟨b, hb⟩ := hg.exists_block? hentry
  obtain ⟨r, t, hrun, ⟨rfl, -⟩, -⟩ :=
    (ordered_placementWalk_of_offered hg hphis).exists_run hg {}
      (PlacementState.enter_eq_ok _ rfl hb) (by rw [Graph.successors, hb]; rfl)
      ⟨rfl, fun {k f} hk => by
        obtain ⟨rfl, rfl⟩ := Walk.Record.eq_of_frame?_start _ hk
        exact .start hentry hb⟩
  have hsize : (g.withPhis phis).size = g.size := Graph.size_mapBlocks ..
  have hentry_eq : (g.withPhis phis).entry = g.entry := rfl
  simp only [EStateM.run, placePhis, hsize, hentry_eq, hrun]

/-- When a graph passes the check of its edges, its entry is live and it has no phi nodes, placement
puts a phi node for a variable into a join exactly if it is offered there. It answers the number of
phi nodes, and to place them again changes nothing. -/
theorem placesOffered {b : Block} (hn : g.Numbered) (hcheck : g.checkEdges = .ok ())
    (hb : g.Live g.entry b) (hnone : ∀ {i b}, g.block? i = some b → b.phis = [])
    (wanted : Std.TreeSet String) :
    ∃ added phis, (placePhis wanted).run g = .ok added (g.withPhis phis) ∧
      added = (g.withPhis phis).phiCount ∧ g.PhisOffered wanted phis ∧
        (placePhis wanted).run (g.withPhis phis) = .ok 0 (g.withPhis phis) := by
  have hg : g.Closed := ((Graph.checkEdges_eq_ok_iff hn).1 hcheck).closed hb
  obtain ⟨added, phis, hrun, hadded, hoffered⟩ := run_placePhis_of_closed hg hnone wanted
  exact ⟨added, phis, hrun, hadded, hoffered, run_placePhis_of_offered hg hoffered⟩

/-- A loop with a variable that is declared before it and one that is declared in its body. The last
block cannot be reached. -/
private def scattering : Graph :=
  { blocks := #[
      { id := 0, kind := .base, statements := [.declaration "x" "int" none], successors := [1] },
      { id := 1, kind := .condition, statements := [.ident "x"], predecessors := [0, 2],
        successors := [2, 3] },
      { id := 2, kind := .base, statements := [.declaration "y" "int" none], predecessors := [1],
        successors := [1] },
      { id := 3, kind := .base, statements := [.ret none], predecessors := [1] },
      { id := 4, kind := .base, statements := [.declaration "z" "int" none] }]
    exit := 3 }

private theorem exists_of_block?_scattering {i : BlockId} {b : Block}
    (hb : scattering.block? i = some b) : b.id = i ∧ b.phis = [] := by
  obtain ⟨hi, rfl⟩ := Array.getElem?_eq_some_iff.1 hb
  have hblocks : ∀ i : Fin 5, scattering.blocks[i].id = i ∧ scattering.blocks[i].phis = [] := by
    decide
  exact hblocks ⟨i, hi⟩

theorem placesOffered_scattering :
    scattering.Numbered ∧ scattering.checkEdges = .ok () ∧ (∃ b, scattering.Live 0 b) ∧
      (∀ {i b}, scattering.block? i = some b → b.phis = []) ∧
      ∃ added phis, (placePhis {"x", "y"}).run scattering = .ok added (scattering.withPhis phis) ∧
        added = (scattering.withPhis phis).phiCount ∧ scattering.PhisOffered {"x", "y"} phis ∧
          (placePhis {"x", "y"}).run (scattering.withPhis phis) =
            .ok 0 (scattering.withPhis phis) := by
  have hn : scattering.Numbered := fun i b hb => (exists_of_block?_scattering hb).1
  have hcheck : scattering.checkEdges = .ok () := rfl
  have hb : scattering.Live 0 _ := ⟨rfl, rfl⟩
  have hnone : ∀ {i b}, scattering.block? i = some b → b.phis = [] :=
    fun hb => (exists_of_block?_scattering hb).2
  exact ⟨hn, hcheck, ⟨_, hb⟩, hnone, placesOffered hn hcheck hb hnone _⟩

end Edit

end FlowGraph
