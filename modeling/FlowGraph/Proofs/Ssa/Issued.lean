import FlowGraph.Proofs.Ssa.Definition

/-!
# Versions that were handed out

The name of a version tells which version of which variable it is: what follows its last underscore
is the number, and what comes before it is the variable. Since the versions of a variable are
numbered in the order in which they are handed out, a version that is handed out is none of those
that are current.

## Main definitions

* `Naming.Issued`: all current versions were handed out before
* `Naming.Leads`: a naming out of which another one has come

## Main results

* `versionName_injective`: the variable and the number of a version
* `Naming.Issued.statement`, `Naming.Issued.block`: renaming keeps current versions issued
* `Naming.Issued.current_ne_fresh`: a version that is handed out is not current
-/

namespace FlowGraph

theorem toList_versionName (name : String) (n : Nat) :
    (versionName name n).toList = name.toList ++ '_' :: Nat.toDigits 10 n := by
  have h : versionName name n = name ++ "_" ++ toString n := rfl
  simp [h]

/-- No digit is an underscore. -/
private theorem not_mem_toDigits (n : Nat) : '_' ∉ Nat.toDigits 10 n := by
  intro h
  have hdigit := Nat.isDigit_of_mem_toDigits (by decide) (by decide) h
  revert hdigit
  decide

/-- A list is split at its last underscore in one way. -/
private theorem append_underscore_inj {a b d e : List Char} (hd : '_' ∉ d) (he : '_' ∉ e)
    (h : a ++ '_' :: d = b ++ '_' :: e) : a = b ∧ d = e := by
  rcases List.append_eq_append_iff.1 h with ⟨c, rfl, hc⟩ | ⟨c, rfl, hc⟩ <;> cases c with
  | nil => simpa [eq_comm] using hc
  | cons x c =>
    -- One of the two rests would have another underscore in it.
    have hmem := (List.cons.inj hc).2
    simp_all

/-- A version determines its variable and its number. -/
theorem versionName_injective {name other : String} {n m : Nat}
    (h : versionName name n = versionName other m) : name = other ∧ n = m := by
  have hlist := congrArg String.toList h
  rw [toList_versionName, toList_versionName] at hlist
  obtain ⟨hname, hdigits⟩ :=
    append_underscore_inj (not_mem_toDigits n) (not_mem_toDigits m) hlist
  refine ⟨String.toList_inj.1 hname, ?_⟩
  rw [← Nat.ofDigitChars_ten_toDigits (n := n), hdigits, Nat.ofDigitChars_ten_toDigits]

/-- A version is longer than its variable. -/
theorem versionName_ne (name : String) (n : Nat) : versionName name n ≠ name := by
  intro h
  have hlength := congrArg (fun s => s.toList.length) h
  simp [toList_versionName] at hlength

theorem Versions.count_le_count_fresh (versions : Versions) (name other : String) :
    versions.count other ≤ (versions.fresh name).2.count other := by
  rw [count_fresh]
  split
  · rename_i h
    rw [h]
    exact Nat.le_succ _
  · exact Nat.le_refl _

namespace Naming

/-- Every current version was handed out before. -/
def Issued (naming : Naming) : Prop :=
  ∀ ⦃name version : String⦄, naming.current[name]? = some version →
    ∃ n < naming.versions.count name, version = versionName name n

/-- The versions of `naming` were handed out before those of `naming'`. -/
def Leads (naming naming' : Naming) : Prop :=
  ∀ name, naming.versions.count name ≤ naming'.versions.count name

theorem Leads.trans {first second third : Naming} (h : first.Leads second)
    (h' : second.Leads third) : first.Leads third :=
  fun name => Nat.le_trans (h name) (h' name)

variable {naming : Naming}

theorem issued_empty (versions : Versions) : Issued ⟨∅, versions⟩ := by
  intro name version h
  rw [Std.TreeMap.getElem?_emptyc] at h
  cases h

/-- Versions stay issued when others are handed out. -/
theorem Issued.mono (h : naming.Issued) {versions : Versions}
    (hle : ∀ name, naming.versions.count name ≤ versions.count name) :
    Issued ⟨naming.current, versions⟩ := by
  intro name version hversion
  obtain ⟨n, hn, rfl⟩ := h hversion
  exact ⟨n, Nat.lt_of_lt_of_le hn (hle name), rfl⟩

/-- The version that is handed out next is current for no variable. -/
theorem Issued.current_ne_fresh (h : naming.Issued) {name : String} (other : String) :
    naming.current[name]? ≠ some (naming.define other).1 := by
  intro hversion
  obtain ⟨n, hn, heq⟩ := h hversion
  obtain ⟨rfl, rfl⟩ := versionName_injective heq
  exact Nat.lt_irrefl _ hn

/-- Two variables have no current version in common. -/
theorem Issued.eq_of_current_eq (h : naming.Issued) {name other version : String}
    (hname : naming.current[name]? = some version)
    (hother : naming.current[other]? = some version) : name = other := by
  obtain ⟨n, -, rfl⟩ := h hname
  obtain ⟨m, -, heq⟩ := h hother
  exact (versionName_injective heq).1

theorem leads_define (naming : Naming) (name : String) : naming.Leads (naming.define name).2 :=
  naming.versions.count_le_count_fresh name

theorem Issued.define (h : naming.Issued) (name : String) : (naming.define name).2.Issued := by
  intro other version hversion
  rw [current_define, lastDefinition_singleton] at hversion
  split at hversion
  · rename_i hother
    refine ⟨naming.versions.count name, ?_, ?_⟩
    · change _ < (naming.versions.fresh name).2.count other
      rw [Versions.count_fresh, if_pos hother.symm]
      exact Nat.lt_succ_self _
    · rw [hother]
      exact (Option.some.inj hversion).symm
  · exact h.mono (naming.leads_define name) hversion

theorem leads_statement (naming : Naming) (s : Node) : naming.Leads (naming.statement s).2 := by
  cases h : s.defined? with
  | none =>
    rw [naming.statement_of_defined?_eq_none s h]
    exact fun _ => Nat.le_refl _
  | some name =>
    rw [naming.statement_of_defined?_eq_some s h]
    exact naming.leads_define name

theorem Issued.statement (h : naming.Issued) (s : Node) : (naming.statement s).2.Issued := by
  cases hs : s.defined? with
  | none => rwa [naming.statement_of_defined?_eq_none s hs]
  | some name =>
    rw [naming.statement_of_defined?_eq_some s hs]
    exact h.define name

theorem leads_statements (naming : Naming) (statements : List Node) :
    naming.Leads (naming.statements statements).2 := by
  induction statements generalizing naming with
  | nil => exact fun _ => Nat.le_refl _
  | cons s rest ih => exact (naming.leads_statement s).trans (ih _)

theorem Issued.statements (h : naming.Issued) (statements : List Node) :
    (naming.statements statements).2.Issued := by
  induction statements generalizing naming with
  | nil => exact h
  | cons s rest ih => exact ih (h.statement s)

theorem leads_phis (naming : Naming) (phis : List Phi) : naming.Leads (naming.phis phis).2 := by
  induction phis generalizing naming with
  | nil => exact fun _ => Nat.le_refl _
  | cons first rest ih => exact (naming.leads_define first.base).trans (ih _)

theorem Issued.phis (h : naming.Issued) (phis : List Phi) : (naming.phis phis).2.Issued := by
  induction phis generalizing naming with
  | nil => exact h
  | cons first rest ih => exact ih (h.define first.base)

theorem leads_block (naming : Naming) (block : Block) : naming.Leads (naming.block block).2 :=
  (naming.leads_phis block.phis).trans (leads_statements _ block.statements)

theorem Issued.block (h : naming.Issued) (block : Block) : (naming.block block).2.Issued :=
  (h.phis block.phis).statements block.statements

/-- Each statement of a list is renamed from versions that were handed out before and that are the
last definitions so far. -/
theorem Issued.exists_statement (h : naming.Issued) {statements : List Node} {k : Nat} {s : Node}
    (hs : statements[k]? = some s) :
    ∃ here : Naming, here.Issued ∧
      (naming.statements statements).1[k]? = some (here.statement s).1 ∧
      ∀ name, here.current[name]? = (lastDefinition name (definitions (statements.take k)
        ((naming.statements statements).1.take k))).or naming.current[name]? := by
  -- The versions that a statement starts from are those after the statements before it.
  induction statements generalizing naming k with
  | nil => cases hs
  | cons first rest ih =>
    rw [statements_cons]
    cases k with
    | zero =>
      obtain rfl := Option.some.inj hs
      exact ⟨naming, h, rfl, fun _ => rfl⟩
    | succ k =>
      obtain ⟨here, hissued, hs', hcurrent⟩ := ih (h.statement first) hs
      refine ⟨here, hissued, hs', fun name => ?_⟩
      rw [hcurrent, List.take_succ_cons, List.take_succ_cons, definitions_cons,
        lastDefinition_append, Option.or_assoc, ← current_statement]

end Naming

end FlowGraph
