import Std.Data.TreeMap
import Std.Data.TreeSet

/-!
# Versions of variables

A version of a variable is its name, an underscore and a number. The versions of a variable are
numbered from zero in the order in which they are handed out, whatever happens to other variables.

## Main definitions

* `versionName`: the name of a version
* `Versions`: how many versions of each variable there are
* `Versions.fresh`: hand out the next version of a variable

## Main results

* `Versions.count_fresh`: handing out a version is counted for that variable alone
-/

namespace FlowGraph

/-- The name of version `n` of a variable. -/
def versionName (name : String) (n : Nat) : String :=
  s!"{name}_{n}"

/-- How many versions of each variable were handed out. -/
structure Versions where
  counts : Std.TreeMap String Nat := ∅

namespace Versions

instance : Inhabited Versions := ⟨{}⟩

/-- How many versions of a variable were handed out. -/
def count (versions : Versions) (name : String) : Nat :=
  versions.counts[name]?.getD 0

/-- The versions at the start, with an entry for each declared variable. -/
def start (declared : Std.TreeSet String) : Versions :=
  ⟨declared.foldl (fun counts name => counts.insert name 0) ∅⟩

/-- The next version of a variable, and the versions after it was handed out. -/
def fresh (versions : Versions) (name : String) : String × Versions :=
  (versionName name (versions.count name),
    ⟨versions.counts.insert name (versions.count name + 1)⟩)

theorem count_fresh (versions : Versions) (name other : String) :
    (versions.fresh name).2.count other =
      if name = other then versions.count name + 1 else versions.count other := by
  simp only [fresh, count, Std.TreeMap.getElem?_insert, Std.compare_eq_iff_eq]
  split <;> simp_all

end Versions

end FlowGraph
