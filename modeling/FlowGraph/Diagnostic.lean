/-!
# Diagnostics

Remarks about a tree that do not stop its graph from being built: statements that can never run, and
shapes that are kept as they are.

## Main definitions

* `Diagnostic`: one remark, with the node shape and the function it is about
* `Diagnostics`: the remarks of a run, in the order they were made
* `Diagnostics.summary`: all of them as text
-/

namespace FlowGraph

/-- How serious a remark is. -/
inductive Severity
  | info | warning
  deriving DecidableEq, Repr

/-- The tag of a severity. -/
def Severity.text : Severity → String
  | info => "INFO"
  | warning => "WARN"

/-- What a remark is about. -/
inductive Category
  /-- The shape of a node. -/
  | traversal
  /-- Whether a statement can run. -/
  | reachability
  deriving DecidableEq, Repr

/-- The name of a category. -/
def Category.text : Category → String
  | traversal => "Traversal"
  | reachability => "Reachability"

/-- One remark. -/
structure Diagnostic where
  severity : Severity
  category : Category
  message : String
  /-- The shape of the node it is about. -/
  node : Option String := none
  /-- The function in which the node stands. -/
  function : Option String := none
  deriving DecidableEq, Repr

/-- The line of text of a remark. -/
def Diagnostic.text (d : Diagnostic) : String :=
  "[" ++ d.severity.text ++ "] " ++ d.category.text ++ ": " ++ d.message ++
    (d.node.elim "" fun node => " (node: " ++ node ++ ")") ++
    (d.function.elim "" fun function => " (in: " ++ function ++ ")")

/-- Remarks in the order they were made. -/
structure Diagnostics where
  entries : Array Diagnostic := #[]
  deriving DecidableEq, Repr

namespace Diagnostics

instance : Inhabited Diagnostics := ⟨{}⟩

/-- Adds a remark at the end. -/
def push (ds : Diagnostics) (d : Diagnostic) : Diagnostics :=
  ⟨ds.entries.push d⟩

/-- The number of remarks of one severity. -/
def count (ds : Diagnostics) (severity : Severity) : Nat :=
  ds.entries.countP (·.severity == severity)

/-- The remarks of one category, in order. -/
def inCategory (ds : Diagnostics) (category : Category) : List Diagnostic :=
  ds.entries.toList.filter (·.category == category)

/-- A heading with the counts, then one indented line for each remark. -/
def summary (ds : Diagnostics) : String :=
  s!"Diagnostics: {ds.count .warning} warning(s), {ds.count .info} info(s)\n" ++
    String.join (ds.entries.toList.map fun d => "  " ++ d.text ++ "\n")

end Diagnostics

end FlowGraph
