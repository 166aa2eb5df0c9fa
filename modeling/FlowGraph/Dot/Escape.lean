/-!
# Escaping for DOT text

Text is put into DOT in two ways. A title is protected in full, so that any text can stand between
quotes. A line of a block label only has its angle brackets protected, because they would otherwise
open a port of the record; its quotes are protected when the label is written out.

## Main definitions

* `Dot.escapeText`: protect a whole text
* `Dot.escapeAngles`: protect angle brackets
* `Dot.escapeQuotes`: protect quotes
-/

namespace FlowGraph.Dot

/-- A character of a quoted text. A carriage return is dropped, a line feed is named, and
backslashes, quotes and angle brackets are protected by a backslash. -/
def escapeChar : Char → List Char
  | '\\' => ['\\', '\\']
  | '"' => ['\\', '"']
  | '\n' => ['\\', 'n']
  | '\r' => []
  | '<' => ['\\', '<']
  | '>' => ['\\', '>']
  | c => [c]

/-- Protects a text that is to stand between quotes. -/
def escapeText (text : String) : String :=
  String.ofList (text.toList.flatMap escapeChar)

/-- Protects the angle brackets of a text. -/
def escapeAngles (text : String) : String :=
  String.ofList (text.toList.flatMap fun c => if c = '<' ∨ c = '>' then ['\\', c] else [c])

/-- Protects the quotes of a text. -/
def escapeQuotes (text : String) : String :=
  String.ofList (text.toList.flatMap fun c => if c = '"' then ['\\', c] else [c])

end FlowGraph.Dot
