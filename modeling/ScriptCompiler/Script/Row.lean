import ScriptCompiler.Source.Position
import ScriptCompiler.SourceMap.Mapping

/-!
# Rows of a script

A script is written row by row. A row is indented by two spaces per level and ends with a line feed;
its text may itself go over several lines. A row that a node of the program starts remembers the
place of that node.
-/

namespace ScriptCompiler.Script

open Text (concat spaces)

/-- A row of the script: `indent` levels in, a text, and the place of the node that starts here. -/
structure Row where
  indent : Nat
  text : String
  origin? : Option Span
deriving DecidableEq, Repr, Inhabited

namespace Row

/-- A row with its indentation and line feed. -/
def render (row : Row) : String :=
  spaces (2 * row.indent) ++ row.text ++ "\n"

/-- The text of rows. -/
def code (rows : List Row) : String :=
  concat (rows.map render)

def lineFeeds (text : String) : Nat :=
  text.toList.count '\n'

/-- The mapping of a row that starts on line `line`, if it remembers a place. -/
def mapping? (line : Nat) (row : Row) : Option Mapping :=
  match row.origin? with
  | none => none
  | some span =>
    if span.line = 0 then none
    else some ⟨line.toUInt32, (2 * row.indent).toUInt32, span.file.toUInt32,
      (span.line - 1).toUInt32, (span.column - 1).toUInt32⟩

def mappingsFrom (line : Nat) : List Row → List Mapping
  | [] => []
  | row :: rest =>
    (row.mapping? line).toList ++ mappingsFrom (line + lineFeeds row.text + 1) rest

def mappings (rows : List Row) : List Mapping :=
  mappingsFrom 0 rows

end Row

end ScriptCompiler.Script
