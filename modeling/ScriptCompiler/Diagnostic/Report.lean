import ScriptCompiler.Diagnostic.Basic
import ScriptCompiler.Source.LineIndex
import ScriptCompiler.Text.Join
import ScriptCompiler.Text.Width

/-!
# Annotated reports

A diagnostic with a place is shown under the line of the source that it is about, with a pointer
from the character at that place to the message. A pointer to the end of the source has no character
above it.
-/

namespace ScriptCompiler.Report

open Text (concat isBlank cellWidth)

def isLineEnd (c : Char) : Bool :=
  c == '\n' || c == '\r' || c == '\x0b' || c == '\x0c' || c == '\u0085' || c == '\u2028'
    || c == '\u2029'

/-- The lines of a source, each with its line break; a carriage return and a line feed are one. -/
def lines : List Char → List (List Char)
  | [] => []
  | [c] => [[c]]
  | c :: d :: rest =>
    if c = '\r' ∧ d = '\n' then [c, d] :: lines rest
    else if isLineEnd c then [c] :: lines (d :: rest)
    else
      match lines (d :: rest) with
      | [] => [[c]]
      | first :: others => (c :: first) :: others

/-- A line of a source: its number from one, the number of characters before it, and its text. -/
structure Line where
  number : Nat
  start : Nat
  text : List Char

/-- The last of the lines, which follow the line `current`, that starts at or before the character
    with number `index`. -/
def lineAt (index : Nat) (current : Line) : List (List Char) → Line
  | [] => current
  | text :: rest =>
    let start := current.start + current.text.length
    if start ≤ index then lineAt index ⟨current.number + 1, start, text⟩ rest else current

def trimEnd (text : List Char) : List Char :=
  (text.reverse.dropWhile isBlank).reverse

def indexed (text : List Char) : List (Char × Nat) :=
  text.zipIdx

/-- A line as it is shown: white space becomes spaces. -/
def shownLine (text : List Char) : String :=
  String.ofList <| (indexed text).flatMap fun (c, i) =>
    if isBlank c then List.replicate (cellWidth c i) ' ' else [c]

/-- Cells of the character with index `i` of a line; past its end a character has one. -/
def width (text : List Char) (i : Nat) : Nat :=
  match text[i]? with
  | some c => cellWidth c i
  | none => 1

def cell (width : Nat) (first tail : Char) : List Char :=
  match width with
  | 0 => []
  | more + 1 => first :: List.replicate more tail

/-- The pointer of a report: the column of its line, counted from zero, and whether a character
    stands there. -/
structure Pointer where
  column : Nat
  onChar : Bool

def Pointer.length (p : Pointer) : Nat :=
  (if p.onChar then p.column + 1 else p.column) + 2

/-- The row under the line, which marks the character. -/
def markRow (text : List Char) (p : Pointer) : String :=
  String.ofList <| (List.range p.length).flatMap fun i =>
    if i = p.column then
      if p.onChar then cell (width text i) '┬' '─' else cell (width text i) '│' ' '
    else cell (width text i) ' ' ' '

/-- The row that leads from the mark to the message. -/
def arrowRow (text : List Char) (p : Pointer) : String :=
  String.ofList <| (List.range p.length).flatMap fun i =>
    if i < p.column then cell (width text i) ' ' ' '
    else if i = p.column then cell (width text i) '╰' '─'
    else cell (width text i) '─' '─'

def heading (severity : Severity) (message : String) : String :=
  (match severity with
    | .error => "Error: "
    | .warning => "Warning: ") ++ message ++ "\n"

def body (file message : String) (line : Line) (p : Pointer) : String :=
  let text := trimEnd line.text
  let number := toString line.number
  let margin := Text.spaces (number.length + 2)
  concat [
    margin, "╭─[", file, ":", number, ":", toString (p.column + 1), "]\n",
    margin, "│\n",
    " ", number, " │ ", shownLine text, "\n",
    margin, "│ ", markRow text p, "\n",
    margin, "│ ", arrowRow text p, " ", message, "\n",
    String.ofList (List.replicate (number.length + 2) '─'), "╯\n"]

/-- Number of characters before the place of a diagnostic in `source`. -/
def start? (d : Diagnostic) (source : List Char) : Option Nat :=
  ((LineIndex.ofText source).offset source d.line.toUInt32 d.column.toUInt32).bind fun target =>
    (Lines.splitBytes? source target).map fun (before, _) => before.length

/-- The report of a diagnostic with a place in `source`. An empty source has no line to show. -/
def render (d : Diagnostic) (source : List Char) : String :=
  match lines source, start? d source with
  | first :: rest, some start =>
    let line := lineAt start ⟨1, 0, first⟩ rest
    heading d.severity d.message
      ++ body d.file d.message line ⟨start - line.start, decide (start < source.length)⟩
  | _, _ => heading d.severity d.message

end ScriptCompiler.Report

/-- The report if the diagnostic has a place and its source is known, the one-line form otherwise.
    -/
def ScriptCompiler.Diagnostic.render (d : Diagnostic) (source? : Option String) : String :=
  match source? with
  | some source => if d.hasLocation then Report.render d source.toList else d.display ++ "\n"
  | none => d.display ++ "\n"
