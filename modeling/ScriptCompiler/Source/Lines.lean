import ScriptCompiler.Source.Position

/-!
# Lines and columns of a text

Parts of a text between byte offsets, and the line and column of an offset, both counted from one.
Lines end at line feeds and columns count characters. Here the text is walked from its start; an
index of the text finds the same lines and columns by a search.
-/

namespace ScriptCompiler.Lines

/-- Number of bytes of a text. -/
def byteLength : List Char → Nat
  | [] => 0
  | c :: rest => c.utf8Size + byteLength rest

/-- The text up to the byte offset `target` and from there on, if no character goes on over it. -/
def splitBytes? : List Char → Nat → Option (List Char × List Char)
  | text, 0 => some ([], text)
  | [], _ + 1 => none
  | c :: rest, target + 1 =>
    if target + 1 < c.utf8Size then none
    else (splitBytes? rest (target + 1 - c.utf8Size)).map (Prod.map (c :: ·) id)

/-- The text between two byte offsets. -/
def slice? (text : List Char) (start stop : Nat) : Option (List Char) :=
  if start ≤ stop then
    (splitBytes? text start).bind fun parts => (splitBytes? parts.2 (stop - start)).map Prod.fst
  else none

/-- The characters of a text that starts at `position`, each after its byte offset. -/
def charIndices : Nat → List Char → List (Nat × Char)
  | _, [] => []
  | position, c :: rest => (position, c) :: charIndices (position + c.utf8Size) rest

/-- Line and column of the offset `target` in a text that starts at `p` on a line whose first byte
    is at `lineStart`. An offset inside a character counts the bytes of its line instead of the
    characters; an offset past the end is taken to the end. -/
def locateFrom : List Char → Position → Nat → Nat → Nat × Nat
  | [], p, _, _ => (p.line, p.column)
  | c :: rest, p, lineStart, target =>
    if target ≤ p.offset then (p.line, p.column)
    else if target < p.offset + c.utf8Size then (p.line, target - lineStart + 1)
    else
      locateFrom rest (p.advance c) (if c = '\n' then p.offset + 1 else lineStart) target

/-- Line and column of a byte offset. -/
def locate (text : List Char) (target : Nat) : Nat × Nat :=
  locateFrom text Position.start 0 target

end ScriptCompiler.Lines
