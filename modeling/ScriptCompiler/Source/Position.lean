/-!
# Positions and spans

A position counts bytes from the start of a source and, beside that, lines and characters from one.
A span is a stretch of one source together with the line and column of its start. Counts are
unbounded; where a line index or a source map hands them out, they are cut to words of 32 bits.
-/

namespace ScriptCompiler

/-- A place in a source: bytes before it, and its line and column counted from one. -/
structure Position where
  offset : Nat
  line : Nat
  column : Nat
deriving DecidableEq, Repr, Inhabited

namespace Position

/-- The place before the first character. -/
def start : Position := ⟨0, 1, 1⟩

/-- The place after the character `c`. A line feed starts a new line. -/
def advance (p : Position) (c : Char) : Position :=
  if c = '\n' then ⟨p.offset + 1, p.line + 1, 1⟩
  else ⟨p.offset + c.utf8Size, p.line, p.column + 1⟩

/-- The place after the characters of `text`. -/
def after (p : Position) (text : List Char) : Position :=
  text.foldl advance p

@[simp] theorem after_nil (p : Position) : p.after [] = p := rfl

@[simp] theorem after_cons (p : Position) (c : Char) (text : List Char) :
    p.after (c :: text) = (p.advance c).after text := rfl

/-- Reading two texts one after the other is reading their concatenation. -/
theorem after_append (p : Position) (first second : List Char) :
    p.after (first ++ second) = (p.after first).after second :=
  List.foldl_append

end Position

/-- A stretch of the source file with number `file`: the bytes from `start` up to `stop`, and the
    line and column of its start. -/
structure Span where
  file : Nat
  start : Nat
  stop : Nat
  line : Nat
  column : Nat
deriving DecidableEq, Repr, Inhabited

namespace Span

/-- The span of no place at all. -/
def zero : Span := ⟨0, 0, 0, 0, 0⟩

def between (file : Nat) (first last : Position) : Span :=
  ⟨file, first.offset, last.offset, first.line, first.column⟩

def through (a b : Span) : Span :=
  { a with stop := max b.stop a.start }

end Span

end ScriptCompiler
