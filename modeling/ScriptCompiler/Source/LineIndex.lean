import ScriptCompiler.Source.Lines

/-!
# The line index of a text

The offsets at which the lines of a text start are found once and kept in order, so that the line of
an offset is found by halving. Lines and columns are handed out and taken as words of 32 bits.
-/

namespace ScriptCompiler

/-- The byte offsets at which the lines of a text start. The first line starts at zero. -/
structure LineIndex where
  starts : Array Nat
  head : starts[0]? = some 0

namespace LineIndex

/-- The offsets behind the line feeds among bytes of which the first is at `position`. -/
def feedEnds (position : Nat) (bytes : List UInt8) : List Nat :=
  ((bytes.zipIdx position).filter fun entry => entry.1 == 10).map fun entry => entry.2 + 1

def ofText (text : List Char) : LineIndex where
  starts := (0 :: feedEnds 0 (text.flatMap String.utf8EncodeChar)).toArray
  head := rfl

/-- The end of a search among `size` entries: the entry that was looked for, or the place where it
    belongs. -/
inductive Found (size : Nat) where
  | present (i : Fin size)
  | absent (i : Fin (size + 1))

/-- Halves the window of `count` entries from `base` on until one entry is left. -/
def narrow (entries : Array Nat) (target base count : Nat) (hcount : 0 < count)
    (hbound : base + count ≤ entries.size) : Fin entries.size :=
  if h : 1 < count then
    if target < entries[base + count / 2] then
      narrow entries target base (count - count / 2) (by omega) (by omega)
    else narrow entries target (base + count / 2) (count - count / 2) (by omega) (by omega)
  else ⟨base, by omega⟩
termination_by count

/-- Binary search in sorted entries. -/
def search (entries : Array Nat) (target : Nat) : Found entries.size :=
  if h : 0 < entries.size then
    let i := narrow entries target 0 entries.size h (by omega)
    match compare entries[i] target with
    | .lt => .absent i.succ
    | .eq => .present i
    | .gt => .absent i.castSucc
  else .absent 0

theorem size_pos (index : LineIndex) : 0 < index.starts.size :=
  (Array.getElem?_eq_some_iff.mp index.head).1

/-- The line of an offset, counted from zero: the last one that does not start behind it. -/
def lineOf (index : LineIndex) (target : Nat) : Fin index.starts.size :=
  match search index.starts target with
  | .present i => i
  | .absent i => ⟨i - 1, by have := index.size_pos; omega⟩

/-- Where the line of an offset starts. -/
def lineStart (index : LineIndex) (target : Nat) : Nat :=
  index.starts[index.lineOf target]

/-- Line and column of a byte offset in `text`, each counted from one. An offset past the end is
    taken to the end, and one inside a character counts the bytes of its line instead of the
    characters. -/
def locate (index : LineIndex) (text : List Char) (target : Nat) : UInt32 × UInt32 :=
  let target := min target (Lines.byteLength text)
  let lineStart := index.lineStart target
  let column := ((Lines.slice? text lineStart target).map List.length).getD (target - lineStart)
  ((index.lineOf target).val.toUInt32 + 1, column.toUInt32 + 1)

/-- Byte offset of a line and column in `text`, each counted from one. A column past the end of its
    line is taken to that end, and a line past the last one to the end of the text. There is none if
    the line does not start between two characters of the text, as the index may be another text's.
    -/
def offset (index : LineIndex) (text : List Char) (line column : UInt32) : Option Nat :=
  match index.starts[line.toNat - 1]? with
  | none => some (Lines.byteLength text)
  | some lineStart =>
    (Lines.splitBytes? text lineStart).map fun (_, rest) =>
      let chars := Lines.charIndices 0 rest
      let lineEnd := ((chars.find? fun (_, c) => c = '\n').map fun (i, _) => lineStart + i).getD
        (Lines.byteLength text)
      ((chars.takeWhile fun (_, c) => c ≠ '\n')[column.toNat - 1]?.map fun (i, _) =>
        lineStart + i).getD lineEnd

end LineIndex

end ScriptCompiler
