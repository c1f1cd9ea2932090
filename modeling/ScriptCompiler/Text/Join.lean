/-!
# Joining, padding and replacing text

Small text builders shared by every printer of the library. Each is defined on lists of characters,
so that its effect on the characters of the result can be read off the definition.
-/

namespace ScriptCompiler.Text

/-- All parts in order, with nothing between them. -/
def concat (parts : List String) : String :=
  String.ofList (parts.flatMap String.toList)

@[simp] theorem toList_concat (parts : List String) :
    (concat parts).toList = parts.flatMap String.toList :=
  String.toList_ofList

/-- The parts in order, with `sep` between neighbours. -/
def joinWith (sep : String) (parts : List String) : String :=
  concat (parts.intersperse sep)

/-- A run of `n` spaces. -/
def spaces (n : Nat) : String :=
  String.ofList (List.replicate n ' ')

/-- Left-aligned text: spaces follow until `width` characters are reached. -/
def padRight (width : Nat) (text : String) : String :=
  text ++ spaces (width - text.length)

/-- Every `::`, read from the left without overlaps, is replaced by `sub`. -/
def replacePair (sub : List Char) : List Char → List Char
  | [] => []
  | [c] => [c]
  | c :: d :: rest =>
    if c = ':' ∧ d = ':' then sub ++ replacePair sub rest else c :: replacePair sub (d :: rest)

/-- The text before and after the last `::`, if there is one. -/
def splitLastPair : List Char → Option (List Char × List Char)
  | [] => none
  | [_] => none
  | c :: d :: rest =>
    match splitLastPair (d :: rest) with
    | some (before, after) => some (c :: before, after)
    | none => if c = ':' ∧ d = ':' then some ([], rest) else none

/-- The text without the marks `c` at its end. -/
def trimEndOf (c : Char) (text : List Char) : List Char :=
  (text.reverse.dropWhile (· == c)).reverse

end ScriptCompiler.Text
