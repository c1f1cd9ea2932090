import ScriptCompiler.Text.Join
import ScriptCompiler.Text.Quoted

/-!
# JSON documents

A document is printed either on one line without spaces or indented by two spaces per level.
Members keep the order in which they are given.
-/

namespace ScriptCompiler.Text

/-- A JSON document. Numbers are natural numbers, and members keep their order. -/
inductive Json where
  | null
  | bool (value : Bool)
  | number (value : Nat)
  | string (value : String)
  | array (items : List Json)
  | object (members : List (String × Json))
deriving Inhabited

namespace Json

/-- A control character as a backslash, `u` and four hexadecimal digits. -/
def unicodeEscape (c : Char) : List Char :=
  let digits := hexDigits c.toNat
  ['\\', 'u'] ++ List.replicate (4 - digits.length) '0' ++ digits

/-- One character of a JSON string. Only quotes, backslashes and control characters are escaped. -/
def stringChar (c : Char) : List Char :=
  if c = '"' then ['\\', '"']
  else if c = '\\' then ['\\', '\\']
  else if c = '\x08' then ['\\', 'b']
  else if c = '\t' then ['\\', 't']
  else if c = '\n' then ['\\', 'n']
  else if c = '\x0c' then ['\\', 'f']
  else if c = '\r' then ['\\', 'r']
  else if c.toNat < 0x20 then unicodeEscape c
  else [c]

def stringText (text : String) : String :=
  String.ofList ('"' :: text.toList.flatMap stringChar ++ ['"'])

def boolText (b : Bool) : String :=
  if b then "true" else "false"

mutual

/-- The text of a document on one line, without spaces. -/
def compact : Json → String
  | .null => "null"
  | .bool b => boolText b
  | .number n => toString n
  | .string s => stringText s
  | .array items => "[" ++ joinWith "," (compactItems items) ++ "]"
  | .object members => "\x7b" ++ joinWith "," (compactMembers members) ++ "\x7d"

def compactItems : List Json → List String
  | [] => []
  | item :: rest => item.compact :: compactItems rest

def compactMembers : List (String × Json) → List String
  | [] => []
  | (key, value) :: rest => (stringText key ++ ":" ++ value.compact) :: compactMembers rest

end

/-- Lines between an opening and a closing bracket, one level further in; nothing between the
    brackets of an empty sequence. -/
def bracketed (depth : Nat) (opening closing : String) : List String → String
  | [] => opening ++ closing
  | lines =>
    opening ++ "\n" ++ joinWith ",\n" (lines.map (spaces (2 * (depth + 1)) ++ ·)) ++ "\n"
      ++ spaces (2 * depth) ++ closing

mutual

/-- The text of a document at nesting depth `depth`, two spaces per level. -/
def indentedAt (depth : Nat) : Json → String
  | .null => "null"
  | .bool b => boolText b
  | .number n => toString n
  | .string s => stringText s
  | .array items => bracketed depth "[" "]" (indentedItems (depth + 1) items)
  | .object members => bracketed depth "\x7b" "\x7d" (indentedMembers (depth + 1) members)

def indentedItems (depth : Nat) : List Json → List String
  | [] => []
  | item :: rest => item.indentedAt depth :: indentedItems depth rest

def indentedMembers (depth : Nat) : List (String × Json) → List String
  | [] => []
  | (key, value) :: rest =>
    (stringText key ++ ": " ++ value.indentedAt depth) :: indentedMembers depth rest

end

/-- The text of a document over several lines, two spaces per level. -/
def indented (json : Json) : String :=
  json.indentedAt 0

end Json

end ScriptCompiler.Text
