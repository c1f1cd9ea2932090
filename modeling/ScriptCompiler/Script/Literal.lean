import ScriptCompiler.Text.Json

/-!
# Literals of the script

String literals between double quotes and the keys of object literals.
-/

namespace ScriptCompiler.Script

/-- One character of a string literal. Quotes, backslashes and characters below the space are
    escaped. -/
def quoteChar (c : Char) : List Char :=
  if c = '\\' then ['\\', '\\']
  else if c = '"' then ['\\', '"']
  else if c = '\n' then ['\\', 'n']
  else if c = '\r' then ['\\', 'r']
  else if c = '\t' then ['\\', 't']
  else if c.toNat < 0x20 then Text.Json.unicodeEscape c
  else [c]

def quote (value : String) : String :=
  String.ofList ('"' :: value.toList.flatMap quoteChar ++ ['"'])

/-- First characters of names. -/
def isNameStart (c : Char) : Bool :=
  c.isAlpha || c == '_' || c == '$'

/-- Further characters of names. -/
def isNamePart (c : Char) : Bool :=
  c.isAlphanum || c == '_' || c == '$'

/-- Can the key stand without quotes? -/
def isPlainName : List Char → Bool
  | [] => false
  | c :: rest => isNameStart c && rest.all isNamePart

/-- A key of an object literal, quoted unless it is a plain name. -/
def objectKey (key : String) : String :=
  if isPlainName key.toList then key else quote key

end ScriptCompiler.Script
