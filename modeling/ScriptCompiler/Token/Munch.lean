import ScriptCompiler.Token.Basic

/-!
# The longest token at the start of a text

Words, numerals, string literals and signs are told apart by their first character. Each reader
takes the longest text of its kind.
-/

namespace ScriptCompiler.Token

def isWordStart (c : Char) : Bool :=
  c.isAlpha || c == '_'

def isWordPart (c : Char) : Bool :=
  c.isAlphanum || c == '_'

/-- Digits and the separator between them. -/
def isDigitPart (c : Char) : Bool :=
  c.isDigit || c == '_'

def isSpace (c : Char) : Bool :=
  c == ' ' || c == '\t' || c == '\r' || c == '\n' || c == '\x0c'

/-- The token of a whole word: a reserved word, a truth value or an identifier. -/
def ofWord (word : String) : Token :=
  match Keyword.ofText? word with
  | some k => .keyword k
  | none =>
    if word = "true" then .bool true
    else if word = "false" then .bool false
    else .ident word

/-- The longest word at the start of a text. -/
def wordChars (text : List Char) : List Char :=
  text.takeWhile isWordPart

/-- The longest numeral at the start of a text that begins with a digit. A point belongs to the
    numeral only if a digit follows it. -/
def numeralChars (text : List Char) : List Char :=
  let whole := text.takeWhile isDigitPart
  match text.dropWhile isDigitPart with
  | '.' :: d :: rest =>
    if d.isDigit then whole ++ '.' :: d :: rest.takeWhile isDigitPart else whole
  | _ => whole

/-- The characters up to the closing quote of a string literal whose opening quote has been read.
    A backslash takes the next character with it, which may not be a line feed. -/
def literalBody : List Char → Option (List Char)
  | [] => none
  | c :: rest =>
    if c = '"' then some []
    else if c = '\\' then
      match rest with
      | [] => none
      | d :: rest => if d = '\n' then none else (literalBody rest).map fun body => c :: d :: body
    else (literalBody rest).map fun body => c :: body

/-- The character that an escape letter stands for. -/
def escapeValue? (c : Char) : Option Char :=
  if c = 'n' then some '\n'
  else if c = 't' then some '\t'
  else if c = 'r' then some '\r'
  else if c = '\\' then some '\\'
  else if c = '"' then some '"'
  else if c = '\'' then some '\''
  else if c = '0' then some '\x00'
  else none

/-- The value of the characters between the quotes of a string literal. An unknown escape keeps its
    backslash. -/
def unescape : List Char → List Char
  | [] => []
  | c :: rest =>
    if c = '\\' then
      match rest with
      | [] => ['\\']
      | d :: rest =>
        match escapeValue? d with
        | some value => value :: unescape rest
        | none => '\\' :: d :: unescape rest
    else c :: unescape rest

/-- The longest sign at the start of a text. -/
def symbolAt? (text : List Char) : Option Symbol :=
  Symbol.all.find? fun s => s.chars.isPrefixOf text

/-- The longest token at the start of a text, with its characters. -/
def munch (text : List Char) : Option (Token × List Char) :=
  match text with
  | [] => none
  | c :: rest =>
    if isWordStart c then
      some (ofWord (String.ofList (wordChars text)), wordChars text)
    else if c.isDigit then
      some (.number (String.ofList ((numeralChars text).filter (· != '_'))), numeralChars text)
    else if c = '"' then
      (literalBody rest).map fun body =>
        (.string (String.ofList (unescape body)), '"' :: body ++ ['"'])
    else
      (symbolAt? text).map fun s => (.symbol s, s.chars)

/-- The white space and comments at the start of a text; `inComment` tells that the text begins
    inside a comment, which reaches to the end of its line. -/
def gap (inComment : Bool) : List Char → List Char
  | [] => []
  | c :: rest =>
    if inComment then
      c :: gap (c != '\n') rest
    else if isSpace c then
      c :: gap false rest
    else if c = '#' ∨ (c = '/' ∧ rest.head? = some '/') then
      c :: gap true rest
    else []

end ScriptCompiler.Token
