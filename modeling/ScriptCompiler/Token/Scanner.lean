import ScriptCompiler.Source.Position
import ScriptCompiler.Token.Munch

/-!
# Scanning a source

A scanner walks through the characters of one source and hands out lexemes: tokens with their text
and span. It stops for good at a character that starts no token. At the end of the source it hands
out the end token again and again.
-/

namespace ScriptCompiler

/-- A token with its text in the source and its span. -/
structure Lexeme where
  token : Token
  text : String
  span : Span
deriving DecidableEq, Repr, Inhabited

/-- Why no token starts at a position. -/
inductive LexCause where
  | unterminatedString
  | unexpectedChar (c : Char)
deriving DecidableEq, Repr, Inhabited

/-- Scanning stopped at `position`. -/
structure LexError where
  cause : LexCause
  position : Position
deriving DecidableEq, Repr, Inhabited

def LexError.message (e : LexError) : String :=
  let place := toString e.position.line ++ ":" ++ toString e.position.column
  match e.cause with
  | .unterminatedString => "unterminated string literal at " ++ place
  | .unexpectedChar c => "unexpected character '" ++ String.singleton c ++ "' at " ++ place

/-- The rest of the source with number `file`, from `position` on. -/
structure Scanner where
  file : Nat
  position : Position
  rest : List Char

namespace Scanner

def ofSource (file : Nat) (source : String) : Scanner :=
  ⟨file, Position.start, source.toList⟩

/-- Moves over the characters `text`, with which the rest begins. -/
def move (s : Scanner) (text : List Char) : Scanner :=
  { s with position := s.position.after text, rest := s.rest.drop text.length }

/-- Moves over white space and comments. -/
def skipGap (s : Scanner) : Scanner :=
  s.move (Token.gap false s.rest)

def endLexeme (s : Scanner) : Lexeme :=
  ⟨.eof, "", Span.between s.file s.position s.position⟩

/-- The lexeme of the token `token` with the characters `text` at the scanner's position. -/
def lexeme (s : Scanner) (token : Token) (text : List Char) : Lexeme :=
  ⟨token, String.ofList text, Span.between s.file s.position (s.position.after text)⟩

/-- The error at the scanner's position, where the character `c` starts no token. -/
def errorAt (s : Scanner) (c : Char) : LexError :=
  ⟨if c = '"' then .unterminatedString else .unexpectedChar c, s.position⟩

/-- The lexeme at the scanner's position, where no gap is. -/
def read (s : Scanner) : Except LexError (Lexeme × Scanner) :=
  match s.rest with
  | [] => .ok (s.endLexeme, s)
  | c :: _ =>
    match Token.munch s.rest with
    | some (token, text) => .ok (s.lexeme token text, s.move text)
    | none => .error (s.errorAt c)

/-- The next lexeme, and the scanner after it. -/
def next (s : Scanner) : Except LexError (Lexeme × Scanner) :=
  s.skipGap.read

/-- The next `count` lexemes. An error is the last step. -/
def steps : Nat → Scanner → List (Except LexError Lexeme)
  | 0, _ => []
  | count + 1, s =>
    match s.next with
    | .ok (lexeme, s) => .ok lexeme :: steps count s
    | .error e => [.error e]

/-- All lexemes up to the end token of a source with at most `bound` characters left. -/
def lexemesWithin : Nat → Scanner → Except LexError (List Lexeme)
  | 0, s => .ok [s.endLexeme]
  | bound + 1, s =>
    match s.next with
    | .error e => .error e
    | .ok (lexeme, s) =>
      if lexeme.token = .eof then .ok [lexeme]
      else (lexemesWithin bound s).map fun rest => lexeme :: rest

/-- All lexemes up to the end token. -/
def lexemes (s : Scanner) : Except LexError (List Lexeme) :=
  s.lexemesWithin s.rest.length

end Scanner

/-- All lexemes of the source with number `file`, the end token last. -/
def tokenizeFile (file : Nat) (source : String) : Except LexError (List Lexeme) :=
  (Scanner.ofSource file source).lexemes

/-- All lexemes of a source, the end token last. -/
def tokenize (source : String) : Except LexError (List Lexeme) :=
  tokenizeFile 0 source

end ScriptCompiler
