import ScriptCompiler.Token.Scanner
import ScriptCompiler.Syntax.Basic

/-!
# Reading lexemes

A cursor stands on one lexeme of a list that ends with the end token. It remembers the lexemes that
have been consumed and two modes of reading: inside the condition of a statement a block does not
belong to a call, and in the type after `is` or `as` a `<` may still be a comparison.

A parser consumes lexemes at the cursor and either succeeds with a value or fails with the cause and
the place of the first failure. In both cases it leaves a cursor behind.
-/

namespace ScriptCompiler

/-- A place in a list of lexemes. -/
structure Cursor where
  /-- The consumed lexemes, the latest first. -/
  before : List Lexeme
  current : Lexeme
  after : List Lexeme
  /-- Reading the condition of a statement: a block ends it. -/
  inCondition : Bool
  /-- Reading the type after `is` or `as`. -/
  inTypeOperand : Bool

namespace Cursor

/-- The end token that follows the lexeme `last`. -/
def endAfter (last : Lexeme) : Lexeme :=
  ⟨.eof, "", { last.span with start := last.span.stop }⟩

/-- A cursor on the first of the lexemes. An end token is added if the last one is none. -/
def ofLexemes : List Lexeme → Cursor
  | [] => ⟨[], ⟨.eof, "", Span.zero⟩, [], false, false⟩
  | first :: rest =>
    let last := (first :: rest).getLast (List.cons_ne_nil first rest)
    ⟨[], first, if last.token = .eof then rest else rest ++ [endAfter last], false, false⟩

def token (c : Cursor) : Token :=
  c.current.token

def nextToken (c : Cursor) : Token :=
  match c.after with
  | [] => .eof
  | next :: _ => next.token

def previousSpan (c : Cursor) : Span :=
  match c.before with
  | [] => c.current.span
  | previous :: _ => previous.span

/-- The cursor on the next lexeme. At the last one it stays, even if that has been consumed. -/
def advance (c : Cursor) : Cursor :=
  match c.after with
  | [] => { c with before := c.current :: c.before }
  | next :: rest => { c with before := c.current :: c.before, current := next, after := rest }

end Cursor

/-- What the grammar asked for and did not find. -/
inductive ParseCause where
  | expectedToken (wanted found : Token)
  | expectedIdentifier (found : Token)
  | expectedMemberName (found : Token)
  | unknownMarker (name : String)
  | expectedTarget (marker : String) (found : Token)
  | expectedMemberRest (found : Token)
  | expectedMember (found : Token)
  | expectedExpression (found : Token)
  | expectedType (found : Token)
  | invalidTarget
deriving DecidableEq, Repr, Inhabited

def ParseCause.message : ParseCause → String
  | .expectedToken wanted found =>
    "expected '" ++ wanted.display ++ "', found '" ++ found.display ++ "'"
  | .expectedIdentifier found => "expected identifier, found '" ++ found.display ++ "'"
  | .expectedMemberName found => "expected member name, found '" ++ found.display ++ "'"
  | .unknownMarker name => "unknown attribute '@" ++ name ++ "'"
  | .expectedTarget marker found =>
    "expected string literal in '@" ++ marker ++ "', found '" ++ found.display ++ "'"
  | .expectedMemberRest found =>
    "expected '(', ':', '=' or ';' after member name, found '" ++ found.display ++ "'"
  | .expectedMember found =>
    "expected class member (constructor, method or field), found '" ++ found.display ++ "'"
  | .expectedExpression found => "expected expression, found '" ++ found.display ++ "'"
  | .expectedType found => "expected type, found '" ++ found.display ++ "'"
  | .invalidTarget => "invalid assignment target"

/-- The first failure of a parse, and its place. -/
structure ParseError where
  cause : ParseCause
  span : Span
deriving DecidableEq, Repr, Inhabited

/-- The wording of a failure without its place. -/
def ParseError.detail (e : ParseError) : String :=
  e.cause.message

/-- The wording of a failure with its place. -/
def ParseError.message (e : ParseError) : String :=
  e.detail ++ " at " ++ toString e.span.line ++ ":" ++ toString e.span.column

/-- Parsers consume lexemes at a cursor; the first failure ends the parse. -/
abbrev TokenParser := EStateM ParseError Cursor

namespace TokenParser

def peek : TokenParser Token := fun c => .ok c.token c

def peekNext : TokenParser Token := fun c => .ok c.nextToken c

def here : TokenParser Span := fun c => .ok c.current.span c

def previous : TokenParser Span := fun c => .ok c.previousSpan c

def advance : TokenParser Lexeme := fun c => .ok c.current c.advance

def failAt {α : Type} (span : Span) (cause : ParseCause) : TokenParser α := fun c =>
  .error ⟨cause, span⟩ c

/-- Fails at the lexeme at the cursor, whose token takes part in the cause. -/
def failHere {α : Type} (cause : Token → ParseCause) : TokenParser α := fun c =>
  .error ⟨cause c.token, c.current.span⟩ c

def sees (token : Token) : TokenParser Bool := fun c => .ok (c.token = token) c

def eat (token : Token) : TokenParser Bool := fun c =>
  if c.token = token then .ok true c.advance else .ok false c

def expect (token : Token) : TokenParser Lexeme := fun c =>
  if c.token = token then .ok c.current c.advance
  else .error ⟨.expectedToken token c.token, c.current.span⟩ c

def ident : TokenParser Ident := fun c =>
  match c.token with
  | .ident name => .ok ⟨name, c.current.span⟩ c.advance
  | found => .error ⟨.expectedIdentifier found, c.current.span⟩ c

/-- Consumes the name of a member, which may be a reserved word, or fails. -/
def memberName : TokenParser Ident := fun c =>
  match c.token with
  | .ident _ | .keyword _ => .ok ⟨c.current.text, c.current.span⟩ c.advance
  | found => .error ⟨.expectedMemberName found, c.current.span⟩ c

/-- Runs a parser in or out of a condition and restores the mode afterwards. -/
def withCondition {α : Type} (mode : Bool) (p : TokenParser α) : TokenParser α := fun c =>
  match p { c with inCondition := mode } with
  | .ok a d => .ok a { d with inCondition := c.inCondition }
  | .error e d => .error e { d with inCondition := c.inCondition }

/-- Runs a parser for the type after `is` or `as` and restores the mode afterwards. -/
def withTypeOperand {α : Type} (p : TokenParser α) : TokenParser α := fun c =>
  match p { c with inTypeOperand := true } with
  | .ok a d => .ok a { d with inTypeOperand := c.inTypeOperand }
  | .error e d => .error e { d with inTypeOperand := c.inTypeOperand }

/-- Repeats `item` until a token satisfies `done`, at most once for each lexeme of `bound`. -/
def manyWithin {α : Type} (done : Token → Bool) (item : TokenParser α) :
    (bound : List Lexeme) → TokenParser (List α)
  | [] => pure []
  | _ :: bound => do
    if done (← peek) then
      return []
    else
      let first ← item
      let rest ← manyWithin done item bound
      return first :: rest

/-- Repeats `item`, which consumes something, until a token satisfies `done`, as the end token
    does. -/
def many {α : Type} (done : Token → Bool) (item : TokenParser α) : TokenParser (List α) := fun c =>
  manyWithin done item c.after c

/-- Repeats `step` on its own result until it has none, at most once for each lexeme of `bound`. -/
def iterateWithin {α : Type} (step : α → TokenParser (Option α)) :
    (bound : List Lexeme) → α → TokenParser α
  | [], a => pure a
  | _ :: bound, a => do
    match ← step a with
    | some b => iterateWithin step bound b
    | none => return a

/-- Repeats `step`, which consumes something when it has a result and has none at the end token,
    until it has no result. -/
def iterate {α : Type} (step : α → TokenParser (Option α)) (a : α) : TokenParser α := fun c =>
  iterateWithin step c.after a c

/-- Further items of a list, each after a comma, at most one for each lexeme of `bound`. A comma may
    stand before the closing token. -/
def itemsWithin {α : Type} (close : Token) (item : TokenParser α) :
    (bound : List Lexeme) → TokenParser (List α)
  | [] => pure []
  | _ :: bound => do
    if ← eat (.symbol .comma) then
      if ← sees close then
        return []
      else
        let first ← item
        let rest ← itemsWithin close item bound
        return first :: rest
    else
      return []

/-- Further items of a list, each after a comma. -/
def items {α : Type} (close : Token) (item : TokenParser α) : TokenParser (List α) := fun c =>
  itemsWithin close item c.after c

/-- Items separated by commas up to and including the closing token; the opening token has been
    consumed. Conditions do not reach into the brackets. -/
def delimited {α : Type} (close : Token) (item : TokenParser α) : TokenParser (List α) :=
  withCondition false do
    let contents ← (do
      if ← sees close then
        return []
      else
        let first ← item
        let rest ← items close item
        return first :: rest)
    let _ ← expect close
    return contents

def optionally {α : Type} (token : Token) (p : TokenParser α) : TokenParser (Option α) := do
  if ← eat token then
    return some (← p)
  else
    return none

end TokenParser

end ScriptCompiler
