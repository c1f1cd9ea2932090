import ScriptCompiler.Grammar.Cursor
import ScriptCompiler.Syntax.Basic

/-!
# The grammar of types

The productions of the grammar refer to one another through a `Grammar`: the parsers for what may be
nested inside a production after at least one token has been consumed. Here are the productions for
paths and types.
-/

namespace ScriptCompiler

/-- Parsers for the nested parts of a production. -/
structure Grammar where
  /-- A type whose operators have at least the given precedence. -/
  nestedType : Nat → TokenParser TypeExpr
  /-- An expression whose operators have at least the given precedence. -/
  nestedExpr : Nat → TokenParser Expr
  /-- The operand of a unary operator. -/
  nestedOperand : TokenParser Expr
  /-- What follows the first block of a conditional. -/
  nestedElse : TokenParser ElseBranch
  /-- A statement. -/
  nestedStmt : TokenParser Stmt

def TypeOp.loosest : Nat := 1

/-- A precedence that no type operator reaches. -/
def TypeOp.operandOnly : Nat := 5

def Token.typeOp? : Token → Option TypeOp
  | .symbol .arrow => some .arrow
  | .symbol .pipe => some .union
  | .symbol .amp => some .intersection
  | .symbol .plus => some .sum
  | _ => none

/-- Tokens that may stand between the angle brackets of type arguments. -/
def Token.isTypePart : Token → Bool
  | .ident _ | .keyword .selfTypeKw => true
  | .symbol s =>
    match s with
    | .colonColon | .comma | .lbracket | .rbracket | .lparen | .rparen | .arrow | .pipe | .amp
    | .plus => true
    | _ => false
  | _ => false

/-- Inside `depth` open angle brackets, all of them are closed and only parts of types stand
    between. -/
def closesAngles : Nat → List Lexeme → Bool
  | _, [] => false
  | depth, lexeme :: rest =>
    if lexeme.token = .symbol .lt then closesAngles (depth + 1) rest
    else if lexeme.token = .symbol .gt then
      if depth ≤ 1 then true else closesAngles (depth - 1) rest
    else if lexeme.token.isTypePart then closesAngles depth rest
    else false

/-- The `<` at the cursor has a matching `>` with only parts of types between them. -/
def Cursor.typeArgsFollow (c : Cursor) : Bool :=
  closesAngles 0 (c.current :: c.after)

namespace Grammar

open TokenParser

/-- One more segment of a path, if `::` and an identifier follow. -/
def pathStep (path : List Ident) : TokenParser (Option (List Ident)) := do
  match ← peek, ← peekNext with
  | .symbol .colonColon, .ident _ =>
    let _ ← advance
    let segment ← TokenParser.ident
    return some (path ++ [segment])
  | _, _ => return none

def path : TokenParser (List Ident) := do
  let first ← TokenParser.ident
  iterate pathStep [first]

/-- Do type arguments start at the cursor? After `is` and `as` a `<` may also be a comparison. -/
def opensTypeArgs : TokenParser Bool := fun c =>
  .ok (c.token = .symbol .lt && (!c.inTypeOperand || c.typeArgsFollow)) c

/-- The type arguments at the cursor, if there are any. -/
def typeArgs (g : Grammar) : TokenParser (List TypeExpr) := do
  if ← opensTypeArgs then
    let _ ← advance
    delimited (.symbol .gt) (g.nestedType TypeOp.loosest)
  else
    return []

def namedType (g : Grammar) : TokenParser TypeExpr := do
  let start ← here
  let segments ← path
  let name : Ident := ⟨joinPath segments, start.through (← previous)⟩
  let args ← g.typeArgs
  return .named (start.through (← previous)) name args

def arrayType (g : Grammar) : TokenParser TypeExpr := do
  let start ← here
  let _ ← advance
  let element ← g.nestedType TypeOp.loosest
  let close ← expect (.symbol .rbracket)
  return .array (start.through close.span) element

/-- The unit type or a type in parentheses, which keeps its own span. -/
def groupedType (g : Grammar) : TokenParser TypeExpr := do
  let start ← here
  let _ ← advance
  if ← sees (.symbol .rparen) then
    let close ← advance
    return .unit (start.through close.span)
  else
    let inner ← g.nestedType TypeOp.loosest
    let _ ← expect (.symbol .rparen)
    return inner

def primaryType (g : Grammar) : TokenParser TypeExpr := do
  match ← peek with
  | .ident _ => g.namedType
  | .keyword .selfTypeKw =>
    let self ← advance
    return .named self.span ⟨"Self", self.span⟩ []
  | .symbol .lbracket => g.arrayType
  | .symbol .lparen => g.groupedType
  | _ => failHere .expectedType

/-- One more operator of at least precedence `least`, with its right operand. -/
def typeStep (g : Grammar) (least : Nat) (left : TypeExpr) : TokenParser (Option TypeExpr) := do
  match (← peek).typeOp? with
  | none => return none
  | some op =>
    if op.precedence < least then
      return none
    else
      let _ ← advance
      let right ← g.nestedType (if op.groupsRight then op.precedence else op.precedence + 1)
      return some (.binary (left.span.through right.span) op left right)

def typeAt (g : Grammar) (least : Nat) : TokenParser TypeExpr := do
  let first ← g.primaryType
  iterate (g.typeStep least) first

def param (g : Grammar) : TokenParser Param := do
  let start ← here
  let name ← (do
    if ← eat (.keyword .selfKw) then
      return ⟨"self", start⟩
    else
      TokenParser.ident)
  let type? ← optionally (.symbol .colon) (g.nestedType TypeOp.loosest)
  return ⟨name, type?, start.through (← previous)⟩

/-- Parameters up to the closing parenthesis; the opening one has been consumed. -/
def params (g : Grammar) : TokenParser (List Param) :=
  delimited (.symbol .rparen) g.param

def signatureTail (g : Grammar) : TokenParser (Option TypeExpr × Option TypeExpr) := do
  let returnType? ← optionally (.symbol .arrow) (g.nestedType TypeOp.loosest)
  let effect? ← optionally (.symbol .bang) (g.nestedType TypeOp.loosest)
  return (returnType?, effect?)

end Grammar

end ScriptCompiler
