import ScriptCompiler.Grammar.Types

/-!
# The grammar of expressions

Operators are read by precedence climbing: after an operand, every operator that binds at least as
tightly as asked for is consumed with its right operand. Assignment groups to the right and has the
loosest precedence; `is` and `as` take a type without operators on their right.
-/

namespace ScriptCompiler

/-- The operators that may follow an operand. -/
inductive InfixOp where
  | assign
  | typeTest
  | cast
  | binary (op : BinaryOp)
deriving DecidableEq, Repr, Inhabited

/-- The loosest precedence of expressions, that of assignment. -/
def Expr.loosest : Nat := 1

def InfixOp.precedence : InfixOp → Nat
  | .assign => Expr.loosest
  | .typeTest | .cast => 5
  | .binary op => op.precedence

def Symbol.binaryOp? : Symbol → Option BinaryOp
  | .orOr => some .or
  | .andAnd => some .and
  | .eqEq => some .eq
  | .notEq => some .notEq
  | .lt => some .lt
  | .gt => some .gt
  | .ltEq => some .ltEq
  | .gtEq => some .gtEq
  | .pipe => some .bitOr
  | .amp => some .bitAnd
  | .plus => some .add
  | .minus => some .sub
  | .star => some .mul
  | .slash => some .div
  | .percent => some .mod
  | _ => none

def Token.infixOp? : Token → Option InfixOp
  | .symbol .eq => some .assign
  | .keyword .isKw => some .typeTest
  | .keyword .asKw => some .cast
  | .symbol s => s.binaryOp?.map .binary
  | _ => none

def Token.unaryOp? : Token → Option UnaryOp
  | .symbol .minus => some .neg
  | .symbol .bang => some .not
  | .keyword .awaitKw => some .await
  | _ => none

def Token.endsBlock : Token → Bool
  | .symbol .rbrace | .eof => true
  | _ => false

namespace Grammar

open TokenParser

/-- Statements between braces. Conditions do not reach into the braces. -/
def block (g : Grammar) : TokenParser Block := do
  let start ← here
  let _ ← expect (.symbol .lbrace)
  let stmts ← withCondition false (many Token.endsBlock g.nestedStmt)
  let close ← expect (.symbol .rbrace)
  return ⟨stmts, start.through close.span⟩

/-- The arguments of a call up to the closing parenthesis; the opening one has been consumed. -/
def args (g : Grammar) : TokenParser (List Expr) :=
  delimited (.symbol .rparen) (g.nestedExpr Expr.loosest)

/-- A field of an object literal: a name or string, and its value. -/
def objectField (g : Grammar) : TokenParser ObjectField := do
  let start ← here
  let key ← (do
    match ← peek with
    | .string value =>
      let _ ← advance
      return value
    | _ =>
      let name ← memberName
      return name.name)
  let _ ← expect (.symbol .colon)
  let value ← g.nestedExpr Expr.loosest
  return ⟨key, value, start.through value.span⟩

/-- An anonymous function; its return type and effect are read and dropped. -/
def lambda (g : Grammar) : TokenParser Expr := do
  let start ← here
  let _ ← advance
  let _ ← expect (.symbol .lparen)
  let params ← g.params
  let _ ← g.signatureTail
  let body ← g.block
  return .lambda (start.through (← previous)) params body

def className : TokenParser Ident := do
  if ← sees (.keyword .selfTypeKw) then
    let self ← advance
    return ⟨"Self", self.span⟩
  else
    let start ← here
    let segments ← path
    return ⟨joinPath segments, start.through (← previous)⟩

def instantiation (g : Grammar) : TokenParser Expr := do
  let start ← here
  let _ ← advance
  let name ← className
  let args ← (do
    if ← eat (.symbol .lparen) then
      g.args
    else
      return [])
  return .new (start.through (← previous)) name args

/-- An expression in parentheses, which keeps its own span. -/
def grouped (g : Grammar) : TokenParser Expr := do
  let _ ← advance
  let inner ← withCondition false (g.nestedExpr Expr.loosest)
  let _ ← expect (.symbol .rparen)
  return inner

def arrayLiteral (g : Grammar) : TokenParser Expr := do
  let start ← here
  let _ ← advance
  let elements ← delimited (.symbol .rbracket) (g.nestedExpr Expr.loosest)
  return .array (start.through (← previous)) elements

def objectLiteral (g : Grammar) : TokenParser Expr := do
  let start ← here
  let _ ← advance
  let fields ← delimited (.symbol .rbrace) g.objectField
  return .object (start.through (← previous)) fields

def atom (build : Span → Expr) : TokenParser Expr := do
  let lexeme ← advance
  return build lexeme.span

def nameAtom (name : String) : TokenParser Expr := do
  let lexeme ← advance
  return .name lexeme.span ⟨name, lexeme.span⟩

/-- An expression without operators around it. -/
def primary (g : Grammar) : TokenParser Expr := do
  match ← peek with
  | .number digits => atom (.number · digits)
  | .string value => atom (.string · value)
  | .bool value => atom (.bool · value)
  | .ident name => nameAtom name
  | .keyword .selfKw => nameAtom "self"
  | .keyword .selfTypeKw => nameAtom "Self"
  | .symbol .lparen => g.grouped
  | .symbol .lbracket => g.arrayLiteral
  | .symbol .lbrace => g.objectLiteral
  | .keyword .microKw => g.lambda
  | .keyword .newKw => g.instantiation
  | _ => failHere .expectedExpression

/-- The block after the arguments of a call; a condition has none. -/
def trailingClosure (g : Grammar) : TokenParser (Option Block) := fun c =>
  if !c.inCondition && c.token = .symbol .lbrace then
    (some <$> g.block) c
  else
    .ok none c

/-- One more call, member access or index after the expression `e`. -/
def postfixStep (g : Grammar) (e : Expr) : TokenParser (Option Expr) := do
  match ← peek with
  | .symbol .lparen =>
    let _ ← advance
    let args ← g.args
    let closure? ← g.trailingClosure
    return some (.call (e.span.through (← previous)) e args closure?)
  | .symbol .dot =>
    let _ ← advance
    let member ← memberName
    return some (.field (e.span.through member.span) e member)
  | .symbol .colonColon =>
    let _ ← advance
    let member ← memberName
    return some (.staticMember (e.span.through member.span) e member)
  | .symbol .lbracket =>
    let _ ← advance
    let position ← withCondition false (g.nestedExpr Expr.loosest)
    let close ← expect (.symbol .rbracket)
    return some (.index (e.span.through close.span) e position)
  | _ => return none

/-- A primary expression with its calls, member accesses and indices. -/
def postfixChain (g : Grammar) : TokenParser Expr := do
  let first ← g.primary
  iterate g.postfixStep first

def operand (g : Grammar) : TokenParser Expr := do
  match (← peek).unaryOp? with
  | some op =>
    let start ← here
    let _ ← advance
    let inner ← g.nestedOperand
    return .unary (start.through inner.span) op inner
  | none => g.postfixChain

/-- The type on the right of `is` or `as`, with the mark of the tolerant forms before it. -/
def typeOperand (g : Grammar) : TokenParser (Bool × TypeExpr) := do
  let guarded ← eat (.symbol .question)
  let type ← withTypeOperand (g.nestedType TypeOp.operandOnly)
  return (guarded, type)

/-- The expression that the operator `op` makes of `left` and what follows the operator. -/
def infixRest (g : Grammar) (left : Expr) : InfixOp → TokenParser Expr
  | .typeTest => do
    let (guarded, type) ← g.typeOperand
    return .typeTest (left.span.through type.span) left type guarded
  | .cast => do
    let (guarded, type) ← g.typeOperand
    return .cast (left.span.through type.span) left type guarded
  | .assign => do
    if left.isAssignable then
      let right ← g.nestedExpr InfixOp.assign.precedence
      return .assign (left.span.through right.span) left right
    else
      failAt left.span .invalidTarget
  | .binary op => do
    let right ← g.nestedExpr (op.precedence + 1)
    return .binary (left.span.through right.span) op left right

/-- One more operator of at least precedence `least`, with its right operand. -/
def exprStep (g : Grammar) (least : Nat) (left : Expr) : TokenParser (Option Expr) := do
  match (← peek).infixOp? with
  | none => return none
  | some op =>
    if op.precedence < least then
      return none
    else
      let _ ← advance
      some <$> g.infixRest left op

/-- An expression whose operators have at least precedence `least`. -/
def exprAt (g : Grammar) (least : Nat) : TokenParser Expr := do
  let first ← g.operand
  iterate (g.exprStep least) first

end Grammar

end ScriptCompiler
