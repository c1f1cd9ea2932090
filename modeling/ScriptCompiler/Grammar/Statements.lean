import ScriptCompiler.Grammar.Expressions

/-!
# The grammar of statements

Every statement is told apart by its first token. A `micro` that is followed by a name and an
opening parenthesis declares a function, any other one starts an expression. A semicolon may follow
each statement.
-/

namespace ScriptCompiler

def Token.classKind? : Token → Option ClassKind
  | .keyword .classKw => some .plain
  | .keyword .singletonKw => some .singleton
  | .keyword .traitKw => some .trait
  | _ => none

/-- Tokens before which a `return` has no value. -/
def Token.endsReturn : Token → Bool
  | .symbol .semi | .symbol .rbrace | .eof => true
  | _ => false

/-- A name and an opening parenthesis follow the token at the cursor. -/
def Cursor.namedFunctionFollows (c : Cursor) : Bool :=
  match c.after with
  | name :: opening :: _ =>
    match name.token with
    | .ident _ => opening.token = .symbol .lparen
    | _ => false
  | _ => false

namespace Grammar

open TokenParser

/-- A namespace declaration; the mark of a main namespace stands before or after the path. -/
def namespaceDecl : TokenParser NamespaceDecl := do
  let _ ← advance
  let markedBefore ← eat (.symbol .bang)
  let segments ← path
  let markedAfter ← eat (.symbol .bang)
  return ⟨segments, markedBefore || markedAfter⟩

/-- An import; a leading `::` makes it global. -/
def usingDecl : TokenParser UsingDecl := do
  let _ ← advance
  let isGlobal ← eat (.symbol .colonColon)
  let segments ← path
  return ⟨segments, isGlobal⟩

/-- The target of a foreign function, if it is given in parentheses. -/
def foreignTarget (marker : Ident) : TokenParser (Option String) := do
  if ← eat (.symbol .lparen) then
    match ← peek with
    | .string target =>
      let _ ← advance
      let _ ← expect (.symbol .rparen)
      return some target
    | _ => failHere (.expectedTarget marker.name)
  else
    return none

/-- A foreign function; its target is its own name if none is given. -/
def foreignDecl (g : Grammar) : TokenParser ForeignDecl := do
  let _ ← advance
  let marker ← TokenParser.ident
  if marker.name = "foreign" then
    let target? ← foreignTarget marker
    let _ ← expect (.keyword .microKw)
    let name ← TokenParser.ident
    let _ ← expect (.symbol .lparen)
    let params ← g.params
    let returnType? ← optionally (.symbol .arrow) (g.nestedType TypeOp.loosest)
    return ⟨marker, target?.getD name.name, name, params, returnType?, none⟩
  else
    failAt marker.span (.unknownMarker marker.name)

def constructorMember (g : Grammar) : TokenParser Member := do
  let start ← here
  let _ ← advance
  let _ ← expect (.symbol .lparen)
  let params ← g.params
  let body ← g.block
  return .constructor (start.through (← previous)) params body

/-- The body of a method; a signature ends with an optional semicolon instead. -/
def methodBody (g : Grammar) : TokenParser (Option Block) := do
  if ← sees (.symbol .lbrace) then
    some <$> g.block
  else
    let _ ← eat (.symbol .semi)
    return none

/-- A method from its name on; the whole member starts at `start`. -/
def methodMember (g : Grammar) (start : Span) : TokenParser Member := do
  let name ← TokenParser.ident
  let _ ← expect (.symbol .lparen)
  let params ← g.params
  let (returnType?, effect?) ← g.signatureTail
  let body? ← g.methodBody
  return .method (start.through (← previous)) name params returnType? effect? body?

/-- A field. The default value of its type can be asked for only without an initial value. -/
def fieldMember (g : Grammar) : TokenParser Member := do
  let start ← here
  let name ← TokenParser.ident
  let type? ← optionally (.symbol .colon) (g.nestedType TypeOp.loosest)
  let init? ← optionally (.symbol .eq) (g.nestedExpr Expr.loosest)
  let isDefault ← (do
    if init?.isNone then
      eat (.keyword .defaultKw)
    else
      return false)
  let _ ← eat (.symbol .semi)
  return .field (start.through (← previous)) name type? init? isDefault

/-- A member that starts with its name: a method or a field, as the next token tells. -/
def namedMember (g : Grammar) : TokenParser Member := do
  match ← peekNext with
  | .symbol .lparen => g.methodMember (← here)
  | .symbol .colon | .symbol .eq | .symbol .semi => g.fieldMember
  | _ =>
    let _ ← advance
    failHere .expectedMemberRest

def member (g : Grammar) : TokenParser Member := do
  match ← peek with
  | .keyword .constructorKw => g.constructorMember
  | .keyword .microKw =>
    let keyword ← advance
    g.methodMember keyword.span
  | .ident _ => g.namedMember
  | _ => failHere .expectedMember

def implementsStep (g : Grammar) (types : List TypeExpr) :
    TokenParser (Option (List TypeExpr)) := do
  if ← eat (.symbol .comma) then
    let type ← g.nestedType TypeOp.loosest
    return some (types ++ [type])
  else
    return none

def implementsList (g : Grammar) : TokenParser (List TypeExpr) := do
  if ← eat (.keyword .implementsKw) then
    let first ← g.nestedType TypeOp.loosest
    iterate g.implementsStep [first]
  else
    return []

/-- A class, singleton or trait; only the kind tells them apart. -/
def classBody (g : Grammar) (kind : ClassKind) : TokenParser ClassDecl := do
  let _ ← advance
  let name ← TokenParser.ident
  let extends? ← optionally (.keyword .extendsKw) (g.nestedType TypeOp.loosest)
  let implements ← g.implementsList
  let _ ← expect (.symbol .lbrace)
  let members ← many Token.endsBlock g.member
  let _ ← expect (.symbol .rbrace)
  return ⟨kind, name, extends?, implements, members, none⟩

/-- The condition of a statement, in which a block does not belong to a call. -/
def condition (g : Grammar) : TokenParser Expr :=
  withCondition true (g.nestedExpr Expr.loosest)

/-- What follows the first block of a conditional. -/
def elseBranch (g : Grammar) : TokenParser ElseBranch := do
  if ← eat (.keyword .elseKw) then
    if ← eat (.keyword .ifKw) then
      let condition ← g.condition
      let thenBlock ← g.block
      let rest ← g.nestedElse
      return .elseIf condition thenBlock rest
    else
      let body ← g.block
      return .block body
  else
    return .none

def letStmt (g : Grammar) : TokenParser (Span → Stmt) := do
  let _ ← advance
  let name ← TokenParser.ident
  let type? ← optionally (.symbol .colon) (g.nestedType TypeOp.loosest)
  let init? ← optionally (.symbol .eq) (g.nestedExpr Expr.loosest)
  return fun span => .letDecl span name type? init? none

def functionStmt (g : Grammar) : TokenParser (Span → Stmt) := do
  let _ ← advance
  let name ← TokenParser.ident
  let _ ← expect (.symbol .lparen)
  let params ← g.params
  let (returnType?, effect?) ← g.signatureTail
  let body ← g.block
  return fun span => .function span name params returnType? effect? body none

def ifStmt (g : Grammar) : TokenParser (Span → Stmt) := do
  let _ ← advance
  let condition ← g.condition
  let thenBlock ← g.block
  let elseBranch ← g.elseBranch
  return fun span => .ifElse span condition thenBlock elseBranch

def loopStmt (g : Grammar) (build : Span → Expr → Block → Stmt) : TokenParser (Span → Stmt) := do
  let _ ← advance
  let condition ← g.condition
  let body ← g.block
  return fun span => build span condition body

def returnStmt (g : Grammar) : TokenParser (Span → Stmt) := do
  let _ ← advance
  if (← peek).endsReturn then
    return fun span => .ret span none
  else
    let value ← g.nestedExpr Expr.loosest
    return fun span => .ret span (some value)

def exprStmt (g : Grammar) : TokenParser (Span → Stmt) := do
  let value ← g.exprAt Expr.loosest
  return fun span => .expr span value

/-- Does a name and an opening parenthesis follow the token at the cursor? -/
def namedFunctionFollows : TokenParser Bool := fun c => .ok c.namedFunctionFollows c

/-- A statement that is still without its span. -/
def stmtBody (g : Grammar) : TokenParser (Span → Stmt) := do
  match ← peek with
  | .keyword .namespaceKw =>
    let decl ← namespaceDecl
    return fun span => .namespaceDecl span decl
  | .keyword .usingKw =>
    let decl ← usingDecl
    return fun span => .usingDecl span decl
  | .symbol .atSign =>
    let decl ← g.foreignDecl
    return fun span => .foreignDecl span decl
  | .keyword .letKw => g.letStmt
  | .keyword .ifKw => g.ifStmt
  | .keyword .whileKw => g.loopStmt .whileLoop
  | .keyword .untilKw => g.loopStmt .untilLoop
  | .keyword .returnKw => g.returnStmt
  | .symbol .lbrace =>
    let body ← g.block
    return fun span => .block span body
  | .keyword .microKw =>
    if ← namedFunctionFollows then
      g.functionStmt
    else
      g.exprStmt
  | token =>
    match token.classKind? with
    | some kind =>
      let decl ← g.classBody kind
      return fun span => .classDecl span decl
    | none => g.exprStmt

/-- A statement with the semicolon that may follow it. -/
def stmt (g : Grammar) : TokenParser Stmt := do
  let start ← here
  let build ← g.stmtBody
  let _ ← eat (.symbol .semi)
  return build (start.through (← previous))

end Grammar

end ScriptCompiler
