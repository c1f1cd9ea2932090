import ScriptCompiler.Script.Literal
import ScriptCompiler.Script.Row
import ScriptCompiler.Syntax.Await
import ScriptCompiler.Syntax.Basic

/-!
# Emitting JavaScript

Expressions become text in which every operator is parenthesized, statements become rows. Functions
whose body awaits are asynchronous. A class gets a constructor if it declares one or if a field has
an initial value; a singleton becomes a function that returns its one instance; implemented traits
are copied onto the prototype after the class.
-/

namespace ScriptCompiler

namespace Script

open Text (joinWith spaces)

/-- What the text of a node depends on besides the node: the level of indentation, the emitted name
    of the innermost class, the emitted names of all declared classes, and whether namespace and
    using declarations are left out. -/
structure Context where
  indent : Nat
  enclosing? : Option String
  declared : List String
  optimize : Bool
deriving Inhabited

namespace Context

def deeper (ctx : Context) : Context :=
  { ctx with indent := ctx.indent + 1 }

/-- One level further in, among the members of the class `name`. -/
def insideClass (ctx : Context) (name : String) : Context :=
  { ctx.deeper with enclosing? := some name }

def row (ctx : Context) (text : String) : Row :=
  ⟨ctx.indent, text, none⟩

def rowFrom (ctx : Context) (span : Span) (text : String) : Row :=
  ⟨ctx.indent, text, some span⟩

/-- A name in the script: the instance, the innermost class, or a name whose path became member
    accesses. -/
def nameText (ctx : Context) (name : String) : String :=
  if name = "self" then "this"
  else if name = "Self" then ctx.enclosing?.getD "this.constructor"
  else String.ofList (Text.replacePair ['.'] name.toList)

def typeName? (ctx : Context) : TypeExpr → Option String
  | .named _ name _ => some (ctx.nameText name.name)
  | _ => none

end Context

/-- The spelling of a binary operator. Comparisons for equality are strict. -/
def binaryText : BinaryOp → String
  | .eq => "==="
  | .notEq => "!=="
  | op => op.text

/-- The names of parameters, separated by commas. -/
def paramList (params : List Param) : String :=
  joinWith ", " (params.map fun param => param.name.name)

def asyncMark (awaits : Bool) : String :=
  if awaits then "async " else ""

/-- The expression that `text` stands for, or `fallback` if evaluating it throws. An operand that
    awaits needs an asynchronous wrapper, which is awaited in place. -/
def guardText (text fallback : String) (awaits : Bool) : String :=
  let body := "try \x7b return " ++ text ++ "; \x7d catch (_) \x7b return " ++ fallback ++ "; \x7d"
  if awaits then "(await (async () => \x7b " ++ body ++ " \x7d)())"
  else "(() => \x7b " ++ body ++ " \x7d)()"

/-- The text of a comparison with the result of `typeof`. -/
def typeofTest (subject name : String) : String :=
  "(typeof " ++ subject ++ " === \"" ++ name ++ "\")"

/-- The test that the value of `subject` belongs to a named type. -/
def namedTest (ctx : Context) (subject name : String) : String :=
  if name = "Number" then typeofTest subject "number"
  else if name = "String" then typeofTest subject "string"
  else if name = "Boolean" ∨ name = "Bool" then typeofTest subject "boolean"
  else if name = "Function" then typeofTest subject "function"
  else "(" ++ subject ++ " instanceof " ++ ctx.nameText name ++ ")"

/-- The test that the value of `subject` belongs to a type. -/
def typeTest (ctx : Context) (subject : String) : TypeExpr → String
  | .named _ name _ => namedTest ctx subject name.name
  | .array _ _ => "(Array.isArray(" ++ subject ++ "))"
  | .binary _ .arrow _ _ => typeofTest subject "function"
  | .binary _ .intersection left right =>
    "(" ++ typeTest ctx subject left ++ " && " ++ typeTest ctx subject right ++ ")"
  | .binary _ .union left right =>
    "(" ++ typeTest ctx subject left ++ " || " ++ typeTest ctx subject right ++ ")"
  | .binary _ .sum left right =>
    "(" ++ typeTest ctx subject left ++ " || " ++ typeTest ctx subject right ++ ")"
  | .unit _ => "(" ++ subject ++ " === undefined)"

def defaultValue : Option TypeExpr → String
  | some (.named _ name _) =>
    if name.name = "Number" then "0"
    else if name.name = "String" then "\"\""
    else if name.name = "Boolean" ∨ name.name = "Bool" then "false"
    else "null"
  | some (.array _ _) => "[]"
  | _ => "null"

/-- An operand before a call, member access or index; some need parentheses to stay one operand. -/
def receiverText (text : String) : Expr → String
  | .number .. | .object .. | .lambda .. => "(" ++ text ++ ")"
  | _ => text

/-- The condition of a statement; most operators bring their own parentheses. -/
def conditionText (text : String) : Expr → String
  | .binary .. | .unary .. | .assign .. | .typeTest _ _ _ false => text
  | _ => "(" ++ text ++ ")"

/-- An expression as a statement. An object literal or lambda may not start one. -/
def statementText (text : String) : Expr → String
  | .object .. | .lambda .. => "(" ++ text ++ ");"
  | _ => text ++ ";"

/-- A foreign function: a constant for its target, or a remark if it has the target's name. -/
def foreignText (decl : ForeignDecl) : String :=
  let name := decl.uniqueName?.getD decl.name.name
  if name = decl.target then "// foreign " ++ name
  else "const " ++ name ++ " = " ++ decl.target ++ ";"

def classHeader (ctx : Context) (name : String) (extends? : Option TypeExpr) : String :=
  match extends?.bind ctx.typeName? with
  | some base => "class " ++ name ++ " extends " ++ base ++ " \x7b"
  | none => "class " ++ name ++ " \x7b"

/-- The implemented types that are declared in the program, by their emitted names. -/
def declaredTraits (ctx : Context) (implements : List TypeExpr) : List String :=
  (implements.filterMap ctx.typeName?).filter ctx.declared.contains

/-- The rows that copy what the class `name` lacks from the traits onto its prototype. -/
def mixinRows (ctx : Context) (name : String) (implements : List TypeExpr) : List Row :=
  match declaredTraits ctx implements with
  | [] => []
  | traits => [
      ctx.row ("for (const __trait of [" ++ joinWith ", " traits ++ "]) \x7b"),
      ctx.deeper.row "for (const __key of Object.getOwnPropertyNames(__trait.prototype)) \x7b",
      ctx.deeper.deeper.row ("if (!(__key in " ++ name ++ ".prototype)) \x7b"),
      ctx.deeper.deeper.deeper.row ("Object.defineProperty(" ++ name
        ++ ".prototype, __key, Object.getOwnPropertyDescriptor(__trait.prototype, __key));"),
      ctx.deeper.deeper.row "\x7d",
      ctx.deeper.row "\x7d",
      ctx.row "\x7d"]

/-- The rows that create the one instance of the class `name` when it is first asked for. -/
def instanceRows (ctx : Context) (name : String) : List Row := [
  ctx.row "let __instance = null;",
  ctx.row "return () => \x7b",
  ctx.deeper.row "if (__instance === null) \x7b",
  ctx.deeper.deeper.row ("__instance = new " ++ name ++ "();"),
  ctx.deeper.row "\x7d",
  ctx.deeper.row "return __instance;",
  ctx.row "\x7d;"]

/-- The constructor of a class that declares none: it exists only to give fields their initial
    values. -/
def implicitConstructor (ctx : Context) (hasBase : Bool) : List String → List Row
  | [] => []
  | inits =>
    (if hasBase then [ctx.row "constructor(...args) \x7b", ctx.deeper.row "super(...args);"]
      else [ctx.row "constructor() \x7b"])
      ++ inits.map ctx.deeper.row ++ [ctx.row "\x7d"]

/-- The rows between the braces of a class: the declared constructor, or the one that its fields
    need, and then its methods. -/
def memberRows (ctx : Context) (hasBase : Bool) (inits : List String)
    (constructor? : Option (List Row)) (methods : List Row) : List Row :=
  constructor?.getD (implicitConstructor ctx hasBase inits) ++ methods

/-- The first row of a method; instance methods leave out `self`. -/
def methodHeader (name : String) (params : List Param) (awaits : Bool) : String :=
  if isInstanceParams params then
    asyncMark awaits ++ name ++ "(" ++ paramList params.tail ++ ") \x7b"
  else
    "static " ++ asyncMark awaits ++ name ++ "(" ++ paramList params ++ ") \x7b"

def functionHeader (name : String) (params : List Param) (awaits : Bool) : String :=
  asyncMark awaits ++ "function " ++ name ++ "(" ++ paramList params ++ ") \x7b"

def lambdaText (ctx : Context) (params : List Param) (awaits : Bool) (body : List Row) : String :=
  asyncMark awaits ++ "(" ++ paramList params ++ ") => \x7b\n" ++ Row.code body
    ++ spaces (2 * ctx.indent) ++ "\x7d"

def objectText : List String → String
  | [] => "\x7b\x7d"
  | fields => "\x7b " ++ joinWith ", " fields ++ " \x7d"

end Script

open Script

mutual

/-- The text of an expression. -/
def Expr.script (ctx : Context) : Expr → String
  | .number _ digits => digits
  | .string _ value => quote value
  | .bool _ value => Text.Json.boolText value
  | .name _ ident => ctx.nameText ident.name
  | .binary _ op left right =>
    "(" ++ left.script ctx ++ " " ++ binaryText op ++ " " ++ right.script ctx ++ ")"
  | .unary _ op operand => "(" ++ op.text ++ operand.script ctx ++ ")"
  | .assign _ target value => "(" ++ target.script ctx ++ " = " ++ value.script ctx ++ ")"
  | .typeTest _ operand type guarded =>
    let test := typeTest ctx (operand.script ctx) type
    if guarded then guardText test "false" operand.awaits else test
  | .cast _ operand _ guarded =>
    let value := operand.script ctx
    if guarded then guardText value "null" operand.awaits else value
  | .call _ callee args none =>
    receiverText (callee.script ctx) callee ++ "("
      ++ Text.joinWith ", " (scriptExprs ctx args) ++ ")"
  | .call _ callee args (some closure) =>
    receiverText (callee.script ctx) callee ++ "("
      ++ Text.joinWith ", " (scriptExprs ctx args
        ++ [lambdaText ctx [] closure.awaits (closure.rows ctx.deeper)]) ++ ")"
  | .field _ receiver member => receiverText (receiver.script ctx) receiver ++ "." ++ member.name
  | .staticMember _ receiver member =>
    receiverText (receiver.script ctx) receiver ++ "." ++ member.name
  | .index _ receiver position =>
    receiverText (receiver.script ctx) receiver ++ "[" ++ position.script ctx ++ "]"
  | .array _ elements => "[" ++ Text.joinWith ", " (scriptExprs ctx elements) ++ "]"
  | .object _ fields => objectText (scriptFields ctx fields)
  | .lambda _ params body => lambdaText ctx params body.awaits (body.rows ctx.deeper)
  | .new _ className args =>
    "new " ++ ctx.nameText className.name ++ "(" ++ Text.joinWith ", " (scriptExprs ctx args) ++ ")"

def scriptExprs (ctx : Context) : List Expr → List String
  | [] => []
  | e :: rest => e.script ctx :: scriptExprs ctx rest

def scriptFields (ctx : Context) : List ObjectField → List String
  | [] => []
  | ⟨key, value, _⟩ :: rest => (objectKey key ++ ": " ++ value.script ctx) :: scriptFields ctx rest

def Block.rows (ctx : Context) : Block → List Row
  | ⟨stmts, _⟩ => stmtRows ctx stmts

def stmtRows (ctx : Context) : List Stmt → List Row
  | [] => []
  | s :: rest => s.rows ctx ++ stmtRows ctx rest

/-- The rows of a statement. -/
def Stmt.rows (ctx : Context) : Stmt → List Row
  | .namespaceDecl span decl =>
    if ctx.optimize then [] else [ctx.rowFrom span ("// namespace " ++ decl.key)]
  | .usingDecl span decl =>
    if ctx.optimize then []
    else [ctx.rowFrom span ("// using " ++ (if decl.isGlobal then "::" else "") ++ decl.target)]
  | .foreignDecl span decl => [ctx.rowFrom span (foreignText decl)]
  | .letDecl span name _ none uniqueName? =>
    [ctx.rowFrom span ("let " ++ uniqueName?.getD name.name ++ ";")]
  | .letDecl span name _ (some init) uniqueName? =>
    [ctx.rowFrom span ("let " ++ uniqueName?.getD name.name ++ " = " ++ init.script ctx ++ ";")]
  | .function span name params _ _ body uniqueName? =>
    ctx.rowFrom span (functionHeader (uniqueName?.getD name.name) params body.awaits)
      :: body.rows ctx.deeper ++ [ctx.row "\x7d"]
  | .classDecl span ⟨.singleton, name, extends?, implements, members, uniqueName?⟩ =>
    let emitted := uniqueName?.getD name.name
    let backing := "__" ++ emitted ++ "_Impl"
    let inside := ctx.deeper.insideClass backing
    let inits := fieldInits inside members
    ctx.rowFrom span ("const " ++ emitted ++ " = (() => \x7b")
      :: ctx.deeper.row (classHeader ctx.deeper backing extends?)
      :: memberRows inside extends?.isSome inits
        (constructorRows inside extends?.isSome inits members) (methodRows inside members)
      ++ [ctx.deeper.row "\x7d"]
      ++ mixinRows ctx.deeper backing implements
      ++ instanceRows ctx.deeper backing
      ++ [ctx.row "\x7d)();"]
  | .classDecl span ⟨_, name, extends?, implements, members, uniqueName?⟩ =>
    let emitted := uniqueName?.getD name.name
    let inside := ctx.insideClass emitted
    let inits := fieldInits inside members
    ctx.rowFrom span (classHeader ctx emitted extends?)
      :: memberRows inside extends?.isSome inits
        (constructorRows inside extends?.isSome inits members) (methodRows inside members)
      ++ [ctx.row "\x7d"]
      ++ mixinRows ctx emitted implements
  | .ifElse span condition thenBlock elseBranch =>
    ctx.rowFrom span ("if " ++ conditionText (condition.script ctx) condition ++ " \x7b")
      :: thenBlock.rows ctx.deeper ++ elseBranch.rows ctx ++ [ctx.row "\x7d"]
  | .whileLoop span condition body =>
    ctx.rowFrom span ("while " ++ conditionText (condition.script ctx) condition ++ " \x7b")
      :: body.rows ctx.deeper ++ [ctx.row "\x7d"]
  | .untilLoop span condition body =>
    ctx.rowFrom span ("while (!" ++ conditionText (condition.script ctx) condition ++ ") \x7b")
      :: body.rows ctx.deeper ++ [ctx.row "\x7d"]
  | .ret span none => [ctx.rowFrom span "return;"]
  | .ret span (some value) => [ctx.rowFrom span ("return " ++ value.script ctx ++ ";")]
  | .block span body => ctx.rowFrom span "\x7b" :: body.rows ctx.deeper ++ [ctx.row "\x7d"]
  | .expr span value => [ctx.rowFrom span (statementText (value.script ctx) value)]

/-- The rows of the rest of a conditional, up to its closing brace. -/
def ElseBranch.rows (ctx : Context) : ElseBranch → List Row
  | .none => []
  | .block body => ctx.row "\x7d else \x7b" :: body.rows ctx.deeper
  | .elseIf condition thenBlock elseBranch =>
    ctx.row ("\x7d else if " ++ conditionText (condition.script ctx) condition ++ " \x7b")
      :: thenBlock.rows ctx.deeper ++ elseBranch.rows ctx

def fieldInits (ctx : Context) : List Member → List String
  | [] => []
  | .field _ name _ (some init) _ :: rest =>
    ("this." ++ name.name ++ " = " ++ init.script ctx ++ ";") :: fieldInits ctx rest
  | .field _ name type? none true :: rest =>
    ("this." ++ name.name ++ " = " ++ defaultValue type? ++ ";") :: fieldInits ctx rest
  | _ :: rest => fieldInits ctx rest

/-- The rows of the first declared constructor: the call of the base class, the initial values of
    the fields, and its own statements. -/
def constructorRows (ctx : Context) (hasBase : Bool) (inits : List String) :
    List Member → Option (List Row)
  | [] => none
  | .constructor span params body :: _ =>
    some (ctx.rowFrom span ("constructor(" ++ paramList params ++ ") \x7b")
      :: (if hasBase then [ctx.deeper.row "super(...arguments);"] else [])
      ++ inits.map ctx.deeper.row ++ body.rows ctx.deeper ++ [ctx.row "\x7d"])
  | _ :: rest => constructorRows ctx hasBase inits rest

def methodRows (ctx : Context) : List Member → List Row
  | [] => []
  | .method span name params _ _ (some body) :: rest =>
    ctx.rowFrom span (methodHeader name.name params body.awaits)
      :: body.rows ctx.deeper ++ [ctx.row "\x7d"] ++ methodRows ctx rest
  | _ :: rest => methodRows ctx rest

end

end ScriptCompiler
