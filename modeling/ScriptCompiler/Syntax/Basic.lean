import ScriptCompiler.Source.Position
import ScriptCompiler.Syntax.Operator
import ScriptCompiler.Text.Join

/-!
# Syntax trees

Programs, statements, expressions and types, each with its span. Declarations that a compilation
registers carry their unique name once it is known.
-/

namespace ScriptCompiler

/-- A name and its place. -/
structure Ident where
  name : String
  span : Span
deriving DecidableEq, Repr, Inhabited

/-- The segments of a path joined by `::`. -/
def joinPath (path : List Ident) : String :=
  Text.joinWith "::" (path.map Ident.name)

/-- Type expressions. The name of a named type is its path joined by `::`. -/
inductive TypeExpr where
  | named (span : Span) (name : Ident) (args : List TypeExpr)
  | binary (span : Span) (op : TypeOp) (left right : TypeExpr)
  | array (span : Span) (element : TypeExpr)
  | unit (span : Span)
deriving Inhabited

def TypeExpr.span : TypeExpr → Span
  | .named span .. | .binary span .. | .array span .. | .unit span => span

/-- A parameter; `self` is a name like any other. -/
structure Param where
  name : Ident
  type? : Option TypeExpr
  span : Span
deriving Inhabited

/-- The three kinds of class declarations. -/
inductive ClassKind where
  | plain | singleton | trait
deriving DecidableEq, Repr, Inhabited

def ClassKind.text : ClassKind → String
  | .plain => "class"
  | .singleton => "singleton"
  | .trait => "trait"

/-- A namespace declaration; a main namespace carries a mark. -/
structure NamespaceDecl where
  path : List Ident
  isMain : Bool
deriving Inhabited

/-- The path without the mark: `app::core`. -/
def NamespaceDecl.cleanName (decl : NamespaceDecl) : String :=
  joinPath decl.path

/-- The path with the mark of a main namespace: `app::core!`. -/
def NamespaceDecl.key (decl : NamespaceDecl) : String :=
  if decl.isMain then decl.cleanName ++ "!" else decl.cleanName

/-- An import of a namespace; a global one holds for every file of the compilation. -/
structure UsingDecl where
  path : List Ident
  isGlobal : Bool
deriving Inhabited

def UsingDecl.target (decl : UsingDecl) : String :=
  joinPath decl.path

/-- A name for a function that exists in the target program. -/
structure ForeignDecl where
  marker : Ident
  target : String
  name : Ident
  params : List Param
  returnType? : Option TypeExpr
  uniqueName? : Option String
deriving Inhabited

mutual

/-- Expressions. Names include `self` and `Self`; string literals hold their value. -/
inductive Expr where
  | number (span : Span) (digits : String)
  | string (span : Span) (value : String)
  | bool (span : Span) (value : Bool)
  | name (span : Span) (ident : Ident)
  | binary (span : Span) (op : BinaryOp) (left right : Expr)
  | unary (span : Span) (op : UnaryOp) (operand : Expr)
  | assign (span : Span) (target value : Expr)
  | typeTest (span : Span) (operand : Expr) (type : TypeExpr) (guarded : Bool)
  | cast (span : Span) (operand : Expr) (type : TypeExpr) (guarded : Bool)
  | call (span : Span) (callee : Expr) (args : List Expr) (closure? : Option Block)
  | field (span : Span) (receiver : Expr) (member : Ident)
  | staticMember (span : Span) (receiver : Expr) (member : Ident)
  | index (span : Span) (receiver position : Expr)
  | array (span : Span) (elements : List Expr)
  | object (span : Span) (fields : List ObjectField)
  | lambda (span : Span) (params : List Param) (body : Block)
  | new (span : Span) (className : Ident) (args : List Expr)

/-- A field of an object literal. -/
structure ObjectField where
  key : String
  value : Expr
  span : Span

/-- A block of statements. -/
structure Block where
  stmts : List Stmt
  span : Span

/-- Statements. -/
inductive Stmt where
  | namespaceDecl (span : Span) (decl : NamespaceDecl)
  | usingDecl (span : Span) (decl : UsingDecl)
  | foreignDecl (span : Span) (decl : ForeignDecl)
  | letDecl (span : Span) (name : Ident) (type? : Option TypeExpr) (init? : Option Expr)
      (uniqueName? : Option String)
  | function (span : Span) (name : Ident) (params : List Param)
      (returnType? effect? : Option TypeExpr) (body : Block) (uniqueName? : Option String)
  | classDecl (span : Span) (decl : ClassDecl)
  | ifElse (span : Span) (condition : Expr) (thenBlock : Block) (elseBranch : ElseBranch)
  | whileLoop (span : Span) (condition : Expr) (body : Block)
  | untilLoop (span : Span) (condition : Expr) (body : Block)
  | ret (span : Span) (value? : Option Expr)
  | block (span : Span) (body : Block)
  | expr (span : Span) (value : Expr)

/-- What follows the first block of a conditional. -/
inductive ElseBranch where
  | none
  | block (body : Block)
  | elseIf (condition : Expr) (thenBlock : Block) (elseBranch : ElseBranch)

/-- A class, singleton or trait. -/
structure ClassDecl where
  kind : ClassKind
  name : Ident
  extends? : Option TypeExpr
  implements : List TypeExpr
  members : List Member
  uniqueName? : Option String

/-- Members of a class. A method without a body is a signature. A field without an initial value
    may ask for the default value of its type. -/
inductive Member where
  | constructor (span : Span) (params : List Param) (body : Block)
  | method (span : Span) (name : Ident) (params : List Param)
      (returnType? effect? : Option TypeExpr) (body? : Option Block)
  | field (span : Span) (name : Ident) (type? : Option TypeExpr) (init? : Option Expr)
      (isDefault : Bool)

end

/-- The statements of a file, or of all files linked together. -/
structure Program where
  stmts : List Stmt

def Expr.span : Expr → Span
  | .number span .. | .string span .. | .bool span .. | .name span .. | .binary span ..
  | .unary span .. | .assign span .. | .typeTest span .. | .cast span .. | .call span ..
  | .field span .. | .staticMember span .. | .index span .. | .array span .. | .object span ..
  | .lambda span .. | .new span .. => span

def Stmt.span : Stmt → Span
  | .namespaceDecl span .. | .usingDecl span .. | .foreignDecl span .. | .letDecl span ..
  | .function span .. | .classDecl span .. | .ifElse span .. | .whileLoop span ..
  | .untilLoop span .. | .ret span .. | .block span .. | .expr span .. => span

/-- Expressions that a value can be assigned to. -/
def Expr.isAssignable : Expr → Bool
  | .name .. | .field .. | .index .. | .staticMember .. => true
  | _ => false

/-- A method that takes `self` as its first parameter belongs to the instances. -/
def isInstanceParams : List Param → Bool
  | [] => false
  | param :: _ => param.name.name == "self"

namespace Member

def name? : Member → Option String
  | .constructor .. => none
  | .method _ name .. => some name.name
  | .field _ name .. => some name.name

def isConstructor : Member → Bool
  | .constructor .. => true
  | _ => false

end Member

namespace ClassDecl

/-- The first constructor: its span, parameters and body. -/
def constructor? (decl : ClassDecl) : Option (Span × List Param × Block) :=
  decl.members.findSome? fun
    | .constructor span params body => some (span, params, body)
    | _ => none

def memberNames (decl : ClassDecl) : List String :=
  decl.members.filterMap Member.name?

def hasMember (decl : ClassDecl) (name : String) : Bool :=
  decl.memberNames.contains name

/-- The fields in their order, each with whether it has an initial value. -/
def fields (decl : ClassDecl) : List (Ident × Bool) :=
  decl.members.filterMap fun
    | .field _ name _ init? isDefault => some (name, init?.isSome || isDefault)
    | _ => none

/-- The methods in their order, each with its parameters and its body. -/
def methods (decl : ClassDecl) : List (Ident × List Param × Option Block) :=
  decl.members.filterMap fun
    | .method _ name params _ _ body? => some (name, params, body?)
    | _ => none

/-- The name of the class in the script. -/
def emittedName (decl : ClassDecl) : String :=
  decl.uniqueName?.getD decl.name.name

end ClassDecl

end ScriptCompiler
