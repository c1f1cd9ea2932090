import ScriptCompiler.Syntax.Basic
import ScriptCompiler.Text.Json

/-!
# Printing syntax trees

An expression or type has a compact form on one line, in which every operator is parenthesized. The
outline of a program shows one node per line, children indented below their parent.
-/

namespace ScriptCompiler

open Text (joinWith quoted spaces)

mutual

def TypeExpr.compact : TypeExpr → String
  | .named _ name [] => name.name
  | .named _ name (arg :: args) =>
    name.name ++ "<" ++ joinWith ", " (arg.compact :: compactTypes args) ++ ">"
  | .binary _ op left right =>
    "(" ++ left.compact ++ " " ++ op.text ++ " " ++ right.compact ++ ")"
  | .array _ element => "[" ++ element.compact ++ "]"
  | .unit _ => "()"

def compactTypes : List TypeExpr → List String
  | [] => []
  | type :: rest => type.compact :: compactTypes rest

end

def compactParams (params : List Param) : String :=
  joinWith ", " <| params.map fun param =>
    match param.type? with
    | some type => param.name.name ++ ": " ++ type.compact
    | none => param.name.name

def guardMark (guarded : Bool) : String :=
  if guarded then "?" else ""

mutual

/-- The one-line form of an expression. Bodies of functions are left out. -/
def Expr.compact : Expr → String
  | .number _ digits => digits
  | .string _ value => quoted value
  | .bool _ value => Text.Json.boolText value
  | .name _ ident => ident.name
  | .binary _ op left right =>
    "(" ++ left.compact ++ " " ++ op.text ++ " " ++ right.compact ++ ")"
  | .unary _ op operand => "(" ++ op.text ++ operand.compact ++ ")"
  | .assign _ target value => "(" ++ target.compact ++ " = " ++ value.compact ++ ")"
  | .typeTest _ operand type guarded =>
    "(" ++ operand.compact ++ " is" ++ guardMark guarded ++ " " ++ type.compact ++ ")"
  | .cast _ operand type guarded =>
    "(" ++ operand.compact ++ " as" ++ guardMark guarded ++ " " ++ type.compact ++ ")"
  | .call _ callee args closure? =>
    callee.compact ++ "(" ++ joinWith ", " (compactExprs args) ++ ")"
      ++ (if closure?.isSome then " \x7b ... \x7d" else "")
  | .field _ receiver member => receiver.compact ++ "." ++ member.name
  | .staticMember _ receiver member => receiver.compact ++ "::" ++ member.name
  | .index _ receiver position => receiver.compact ++ "[" ++ position.compact ++ "]"
  | .array _ elements => "[" ++ joinWith ", " (compactExprs elements) ++ "]"
  | .object _ fields => "\x7b " ++ joinWith ", " (compactFields fields) ++ " \x7d"
  | .lambda _ params _ => "micro (" ++ compactParams params ++ ") \x7b ... \x7d"
  | .new _ className args =>
    "new " ++ className.name ++ "(" ++ joinWith ", " (compactExprs args) ++ ")"

def compactExprs : List Expr → List String
  | [] => []
  | e :: rest => e.compact :: compactExprs rest

/-- The one-line forms of the fields of an object literal; keys are shown as they are. -/
def compactFields : List ObjectField → List String
  | [] => []
  | ⟨key, value, _⟩ :: rest => (key ++ ": " ++ value.compact) :: compactFields rest

end

def outlineLine (depth : Nat) (text : String) : String :=
  spaces (2 * depth) ++ text ++ "\n"

def compactTypeAfter (separator : String) : Option TypeExpr → String
  | none => ""
  | some type => separator ++ type.compact

/-- The unique name of a declaration, if it is known. -/
def uniqueNameMark : Option String → String
  | none => ""
  | some name => " => " ++ name

def implementsClause : List TypeExpr → String
  | [] => ""
  | types => " implements " ++ joinWith ", " (types.map TypeExpr.compact)

def ClassDecl.outlineHeader (decl : ClassDecl) : String :=
  decl.kind.text ++ " '" ++ decl.name.name ++ "'" ++ compactTypeAfter " extends " decl.extends?
    ++ implementsClause decl.implements ++ uniqueNameMark decl.uniqueName?

def fieldInitMark : Option Expr → Bool → String
  | some init, _ => " = " ++ init.compact
  | none, true => " default"
  | none, false => ""

mutual

/-- The outline of an expression, `depth` levels in. Operators, assignments, calls and lambdas have
    lines of their own for their parts. -/
def Expr.outline (depth : Nat) : Expr → String
  | .binary _ op left right =>
    outlineLine depth ("Binary(" ++ op.text ++ ")") ++ left.outline (depth + 1)
      ++ right.outline (depth + 1)
  | .assign _ target value =>
    outlineLine depth "Assign" ++ target.outline (depth + 1) ++ value.outline (depth + 1)
  | .call _ callee [] none =>
    outlineLine depth "Call" ++ outlineLine (depth + 1) "callee:" ++ callee.outline (depth + 2)
  | .call _ callee [] (some closure) =>
    outlineLine depth "Call" ++ outlineLine (depth + 1) "callee:" ++ callee.outline (depth + 2)
      ++ outlineLine (depth + 1) "trailing:" ++ closure.outline (depth + 2)
  | .call _ callee (arg :: args) none =>
    outlineLine depth "Call" ++ outlineLine (depth + 1) "callee:" ++ callee.outline (depth + 2)
      ++ outlineLine (depth + 1) "args:" ++ arg.outline (depth + 2)
      ++ outlineExprs (depth + 2) args
  | .call _ callee (arg :: args) (some closure) =>
    outlineLine depth "Call" ++ outlineLine (depth + 1) "callee:" ++ callee.outline (depth + 2)
      ++ outlineLine (depth + 1) "args:" ++ arg.outline (depth + 2)
      ++ outlineExprs (depth + 2) args
      ++ outlineLine (depth + 1) "trailing:" ++ closure.outline (depth + 2)
  | .lambda _ params body =>
    outlineLine depth ("Lambda(" ++ compactParams params ++ ")") ++ body.outline (depth + 1)
  | e => outlineLine depth e.compact

def outlineExprs (depth : Nat) : List Expr → String
  | [] => ""
  | e :: rest => e.outline depth ++ outlineExprs depth rest

def Block.outline (depth : Nat) : Block → String
  | ⟨stmts, _⟩ => outlineLine depth "Block" ++ outlineStmts (depth + 1) stmts

def outlineStmts (depth : Nat) : List Stmt → String
  | [] => ""
  | s :: rest => s.outline depth ++ outlineStmts depth rest

def Stmt.outline (depth : Nat) : Stmt → String
  | .namespaceDecl _ decl => outlineLine depth ("Namespace " ++ decl.key)
  | .usingDecl _ decl =>
    outlineLine depth ("Using " ++ (if decl.isGlobal then "::" else "") ++ decl.target)
  | .foreignDecl _ decl =>
    outlineLine depth ("Foreign @" ++ decl.marker.name ++ "(\"" ++ decl.target ++ "\") '"
      ++ decl.name.name ++ "'(" ++ compactParams decl.params ++ ")"
      ++ uniqueNameMark decl.uniqueName?)
  | .letDecl _ name type? none uniqueName? =>
    outlineLine depth ("Let " ++ name.name ++ compactTypeAfter ": " type?
      ++ uniqueNameMark uniqueName?)
  | .letDecl _ name type? (some init) uniqueName? =>
    outlineLine depth ("Let " ++ name.name ++ compactTypeAfter ": " type?
      ++ uniqueNameMark uniqueName? ++ " =") ++ init.outline (depth + 1)
  | .function _ name params returnType? _ body uniqueName? =>
    outlineLine depth ("FnDecl '" ++ name.name ++ "'(" ++ compactParams params ++ ")"
      ++ compactTypeAfter " -> " returnType? ++ uniqueNameMark uniqueName?)
      ++ body.outline (depth + 1)
  | .classDecl _ ⟨kind, name, extends?, implements, members, uniqueName?⟩ =>
    outlineLine depth
        (ClassDecl.outlineHeader ⟨kind, name, extends?, implements, members, uniqueName?⟩)
      ++ outlineMembers depth members
  | .ifElse _ condition thenBlock elseBranch =>
    outlineLine depth ("If " ++ condition.compact) ++ thenBlock.outline (depth + 1)
      ++ elseBranch.outline depth
  | .whileLoop _ condition body =>
    outlineLine depth ("While " ++ condition.compact) ++ body.outline (depth + 1)
  | .untilLoop _ condition body =>
    outlineLine depth ("Until " ++ condition.compact) ++ body.outline (depth + 1)
  | .ret _ none => outlineLine depth "Return"
  | .ret _ (some value) => outlineLine depth ("Return " ++ value.compact)
  | .block _ body => body.outline depth
  | .expr _ value => outlineLine depth "ExprStmt" ++ value.outline (depth + 1)

def ElseBranch.outline (depth : Nat) : ElseBranch → String
  | .none => ""
  | .block body => outlineLine depth "Else" ++ body.outline (depth + 1)
  | .elseIf condition thenBlock elseBranch =>
    outlineLine depth "Else" ++ outlineLine (depth + 1) ("If " ++ condition.compact)
      ++ thenBlock.outline (depth + 2) ++ elseBranch.outline (depth + 1)

def outlineMembers (depth : Nat) : List Member → String
  | [] => ""
  | .constructor _ params body :: rest =>
    outlineLine (depth + 1) ("constructor(" ++ compactParams params ++ ")")
      ++ body.outline (depth + 2) ++ outlineMembers depth rest
  | .method _ name params _ _ none :: rest =>
    outlineLine (depth + 1) ((if isInstanceParams params then "method " else "static ") ++ name.name
      ++ "(" ++ compactParams params ++ ")")
      ++ outlineLine (depth + 2) "(signature only)" ++ outlineMembers depth rest
  | .method _ name params _ _ (some body) :: rest =>
    outlineLine (depth + 1) ((if isInstanceParams params then "method " else "static ") ++ name.name
      ++ "(" ++ compactParams params ++ ")")
      ++ body.outline (depth + 2) ++ outlineMembers depth rest
  | .field _ name type? init? isDefault :: rest =>
    outlineLine (depth + 1) ("field " ++ name.name ++ compactTypeAfter ": " type?
      ++ fieldInitMark init? isDefault) ++ outlineMembers depth rest

end

def Program.outline (program : Program) : String :=
  outlineStmts 0 program.stmts

end ScriptCompiler
