import ScriptCompiler.Syntax.Basic

/-!
# Awaiting bodies

A body awaits if an `await` belongs to it itself. Nested functions, lambdas, trailing closures and
classes are functions of their own, so an `await` inside them does not count.
-/

namespace ScriptCompiler

mutual

/-- An `await` belongs to the expression itself. -/
def Expr.awaits : Expr → Bool
  | .number .. | .string .. | .bool .. | .name .. | .lambda .. => false
  | .unary _ op operand => op == .await || operand.awaits
  | .binary _ _ left right => left.awaits || right.awaits
  | .assign _ target value => target.awaits || value.awaits
  | .index _ receiver position => receiver.awaits || position.awaits
  | .typeTest _ operand .. | .cast _ operand .. => operand.awaits
  | .field _ receiver _ | .staticMember _ receiver _ => receiver.awaits
  | .call _ callee args _ => callee.awaits || awaitsAny args
  | .array _ elements => awaitsAny elements
  | .new _ _ args => awaitsAny args
  | .object _ fields => awaitsAnyField fields

def awaitsAny : List Expr → Bool
  | [] => false
  | e :: rest => e.awaits || awaitsAny rest

def awaitsAnyField : List ObjectField → Bool
  | [] => false
  | ⟨_, value, _⟩ :: rest => value.awaits || awaitsAnyField rest

end

def awaitsOption : Option Expr → Bool
  | none => false
  | some e => e.awaits

mutual

/-- An `await` belongs to the statement itself. -/
def Stmt.awaits : Stmt → Bool
  | .letDecl _ _ _ init? _ => awaitsOption init?
  | .ifElse _ condition thenBlock elseBranch =>
    condition.awaits || thenBlock.awaits || elseBranch.awaits
  | .whileLoop _ condition body | .untilLoop _ condition body => condition.awaits || body.awaits
  | .ret _ value? => awaitsOption value?
  | .block _ body => body.awaits
  | .expr _ value => value.awaits
  | .namespaceDecl .. | .usingDecl .. | .foreignDecl .. | .function .. | .classDecl .. => false

def Block.awaits : Block → Bool
  | ⟨stmts, _⟩ => awaitsAnyStmt stmts

def awaitsAnyStmt : List Stmt → Bool
  | [] => false
  | s :: rest => s.awaits || awaitsAnyStmt rest

def ElseBranch.awaits : ElseBranch → Bool
  | .none => false
  | .block body => body.awaits
  | .elseIf condition thenBlock elseBranch =>
    condition.awaits || thenBlock.awaits || elseBranch.awaits

end

end ScriptCompiler
