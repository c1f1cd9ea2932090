import ScriptCompiler.Link.Finding
import ScriptCompiler.Link.Scope
import ScriptCompiler.Syntax.Await

/-!
# Rewriting trees

One pass over a tree replaces every reference to a declaration of a namespace by its unique name and
notes what is found on the way, in the order of the text: calls that name a member of their own
class, which the policy may pass over, constructors that await, and references to qualified names.
Names that refer to nothing known stay as they are, and so do the types of parameters, variables and
results, which leave no trace in the script.
-/

namespace ScriptCompiler

mutual

def TypeExpr.resolve (env : Environment) (locals : List String) : TypeExpr → TypeExpr
  | .named span name args =>
    .named span (env.resolveIdent locals name) (resolveTypes env locals args)
  | .binary span op left right =>
    .binary span op (left.resolve env locals) (right.resolve env locals)
  | .array span element => .array span (element.resolve env locals)
  | .unit span => .unit span

def resolveTypes (env : Environment) (locals : List String) : List TypeExpr → List TypeExpr
  | [] => []
  | type :: rest => type.resolve env locals :: resolveTypes env locals rest

end

/-- A class whose members are being rewritten, and the names of its methods and fields. -/
structure ClassScope where
  name : String
  members : List String

/-- Where a tree stands. -/
structure Site where
  file : String
  env : Environment
  class? : Option ClassScope

/-- The finding for a bare call of `callee`, which names a member of the enclosing class, no local
    and no declaration. -/
def Site.callFinding? (site : Site) (severity : Severity) (locals : List String)
    (callee : Ident) : Option Finding :=
  site.class?.bind fun scope =>
    if callee.name ∈ scope.members ∧ callee.name ∉ locals
        ∧ site.env.resolve? locals callee.name = none then
      some (.implicitMemberCall site.file callee.span callee.name scope.name severity)
    else none

/-- What the trees of a file are rewritten with. -/
structure Rewriter extends Site where
  policy : MemberCallPolicy

/-- What the policy makes of the function of a call, if it is a bare name. -/
def Rewriter.calleeFindings (r : Rewriter) (locals : List String) : Expr → List Finding
  | .name _ ident =>
    match r.policy with
    | .warn => (r.callFinding? .warning locals ident).toList
    | .ignore => []
    | .error => (r.callFinding? .error locals ident).toList
  | _ => []

/-- A rewritten tree and what was found in it. -/
structure Rewritten (α : Type) where
  tree : α
  findings : List Finding

namespace Rewritten

variable {α β γ δ : Type}

/-- A tree in which nothing is found. -/
def clear (tree : α) : Rewritten α := ⟨tree, []⟩

/-- What was found before the tree. -/
def after (findings : List Finding) (a : Rewritten α) : Rewritten α :=
  ⟨a.tree, findings ++ a.findings⟩

def map (f : α → β) (a : Rewritten α) : Rewritten β :=
  ⟨f a.tree, a.findings⟩

/-- A tree around two that were rewritten one after the other. -/
def map₂ (f : α → β → γ) (a : Rewritten α) (b : Rewritten β) : Rewritten γ :=
  ⟨f a.tree b.tree, a.findings ++ b.findings⟩

/-- A tree around three that were rewritten one after the other. -/
def map₃ (f : α → β → γ → δ) (a : Rewritten α) (b : Rewritten β) (c : Rewritten γ) : Rewritten δ :=
  ⟨f a.tree b.tree c.tree, a.findings ++ b.findings ++ c.findings⟩

end Rewritten

open Rewritten

mutual

/-- The rewritten expression. A chain that refers to a declaration as a whole becomes one name. -/
def Expr.rewrite (r : Rewriter) (locals : List String) : Expr → Rewritten Expr
  | .number span digits => clear (.number span digits)
  | .string span value => clear (.string span value)
  | .bool span value => clear (.bool span value)
  | .name span ident => clear (.name span (r.env.resolveIdent locals ident))
  | .binary span op left right =>
    map₂ (.binary span op) (left.rewrite r locals) (right.rewrite r locals)
  | .unary span op operand => map (.unary span op) (operand.rewrite r locals)
  | .assign span target value =>
    map₂ (.assign span) (target.rewrite r locals) (value.rewrite r locals)
  | .typeTest span operand type guarded =>
    map (.typeTest span · (type.resolve r.env locals) guarded) (operand.rewrite r locals)
  | .cast span operand type guarded =>
    map (.cast span · (type.resolve r.env locals) guarded) (operand.rewrite r locals)
  | .call span callee args closure? =>
    after (r.calleeFindings locals callee)
      (map₃ (.call span) (callee.rewrite r locals) (rewriteExprs r locals args)
        (rewriteClosure r locals closure?))
  | .field span receiver member => map (.field span · member) (receiver.rewrite r locals)
  | .staticMember span receiver member =>
    match r.env.resolveStatic? locals receiver member with
    | some unique => ⟨.name span ⟨unique, span⟩, [.qualifiedReference r.file unique]⟩
    | none => map (.staticMember span · member) (receiver.rewrite r locals)
  | .index span receiver position =>
    map₂ (.index span) (receiver.rewrite r locals) (position.rewrite r locals)
  | .array span elements => map (.array span) (rewriteExprs r locals elements)
  | .object span fields => map (.object span) (rewriteFields r locals fields)
  | .lambda span params body =>
    map (.lambda span params) (body.rewrite r (paramNames params ++ locals))
  | .new span className args =>
    map (.new span (r.env.resolveIdent locals className)) (rewriteExprs r locals args)

def rewriteExprs (r : Rewriter) (locals : List String) : List Expr → Rewritten (List Expr)
  | [] => clear []
  | e :: rest => map₂ List.cons (e.rewrite r locals) (rewriteExprs r locals rest)

def rewriteFields (r : Rewriter) (locals : List String) :
    List ObjectField → Rewritten (List ObjectField)
  | [] => clear []
  | ⟨key, value, span⟩ :: rest =>
    map₂ (fun value rest => ⟨key, value, span⟩ :: rest) (value.rewrite r locals)
      (rewriteFields r locals rest)

def rewriteClosure (r : Rewriter) (locals : List String) :
    Option Block → Rewritten (Option Block)
  | none => clear none
  | some body => map some (body.rewrite r locals)

def Block.rewrite (r : Rewriter) (locals : List String) : Block → Rewritten Block
  | ⟨stmts, span⟩ => map (⟨·, span⟩) (rewriteStmts r locals stmts)

/-- The rewritten statements of a block; each brings its locals for the rest. -/
def rewriteStmts (r : Rewriter) (locals : List String) : List Stmt → Rewritten (List Stmt)
  | [] => clear []
  | s :: rest => map₂ List.cons (s.rewrite r (s.boundBefore ++ locals))
    (rewriteStmts r (s.boundAfter ++ locals) rest)

/-- The rewritten statement. -/
def Stmt.rewrite (r : Rewriter) (locals : List String) : Stmt → Rewritten Stmt
  | .namespaceDecl span decl => clear (.namespaceDecl span decl)
  | .usingDecl span decl => clear (.usingDecl span decl)
  | .foreignDecl span decl => clear (.foreignDecl span decl)
  | .letDecl span name type? init? unique? =>
    map (.letDecl span name type? · unique?) (rewriteOption r locals init?)
  | .function span name params returnType? effect? body unique? =>
    map (.function span name params returnType? effect? · unique?)
      (body.rewrite r (paramNames params ++ locals))
  | .classDecl span decl => map (.classDecl span) (decl.rewrite r locals)
  | .ifElse span condition thenBlock elseBranch =>
    map₃ (.ifElse span) (condition.rewrite r locals) (thenBlock.rewrite r locals)
      (elseBranch.rewrite r locals)
  | .whileLoop span condition body =>
    map₂ (.whileLoop span) (condition.rewrite r locals) (body.rewrite r locals)
  | .untilLoop span condition body =>
    map₂ (.untilLoop span) (condition.rewrite r locals) (body.rewrite r locals)
  | .ret span value? => map (.ret span) (rewriteOption r locals value?)
  | .block span body => map (.block span) (body.rewrite r locals)
  | .expr span value => map (.expr span) (value.rewrite r locals)

def rewriteOption (r : Rewriter) (locals : List String) : Option Expr → Rewritten (Option Expr)
  | none => clear none
  | some e => map some (e.rewrite r locals)

def ElseBranch.rewrite (r : Rewriter) (locals : List String) :
    ElseBranch → Rewritten ElseBranch
  | .none => clear .none
  | .block body => map .block (body.rewrite r locals)
  | .elseIf condition thenBlock elseBranch =>
    map₃ .elseIf (condition.rewrite r locals) (thenBlock.rewrite r locals)
      (elseBranch.rewrite r locals)

def ClassDecl.rewrite (r : Rewriter) (locals : List String) : ClassDecl → Rewritten ClassDecl
  | ⟨kind, name, extends?, implements, members, unique?⟩ =>
    map (⟨kind, name, extends?.map (TypeExpr.resolve r.env locals),
        resolveTypes r.env locals implements, ·, unique?⟩)
      (rewriteMembers { r with class? := some ⟨name.name, members.filterMap Member.name?⟩ }
        name.name locals members)

def rewriteMembers (r : Rewriter) (className : String) (locals : List String) :
    List Member → Rewritten (List Member)
  | [] => clear []
  | member :: rest => map₂ List.cons (member.rewrite r className locals)
    (rewriteMembers r className locals rest)

/-- The rewritten member of the class `className`. A constructor that awaits is found before what
    its body holds. -/
def Member.rewrite (r : Rewriter) (className : String) (locals : List String) :
    Member → Rewritten Member
  | .constructor span params body =>
    after (if body.awaits then [.awaitingConstructor r.file span className] else [])
      (map (.constructor span params) (body.rewrite r (paramNames params ++ locals)))
  | .method span name params returnType? effect? body? =>
    map (.method span name params returnType? effect?)
      (rewriteClosure r (paramNames params ++ locals) body?)
  | .field span name type? init? isDefault =>
    map (.field span name type? · isDefault) (rewriteOption r locals init?)

end

end ScriptCompiler
