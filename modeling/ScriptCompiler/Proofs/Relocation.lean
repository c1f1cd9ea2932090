import ScriptCompiler.Grammar.Cursor

/-!
# Trees at other places

A map of spans moves everything that carries a span: lexemes, names, trees and failures. Nothing
else of them changes. The numbers of the files that spans name are one thing that can be moved in
this way.
-/

namespace ScriptCompiler

/-- The span from `a` to the end of `b` moves as `a` and `b` do. -/
structure Span.Keeps (f : Span → Span) : Prop where
  through : ∀ a b : Span, f (a.through b) = (f a).through (f b)

/-- The span with another number for its file. -/
def Span.renumber (number : Nat → Nat) (span : Span) : Span :=
  { span with file := number span.file }

theorem Span.keeps_renumber (number : Nat → Nat) : Span.Keeps (Span.renumber number) :=
  ⟨fun _ _ => rfl⟩

def Lexeme.relocate (f : Span → Span) (lexeme : Lexeme) : Lexeme :=
  { lexeme with span := f lexeme.span }

def ParseError.relocate (f : Span → Span) (error : ParseError) : ParseError :=
  { error with span := f error.span }

def Cursor.relocate (f : Span → Span) (c : Cursor) : Cursor :=
  { c with
    before := c.before.map (Lexeme.relocate f)
    current := c.current.relocate f
    after := c.after.map (Lexeme.relocate f) }

def Ident.relocate (f : Span → Span) (ident : Ident) : Ident :=
  { ident with span := f ident.span }

mutual

@[simp] def TypeExpr.relocate (f : Span → Span) : TypeExpr → TypeExpr
  | .named span name args => .named (f span) (name.relocate f) (relocateTypes f args)
  | .binary span op left right => .binary (f span) op (left.relocate f) (right.relocate f)
  | .array span element => .array (f span) (element.relocate f)
  | .unit span => .unit (f span)

def relocateTypes (f : Span → Span) : List TypeExpr → List TypeExpr
  | [] => []
  | type :: rest => type.relocate f :: relocateTypes f rest

end

def Param.relocate (f : Span → Span) (param : Param) : Param :=
  ⟨param.name.relocate f, param.type?.map (TypeExpr.relocate f), f param.span⟩

def NamespaceDecl.relocate (f : Span → Span) (decl : NamespaceDecl) : NamespaceDecl :=
  { decl with path := decl.path.map (Ident.relocate f) }

def UsingDecl.relocate (f : Span → Span) (decl : UsingDecl) : UsingDecl :=
  { decl with path := decl.path.map (Ident.relocate f) }

def ForeignDecl.relocate (f : Span → Span) (decl : ForeignDecl) : ForeignDecl :=
  { decl with
    marker := decl.marker.relocate f
    name := decl.name.relocate f
    params := decl.params.map (Param.relocate f)
    returnType? := decl.returnType?.map (TypeExpr.relocate f) }

mutual

@[simp] def Expr.relocate (f : Span → Span) : Expr → Expr
  | .number span digits => .number (f span) digits
  | .string span value => .string (f span) value
  | .bool span value => .bool (f span) value
  | .name span ident => .name (f span) (ident.relocate f)
  | .binary span op left right => .binary (f span) op (left.relocate f) (right.relocate f)
  | .unary span op operand => .unary (f span) op (operand.relocate f)
  | .assign span target value => .assign (f span) (target.relocate f) (value.relocate f)
  | .typeTest span operand type guarded =>
    .typeTest (f span) (operand.relocate f) (type.relocate f) guarded
  | .cast span operand type guarded =>
    .cast (f span) (operand.relocate f) (type.relocate f) guarded
  | .call span callee args closure? =>
    .call (f span) (callee.relocate f) (relocateExprs f args) (relocateClosure f closure?)
  | .field span receiver member => .field (f span) (receiver.relocate f) (member.relocate f)
  | .staticMember span receiver member =>
    .staticMember (f span) (receiver.relocate f) (member.relocate f)
  | .index span receiver position => .index (f span) (receiver.relocate f) (position.relocate f)
  | .array span elements => .array (f span) (relocateExprs f elements)
  | .object span fields => .object (f span) (relocateFields f fields)
  | .lambda span params body => .lambda (f span) (params.map (Param.relocate f)) (body.relocate f)
  | .new span className args => .new (f span) (className.relocate f) (relocateExprs f args)

def relocateExprs (f : Span → Span) : List Expr → List Expr
  | [] => []
  | e :: rest => e.relocate f :: relocateExprs f rest

def relocateFields (f : Span → Span) : List ObjectField → List ObjectField
  | [] => []
  | ⟨key, value, span⟩ :: rest => ⟨key, value.relocate f, f span⟩ :: relocateFields f rest

/-- The block of a call or the body of a method at another place. -/
def relocateClosure (f : Span → Span) : Option Block → Option Block
  | none => none
  | some body => some (body.relocate f)

@[simp] def Block.relocate (f : Span → Span) : Block → Block
  | ⟨stmts, span⟩ => ⟨relocateStmts f stmts, f span⟩

def relocateStmts (f : Span → Span) : List Stmt → List Stmt
  | [] => []
  | s :: rest => s.relocate f :: relocateStmts f rest

@[simp] def Stmt.relocate (f : Span → Span) : Stmt → Stmt
  | .namespaceDecl span decl => .namespaceDecl (f span) (decl.relocate f)
  | .usingDecl span decl => .usingDecl (f span) (decl.relocate f)
  | .foreignDecl span decl => .foreignDecl (f span) (decl.relocate f)
  | .letDecl span name type? init? unique? =>
    .letDecl (f span) (name.relocate f) (type?.map (TypeExpr.relocate f)) (relocateOption f init?)
      unique?
  | .function span name params returnType? effect? body unique? =>
    .function (f span) (name.relocate f) (params.map (Param.relocate f))
      (returnType?.map (TypeExpr.relocate f)) (effect?.map (TypeExpr.relocate f)) (body.relocate f)
      unique?
  | .classDecl span decl => .classDecl (f span) (decl.relocate f)
  | .ifElse span condition thenBlock elseBranch =>
    .ifElse (f span) (condition.relocate f) (thenBlock.relocate f) (elseBranch.relocate f)
  | .whileLoop span condition body => .whileLoop (f span) (condition.relocate f) (body.relocate f)
  | .untilLoop span condition body => .untilLoop (f span) (condition.relocate f) (body.relocate f)
  | .ret span value? => .ret (f span) (relocateOption f value?)
  | .block span body => .block (f span) (body.relocate f)
  | .expr span value => .expr (f span) (value.relocate f)

def relocateOption (f : Span → Span) : Option Expr → Option Expr
  | none => none
  | some e => some (e.relocate f)

@[simp] def ElseBranch.relocate (f : Span → Span) : ElseBranch → ElseBranch
  | .none => .none
  | .block body => .block (body.relocate f)
  | .elseIf condition thenBlock elseBranch =>
    .elseIf (condition.relocate f) (thenBlock.relocate f) (elseBranch.relocate f)

@[simp] def ClassDecl.relocate (f : Span → Span) : ClassDecl → ClassDecl
  | ⟨kind, name, extends?, implements, members, unique?⟩ =>
    ⟨kind, name.relocate f, extends?.map (TypeExpr.relocate f), relocateTypes f implements,
      relocateMembers f members, unique?⟩

def relocateMembers (f : Span → Span) : List Member → List Member
  | [] => []
  | member :: rest => member.relocate f :: relocateMembers f rest

@[simp] def Member.relocate (f : Span → Span) : Member → Member
  | .constructor span params body =>
    .constructor (f span) (params.map (Param.relocate f)) (body.relocate f)
  | .method span name params returnType? effect? body? =>
    .method (f span) (name.relocate f) (params.map (Param.relocate f))
      (returnType?.map (TypeExpr.relocate f)) (effect?.map (TypeExpr.relocate f))
      (relocateClosure f body?)
  | .field span name type? init? isDefault =>
    .field (f span) (name.relocate f) (type?.map (TypeExpr.relocate f)) (relocateOption f init?)
      isDefault

end

def ObjectField.relocate (f : Span → Span) (field : ObjectField) : ObjectField :=
  ⟨field.key, field.value.relocate f, f field.span⟩

def Program.relocate (f : Span → Span) (program : Program) : Program :=
  ⟨program.stmts.map (Stmt.relocate f)⟩

variable (f : Span → Span)

@[simp] theorem relocateTypes_eq (types : List TypeExpr) :
    relocateTypes f types = types.map (TypeExpr.relocate f) := by
  induction types with
  | nil => rfl
  | cons type rest ih => rw [relocateTypes, ih, List.map_cons]

@[simp] theorem relocateExprs_eq (exprs : List Expr) :
    relocateExprs f exprs = exprs.map (Expr.relocate f) := by
  induction exprs with
  | nil => rfl
  | cons e rest ih => rw [relocateExprs, ih, List.map_cons]

@[simp] theorem relocateFields_eq (fields : List ObjectField) :
    relocateFields f fields = fields.map (ObjectField.relocate f) := by
  induction fields with
  | nil => rfl
  | cons field rest ih =>
    obtain ⟨key, value, span⟩ := field
    rw [relocateFields, ih, List.map_cons, ObjectField.relocate]

@[simp] theorem relocateStmts_eq (stmts : List Stmt) :
    relocateStmts f stmts = stmts.map (Stmt.relocate f) := by
  induction stmts with
  | nil => rfl
  | cons s rest ih => rw [relocateStmts, ih, List.map_cons]

@[simp] theorem relocateMembers_eq (members : List Member) :
    relocateMembers f members = members.map (Member.relocate f) := by
  induction members with
  | nil => rfl
  | cons member rest ih => rw [relocateMembers, ih, List.map_cons]

@[simp] theorem relocateClosure_eq (body? : Option Block) :
    relocateClosure f body? = body?.map (Block.relocate f) := by
  cases body? <;> rfl

@[simp] theorem relocateOption_eq (value? : Option Expr) :
    relocateOption f value? = value?.map (Expr.relocate f) := by
  cases value? <;> rfl

@[simp] theorem Ident.name_relocate (ident : Ident) : (ident.relocate f).name = ident.name := rfl

@[simp] theorem Ident.span_relocate (ident : Ident) : (ident.relocate f).span = f ident.span := rfl

@[simp] theorem Lexeme.span_relocate (lexeme : Lexeme) :
    (lexeme.relocate f).span = f lexeme.span := rfl

@[simp] theorem Lexeme.token_relocate (lexeme : Lexeme) :
    (lexeme.relocate f).token = lexeme.token := rfl

@[simp] theorem ParseError.span_relocate (error : ParseError) :
    (error.relocate f).span = f error.span := rfl

@[simp] theorem TypeExpr.span_relocate (type : TypeExpr) :
    (type.relocate f).span = f type.span := by
  cases type <;> rfl

@[simp] theorem Expr.span_relocate (e : Expr) : (e.relocate f).span = f e.span := by
  cases e <;> rfl

@[simp] theorem Stmt.span_relocate (s : Stmt) : (s.relocate f).span = f s.span := by
  cases s <;> rfl

@[simp] theorem Expr.isAssignable_relocate (e : Expr) :
    (e.relocate f).isAssignable = e.isAssignable := by
  cases e <;> rfl

@[simp] theorem joinPath_relocate (path : List Ident) :
    joinPath (path.map (Ident.relocate f)) = joinPath path := by
  have hnames : (path.map (Ident.relocate f)).map Ident.name = path.map Ident.name := by
    simp [Function.comp_def]
  rw [joinPath, hnames, joinPath]

@[simp] theorem NamespaceDecl.cleanName_relocate (decl : NamespaceDecl) :
    (decl.relocate f).cleanName = decl.cleanName :=
  joinPath_relocate f decl.path

@[simp] theorem UsingDecl.target_relocate (decl : UsingDecl) :
    (decl.relocate f).target = decl.target :=
  joinPath_relocate f decl.path

end ScriptCompiler
