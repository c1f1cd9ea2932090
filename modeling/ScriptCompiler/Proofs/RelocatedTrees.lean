import Mathlib.Data.List.Basic
import ScriptCompiler.Proofs.Findings
import ScriptCompiler.Proofs.Relocation

/-!
# Resolving and checking trees at other places

What a name refers to does not depend on places. So a moved tree resolves to the moved resolved
tree, and what is found in it is found at the moved places.
-/

namespace ScriptCompiler

variable {f : Span → Span}

/-- In both environments every name refers to the same. -/
def Environment.Agrees (env env' : Environment) : Prop :=
  ∀ locals name, env'.resolve? locals name = env.resolve? locals name

/-! ### What names and trees tell apart from their places -/

@[simp] theorem paramNames_relocate (params : List Param) :
    paramNames (params.map (Param.relocate f)) = paramNames params := by
  simp [paramNames, Param.relocate, Function.comp_def]

@[simp] theorem Stmt.boundBefore_relocate (s : Stmt) :
    (s.relocate f).boundBefore = s.boundBefore := by
  cases s with
  | classDecl span decl =>
    cases decl
    rfl
  | _ => rfl

@[simp] theorem Stmt.boundAfter_relocate (s : Stmt) :
    (s.relocate f).boundAfter = s.boundAfter := by
  cases s with
  | classDecl span decl =>
    cases decl
    rfl
  | _ => rfl

@[simp] theorem Member.name?_relocate (m : Member) : (m.relocate f).name? = m.name? := by
  cases m <;> rfl

theorem Expr.staticPath?_relocate : ∀ e : Expr, (e.relocate f).staticPath? = e.staticPath?
  | .staticMember span receiver member => by
    rw [Expr.relocate, Expr.staticPath?, Expr.staticPath?, receiver.staticPath?_relocate,
      Ident.name_relocate]
  | .number .. | .string .. | .bool .. | .name .. | .binary .. | .unary .. | .assign ..
  | .typeTest .. | .cast .. | .call .. | .field .. | .index .. | .array .. | .object ..
  | .lambda .. | .new .. => rfl

mutual

theorem Expr.awaits_relocate : ∀ e : Expr, (e.relocate f).awaits = e.awaits
  | .number .. | .string .. | .bool .. | .name .. | .lambda .. => rfl
  | .unary _ op operand => by rw [Expr.relocate, Expr.awaits, Expr.awaits, operand.awaits_relocate]
  | .binary _ _ left right => by
    rw [Expr.relocate, Expr.awaits, Expr.awaits, left.awaits_relocate, right.awaits_relocate]
  | .assign _ target value => by
    rw [Expr.relocate, Expr.awaits, Expr.awaits, target.awaits_relocate, value.awaits_relocate]
  | .index _ receiver position => by
    rw [Expr.relocate, Expr.awaits, Expr.awaits, receiver.awaits_relocate, position.awaits_relocate]
  | .typeTest _ operand .. | .cast _ operand .. => by
    rw [Expr.relocate, Expr.awaits, Expr.awaits, operand.awaits_relocate]
  | .field _ receiver _ | .staticMember _ receiver _ => by
    rw [Expr.relocate, Expr.awaits, Expr.awaits, receiver.awaits_relocate]
  | .call _ callee args _ => by
    rw [Expr.relocate, Expr.awaits, Expr.awaits, callee.awaits_relocate, awaitsAny_relocate]
  | .array _ elements => by rw [Expr.relocate, Expr.awaits, Expr.awaits, awaitsAny_relocate]
  | .new _ _ args => by rw [Expr.relocate, Expr.awaits, Expr.awaits, awaitsAny_relocate]
  | .object _ fields => by rw [Expr.relocate, Expr.awaits, Expr.awaits, awaitsAnyField_relocate]

theorem awaitsAny_relocate : ∀ es : List Expr, awaitsAny (relocateExprs f es) = awaitsAny es
  | [] => rfl
  | e :: rest => by
    rw [relocateExprs, awaitsAny, awaitsAny, e.awaits_relocate, awaitsAny_relocate rest]

theorem awaitsAnyField_relocate :
    ∀ fields : List ObjectField, awaitsAnyField (relocateFields f fields) = awaitsAnyField fields
  | [] => rfl
  | ⟨_, value, _⟩ :: rest => by
    rw [relocateFields, awaitsAnyField, awaitsAnyField, value.awaits_relocate,
      awaitsAnyField_relocate rest]

end

theorem awaitsOption_relocate (value? : Option Expr) :
    awaitsOption (relocateOption f value?) = awaitsOption value? := by
  cases value? with
  | none => rfl
  | some e => exact e.awaits_relocate

mutual

theorem Stmt.awaits_relocate : ∀ s : Stmt, (s.relocate f).awaits = s.awaits
  | .letDecl _ _ _ init? _ => by rw [Stmt.relocate, Stmt.awaits, Stmt.awaits, awaitsOption_relocate]
  | .ifElse _ condition thenBlock elseBranch => by
    rw [Stmt.relocate, Stmt.awaits, Stmt.awaits, condition.awaits_relocate,
      thenBlock.awaits_relocate, elseBranch.awaits_relocate]
  | .whileLoop _ condition body | .untilLoop _ condition body => by
    rw [Stmt.relocate, Stmt.awaits, Stmt.awaits, condition.awaits_relocate, body.awaits_relocate]
  | .ret _ value? => by rw [Stmt.relocate, Stmt.awaits, Stmt.awaits, awaitsOption_relocate]
  | .block _ body => by rw [Stmt.relocate, Stmt.awaits, Stmt.awaits, body.awaits_relocate]
  | .expr _ value => by rw [Stmt.relocate, Stmt.awaits, Stmt.awaits, value.awaits_relocate]
  | .namespaceDecl .. | .usingDecl .. | .foreignDecl .. | .function .. | .classDecl .. => rfl

theorem Block.awaits_relocate : ∀ b : Block, (b.relocate f).awaits = b.awaits
  | ⟨stmts, _⟩ => by rw [Block.relocate, Block.awaits, Block.awaits, awaitsAnyStmt_relocate]

theorem awaitsAnyStmt_relocate :
    ∀ stmts : List Stmt, awaitsAnyStmt (relocateStmts f stmts) = awaitsAnyStmt stmts
  | [] => rfl
  | s :: rest => by
    rw [relocateStmts, awaitsAnyStmt, awaitsAnyStmt, s.awaits_relocate, awaitsAnyStmt_relocate rest]

theorem ElseBranch.awaits_relocate : ∀ b : ElseBranch, (b.relocate f).awaits = b.awaits
  | .none => rfl
  | .block body => by
    rw [ElseBranch.relocate, ElseBranch.awaits, ElseBranch.awaits, body.awaits_relocate]
  | .elseIf condition thenBlock elseBranch => by
    rw [ElseBranch.relocate, ElseBranch.awaits, ElseBranch.awaits, condition.awaits_relocate,
      thenBlock.awaits_relocate, elseBranch.awaits_relocate]

end

/-! ### Resolved trees -/

section Resolve

variable {env env' : Environment}

theorem Environment.Agrees.resolveIdent (h : env.Agrees env') (locals : List String)
    (ident : Ident) :
    env'.resolveIdent locals (ident.relocate f) = (env.resolveIdent locals ident).relocate f := by
  simp [Environment.resolveIdent, Environment.resolve, Ident.relocate, h locals]

theorem Environment.Agrees.resolveStatic? (h : env.Agrees env') (locals : List String)
    (receiver : Expr) (member : Ident) :
    env'.resolveStatic? locals (receiver.relocate f) (member.relocate f) =
      env.resolveStatic? locals receiver member := by
  rw [Environment.resolveStatic?, Environment.resolveStatic?, receiver.staticPath?_relocate,
    Ident.name_relocate]
  exact congrArg receiver.staticPath?.bind (funext fun path => h locals _)

mutual

theorem TypeExpr.resolve_relocate (h : env.Agrees env') (locals : List String) :
    ∀ t : TypeExpr, (t.relocate f).resolve env' locals = (t.resolve env locals).relocate f
  | .named span name args => by
    simp only [TypeExpr.relocate, TypeExpr.resolve, h.resolveIdent, resolveTypes_relocate h]
  | .binary span op left right => by
    simp only [TypeExpr.relocate, TypeExpr.resolve, left.resolve_relocate h,
      right.resolve_relocate h]
  | .array span element => by
    simp only [TypeExpr.relocate, TypeExpr.resolve, element.resolve_relocate h]
  | .unit span => rfl

theorem resolveTypes_relocate (h : env.Agrees env') (locals : List String) :
    ∀ types : List TypeExpr,
      resolveTypes env' locals (relocateTypes f types) =
        relocateTypes f (resolveTypes env locals types)
  | [] => rfl
  | type :: rest => by
    simp only [relocateTypes, resolveTypes, type.resolve_relocate h, resolveTypes_relocate h]

end

mutual

theorem Expr.resolve_relocate (h : env.Agrees env') (locals : List String) :
    ∀ e : Expr, (e.relocate f).resolve env' locals = (e.resolve env locals).relocate f
  | .number .. | .string .. | .bool .. => rfl
  | .name span ident => by simp only [Expr.relocate, Expr.resolve, h.resolveIdent]
  | .binary span op left right => by
    simp only [Expr.relocate, Expr.resolve, left.resolve_relocate h, right.resolve_relocate h]
  | .unary span op operand => by
    simp only [Expr.relocate, Expr.resolve, operand.resolve_relocate h]
  | .assign span target value => by
    simp only [Expr.relocate, Expr.resolve, target.resolve_relocate h, value.resolve_relocate h]
  | .typeTest span operand type guarded => by
    simp only [Expr.relocate, Expr.resolve, operand.resolve_relocate h, type.resolve_relocate h]
  | .cast span operand type guarded => by
    simp only [Expr.relocate, Expr.resolve, operand.resolve_relocate h, type.resolve_relocate h]
  | .call span callee args closure? => by
    simp only [Expr.relocate, Expr.resolve, callee.resolve_relocate h, resolveExprs_relocate h,
      resolveClosure_relocate h]
  | .field span receiver member => by
    simp only [Expr.relocate, Expr.resolve, receiver.resolve_relocate h]
  | .staticMember span receiver member => by
    simp only [Expr.relocate, Expr.resolve, h.resolveStatic?]
    cases env.resolveStatic? locals receiver member with
    | some unique => rfl
    | none => simp only [Expr.relocate, receiver.resolve_relocate h]
  | .index span receiver position => by
    simp only [Expr.relocate, Expr.resolve, receiver.resolve_relocate h,
      position.resolve_relocate h]
  | .array span elements => by simp only [Expr.relocate, Expr.resolve, resolveExprs_relocate h]
  | .object span fields => by simp only [Expr.relocate, Expr.resolve, resolveFields_relocate h]
  | .lambda span params body => by
    simp only [Expr.relocate, Expr.resolve, paramNames_relocate, body.resolve_relocate h]
  | .new span className args => by
    simp only [Expr.relocate, Expr.resolve, h.resolveIdent, resolveExprs_relocate h]

theorem resolveExprs_relocate (h : env.Agrees env') (locals : List String) :
    ∀ es : List Expr,
      resolveExprs env' locals (relocateExprs f es) = relocateExprs f (resolveExprs env locals es)
  | [] => rfl
  | e :: rest => by
    simp only [relocateExprs, resolveExprs, e.resolve_relocate h, resolveExprs_relocate h]

theorem resolveFields_relocate (h : env.Agrees env') (locals : List String) :
    ∀ fields : List ObjectField,
      resolveFields env' locals (relocateFields f fields) =
        relocateFields f (resolveFields env locals fields)
  | [] => rfl
  | ⟨key, value, span⟩ :: rest => by
    simp only [relocateFields, resolveFields, value.resolve_relocate h, resolveFields_relocate h]

theorem resolveClosure_relocate (h : env.Agrees env') (locals : List String) :
    ∀ closure? : Option Block,
      resolveClosure env' locals (relocateClosure f closure?) =
        relocateClosure f (resolveClosure env locals closure?)
  | none => rfl
  | some body => by simp only [relocateClosure, resolveClosure, body.resolve_relocate h]

theorem Block.resolve_relocate (h : env.Agrees env') (locals : List String) :
    ∀ b : Block, (b.relocate f).resolve env' locals = (b.resolve env locals).relocate f
  | ⟨stmts, span⟩ => by simp only [Block.relocate, Block.resolve, resolveStmts_relocate h]

theorem resolveStmts_relocate (h : env.Agrees env') (locals : List String) :
    ∀ stmts : List Stmt,
      resolveStmts env' locals (relocateStmts f stmts) =
        relocateStmts f (resolveStmts env locals stmts)
  | [] => rfl
  | s :: rest => by
    simp only [relocateStmts, resolveStmts, Stmt.boundBefore_relocate, Stmt.boundAfter_relocate,
      s.resolve_relocate h, resolveStmts_relocate h]

theorem Stmt.resolve_relocate (h : env.Agrees env') (locals : List String) :
    ∀ s : Stmt, (s.relocate f).resolve env' locals = (s.resolve env locals).relocate f
  | .namespaceDecl .. | .usingDecl .. | .foreignDecl .. => rfl
  | .letDecl span name type? init? unique? => by
    simp only [Stmt.relocate, Stmt.resolve, resolveOption_relocate h]
  | .function span name params returnType? effect? body unique? => by
    simp only [Stmt.relocate, Stmt.resolve, paramNames_relocate, body.resolve_relocate h]
  | .classDecl span decl => by simp only [Stmt.relocate, Stmt.resolve, decl.resolve_relocate h]
  | .ifElse span condition thenBlock elseBranch => by
    simp only [Stmt.relocate, Stmt.resolve, condition.resolve_relocate h,
      thenBlock.resolve_relocate h, elseBranch.resolve_relocate h]
  | .whileLoop span condition body | .untilLoop span condition body => by
    simp only [Stmt.relocate, Stmt.resolve, condition.resolve_relocate h, body.resolve_relocate h]
  | .ret span value? => by simp only [Stmt.relocate, Stmt.resolve, resolveOption_relocate h]
  | .block span body => by simp only [Stmt.relocate, Stmt.resolve, body.resolve_relocate h]
  | .expr span value => by simp only [Stmt.relocate, Stmt.resolve, value.resolve_relocate h]

theorem resolveOption_relocate (h : env.Agrees env') (locals : List String) :
    ∀ value? : Option Expr,
      resolveOption env' locals (relocateOption f value?) =
        relocateOption f (resolveOption env locals value?)
  | none => rfl
  | some e => by simp only [relocateOption, resolveOption, e.resolve_relocate h]

theorem ElseBranch.resolve_relocate (h : env.Agrees env') (locals : List String) :
    ∀ b : ElseBranch, (b.relocate f).resolve env' locals = (b.resolve env locals).relocate f
  | .none => rfl
  | .block body => by simp only [ElseBranch.relocate, ElseBranch.resolve, body.resolve_relocate h]
  | .elseIf condition thenBlock elseBranch => by
    simp only [ElseBranch.relocate, ElseBranch.resolve, condition.resolve_relocate h,
      thenBlock.resolve_relocate h, elseBranch.resolve_relocate h]

theorem ClassDecl.resolve_relocate (h : env.Agrees env') (locals : List String) :
    ∀ decl : ClassDecl, (decl.relocate f).resolve env' locals = (decl.resolve env locals).relocate f
  | ⟨kind, name, extends?, implements, members, unique?⟩ => by
    have htype : TypeExpr.resolve env' locals ∘ TypeExpr.relocate f =
        TypeExpr.relocate f ∘ TypeExpr.resolve env locals :=
      funext (TypeExpr.resolve_relocate h locals)
    simp only [ClassDecl.relocate, ClassDecl.resolve, Option.map_map, htype,
      resolveTypes_relocate h, resolveMembers_relocate h]

theorem resolveMembers_relocate (h : env.Agrees env') (locals : List String) :
    ∀ members : List Member,
      resolveMembers env' locals (relocateMembers f members) =
        relocateMembers f (resolveMembers env locals members)
  | [] => rfl
  | member :: rest => by
    simp only [relocateMembers, resolveMembers, member.resolve_relocate h,
      resolveMembers_relocate h]

theorem Member.resolve_relocate (h : env.Agrees env') (locals : List String) :
    ∀ m : Member, (m.relocate f).resolve env' locals = (m.resolve env locals).relocate f
  | .constructor span params body => by
    simp only [Member.relocate, Member.resolve, paramNames_relocate, body.resolve_relocate h]
  | .method span name params returnType? effect? body? => by
    simp only [Member.relocate, Member.resolve, paramNames_relocate, resolveClosure_relocate h]
  | .field span name type? init? isDefault => by
    simp only [Member.relocate, Member.resolve, resolveOption_relocate h]

end

end Resolve

/-! ### Parts and their findings -/

def Entry.relocate (f : Span → Span) (entry : Entry) : Entry :=
  { entry with span := f entry.span }

def Finding.relocate (f : Span → Span) : Finding → Finding
  | .unparsable file error => .unparsable file (error.relocate f)
  | .duplicateMain file span name first => .duplicateMain file (f span) name first
  | .redeclared file span kind name previous =>
    .redeclared file (f span) kind name (previous.relocate f)
  | .awaitingConstructor file span className => .awaitingConstructor file (f span) className
  | .implicitMemberCall file span callee className severity =>
    .implicitMemberCall file (f span) callee className severity
  | .cycle path => .cycle path
  | .namespaceMissing file => .namespaceMissing file
  | .mainMissing file => .mainMissing file
  | .manyMains file => .manyMains file
  | .qualifiedReference file unique => .qualifiedReference file unique

def Node.relocate (f : Span → Span) : Node → Node
  | .type t => .type (t.relocate f)
  | .expr e => .expr (e.relocate f)
  | .block b => .block (b.relocate f)
  | .stmt s => .stmt (s.relocate f)
  | .elseBranch b => .elseBranch (b.relocate f)
  | .member m => .member (m.relocate f)

def Child.relocate (f : Span → Span) (child : Child) : Child :=
  { child with node := child.node.relocate f }

def Occurrence.relocate (f : Span → Span) (o : Occurrence) : Occurrence :=
  { o with node := o.node.relocate f }

theorem stmtChildren_relocate (bound : List String) (stmts : List Stmt) :
    stmtChildren bound (stmts.map (Stmt.relocate f)) =
      (stmtChildren bound stmts).map (Child.relocate f) := by
  induction stmts generalizing bound with
  | nil => rfl
  | cons s rest ih =>
    rw [List.map_cons, stmtChildren, stmtChildren, Stmt.boundBefore_relocate,
      Stmt.boundAfter_relocate, ih, List.map_cons]
    rfl

/-- The children of a moved part are its moved children. -/
theorem Node.children_relocate (n : Node) :
    (n.relocate f).children = n.children.map (Child.relocate f) := by
  cases n with
  | type t =>
    cases t <;>
      simp [relocate, TypeExpr.relocate, children, TypeExpr.children, Child.relocate, Child.plain,
        Function.comp_def]
  | expr e =>
    cases e <;>
      simp [relocate, Expr.relocate, children, Expr.children, Child.relocate, Child.plain,
        Child.body, ObjectField.relocate, Option.toList_map, Function.comp_def]
  | block b =>
    obtain ⟨stmts, span⟩ := b
    simpa [relocate, Block.relocate, children] using stmtChildren_relocate [] stmts
  | stmt s =>
    cases s with
    | classDecl span decl =>
      obtain ⟨kind, name, extends?, implements, members, unique?⟩ := decl
      simp [relocate, Stmt.relocate, ClassDecl.relocate, children, Stmt.children, Child.relocate,
        Child.plain, Option.toList_map, Function.comp_def]
    | _ =>
      simp [relocate, Stmt.relocate, children, Stmt.children, Child.relocate, Child.plain,
        Child.body, Option.toList_map, Function.comp_def]
  | elseBranch b =>
    cases b <;>
      simp [relocate, ElseBranch.relocate, children, ElseBranch.children, Child.relocate,
        Child.plain]
  | member m =>
    cases m <;>
      simp [relocate, Member.relocate, children, Member.children, Child.relocate, Child.plain,
        Child.body, Option.toList_map, Function.comp_def]

namespace Occurrence

variable {file : String} {env env' : Environment}

theorem parts_relocate (o : Occurrence) :
    (o.relocate f).parts = o.parts.map (Occurrence.relocate f) := by
  show (o.node.relocate f).children.map _ = _
  rw [Node.children_relocate, parts, List.map_map, List.map_map]
  rfl

theorem collapsed?_relocate (h : env.Agrees env') (o : Occurrence) :
    (o.relocate f).collapsed? env' = o.collapsed? env := by
  obtain ⟨locals, class?, node⟩ := o
  cases node with
  | expr e =>
    cases e with
    | staticMember span receiver member => exact h.resolveStatic? locals receiver member
    | _ => rfl
  | _ => rfl

theorem callFinding?_relocate (h : env.Agrees env') (class? : Option ClassScope)
    (locals : List String) (callee : Ident) :
    Site.callFinding? ⟨file, env', class?⟩ .error locals (callee.relocate f) =
      (Site.callFinding? ⟨file, env, class?⟩ .error locals callee).map (Finding.relocate f) := by
  cases class? with
  | none => rfl
  | some scope =>
    simp only [Site.callFinding?, Option.bind_some, Ident.name_relocate, h locals]
    split <;> rfl

theorem ownFindings_relocate (h : env.Agrees env') (o : Occurrence) :
    (o.relocate f).ownFindings file env' = (o.ownFindings file env).map (Finding.relocate f) := by
  obtain ⟨locals, class?, node⟩ := o
  cases node with
  | expr e =>
    cases e with
    | call span callee args closure? =>
      cases callee with
      | name span ident =>
        show (Site.callFinding? _ _ _ (ident.relocate f)).toList = (Option.toList _).map _
        rw [callFinding?_relocate h, Option.toList_map]
        rfl
      | _ => rfl
    | _ => rfl
  | member m =>
    cases m with
    | constructor span params body =>
      show (if (body.relocate f).awaits then _ else _) = _
      rw [body.awaits_relocate]
      simp only [ownFindings]
      split <;> rfl
    | _ => rfl
  | _ => rfl

/-- What is found in a moved part is found at the moved places. -/
theorem check_relocate (h : env.Agrees env') (o : Occurrence) :
    (o.relocate f).check file env' = (o.check file env).map (Finding.relocate f) := by
  obtain ⟨locals, class?, node⟩ := o
  induction node using Node.induction_on generalizing locals class? with
  | h node ih =>
    have hsame := collapsed?_relocate (f := f) h ⟨locals, class?, node⟩
    cases hcollapsed : collapsed? env ⟨locals, class?, node⟩ with
    | some unique =>
      rw [(collapsed_cases hcollapsed).2, (collapsed_cases (hsame.trans hcollapsed)).2]
      rfl
    | none =>
      rw [check_eq hcollapsed, check_eq (hsame.trans hcollapsed), ownFindings_relocate h,
        parts_relocate, List.map_append, List.flatMap_map, List.map_flatMap]
      congr 1
      refine List.flatMap_congr fun part hpart => ?_
      obtain ⟨child, hchild, rfl⟩ := mem_parts.mp hpart
      exact ih child hchild _ _

end Occurrence

end ScriptCompiler
