import ScriptCompiler.Script.Generate

/-!
# Programs without inert statements

Namespace and using declarations do nothing when a script runs, and an optimized script leaves their
remarks out. The same script is written without optimization for the program from which these
declarations are taken away, wherever they stand: in blocks, in the bodies of functions, methods,
constructors and lambdas, and in the blocks of calls.
-/

namespace ScriptCompiler

mutual

/-- The expression without the inert statements of the bodies inside it. -/
@[simp] def Expr.pruned : Expr → Expr
  | .number span digits => .number span digits
  | .string span value => .string span value
  | .bool span value => .bool span value
  | .name span ident => .name span ident
  | .binary span op left right => .binary span op left.pruned right.pruned
  | .unary span op operand => .unary span op operand.pruned
  | .assign span target value => .assign span target.pruned value.pruned
  | .typeTest span operand type guarded => .typeTest span operand.pruned type guarded
  | .cast span operand type guarded => .cast span operand.pruned type guarded
  | .call span callee args none => .call span callee.pruned (prunedExprs args) none
  | .call span callee args (some closure) =>
    .call span callee.pruned (prunedExprs args) (some closure.pruned)
  | .field span receiver member => .field span receiver.pruned member
  | .staticMember span receiver member => .staticMember span receiver.pruned member
  | .index span receiver position => .index span receiver.pruned position.pruned
  | .array span elements => .array span (prunedExprs elements)
  | .object span fields => .object span (prunedFields fields)
  | .lambda span params body => .lambda span params body.pruned
  | .new span className args => .new span className (prunedExprs args)

/-- The expressions without inert statements inside them. -/
def prunedExprs : List Expr → List Expr
  | [] => []
  | e :: rest => e.pruned :: prunedExprs rest

/-- The fields of an object literal without inert statements inside them. -/
def prunedFields : List ObjectField → List ObjectField
  | [] => []
  | ⟨key, value, span⟩ :: rest => ⟨key, value.pruned, span⟩ :: prunedFields rest

/-- The block without its inert statements. -/
def Block.pruned : Block → Block
  | ⟨stmts, span⟩ => ⟨prunedStmts stmts, span⟩

/-- The statements without those that are inert, and without inert ones inside the others. -/
def prunedStmts : List Stmt → List Stmt
  | [] => []
  | s :: rest => if s.isInert then prunedStmts rest else s.pruned :: prunedStmts rest

/-- The statement without the inert statements inside it. -/
@[simp] def Stmt.pruned : Stmt → Stmt
  | .namespaceDecl span decl => .namespaceDecl span decl
  | .usingDecl span decl => .usingDecl span decl
  | .foreignDecl span decl => .foreignDecl span decl
  | .letDecl span name type? none uniqueName? => .letDecl span name type? none uniqueName?
  | .letDecl span name type? (some init) uniqueName? =>
    .letDecl span name type? (some init.pruned) uniqueName?
  | .function span name params returnType? effect? body uniqueName? =>
    .function span name params returnType? effect? body.pruned uniqueName?
  | .classDecl span ⟨kind, name, extends?, implements, members, uniqueName?⟩ =>
    .classDecl span ⟨kind, name, extends?, implements, prunedMembers members, uniqueName?⟩
  | .ifElse span condition thenBlock elseBranch =>
    .ifElse span condition.pruned thenBlock.pruned elseBranch.pruned
  | .whileLoop span condition body => .whileLoop span condition.pruned body.pruned
  | .untilLoop span condition body => .untilLoop span condition.pruned body.pruned
  | .ret span none => .ret span none
  | .ret span (some value) => .ret span (some value.pruned)
  | .block span body => .block span body.pruned
  | .expr span value => .expr span value.pruned

/-- The rest of a conditional without the inert statements inside it. -/
def ElseBranch.pruned : ElseBranch → ElseBranch
  | .none => .none
  | .block body => .block body.pruned
  | .elseIf condition thenBlock elseBranch =>
    .elseIf condition.pruned thenBlock.pruned elseBranch.pruned

/-- The members of a class without the inert statements of their bodies. -/
def prunedMembers : List Member → List Member
  | [] => []
  | .constructor span params body :: rest =>
    .constructor span params body.pruned :: prunedMembers rest
  | .method span name params returnType? effect? (some body) :: rest =>
    .method span name params returnType? effect? (some body.pruned) :: prunedMembers rest
  | .method span name params returnType? effect? none :: rest =>
    .method span name params returnType? effect? none :: prunedMembers rest
  | .field span name type? (some init) isDefault :: rest =>
    .field span name type? (some init.pruned) isDefault :: prunedMembers rest
  | .field span name type? none isDefault :: rest =>
    .field span name type? none isDefault :: prunedMembers rest

end

/-- The program without inert statements at any depth. -/
def Program.pruned (program : Program) : Program :=
  ⟨prunedStmts program.stmts⟩

/-! ### What a tree tells about itself -/

mutual

theorem Expr.awaits_pruned : ∀ e : Expr, e.pruned.awaits = e.awaits
  | .number .. | .string .. | .bool .. | .name .. | .lambda .. => rfl
  | .unary _ op operand => by rw [Expr.pruned, Expr.awaits, Expr.awaits, operand.awaits_pruned]
  | .binary _ _ left right => by
    rw [Expr.pruned, Expr.awaits, Expr.awaits, left.awaits_pruned, right.awaits_pruned]
  | .assign _ target value => by
    rw [Expr.pruned, Expr.awaits, Expr.awaits, target.awaits_pruned, value.awaits_pruned]
  | .index _ receiver position => by
    rw [Expr.pruned, Expr.awaits, Expr.awaits, receiver.awaits_pruned, position.awaits_pruned]
  | .typeTest _ operand .. | .cast _ operand .. => by
    rw [Expr.pruned, Expr.awaits, Expr.awaits, operand.awaits_pruned]
  | .field _ receiver _ | .staticMember _ receiver _ => by
    rw [Expr.pruned, Expr.awaits, Expr.awaits, receiver.awaits_pruned]
  | .call _ callee args none | .call _ callee args (some _) => by
    rw [Expr.pruned, Expr.awaits, Expr.awaits, callee.awaits_pruned, awaitsAny_pruned]
  | .array _ elements => by rw [Expr.pruned, Expr.awaits, Expr.awaits, awaitsAny_pruned]
  | .new _ _ args => by rw [Expr.pruned, Expr.awaits, Expr.awaits, awaitsAny_pruned]
  | .object _ fields => by rw [Expr.pruned, Expr.awaits, Expr.awaits, awaitsAnyField_pruned]

theorem awaitsAny_pruned : ∀ es : List Expr, awaitsAny (prunedExprs es) = awaitsAny es
  | [] => rfl
  | e :: rest => by rw [prunedExprs, awaitsAny, awaitsAny, e.awaits_pruned, awaitsAny_pruned rest]

theorem awaitsAnyField_pruned :
    ∀ fields : List ObjectField, awaitsAnyField (prunedFields fields) = awaitsAnyField fields
  | [] => rfl
  | ⟨_, value, _⟩ :: rest => by
    rw [prunedFields, awaitsAnyField, awaitsAnyField, value.awaits_pruned,
      awaitsAnyField_pruned rest]

end

theorem Stmt.awaits_of_isInert {s : Stmt} (h : s.isInert = true) : s.awaits = false := by
  cases s with
  | namespaceDecl | usingDecl => rfl
  | _ => cases h

mutual

theorem Stmt.awaits_pruned : ∀ s : Stmt, s.pruned.awaits = s.awaits
  | .letDecl _ _ _ none _ | .ret _ none => rfl
  | .letDecl _ _ _ (some init) _ => init.awaits_pruned
  | .ret _ (some value) => value.awaits_pruned
  | .ifElse _ condition thenBlock elseBranch => by
    rw [Stmt.pruned, Stmt.awaits, Stmt.awaits, condition.awaits_pruned, thenBlock.awaits_pruned,
      elseBranch.awaits_pruned]
  | .whileLoop _ condition body | .untilLoop _ condition body => by
    rw [Stmt.pruned, Stmt.awaits, Stmt.awaits, condition.awaits_pruned, body.awaits_pruned]
  | .block _ body => by rw [Stmt.pruned, Stmt.awaits, Stmt.awaits, body.awaits_pruned]
  | .expr _ value => by rw [Stmt.pruned, Stmt.awaits, Stmt.awaits, value.awaits_pruned]
  | .namespaceDecl .. | .usingDecl .. | .foreignDecl .. | .function ..
  | .classDecl _ ⟨_, _, _, _, _, _⟩ => rfl

theorem Block.awaits_pruned : ∀ b : Block, b.pruned.awaits = b.awaits
  | ⟨stmts, _⟩ => by rw [Block.pruned, Block.awaits, Block.awaits, awaitsAnyStmt_pruned]

theorem awaitsAnyStmt_pruned :
    ∀ stmts : List Stmt, awaitsAnyStmt (prunedStmts stmts) = awaitsAnyStmt stmts
  | [] => rfl
  | s :: rest => by
    rw [prunedStmts, awaitsAnyStmt]
    split
    · next hinert => rw [s.awaits_of_isInert hinert, Bool.false_or, awaitsAnyStmt_pruned rest]
    · rw [awaitsAnyStmt, s.awaits_pruned, awaitsAnyStmt_pruned rest]

theorem ElseBranch.awaits_pruned : ∀ b : ElseBranch, b.pruned.awaits = b.awaits
  | .none => rfl
  | .block body => by
    rw [ElseBranch.pruned, ElseBranch.awaits, ElseBranch.awaits, body.awaits_pruned]
  | .elseIf condition thenBlock elseBranch => by
    rw [ElseBranch.pruned, ElseBranch.awaits, ElseBranch.awaits, condition.awaits_pruned,
      thenBlock.awaits_pruned, elseBranch.awaits_pruned]

end

theorem Stmt.declaredClasses_of_isInert {s : Stmt} (h : s.isInert = true) :
    s.declaredClasses = [] := by
  cases s with
  | namespaceDecl | usingDecl => rfl
  | _ => cases h

mutual

theorem Stmt.declaredClasses_pruned : ∀ s : Stmt, s.pruned.declaredClasses = s.declaredClasses
  | .classDecl _ ⟨_, _, _, _, members, _⟩ => by
    rw [Stmt.pruned, Stmt.declaredClasses, Stmt.declaredClasses, declaredInMembers_pruned members]
  | .function _ _ _ _ _ ⟨stmts, _⟩ _ => by
    rw [Stmt.pruned, Block.pruned, Stmt.declaredClasses, Stmt.declaredClasses,
      declaredClasses_pruned stmts]
  | .block _ ⟨stmts, _⟩ => by
    rw [Stmt.pruned, Block.pruned, Stmt.declaredClasses, Stmt.declaredClasses,
      declaredClasses_pruned stmts]
  | .whileLoop _ _ ⟨stmts, _⟩ | .untilLoop _ _ ⟨stmts, _⟩ => by
    rw [Stmt.pruned, Block.pruned, Stmt.declaredClasses, Stmt.declaredClasses,
      declaredClasses_pruned stmts]
  | .ifElse _ _ ⟨stmts, _⟩ elseBranch => by
    rw [Stmt.pruned, Block.pruned, Stmt.declaredClasses, Stmt.declaredClasses,
      declaredClasses_pruned stmts, elseBranch.declaredClasses_pruned]
  | .letDecl _ _ _ none _ | .letDecl _ _ _ (some _) _ | .ret _ none | .ret _ (some _)
  | .namespaceDecl .. | .usingDecl .. | .foreignDecl .. | .expr .. => rfl

theorem declaredClasses_pruned :
    ∀ stmts : List Stmt, declaredClasses (prunedStmts stmts) = declaredClasses stmts
  | [] => rfl
  | s :: rest => by
    rw [prunedStmts, declaredClasses]
    split
    · next hinert =>
      rw [s.declaredClasses_of_isInert hinert, List.nil_append, declaredClasses_pruned rest]
    · rw [declaredClasses, s.declaredClasses_pruned, declaredClasses_pruned rest]

theorem ElseBranch.declaredClasses_pruned :
    ∀ b : ElseBranch, b.pruned.declaredClasses = b.declaredClasses
  | .none => rfl
  | .block ⟨stmts, _⟩ => by
    rw [ElseBranch.pruned, Block.pruned, ElseBranch.declaredClasses, ElseBranch.declaredClasses,
      declaredClasses_pruned stmts]
  | .elseIf _ ⟨stmts, _⟩ elseBranch => by
    rw [ElseBranch.pruned, Block.pruned, ElseBranch.declaredClasses, ElseBranch.declaredClasses,
      declaredClasses_pruned stmts, elseBranch.declaredClasses_pruned]

theorem declaredInMembers_pruned :
    ∀ members : List Member, declaredInMembers (prunedMembers members) = declaredInMembers members
  | [] => rfl
  | .method _ _ _ _ _ (some ⟨stmts, _⟩) :: rest => by
    rw [prunedMembers, Block.pruned, declaredInMembers, declaredInMembers,
      declaredClasses_pruned stmts, declaredInMembers_pruned rest]
  | .method _ _ _ _ _ none :: rest | .constructor .. :: rest | .field _ _ _ none _ :: rest
  | .field _ _ _ (some _) _ :: rest => by
    simp only [prunedMembers, declaredInMembers, declaredInMembers_pruned rest]

end

/-! ### What is written for a tree -/

namespace Script

/-- The same place in a script that is not optimized. -/
def Context.unoptimized (ctx : Context) : Context :=
  { ctx with optimize := false }

namespace Context

@[simp] theorem deeper_unoptimized (ctx : Context) :
    ctx.unoptimized.deeper = ctx.deeper.unoptimized :=
  rfl

@[simp] theorem insideClass_unoptimized (ctx : Context) (name : String) :
    ctx.unoptimized.insideClass name = (ctx.insideClass name).unoptimized :=
  rfl

@[simp] theorem row_unoptimized (ctx : Context) : ctx.unoptimized.row = ctx.row :=
  rfl

@[simp] theorem rowFrom_unoptimized (ctx : Context) : ctx.unoptimized.rowFrom = ctx.rowFrom :=
  rfl

@[simp] theorem nameText_unoptimized (ctx : Context) : ctx.unoptimized.nameText = ctx.nameText :=
  rfl

end Context

theorem typeTest_unoptimized (ctx : Context) (subject : String) :
    ∀ t : TypeExpr, typeTest ctx.unoptimized subject t = typeTest ctx subject t
  | .named .. | .array .. | .unit .. | .binary _ .arrow .. => rfl
  | .binary _ .intersection left right | .binary _ .union left right
  | .binary _ .sum left right => by
    rw [typeTest, typeTest, typeTest_unoptimized ctx subject left,
      typeTest_unoptimized ctx subject right]

-- None of the rows that are written around those of the parts is a remark on a declaration.
theorem lambdaText_unoptimized (ctx : Context) : lambdaText ctx.unoptimized = lambdaText ctx :=
  rfl

theorem classHeader_unoptimized (ctx : Context) : classHeader ctx.unoptimized = classHeader ctx :=
  rfl

theorem memberRows_unoptimized (ctx : Context) : memberRows ctx.unoptimized = memberRows ctx :=
  rfl

theorem mixinRows_unoptimized (ctx : Context) : mixinRows ctx.unoptimized = mixinRows ctx :=
  rfl

theorem instanceRows_unoptimized (ctx : Context) :
    instanceRows ctx.unoptimized = instanceRows ctx :=
  rfl

theorem receiverText_pruned (text : String) (e : Expr) :
    receiverText text e.pruned = receiverText text e := by
  cases e with
  | call span callee args closure? => cases closure? <;> rfl
  | _ => rfl

theorem conditionText_pruned (text : String) (e : Expr) :
    conditionText text e.pruned = conditionText text e := by
  cases e with
  | call span callee args closure? => cases closure? <;> rfl
  | typeTest span operand type guarded => cases guarded <;> rfl
  | _ => rfl

theorem statementText_pruned (text : String) (e : Expr) :
    statementText text e.pruned = statementText text e := by
  cases e with
  | call span callee args closure? => cases closure? <;> rfl
  | _ => rfl

end Script

theorem Stmt.rows_of_isInert {s : Stmt} (h : s.isInert = true) {ctx : Script.Context}
    (hctx : ctx.optimize = true) : s.rows ctx = [] := by
  cases s with
  | namespaceDecl | usingDecl => rw [Stmt.rows, if_pos hctx]
  | _ => cases h

open Script

mutual

theorem Expr.script_pruned {ctx : Context} (hctx : ctx.optimize = true) :
    ∀ e : Expr, e.pruned.script ctx.unoptimized = e.script ctx
  | .number .. | .string .. | .bool .. | .name .. => rfl
  | .binary _ op left right => by
    rw [Expr.pruned, Expr.script, Expr.script, left.script_pruned hctx, right.script_pruned hctx]
  | .unary _ op operand => by
    rw [Expr.pruned, Expr.script, Expr.script, operand.script_pruned hctx]
  | .assign _ target value => by
    rw [Expr.pruned, Expr.script, Expr.script, target.script_pruned hctx, value.script_pruned hctx]
  | .typeTest _ operand type guarded => by
    rw [Expr.pruned, Expr.script, Expr.script, operand.script_pruned hctx, operand.awaits_pruned,
      typeTest_unoptimized]
  | .cast _ operand type guarded => by
    rw [Expr.pruned, Expr.script, Expr.script, operand.script_pruned hctx, operand.awaits_pruned]
  | .call _ callee args none => by
    rw [Expr.pruned, Expr.script, Expr.script, callee.script_pruned hctx, receiverText_pruned,
      scriptExprs_pruned hctx args]
  | .call _ callee args (some closure) => by
    have hdeeper : ctx.deeper.optimize = true := hctx
    rw [Expr.pruned, Expr.script, Expr.script, callee.script_pruned hctx, receiverText_pruned,
      scriptExprs_pruned hctx args, closure.awaits_pruned, Context.deeper_unoptimized,
      closure.rows_pruned hdeeper, lambdaText_unoptimized]
  | .field _ receiver member | .staticMember _ receiver member => by
    rw [Expr.pruned, Expr.script, Expr.script, receiver.script_pruned hctx, receiverText_pruned]
  | .index _ receiver position => by
    rw [Expr.pruned, Expr.script, Expr.script, receiver.script_pruned hctx, receiverText_pruned,
      position.script_pruned hctx]
  | .array _ elements => by
    rw [Expr.pruned, Expr.script, Expr.script, scriptExprs_pruned hctx elements]
  | .object _ fields => by
    rw [Expr.pruned, Expr.script, Expr.script, scriptFields_pruned hctx fields]
  | .lambda _ params body => by
    have hdeeper : ctx.deeper.optimize = true := hctx
    rw [Expr.pruned, Expr.script, Expr.script, body.awaits_pruned, Context.deeper_unoptimized,
      body.rows_pruned hdeeper, lambdaText_unoptimized]
  | .new _ className args => by
    rw [Expr.pruned, Expr.script, Expr.script, scriptExprs_pruned hctx args,
      Context.nameText_unoptimized]

theorem scriptExprs_pruned {ctx : Context} (hctx : ctx.optimize = true) :
    ∀ es : List Expr, scriptExprs ctx.unoptimized (prunedExprs es) = scriptExprs ctx es
  | [] => rfl
  | e :: rest => by
    rw [prunedExprs, scriptExprs, scriptExprs, e.script_pruned hctx, scriptExprs_pruned hctx rest]

theorem scriptFields_pruned {ctx : Context} (hctx : ctx.optimize = true) :
    ∀ fields : List ObjectField,
      scriptFields ctx.unoptimized (prunedFields fields) = scriptFields ctx fields
  | [] => rfl
  | ⟨key, value, _⟩ :: rest => by
    rw [prunedFields, scriptFields, scriptFields, value.script_pruned hctx,
      scriptFields_pruned hctx rest]

theorem Block.rows_pruned {ctx : Context} (hctx : ctx.optimize = true) :
    ∀ b : Block, b.pruned.rows ctx.unoptimized = b.rows ctx
  | ⟨stmts, _⟩ => by rw [Block.pruned, Block.rows, Block.rows, stmtRows_pruned hctx stmts]

theorem stmtRows_pruned {ctx : Context} (hctx : ctx.optimize = true) :
    ∀ stmts : List Stmt, stmtRows ctx.unoptimized (prunedStmts stmts) = stmtRows ctx stmts
  | [] => rfl
  | s :: rest => by
    rw [prunedStmts, stmtRows]
    split
    · next hinert => rw [s.rows_of_isInert hinert hctx, List.nil_append, stmtRows_pruned hctx rest]
    · next hinert =>
      rw [stmtRows, s.rows_pruned hctx hinert, stmtRows_pruned hctx rest]

theorem Stmt.rows_pruned {ctx : Context} (hctx : ctx.optimize = true) :
    ∀ s : Stmt, ¬ s.isInert = true → s.pruned.rows ctx.unoptimized = s.rows ctx
  | .namespaceDecl .., h | .usingDecl .., h => absurd rfl h
  | .foreignDecl .., _ | .letDecl _ _ _ none _, _ | .ret _ none, _ => rfl
  | .letDecl span name _ (some init) _, _ => by
    rw [Stmt.pruned, Stmt.rows, Stmt.rows, init.script_pruned hctx, Context.rowFrom_unoptimized]
  | .function span name params _ _ body _, _ => by
    have hdeeper : ctx.deeper.optimize = true := hctx
    rw [Stmt.pruned, Stmt.rows, Stmt.rows, body.awaits_pruned, Context.deeper_unoptimized,
      body.rows_pruned hdeeper, Context.rowFrom_unoptimized,
      Context.row_unoptimized]
  | .classDecl span ⟨.singleton, name, extends?, implements, members, unique?⟩, _ => by
    have hinside :
        (ctx.deeper.insideClass ("__" ++ unique?.getD name.name ++ "_Impl")).optimize = true := hctx
    rw [Stmt.pruned, Stmt.rows, Stmt.rows]
    simp only [Context.deeper_unoptimized, Context.insideClass_unoptimized,
      Context.rowFrom_unoptimized, Context.row_unoptimized, fieldInits_pruned hinside members,
      constructorRows_pruned hinside _ _ members, methodRows_pruned hinside members,
      memberRows_unoptimized, classHeader_unoptimized, mixinRows_unoptimized,
      instanceRows_unoptimized]
  | .classDecl span ⟨.plain, name, extends?, implements, members, unique?⟩, _
  | .classDecl span ⟨.trait, name, extends?, implements, members, unique?⟩, _ => by
    have hinside : (ctx.insideClass (unique?.getD name.name)).optimize = true := hctx
    rw [Stmt.pruned, Stmt.rows, Stmt.rows]
    · simp only [Context.insideClass_unoptimized, Context.rowFrom_unoptimized,
        Context.row_unoptimized, fieldInits_pruned hinside members,
        constructorRows_pruned hinside _ _ members, methodRows_pruned hinside members,
        memberRows_unoptimized, classHeader_unoptimized, mixinRows_unoptimized]
    · exact ClassKind.noConfusion
    · exact ClassKind.noConfusion
  | .ifElse span condition thenBlock elseBranch, _ => by
    have hdeeper : ctx.deeper.optimize = true := hctx
    rw [Stmt.pruned, Stmt.rows, Stmt.rows, condition.script_pruned hctx, conditionText_pruned,
      Context.deeper_unoptimized, thenBlock.rows_pruned hdeeper,
      elseBranch.rows_pruned hctx, Context.rowFrom_unoptimized, Context.row_unoptimized]
  | .whileLoop span condition body, _ | .untilLoop span condition body, _ => by
    have hdeeper : ctx.deeper.optimize = true := hctx
    rw [Stmt.pruned, Stmt.rows, Stmt.rows, condition.script_pruned hctx, conditionText_pruned,
      Context.deeper_unoptimized, body.rows_pruned hdeeper,
      Context.rowFrom_unoptimized, Context.row_unoptimized]
  | .ret span (some value), _ => by
    rw [Stmt.pruned, Stmt.rows, Stmt.rows, value.script_pruned hctx, Context.rowFrom_unoptimized]
  | .block span body, _ => by
    have hdeeper : ctx.deeper.optimize = true := hctx
    rw [Stmt.pruned, Stmt.rows, Stmt.rows, Context.deeper_unoptimized,
      body.rows_pruned hdeeper, Context.rowFrom_unoptimized,
      Context.row_unoptimized]
  | .expr span value, _ => by
    rw [Stmt.pruned, Stmt.rows, Stmt.rows, value.script_pruned hctx, statementText_pruned,
      Context.rowFrom_unoptimized]

theorem ElseBranch.rows_pruned {ctx : Context} (hctx : ctx.optimize = true) :
    ∀ b : ElseBranch, b.pruned.rows ctx.unoptimized = b.rows ctx
  | .none => rfl
  | .block body => by
    have hdeeper : ctx.deeper.optimize = true := hctx
    rw [ElseBranch.pruned, ElseBranch.rows, ElseBranch.rows, Context.deeper_unoptimized,
      body.rows_pruned hdeeper, Context.row_unoptimized]
  | .elseIf condition thenBlock elseBranch => by
    have hdeeper : ctx.deeper.optimize = true := hctx
    rw [ElseBranch.pruned, ElseBranch.rows, ElseBranch.rows, condition.script_pruned hctx,
      conditionText_pruned, Context.deeper_unoptimized,
      thenBlock.rows_pruned hdeeper, elseBranch.rows_pruned hctx,
      Context.row_unoptimized]

theorem fieldInits_pruned {ctx : Context} (hctx : ctx.optimize = true) :
    ∀ members : List Member,
      fieldInits ctx.unoptimized (prunedMembers members) = fieldInits ctx members
  | [] => rfl
  | .field _ name _ (some init) _ :: rest => by
    rw [prunedMembers, fieldInits, fieldInits, init.script_pruned hctx, fieldInits_pruned hctx rest]
  | .field _ name type? none true :: rest => by
    rw [prunedMembers, fieldInits, fieldInits, fieldInits_pruned hctx rest]
  | .field _ name type? none false :: rest | .constructor .. :: rest
  | .method _ _ _ _ _ (some _) :: rest | .method _ _ _ _ _ none :: rest => by
    simp only [prunedMembers, fieldInits, fieldInits_pruned hctx rest]

theorem constructorRows_pruned {ctx : Context} (hctx : ctx.optimize = true) (hasBase : Bool)
    (inits : List String) : ∀ members : List Member,
      constructorRows ctx.unoptimized hasBase inits (prunedMembers members) =
        constructorRows ctx hasBase inits members
  | [] => rfl
  | .constructor span params body :: _ => by
    have hdeeper : ctx.deeper.optimize = true := hctx
    rw [prunedMembers, constructorRows, constructorRows, Context.deeper_unoptimized,
      body.rows_pruned hdeeper, Context.rowFrom_unoptimized,
      Context.row_unoptimized, Context.row_unoptimized]
  | .method _ _ _ _ _ (some _) :: rest | .method _ _ _ _ _ none :: rest
  | .field _ _ _ none _ :: rest | .field _ _ _ (some _) _ :: rest => by
    simp only [prunedMembers, constructorRows, constructorRows_pruned hctx hasBase inits rest]

theorem methodRows_pruned {ctx : Context} (hctx : ctx.optimize = true) :
    ∀ members : List Member,
      methodRows ctx.unoptimized (prunedMembers members) = methodRows ctx members
  | [] => rfl
  | .method span name params _ _ (some body) :: rest => by
    have hdeeper : ctx.deeper.optimize = true := hctx
    rw [prunedMembers, methodRows, methodRows, body.awaits_pruned, Context.deeper_unoptimized,
      body.rows_pruned hdeeper, Context.rowFrom_unoptimized,
      Context.row_unoptimized, methodRows_pruned hctx rest]
  | .method _ _ _ _ _ none :: rest | .constructor .. :: rest | .field _ _ _ none _ :: rest
  | .field _ _ _ (some _) _ :: rest => by
    simp only [prunedMembers, methodRows, methodRows_pruned hctx rest]

end

end ScriptCompiler
