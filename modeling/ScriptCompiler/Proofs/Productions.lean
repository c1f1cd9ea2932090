import ScriptCompiler.Proofs.Consumption

/-!
# What the productions of the grammar consume

Every nested part of a production comes after a lexeme has been consumed. So the productions over
two grammars do the same if the nested parts of these do the same for one lexeme less, and a grammar
that is some levels above another one does not depend on that one while there are less lexemes ahead
than levels.
-/

namespace ScriptCompiler

open TokenParser

/-- The nested parts of the two grammars are in step, and all but the rest of a conditional consume
    something. -/
structure Grammar.Agree (depth : Nat) (g g' : Grammar) : Prop where
  type : ∀ least, InStep anyToken depth (fun _ => 1) (g.nestedType least) (g'.nestedType least)
  expr : ∀ least, InStep anyToken depth (fun _ => 1) (g.nestedExpr least) (g'.nestedExpr least)
  operand : InStep anyToken depth (fun _ => 1) g.nestedOperand g'.nestedOperand
  rest : InStep anyToken depth (fun _ => 0) g.nestedElse g'.nestedElse
  stmt : InStep anyToken depth (fun _ => 1) g.nestedStmt g'.nestedStmt

namespace Grammar

variable {depth : Nat} {g g' : Grammar} {start : Token → Prop}

/-! ### Types and parameters -/

theorem pathStep_endsWith (segments : List Ident) : EndsWith none (pathStep segments) :=
  endsWith_peek.bind (looks_peekNext.endsWith fun _ => .pure none)

theorem pathStep_inStep (segments : List Ident) :
    InStep start (depth + 1) (fun next => next.isSome.toNat) (pathStep segments)
      (pathStep segments) := by
  refine looks_peek.sees_token fun token => looks_peekNext.keeps_token fun next => ?_
  split
  · exact (InStep.advanceOver Token.noConfusion).bind fun _ => InStep.ident.next fun _ => .pure rfl
  · exact .pure rfl

theorem path_inStep : InStep start (depth + 1) (fun _ => 1) path path :=
  InStep.ident.first fun first =>
    .iterate pathStep_endsWith pathStep_endsWith (fun segments => (pathStep_inStep segments).lower)
      [first]

theorem looks_opensTypeArgs : Looks (fun opens t => opens = true → t = .symbol .lt) opensTypeArgs := by
  intro c
  refine ⟨_, rfl, fun hopens => ?_⟩
  exact of_decide_eq_true (Bool.and_eq_true_iff.mp hopens).1

theorem typeArgs_inStep (hg : g.Agree depth g') :
    InStep start (depth + 1) (fun _ => 0) g.typeArgs g'.typeArgs :=
  looks_opensTypeArgs.ifSees
    ((InStep.advanceOver Token.noConfusion).bind fun _ =>
      (InStep.delimited Token.noConfusion (hg.type _)).uncounted)
    (.pure rfl)

theorem namedType_inStep (hg : g.Agree depth g') :
    InStep start (depth + 1) (fun _ => 1) g.namedType g'.namedType :=
  looks_here.keeps_token fun _ => path_inStep.first fun _ => looks_previous.keeps_token fun _ =>
    (typeArgs_inStep hg).lower.next fun _ => looks_previous.keeps_token fun _ => .pure rfl

theorem arrayType_inStep (hg : g.Agree depth g') :
    InStep notEnd (depth + 1) (fun _ => 1) g.arrayType g'.arrayType :=
  looks_here.keeps_token fun _ => InStep.advance.first fun _ => (hg.type _).next fun _ =>
    (InStep.expect Token.noConfusion).next fun _ => .pure rfl

theorem groupedType_inStep (hg : g.Agree depth g') :
    InStep notEnd (depth + 1) (fun _ => 1) g.groupedType g'.groupedType :=
  looks_here.keeps_token fun _ => InStep.advance.first fun _ => (looks_sees _).ifSees
    ((InStep.advanceOver Token.noConfusion).next fun _ => .pure rfl)
    ((hg.type _).next fun _ => (InStep.expect Token.noConfusion).next fun _ => .pure rfl)

theorem primaryType_inStep (hg : g.Agree depth g') :
    InStep start (depth + 1) (fun _ => 1) g.primaryType g'.primaryType := by
  refine looks_peek.sees_token fun token => ?_
  split
  · exact namedType_inStep hg
  · exact (InStep.advanceOver Token.noConfusion).first fun _ => .pure rfl
  · exact (arrayType_inStep hg).atToken Token.noConfusion
  · exact (groupedType_inStep hg).atToken Token.noConfusion
  · exact .failHere

theorem typeStep_endsWith (g : Grammar) (least : Nat) (left : TypeExpr) :
    EndsWith none (g.typeStep least left) :=
  endsWith_peek.bind (.pure none)

theorem typeStep_inStep (hg : g.Agree depth g') (least : Nat) (left : TypeExpr) :
    InStep start (depth + 1) (fun next => next.isSome.toNat) (g.typeStep least left)
      (g'.typeStep least left) := by
  refine looks_peek.sees_token fun token => ?_
  split
  · exact .pure rfl
  · next hop =>
    have htoken : token ≠ .eof := by
      rintro rfl
      cases hop
    exact .ite (.pure rfl) ((InStep.advanceOver htoken).bind fun _ => (hg.type _).next fun _ => .pure rfl)

theorem typeAt_inStep (hg : g.Agree depth g') (least : Nat) :
    InStep start (depth + 1) (fun _ => 1) (g.typeAt least) (g'.typeAt least) :=
  (primaryType_inStep hg).first fun first =>
    .iterate (typeStep_endsWith g least) (typeStep_endsWith g' least)
      (fun left => (typeStep_inStep hg least left).lower) first

theorem param_inStep (hg : g.Agree depth g') :
    InStep start (depth + 1) (fun _ => 1) g.param g'.param := by
  refine looks_here.keeps_token fun _ => InStep.first ?_ fun _ =>
    (InStep.optionally Token.noConfusion (hg.type _)).lower.next fun _ =>
      looks_previous.keeps_token fun _ => .pure rfl
  exact .ifEat Token.noConfusion (.pure rfl) .ident

theorem params_inStep (hg : g.Agree depth g') :
    InStep start (depth + 1) (fun _ => 1) g.params g'.params :=
  .delimited Token.noConfusion (param_inStep hg)

theorem signatureTail_inStep (hg : g.Agree depth g') :
    InStep start (depth + 1) (fun _ => 0) g.signatureTail g'.signatureTail :=
  (InStep.optionally Token.noConfusion (hg.type _)).next fun _ =>
    (InStep.optionally Token.noConfusion (hg.type _)).next fun _ => .pure rfl

/-! ### Expressions -/

theorem block_inStep (hg : g.Agree depth g') :
    InStep start (depth + 1) (fun _ => 1) g.block g'.block :=
  looks_here.keeps_token fun _ => (InStep.expect Token.noConfusion).first fun _ =>
    (InStep.withCondition (.many rfl hg.stmt)).next fun _ =>
      (InStep.expect Token.noConfusion).next fun _ => .pure rfl

theorem args_inStep (hg : g.Agree depth g') : InStep start depth (fun _ => 1) g.args g'.args :=
  .delimited Token.noConfusion (hg.expr _)

theorem objectField_inStep (hg : g.Agree depth g') :
    InStep start (depth + 1) (fun _ => 1) g.objectField g'.objectField := by
  refine looks_here.keeps_token fun _ => InStep.first ?_ fun _ =>
    (InStep.expect Token.noConfusion).next fun _ => (hg.expr _).next fun _ => .pure rfl
  refine looks_peek.sees_token fun token => ?_
  split
  · exact (InStep.advanceOver Token.noConfusion).first fun _ => .pure rfl
  · exact InStep.memberName.first fun _ => .pure rfl

theorem lambda_inStep (hg : g.Agree depth g') :
    InStep notEnd (depth + 1) (fun _ => 1) g.lambda g'.lambda :=
  looks_here.keeps_token fun _ => InStep.advance.first fun _ =>
    (InStep.expect Token.noConfusion).next fun _ => (params_inStep hg).lower.next fun _ =>
      (signatureTail_inStep hg).lower.next fun _ => (block_inStep hg).lower.next fun _ =>
        looks_previous.keeps_token fun _ => .pure rfl

theorem className_inStep : InStep start (depth + 1) (fun _ => 1) className className :=
  (looks_sees _).ifSees ((InStep.advanceOver Token.noConfusion).first fun _ => .pure rfl)
    (looks_here.keeps_token fun _ => path_inStep.first fun _ =>
      looks_previous.keeps_token fun _ => .pure rfl)

theorem instantiation_inStep (hg : g.Agree depth g') :
    InStep notEnd (depth + 1) (fun _ => 1) g.instantiation g'.instantiation := by
  refine looks_here.keeps_token fun _ => InStep.advance.first fun _ =>
    className_inStep.lower.next fun _ => InStep.next (m := fun _ => 0) ?_ fun _ =>
      looks_previous.keeps_token fun _ => .pure rfl
  refine InStep.lower ?_
  exact .ifEat Token.noConfusion (args_inStep hg).uncounted (.pure rfl)

theorem grouped_inStep (hg : g.Agree depth g') :
    InStep notEnd (depth + 1) (fun _ => 1) g.grouped g'.grouped :=
  InStep.advance.first fun _ => (InStep.withCondition (hg.expr _)).next fun _ =>
    (InStep.expect Token.noConfusion).next fun _ => .pure rfl

theorem arrayLiteral_inStep (hg : g.Agree depth g') :
    InStep notEnd (depth + 1) (fun _ => 1) g.arrayLiteral g'.arrayLiteral :=
  looks_here.keeps_token fun _ => InStep.advance.first fun _ =>
    (InStep.delimited Token.noConfusion (hg.expr _)).next fun _ =>
      looks_previous.keeps_token fun _ => .pure rfl

theorem objectLiteral_inStep (hg : g.Agree depth g') :
    InStep notEnd (depth + 1) (fun _ => 1) g.objectLiteral g'.objectLiteral :=
  looks_here.keeps_token fun _ => InStep.advance.first fun _ =>
    (InStep.delimited Token.noConfusion (objectField_inStep hg).lower).next fun _ =>
      looks_previous.keeps_token fun _ => .pure rfl

theorem atom_inStep (build : Span → Expr) :
    InStep notEnd (depth + 1) (fun _ => 1) (atom build) (atom build) :=
  InStep.advance.first fun _ => .pure rfl

theorem nameAtom_inStep (name : String) :
    InStep notEnd (depth + 1) (fun _ => 1) (nameAtom name) (nameAtom name) :=
  InStep.advance.first fun _ => .pure rfl

theorem primary_inStep (hg : g.Agree depth g') :
    InStep start (depth + 1) (fun _ => 1) g.primary g'.primary := by
  refine looks_peek.sees_token fun token => ?_
  split
  · exact (atom_inStep _).atToken Token.noConfusion
  · exact (atom_inStep _).atToken Token.noConfusion
  · exact (atom_inStep _).atToken Token.noConfusion
  · exact (nameAtom_inStep _).atToken Token.noConfusion
  · exact (nameAtom_inStep _).atToken Token.noConfusion
  · exact (nameAtom_inStep _).atToken Token.noConfusion
  · exact (grouped_inStep hg).atToken Token.noConfusion
  · exact (arrayLiteral_inStep hg).atToken Token.noConfusion
  · exact (objectLiteral_inStep hg).atToken Token.noConfusion
  · exact (lambda_inStep hg).atToken Token.noConfusion
  · exact (instantiation_inStep hg).atToken Token.noConfusion
  · exact .failHere

theorem trailingClosure_inStep (hg : g.Agree depth g') :
    InStep start (depth + 1) (fun _ => 0) g.trailingClosure g'.trailingClosure := by
  have hblock : InStep start (depth + 1) (fun _ => 0) (some <$> g.block) (some <$> g'.block) :=
    (block_inStep hg).map fun _ => Nat.zero_le _
  intro c hc hend hahead
  unfold trailingClosure
  split
  · exact hblock c hc hend hahead
  · exact ⟨rfl, [], .refl c, fun _ _ _ => Nat.zero_le _⟩

theorem postfixStep_endsWith (g : Grammar) (e : Expr) : EndsWith none (g.postfixStep e) :=
  endsWith_peek.bind (.pure none)

theorem postfixStep_inStep (hg : g.Agree depth g') (e : Expr) :
    InStep start (depth + 1) (fun next => next.isSome.toNat) (g.postfixStep e)
      (g'.postfixStep e) := by
  refine looks_peek.sees_token fun token => ?_
  split
  · exact (InStep.advanceOver Token.noConfusion).bind fun _ => (args_inStep hg).next fun _ =>
      (trailingClosure_inStep hg).lower.next fun _ => looks_previous.keeps_token fun _ => .pure rfl
  · exact (InStep.advanceOver Token.noConfusion).bind fun _ => InStep.memberName.next fun _ =>
      .pure rfl
  · exact (InStep.advanceOver Token.noConfusion).bind fun _ => InStep.memberName.next fun _ =>
      .pure rfl
  · exact (InStep.advanceOver Token.noConfusion).bind fun _ =>
      (InStep.withCondition (hg.expr _)).next fun _ =>
        (InStep.expect Token.noConfusion).next fun _ => .pure rfl
  · exact .pure rfl

theorem postfixChain_inStep (hg : g.Agree depth g') :
    InStep start (depth + 1) (fun _ => 1) g.postfixChain g'.postfixChain :=
  (primary_inStep hg).first fun first =>
    .iterate (postfixStep_endsWith g) (postfixStep_endsWith g')
      (fun e => (postfixStep_inStep hg e).lower) first

theorem operand_inStep (hg : g.Agree depth g') :
    InStep start (depth + 1) (fun _ => 1) g.operand g'.operand := by
  refine looks_peek.sees_token fun token => ?_
  split
  · next hop =>
    have htoken : token ≠ .eof := by
      rintro rfl
      cases hop
    exact looks_here.keeps_token fun _ => (InStep.advanceOver htoken).first fun _ =>
      hg.operand.next fun _ => .pure rfl
  · exact postfixChain_inStep hg

theorem typeOperand_inStep (hg : g.Agree depth g') :
    InStep start depth (fun _ => 1) g.typeOperand g'.typeOperand :=
  (InStep.eat Token.noConfusion).next fun _ =>
    (InStep.withTypeOperand (hg.type _)).bind fun _ => .pure rfl

theorem infixRest_inStep (hg : g.Agree depth g') (left : Expr) (op : InfixOp) :
    InStep start depth (fun _ => 1) (g.infixRest left op) (g'.infixRest left op) := by
  cases op with
  | typeTest => exact (typeOperand_inStep hg).bind fun _ => .pure rfl
  | cast => exact (typeOperand_inStep hg).bind fun _ => .pure rfl
  | assign => exact .ite ((hg.expr _).anywhere.bind fun _ => .pure rfl) .failAt
  | binary op => exact (hg.expr _).anywhere.bind fun _ => .pure rfl

theorem exprStep_endsWith (g : Grammar) (least : Nat) (left : Expr) :
    EndsWith none (g.exprStep least left) :=
  endsWith_peek.bind (.pure none)

theorem exprStep_inStep (hg : g.Agree depth g') (least : Nat) (left : Expr) :
    InStep start (depth + 1) (fun next => next.isSome.toNat) (g.exprStep least left)
      (g'.exprStep least left) := by
  refine looks_peek.sees_token fun token => ?_
  split
  · exact .pure rfl
  · next op hop =>
    have htoken : token ≠ .eof := by
      rintro rfl
      cases hop
    exact .ite (.pure rfl) ((InStep.advanceOver htoken).bind fun _ =>
      (infixRest_inStep hg left op).map fun _ => Nat.zero_le _)

theorem exprAt_inStep (hg : g.Agree depth g') (least : Nat) :
    InStep start (depth + 1) (fun _ => 1) (g.exprAt least) (g'.exprAt least) :=
  (operand_inStep hg).first fun first =>
    .iterate (exprStep_endsWith g least) (exprStep_endsWith g' least)
      (fun left => (exprStep_inStep hg least left).lower) first

/-! ### Statements -/

theorem namespaceDecl_inStep :
    InStep notEnd (depth + 1) (fun _ => 1) namespaceDecl namespaceDecl :=
  InStep.advance.first fun _ => (InStep.eat Token.noConfusion).next fun _ =>
    path_inStep.lower.next fun _ => (InStep.eat Token.noConfusion).next fun _ => .pure rfl

theorem usingDecl_inStep : InStep notEnd (depth + 1) (fun _ => 1) usingDecl usingDecl :=
  InStep.advance.first fun _ => (InStep.eat Token.noConfusion).next fun _ =>
    path_inStep.lower.next fun _ => .pure rfl

theorem foreignTarget_inStep (marker : Ident) :
    InStep start (depth + 1) (fun _ => 0) (foreignTarget marker) (foreignTarget marker) := by
  refine .ifEat Token.noConfusion (looks_peek.sees_token fun token => ?_) (.pure rfl)
  split
  · exact (InStep.advanceOver Token.noConfusion).next fun _ =>
      (InStep.expect Token.noConfusion).next fun _ => .pure rfl
  · exact .failHere

theorem foreignDecl_inStep (hg : g.Agree depth g') :
    InStep notEnd (depth + 1) (fun _ => 1) g.foreignDecl g'.foreignDecl := by
  refine InStep.advance.first fun _ => InStep.ident.next fun marker => .ite ?_ .failAt
  exact (foreignTarget_inStep marker).lower.next fun _ =>
    (InStep.expect Token.noConfusion).next fun _ => InStep.ident.next fun _ =>
      (InStep.expect Token.noConfusion).next fun _ => (params_inStep hg).lower.next fun _ =>
        (InStep.optionally Token.noConfusion (hg.type _)).lower.next fun _ => .pure rfl

theorem constructorMember_inStep (hg : g.Agree depth g') :
    InStep notEnd (depth + 1) (fun _ => 1) g.constructorMember g'.constructorMember :=
  looks_here.keeps_token fun _ => InStep.advance.first fun _ =>
    (InStep.expect Token.noConfusion).next fun _ => (params_inStep hg).lower.next fun _ =>
      (block_inStep hg).lower.next fun _ => looks_previous.keeps_token fun _ => .pure rfl

theorem methodBody_inStep (hg : g.Agree depth g') :
    InStep start (depth + 1) (fun _ => 0) g.methodBody g'.methodBody :=
  (looks_sees _).ifSees ((block_inStep hg).map fun _ => Nat.zero_le _)
    ((InStep.eat Token.noConfusion).next fun _ => .pure rfl)

theorem methodMember_inStep (hg : g.Agree depth g') (first : Span) :
    InStep start (depth + 1) (fun _ => 1) (g.methodMember first) (g'.methodMember first) :=
  InStep.ident.first fun _ => (InStep.expect Token.noConfusion).next fun _ =>
    (params_inStep hg).lower.next fun _ => (signatureTail_inStep hg).lower.next fun _ =>
      (methodBody_inStep hg).lower.next fun _ => looks_previous.keeps_token fun _ => .pure rfl

theorem fieldMember_inStep (hg : g.Agree depth g') :
    InStep start (depth + 1) (fun _ => 1) g.fieldMember g'.fieldMember := by
  refine looks_here.keeps_token fun _ => InStep.ident.first fun _ =>
    (InStep.optionally Token.noConfusion (hg.type _)).lower.next fun _ =>
      (InStep.optionally Token.noConfusion (hg.expr _)).lower.next fun init? =>
        InStep.next (m := fun _ => 0) ?_ fun _ => (InStep.eat Token.noConfusion).next fun _ =>
          looks_previous.keeps_token fun _ => .pure rfl
  exact .ite (InStep.eat Token.noConfusion).uncounted (.pure rfl)

theorem namedMember_inStep (hg : g.Agree depth g') :
    InStep notEnd (depth + 1) (fun _ => 1) g.namedMember g'.namedMember := by
  refine looks_peekNext.keeps_token fun next => ?_
  split
  · exact looks_here.keeps_token fun span => methodMember_inStep hg span
  · exact fieldMember_inStep hg
  · exact fieldMember_inStep hg
  · exact fieldMember_inStep hg
  · exact InStep.advance.first fun _ => .failHere

theorem member_inStep (hg : g.Agree depth g') :
    InStep start (depth + 1) (fun _ => 1) g.member g'.member := by
  refine looks_peek.sees_token fun token => ?_
  split
  · exact (constructorMember_inStep hg).atToken Token.noConfusion
  · exact (InStep.advanceOver Token.noConfusion).first fun keyword =>
      (methodMember_inStep hg keyword.span).lower.uncounted
  · exact (namedMember_inStep hg).atToken Token.noConfusion
  · exact .failHere

theorem implementsStep_endsWith (g : Grammar) (types : List TypeExpr) :
    EndsWith none (g.implementsStep types) :=
  (endsWith_eat Token.noConfusion).bind (.pure none)

theorem implementsStep_inStep (hg : g.Agree depth g') (types : List TypeExpr) :
    InStep start (depth + 1) (fun next => next.isSome.toNat) (g.implementsStep types)
      (g'.implementsStep types) :=
  .ifEat Token.noConfusion ((hg.type _).next fun _ => .pure rfl) (.pure rfl)

theorem implementsList_inStep (hg : g.Agree depth g') :
    InStep start (depth + 1) (fun _ => 0) g.implementsList g'.implementsList := by
  refine .ifEat Token.noConfusion ((hg.type _).next fun first => ?_) (.pure rfl)
  exact .iterate (implementsStep_endsWith g) (implementsStep_endsWith g')
    (fun types => (implementsStep_inStep hg types).lower) [first]

theorem classBody_inStep (hg : g.Agree depth g') (kind : ClassKind) :
    InStep notEnd (depth + 1) (fun _ => 1) (g.classBody kind) (g'.classBody kind) :=
  InStep.advance.first fun _ => InStep.ident.next fun _ =>
    (InStep.optionally Token.noConfusion (hg.type _)).lower.next fun _ =>
      (implementsList_inStep hg).lower.next fun _ => (InStep.expect Token.noConfusion).next fun _ =>
        (InStep.many rfl (member_inStep hg).lower).next fun _ =>
          (InStep.expect Token.noConfusion).next fun _ => .pure rfl

theorem condition_inStep (hg : g.Agree depth g') :
    InStep start depth (fun _ => 1) g.condition g'.condition :=
  .withCondition (hg.expr _).anywhere

theorem elseBranch_inStep (hg : g.Agree depth g') :
    InStep start (depth + 1) (fun _ => 0) g.elseBranch g'.elseBranch := by
  refine .ifEat Token.noConfusion ?_ (.pure rfl)
  refine (InStep.eat Token.noConfusion).next fun _ => .ite ?_ ?_
  · exact (condition_inStep hg).next fun _ => (block_inStep hg).lower.next fun _ =>
      hg.rest.next fun _ => .pure rfl
  · exact (block_inStep hg).lower.next fun _ => .pure rfl

theorem letStmt_inStep (hg : g.Agree depth g') :
    InStep notEnd (depth + 1) (fun _ => 1) g.letStmt g'.letStmt :=
  InStep.advance.first fun _ => InStep.ident.next fun _ =>
    (InStep.optionally Token.noConfusion (hg.type _)).lower.next fun _ =>
      (InStep.optionally Token.noConfusion (hg.expr _)).lower.next fun _ => .pure rfl

theorem functionStmt_inStep (hg : g.Agree depth g') :
    InStep notEnd (depth + 1) (fun _ => 1) g.functionStmt g'.functionStmt :=
  InStep.advance.first fun _ => InStep.ident.next fun _ =>
    (InStep.expect Token.noConfusion).next fun _ => (params_inStep hg).lower.next fun _ =>
      (signatureTail_inStep hg).lower.next fun _ => (block_inStep hg).lower.next fun _ => .pure rfl

theorem ifStmt_inStep (hg : g.Agree depth g') :
    InStep notEnd (depth + 1) (fun _ => 1) g.ifStmt g'.ifStmt :=
  InStep.advance.first fun _ => (condition_inStep hg).next fun _ =>
    (block_inStep hg).lower.next fun _ => (elseBranch_inStep hg).lower.next fun _ => .pure rfl

theorem loopStmt_inStep (hg : g.Agree depth g') (build : Span → Expr → Block → Stmt) :
    InStep notEnd (depth + 1) (fun _ => 1) (g.loopStmt build) (g'.loopStmt build) :=
  InStep.advance.first fun _ => (condition_inStep hg).next fun _ =>
    (block_inStep hg).lower.next fun _ => .pure rfl

theorem returnStmt_inStep (hg : g.Agree depth g') :
    InStep notEnd (depth + 1) (fun _ => 1) g.returnStmt g'.returnStmt :=
  InStep.advance.first fun _ => looks_peek.keeps_token fun _ =>
    .ite (.pure rfl) ((hg.expr _).next fun _ => .pure rfl)

theorem exprStmt_inStep (hg : g.Agree depth g') :
    InStep start (depth + 1) (fun _ => 1) g.exprStmt g'.exprStmt :=
  (exprAt_inStep hg _).first fun _ => .pure rfl

theorem looks_namedFunctionFollows : Looks (fun _ _ => True) namedFunctionFollows :=
  fun c => ⟨c.namedFunctionFollows, rfl, trivial⟩

theorem stmtBody_inStep (hg : g.Agree depth g') :
    InStep start (depth + 1) (fun _ => 1) g.stmtBody g'.stmtBody := by
  refine looks_peek.sees_token fun token => ?_
  split
  · exact (namespaceDecl_inStep.atToken Token.noConfusion).first fun _ => .pure rfl
  · exact (usingDecl_inStep.atToken Token.noConfusion).first fun _ => .pure rfl
  · exact ((foreignDecl_inStep hg).atToken Token.noConfusion).first fun _ => .pure rfl
  · exact (letStmt_inStep hg).atToken Token.noConfusion
  · exact (ifStmt_inStep hg).atToken Token.noConfusion
  · exact (loopStmt_inStep hg _).atToken Token.noConfusion
  · exact (loopStmt_inStep hg _).atToken Token.noConfusion
  · exact (returnStmt_inStep hg).atToken Token.noConfusion
  · exact (block_inStep hg).first fun _ => .pure rfl
  · exact looks_namedFunctionFollows.keeps_token fun _ =>
      .ite ((functionStmt_inStep hg).atToken Token.noConfusion) (exprStmt_inStep hg)
  · split
    · next hkind =>
      have htoken : token ≠ .eof := by
        rintro rfl
        cases hkind
      exact ((classBody_inStep hg _).atToken htoken).first fun _ => .pure rfl
    · exact exprStmt_inStep hg

theorem stmt_inStep (hg : g.Agree depth g') :
    InStep start (depth + 1) (fun _ => 1) g.stmt g'.stmt :=
  looks_here.keeps_token fun _ => (stmtBody_inStep hg).first fun _ =>
    (InStep.eat Token.noConfusion).next fun _ => looks_previous.keeps_token fun _ => .pure rfl

theorem program_inStep (hg : g.Agree depth g') :
    InStep start depth (fun _ => 0) g.program g'.program :=
  (InStep.many rfl hg.stmt).next fun _ => .pure rfl

/-! ### Levels -/

theorem Agree.deeper (hg : g.Agree depth g') : g.deeper.Agree (depth + 1) g'.deeper :=
  ⟨typeAt_inStep hg, exprAt_inStep hg, operand_inStep hg, elseBranch_inStep hg, stmt_inStep hg⟩

/-- The grammar that is `n` levels above the grammar `bottom`. -/
def above (bottom : Grammar) : Nat → Grammar
  | 0 => bottom
  | n + 1 => (bottom.above n).deeper

theorem level_eq_above (n : Nat) : level n = atEnd.above n := by
  induction n with
  | zero => rfl
  | succ n ih => exact congrArg Grammar.deeper ih

theorem above_above (bottom : Grammar) (m n : Nat) : (bottom.above m).above n = bottom.above (m + n) := by
  induction n with
  | zero => rfl
  | succ n ih => exact congrArg Grammar.deeper ih

/-- Whatever the grammars at the bottom are, they are not asked by `n` levels above them as long as
    less than `n` lexemes are ahead. -/
theorem agree_above (bottom bottom' : Grammar) (n : Nat) :
    (bottom.above n).Agree n (bottom'.above n) := by
  induction n with
  | zero =>
    exact ⟨fun _ _ _ _ h => absurd h (Nat.not_lt_zero _), fun _ _ _ _ h => absurd h (Nat.not_lt_zero _),
      fun _ _ _ h => absurd h (Nat.not_lt_zero _), fun _ _ _ h => absurd h (Nat.not_lt_zero _),
      fun _ _ _ h => absurd h (Nat.not_lt_zero _)⟩
  | succ n ih => exact ih.deeper

/-- All levels from `n` on agree where less than `n` lexemes are ahead. -/
theorem agree_level (bottom : Grammar) {m n : Nat} (h : n ≤ m) :
    (bottom.above m).Agree n (level n) := by
  have habove : bottom.above m = (bottom.above (m - n)).above n := by
    rw [above_above, Nat.sub_add_cancel h]
  rw [habove, level_eq_above]
  exact agree_above _ _ n

end Grammar

end ScriptCompiler
