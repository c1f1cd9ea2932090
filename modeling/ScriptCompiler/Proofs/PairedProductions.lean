import ScriptCompiler.Proofs.PairedRuns
import ScriptCompiler.Proofs.Productions

/-!
# Two runs of the grammar side by side

Every production does the same in two paired runs if the nested parts of its grammar do. Only the
last lexeme of a statement or of a member of a class can be the last semicolon: whatever holds such
a statement or member in brackets asks for a closing one behind it.
-/

namespace ScriptCompiler

open TokenParser

/-- The built statements stand at the places that belong to each other. -/
def Stmt.Builds (f : Span → Span) (build build' : Span → Stmt) : Prop :=
  ∀ span, build' (f span) = (build span).relocate f

/-- The nested parts of a grammar do the same in two runs. Only a statement may end with the last
    semicolon. -/
structure Grammar.Paired (P : Pairing) (g : Grammar) : Prop where
  agree : ∀ depth, g.Agree depth g
  type : ∀ {start : Token → Prop} {moved : Bool} (least : Nat),
    Carries P start moved (P.Aligned true) (Becomes (TypeExpr.relocate P.move))
      (g.nestedType least) (g.nestedType least)
  expr : ∀ {start : Token → Prop} {moved : Bool} (least : Nat),
    Carries P start moved (P.Aligned true) (Becomes (Expr.relocate P.move)) (g.nestedExpr least)
      (g.nestedExpr least)
  operand : ∀ {start : Token → Prop} {moved : Bool},
    Carries P start moved (P.Aligned true) (Becomes (Expr.relocate P.move)) g.nestedOperand
      g.nestedOperand
  rest : ∀ {start : Token → Prop},
    Carries P start true (P.Aligned true) (Becomes (ElseBranch.relocate P.move)) g.nestedElse
      g.nestedElse
  stmt : ∀ {start : Token → Prop} {moved : Bool},
    Carries P start moved P.Behind (Becomes (Stmt.relocate P.move)) g.nestedStmt g.nestedStmt

namespace Grammar

variable {P : Pairing} {g : Grammar} {start : Token → Prop} {moved : Bool}

/-! ### Types and parameters -/

theorem pathStep_carries (path : List Ident) :
    Carries P start true (P.Aligned true) (Becomes (Option.map (List.map (Ident.relocate P.move))))
      (pathStep path) (pathStep (path.map (Ident.relocate P.move))) := by
  refine .peek fun token => ?_
  by_cases htoken : token = .symbol .semi
  · -- A path ends before a semicolon, whatever the next token is.
    intro c c' hc haligned
    subst htoken
    exact .ok rfl haligned
  · refine Carries.atToken (Carries.peekNext fun next => ?_) htoken
    split
    · exact Carries.advance.next fun _ => Carries.ident.next fun segment =>
        .pure (by simp [Becomes])
    · exact .pure rfl

theorem path_carries :
    Carries P start moved (P.Aligned true) (Becomes (List.map (Ident.relocate P.move))) path path :=
  Carries.ident.next fun first =>
    .iterate pathStep_endsWith (fun _ _ => (pathStep_inStep _).lower) pathStep_carries [first]

/-- Where type arguments start, the first parser goes on with the `<` at the cursor. -/
theorem ifOpensTypeArgs {α β : Type} {B : Cursor → Cursor → Prop} {R : α → β → Prop}
    {p p' : TokenParser α} {q q' : TokenParser β}
    (hyes : Carries P (fun t => t = .symbol .lt) moved B R p q)
    (hno : Carries P start moved B R p' q') :
    Carries P start moved B R (opensTypeArgs >>= fun opens => if opens then p else p')
      (opensTypeArgs >>= fun opens => if opens then q else q') := by
  intro c c' hc haligned
  have hopens : (decide (c'.token = .symbol .lt) && (!c'.inTypeOperand || c'.typeArgsFollow)) =
      (decide (c.token = .symbol .lt) && (!c.inTypeOperand || c.typeArgsFollow)) := by
    rw [Pairing.token_eq haligned, P.inTypeOperand_eq haligned, P.typeArgsFollow_eq haligned]
  show Outcome P B R
    ((if decide (c.token = .symbol .lt) && (!c.inTypeOperand || c.typeArgsFollow) then p else p') c)
    ((if decide (c'.token = .symbol .lt) && (!c'.inTypeOperand || c'.typeArgsFollow) then q
      else q') c')
  rw [hopens]
  split
  · next h => exact hyes c c' (of_decide_eq_true (Bool.and_eq_true_iff.mp h).1) haligned
  · exact hno c c' hc haligned

theorem typeArgs_carries (hg : g.Paired P) :
    Carries P start true (P.Aligned true) (Becomes (List.map (TypeExpr.relocate P.move))) g.typeArgs
      g.typeArgs :=
  ifOpensTypeArgs
    ((Carries.advanceOver (by decide)).next fun _ =>
      .delimited (by decide) (fun depth => (hg.agree depth).type _) (hg.type _))
    (.pure rfl)

theorem namedType_carries (hg : g.Paired P) :
    Carries P start moved (P.Aligned true) (Becomes (TypeExpr.relocate P.move)) g.namedType
      g.namedType :=
  Carries.here fun first => path_carries.next fun segments => Carries.previous.next fun _ =>
    (typeArgs_carries hg).next fun args => Carries.previous.next fun _ =>
      .pure (by simp [Becomes, Ident.relocate, P.keeps.through])

theorem arrayType_carries (hg : g.Paired P) :
    Carries P notSemi moved (P.Aligned true) (Becomes (TypeExpr.relocate P.move)) g.arrayType
      g.arrayType :=
  Carries.here fun first => Carries.advance.next fun _ => (hg.type _).next fun element =>
    (Carries.expect (by decide)).next fun close => .pure (by simp [Becomes, P.keeps.through])

theorem groupedType_carries (hg : g.Paired P) :
    Carries P notSemi moved (P.Aligned true) (Becomes (TypeExpr.relocate P.move)) g.groupedType
      g.groupedType := by
  refine Carries.here fun first => Carries.advance.next fun _ =>
    .ifSees ((Carries.advanceOver (by decide)).next fun close => ?_)
      ((hg.type _).next fun inner => ?_)
  · exact .pure (by simp [Becomes, P.keeps.through])
  · exact (Carries.expect (by decide)).next fun _ => .pure rfl

theorem primaryType_carries (hg : g.Paired P) :
    Carries P start moved (P.Aligned true) (Becomes (TypeExpr.relocate P.move)) g.primaryType
      g.primaryType := by
  refine .peek fun token => ?_
  split
  · exact namedType_carries hg
  · exact (Carries.advanceOver (by decide)).next fun self =>
      .pure (by simp [Becomes, Ident.relocate])
  · exact (arrayType_carries hg).atToken (by decide)
  · exact (groupedType_carries hg).atToken (by decide)
  · exact .failHere

theorem typeStep_carries (hg : g.Paired P) (least : Nat) (left : TypeExpr) :
    Carries P start true (P.Aligned true) (Becomes (Option.map (TypeExpr.relocate P.move)))
      (g.typeStep least left) (g.typeStep least (left.relocate P.move)) := by
  refine .peek fun token => ?_
  split
  · exact .pure rfl
  · next hop =>
    have htoken : token ≠ .symbol .semi := by
      rintro rfl
      cases hop
    exact .ite (.pure rfl) ((Carries.advanceOver htoken).next fun _ => (hg.type _).next fun right =>
      .pure (by simp [Becomes, P.keeps.through]))

theorem typeAt_carries (hg : g.Paired P) (least : Nat) :
    Carries P start moved (P.Aligned true) (Becomes (TypeExpr.relocate P.move)) (g.typeAt least)
      (g.typeAt least) :=
  (primaryType_carries hg).next fun first => .iterate (typeStep_endsWith g least)
    (fun depth left => (typeStep_inStep (hg.agree depth) least left).lower)
    (typeStep_carries hg least) first

theorem param_carries (hg : g.Paired P) :
    Carries P start moved (P.Aligned true) (Becomes (Param.relocate P.move)) g.param g.param :=
  .here fun first => Carries.next (m := Ident.relocate P.move)
    (.ifEat (by decide) (.pure rfl) .ident) fun name =>
      (Carries.optionally (by decide) (hg.type _)).next fun type? => Carries.previous.next fun _ =>
        .pure (by simp [Becomes, Param.relocate, P.keeps.through])

theorem params_carries (hg : g.Paired P) :
    Carries P start true (P.Aligned true) (Becomes (List.map (Param.relocate P.move))) g.params
      g.params :=
  .delimited (by decide) (fun depth => (param_inStep (hg.agree depth)).lower) (param_carries hg)

/-- The types of a signature at other places. -/
def relocateSignature (f : Span → Span) (signature : Option TypeExpr × Option TypeExpr) :
    Option TypeExpr × Option TypeExpr :=
  (signature.1.map (TypeExpr.relocate f), signature.2.map (TypeExpr.relocate f))

theorem signatureTail_carries (hg : g.Paired P) :
    Carries P start true (P.Aligned true) (Becomes (relocateSignature P.move)) g.signatureTail
      g.signatureTail :=
  (Carries.optionally (by decide) (hg.type _)).next fun _ =>
    (Carries.optionally (by decide) (hg.type _)).next fun _ => .pure rfl

/-! ### Expressions -/

theorem block_carries (hg : g.Paired P) :
    Carries P start moved (P.Aligned true) (Becomes (Block.relocate P.move)) g.block g.block := by
  refine .here fun first => (Carries.expect (by decide)).next fun _ => ?_
  refine (Trails.many rfl (fun depth => (hg.agree depth).stmt) hg.stmt).withCondition.close
    (by decide) (by decide) fun stmts stmts' close hstmts => ?_
  obtain rfl : stmts' = stmts.map (Stmt.relocate P.move) := hstmts
  exact .pure (by simp [Becomes, P.keeps.through])

theorem args_carries (hg : g.Paired P) :
    Carries P start true (P.Aligned true) (Becomes (List.map (Expr.relocate P.move))) g.args
      g.args :=
  .delimited (by decide) (fun depth => (hg.agree depth).expr _) (hg.expr _)

theorem objectField_carries (hg : g.Paired P) :
    Carries P start moved (P.Aligned true) (Becomes (ObjectField.relocate P.move)) g.objectField
      g.objectField := by
  refine .here fun first => Carries.same (?_ : Carries P start moved (P.Aligned true) Eq _ _)
    fun key => (Carries.expect (by decide)).next fun _ => (hg.expr _).next fun value =>
      .pure (by simp [Becomes, ObjectField.relocate, P.keeps.through])
  refine .peek fun token => ?_
  split
  · exact (Carries.advanceOver Token.noConfusion).next fun _ => .pure rfl
  · exact Carries.memberName.next fun _ => .pure rfl

theorem lambda_carries (hg : g.Paired P) :
    Carries P notSemi moved (P.Aligned true) (Becomes (Expr.relocate P.move)) g.lambda g.lambda :=
  Carries.here fun first => Carries.advance.next fun _ => (Carries.expect (by decide)).next fun _ =>
    (params_carries hg).next fun params => (signatureTail_carries hg).next fun _ =>
      (block_carries hg).next fun body => Carries.previous.next fun _ =>
        .pure (by simp [Becomes, P.keeps.through])

theorem className_carries :
    Carries P start moved (P.Aligned true) (Becomes (Ident.relocate P.move)) className className :=
  .ifSees ((Carries.advanceOver (by decide)).next fun _ => .pure rfl)
    (.here fun first => path_carries.next fun segments => Carries.previous.next fun _ =>
      .pure (by simp [Becomes, Ident.relocate, P.keeps.through]))

theorem instantiation_carries (hg : g.Paired P) :
    Carries P notSemi moved (P.Aligned true) (Becomes (Expr.relocate P.move)) g.instantiation
      g.instantiation :=
  Carries.here fun first => Carries.advance.next fun _ => className_carries.next fun name =>
    Carries.next (m := List.map (Expr.relocate P.move))
      (.ifEat (by decide) (args_carries hg) (.pure rfl)) fun args => Carries.previous.next fun _ =>
        .pure (by simp [Becomes, P.keeps.through])

theorem grouped_carries (hg : g.Paired P) :
    Carries P notSemi moved (P.Aligned true) (Becomes (Expr.relocate P.move)) g.grouped g.grouped :=
  Carries.advance.next fun _ => (Carries.withCondition (hg.expr _)).next fun _ =>
    (Carries.expect (by decide)).next fun _ => .pure rfl

theorem arrayLiteral_carries (hg : g.Paired P) :
    Carries P notSemi moved (P.Aligned true) (Becomes (Expr.relocate P.move)) g.arrayLiteral
      g.arrayLiteral :=
  Carries.here fun first => Carries.advance.next fun _ =>
    Carries.next (.delimited (by decide) (fun depth => (hg.agree depth).expr _) (hg.expr _))
      fun elements => Carries.previous.next fun _ => .pure (by simp [Becomes, P.keeps.through])

theorem objectLiteral_carries (hg : g.Paired P) :
    Carries P notSemi moved (P.Aligned true) (Becomes (Expr.relocate P.move)) g.objectLiteral
      g.objectLiteral :=
  Carries.here fun first => Carries.advance.next fun _ =>
    Carries.next (.delimited (by decide)
      (fun depth => (objectField_inStep (hg.agree depth)).lower) (objectField_carries hg))
      fun fields => Carries.previous.next fun _ => .pure (by simp [Becomes, P.keeps.through])

theorem atom_carries {build : Span → Expr}
    (hbuild : ∀ span, build (P.move span) = (build span).relocate P.move) :
    Carries P notSemi moved (P.Aligned true) (Becomes (Expr.relocate P.move)) (atom build)
      (atom build) :=
  Carries.advance.next fun lexeme => .pure (hbuild lexeme.span)

theorem nameAtom_carries (name : String) :
    Carries P notSemi moved (P.Aligned true) (Becomes (Expr.relocate P.move)) (nameAtom name)
      (nameAtom name) :=
  Carries.advance.next fun _ => .pure rfl

theorem primary_carries (hg : g.Paired P) :
    Carries P start moved (P.Aligned true) (Becomes (Expr.relocate P.move)) g.primary
      g.primary := by
  refine .peek fun token => ?_
  split
  · exact (atom_carries fun _ => rfl).atToken Token.noConfusion
  · exact (atom_carries fun _ => rfl).atToken Token.noConfusion
  · exact (atom_carries fun _ => rfl).atToken Token.noConfusion
  · exact (nameAtom_carries _).atToken Token.noConfusion
  · exact (nameAtom_carries _).atToken Token.noConfusion
  · exact (nameAtom_carries _).atToken Token.noConfusion
  · exact (grouped_carries hg).atToken (by decide)
  · exact (arrayLiteral_carries hg).atToken (by decide)
  · exact (objectLiteral_carries hg).atToken (by decide)
  · exact (lambda_carries hg).atToken Token.noConfusion
  · exact (instantiation_carries hg).atToken Token.noConfusion
  · exact .failHere

theorem trailingClosure_carries (hg : g.Paired P) :
    Carries P start true (P.Aligned true) (Becomes (Option.map (Block.relocate P.move)))
      g.trailingClosure g.trailingClosure := by
  have hblock : Carries P start true (P.Aligned true) (Becomes (Option.map (Block.relocate P.move)))
      (some <$> g.block) (some <$> g.block) :=
    (block_carries hg).map fun _ _ h => congrArg some h
  intro c c' hc haligned
  unfold trailingClosure
  rw [Pairing.token_eq haligned, P.inCondition_eq haligned]
  split
  · exact hblock c c' hc haligned
  · exact .ok rfl haligned

theorem postfixStep_carries (hg : g.Paired P) (e : Expr) :
    Carries P start true (P.Aligned true) (Becomes (Option.map (Expr.relocate P.move)))
      (g.postfixStep e) (g.postfixStep (e.relocate P.move)) := by
  refine .peek fun token => ?_
  split
  · exact (Carries.advanceOver (by decide)).next fun _ => (args_carries hg).next fun args =>
      (trailingClosure_carries hg).next fun closure? => Carries.previous.next fun _ =>
        .pure (by simp [Becomes, P.keeps.through])
  · exact (Carries.advanceOver (by decide)).next fun _ => Carries.memberName.next fun member =>
      .pure (by simp [Becomes, P.keeps.through])
  · exact (Carries.advanceOver (by decide)).next fun _ => Carries.memberName.next fun member =>
      .pure (by simp [Becomes, P.keeps.through])
  · exact (Carries.advanceOver (by decide)).next fun _ =>
      (Carries.withCondition (hg.expr _)).next fun position =>
        (Carries.expect (by decide)).next fun close => .pure (by simp [Becomes, P.keeps.through])
  · exact .pure rfl

theorem postfixChain_carries (hg : g.Paired P) :
    Carries P start moved (P.Aligned true) (Becomes (Expr.relocate P.move)) g.postfixChain
      g.postfixChain :=
  (primary_carries hg).next fun first => .iterate (postfixStep_endsWith g)
    (fun depth e => (postfixStep_inStep (hg.agree depth) e).lower) (postfixStep_carries hg) first

theorem operand_carries (hg : g.Paired P) :
    Carries P start moved (P.Aligned true) (Becomes (Expr.relocate P.move)) g.operand
      g.operand := by
  refine .peek fun token => ?_
  split
  · next hop =>
    have htoken : token ≠ .symbol .semi := by
      rintro rfl
      cases hop
    exact .here fun first => (Carries.advanceOver htoken).next fun _ => hg.operand.next fun inner =>
      .pure (by simp [Becomes, P.keeps.through])
  · exact postfixChain_carries hg

theorem typeOperand_carries (hg : g.Paired P) :
    Carries P start moved (P.Aligned true) (Becomes (Prod.map id (TypeExpr.relocate P.move)))
      g.typeOperand g.typeOperand :=
  (Carries.eat (by decide)).same fun _ => (Carries.withTypeOperand (hg.type _)).next fun _ =>
    .pure rfl

theorem infixRest_carries (hg : g.Paired P) (left : Expr) (op : InfixOp) :
    Carries P start moved (P.Aligned true) (Becomes (Expr.relocate P.move)) (g.infixRest left op)
      (g.infixRest (left.relocate P.move) op) := by
  cases op with
  | typeTest =>
    exact (typeOperand_carries hg).next fun operand => .pure (by simp [Becomes, P.keeps.through])
  | cast =>
    exact (typeOperand_carries hg).next fun operand => .pure (by simp [Becomes, P.keeps.through])
  | assign =>
    unfold infixRest
    rw [left.isAssignable_relocate P.move, left.span_relocate P.move]
    exact .ite ((hg.expr _).next fun right => .pure (by simp [Becomes, P.keeps.through])) .failAt
  | binary op => exact (hg.expr _).next fun right => .pure (by simp [Becomes, P.keeps.through])

theorem exprStep_carries (hg : g.Paired P) (least : Nat) (left : Expr) :
    Carries P start true (P.Aligned true) (Becomes (Option.map (Expr.relocate P.move)))
      (g.exprStep least left) (g.exprStep least (left.relocate P.move)) := by
  refine .peek fun token => ?_
  split
  · exact .pure rfl
  · next op hop =>
    have htoken : token ≠ .symbol .semi := by
      rintro rfl
      cases hop
    exact .ite (.pure rfl) ((Carries.advanceOver htoken).next fun _ =>
      (infixRest_carries hg left op).map fun _ _ h => congrArg some h)

theorem exprAt_carries (hg : g.Paired P) (least : Nat) :
    Carries P start moved (P.Aligned true) (Becomes (Expr.relocate P.move)) (g.exprAt least)
      (g.exprAt least) :=
  (operand_carries hg).next fun first => .iterate (exprStep_endsWith g least)
    (fun depth left => (exprStep_inStep (hg.agree depth) least left).lower)
    (exprStep_carries hg least) first

/-! ### Statements -/

theorem namespaceDecl_carries :
    Carries P notSemi moved (P.Aligned true) (Becomes (NamespaceDecl.relocate P.move)) namespaceDecl
      namespaceDecl :=
  Carries.advance.next fun _ => (Carries.eat (by decide)).same fun _ => path_carries.next fun _ =>
    (Carries.eat (by decide)).same fun _ => .pure rfl

theorem usingDecl_carries :
    Carries P notSemi moved (P.Aligned true) (Becomes (UsingDecl.relocate P.move)) usingDecl
      usingDecl :=
  Carries.advance.next fun _ => (Carries.eat (by decide)).same fun _ => path_carries.next fun _ =>
    .pure rfl

theorem foreignTarget_carries (marker : Ident) :
    Carries P start true (P.Aligned true) Eq (foreignTarget marker)
      (foreignTarget (marker.relocate P.move)) := by
  refine .ifEat (by decide) (.peek fun token => ?_) (.pure rfl)
  split
  · exact (Carries.advanceOver Token.noConfusion).next fun _ =>
      (Carries.expect (by decide)).next fun _ => .pure rfl
  · exact .failHere

theorem foreignDecl_carries (hg : g.Paired P) :
    Carries P notSemi moved (P.Aligned true) (Becomes (ForeignDecl.relocate P.move)) g.foreignDecl
      g.foreignDecl := by
  refine Carries.advance.next fun _ => Carries.ident.next fun marker => .ite ?_ .failAt
  refine (foreignTarget_carries marker).bind fun target? _ h => ?_
  subst h
  exact (Carries.expect (by decide)).next fun _ => Carries.ident.next fun name =>
    (Carries.expect (by decide)).next fun _ => (params_carries hg).next fun params =>
      (Carries.optionally (by decide) (hg.type _)).next fun _ => .pure rfl

theorem constructorMember_carries (hg : g.Paired P) :
    Carries P notSemi moved (P.Aligned true) (Becomes (Member.relocate P.move)) g.constructorMember
      g.constructorMember :=
  Carries.here fun first => Carries.advance.next fun _ => (Carries.expect (by decide)).next fun _ =>
    (params_carries hg).next fun params => (block_carries hg).next fun body =>
      Carries.previous.next fun _ => .pure (by simp [Becomes, P.keeps.through])

theorem methodBody_carries (hg : g.Paired P) :
    Carries P start true P.Behind (Becomes (Option.map (Block.relocate P.move))) g.methodBody
      g.methodBody :=
  .ifSees (.behind ((block_carries hg).map fun _ _ h => congrArg some h))
    (Carries.eatSemi.result fun _ _ _ => rfl)

theorem methodMember_carries (hg : g.Paired P) (first : Span) :
    Carries P start moved P.Behind (Becomes (Member.relocate P.move)) (g.methodMember first)
      (g.methodMember (P.move first)) :=
  Carries.ident.next fun name => (Carries.expect (by decide)).next fun _ =>
    (params_carries hg).next fun params => (signatureTail_carries hg).next fun signature =>
      (methodBody_carries hg).placed fun body? body?' _ hbody => by
        obtain rfl : body?' = body?.map (Block.relocate P.move) := hbody
        simp [Becomes, P.keeps.through]

theorem fieldMember_carries (hg : g.Paired P) :
    Carries P start moved P.Behind (Becomes (Member.relocate P.move)) g.fieldMember
      g.fieldMember := by
  refine .here fun first => Carries.ident.next fun name =>
    (Carries.optionally (by decide) (hg.type _)).next fun type? =>
      (Carries.optionally (by decide) (hg.expr _)).next fun init? =>
        Carries.bind (R := Eq) (?_ : Carries P anyToken true (P.Aligned true) Eq _ _)
          fun isDefault _ h => ?_
  · rw [Option.isNone_map]
    exact .ite (.eat (by decide)) (.pure rfl)
  · subst h
    exact Carries.eatSemi.placed fun _ _ _ _ => by simp [Becomes, P.keeps.through]

theorem namedMember_carries (hg : g.Paired P) :
    Carries P notSemi moved P.Behind (Becomes (Member.relocate P.move)) g.namedMember
      g.namedMember := by
  refine .peekNext fun next => ?_
  split
  · exact .here fun first => methodMember_carries hg first
  · exact fieldMember_carries hg
  · exact fieldMember_carries hg
  · exact fieldMember_carries hg
  · exact Carries.advance.next fun _ => .failHere

theorem member_carries (hg : g.Paired P) :
    Carries P start moved P.Behind (Becomes (Member.relocate P.move)) g.member g.member := by
  refine .peek fun token => ?_
  split
  · exact ((constructorMember_carries hg).atToken Token.noConfusion).behind
  · exact (Carries.advanceOver Token.noConfusion).next fun keyword =>
      methodMember_carries hg keyword.span
  · exact (namedMember_carries hg).atToken Token.noConfusion
  · exact .failHere

theorem implementsStep_carries (hg : g.Paired P) (types : List TypeExpr) :
    Carries P start true (P.Aligned true)
      (Becomes (Option.map (List.map (TypeExpr.relocate P.move)))) (g.implementsStep types)
      (g.implementsStep (types.map (TypeExpr.relocate P.move))) :=
  .ifEat (by decide) ((hg.type _).next fun type => .pure (by simp [Becomes])) (.pure rfl)

theorem implementsList_carries (hg : g.Paired P) :
    Carries P start true (P.Aligned true) (Becomes (List.map (TypeExpr.relocate P.move)))
      g.implementsList g.implementsList :=
  .ifEat (by decide)
    ((hg.type _).next fun first => .iterate (implementsStep_endsWith g)
      (fun depth types => (implementsStep_inStep (hg.agree depth) types).lower)
      (implementsStep_carries hg) [first])
    (.pure rfl)

theorem classBody_carries (hg : g.Paired P) (kind : ClassKind) :
    Carries P notSemi moved (P.Aligned true) (Becomes (ClassDecl.relocate P.move))
      (g.classBody kind) (g.classBody kind) := by
  refine Carries.advance.next fun _ => Carries.ident.next fun name =>
    (Carries.optionally (by decide) (hg.type _)).next fun extends? =>
      (implementsList_carries hg).next fun implements =>
        (Carries.expect (by decide)).next fun _ => ?_
  refine (Trails.many rfl (fun depth => (member_inStep (hg.agree depth)).lower)
    (member_carries hg)).close (by decide) (by decide) fun members members' _ hmembers => ?_
  obtain rfl : members' = members.map (Member.relocate P.move) := hmembers
  exact .pure (by simp [Becomes])

theorem condition_carries (hg : g.Paired P) :
    Carries P start moved (P.Aligned true) (Becomes (Expr.relocate P.move)) g.condition
      g.condition :=
  .withCondition (hg.expr _)

theorem elseBranch_carries (hg : g.Paired P) :
    Carries P start true (P.Aligned true) (Becomes (ElseBranch.relocate P.move)) g.elseBranch
      g.elseBranch := by
  refine .ifEat (by decide) (.ifEat (by decide) ?_ ?_) (.pure rfl)
  · exact (condition_carries hg).next fun _ => (block_carries hg).next fun _ =>
      hg.rest.next fun _ => .pure rfl
  · exact (block_carries hg).next fun _ => .pure rfl

theorem letStmt_carries (hg : g.Paired P) :
    Carries P notSemi moved (P.Aligned true) (Stmt.Builds P.move) g.letStmt g.letStmt :=
  Carries.advance.next fun _ => Carries.ident.next fun name =>
    (Carries.optionally (by decide) (hg.type _)).next fun type? =>
      (Carries.optionally (by decide) (hg.expr _)).next fun init? => .pure fun span => by simp

theorem functionStmt_carries (hg : g.Paired P) :
    Carries P notSemi moved (P.Aligned true) (Stmt.Builds P.move) g.functionStmt g.functionStmt :=
  Carries.advance.next fun _ => Carries.ident.next fun _ =>
    (Carries.expect (by decide)).next fun _ => (params_carries hg).next fun _ =>
      (signatureTail_carries hg).next fun _ => (block_carries hg).next fun _ =>
        .pure fun _ => rfl

theorem ifStmt_carries (hg : g.Paired P) :
    Carries P notSemi moved (P.Aligned true) (Stmt.Builds P.move) g.ifStmt g.ifStmt :=
  Carries.advance.next fun _ => (condition_carries hg).next fun _ =>
    (block_carries hg).next fun _ => (elseBranch_carries hg).next fun _ => .pure fun _ => rfl

theorem loopStmt_carries (hg : g.Paired P) {build : Span → Expr → Block → Stmt}
    (hbuild : ∀ span condition body,
      build (P.move span) (condition.relocate P.move) (body.relocate P.move) =
        (build span condition body).relocate P.move) :
    Carries P notSemi moved (P.Aligned true) (Stmt.Builds P.move) (g.loopStmt build)
      (g.loopStmt build) :=
  Carries.advance.next fun _ => (condition_carries hg).next fun condition =>
    (block_carries hg).next fun body => .pure fun span => hbuild span condition body

theorem returnStmt_carries (hg : g.Paired P) :
    Carries P notSemi moved (P.Aligned true) (Stmt.Builds P.move) g.returnStmt g.returnStmt :=
  Carries.advance.next fun _ => .peek fun _ =>
    .ite (.pure fun _ => rfl) ((hg.expr _).next fun _ => .pure fun _ => rfl)

theorem exprStmt_carries (hg : g.Paired P) :
    Carries P start moved (P.Aligned true) (Stmt.Builds P.move) g.exprStmt g.exprStmt :=
  (exprAt_carries hg _).next fun _ => .pure fun _ => rfl

theorem functionOrExpr_carries (hg : g.Paired P) :
    Carries P notSemi moved (P.Aligned true) (Stmt.Builds P.move)
      (namedFunctionFollows >>= fun follows => if follows then g.functionStmt else g.exprStmt)
      (namedFunctionFollows >>= fun follows => if follows then g.functionStmt else g.exprStmt) := by
  intro c c' hc haligned
  show Outcome P _ _ ((if c.namedFunctionFollows then g.functionStmt else g.exprStmt) c)
    ((if c'.namedFunctionFollows then g.functionStmt else g.exprStmt) c')
  rw [P.namedFunctionFollows_eq haligned hc]
  exact Carries.ite (functionStmt_carries hg) (exprStmt_carries hg) c c' hc haligned

theorem stmtBody_carries (hg : g.Paired P) :
    Carries P start moved (P.Aligned true) (Stmt.Builds P.move) g.stmtBody g.stmtBody := by
  refine .peek fun token => ?_
  split
  · exact (namespaceDecl_carries.atToken Token.noConfusion).next fun _ => .pure fun _ => rfl
  · exact (usingDecl_carries.atToken Token.noConfusion).next fun _ => .pure fun _ => rfl
  · exact ((foreignDecl_carries hg).atToken (by decide)).next fun _ => .pure fun _ => rfl
  · exact (letStmt_carries hg).atToken Token.noConfusion
  · exact (ifStmt_carries hg).atToken Token.noConfusion
  · exact (loopStmt_carries hg fun _ _ _ => rfl).atToken Token.noConfusion
  · exact (loopStmt_carries hg fun _ _ _ => rfl).atToken Token.noConfusion
  · exact (returnStmt_carries hg).atToken Token.noConfusion
  · exact (block_carries hg).next fun _ => .pure fun _ => rfl
  · exact (functionOrExpr_carries hg).atToken Token.noConfusion
  · split
    · next hkind =>
      have htoken : token ≠ .symbol .semi := by
        rintro rfl
        cases hkind
      exact ((classBody_carries hg _).atToken htoken).next fun _ => .pure fun _ => rfl
    · exact exprStmt_carries hg

theorem stmt_carries (hg : g.Paired P) :
    Carries P start moved P.Behind (Becomes (Stmt.relocate P.move)) g.stmt g.stmt := by
  refine .here fun first => (stmtBody_carries hg).bind fun build build' hbuild =>
    Carries.eatSemi.placed fun _ _ last _ => ?_
  show build' ((P.move first).through (P.move last)) = _
  rw [← P.keeps.through, hbuild]

/-- Where the first run cannot be over, the whole program is read in the same way. -/
theorem program_carries (hover : ∀ c, ¬ P.Over c) (hg : g.Paired P) :
    Carries P start moved (P.Aligned false) (Becomes (Program.relocate P.move)) g.program
      g.program :=
  ((Trails.many rfl (fun depth => (hg.agree depth).stmt) hg.stmt).carries hover).next fun _ =>
    .pure rfl

/-! ### Levels -/

theorem agree_self (n depth : Nat) : (level n).Agree depth (level n) := by
  induction n generalizing depth with
  | zero => exact ⟨fun _ => .failHere, fun _ => .failHere, .failHere, .pure rfl, .failHere⟩
  | succ n ih =>
    cases depth with
    | zero => exact agree_above _ _ 0
    | succ depth => exact (ih depth).deeper

/-- A grammar that may nest more deeply reads the same program. -/
theorem program_level {c : Cursor} {m n : Nat} (hend : c.EndsAhead) (hm : c.ahead < m)
    (hmn : m ≤ n) : (level m).program c = (level n).program c := by
  have hagree : (level n).Agree m (level m) := level_eq_above n ▸ agree_level atEnd hmn
  have hstep : InStep anyToken m _ (level n).program (level m).program := program_inStep hagree
  exact (hstep c trivial hend hm).1.symm

theorem paired_atEnd : atEnd.Paired P where
  agree := agree_self 0
  type _ := .failHere
  expr _ := .failHere
  operand := .failHere
  rest := .pure rfl
  stmt := .failHere

theorem Paired.deeper (hg : g.Paired P) (hagree : ∀ depth, g.deeper.Agree depth g.deeper) :
    g.deeper.Paired P where
  agree := hagree
  type := typeAt_carries hg
  expr := exprAt_carries hg
  operand := operand_carries hg
  rest := elseBranch_carries hg
  stmt := stmt_carries hg

theorem paired_level (n : Nat) : (level n).Paired P := by
  induction n with
  | zero => exact paired_atEnd
  | succ n ih => exact ih.deeper (agree_self (n + 1))

end Grammar

end ScriptCompiler
