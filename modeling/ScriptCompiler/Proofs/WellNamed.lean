import ScriptCompiler.Grammar.Program
import ScriptCompiler.Proofs.Occurrence
import ScriptCompiler.Proofs.Spelling

/-!
# The names of parsed programs

The names that a parsed program declares and refers to are identifiers; a reference may also be
`self` or `Self`. Numbers are numerals, and statements and members start on a line of their source.
No declaration has a unique name yet. Each production of the grammar keeps this if its nested parts
keep it.
-/

namespace ScriptCompiler

open TokenParser

/-- The name of a reference: an identifier, `self` or `Self`. -/
def IsReference (name : String) : Prop :=
  IsIdentifier name ∨ name = "self" ∨ name = "Self"

/-- A path of identifiers. -/
structure IsPath (path : List Ident) : Prop where
  nonempty : path ≠ []
  segments : ∀ segment ∈ path, IsIdentifier segment.name

/-- The names of parameters are identifiers or `self`. -/
def ParamsNamed (params : List Param) : Prop :=
  ∀ param ∈ params, IsReference param.name.name

/-- The text is a path of identifiers joined by `::`. -/
def IsPathName (name : String) : Prop :=
  ∃ path, IsPath path ∧ name = joinPath path

/-- The parameters that the body of a statement sees. -/
def Stmt.params : Stmt → List Param
  | .function _ _ params .. => params
  | _ => []

/-- The path of a namespace declaration or an import. -/
def Stmt.path? : Stmt → Option (List Ident)
  | .namespaceDecl _ decl => some decl.path
  | .usingDecl _ decl => some decl.path
  | _ => none

/-- A statement starts on a line of its source and declares identifiers; its path, if it has one,
    consists of identifiers. -/
structure Stmt.WellNamed (s : Stmt) : Prop where
  line : 1 ≤ s.span.line
  declared : ∀ {kind : EntryKind} {ident : Ident}, s.declared? = some (kind, ident) →
    IsIdentifier ident.name
  params : ParamsNamed s.params
  path : ∀ path ∈ s.path?, IsPath path

def Member.span : Member → Span
  | .constructor span .. | .method span .. | .field span .. => span

/-- The parameters that the body of a member sees. -/
def Member.params : Member → List Param
  | .constructor _ params _ | .method _ _ params .. => params
  | .field .. => []

/-- What a part itself holds is spelled as it should be. -/
def Node.WellNamed : Node → Prop
  | .type (.named _ ident args) => IsPathName ident.name ∨ ident.name = "Self" ∧ args = []
  | .expr (.number _ digits) => IsNumeral digits
  | .expr (.name _ ident) => IsReference ident.name
  | .expr (.assign _ target _) => target.isAssignable
  | .expr (.field _ _ ident) => IsMemberName ident.name
  | .expr (.staticMember _ _ ident) => IsMemberName ident.name
  | .expr (.lambda _ params _) => ParamsNamed params
  | .expr (.new _ ident _) => IsPathName ident.name ∨ ident.name = "Self"
  | .stmt s => s.WellNamed
  | .member m => 1 ≤ m.span.line ∧ ParamsNamed m.params
  | _ => True

abbrev Node.Named (n : Node) : Prop :=
  n.Every WellNamed

/-- The unique name that a declaration carries. -/
def Stmt.uniqueName? : Stmt → Option String
  | .foreignDecl _ decl => decl.uniqueName?
  | .letDecl _ _ _ _ unique? => unique?
  | .function _ _ _ _ _ _ unique? => unique?
  | .classDecl _ decl => decl.uniqueName?
  | _ => none

/-- A parsed statement is well named and carries no unique name. -/
structure Stmt.AsParsed (s : Stmt) : Prop extends s.WellNamed where
  unmarked : s.uniqueName? = none

/-- A well named part as the grammar builds it. -/
def Node.AsParsed : Node → Prop
  | .stmt s => s.AsParsed
  | .member m => (Node.member m).WellNamed ∧ ∀ name ∈ m.name?, IsIdentifier name
  | n => n.WellNamed

theorem Node.AsParsed.wellNamed {n : Node} (h : n.AsParsed) : n.WellNamed := by
  cases n with
  | stmt s => exact Stmt.AsParsed.toWellNamed h
  | member m => exact And.left h
  | _ => exact h

/-- Every part of a part is as the grammar builds it. -/
abbrev Node.Parsed (n : Node) : Prop :=
  n.Every AsParsed

/-- The nested parts of the grammar are built so. -/
structure Grammar.Sound (g : Grammar) : Prop where
  type : ∀ least, Yields (g.nestedType least) fun t => (Node.type t).Parsed
  expr : ∀ least, Yields (g.nestedExpr least) fun e => (Node.expr e).Parsed
  operand : Yields g.nestedOperand fun e => (Node.expr e).Parsed
  rest : Yields g.nestedElse fun b => (Node.elseBranch b).Parsed
  stmt : Yields g.nestedStmt fun s => (Node.stmt s).Parsed

theorem paramsNamed_nil : ParamsNamed [] :=
  fun _ hparam => absurd hparam List.not_mem_nil

/-- A statement that declares nothing carries no unique name. -/
theorem Stmt.uniqueName?_eq_none {s : Stmt} (h : s.declared? = none) : s.uniqueName? = none := by
  cases s with
  | foreignDecl | letDecl | function | classDecl => cases h
  | _ => rfl

/-- A statement that declares nothing and has neither parameters nor a path is well named. -/
theorem Stmt.asParsed_of_none {s : Stmt} (hline : 1 ≤ s.span.line) (hdeclared : s.declared? = none)
    (hparams : s.params = []) (hpath : s.path? = none) : s.AsParsed where
  line := hline
  declared h := absurd (hdeclared.symm.trans h) nofun
  params := hparams ▸ paramsNamed_nil
  path _ h := absurd (hpath ▸ h) (Option.not_mem_none _)
  unmarked := uniqueName?_eq_none hdeclared

/-- A statement that declares an identifier has no path. -/
theorem Stmt.asParsed_of_some {s : Stmt} {kind : EntryKind} {name : Ident}
    (hline : 1 ≤ s.span.line) (hdeclared : s.declared? = some (kind, name))
    (hname : IsIdentifier name.name) (hparams : ParamsNamed s.params) (hpath : s.path? = none)
    (hunmarked : s.uniqueName? = none) : s.AsParsed where
  line := hline
  declared h := by
    obtain ⟨_, rfl⟩ := Prod.mk.inj (Option.some.inj (hdeclared.symm.trans h))
    exact hname
  params := hparams
  path _ h := absurd (hpath ▸ h) (Option.not_mem_none _)
  unmarked := hunmarked

theorem Stmt.asParsed_of_path {s : Stmt} {path : List Ident} (hline : 1 ≤ s.span.line)
    (hpath : s.path? = some path) (hnames : IsPath path) (hdeclared : s.declared? = none)
    (hparams : s.params = []) : s.AsParsed where
  line := hline
  declared h := absurd (hdeclared.symm.trans h) nofun
  params := hparams ▸ paramsNamed_nil
  path _ h := Option.some.inj (hpath.symm.trans h) ▸ hnames
  unmarked := uniqueName?_eq_none hdeclared

theorem Node.parsed_block {b : Block} (h : ∀ s ∈ b.stmts, (Node.stmt s).Parsed) :
    (Node.block b).Parsed := by
  refine ⟨trivial, fun child hchild => ?_⟩
  obtain ⟨s, hs, hnode⟩ := mem_stmtChildren hchild
  rw [hnode]
  exact h s hs

namespace Grammar

/-! ### Types and parameters -/

theorem path_yields : Yields path IsPath := by
  refine Yields.ident.bind fun first hfirst => Yields.iterate (fun segments hsegments => ?_) ?_
  · refine Yields.peek.stays.after fun token => Yields.peekNext.after fun next => ?_
    split
    · refine Yields.advance.stays.after fun _ => Yields.ident.bind fun segment hsegment =>
        .pure_some ⟨by simp, fun other hother => ?_⟩
      rcases List.mem_append.mp hother with hother | hother
      · exact hsegments.segments other hother
      · rw [List.mem_singleton.mp hother]
        exact hsegment
    · exact .pure (by simp)
  · exact ⟨by simp, fun other hother => List.mem_singleton.mp hother ▸ hfirst⟩

variable {g : Grammar}

theorem typeArgs_yields (hg : g.Sound) :
    Yields g.typeArgs fun args => ∀ t ∈ args, (Node.type t).Parsed := by
  refine (Yields.read fun _ _ => trivial : Stays opensTypeArgs).after fun opens => ?_
  split
  · exact Yields.advance.stays.after fun _ => Yields.delimited (hg.type _)
  · exact .pure (by simp)

theorem namedType_yields (hg : g.Sound) : Yields g.namedType fun t => (Node.type t).Parsed := by
  refine Yields.here.stays.after fun _ => path_yields.bind fun segments hsegments =>
    Yields.previous.after fun _ => (typeArgs_yields hg).bind fun args hargs =>
      Yields.previous.after fun _ => .pure ⟨.inl ⟨segments, hsegments, rfl⟩, ?_⟩
  simpa [Node.children, TypeExpr.children, Child.plain] using hargs

theorem arrayType_yields (hg : g.Sound) : Yields g.arrayType fun t => (Node.type t).Parsed := by
  refine Yields.here.stays.after fun _ => Yields.advance.stays.after fun _ =>
    (hg.type _).bind fun element helement => (Yields.expect _).after fun _ => .pure ⟨trivial, ?_⟩
  simpa [Node.children, TypeExpr.children, Child.plain] using helement

theorem groupedType_yields (hg : g.Sound) : Yields g.groupedType fun t => (Node.type t).Parsed := by
  refine Yields.here.stays.after fun _ => Yields.advance.stays.after fun _ =>
    (Yields.sees _).after fun _ => ?_
  split
  · refine Yields.advance.stays.after fun _ => .pure ⟨trivial, ?_⟩
    simp [Node.children, TypeExpr.children]
  · exact (hg.type _).bind fun _ hinner => (Yields.expect _).after fun _ => .pure hinner

theorem primaryType_yields (hg : g.Sound) : Yields g.primaryType fun t => (Node.type t).Parsed := by
  refine Yields.peek.stays.after fun token => ?_
  split
  · exact namedType_yields hg
  · refine Yields.advance.stays.after fun _ => .pure ⟨.inr ⟨rfl, rfl⟩, ?_⟩
    simp [Node.children, TypeExpr.children]
  · exact arrayType_yields hg
  · exact groupedType_yields hg
  · exact Yields.failHere

theorem typeAt_yields (hg : g.Sound) (least : Nat) :
    Yields (g.typeAt least) fun t => (Node.type t).Parsed := by
  refine (primaryType_yields hg).bind fun first hfirst =>
    Yields.iterate (fun left hleft => ?_) hfirst
  refine Yields.peek.stays.after fun token => ?_
  split
  · exact .pure (by simp)
  · split
    · exact .pure (by simp)
    · refine Yields.advance.stays.after fun _ => (hg.type _).bind fun right hright =>
        .pure_some ⟨trivial, ?_⟩
      simp [Node.children, TypeExpr.children, Child.plain, hleft, hright]

theorem param_yields (hg : g.Sound) : Yields g.param fun param => IsReference param.name.name := by
  refine Yields.here.stays.after fun start =>
    Yields.bind (Q := fun name => IsReference name.name) ?_ fun name hname => ?_
  · refine (Yields.eat _).after fun eaten => ?_
    split
    · exact .pure (.inr (.inl rfl))
    · exact Yields.ident.mono fun _ hident => .inl hident
  · exact (Yields.optionally (hg.type _)).stays.after fun _ => Yields.previous.after fun _ =>
      .pure hname

theorem params_yields (hg : g.Sound) : Yields g.params ParamsNamed :=
  Yields.delimited (param_yields hg)

theorem signatureTail_stays (hg : g.Sound) : Stays g.signatureTail :=
  (Yields.optionally (hg.type _)).stays.after fun _ =>
    (Yields.optionally (hg.type _)).stays.after fun _ => .pure trivial

/-! ### Expressions -/

theorem block_yields (hg : g.Sound) : Yields g.block fun b => (Node.block b).Parsed :=
  Yields.here.stays.after fun _ => (Yields.expect _).after fun _ =>
    (Yields.withCondition (Yields.many hg.stmt)).bind fun _ hstmts =>
      (Yields.expect _).after fun _ => .pure (Node.parsed_block hstmts)

theorem args_yields (hg : g.Sound) : Yields g.args fun es => ∀ e ∈ es, (Node.expr e).Parsed :=
  Yields.delimited (hg.expr _)

theorem objectField_yields (hg : g.Sound) :
    Yields g.objectField fun field => (Node.expr field.value).Parsed := by
  refine Yields.here.stays.after fun start => Yields.after ?_ fun key => ?_
  · refine Yields.peek.stays.after fun token => ?_
    split
    · exact Yields.advance.stays.after fun _ => .pure trivial
    · exact Yields.memberName.stays.after fun _ => .pure trivial
  · exact (Yields.expect _).after fun _ => (hg.expr _).bind fun value hvalue => .pure hvalue

theorem lambda_yields (hg : g.Sound) : Yields g.lambda fun e => (Node.expr e).Parsed := by
  refine Yields.here.stays.after fun _ => Yields.advance.stays.after fun _ =>
    (Yields.expect _).after fun _ => (params_yields hg).bind fun params hparams =>
      (signatureTail_stays hg).after fun _ => (block_yields hg).bind fun body hbody =>
        Yields.previous.after fun _ => .pure ⟨hparams, ?_⟩
  simpa [Node.children, Expr.children, Child.body] using hbody

theorem className_yields :
    Yields className fun ident => IsPathName ident.name ∨ ident.name = "Self" := by
  refine (Yields.sees _).after fun _ => ?_
  split
  · exact Yields.advance.stays.after fun _ => .pure (.inr rfl)
  · exact Yields.here.stays.after fun _ => path_yields.bind fun segments hsegments =>
      Yields.previous.after fun _ => .pure (.inl ⟨segments, hsegments, rfl⟩)

theorem instantiation_yields (hg : g.Sound) :
    Yields g.instantiation fun e => (Node.expr e).Parsed := by
  refine Yields.here.stays.after fun _ => Yields.advance.stays.after fun _ =>
    className_yields.bind fun name hname =>
      Yields.bind (Q := fun es => ∀ e ∈ es, (Node.expr e).Parsed) ?_ fun args hargs => ?_
  · refine (Yields.eat _).after fun _ => ?_
    split
    · exact args_yields hg
    · exact .pure (by simp)
  · refine Yields.previous.after fun _ => .pure ⟨hname, ?_⟩
    simpa [Node.children, Expr.children, Child.plain] using hargs

theorem grouped_yields (hg : g.Sound) : Yields g.grouped fun e => (Node.expr e).Parsed :=
  Yields.advance.stays.after fun _ => (Yields.withCondition (hg.expr _)).bind fun _ hinner =>
    (Yields.expect _).after fun _ => .pure hinner

theorem arrayLiteral_yields (hg : g.Sound) :
    Yields g.arrayLiteral fun e => (Node.expr e).Parsed := by
  refine Yields.here.stays.after fun _ => Yields.advance.stays.after fun _ =>
    (Yields.delimited (hg.expr _)).bind fun elements helements =>
      Yields.previous.after fun _ => .pure ⟨trivial, ?_⟩
  simpa [Node.children, Expr.children, Child.plain] using helements

theorem objectLiteral_yields (hg : g.Sound) :
    Yields g.objectLiteral fun e => (Node.expr e).Parsed := by
  refine Yields.here.stays.after fun _ => Yields.advance.stays.after fun _ =>
    (Yields.delimited (objectField_yields hg)).bind fun fields hfields =>
      Yields.previous.after fun _ => .pure ⟨trivial, ?_⟩
  simpa [Node.children, Expr.children, Child.plain] using hfields

theorem atom_yields {build : Span → Expr} (h : ∀ span, (Node.expr (build span)).Parsed) :
    Yields (atom build) fun e => (Node.expr e).Parsed :=
  Yields.advance.stays.after fun _ => .pure (h _)

theorem nameAtom_yields {name : String} (h : IsReference name) :
    Yields (nameAtom name) fun e => (Node.expr e).Parsed :=
  Yields.advance.stays.after fun _ => .pure ⟨h, by simp [Node.children, Expr.children]⟩

theorem primary_yields (hg : g.Sound) : Yields g.primary fun e => (Node.expr e).Parsed := by
  refine Yields.peek.bind fun token htoken => ?_
  split
  · exact atom_yields fun _ => ⟨htoken, by simp [Node.children, Expr.children]⟩
  · exact atom_yields fun _ => ⟨trivial, by simp [Node.children, Expr.children]⟩
  · exact atom_yields fun _ => ⟨trivial, by simp [Node.children, Expr.children]⟩
  · exact nameAtom_yields (.inl htoken)
  · exact nameAtom_yields (.inr (.inl rfl))
  · exact nameAtom_yields (.inr (.inr rfl))
  · exact grouped_yields hg
  · exact arrayLiteral_yields hg
  · exact objectLiteral_yields hg
  · exact lambda_yields hg
  · exact instantiation_yields hg
  · exact Yields.failHere

theorem trailingClosure_yields (hg : g.Sound) :
    Yields g.trailingClosure fun closure? => ∀ b ∈ closure?, (Node.block b).Parsed := by
  intro c a d hc hrun
  unfold trailingClosure at hrun
  split at hrun
  · exact (block_yields hg).map_some c a d hc hrun
  · obtain ⟨rfl, rfl⟩ := EStateM.Result.ok.inj hrun
    exact ⟨hc, by simp⟩

theorem postfixStep_yields (hg : g.Sound) {e : Expr} (he : (Node.expr e).Parsed) :
    Yields (g.postfixStep e) fun next => ∀ e' ∈ next, (Node.expr e').Parsed := by
  refine Yields.peek.stays.after fun token => ?_
  split
  · refine Yields.advance.stays.after fun _ => (args_yields hg).bind fun args hargs =>
      (trailingClosure_yields hg).bind fun closure? hclosure => Yields.previous.after fun _ =>
        .pure_some ⟨trivial, ?_⟩
    simp only [Node.children, Expr.children, List.cons_append, List.forall_mem_cons,
      List.forall_mem_append, List.forall_mem_map]
    exact ⟨he, hargs, fun b hb => hclosure b (Option.mem_toList.mp hb)⟩
  · refine Yields.advance.stays.after fun _ => Yields.memberName.bind fun member hmember =>
      .pure_some ⟨hmember, ?_⟩
    simpa [Node.children, Expr.children, Child.plain] using he
  · refine Yields.advance.stays.after fun _ => Yields.memberName.bind fun member hmember =>
      .pure_some ⟨hmember, ?_⟩
    simpa [Node.children, Expr.children, Child.plain] using he
  · refine Yields.advance.stays.after fun _ => (Yields.withCondition (hg.expr _)).bind
      fun position hposition => (Yields.expect _).after fun _ => .pure_some ⟨trivial, ?_⟩
    simp [Node.children, Expr.children, Child.plain, he, hposition]
  · exact .pure (by simp)

theorem operand_yields (hg : g.Sound) : Yields g.operand fun e => (Node.expr e).Parsed := by
  refine Yields.peek.stays.after fun token => ?_
  split
  · refine Yields.here.stays.after fun _ => Yields.advance.stays.after fun _ =>
      hg.operand.bind fun inner hinner => .pure ⟨trivial, ?_⟩
    simpa [Node.children, Expr.children, Child.plain] using hinner
  · exact (primary_yields hg).bind fun first hfirst =>
      Yields.iterate (fun e he => postfixStep_yields hg he) hfirst

theorem typeOperand_yields (hg : g.Sound) :
    Yields g.typeOperand fun operand => (Node.type operand.2).Parsed :=
  (Yields.eat _).after fun _ => (Yields.withTypeOperand (hg.type _)).bind fun _ htype => .pure htype

theorem infixRest_yields (hg : g.Sound) {left : Expr} (hleft : (Node.expr left).Parsed)
    (op : InfixOp) : Yields (g.infixRest left op) fun e => (Node.expr e).Parsed := by
  cases op with
  | typeTest | cast =>
    refine (typeOperand_yields hg).bind fun operand hoperand => .pure ⟨trivial, ?_⟩
    simp [Node.children, Expr.children, Child.plain, hleft, hoperand]
  | assign =>
    dsimp only [infixRest]
    split
    · rename_i htarget
      refine (hg.expr _).bind fun right hright => .pure ⟨htarget, ?_⟩
      simp [Node.children, Expr.children, Child.plain, hleft, hright]
    · exact Yields.failAt
  | binary op =>
    refine (hg.expr _).bind fun right hright => .pure ⟨trivial, ?_⟩
    simp [Node.children, Expr.children, Child.plain, hleft, hright]

theorem exprAt_yields (hg : g.Sound) (least : Nat) :
    Yields (g.exprAt least) fun e => (Node.expr e).Parsed := by
  refine (operand_yields hg).bind fun first hfirst =>
    Yields.iterate (fun left hleft => ?_) hfirst
  refine Yields.peek.stays.after fun token => ?_
  split
  · exact .pure (by simp)
  · exact Yields.ite (.pure (by simp))
      (Yields.advance.stays.after fun _ => (infixRest_yields hg hleft _).map_some)

/-! ### Statements -/

theorem namespaceDecl_yields : Yields namespaceDecl fun decl => IsPath decl.path :=
  Yields.advance.stays.after fun _ => (Yields.eat _).after fun _ => path_yields.bind fun _ hpath =>
    (Yields.eat _).after fun _ => .pure hpath

theorem usingDecl_yields : Yields usingDecl fun decl => IsPath decl.path :=
  Yields.advance.stays.after fun _ => (Yields.eat _).after fun _ => path_yields.bind fun _ hpath =>
    .pure hpath

theorem foreignTarget_stays (marker : Ident) : Stays (foreignTarget marker) := by
  refine (Yields.eat _).after fun _ => ?_
  split
  · refine Yields.peek.stays.after fun token => ?_
    split
    · exact Yields.advance.stays.after fun _ => (Yields.expect _).after fun _ => .pure trivial
    · exact Yields.failHere
  · exact .pure trivial

theorem foreignDecl_yields (hg : g.Sound) :
    Yields g.foreignDecl fun decl => IsIdentifier decl.name.name ∧ decl.uniqueName? = none := by
  refine Yields.advance.stays.after fun _ => Yields.ident.stays.after fun marker =>
    Yields.ite ?_ Yields.failAt
  exact (foreignTarget_stays marker).after fun _ => (Yields.expect _).after fun _ =>
    Yields.ident.bind fun name hname => (Yields.expect _).after fun _ =>
      (params_yields hg).stays.after fun _ => (Yields.optionally (hg.type _)).stays.after fun _ =>
        .pure ⟨hname, rfl⟩

/-- An optional initial value is a part of its declaration. -/
theorem init_yields (hg : g.Sound) (token : Token) :
    Yields (optionally token (g.nestedExpr Expr.loosest)) fun init? =>
      ∀ e ∈ init?, (Node.expr e).Parsed :=
  Yields.optionally (hg.expr _)

theorem constructorMember_yields (hg : g.Sound) :
    Yields g.constructorMember fun m => (Node.member m).Parsed := by
  refine Yields.here.bind fun _ hline => Yields.advance.stays.after fun _ =>
    (Yields.expect _).after fun _ => (params_yields hg).bind fun _ hparams =>
      (block_yields hg).bind fun body hbody => Yields.previous.after fun _ =>
        .pure ⟨⟨⟨hline, hparams⟩, fun _ h => absurd h (Option.not_mem_none _)⟩, ?_⟩
  simpa [Node.children, Member.children, Child.body] using hbody

theorem methodBody_yields (hg : g.Sound) :
    Yields g.methodBody fun body? => ∀ b ∈ body?, (Node.block b).Parsed := by
  refine (Yields.sees _).after fun _ => ?_
  split
  · exact (block_yields hg).map_some
  · exact (Yields.eat _).after fun _ => .pure (by simp)

theorem methodMember_yields (hg : g.Sound) {start : Span} (hline : 1 ≤ start.line) :
    Yields (g.methodMember start) fun m => (Node.member m).Parsed := by
  refine Yields.ident.bind fun _ hname => (Yields.expect _).after fun _ =>
    (params_yields hg).bind fun _ hparams => (signatureTail_stays hg).after fun _ =>
      (methodBody_yields hg).bind fun body? hbody => Yields.previous.after fun _ =>
        .pure ⟨⟨⟨hline, hparams⟩, fun _ h => Option.some.inj h ▸ hname⟩, ?_⟩
  simpa [Node.children, Member.children, Child.body] using hbody

theorem fieldMember_yields (hg : g.Sound) :
    Yields g.fieldMember fun m => (Node.member m).Parsed := by
  refine Yields.here.bind fun _ hline => Yields.ident.bind fun _ hname =>
    (Yields.optionally (hg.type _)).stays.after fun _ =>
      (init_yields hg _).bind fun init? hinit => Yields.after ?_ fun _ =>
        (Yields.eat _).after fun _ => Yields.previous.after fun _ =>
          .pure ⟨⟨⟨hline, paramsNamed_nil⟩, fun _ h => Option.some.inj h ▸ hname⟩, ?_⟩
  · exact Yields.ite (Yields.eat _) (.pure trivial)
  · simpa [Node.children, Member.children, Child.plain] using hinit

theorem member_yields (hg : g.Sound) : Yields g.member fun m => (Node.member m).Parsed := by
  refine Yields.peek.stays.after fun token => ?_
  split
  · exact constructorMember_yields hg
  · exact Yields.advance.bind fun _ hkeyword => methodMember_yields hg hkeyword.line
  · refine Yields.peekNext.after fun next => ?_
    split
    · exact Yields.here.bind fun _ hline => methodMember_yields hg hline
    · exact fieldMember_yields hg
    · exact fieldMember_yields hg
    · exact fieldMember_yields hg
    · exact Yields.advance.stays.after fun _ => Yields.failHere
  · exact Yields.failHere

theorem implementsList_yields (hg : g.Sound) :
    Yields g.implementsList fun types => ∀ t ∈ types, (Node.type t).Parsed := by
  refine (Yields.eat _).after fun _ => ?_
  split
  · refine (hg.type _).bind fun first hfirst => Yields.iterate (fun types htypes => ?_) ?_
    · refine (Yields.eat _).after fun _ => ?_
      split
      · exact (hg.type _).bind fun type htype => .pure_some
          (List.forall_mem_append.mpr ⟨htypes, List.forall_mem_singleton.mpr htype⟩)
      · exact .pure (by simp)
    · exact List.forall_mem_singleton.mpr hfirst
  · exact .pure (by simp)

theorem classBody_yields (hg : g.Sound) (kind : ClassKind) :
    Yields (g.classBody kind) fun decl =>
      ∀ span : Span, 1 ≤ span.line → (Node.stmt (.classDecl span decl)).Parsed := by
  refine Yields.advance.stays.after fun _ => Yields.ident.bind fun name hname =>
    (Yields.optionally (hg.type _)).bind fun extends? hextends =>
      (implementsList_yields hg).bind fun implements himplements => (Yields.expect _).after fun _ =>
        (Yields.many (member_yields hg)).bind fun members hmembers =>
          (Yields.expect _).after fun _ => .pure fun span hline =>
            ⟨Stmt.asParsed_of_some hline rfl hname paramsNamed_nil rfl rfl, ?_⟩
  simp only [Node.children, Stmt.children, List.forall_mem_append, List.forall_mem_map]
  exact ⟨⟨fun t ht => hextends t (Option.mem_toList.mp ht), himplements⟩, hmembers⟩

theorem condition_yields (hg : g.Sound) : Yields g.condition fun e => (Node.expr e).Parsed :=
  Yields.withCondition (hg.expr _)

theorem elseBranch_yields (hg : g.Sound) :
    Yields g.elseBranch fun b => (Node.elseBranch b).Parsed := by
  refine (Yields.eat _).after fun _ => ?_
  split
  · refine (Yields.eat _).after fun _ => ?_
    split
    · refine (condition_yields hg).bind fun condition hcondition =>
        (block_yields hg).bind fun body hbody => hg.rest.bind fun rest hrest =>
          .pure ⟨trivial, ?_⟩
      simp [Node.children, ElseBranch.children, Child.plain, hcondition, hbody, hrest]
    · refine (block_yields hg).bind fun body hbody => .pure ⟨trivial, ?_⟩
      simpa [Node.children, ElseBranch.children, Child.plain] using hbody
  · exact .pure ⟨trivial, by simp [Node.children, ElseBranch.children]⟩

/-- A statement without its span is well named with every span on a line. -/
abbrev Builds (p : TokenParser (Span → Stmt)) : Prop :=
  Yields p fun build => ∀ span : Span, 1 ≤ span.line → (Node.stmt (build span)).Parsed

theorem letStmt_builds (hg : g.Sound) : Builds g.letStmt := by
  refine Yields.advance.stays.after fun _ => Yields.ident.bind fun name hname =>
    (Yields.optionally (hg.type _)).stays.after fun _ =>
      (init_yields hg _).bind fun init? hinit => .pure fun span hline =>
        ⟨Stmt.asParsed_of_some hline rfl hname paramsNamed_nil rfl rfl, ?_⟩
  simpa [Node.children, Stmt.children, Child.plain] using hinit

theorem functionStmt_builds (hg : g.Sound) : Builds g.functionStmt := by
  refine Yields.advance.stays.after fun _ => Yields.ident.bind fun name hname =>
    (Yields.expect _).after fun _ => (params_yields hg).bind fun _ hparams =>
      (signatureTail_stays hg).after fun _ => (block_yields hg).bind fun body hbody =>
        .pure fun span hline =>
          ⟨Stmt.asParsed_of_some hline rfl hname hparams rfl rfl, ?_⟩
  simpa [Node.children, Stmt.children, Child.body] using hbody

theorem ifStmt_builds (hg : g.Sound) : Builds g.ifStmt := by
  refine Yields.advance.stays.after fun _ => (condition_yields hg).bind fun condition hcondition =>
    (block_yields hg).bind fun body hbody => (elseBranch_yields hg).bind fun rest hrest =>
      .pure fun span hline => ⟨Stmt.asParsed_of_none hline rfl rfl rfl, ?_⟩
  simp [Node.children, Stmt.children, Child.plain, hcondition, hbody, hrest]

theorem loopStmt_builds (hg : g.Sound) {build : Span → Expr → Block → Stmt}
    (hbuild : ∀ span condition body, (1 ≤ span.line → (build span condition body).AsParsed) ∧
      (build span condition body).children =
        [.plain (.expr condition), .plain (.block body)]) : Builds (g.loopStmt build) := by
  refine Yields.advance.stays.after fun _ => (condition_yields hg).bind fun condition hcondition =>
    (block_yields hg).bind fun body hbody => .pure fun span hline => ?_
  obtain ⟨hnames, hchildren⟩ := hbuild span condition body
  refine ⟨hnames hline, ?_⟩
  rw [Node.children, hchildren]
  simp [Child.plain, hcondition, hbody]

theorem returnStmt_builds (hg : g.Sound) : Builds g.returnStmt := by
  refine Yields.advance.stays.after fun _ => Yields.peek.stays.after fun token => Yields.ite ?_ ?_
  · refine .pure fun span hline => ⟨Stmt.asParsed_of_none hline rfl rfl rfl, ?_⟩
    simp [Node.children, Stmt.children]
  · refine (hg.expr _).bind fun value hvalue =>
      .pure fun span hline => ⟨Stmt.asParsed_of_none hline rfl rfl rfl, ?_⟩
    simpa [Node.children, Stmt.children, Child.plain] using hvalue

theorem exprStmt_builds (hg : g.Sound) : Builds g.exprStmt := by
  refine (exprAt_yields hg _).bind fun value hvalue =>
    .pure fun span hline => ⟨Stmt.asParsed_of_none hline rfl rfl rfl, ?_⟩
  simpa [Node.children, Stmt.children, Child.plain] using hvalue

theorem blockStmt_builds (hg : g.Sound) :
    Builds (do
      let body ← g.block
      return fun span => .block span body) := by
  refine (block_yields hg).bind fun body hbody =>
    .pure fun span hline => ⟨Stmt.asParsed_of_none hline rfl rfl rfl, ?_⟩
  simpa [Node.children, Stmt.children, Child.plain] using hbody

theorem stmtBody_builds (hg : g.Sound) : Builds g.stmtBody := by
  refine Yields.peek.stays.after fun token => ?_
  split
  · refine namespaceDecl_yields.bind fun decl hdecl => .pure fun span hline =>
      ⟨Stmt.asParsed_of_path hline rfl hdecl rfl rfl, ?_⟩
    simp [Node.children, Stmt.children]
  · refine usingDecl_yields.bind fun decl hdecl => .pure fun span hline =>
      ⟨Stmt.asParsed_of_path hline rfl hdecl rfl rfl, ?_⟩
    simp [Node.children, Stmt.children]
  · refine (foreignDecl_yields hg).bind fun decl hdecl => .pure fun span hline =>
      ⟨Stmt.asParsed_of_some hline rfl hdecl.1 paramsNamed_nil rfl hdecl.2, ?_⟩
    simp [Node.children, Stmt.children]
  · exact letStmt_builds hg
  · exact ifStmt_builds hg
  · exact loopStmt_builds hg fun _ _ _ =>
      ⟨fun hline => Stmt.asParsed_of_none hline rfl rfl rfl, rfl⟩
  · exact loopStmt_builds hg fun _ _ _ =>
      ⟨fun hline => Stmt.asParsed_of_none hline rfl rfl rfl, rfl⟩
  · exact returnStmt_builds hg
  · exact blockStmt_builds hg
  · refine (Yields.read fun _ _ => trivial : Stays namedFunctionFollows).after fun _ => ?_
    exact Yields.ite (functionStmt_builds hg) (exprStmt_builds hg)
  · split
    · exact (classBody_yields hg _).bind fun decl hdecl => .pure hdecl
    · exact exprStmt_builds hg

theorem stmt_yields (hg : g.Sound) : Yields g.stmt fun s => (Node.stmt s).Parsed :=
  Yields.here.bind fun _ hline => (stmtBody_builds hg).bind fun _ hbuild =>
    (Yields.eat _).after fun _ => Yields.previous.after fun _ => .pure (hbuild _ hline)

/-! ### Whole programs -/

theorem sound_atEnd : atEnd.Sound where
  type _ := Yields.failHere
  expr _ := Yields.failHere
  operand := Yields.failHere
  rest := .pure ⟨trivial, by simp [Node.children, ElseBranch.children]⟩
  stmt := Yields.failHere

theorem Sound.deeper (hg : g.Sound) : g.deeper.Sound where
  type := typeAt_yields hg
  expr := exprAt_yields hg
  operand := operand_yields hg
  rest := elseBranch_yields hg
  stmt := stmt_yields hg

theorem sound_level (n : Nat) : (level n).Sound := by
  induction n with
  | zero => exact sound_atEnd
  | succ n ih => exact ih.deeper

theorem program_yields (hg : g.Sound) :
    Yields g.program fun program => ∀ s ∈ program.stmts, (Node.stmt s).Parsed :=
  (Yields.many hg.stmt).bind fun _ hstmts => .pure hstmts

end Grammar

/-- What a parser yields is what it finds among the lexemes of a source. -/
theorem of_runParser {α : Type} {p : Grammar → TokenParser α} {Q : α → Prop}
    (hp : ∀ g : Grammar, g.Sound → Yields (p g) Q) {lexemes : List Lexeme} (hne : lexemes ≠ [])
    (hlexemes : ∀ l ∈ lexemes, l.Spelled) {a : α} (h : runParser p lexemes = .ok a) : Q a := by
  unfold runParser at h
  split at h
  · rename_i tree cursor hrun
    obtain rfl := Except.ok.inj h
    have hsound := Grammar.sound_level (lexemes.length + 1)
    exact (hp _ hsound _ _ _ (Cursor.spelled_ofLexemes hne hlexemes) hrun).2
  · cases h

/-- Every part of a parsed program is as the grammar builds it. -/
theorem parseProgram_parsed {lexemes : List Lexeme} {program : Program}
    (hlexemes : ∀ l ∈ lexemes, l.Spelled) (h : parseProgram lexemes = .ok program) :
    ∀ s ∈ program.stmts, (Node.stmt s).Parsed := by
  cases lexemes with
  | nil =>
    obtain rfl := Except.ok.inj h
    exact fun _ hs => absurd hs List.not_mem_nil
  | cons first rest =>
    exact of_runParser (fun _ => Grammar.program_yields) (List.cons_ne_nil first rest) hlexemes h

theorem parseProgram_wellNamed {lexemes : List Lexeme} {program : Program}
    (hlexemes : ∀ l ∈ lexemes, l.Spelled) (h : parseProgram lexemes = .ok program) :
    ∀ s ∈ program.stmts, (Node.stmt s).Named :=
  fun s hs => (parseProgram_parsed hlexemes h s hs).mono fun _ => Node.AsParsed.wellNamed

theorem parseExpr_named {lexemes : List Lexeme} (hlexemes : ∀ l ∈ lexemes, l.Spelled) {e : Expr}
    (h : parseExpr lexemes = .ok e) : (Node.expr e).Named := by
  cases lexemes with
  | nil => cases h
  | cons first rest =>
    have hparsed : (Node.expr e).Parsed :=
      of_runParser (fun _ hg => hg.expr _) (List.cons_ne_nil first rest) hlexemes h
    exact hparsed.mono fun _ => Node.AsParsed.wellNamed

theorem parseType_named {lexemes : List Lexeme} (hlexemes : ∀ l ∈ lexemes, l.Spelled) {t : TypeExpr}
    (h : parseType lexemes = .ok t) : (Node.type t).Named := by
  cases lexemes with
  | nil => cases h
  | cons first rest =>
    have hparsed : (Node.type t).Parsed :=
      of_runParser (fun _ hg => hg.type _) (List.cons_ne_nil first rest) hlexemes h
    exact hparsed.mono fun _ => Node.AsParsed.wellNamed

end ScriptCompiler
