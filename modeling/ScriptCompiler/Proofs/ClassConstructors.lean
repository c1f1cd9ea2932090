import ScriptCompiler.Proofs.ClassReader
import ScriptCompiler.Proofs.ReadBack

/-!
# Constructors and base classes

A class that is read from a script has a constructor if it declares one or if a field has an initial
value. The constructor first calls the base class, then gives the fields their initial values and
then goes on with the statements of the declared constructor. There is a call if something is
written behind `extends`, but the first row of the class has a base class only if a named type is.
So a class that extends another type calls a base class that it does not have.
-/

namespace ScriptCompiler

namespace Script

/-- Is the row a call of the base class at this level that stands for no statement of the
    program? -/
def isSuperCall (level : Nat) (row : Row) : Bool :=
  row.indent == level && row.origin?.isNone && "super(".toList.isPrefixOf row.text.toList

theorem isSuperCall_rowFrom (level : Nat) (ctx : Context) (span : Span) (text : String) :
    isSuperCall level (ctx.rowFrom span text) = false := by
  simp [isSuperCall, Context.rowFrom]

/-- Rows further in are no calls. -/
theorem isSuperCall_of_lt {level : Nat} {row : Row} (h : level < row.indent) :
    isSuperCall level row = false := by
  rw [isSuperCall, beq_false_of_ne (by omega)]
  rfl

theorem isSuperCall_row {level : Nat} {ctx : Context} {text : String}
    (h : "super(".toList.isPrefixOf text.toList = false) :
    isSuperCall level (ctx.row text) = false := by
  rw [isSuperCall, Context.row, h, Bool.and_false]

/-- No row that copies methods of traits is a call. -/
theorem isSuperCall_mixinRows (level : Nat) (ctx : Context) (name : String)
    (implements : List TypeExpr) :
    ∀ row ∈ mixinRows ctx name implements, isSuperCall level row = false := by
  unfold mixinRows
  split
  · exact List.forall_mem_nil _
  · simp [isSuperCall, Context.row, List.isPrefixOf]

/-- Rows of a statement between its first row and a last one that closes it. -/
theorem isSuperCall_wrap {level : Nat} {ctx : Context} {span : Span} {first last : String}
    (hlast : "super(".toList.isPrefixOf last.toList = false) {rows : List Row}
    (h : ∀ row ∈ rows, isSuperCall level row = false) :
    ∀ row ∈ ctx.rowFrom span first :: rows ++ [ctx.row last], isSuperCall level row = false := by
  rw [List.cons_append, List.forall_mem_cons, List.forall_mem_append, List.forall_mem_singleton]
  exact ⟨isSuperCall_rowFrom .., h, isSuperCall_row hlast⟩

theorem isSuperCall_bodyRows {level : Nat} {ctx : Context} (hlevel : level < ctx.indent)
    {hasBase : Bool} {members : List Member} :
    ∀ row ∈ bodyRows ctx hasBase members, isSuperCall level row = false :=
  fun row hrow => isSuperCall_of_lt (hlevel.trans_le (indent_bodyRows row hrow))

end Script

open Script

/-- The rows of a body are further in than what it is the body of. -/
theorem Block.isSuperCall_rows_deeper (ctx : Context) (b : Block) :
    ∀ row ∈ b.rows ctx.deeper, isSuperCall ctx.indent row = false :=
  fun row hrow => isSuperCall_of_lt (Block.nests ctx.deeper b row hrow).1

theorem ElseBranch.isSuperCall_rows (ctx : Context) : ∀ (b : ElseBranch) (row : Row),
    row ∈ b.rows ctx → isSuperCall ctx.indent row = false
  | .none, row, hrow => by
    rw [ElseBranch.rows] at hrow
    exact absurd hrow List.not_mem_nil
  | .block body, row, hrow => by
    rw [ElseBranch.rows] at hrow
    rcases List.mem_cons.mp hrow with rfl | hrow
    · exact isSuperCall_row (by decide)
    · exact body.isSuperCall_rows_deeper ctx row hrow
  | .elseIf condition thenBlock elseBranch, row, hrow => by
    rw [ElseBranch.rows, List.cons_append] at hrow
    rcases List.mem_cons.mp hrow with rfl | hrow
    · exact isSuperCall_row (by simp [List.isPrefixOf])
    · rcases List.mem_append.mp hrow with hrow | hrow
      · exact thenBlock.isSuperCall_rows_deeper ctx row hrow
      · exact elseBranch.isSuperCall_rows ctx row hrow

/-- No row of a statement is taken for a call of the base class. -/
theorem Stmt.isSuperCall_rows (ctx : Context) (s : Stmt) :
    ∀ row ∈ s.rows ctx, isSuperCall ctx.indent row = false := by
  cases s with
  | namespaceDecl span decl | usingDecl span decl =>
    rw [Stmt.rows]
    split
    · exact List.forall_mem_nil _
    · exact List.forall_mem_singleton.mpr (isSuperCall_rowFrom ..)
  | letDecl span name type? init? unique? =>
    cases init? <;> rw [Stmt.rows] <;> exact List.forall_mem_singleton.mpr (isSuperCall_rowFrom ..)
  | ret span value? =>
    cases value? <;> rw [Stmt.rows] <;> exact List.forall_mem_singleton.mpr (isSuperCall_rowFrom ..)
  | foreignDecl | expr =>
    rw [Stmt.rows]
    exact List.forall_mem_singleton.mpr (isSuperCall_rowFrom ..)
  | function _ _ _ _ _ body | whileLoop _ _ body | untilLoop _ _ body | block _ body =>
    rw [Stmt.rows]
    exact isSuperCall_wrap (by decide) (body.isSuperCall_rows_deeper ctx)
  | ifElse span condition thenBlock elseBranch =>
    rw [Stmt.rows]
    exact isSuperCall_wrap (by decide) (List.forall_mem_append.mpr
      ⟨thenBlock.isSuperCall_rows_deeper ctx, elseBranch.isSuperCall_rows ctx⟩)
  | classDecl span decl =>
    obtain ⟨kind, name, extends?, implements, members, unique?⟩ := decl
    cases kind with
    | singleton =>
      -- All rows between the first one and the last one are further in.
      have hinside : ctx.indent < ctx.deeper.indent := Nat.lt_succ_self _
      rw [Stmt.rows, List.forall_mem_append, List.forall_mem_append, List.forall_mem_append,
        List.forall_mem_append, List.forall_mem_cons, List.forall_mem_cons,
        List.forall_mem_singleton, List.forall_mem_singleton]
      exact ⟨⟨⟨⟨⟨isSuperCall_rowFrom .., isSuperCall_of_lt hinside,
          isSuperCall_bodyRows (hinside.trans (Nat.lt_succ_self _))⟩, isSuperCall_of_lt hinside⟩,
        isSuperCall_mixinRows _ _ _ _⟩,
        fun row hrow => isSuperCall_of_lt (nests_instanceRows ctx.deeper _ row hrow).1⟩,
        isSuperCall_row (by decide)⟩
    | plain | trait =>
      rw [Stmt.rows, List.forall_mem_append]
      · exact ⟨isSuperCall_wrap (by decide) (isSuperCall_bodyRows (Nat.lt_succ_self _)),
          isSuperCall_mixinRows _ _ _ _⟩
      · exact ClassKind.noConfusion

/-- No row of the statements of a constructor is taken for a call of its base class. -/
theorem Block.isSuperCall_rows (ctx : Context) (b : Block) :
    ∀ row ∈ b.rows ctx, isSuperCall ctx.indent row = false := by
  obtain ⟨stmts, _⟩ := b
  rw [Block.rows]
  induction stmts with
  | nil =>
    rw [stmtRows]
    exact List.forall_mem_nil _
  | cons s rest ih =>
    rw [stmtRows, List.forall_mem_append]
    exact ⟨s.isSuperCall_rows ctx, ih⟩

namespace Script

variable {ctx : Context} {hasBase : Bool} {members : List Member}

/-- Initial values are given to members of the instance. -/
theorem exists_of_initText? {m : Member} {text : String} (h : initText? ctx m = some text) :
    ∃ behind, text = "this." ++ behind := by
  cases m with
  | field span name type? init? isDefault =>
    cases init? with
    | some init =>
      obtain rfl := Option.some.inj h
      exact ⟨name.name ++ (" = " ++ (init.script ctx ++ ";")), by simp only [String.append_assoc]⟩
    | none =>
      cases isDefault with
      | true =>
        obtain rfl := Option.some.inj h
        exact ⟨name.name ++ (" = " ++ (defaultValue type? ++ ";")), by
          simp only [String.append_assoc]⟩
      | false => cases h
  | constructor | method => cases h

/-- The calls of the base class among the rows of a constructor. -/
theorem filter_constructorBody : (constructorBody ctx hasBase members).filter
    (isSuperCall ctx.deeper.indent) =
      if hasBase then [ctx.deeper.row (superText members)] else [] := by
  have hinits : ∀ row ∈ (members.filterMap (initText? ctx)).map ctx.deeper.row,
      ¬ isSuperCall ctx.deeper.indent row = true := by
    rw [List.forall_mem_map]
    intro text htext
    obtain ⟨m, _, htext⟩ := List.mem_filterMap.mp htext
    obtain ⟨behind, rfl⟩ := exists_of_initText? htext
    exact Bool.eq_false_iff.mp (isSuperCall_row (by simp [List.isPrefixOf]))
  -- A statement may call a base class, too, but its first row remembers where it comes from.
  have hbody : ∀ row ∈ (members.findSome? Member.constructorBody?).elim [] (Block.rows ctx.deeper),
      ¬ isSuperCall ctx.deeper.indent row = true := by
    cases members.findSome? Member.constructorBody? with
    | none => exact List.forall_mem_nil _
    | some body =>
      exact fun row hrow => Bool.eq_false_iff.mp (body.isSuperCall_rows ctx.deeper row hrow)
  have hcall : isSuperCall ctx.deeper.indent (ctx.deeper.row (superText members)) = true := by
    unfold superText
    split <;> simp [isSuperCall, Context.row, List.isPrefixOf]
  rw [constructorBody, List.filter_append, List.filter_append, List.filter_eq_nil_iff.mpr hinits,
    List.filter_eq_nil_iff.mpr hbody, List.append_nil, List.append_nil]
  cases hasBase with
  | true => exact List.filter_cons_of_pos hcall
  | false => rfl

end Script

/-- The constructor of a class, as it is read from the script. -/
structure ClassDecl.ConstructorFits (ctx : Context) (decl : ClassDecl) (shown : ShownClass) :
    Prop where
  /-- The base class is the named type behind `extends`. -/
  base : shown.base? = decl.extends?.bind ctx.typeName?
  /-- There is a constructor if one is declared or if a field has an initial value. -/
  present : shown.constructor?.isSome ↔ ∃ m ∈ decl.members, m.isConstructor ∨ m.hasInit
  /-- First come the calls of the base class, then the initial values in the order of the fields,
      and then the statements of the declared constructor. -/
  order : ∀ body ∈ shown.constructor?, body =
    body.filter (isSuperCall (decl.inside ctx).deeper.indent)
      ++ (decl.members.filterMap (initText? (decl.inside ctx))).map (decl.inside ctx).deeper.row
      ++ (decl.members.findSome? Member.constructorBody?).elim []
        (Block.rows (decl.inside ctx).deeper)
  /-- There is one call if something is written behind `extends`, and none otherwise. -/
  calls : ∀ body ∈ shown.constructor?,
    body.countP (isSuperCall (decl.inside ctx).deeper.indent) =
      if decl.extends?.isSome then 1 else 0
  /-- So there is a call just if there is a base class, unless a class with a constructor extends
      something that is no named type. -/
  agrees : (∀ body ∈ shown.constructor?,
      (body.any (isSuperCall (decl.inside ctx).deeper.indent) = true ↔ shown.base?.isSome)) ↔
    (shown.constructor?.isSome →
      ∀ t ∈ decl.extends?, ∃ span ident args, t = TypeExpr.named span ident args)

/-- Only named types have a name in the script. -/
theorem Script.Context.isSome_typeName?_iff (ctx : Context) (t : TypeExpr) :
    (ctx.typeName? t).isSome ↔ ∃ span ident args, t = TypeExpr.named span ident args := by
  cases t with
  | named span ident args => exact iff_of_true rfl ⟨span, ident, args, rfl⟩
  | _ => exact iff_of_false nofun nofun

theorem ClassDecl.constructorFits_shown (ctx : Context) (decl : ClassDecl) :
    decl.ConstructorFits ctx (decl.shown ctx) := by
  have hbody : ∀ body ∈ (decl.shown ctx).constructor?,
      body = constructorBody (decl.inside ctx) decl.extends?.isSome decl.members := by
    intro body hbody
    unfold shown at hbody
    split at hbody
    · exact (Option.some.inj hbody).symm
    · cases hbody
  have hcalls : ∀ body ∈ (decl.shown ctx).constructor?,
      body.filter (isSuperCall (decl.inside ctx).deeper.indent) =
        if decl.extends?.isSome then [(decl.inside ctx).deeper.row (superText decl.members)]
        else [] := by
    intro body hin
    rw [hbody body hin, filter_constructorBody]
  have hcount : ∀ body ∈ (decl.shown ctx).constructor?,
      body.countP (isSuperCall (decl.inside ctx).deeper.indent) =
        if decl.extends?.isSome then 1 else 0 := by
    intro body hin
    rw [List.countP_eq_length_filter, hcalls body hin]
    split <;> rfl
  refine ⟨rfl, ?_, ?_, hcount, ?_⟩
  · simp [shown]
  · intro body hin
    rw [hcalls body hin, hbody body hin, constructorBody]
  · cases hconstructor : (decl.shown ctx).constructor? with
    | none =>
      exact iff_of_true (fun _ hbody => absurd hbody (Option.not_mem_none _))
        (fun hsome => absurd hsome Bool.false_ne_true)
    | some body =>
      have hany : body.any (isSuperCall (decl.inside ctx).deeper.indent) = true ↔
          decl.extends?.isSome := by
        rw [List.any_eq_true, ← List.countP_pos_iff, hcount body hconstructor]
        cases decl.extends?.isSome <;> decide
      have hbase : (decl.shown ctx).base? = decl.extends?.bind ctx.typeName? := rfl
      constructor
      · intro hagrees _ t ht
        have hnamed := (hagrees body rfl).mp (hany.mpr (Option.isSome_of_mem ht))
        rw [hbase, Option.mem_def.mp ht] at hnamed
        exact (ctx.isSome_typeName?_iff t).mp hnamed
      · intro hnamed other hother
        obtain rfl := Option.some.inj hother
        rw [hany, hbase]
        cases hextends : decl.extends? with
        | none => exact Iff.rfl
        | some t => exact iff_of_true rfl ((ctx.isSome_typeName?_iff t).mpr (hnamed rfl t hextends))

namespace Script

/-- The classes of every program that was parsed or linked can be read from the script, and their
    constructors are as follows. -/
theorem generate_constructorFits {program : Program} (hread : program.IsRead) (options : Options)
    (files : List String) {ctx : Context} {span : Span} {decl : ClassDecl}
    (hwrites : program.Writes options ctx (.stmt (.classDecl span decl))) :
    (Row.code ((Stmt.classDecl span decl).rows ctx)).toList <:+:
        (generate options files program).code.toList ∧
      ∃ shown, readClass ((Stmt.classDecl span decl).rows ctx) = some shown ∧
        decl.ConstructorFits ctx shown := by
  obtain ⟨hwritten, hshown⟩ := hwrites.readClass_rows hread files
  exact ⟨hwritten, decl.shown ctx, hshown, decl.constructorFits_shown ctx⟩

/-- A class with all that a constructor can have, a class inside a function that only has fields,
    and a singleton. -/
def constructedSource : String :=
  "class C extends B \x7b label = \"c\"; count: Number default; "
    ++ "constructor(x) \x7b self.x = x \x7d \x7d micro f() \x7b class D extends C \x7b y = 1 \x7d \x7d "
    ++ "singleton S \x7b z: Number \x7d"

/-- What is read of these classes. -/
theorem generate_constructedSource :
    ∃ lexemes program, tokenizeFile 0 constructedSource = .ok lexemes ∧
      parseProgram lexemes = .ok program ∧
      ((program.writtenClasses 9 {}).map fun (ctx, span, decl) =>
        (readClass ((Stmt.classDecl span decl).rows ctx)).map fun shown =>
          (shown.base?, shown.constructor?.map (·.map Row.text))) =
        [some (some "B", some ["super(...arguments);", "this.label = \"c\";", "this.count = 0;",
            "(this.x = x);"]),
          some (some "C", some ["super(...args);", "this.y = 1;"]),
          some (none, none)] ∧
      ∀ ctx span decl, (ctx, span, decl) ∈ program.writtenClasses 9 {} →
        ∃ shown, readClass ((Stmt.classDecl span decl).rows ctx) = some shown ∧
          decl.ConstructorFits ctx shown := by
  have hview : ((tokenizeFile 0 constructedSource).toOption.bind fun lexemes =>
      (parseProgram lexemes).toOption.map fun program =>
        ((program.writtenClasses 9 {}).map fun (ctx, span, decl) =>
          (readClass ((Stmt.classDecl span decl).rows ctx)).map fun shown =>
            (shown.base?, shown.constructor?.map (·.map Row.text)))) =
      some [some (some "B", some ["super(...arguments);", "this.label = \"c\";", "this.count = 0;",
          "(this.x = x);"]),
        some (some "C", some ["super(...args);", "this.y = 1;"]),
        some (none, none)] := by
    decide +kernel
  obtain ⟨lexemes, program, hscan, hparse, hshown⟩ := exists_parse_of_map hview
  exact ⟨lexemes, program, hscan, hparse, hshown, fun ctx span decl hin =>
    (generate_constructorFits (.parsed hscan hparse) {} []
      (Program.writes_of_mem_writtenClasses hin)).2⟩

/-- A class with an initial value that extends an array type. -/
def baselessSource : String :=
  "class A extends [B] \x7b x = 1 \x7d"

/-- The class has no base class, but its constructor calls one. -/
theorem generate_baselessSource :
    ∃ lexemes program, tokenizeFile 0 baselessSource = .ok lexemes ∧
      parseProgram lexemes = .ok program ∧
      ∃ ctx span decl shown body, program.Writes {} ctx (.stmt (.classDecl span decl)) ∧
        readClass ((Stmt.classDecl span decl).rows ctx) = some shown ∧
        shown.base? = none ∧ shown.constructor? = some body ∧
        body.any (isSuperCall (decl.inside ctx).deeper.indent) = true := by
  have hview : ((tokenizeFile 0 baselessSource).toOption.bind fun lexemes =>
      (parseProgram lexemes).toOption.map fun program =>
        (program.writtenClasses 1 {}).any fun (ctx, span, decl) =>
          (readClass ((Stmt.classDecl span decl).rows ctx)).any fun shown =>
            shown.base?.isNone && shown.constructor?.any fun body =>
              body.any (isSuperCall (decl.inside ctx).deeper.indent)) = some true := by
    decide +kernel
  obtain ⟨lexemes, program, hscan, hparse, hany⟩ := exists_parse_of_map hview
  obtain ⟨⟨ctx, span, decl⟩, hin, hclass⟩ := List.any_eq_true.mp hany
  obtain ⟨shown, hshown, hclass⟩ := (Option.any_eq_true _ _).mp hclass
  obtain ⟨hbase, hconstructor⟩ := Bool.and_eq_true_iff.mp hclass
  obtain ⟨body, hbody, hcall⟩ := (Option.any_eq_true _ _).mp hconstructor
  exact ⟨lexemes, program, hscan, hparse, ctx, span, decl, shown, body,
    Program.writes_of_mem_writtenClasses hin, hshown, Option.isNone_iff_eq_none.mp hbase, hbody,
    hcall⟩

end Script

end ScriptCompiler
