import ScriptCompiler.Proofs.ClassReader
import ScriptCompiler.Proofs.ReadBack

/-!
# Traits that classes take over methods from

Behind a class stands a loop over those of its implemented types that the program declares. The
declared classes are looked for in the bodies of functions and methods and in the blocks of
statements, but neither in constructors nor in expressions. So a trait that is only declared in one
of these is left out of the loop.
-/

namespace ScriptCompiler

open Script

/-! ### Looking for classes -/

/-- The part `m` stands in the part `n`, and all parts below `n` on the way to it satisfy the
    condition. -/
inductive Node.Reaches (p : Node → Bool) : (n m : Node) → Prop where
  | here {n : Node} : Reaches p n n
  | inside {n m : Node} {child : Child} (hchild : child ∈ n.children) (hp : p child.node)
      (h : Reaches p child.node m) : Reaches p n m

/-- Are declared classes looked for in the part? -/
def Node.isSearched : Node → Bool
  | .type _ | .expr _ | .member (.constructor ..) => false
  | _ => true

/-- The names of the declared classes that are found in a part. -/
def Node.foundClasses : Node → List String
  | .type _ | .expr _ => []
  | .block b => declaredClasses b.stmts
  | .stmt s => s.declaredClasses
  | .elseBranch b => b.declaredClasses
  | .member m => declaredInMembers [m]

theorem mem_declaredClasses {name : String} {stmts : List Stmt} :
    name ∈ declaredClasses stmts ↔ ∃ s ∈ stmts, name ∈ s.declaredClasses := by
  induction stmts with
  | nil => simp [declaredClasses]
  | cons s rest ih => simp [declaredClasses, ih]

theorem mem_declaredInMembers {name : String} {members : List Member} :
    name ∈ declaredInMembers members ↔ ∃ m ∈ members, name ∈ declaredInMembers [m] := by
  induction members with
  | nil => simp [declaredInMembers]
  | cons m rest ih =>
    cases m with
    | method span ident params returnType? effect? body? =>
      cases body? with
      | none => simp [declaredInMembers, ih]
      | some body =>
        obtain ⟨stmts, _⟩ := body
        simp [declaredInMembers, ih]
    | constructor | field => simp [declaredInMembers, ih]

/-- The classes that are found in a class are the class itself and those in the bodies of its
    methods. -/
theorem Stmt.mem_declaredClasses_classDecl {name : String} {span : Span} {decl : ClassDecl} :
    name ∈ (Stmt.classDecl span decl).declaredClasses ↔
      decl.emittedName = name ∨ ∃ child ∈ (Node.stmt (.classDecl span decl)).children,
        child.node.isSearched = true ∧ name ∈ child.node.foundClasses := by
  obtain ⟨kind, ident, extends?, implements, members, uniqueName?⟩ := decl
  rw [Stmt.declaredClasses, List.mem_cons, mem_declaredInMembers, eq_comm]
  refine or_congr Iff.rfl ?_
  constructor
  · rintro ⟨m, hm, hin⟩
    refine ⟨_, List.mem_append_right _ (List.mem_map_of_mem hm), ?_, hin⟩
    cases m with
    | constructor => simp [declaredInMembers] at hin
    | method | field => rfl
  · rintro ⟨child, hchild, hsearched, hin⟩
    rcases List.mem_append.mp hchild with hchild | hchild
    · obtain ⟨t, _, rfl⟩ := List.mem_map.mp hchild
      cases hsearched
    · obtain ⟨m, hm, rfl⟩ := List.mem_map.mp hchild
      exact ⟨m, hm, hin⟩

namespace Node

/-- A class is found where it is declared, or in a part right inside that is searched. -/
theorem mem_foundClasses {name : String} {n : Node} (hn : n.isSearched = true) :
    name ∈ n.foundClasses ↔
      (∃ span decl, n = .stmt (.classDecl span decl) ∧ decl.emittedName = name) ∨
        ∃ child ∈ n.children, child.node.isSearched = true ∧ name ∈ child.node.foundClasses := by
  cases n with
  | type | expr => cases hn
  | block b =>
    rw [foundClasses, mem_declaredClasses]
    constructor
    · rintro ⟨s, hs, hin⟩
      obtain ⟨child, hchild, hnode⟩ := exists_mem_stmtChildren [] hs
      exact .inr ⟨child, hchild, by rw [hnode]; rfl, by rw [hnode]; exact hin⟩
    · rintro (⟨_, _, hclass, _⟩ | ⟨child, hchild, _, hin⟩)
      · cases hclass
      · obtain ⟨s, hs, hnode⟩ := mem_stmtChildren hchild
        rw [hnode] at hin
        exact ⟨s, hs, hin⟩
  | stmt s =>
    cases s with
    | classDecl span decl =>
      rw [foundClasses, Stmt.mem_declaredClasses_classDecl]
      refine or_congr ⟨fun hname => ⟨span, decl, rfl, hname⟩, ?_⟩ Iff.rfl
      rintro ⟨_, _, hclass, hname⟩
      cases hclass
      exact hname
    | function _ _ _ _ _ body | whileLoop _ _ body | untilLoop _ _ body | block _ body
    | ifElse _ _ body =>
      obtain ⟨stmts, _⟩ := body
      simp [children, Stmt.children, Child.plain, Child.body, isSearched, foundClasses,
        Stmt.declaredClasses]
    | _ =>
      simp [children, Stmt.children, Child.plain, isSearched, foundClasses, Stmt.declaredClasses]
  | elseBranch b =>
    cases b with
    | none => simp [children, ElseBranch.children, foundClasses, ElseBranch.declaredClasses]
    | block body | elseIf _ body =>
      obtain ⟨stmts, _⟩ := body
      simp [children, ElseBranch.children, Child.plain, isSearched, foundClasses,
        ElseBranch.declaredClasses]
  | member m =>
    cases m with
    | constructor => cases hn
    | field =>
      simp [children, Member.children, Child.plain, isSearched, foundClasses, declaredInMembers]
    | method span ident params returnType? effect? body? =>
      cases body? with
      | none => simp [children, Member.children, foundClasses, declaredInMembers]
      | some body =>
        obtain ⟨stmts, _⟩ := body
        simp [children, Member.children, Child.body, isSearched, foundClasses, declaredInMembers]

/-- The classes that are found are those on a way through searched parts. -/
theorem mem_foundClasses_iff {name : String} {n : Node} (hn : n.isSearched = true) :
    name ∈ n.foundClasses ↔
      ∃ span decl, n.Reaches isSearched (.stmt (.classDecl span decl)) ∧
        decl.emittedName = name := by
  induction n using Node.induction_on with
  | h n ih =>
    rw [mem_foundClasses hn]
    constructor
    · rintro (⟨span, decl, rfl, hname⟩ | ⟨child, hchild, hsearched, hin⟩)
      · exact ⟨span, decl, .here, hname⟩
      · obtain ⟨span, decl, hreaches, hname⟩ := (ih child hchild hsearched).mp hin
        exact ⟨span, decl, .inside hchild hsearched hreaches, hname⟩
    · rintro ⟨span, decl, hreaches, hname⟩
      cases hreaches with
      | here => exact .inl ⟨span, decl, rfl, hname⟩
      | inside hchild hsearched h =>
        exact .inr ⟨_, hchild, hsearched, (ih _ hchild hsearched).mpr ⟨span, decl, h, hname⟩⟩

theorem Reaches.mono {p q : Node → Bool} (himp : ∀ n, p n = true → q n = true) {n m : Node}
    (h : Reaches p n m) : Reaches q n m := by
  induction h with
  | here => exact .here
  | inside hchild hp _ ih => exact .inside hchild (himp _ hp) ih

/-- What is written for a part stands in the part. -/
theorem Writes.reaches {n m : Node} (h : n.Writes m) : n.Reaches (fun _ => true) m := by
  induction h with
  | here => exact .here
  | inside hpart _ ih =>
    obtain ⟨child, hchild, rfl | ⟨inner, hinner, rfl⟩⟩ := exists_child_of_written hpart
    · exact .inside hchild rfl ih
    · exact .inside hchild rfl (.inside hinner rfl ih)

end Node

/-- A class of this name is declared somewhere in the program, where all parts below the statement
    at the top satisfy the condition. -/
def Program.DeclaresIn (p : Node → Bool) (program : Program) (name : String) : Prop :=
  ∃ s ∈ program.stmts, ∃ span decl,
    (Node.stmt s).Reaches p (.stmt (.classDecl span decl)) ∧ decl.emittedName = name

/-- A class of this name is declared anywhere in the program. -/
def Program.Declares (program : Program) (name : String) : Prop :=
  program.DeclaresIn (fun _ => true) name

/-- A class of this name is found in the program. -/
def Program.Finds (program : Program) (name : String) : Prop :=
  program.DeclaresIn Node.isSearched name

namespace Program

variable {program : Program} {name : String}

/-- The classes that are found are those that are declared in parts that are searched. -/
theorem mem_declaredClasses_iff : name ∈ declaredClasses program.stmts ↔ program.Finds name := by
  rw [mem_declaredClasses]
  exact exists_congr fun s => and_congr Iff.rfl (Node.mem_foundClasses_iff (n := .stmt s) rfl)

theorem Finds.declares (h : program.Finds name) : program.Declares name := by
  obtain ⟨s, hs, span, decl, hreaches, hname⟩ := h
  exact ⟨s, hs, span, decl, hreaches.mono fun _ _ => rfl, hname⟩

theorem Writes.declares {options : Options} {ctx : Context} {span : Span} {decl : ClassDecl}
    (h : program.Writes options ctx (.stmt (.classDecl span decl))) :
    program.Declares decl.emittedName := by
  obtain ⟨s, hs, hpart⟩ := h
  exact ⟨s, hs, span, decl, hpart.writes.reaches, rfl⟩

end Program

/-! ### Traits of classes -/

/-- The names that satisfy the condition, in their order. -/
def Picks (keep : String → Prop) (names picked : List String) : Prop :=
  ∃ p : String → Bool, (∀ name, p name = true ↔ keep name) ∧ picked = names.filter p

/-- The traits of a class, as they are read from the script. -/
structure ClassDecl.TraitsFit (program : Program) (ctx : Context) (decl : ClassDecl)
    (shown : ShownClass) : Prop where
  /-- The traits are those of the implemented types that are found in the program. -/
  found : Picks program.Finds (decl.implements.filterMap ctx.typeName?) shown.traits
  /-- All of them are declared in the program. -/
  declared : ∀ name ∈ shown.traits, program.Declares name
  /-- They are all of the implemented types that are declared in the program if these are found. -/
  complete : Picks program.Declares (decl.implements.filterMap ctx.typeName?) shown.traits ↔
    ∀ name ∈ decl.implements.filterMap ctx.typeName?, program.Declares name → program.Finds name

theorem ClassDecl.traitsFit_shown {program : Program} {ctx : Context}
    (hctx : ctx.declared = declaredClasses program.stmts) (decl : ClassDecl) :
    decl.TraitsFit program ctx (decl.shown ctx) := by
  have hkeep : ∀ name, ctx.declared.contains name = true ↔ program.Finds name := by
    intro name
    rw [List.contains_iff_mem, hctx, Program.mem_declaredClasses_iff]
  have hmem : ∀ name, name ∈ (decl.shown ctx).traits ↔
      name ∈ decl.implements.filterMap ctx.typeName? ∧ program.Finds name := by
    intro name
    rw [shown, declaredTraits, List.mem_filter, hkeep]
  refine ⟨⟨ctx.declared.contains, hkeep, rfl⟩, fun name hin => ((hmem name).mp hin).2.declares, ?_⟩
  constructor
  · rintro ⟨p, hp, htraits⟩ name hin hdeclared
    have hpicked : name ∈ (decl.shown ctx).traits := by
      rw [htraits, List.mem_filter]
      exact ⟨hin, (hp name).mpr hdeclared⟩
    exact ((hmem name).mp hpicked).2
  · intro hfound
    -- On the implemented types both conditions agree.
    classical
    refine ⟨fun name => decide (program.Declares name), fun name => decide_eq_true_iff, ?_⟩
    refine List.filter_congr fun name hin => Bool.eq_iff_iff.mpr ?_
    rw [hkeep, decide_eq_true_iff]
    exact ⟨Program.Finds.declares, hfound name hin⟩

namespace Script

/-- The traits of the classes of every program that was parsed or linked. -/
theorem generate_traitsFit {program : Program} (hread : program.IsRead) (options : Options)
    (files : List String) {ctx : Context} {span : Span} {decl : ClassDecl}
    (hwrites : program.Writes options ctx (.stmt (.classDecl span decl))) :
    (Row.code ((Stmt.classDecl span decl).rows ctx)).toList <:+:
        (generate options files program).code.toList ∧
      ∃ shown, readClass ((Stmt.classDecl span decl).rows ctx) = some shown ∧
        decl.TraitsFit program ctx shown := by
  obtain ⟨hwritten, hshown⟩ := hwrites.readClass_rows hread files
  exact ⟨hwritten, decl.shown ctx, hshown, decl.traitsFit_shown hwrites.declared⟩

/-- Traits at the top, in a function and in a method, and classes that implement them. -/
def traitsSource : String :=
  "trait A \x7b m(self) \x7b\x7d \x7d micro f() \x7b trait B \x7b n(self) \x7b\x7d \x7d "
    ++ "class C implements B, Missing, A \x7b k(self) \x7b trait D \x7b\x7d \x7d \x7d \x7d "
    ++ "singleton S implements D, A \x7b\x7d"

/-- The traits that are read of these classes. -/
theorem generate_traitsSource :
    ∃ lexemes program, tokenizeFile 0 traitsSource = .ok lexemes ∧
      parseProgram lexemes = .ok program ∧
      ((program.writtenClasses 9 {}).map fun (ctx, span, decl) =>
        (decl.emittedName, (readClass ((Stmt.classDecl span decl).rows ctx)).map (·.traits))) =
        [("A", some []), ("B", some []), ("C", some ["B", "A"]), ("D", some []),
          ("S", some ["D", "A"])] ∧
      ∀ ctx span decl, (ctx, span, decl) ∈ program.writtenClasses 9 {} →
        ∃ shown, readClass ((Stmt.classDecl span decl).rows ctx) = some shown ∧
          decl.TraitsFit program ctx shown := by
  have hview : ((tokenizeFile 0 traitsSource).toOption.bind fun lexemes =>
      (parseProgram lexemes).toOption.map fun program =>
        (program.writtenClasses 9 {}).map fun (ctx, span, decl) =>
          (decl.emittedName, (readClass ((Stmt.classDecl span decl).rows ctx)).map (·.traits))) =
      some [("A", some []), ("B", some []), ("C", some ["B", "A"]), ("D", some []),
        ("S", some ["D", "A"])] := by
    decide +kernel
  obtain ⟨lexemes, program, hscan, hparse, htraits⟩ := exists_parse_of_map hview
  exact ⟨lexemes, program, hscan, hparse, htraits, fun ctx span decl hin =>
    (generate_traitsFit (.parsed hscan hparse) {} []
      (Program.writes_of_mem_writtenClasses hin)).2⟩

/-- A trait and a class that implements it, both in an anonymous function. -/
def lambdaTraitSource : String :=
  "micro () \x7b trait T \x7b m(self) \x7b\x7d \x7d class C implements T \x7b\x7d \x7d"

/-- The trait is declared, but the class does not take over its methods. -/
theorem generate_lambdaTraitSource :
    ∃ lexemes program, tokenizeFile 0 lambdaTraitSource = .ok lexemes ∧
      parseProgram lexemes = .ok program ∧
      ∃ ctx span decl shown, program.Writes {} ctx (.stmt (.classDecl span decl)) ∧
        readClass ((Stmt.classDecl span decl).rows ctx) = some shown ∧
        decl.implements.filterMap ctx.typeName? = ["T"] ∧ program.Declares "T" ∧
        shown.traits = [] := by
  have hview : ((tokenizeFile 0 lambdaTraitSource).toOption.bind fun lexemes =>
      (parseProgram lexemes).toOption.map fun program =>
        ((program.writtenClasses 9 {}).any fun (_, _, decl) => decl.emittedName = "T",
          (program.writtenClasses 9 {}).any fun (ctx, span, decl) =>
            decide (decl.implements.filterMap ctx.typeName? = ["T"]) &&
              (readClass ((Stmt.classDecl span decl).rows ctx)).any fun shown =>
                shown.traits.isEmpty)) = some (true, true) := by
    decide +kernel
  obtain ⟨lexemes, program, hscan, hparse, hview⟩ := exists_parse_of_map hview
  obtain ⟨htrait, hclass⟩ := Prod.mk.inj hview
  obtain ⟨⟨_, _, trait⟩, hdeclared, hname⟩ := List.any_eq_true.mp htrait
  obtain ⟨⟨ctx, span, decl⟩, hin, hclass⟩ := List.any_eq_true.mp hclass
  obtain ⟨himplements, hshown⟩ := Bool.and_eq_true_iff.mp hclass
  obtain ⟨shown, hread, hempty⟩ := (Option.any_eq_true _ _).mp hshown
  have hdeclares : program.Declares "T" :=
    of_decide_eq_true hname ▸ (Program.writes_of_mem_writtenClasses hdeclared).declares
  exact ⟨lexemes, program, hscan, hparse, ctx, span, decl, shown,
    Program.writes_of_mem_writtenClasses hin, hread, of_decide_eq_true himplements, hdeclares,
    List.isEmpty_iff.mp hempty⟩

end Script

end ScriptCompiler
