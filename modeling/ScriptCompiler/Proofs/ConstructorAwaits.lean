import ScriptCompiler.Proofs.Compilation
import ScriptCompiler.Proofs.FunctionOrigins
import ScriptCompiler.Proofs.ReportingRules

/-!
# Constructors that await

A constructor cannot be asynchronous, so the linker rejects a declared constructor that awaits. It
does not look at the initial values of fields, although these are written into the constructor of
their class. So a constructor of a script awaits if and only if the initial value of a field does.
-/

namespace ScriptCompiler

/-! ### Resolving brings no `await` -/

namespace Node

theorem isAwait_resolve (env : Environment) (locals : List String) (n : Node) :
    (n.resolve env locals).isAwait = n.isAwait := by
  cases n with
  | expr e =>
    cases e with
    | staticMember span receiver ident =>
      rw [resolve, Expr.resolve]
      split <;> rfl
    | unary span op operand => cases op <;> rfl
    | _ => rfl
  | _ => rfl

theorem ownParts_resolve {env : Environment} {locals : List String} {n part : Node}
    (h : part ∈ (n.resolve env locals).ownParts) :
    ∃ original ∈ n.ownParts, ∃ inner, part = original.resolve env inner := by
  have hchildren : (∀ span receiver ident, n = .expr (.staticMember span receiver ident) →
      env.resolveStatic? locals receiver ident = none) →
      part ∈ (n.resolve env locals).children.map Child.node →
      ∃ original ∈ n.children.map Child.node, ∃ inner, part = original.resolve env inner := by
    intro hkept hpart
    rw [children_resolve hkept] at hpart
    obtain ⟨_, hresolved, rfl⟩ := List.mem_map.mp hpart
    obtain ⟨child, hchild, rfl⟩ := List.mem_map.mp hresolved
    exact ⟨child.node, List.mem_map_of_mem hchild, _, rfl⟩
  cases n with
  | expr e =>
    cases e with
    | lambda => exact absurd h List.not_mem_nil
    | call span callee args closure? =>
      rcases List.mem_cons.mp h with rfl | h
      · exact ⟨_, List.mem_cons_self, locals, rfl⟩
      · rw [resolveExprs_eq] at h
        obtain ⟨_, hresolved, rfl⟩ := List.mem_map.mp h
        obtain ⟨arg, harg, rfl⟩ := List.mem_map.mp hresolved
        exact ⟨_, List.mem_cons_of_mem _ (List.mem_map_of_mem harg), locals, rfl⟩
    | staticMember span receiver ident =>
      cases hstatic : env.resolveStatic? locals receiver ident with
      | none =>
        refine hchildren (fun _ _ _ heq => ?_) ?_
        · cases heq
          exact hstatic
        · rw [resolve, Expr.resolve, hstatic] at h ⊢
          exact h
      | some unique =>
        rw [resolve, Expr.resolve, hstatic] at h
        exact absurd h List.not_mem_nil
    | _ => exact hchildren (fun _ _ _ heq => by cases heq) h
  | stmt s =>
    cases s with
    | function | classDecl => exact absurd h List.not_mem_nil
    | _ => exact hchildren (fun _ _ _ heq => by cases heq) h
  | _ => exact hchildren (fun _ _ _ heq => by cases heq) h

/-- An `await` that belongs to a resolved part belonged to it before. -/
theorem OwnAwait.of_resolve {env : Environment} {locals : List String} {n : Node}
    (h : (n.resolve env locals).OwnAwait) : n.OwnAwait := by
  generalize hn : n.resolve env locals = resolved at h
  induction h generalizing n locals with
  | here span operand =>
    refine ownAwait_iff.mpr (.inl ?_)
    rw [← isAwait_resolve env locals, hn]
    rfl
  | inside hpart _ ih =>
    subst hn
    obtain ⟨original, horiginal, inner, rfl⟩ := ownParts_resolve hpart
    exact .inside horiginal (ih rfl)

/-- What holds of all parts of a whole, at any depth, holds of every part. -/
theorem every_of_forall_within {P : Node → Prop} {whole : Occurrence}
    (h : ∀ part, whole.Within part → P part.node) : whole.node.Every P := by
  generalize hn : whole.node = n
  induction n using Node.induction_on generalizing whole with
  | h n ih =>
    subst hn
    refine ⟨h whole (.refl whole), fun child hchild => ?_⟩
    have hpart : whole.enter child ∈ whole.parts := List.mem_map_of_mem hchild
    exact ih child hchild (fun part hwithin => h part (hwithin.head hpart)) rfl

end Node

/-- A kind of part that occurs in no file occurs nowhere in a program that is linked from some of
    the files, if such parts are no statements and resolving names brings none. -/
theorem LinkedFrom.every_not {linked : Linked} {files parsed : List ParsedFile}
    (h : LinkedFrom linked files) (hparsed : ∀ file ∈ files, file ∈ parsed) {P : Node → Prop}
    (hstmt : ∀ s, ¬ P (.stmt s)) (hkeep : ∀ env locals n, P (n.resolve env locals) → P n)
    (hnone : ¬ ∃ file ∈ parsed, ∃ s ∈ file.program.stmts, ∃ part,
      (Occurrence.top s).Within part ∧ P part.node) :
    ∀ s ∈ linked.program.stmts, (Node.stmt s).Every fun n => ¬ P n := by
  intro s hs
  rw [h.stmts] at hs
  obtain ⟨placed, hplaced, rfl⟩ := List.mem_map.mp hs
  obtain ⟨file, hfile, i, source, hsource, rfl⟩ :=
    mem_placedOf.mp ((placeFiles_perm _).mem_iff.mp hplaced)
  have hevery : (Node.stmt source).Every fun n => ¬ P n :=
    Node.every_of_forall_within fun part hpart hkind =>
      hnone ⟨file, hparsed file hfile, source, List.mem_of_getElem? hsource, part, hpart, hkind⟩
  -- Its unique name does not change what stands inside a statement.
  have hunique : ∀ path, (Node.stmt (source.withUniqueName path)).Every fun n => ¬ P n := by
    refine fun path => ⟨hstmt _, fun child hchild => ?_⟩
    rw [Node.children, Stmt.children_withUniqueName] at hchild
    exact hevery.child hchild
  exact Node.Every.resolve (fun n locals hn hresolved => hn (hkeep _ locals n hresolved))
    (hunique _) []

/-! ### Members that await -/

/-- The part is a field whose initial value awaits. -/
def Node.AwaitingInit : Node → Prop
  | .member m => ∃ init ∈ m.init?, (Node.expr init).OwnAwait
  | _ => False

/-- The initial value of a field awaits, somewhere in the files and at whatever depth. -/
def AwaitingInitIn (files : List ParsedFile) : Prop :=
  ∃ file ∈ files, ∃ s ∈ file.program.stmts, ∃ part, (Occurrence.top s).Within part ∧
    part.node.AwaitingInit

theorem Node.AwaitingConstructor.of_resolve {env : Environment} {locals : List String} {n : Node}
    (h : (n.resolve env locals).AwaitingConstructor) : n.AwaitingConstructor := by
  cases n with
  | member m =>
    cases m with
    | constructor span params body =>
      exact (Block.awaits_iff _).mpr (Node.OwnAwait.of_resolve ((Block.awaits_iff _).mp h))
    | method | field => exact h
  | _ => exact h

theorem Node.AwaitingInit.of_resolve {env : Environment} {locals : List String} {n : Node}
    (h : (n.resolve env locals).AwaitingInit) : n.AwaitingInit := by
  cases n with
  | member m =>
    cases m with
    | field span name type? init? isDefault =>
      obtain ⟨init, hinit, h⟩ := h
      rw [Member.resolve, resolveOption_eq] at hinit
      obtain ⟨original, horiginal, rfl⟩ := Option.map_eq_some_iff.mp hinit
      exact ⟨original, horiginal, Node.OwnAwait.of_resolve h⟩
    | constructor | method => exact h
  | _ => exact h

namespace Script.Passage

/-- An `await` stands in the passage, and not inside a function of it. -/
def DirectAwait (p : Passage) : Prop :=
  ∃ q, p.Holds none q ∧ q.isAwait = true

theorem awaitsHere_iff {p : Passage} : p.awaitsHere = true ↔ p.DirectAwait := by
  constructor
  · intro h
    induction p with
    | text | function => cases h
    | append first second ihfirst ihsecond =>
      rcases Bool.or_eq_true_iff.mp h with h | h
      · obtain ⟨q, hholds, hq⟩ := ihfirst h
        exact ⟨q, .first hholds, hq⟩
      · obtain ⟨q, hholds, hq⟩ := ihsecond h
        exact ⟨q, .second hholds, hq⟩
    | await operand => exact ⟨_, .here, rfl⟩
    | guard operand isAsync inside fallback => exact ⟨_, .here, h⟩
  · rintro ⟨q, hholds, hq⟩
    generalize hnone : (none : Option (Origin × Bool)) = enclosing? at hholds
    induction hholds with
    | @here p =>
      cases p with
      | await | guard => exact hq
      | text | append | function => cases hq
    | first _ ih => exact Bool.or_eq_true_iff.mpr (.inl (ih hq hnone))
    | second _ ih => exact Bool.or_eq_true_iff.mpr (.inr (ih hq hnone))
    | operand => rfl
    | guarded | body => cases hnone

/-- Right inside a function of a sound passage stands an `await` if and only if one belongs to what
    the function has been made of. -/
theorem Sound.directAwait_iff {p inside : Passage} (hp : p.Sound) {origin : Origin} {isAsync : Bool}
    {head tail : String} (h : p.Contains (.function origin isAsync head inside tail)) :
    inside.DirectAwait ↔ origin.awaits = true := by
  obtain ⟨_, h⟩ := h
  rw [← awaitsHere_iff, (hp.of_holds h).2.1]

end Script.Passage

/-! ### Constructors of compiled scripts -/

theorem Node.constructor_mem_functions {n : Node} {members : List Member} :
    .constructor members ∈ n.functions ↔ ∃ span decl, n = .stmt (.classDecl span decl) ∧
      decl.members = members ∧ decl.members.any fun m => m.isConstructor || m.hasInit := by
  constructor
  · intro h
    unfold functions at h
    split at h
    · cases List.mem_singleton.mp h
    · cases List.mem_singleton.mp h
    · cases List.mem_singleton.mp h
    · cases List.mem_singleton.mp h
    · cases List.mem_singleton.mp h
    · rename_i span decl
      rcases List.mem_append.mp h with h | h
      · rcases List.mem_append.mp h with h | h
        · split at h
          · cases List.mem_singleton.mp h
          · exact absurd h List.not_mem_nil
        · split at h
          · rename_i hany
            cases List.mem_singleton.mp h
            exact ⟨span, decl, rfl, rfl, hany⟩
          · exact absurd h List.not_mem_nil
      · obtain ⟨body, _, hbody⟩ := List.mem_map.mp h
        cases hbody
    · exact absurd h List.not_mem_nil
  · rintro ⟨span, decl, rfl, rfl, hany⟩
    refine List.mem_append_left _ (List.mem_append_right _ ?_)
    rw [if_pos hany]
    exact List.mem_cons_self

open Script

/-- The constructor that a part of a program is written as stands in its script. -/
theorem exists_constructor (options : Options) (files : List String) {program : Program}
    {s : Stmt} (hs : s ∈ program.stmts) {part : Node} (h : (Node.stmt s).Writes part)
    {members : List Member} (horigin : .constructor members ∈ part.functions) :
    ∃ isAsync head inside tail, (programPassage options files program).Contains
      (.function (.constructor members) isAsync head inside tail) := by
  obtain ⟨q, isAsync, hcontains, hfunction⟩ := contains_function options files hs h horigin
  cases q with
  | function origin isAsync head inside tail =>
    cases hfunction
    exact ⟨_, head, inside, tail, hcontains⟩
  | text | append | await | guard => cases hfunction

/-- What the constructors of a script await. They are those of the classes for which something is
    written and that declare a constructor or give a field an initial value; right inside one of
    them stands an `await` if and only if one belongs to the initial value of a field of its class;
    and there is none if no field in the files has such an initial value. -/
structure ConstructorAwaits (files : List ParsedFile) (program : Program) (script : Passage) :
    Prop where
  classes : ∀ members, (∃ isAsync head inside tail,
      script.Contains (.function (.constructor members) isAsync head inside tail)) ↔
    ∃ s ∈ program.stmts, ∃ span decl, (Node.stmt s).Writes (.stmt (.classDecl span decl)) ∧
      decl.members = members ∧ decl.members.any fun m => m.isConstructor || m.hasInit
  inits : ∀ members isAsync head inside tail,
    script.Contains (.function (.constructor members) isAsync head inside tail) →
      (inside.DirectAwait ↔ ∃ init ∈ members.filterMap Member.init?, (Node.expr init).OwnAwait)
  none : ¬ AwaitingInitIn files → ∀ members isAsync head inside tail,
    script.Contains (.function (.constructor members) isAsync head inside tail) →
      ¬ inside.DirectAwait

section

variable {linked : Linked} {files parsed : List ParsedFile} (h : LinkedFrom linked files)
  (hparsed : ∀ file ∈ files, file ∈ parsed)

include h hparsed

/-- No class of a linked program has a constructor that awaits, if there is none in the files. -/
theorem LinkedFrom.awaits_constructorBody (hnone : ¬ AwaitingConstructorIn parsed) {s : Stmt}
    (hs : s ∈ linked.program.stmts) {span : Span} {decl : ClassDecl}
    (hclass : (Node.stmt s).Writes (.stmt (.classDecl span decl))) :
    (decl.members.findSome? Member.constructorBody?).any Block.awaits = false := by
  have hevery := h.every_not hparsed (fun _ => id)
    (fun _ _ _ => Node.AwaitingConstructor.of_resolve) hnone s hs
  cases hbody : decl.members.findSome? Member.constructorBody? with
  | none => rfl
  | some body =>
    obtain ⟨m, hm, hmember⟩ := List.exists_of_findSome?_eq_some hbody
    have hmember' := ((hevery.writes hclass).members m hm).here
    cases m with
    | constructor span params own =>
      obtain rfl : own = body := Option.some.inj hmember
      exact Bool.eq_false_iff.mpr hmember'
    | method | field => cases hmember

/-- No class of a linked program has a field whose initial value awaits, if there is none in the
    files. -/
theorem LinkedFrom.not_ownAwait_init (hnone : ¬ AwaitingInitIn parsed) {s : Stmt}
    (hs : s ∈ linked.program.stmts) {span : Span} {decl : ClassDecl}
    (hclass : (Node.stmt s).Writes (.stmt (.classDecl span decl))) :
    ¬ ∃ init ∈ decl.members.filterMap Member.init?, (Node.expr init).OwnAwait := by
  have hevery := h.every_not hparsed (fun _ => id)
    (fun _ _ _ => Node.AwaitingInit.of_resolve) hnone s hs
  rintro ⟨init, hinit, hawaits⟩
  obtain ⟨m, hm, hmember⟩ := List.mem_filterMap.mp hinit
  exact ((hevery.writes hclass).members m hm).here ⟨init, hmember, hawaits⟩

theorem LinkedFrom.constructorAwaits (hnone : ¬ AwaitingConstructorIn parsed) (options : Options)
    (names : List String) :
    ConstructorAwaits parsed linked.program (programPassage options names linked.program) := by
  have hsound := sound_programPassage options names linked.program
  have hclasses : ∀ members isAsync head inside tail,
      (programPassage options names linked.program).Contains
        (.function (.constructor members) isAsync head inside tail) →
      ∃ s ∈ linked.program.stmts, ∃ span decl,
        (Node.stmt s).Writes (.stmt (.classDecl span decl)) ∧ decl.members = members ∧
          decl.members.any fun m => m.isConstructor || m.hasInit := by
    intro members isAsync head inside tail hcontains
    obtain ⟨s, hs, part, hpart, horigin⟩ := exists_writes_of_contains hcontains rfl
    obtain ⟨span, decl, rfl, hmembers⟩ := Node.constructor_mem_functions.mp horigin
    exact ⟨s, hs, span, decl, hpart, hmembers⟩
  have hinits : ∀ members isAsync head inside tail,
      (programPassage options names linked.program).Contains
        (.function (.constructor members) isAsync head inside tail) →
      (inside.DirectAwait ↔
        ∃ init ∈ members.filterMap Member.init?, (Node.expr init).OwnAwait) := by
    intro members isAsync head inside tail hcontains
    obtain ⟨s, hs, span, decl, hclass, rfl, _⟩ := hclasses _ _ _ _ _ hcontains
    rw [hsound.directAwait_iff hcontains, Origin.awaits, h.awaits_constructorBody hparsed hnone hs
      hclass, Bool.or_false, List.any_eq_true]
    simp only [Expr.awaits_iff]
  refine ⟨fun members => ⟨?_, ?_⟩, hinits, ?_⟩
  · rintro ⟨isAsync, head, inside, tail, hcontains⟩
    exact hclasses _ _ _ _ _ hcontains
  · rintro ⟨s, hs, span, decl, hclass, hmembers⟩
    exact exists_constructor options names hs hclass
      (Node.constructor_mem_functions.mpr ⟨span, decl, rfl, hmembers⟩)
  · intro hnoinit members isAsync head inside tail hcontains
    obtain ⟨s, hs, span, decl, hclass, rfl, _⟩ := hclasses _ _ _ _ _ hcontains
    rw [hinits _ _ _ _ _ hcontains]
    exact h.not_ownAwait_init hparsed hnoinit hs hclass

end

theorem constructorAwaits_of_success {sources : Sources} {mode : Mode} {options : CompileOptions}
    {linked : Linked} {findings : List Finding}
    (hlink : link (options.rules mode) sources = .ok (linked, findings))
    (hsuccess : (finish options linked findings).success = true) :
    ∃ files, ParsesTo sources files ∧
      ConstructorAwaits files linked.program
        (programPassage options.script linked.files linked.program) := by
  obtain ⟨files, hparses, hcompilable⟩ := (finish_outcome hlink).success.mp hsuccess
  obtain ⟨parsed, failures, hparse, hfrom⟩ := link_cases hlink
  obtain ⟨_, rfl⟩ := ((parseFiles_cases hparse).complete files).mp hparses
  exact ⟨files, hparses, hfrom.constructorAwaits (fun _ => mem_of_mem_inOrder)
    hcompilable.constructors options.script linked.files⟩

/-- The constructors of a compiled script await exactly what the initial values of fields await:
    the linker has rejected all other constructors that would await. -/
theorem compile_constructorAwaits {sources : Sources} {mode : Mode} {options : CompileOptions}
    {result : CompileResult} (h : compile sources mode options = .ok result)
    (hsuccess : result.success = true) :
    ∃ files linked findings, ParsesTo sources files ∧
      link (options.rules mode) sources = .ok (linked, findings) ∧
      result.code? = some (programPassage options.script linked.files linked.program).plain ∧
      ConstructorAwaits files linked.program
        (programPassage options.script linked.files linked.program) := by
  obtain ⟨linked, findings, hlink, rfl⟩ := compile_eq_ok_iff.mp h
  obtain ⟨files, hparses, hawaits⟩ := constructorAwaits_of_success hlink hsuccess
  refine ⟨files, linked, findings, hparses, hlink, ?_, hawaits⟩
  rw [(finish_of_success hsuccess).1, plain_programPassage]

/-- A class with a field that awaits, and a singleton whose constructor takes part in no `await` of
    the closure that it passes on. -/
def initialSources : Sources :=
  Sources.empty.insert "a.tn" ("namespace! a; class K \x7b x = await f(); \x7d" ++
    "singleton S \x7b y = 1; constructor() \x7b g() \x7b await h(); \x7d; \x7d \x7d")

theorem compile_initialSources :
    ∃ result, compile initialSources .standard {} = .ok result ∧ result.success = true ∧
      ∃ files linked findings, ParsesTo initialSources files ∧
        link (CompileOptions.rules {} .standard) initialSources = .ok (linked, findings) ∧
        result.code? =
          some (programPassage (CompileOptions.script {}) linked.files linked.program).plain ∧
        ConstructorAwaits files linked.program
          (programPassage (CompileOptions.script {}) linked.files linked.program) := by
  have hview : (compile initialSources .standard {}).toOption.map (·.success) = some true := by
    decide +kernel
  obtain ⟨result, hcompile, hsuccess⟩ := exists_ok_of_map hview
  exact ⟨result, hcompile, hsuccess, compile_constructorAwaits hcompile hsuccess⟩

/-- A class whose field gets its initial value from an `await`. -/
def awaitingInit : String := "class K \x7b x = await f(); \x7d"

/-- This class is compiled, and its constructor awaits. -/
theorem compileSource_awaitingInit :
    ∃ result linked findings, compileSource awaitingInit {} = .ok result ∧
      result.success = true ∧
      link ⟨.repl, .warn⟩ (Sources.ofList [(replFile, awaitingInit)]) = .ok (linked, findings) ∧
      result.code? =
        some (programPassage (CompileOptions.script {}) linked.files linked.program).plain ∧
      ∃ members isAsync head inside tail,
        (programPassage (CompileOptions.script {}) linked.files linked.program).Contains
          (.function (.constructor members) isAsync head inside tail) ∧
        inside.DirectAwait := by
  have hview : (link ⟨.repl, .warn⟩ (Sources.ofList [(replFile, awaitingInit)])).toOption.map
      (fun read => ((finish {} read.1 read.2).success, read.1.program.stmts.any fun s =>
        (Node.stmt s).functions.any fun origin => origin.isConstructor && origin.awaits)) =
      some (true, true) := by
    decide +kernel
  obtain ⟨linked, findings, hlink, hview⟩ := exists_link_of_map hview
  obtain ⟨hsuccess, hclass⟩ := Prod.mk.inj hview
  have hcompile : compileSource awaitingInit {} = .ok (finish {} linked findings) :=
    compile_eq_ok_iff.mpr ⟨linked, findings, hlink, rfl⟩
  refine ⟨_, linked, findings, hcompile, hsuccess, hlink, ?_, ?_⟩
  · rw [(finish_of_success hsuccess).1, plain_programPassage]
  obtain ⟨s, hs, hfunctions⟩ := List.any_eq_true.mp hclass
  obtain ⟨origin, horigin, hkind⟩ := List.any_eq_true.mp hfunctions
  obtain ⟨hconstructor, hawaits⟩ := Bool.and_eq_true_iff.mp hkind
  cases origin with
  | constructor members =>
    obtain ⟨isAsync, head, inside, tail, hcontains⟩ :=
      exists_constructor (CompileOptions.script {}) linked.files hs .here horigin
    have hsound := sound_programPassage (CompileOptions.script {}) linked.files linked.program
    exact ⟨_, isAsync, head, inside, tail, hcontains,
      (hsound.directAwait_iff hcontains).mpr hawaits⟩
  | _ => cases hconstructor

end ScriptCompiler
