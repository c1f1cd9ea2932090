import ScriptCompiler.Proofs.Resolution

/-!
# The plan of a linked program

A linked program has the top-level statements of all files that could be parsed. They come in the
order of the files and, inside a file, in the order of the text, but in five groups: namespaces,
imports and foreign functions, then variables, functions, classes, and everything else. Each
declaration carries the unique name that the namespaces of its own file give it.
-/

namespace ScriptCompiler

/-- The kinds of statements. -/
inductive StmtKind where
  | namespaceDecl | usingDecl | foreignDecl | letDecl | function | classDecl
  | ifElse | whileLoop | untilLoop | ret | block | expr
deriving DecidableEq, Repr

def Stmt.kind : Stmt → StmtKind
  | .namespaceDecl .. => .namespaceDecl
  | .usingDecl .. => .usingDecl
  | .foreignDecl .. => .foreignDecl
  | .letDecl .. => .letDecl
  | .function .. => .function
  | .classDecl .. => .classDecl
  | .ifElse .. => .ifElse
  | .whileLoop .. => .whileLoop
  | .untilLoop .. => .untilLoop
  | .ret .. => .ret
  | .block .. => .block
  | .expr .. => .expr

/-- Where a statement comes from, its kind, and the unique name of a declaration. -/
structure StmtLabel where
  file : Nat
  span : Span
  kind : StmtKind
  uniqueName? : Option String
deriving DecidableEq, Repr

def Stmt.label (s : Stmt) : StmtLabel :=
  ⟨s.span.file, s.span, s.kind, s.uniqueName?⟩

/-- The labels of the statements of a file. Each declaration gets the unique name of its name in the
    namespace that the statements before it leave active. -/
def ParsedFile.labels (file : ParsedFile) : List StmtLabel :=
  file.program.stmts.mapIdx fun i s => ⟨s.span.file, s.span, s.kind, s.declared?.map fun declared =>
    uniqueName (activeNamespace (file.program.stmts.take i)) declared.2.name⟩

/-- Namespaces, imports and foreign functions. -/
def StmtKind.heads : List StmtKind :=
  [.namespaceDecl, .usingDecl, .foreignDecl]

/-- Labels in their groups; inside a group they keep their order. -/
def planned (labels : List StmtLabel) : List StmtLabel :=
  labels.filter (fun l => l.kind ∈ StmtKind.heads) ++
  labels.filter (fun l => l.kind = .letDecl) ++
  labels.filter (fun l => l.kind = .function) ++
  labels.filter (fun l => l.kind = .classDecl) ++
  labels.filter fun l => l.kind ∉ StmtKind.heads ++ [.letDecl, .function, .classDecl]

/-- The file is the program that one of the sources reads as. Its number is its place among the
    sources. -/
def ParsedFrom (sources : Sources) (file : ParsedFile) : Prop :=
  ∃ id text lexemes, sources.entries[id]? = some (file.name, text) ∧
    tokenizeFile id text = .ok lexemes ∧ parseProgram lexemes = .ok file.program

/-! ### Labels -/

theorem Stmt.kind_resolve (env : Environment) (locals : List String) (s : Stmt) :
    (s.resolve env locals).kind = s.kind := by
  cases s with
  | classDecl span decl =>
    cases decl
    simp [Stmt.resolve, kind]
  | _ => simp [Stmt.resolve, kind]

/-- Resolving the names of a statement leaves its label alone. -/
theorem Stmt.label_resolve (env : Environment) (locals : List String) (s : Stmt) :
    (s.resolve env locals).label = s.label := by
  rw [label, span_resolve, kind_resolve, uniqueName?_resolve]
  rfl

theorem Stmt.span_withUniqueName (path : String) (s : Stmt) :
    (s.withUniqueName path).span = s.span := by
  cases s <;> rfl

theorem Stmt.kind_withUniqueName (path : String) (s : Stmt) :
    (s.withUniqueName path).kind = s.kind := by
  cases s <;> rfl

/-- A statement that declares something does not change the namespace. -/
theorem activeNamespace_concat {before : List Stmt} {s : Stmt} {kind : EntryKind} {name : Ident}
    (h : s.declared? = some (kind, name)) :
    activeNamespace (before ++ [s]) = activeNamespace before := by
  have hnone : namespaceDecls [s] = [] := by
    cases s with
    | namespaceDecl => cases h
    | _ => rfl
  have happend : namespaceDecls (before ++ [s]) = namespaceDecls before ++ namespaceDecls [s] :=
    List.filterMap_append
  rw [activeNamespace, happend, hnone, List.append_nil]
  rfl

theorem Stmt.label_withUniqueName (before : List Stmt) (s : Stmt) :
    (s.withUniqueName (activeNamespace (before ++ [s]))).label =
      ⟨s.span.file, s.span, s.kind, s.declared?.map fun declared =>
        uniqueName (activeNamespace before) declared.2.name⟩ := by
  rw [label, span_withUniqueName, kind_withUniqueName]
  congr 1
  cases hdeclared : s.declared? with
  | none => exact uniqueName?_eq_none ((declared?_withUniqueName _ s).trans hdeclared)
  | some declared =>
    rw [uniqueName?_withUniqueName hdeclared, activeNamespace_concat hdeclared]
    rfl

/-- The statements of a file are placed with the labels that they should get. -/
theorem map_label_placed (file : ParsedFile) :
    file.placed.map (fun p => p.stmt.label) = file.labels := by
  refine List.ext_getElem? fun i => ?_
  rw [List.getElem?_map, getElem?_placed, ParsedFile.labels, List.getElem?_mapIdx, Option.map_map]
  cases hs : file.program.stmts[i]? with
  | none => rfl
  | some s =>
    have htake : file.program.stmts.take (i + 1) = file.program.stmts.take i ++ [s] := by
      rw [List.take_add_one, hs]
      rfl
    show some (s.withUniqueName (activeNamespace (file.program.stmts.take (i + 1)))).label = _
    rw [htake, Stmt.label_withUniqueName]
    rfl

/-! ### Groups -/

/-- Labels tell the stage of a statement. -/
theorem map_label_filter {placed : List Placed} {stage : Stage} {group : StmtLabel → Bool}
    (h : ∀ s : Stmt, (s.stage == stage) = group s.label) :
    (placed.filter fun p => p.stmt.stage == stage).map (fun p => p.stmt.label) =
      (placed.map fun p => p.stmt.label).filter group := by
  rw [List.filter_map]
  congr 1
  exact List.filter_congr fun p _ => h p.stmt

theorem map_label_arrange (placed : List Placed) :
    (arrange placed).map (fun p => p.stmt.label) = planned (placed.map fun p => p.stmt.label) := by
  simp only [arrange, Stage.all, List.flatMap_cons, List.flatMap_nil, List.append_nil,
    List.map_append, planned, List.append_assoc]
  rw [map_label_filter fun s => ?_, map_label_filter fun s => ?_, map_label_filter fun s => ?_,
    map_label_filter fun s => ?_, map_label_filter fun s => ?_]
  all_goals cases s <;> rfl

theorem map_label_placeFiles (files : List ParsedFile) :
    (placeFiles files).map (fun p => p.stmt.label) = planned (files.flatMap ParsedFile.labels) := by
  have hfiles : (placedOf files).map (fun p => p.stmt.label) = files.flatMap ParsedFile.labels := by
    rw [placedOf, List.map_flatMap]
    exact List.flatMap_congr fun file _ => map_label_placed file
  rw [← hfiles]
  exact map_label_arrange _

/-! ### Files -/

theorem map_name_inOrder {order : List String} {files : List ParsedFile}
    (h : ∀ name ∈ order, name ∈ files.map ParsedFile.name) :
    (inOrder order files).map ParsedFile.name = order := by
  induction order with
  | nil => rfl
  | cons name rest ih =>
    obtain ⟨hname, hrest⟩ := List.forall_mem_cons.mp h
    obtain ⟨file, hfile, hfound⟩ := List.mem_map.mp hname
    have hsome : (files.find? (·.name == name)).isSome :=
      List.find?_isSome.mpr ⟨file, hfile, beq_iff_eq.mpr hfound⟩
    obtain ⟨found, hfind⟩ := Option.isSome_iff_exists.mp hsome
    have heq : found.name = name := by simpa using List.find?_some hfind
    have hcons : inOrder (name :: rest) files = found :: inOrder rest files := by
      rw [inOrder, List.filterMap_cons, hfind]
      rfl
    rw [hcons, List.map_cons, heq, ih hrest]

theorem mem_parsed_iff {sources : Sources} {parsed : List ParsedFile} {failures : List Finding}
    (h : parseFiles sources = .ok (parsed, failures)) {file : ParsedFile} :
    file ∈ parsed ↔ ParsedFrom sources file := by
  rw [(parseFiles_eq_ok h).1, List.mem_filterMap]
  constructor
  · rintro ⟨reading, hreading, hfile⟩
    obtain ⟨id, hid⟩ := List.mem_iff_getElem?.mp hreading
    rw [getElem?_readFiles] at hid
    obtain ⟨⟨name, text⟩, hentry, rfl⟩ := Option.map_eq_some_iff.mp hid
    cases hof : Reading.ofText id name text with
    | program found =>
      rw [hof] at hfile
      obtain rfl := Option.some.inj hfile
      obtain ⟨lexemes, program, htokens, hparse, rfl⟩ := Reading.ofText_eq_program_iff.mp hof
      exact ⟨id, text, lexemes, hentry, htokens, hparse⟩
    | unparsable => rw [hof] at hfile; cases hfile
    | untokenized => rw [hof] at hfile; cases hfile
  · rintro ⟨id, text, lexemes, hentry, htokens, hparse⟩
    have hof : Reading.ofText id file.name text = .program file :=
      Reading.ofText_eq_program_iff.mpr ⟨lexemes, file.program, htokens, hparse, rfl⟩
    refine ⟨.program file, List.mem_of_getElem? (i := id) ?_, rfl⟩
    rw [getElem?_readFiles, hentry, ← hof]
    rfl

/-- Whatever sources are linked, the program has the top-level statements of all files that can be
    parsed, each once, in the order of the files and in the five groups; and each declaration has the
    unique name that the namespaces before it in its own file give it. -/
theorem link_follows_plan {rules : Rules} {sources : Sources} {linked : Linked}
    {findings : List Finding} (h : link rules sources = .ok (linked, findings)) :
    linked.order.Nodup ∧ ∃ files : List ParsedFile, files.map ParsedFile.name = linked.order ∧
      (∀ file, file ∈ files ↔ ParsedFrom sources file) ∧
      linked.program.stmts.map Stmt.label = planned (files.flatMap ParsedFile.labels) := by
  obtain ⟨parsed, failures, hparse, rfl, _⟩ := link_eq_ok_iff.mp h
  have hnodup := (parseFiles_cases hparse).nodup
  have horder := (Graph.order_sound (Graph.ofFiles_wellFormed hnodup)).2
  rw [Graph.files_ofFiles] at horder
  refine ⟨horder.nodup_iff.mpr hnodup, inOrder (Graph.ofFiles parsed).order.order parsed, ?_, ?_, ?_⟩
  · exact map_name_inOrder fun name hname => horder.mem_iff.mp hname
  · intro file
    rw [(inOrder_perm hnodup).mem_iff, mem_parsed_iff hparse]
  · rw [← map_label_placeFiles]
    show List.map Stmt.label (List.map _ _) = _
    rw [List.map_map]
    exact List.map_congr_left fun p _ => Stmt.label_resolve _ _ p.stmt

/-- Two files, of which the first imports a namespace of the second and has two of its own. -/
def plannedSources : Sources :=
  (Sources.empty.insert "a.tn"
    "using b; namespace! a; print(1); micro f() {} let x = y; namespace c; class K {}").insert "b.tn"
    "let z = 1; namespace! b; return; @foreign micro log(m); let y = 2;"

/-- The statements of the second file come first in every group. -/
theorem link_plannedSources :
    ∃ linked findings, link .strict plannedSources = .ok (linked, findings) ∧
      linked.order = ["b.tn", "a.tn"] ∧
      linked.program.stmts.map (fun s => (s.kind, s.uniqueName?)) =
        [(.namespaceDecl, none), (.foreignDecl, some "b_log"), (.usingDecl, none),
          (.namespaceDecl, none), (.namespaceDecl, none), (.letDecl, some "z"),
          (.letDecl, some "b_y"), (.letDecl, some "a_x"), (.function, some "a_f"),
          (.classDecl, some "c_K"), (.ret, none), (.expr, none)] ∧
      linked.order.Nodup ∧ ∃ files : List ParsedFile, files.map ParsedFile.name = linked.order ∧
        (∀ file, file ∈ files ↔ ParsedFrom plannedSources file) ∧
        linked.program.stmts.map Stmt.label = planned (files.flatMap ParsedFile.labels) := by
  have hvalue : (link .strict plannedSources).toOption.map (fun result =>
      (result.1.order, result.1.program.stmts.map fun s => (s.kind, s.uniqueName?))) =
        some (["b.tn", "a.tn"], [(.namespaceDecl, none), (.foreignDecl, some "b_log"),
          (.usingDecl, none), (.namespaceDecl, none), (.namespaceDecl, none), (.letDecl, some "z"),
          (.letDecl, some "b_y"), (.letDecl, some "a_x"), (.function, some "a_f"),
          (.classDecl, some "c_K"), (.ret, none), (.expr, none)]) := by
    decide +kernel
  obtain ⟨linked, findings, hlink, hview⟩ := exists_link_of_map hvalue
  obtain ⟨horder, hstmts⟩ := Prod.mk.inj hview
  exact ⟨linked, findings, hlink, horder, hstmts, link_follows_plan hlink⟩

end ScriptCompiler
