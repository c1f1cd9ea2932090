import Mathlib.Data.List.Induction
import ScriptCompiler.Proofs.Pruning
import ScriptCompiler.Proofs.SourceMaps

/-!
# What the options of a script add and leave out

The text of a script is one chunk for each statement of the program. Optimization leaves out what is
written for inert statements at any depth, and nothing else. The other options only add text: a
remark before each chunk, a list of exports behind the last one, and a source map beside the text.
-/

namespace ScriptCompiler

/-! ### Exported names -/

/-- The statement declares something that can be imported under the name. -/
inductive Stmt.Exports : Stmt → String → Prop where
  | letDecl {span : Span} {name : Ident} {type? : Option TypeExpr} {init? : Option Expr}
      {uniqueName? : Option String} :
      Exports (.letDecl span name type? init? uniqueName?) (uniqueName?.getD name.name)
  | function {span : Span} {name : Ident} {params : List Param}
      {returnType? effect? : Option TypeExpr} {body : Block} {uniqueName? : Option String} :
      Exports (.function span name params returnType? effect? body uniqueName?)
        (uniqueName?.getD name.name)
  | classDecl {span : Span} {decl : ClassDecl} : Exports (.classDecl span decl) decl.emittedName
  | foreignDecl {span : Span} {decl : ForeignDecl}
      (h : decl.uniqueName?.getD decl.name.name ≠ decl.target) :
      Exports (.foreignDecl span decl) (decl.uniqueName?.getD decl.name.name)

theorem Stmt.exportName?_eq_some_iff {s : Stmt} {name : String} :
    s.exportName? = some name ↔ s.Exports name := by
  constructor
  · intro h
    cases s with
    | letDecl | function | classDecl =>
      obtain rfl := Option.some.inj h
      constructor
    | foreignDecl span decl =>
      dsimp only [exportName?] at h
      split at h
      · cases h
      · next hne =>
        obtain rfl := Option.some.inj h
        exact .foreignDecl hne
    | _ => cases h
  · rintro (_ | _ | _ | hne)
    · rfl
    · rfl
    · rfl
    · exact if_neg hne

/-- The name `first` is exported by a statement before any statement exports `second`. -/
def ExportedBefore (stmts : List Stmt) (first second : String) : Prop :=
  ∃ before s after, stmts = before ++ s :: after ∧ s.Exports first ∧
    ∀ t ∈ before ++ [s], ¬ t.Exports second

/-- The names are those that the program exports, each once, in the order in which they are first
    declared. -/
structure Program.ExportsInOrder (program : Program) (names : List String) : Prop where
  nodup : names.Nodup
  mem_iff : ∀ name, name ∈ names ↔ ∃ s ∈ program.stmts, s.Exports name
  ordered : names.Pairwise (ExportedBefore program.stmts)

namespace Ordered

theorem distinct_concat (names : List String) (name : String) :
    distinct (names ++ [name]) = addName (distinct names) name := by
  rw [distinct, List.foldl_append]
  rfl

/-- A list without repetitions keeps the order in which its names first came. -/
theorem pairwise_distinct (names : List String) :
    (distinct names).Pairwise fun a b => ∃ before after, names = before ++ a :: after ∧
      b ∉ before ++ [a] := by
  -- The names come one by one at the end, so the induction takes the last one away.
  induction names using List.reverseRecOn with
  | nil => exact .nil
  | append_singleton names name ih =>
    have hkept := ih.imp fun {a b} h => by
      obtain ⟨before, after, hnames, hb⟩ := h
      have hlonger : names ++ [name] = before ++ a :: (after ++ [name]) := by simp [hnames]
      exact (⟨before, after ++ [name], hlonger, hb⟩ :
        ∃ before after, names ++ [name] = before ++ a :: after ∧ b ∉ before ++ [a])
    rw [distinct_concat, addName]
    split
    · exact hkept
    · next hnew =>
      refine List.pairwise_append.mpr ⟨hkept, List.pairwise_singleton _ _, ?_⟩
      intro a ha b hb
      obtain rfl := List.mem_singleton.mp hb
      have hb : b ∉ names := fun hin => hnew (List.contains_iff_mem.mpr (mem_distinct.mpr hin))
      obtain ⟨before, after, rfl⟩ := List.append_of_mem (mem_distinct.mp ha)
      refine ⟨before, after ++ [b], by simp, fun hin => hb ?_⟩
      rw [List.append_cons]
      exact List.mem_append_left after hin

end Ordered

theorem exportedBefore_of_filterMap {stmts : List Stmt} {before after : List String}
    {first second : String}
    (h : stmts.filterMap Stmt.exportName? = before ++ first :: after)
    (hsecond : second ∉ before ++ [first]) : ExportedBefore stmts first second := by
  obtain ⟨stmtsBefore, rest, rfl, hbefore, hrest⟩ := List.filterMap_eq_append_iff.mp h
  obtain ⟨silent, s, stmtsAfter, rfl, hsilent, hs, -⟩ := List.filterMap_eq_cons_iff.mp hrest
  refine ⟨stmtsBefore ++ silent, s, stmtsAfter, by simp, Stmt.exportName?_eq_some_iff.mp hs, ?_⟩
  intro t ht hexports
  have hname := Stmt.exportName?_eq_some_iff.mpr hexports
  rw [List.append_assoc, List.mem_append, List.mem_append] at ht
  rcases ht with ht | ht | ht
  · refine hsecond (List.mem_append_left _ ?_)
    rw [← hbefore]
    exact List.mem_filterMap.mpr ⟨t, ht, hname⟩
  · rw [hsilent t ht] at hname
    cases hname
  · rw [List.mem_singleton.mp ht, hs] at hname
    obtain rfl := Option.some.inj hname
    exact hsecond (List.mem_append_right _ (List.mem_singleton_self _))

/-- The names that the program exports, each where it first comes. -/
def Program.exports (program : Program) : List String :=
  Ordered.distinct (program.stmts.filterMap Stmt.exportName?)

theorem Program.exportsInOrder (program : Program) : program.ExportsInOrder program.exports where
  nodup := Ordered.nodup_distinct _
  mem_iff name := by
    simp only [exports, Ordered.mem_distinct, List.mem_filterMap, Stmt.exportName?_eq_some_iff]
  ordered := (Ordered.pairwise_distinct _).imp fun {a b} h => by
    obtain ⟨before, after, hnames, hb⟩ := h
    exact exportedBefore_of_filterMap hnames hb

/-! ### The text of a script -/

/-- The statements of the program that are not left out. -/
def Program.written (optimize : Bool) (program : Program) : List Stmt :=
  program.stmts.filter fun s => !(optimize && s.isInert)

/-- What is written for a statement of the program. -/
def Program.chunk (optimize : Bool) (program : Program) (s : Stmt) : String :=
  Script.Row.code (s.rows ⟨0, none, declaredClasses program.stmts, optimize⟩)

namespace Script

open Text (concat joinWith)

/-- The line with the file and the line of a statement. -/
def remarkLine (files : List String) (s : Stmt) : String :=
  "// " ++ files.getD s.span.file "<input>" ++ ":" ++ toString s.span.line ++ "\n"

/-- The line that exports the names, if there are any. -/
def exportLine : List String → String
  | [] => ""
  | names => "export \x7b " ++ joinWith ", " names ++ " \x7d;\n"

/-- What stands behind the last statement: only a module exports its names. -/
def exportText : Format → List String → String
  | .plain, _ => ""
  | .module, names => exportLine names

theorem code_append (rows rows' : List Row) :
    Row.code (rows ++ rows') = Row.code rows ++ Row.code rows' := by
  rw [← String.toList_inj, String.toList_append, Row.toList_code_append]

theorem code_flatMap (stmts : List Stmt) (rows : Stmt → List Row) :
    Row.code (stmts.flatMap rows) = concat (stmts.map fun s => Row.code (rows s)) := by
  induction stmts with
  | nil => rfl
  | cons s rest ih =>
    rw [List.flatMap_cons, code_append, ih, List.map_cons]
    simp [← String.toList_inj]

/-- A single row that is not indented. -/
theorem code_line (text : String) : Row.code [⟨0, text, none⟩] = text ++ "\n" := by
  rw [← String.toList_inj, String.toList_append, Row.toList_code_cons]
  rfl

theorem code_exportRows (options : Options) (program : Program) :
    Row.code (exportRows options program.stmts) = exportText options.format program.exports := by
  unfold exportRows Program.exports
  cases options.format with
  | plain => rfl
  | module =>
    cases Ordered.distinct (program.stmts.filterMap Stmt.exportName?) with
    | nil => rfl
    | cons name names =>
      rw [exportText, exportLine, code_line]
      · simp [← String.toList_inj]
      · exact List.cons_ne_nil name names

/-- The rows of the statements are those of the statements that are not left out, each behind its
    remark. -/
theorem flatMap_topLevelRows (options : Options) (files : List String) (ctx : Context)
    (stmts : List Stmt) :
    stmts.flatMap (topLevelRows options files ctx) =
      (stmts.filter fun s => !(options.optimize && s.isInert)).flatMap fun s =>
        (if options.debug then [banner files s] else []) ++ s.rows ctx := by
  induction stmts with
  | nil => rfl
  | cons s rest ih =>
    rw [List.flatMap_cons, ih, topLevelRows, List.filter_cons]
    cases options.optimize && s.isInert <;> rfl

/-- The text of a script: a chunk for each statement that is not left out, behind its remark if
    remarks are asked for, and the exports if they are asked for. -/
theorem generate_code (options : Options) (files : List String) (program : Program) :
    (generate options files program).code =
      concat ((program.written options.optimize).map fun s =>
        (if options.debug then remarkLine files s else "") ++ program.chunk options.optimize s) ++
      exportText options.format program.exports := by
  have hcode : (generate options files program).code =
      Row.code (programRows options files program) := by
    unfold generate
    cases options.mapFile? <;> rfl
  have hremark : ∀ s, Row.code (if options.debug then [banner files s] else []) =
      if options.debug then remarkLine files s else "" := by
    intro s
    cases options.debug
    · rfl
    · exact code_line _
  rw [hcode, programRows, code_append, code_exportRows, flatMap_topLevelRows, code_flatMap]
  simp only [code_append, hremark]
  rfl

/-! ### Optimization -/

theorem exportName?_of_isInert {s : Stmt} (h : s.isInert = true) : s.exportName? = none := by
  cases s with
  | namespaceDecl | usingDecl => rfl
  | _ => cases h

/-- Pruning changes neither the place of a statement nor what it declares. -/
theorem heading_pruned (s : Stmt) :
    s.pruned.span = s.span ∧ s.pruned.isInert = s.isInert ∧
      s.pruned.exportName? = s.exportName? := by
  cases s with
  | letDecl span name type? init? unique? => cases init? <;> exact ⟨rfl, rfl, rfl⟩
  | classDecl span decl =>
    cases decl
    exact ⟨rfl, rfl, rfl⟩
  | ret span value? => cases value? <;> exact ⟨rfl, rfl, rfl⟩
  | _ => exact ⟨rfl, rfl, rfl⟩

theorem filterMap_exportName?_pruned (stmts : List Stmt) :
    (prunedStmts stmts).filterMap Stmt.exportName? = stmts.filterMap Stmt.exportName? := by
  induction stmts with
  | nil => rfl
  | cons s rest ih =>
    rw [prunedStmts]
    split
    · next hinert => rw [List.filterMap_cons, exportName?_of_isInert hinert, ih]
    · rw [List.filterMap_cons, List.filterMap_cons, (heading_pruned s).2.2, ih]

/-- The rows of statements in an optimized script are those that are written without optimization
    for the statements that remain. -/
theorem flatMap_topLevelRows_pruned (options : Options) (files : List String) {ctx : Context}
    (hctx : ctx.optimize = true) (stmts : List Stmt) :
    (prunedStmts stmts).flatMap
        (topLevelRows { options with optimize := false } files ctx.unoptimized) =
      stmts.flatMap (topLevelRows { options with optimize := true } files ctx) := by
  induction stmts with
  | nil => rfl
  | cons s rest ih =>
    rw [prunedStmts, List.flatMap_cons]
    cases hinert : s.isInert with
    | true => simpa [topLevelRows, hinert] using ih
    | false =>
      have hrows := s.rows_pruned hctx (Bool.not_eq_true _ ▸ hinert)
      have hbanner : banner files s.pruned = banner files s := by
        rw [banner, banner, (heading_pruned s).1]
      simp [topLevelRows, hinert, hrows, hbanner, ih]

theorem programRows_optimize (options : Options) (files : List String) (program : Program) :
    programRows { options with optimize := true } files program =
      programRows { options with optimize := false } files program.pruned := by
  have hexports : exportRows { options with optimize := false } (prunedStmts program.stmts) =
      exportRows { options with optimize := true } program.stmts := by
    rw [exportRows, exportRows, filterMap_exportName?_pruned]
  have hrows := flatMap_topLevelRows_pruned options files
    (rfl : Context.optimize ⟨0, none, declaredClasses program.stmts, true⟩ = true) program.stmts
  rw [programRows, programRows, Program.pruned, declaredClasses_pruned, hexports, ← hrows]
  rfl

/-! ### The options one by one -/

/-- What each option does to the script of a program with the given exports, whatever the other
    options are. -/
structure OptionsAddText (options : Options) (files : List String) (program : Program)
    (exports : List String) : Prop where
  inOrder : program.ExportsInOrder exports
  /-- The optimized script and its source map are those of the program without inert statements. -/
  optimized : generate { options with optimize := true } files program =
    generate { options with optimize := false } files program.pruned
  unremarked : (generate { options with debug := false } files program).code =
    concat ((program.written options.optimize).map (program.chunk options.optimize)) ++
      exportText options.format exports
  /-- Remarks stand before the chunks, and change neither the chunks nor the exports. -/
  remarked : (generate { options with debug := true } files program).code =
    concat ((program.written options.optimize).map fun s =>
      remarkLine files s ++ program.chunk options.optimize s) ++ exportText options.format exports
  /-- A module is the plain script, with its exports at the end. -/
  exported : (generate { options with format := .module } files program).code =
    (generate { options with format := .plain } files program).code ++ exportLine exports
  /-- A source map changes nothing in the text. -/
  mapped : ∀ mapFile? : Option String,
    (generate { options with mapFile? } files program).code = (generate options files program).code

/-- Each option of a script adds or leaves out only the text that it is for. -/
theorem generate_optionsAddText (options : Options) (files : List String) (program : Program) :
    OptionsAddText options files program program.exports where
  inOrder := program.exportsInOrder
  optimized := by
    rw [generate, generate, programRows_optimize]
  unremarked := by
    rw [generate_code]
    simp
  remarked := by
    rw [generate_code]
    rfl
  exported := by
    rw [generate_code, generate_code, exportText, exportText, String.append_empty]
  mapped mapFile? := by
    rw [generate_code, generate_code]

end Script

end ScriptCompiler
