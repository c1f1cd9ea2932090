import ScriptCompiler.Link.Program
import ScriptCompiler.Proofs.RelocatedTrees

/-!
# Linking programs at other places

Linking orders the files, registers their declarations and resolves their names without looking at
places. So moved programs link to the moved result: the same order, the same program, the same
tables and the same findings, all at the moved places.
-/

namespace ScriptCompiler

variable {f : Span → Span}

/-! ### Tables -/

namespace Ordered

variable {α β : Type}

theorem lookup_map (m : α → β) (key : String) (table : List (String × α)) :
    (table.map (Prod.map id m)).lookup key = (table.lookup key).map m := by
  induction table with
  | nil => rfl
  | cons entry rest ih =>
    obtain ⟨name, value⟩ := entry
    by_cases hkey : key == name
    · simp [List.lookup_cons, hkey]
    · simp [List.lookup_cons, hkey, ih]

theorem insert_map (m : α → β) (key : String) (value : α) (table : List (String × α)) :
    insert key (m value) (table.map (Prod.map id m)) =
      (insert key value table).map (Prod.map id m) := by
  induction table with
  | nil => rfl
  | cons entry rest ih =>
    obtain ⟨name, old⟩ := entry
    by_cases hkey : name = key
    · simp [insert, hkey]
    · simp [insert, hkey, ih]

end Ordered

/-- A namespace whose declarations stand at other places. -/
def Namespace.relocate (f : Span → Span) (space : Namespace) : Namespace :=
  { space with entries := space.entries.map (Prod.map id (Entry.relocate f)) }

/-- Namespaces whose declarations stand at other places. -/
def NamespaceTable.relocate (f : Span → Span) (table : NamespaceTable) : NamespaceTable :=
  ⟨table.namespaces.map (Prod.map id (Namespace.relocate f))⟩

namespace NamespaceTable

variable (table : NamespaceTable)

theorem get?_relocate (path : String) :
    (table.relocate f).get? path = (table.get? path).map (Namespace.relocate f) :=
  Ordered.lookup_map _ path table.namespaces

theorem lookup_relocate (path name : String) :
    (table.relocate f).lookup path name = (table.lookup path name).map (Entry.relocate f) := by
  rw [lookup, lookup, get?_relocate]
  cases table.get? path with
  | none => rfl
  | some space => exact Ordered.lookup_map _ name space.entries

theorem mainFile?_relocate (path : String) :
    (table.relocate f).mainFile? path = table.mainFile? path := by
  rw [mainFile?, mainFile?, get?_relocate]
  cases table.get? path <;> rfl

theorem modify_relocate {change change' : Namespace → Namespace}
    (h : ∀ space, change' (space.relocate f) = (change space).relocate f) (path : String) :
    (table.relocate f).modify path change' = (table.modify path change).relocate f := by
  have hspace : ((table.relocate f).get? path).getD .empty =
      ((table.get? path).getD .empty).relocate f := by
    rw [get?_relocate]
    cases table.get? path <;> rfl
  rw [modify, hspace, h]
  exact congrArg NamespaceTable.mk (Ordered.insert_map _ path _ table.namespaces)

theorem declare_relocate (path file : String) :
    (table.relocate f).declare path file = (table.declare path file).relocate f := by
  rw [declare, declare]
  refine table.modify_relocate (fun space => ?_) path
  rfl

theorem markMain_relocate (path file : String) :
    (table.relocate f).markMain path file = (table.markMain path file).relocate f := by
  rw [markMain, markMain, declare_relocate]
  refine modify_relocate _ (fun space => ?_) path
  rfl

theorem define_relocate (path : String) (entry : Entry) :
    (table.relocate f).define path (entry.relocate f) = (table.define path entry).relocate f := by
  rw [define, define, show (entry.relocate f).file = entry.file from rfl, declare_relocate]
  refine modify_relocate _ (fun space => ?_) path
  exact congrArg (fun entries => (⟨entries, space.files, space.mainFile?⟩ : Namespace))
    (Ordered.insert_map _ entry.name entry space.entries)

end NamespaceTable

def Import.relocate (f : Span → Span) (entry : Import) : Import :=
  { entry with span := f entry.span }

def ImportTable.relocate (f : Span → Span) (table : ImportTable) : ImportTable :=
  ⟨table.files.map (Prod.map id (List.map (Import.relocate f)))⟩

namespace ImportTable

variable (table : ImportTable)

theorem imports_relocate (file : String) :
    (table.relocate f).imports file = (table.imports file).map (Import.relocate f) := by
  rw [imports, imports, relocate, Ordered.lookup_map]
  cases table.files.lookup file <;> rfl

theorem record_relocate (file : String) (entry : Import) :
    (table.relocate f).record file (entry.relocate f) = (table.record file entry).relocate f := by
  rw [record, imports_relocate, show (table.imports file).map (Import.relocate f) ++
    [entry.relocate f] = (table.imports file ++ [entry]).map (Import.relocate f) by simp]
  exact congrArg ImportTable.mk (Ordered.insert_map _ file _ table.files)

theorem globals_relocate : (table.relocate f).globals = table.globals := by
  have htargets : ∀ entries : List Import,
      ((entries.map (Import.relocate f)).filter Import.isGlobal).map Import.target =
        (entries.filter Import.isGlobal).map Import.target := by
    intro entries
    rw [List.filter_map, List.map_map]
    rfl
  have hfiles : (table.relocate f).files.flatMap Prod.snd =
      (table.files.flatMap Prod.snd).map (Import.relocate f) := by
    rw [relocate, List.flatMap_map, List.map_flatMap]
    rfl
  rw [globals, hfiles, htargets, globals]

theorem searchPath_relocate (file : String) :
    (table.relocate f).searchPath file = table.searchPath file := by
  rw [searchPath, searchPath, globals_relocate, imports_relocate, List.filter_map, List.map_map]
  rfl

end ImportTable

/-! ### Dependencies -/

def ParsedFile.relocate (f : Span → Span) (file : ParsedFile) : ParsedFile :=
  { file with program := file.program.relocate f }

namespace ParsedFile

variable (file : ParsedFile)

theorem declared_relocate : (file.relocate f).declared = file.declared := by
  show (file.program.stmts.map (Stmt.relocate f)).filterMap _ = _
  rw [List.filterMap_map]
  refine List.filterMap_congr fun s _ => ?_
  cases s with
  | namespaceDecl span decl => exact congrArg some (decl.cleanName_relocate f)
  | _ => rfl

theorem imports_relocate :
    (file.relocate f).imports = file.imports.map (UsingDecl.relocate f) := by
  show (file.program.stmts.map (Stmt.relocate f)).filterMap _ = _
  rw [List.filterMap_map, imports, List.map_filterMap]
  refine List.filterMap_congr fun s _ => ?_
  cases s <;> rfl

end ParsedFile

namespace Graph

theorem targets_relocate (imports : List UsingDecl) :
    (imports.map (UsingDecl.relocate f)).map UsingDecl.target = imports.map UsingDecl.target := by
  rw [List.map_map]
  exact List.map_congr_left fun decl _ => decl.target_relocate f

theorem providers_relocate (files : List ParsedFile) :
    providers (files.map (ParsedFile.relocate f)) = providers files := by
  rw [providers, List.flatMap_map]
  refine List.flatMap_congr fun file _ => ?_
  rw [file.declared_relocate]
  rfl

theorem globalTargets_relocate (files : List ParsedFile) :
    globalTargets (files.map (ParsedFile.relocate f)) = globalTargets files := by
  have himports : (files.map (ParsedFile.relocate f)).flatMap ParsedFile.imports =
      (files.flatMap ParsedFile.imports).map (UsingDecl.relocate f) := by
    rw [List.flatMap_map, List.map_flatMap]
    exact List.flatMap_congr fun file _ => file.imports_relocate
  have hglobal : UsingDecl.isGlobal ∘ UsingDecl.relocate f = UsingDecl.isGlobal := rfl
  rw [globalTargets, himports, List.filter_map, hglobal, targets_relocate, globalTargets]

theorem dependenciesOf_relocate (files : List ParsedFile) (file : ParsedFile) :
    dependenciesOf (files.map (ParsedFile.relocate f)) (file.relocate f) =
      dependenciesOf files file := by
  rw [dependenciesOf, file.imports_relocate, targets_relocate, globalTargets_relocate,
    providers_relocate]
  rfl

/-- Moved files depend on each other as the files themselves do. -/
theorem ofFiles_relocate (files : List ParsedFile) :
    ofFiles (files.map (ParsedFile.relocate f)) = ofFiles files := by
  refine congrArg Graph.mk ?_
  rw [List.map_map]
  exact List.map_congr_left fun file _ =>
    congrArg (Prod.mk file.name) (dependenciesOf_relocate files file)

end Graph

theorem inOrder_relocate (order : List String) (files : List ParsedFile) :
    inOrder order (files.map (ParsedFile.relocate f)) =
      (inOrder order files).map (ParsedFile.relocate f) := by
  rw [inOrder, inOrder, List.map_filterMap]
  refine List.filterMap_congr fun name _ => ?_
  rw [List.find?_map]
  rfl

/-! ### Placed statements -/

def Placed.relocate (f : Span → Span) (p : Placed) : Placed :=
  { p with stmt := p.stmt.relocate f }

namespace Stmt

theorem withUniqueName_relocate (path : String) (s : Stmt) :
    (s.relocate f).withUniqueName path = (s.withUniqueName path).relocate f := by
  cases s with
  | classDecl span decl =>
    cases decl
    rfl
  | _ => rfl

theorem activePath_relocate (active : String) (s : Stmt) :
    (s.relocate f).activePath active = s.activePath active := by
  cases s with
  | namespaceDecl span decl => exact decl.cleanName_relocate f
  | _ => rfl

theorem stage_relocate (s : Stmt) : (s.relocate f).stage = s.stage := by
  cases s <;> rfl

theorem declared?_relocate (s : Stmt) :
    (s.relocate f).declared? = s.declared?.map (Prod.map id (Ident.relocate f)) := by
  cases s with
  | classDecl span decl =>
    cases decl
    rfl
  | _ => rfl

end Stmt

theorem placeStmts_relocate (file active : String) (stmts : List Stmt) :
    placeStmts file active (stmts.map (Stmt.relocate f)) =
      (placeStmts file active stmts).map (Placed.relocate f) := by
  induction stmts generalizing active with
  | nil => rfl
  | cons s rest ih =>
    rw [List.map_cons, placeStmts, placeStmts, s.activePath_relocate, s.withUniqueName_relocate, ih]
    rfl

theorem arrange_relocate (placed : List Placed) :
    arrange (placed.map (Placed.relocate f)) = (arrange placed).map (Placed.relocate f) := by
  rw [arrange, arrange, List.map_flatMap]
  refine List.flatMap_congr fun stage _ => ?_
  rw [List.filter_map]
  refine congrArg (List.map _) (List.filter_congr fun p _ => ?_)
  show ((p.stmt.relocate f).stage == stage) = _
  rw [p.stmt.stage_relocate]

theorem placeFiles_relocate (files : List ParsedFile) :
    placeFiles (files.map (ParsedFile.relocate f)) =
      (placeFiles files).map (Placed.relocate f) := by
  rw [placeFiles, placeFiles, ← arrange_relocate, List.flatMap_map, List.map_flatMap]
  refine congrArg arrange (List.flatMap_congr fun file _ => ?_)
  exact placeStmts_relocate file.name "" file.program.stmts

/-! ### Collected declarations -/

def Collected.relocate (f : Span → Span) (c : Collected) : Collected :=
  ⟨c.table.relocate f, c.imports.relocate f, c.findings.map (Finding.relocate f)⟩

namespace Collected

variable (c : Collected)

theorem enter_relocate (file : String) (span : Span) (decl : NamespaceDecl) :
    (c.relocate f).enter .standard file (f span) (decl.relocate f) =
      (c.enter .standard file span decl).relocate f := by
  have hmain : (decl.relocate f).isMain = decl.isMain := rfl
  have hmark : (c.relocate f).table.mainFile? decl.cleanName = c.table.mainFile? decl.cleanName :=
    c.table.mainFile?_relocate decl.cleanName
  rw [enter, enter, decl.cleanName_relocate, hmain]
  split
  · rw [hmark]
    unfold relocate
    rw [c.table.markMain_relocate]
    simp [Mode.enforce, Finding.relocate, Option.toList_map, Function.comp_def]
  · unfold relocate
    rw [c.table.declare_relocate]

theorem register_relocate (file path : String) (kind : EntryKind) (name : Ident) :
    (c.relocate f).register file path kind (name.relocate f) =
      (c.register file path kind name).relocate f := by
  have hentry : (⟨kind, (name.relocate f).name, uniqueName path (name.relocate f).name, file,
      (name.relocate f).span⟩ : Entry) =
        Entry.relocate f ⟨kind, name.name, uniqueName path name.name, file, name.span⟩ := rfl
  rw [register, register, hentry]
  unfold relocate
  rw [c.table.define_relocate, c.table.lookup_relocate]
  simp [Finding.relocate, Option.toList_map, Function.comp_def]

theorem add_relocate (p : Placed) :
    (c.relocate f).add .standard (p.relocate f) = (c.add .standard p).relocate f := by
  obtain ⟨s, file, path⟩ := p
  cases s with
  | namespaceDecl span decl => exact c.enter_relocate file span decl
  | usingDecl span decl =>
    have hentry : (⟨(decl.relocate f).target, (decl.relocate f).isGlobal, f span⟩ : Import) =
        Import.relocate f ⟨decl.target, decl.isGlobal, span⟩ := by
      rw [decl.target_relocate]
      rfl
    show ({ c.relocate f with imports := (c.imports.relocate f).record file _ } : Collected) = _
    rw [hentry, c.imports.record_relocate]
    rfl
  | foreignDecl span decl => exact c.register_relocate file path .foreign decl.name
  | letDecl span name => exact c.register_relocate file path .value name
  | function span name => exact c.register_relocate file path .function name
  | classDecl span decl =>
    cases decl
    exact c.register_relocate file path .classType _
  | _ => rfl

theorem foldl_add_relocate (placed : List Placed) :
    (placed.map (Placed.relocate f)).foldl (add .standard) (c.relocate f) =
      (placed.foldl (add .standard) c).relocate f := by
  induction placed generalizing c with
  | nil => rfl
  | cons p rest ih => rw [List.map_cons, List.foldl_cons, add_relocate, ih, List.foldl_cons]

end Collected

theorem mainFinding?_relocate (file : String) (stmts : List Stmt) :
    mainFinding? file (stmts.map (Stmt.relocate f)) =
      (mainFinding? file stmts).map (Finding.relocate f) := by
  have hdecls : namespaceDecls (stmts.map (Stmt.relocate f)) =
      (namespaceDecls stmts).map (NamespaceDecl.relocate f) := by
    rw [namespaceDecls, namespaceDecls, List.filterMap_map, List.map_filterMap]
    refine List.filterMap_congr fun s _ => ?_
    cases s <;> rfl
  rw [mainFinding?, mainFinding?, hdecls]
  cases namespaceDecls stmts with
  | nil => rfl
  | cons decl rest =>
    have hmains : ((decl :: rest).map (NamespaceDecl.relocate f)).filter NamespaceDecl.isMain =
        ((decl :: rest).filter NamespaceDecl.isMain).map (NamespaceDecl.relocate f) := by
      rw [List.filter_map]
      rfl
    simp only [List.map_cons] at hmains ⊢
    rw [hmains]
    rcases (decl :: rest).filter NamespaceDecl.isMain with _ | ⟨first, _ | ⟨second, more⟩⟩ <;> rfl

theorem Collected.addFile_relocate (c : Collected) (file : String) (stmts : List Stmt) :
    (c.relocate f).addFile .standard file (stmts.map (Stmt.relocate f)) =
      (c.addFile .standard file stmts).relocate f := by
  rw [addFile, addFile, placeStmts_relocate, foldl_add_relocate, mainFinding?_relocate]
  simp [Mode.enforce, relocate, Option.toList_map]

/-- What moved files declare, they declare at the moved places. -/
theorem collect_relocate (files : List ParsedFile) :
    collect .standard (files.map (ParsedFile.relocate f)) =
      (collect .standard files).relocate f := by
  have hfold : ∀ c : Collected,
      (files.map (ParsedFile.relocate f)).foldl
          (fun c file => c.addFile .standard file.name file.program.stmts) (c.relocate f) =
        (files.foldl
          (fun c file => c.addFile .standard file.name file.program.stmts) c).relocate f := by
    induction files with
    | nil => exact fun c => rfl
    | cons file rest ih =>
      intro c
      rw [List.map_cons, List.foldl_cons, List.foldl_cons, ← ih, ← c.addFile_relocate]
      rfl
  exact hfold .empty

/-! ### Linked programs -/

def Linked.relocate (f : Span → Span) (linked : Linked) : Linked :=
  { linked with
    program := linked.program.relocate f
    table := linked.table.relocate f
    imports := linked.imports.relocate f }

namespace Collected

variable (c : Collected) (p : Placed)

theorem agrees_environment_relocate :
    (c.environment p).Agrees ((c.relocate f).environment (p.relocate f)) := by
  have hsearch : ((c.relocate f).environment (p.relocate f)).search = (c.environment p).search :=
    c.imports.searchPath_relocate p.file
  have hlookup : ∀ path name, ((c.relocate f).environment (p.relocate f)).table.lookup path name =
      ((c.environment p).table.lookup path name).map (Entry.relocate f) :=
    c.table.lookup_relocate
  have hentry : ∀ name, Environment.entry? ((c.relocate f).environment (p.relocate f)) name =
      (Environment.entry? (c.environment p) name).map (Entry.relocate f) := by
    intro name
    unfold Environment.entry? Environment.candidates
    rw [hsearch]
    split
    · exact hlookup _ _
    · simp only [hlookup]
      exact List.map_findSome?.symm
  intro locals name
  unfold Environment.resolve?
  rw [hentry, Option.map_map]
  rfl

theorem resolve_relocate :
    (c.relocate f).resolve (p.relocate f) = (c.resolve p).relocate f :=
  p.stmt.resolve_relocate (c.agrees_environment_relocate p) []

theorem check_relocate :
    (c.relocate f).check (p.relocate f) = (c.check p).map (Finding.relocate f) :=
  Occurrence.check_relocate (c.agrees_environment_relocate p) (.top p.stmt)

end Collected

/-- Moved files link to the moved result. -/
theorem survey_relocate (names : List String) (files : List ParsedFile) :
    survey names (files.map (ParsedFile.relocate f)) =
      (survey names files).map (Linked.relocate f) (List.map (Finding.relocate f)) := by
  have hresolve : ∀ (c : Collected) (placed : List Placed),
      (placed.map (Placed.relocate f)).map (c.relocate f).resolve =
        (placed.map c.resolve).map (Stmt.relocate f) := by
    intro c placed
    rw [List.map_map, List.map_map]
    exact List.map_congr_left fun p _ => c.resolve_relocate p
  have hcheck : ∀ (c : Collected) (placed : List Placed),
      (placed.map (Placed.relocate f)).flatMap (c.relocate f).check =
        (placed.flatMap c.check).map (Finding.relocate f) := by
    intro c placed
    rw [List.flatMap_map, List.map_flatMap]
    exact List.flatMap_congr fun p _ => c.check_relocate p
  have hcycles : ∀ cycles : List (List String),
      (cycles.map Finding.cycle).map (Finding.relocate f) = cycles.map Finding.cycle := by
    intro cycles
    rw [List.map_map]
    rfl
  simp only [survey, Graph.ofFiles_relocate, inOrder_relocate, collect_relocate,
    placeFiles_relocate, hresolve, hcheck, Prod.map, List.map_append, hcycles]
  rfl

/-! ### Diagnostics -/

namespace Finding

variable (finding : Finding)

theorem severity?_relocate : (finding.relocate f).severity? = finding.severity? := by
  cases finding <;> rfl

theorem under_relocate (rules : Rules) :
    (finding.relocate f).under rules = (finding.under rules).map (Finding.relocate f) := by
  obtain ⟨mode, policy⟩ := rules
  cases finding with
  | implicitMemberCall => cases policy <;> rfl
  | _ => cases mode <;> rfl

theorem message_relocate : (finding.relocate f).message = finding.message := by
  cases finding <;> rfl

theorem file_relocate : (finding.relocate f).file = finding.file := by
  cases finding <;> rfl

theorem span?_relocate : (finding.relocate f).span? = finding.span?.map f := by
  cases finding <;> rfl

end Finding

/-- The rules do not look at places. -/
theorem filterMap_under_relocate (rules : Rules) (findings : List Finding) :
    (findings.map (Finding.relocate f)).filterMap (Finding.under rules) =
      (findings.filterMap (Finding.under rules)).map (Finding.relocate f) := by
  rw [List.filterMap_map, List.map_filterMap]
  exact List.filterMap_congr fun finding _ => finding.under_relocate rules

/-- Diagnostics tell the name of a file and not its number. -/
theorem Diagnostics.ofFindings_renumber (number : Nat → Nat) (findings : List Finding) :
    ofFindings (findings.map (Finding.relocate (Span.renumber number))) = ofFindings findings := by
  rw [ofFindings, ofFindings, List.filterMap_map]
  refine congrArg ofList (List.filterMap_congr fun finding _ => ?_)
  show (finding.relocate _).diagnostic? = _
  unfold Finding.diagnostic?
  rw [finding.severity?_relocate, finding.message_relocate, finding.file_relocate,
    finding.span?_relocate]
  cases finding.span? <;> rfl

end ScriptCompiler
