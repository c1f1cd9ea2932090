import Mathlib.Data.List.ReduceOption
import ScriptCompiler.Proofs.Findings
import ScriptCompiler.Proofs.LinkPlan
import ScriptCompiler.Proofs.MainNamespaces

/-!
# The namespace table as the image of the declarations

The top-level statements of all files, in the order of the files, contribute to namespaces: a
namespace declaration enters one, and a declaration of a name registers the name in one. The table
holds what they contribute and nothing else. Of several marks and of several files the first counts
for the order, of several declarations of a name the last one is kept, and each that takes the place
of another one is reported together with that one.
-/

namespace ScriptCompiler

/-! ### Contributions -/

/-- A declaration of `name` in the namespace `path`. -/
structure Declaration where
  path : String
  file : String
  kind : EntryKind
  name : String
  span : Span
deriving DecidableEq, Repr

namespace Declaration

/-- The entry of a declaration in the namespace table. -/
def entry (d : Declaration) : Entry :=
  ⟨d.kind, d.name, uniqueName d.path d.name, d.file, d.span⟩

/-- The declaration is one of `name` in the namespace `path`. -/
def isOf (path name : String) (d : Declaration) : Bool :=
  d.path = path ∧ d.name = name

/-- The warning about a declaration that takes the place of `previous`. -/
def warning (d previous : Declaration) : Diagnostic :=
  ⟨.warning, d.kind.text ++ " '" ++ d.name ++ "' redeclares " ++ previous.kind.text ++ " from '"
    ++ previous.file ++ "'", d.span.line, d.span.column, d.file⟩

end Declaration

/-- What a statement does to a namespace. -/
inductive Contribution where
  | enters (path file : String) (isMain : Bool)
  | declares (d : Declaration)
deriving DecidableEq, Repr

namespace Contribution

def path : Contribution → String
  | .enters path .. => path
  | .declares d => d.path

def file : Contribution → String
  | .enters _ file _ => file
  | .declares d => d.file

/-- The namespace is marked as the main one of its file. -/
def marksMain : Contribution → Bool
  | .enters _ _ isMain => isMain
  | .declares _ => false

def declaration? : Contribution → Option Declaration
  | .enters .. => none
  | .declares d => some d

end Contribution

def declarations (cs : List Contribution) : List Declaration :=
  cs.filterMap Contribution.declaration?

/-- What a statement of `file` contributes where the namespace `active` is active. -/
def Stmt.contribution? (file active : String) : Stmt → Option Contribution
  | .namespaceDecl _ decl => some (.enters decl.cleanName file decl.isMain)
  | s => s.declared?.map fun declared =>
    .declares ⟨active, file, declared.1, declared.2.name, declared.2.span⟩

/-- The contributions of a file. Each declaration belongs to the namespace that the statements before
    it leave active. -/
def ParsedFile.contributions (file : ParsedFile) : List Contribution :=
  (file.program.stmts.mapIdx fun i s =>
    s.contribution? file.name (activeNamespace (file.program.stmts.take i))).reduceOption

/-! ### The image of contributions -/

/-- The namespace holds what the contributions with the path `path` give it. -/
structure Namespace.Holds (space : Namespace) (path : String) (cs : List Contribution) : Prop where
  /-- The files that contribute, in the order of their first contributions. -/
  files : space.files = ((cs.filter (·.path = path)).map Contribution.file).eraseDups
  /-- The first file that marks the namespace as its main one. -/
  mainFile : space.mainFile? =
    ((cs.filter (·.path = path)).find? Contribution.marksMain).map Contribution.file
  /-- The declared names, in the order of their first declarations. -/
  names : space.entries.map Prod.fst =
    (((declarations cs).filter (·.path = path)).map Declaration.name).eraseDups
  /-- The last declaration of each name. -/
  entries : ∀ name, space.entries.lookup name =
    ((declarations cs).filter (Declaration.isOf path name)).getLast?.map Declaration.entry

/-- The table holds what the contributions give it. -/
structure NamespaceTable.Holds (table : NamespaceTable) (cs : List Contribution) : Prop where
  /-- The namespaces that are contributed to, in the order of their first contributions. -/
  paths : table.namespaces.map Prod.fst = (cs.map Contribution.path).eraseDups
  /-- What each of them holds. -/
  spaces : ∀ path space, table.get? path = some space → space.Holds path cs

/-- The declarations that are not the first ones of their names in their namespaces, each with the
    one that comes last before it. -/
def redeclarations (ds : List Declaration) : List (Declaration × Declaration) :=
  (ds.mapIdx fun i d => ((ds.take i).filter (Declaration.isOf d.path d.name)).getLast?.map
    fun previous => (previous, d)).reduceOption

instance : DecidablePred Finding.IsRedeclaration
  | .redeclared .. => .isTrue trivial
  | .unparsable .. | .cycle .. | .duplicateMain .. | .namespaceMissing .. | .mainMissing ..
  | .manyMains .. | .awaitingConstructor .. | .implicitMemberCall .. | .qualifiedReference .. =>
    .isFalse id

/-! ### One more element -/

namespace Ordered

theorem addName_eraseDups (names : List String) (name : String) :
    addName names.eraseDups name = (names ++ [name]).eraseDups := by
  rw [List.eraseDups_append, addName]
  by_cases hmem : name ∈ names
  · rw [if_pos (List.contains_iff_mem.mpr (List.mem_eraseDups.mpr hmem))]
    simp [List.removeAll, hmem]
  · have hnot : ¬ names.eraseDups.contains name :=
      fun h => hmem (List.mem_eraseDups.mp (List.contains_iff_mem.mp h))
    rw [if_neg hnot]
    simp [List.removeAll, hmem, List.eraseDups_cons]

theorem map_fst_insert {α : Type} (key : String) (value : α) (table : List (String × α)) :
    (insert key value table).map Prod.fst = addName (table.map Prod.fst) key := by
  induction table with
  | nil => rfl
  | cons entry rest ih =>
    rw [insert]
    by_cases hkey : entry.1 = key
    · simp [hkey, addName]
    · rw [if_neg hkey, List.map_cons, ih, List.map_cons, addName, addName]
      have hcontains : (entry.1 :: rest.map Prod.fst).contains key =
          (rest.map Prod.fst).contains key := by
        simp [Ne.symm hkey]
      rw [hcontains]
      split <;> rfl

theorem insert_insert {α : Type} (key : String) (first second : α) (table : List (String × α)) :
    insert key second (insert key first table) = insert key second table := by
  induction table with
  | nil => simp [insert]
  | cons entry rest ih =>
    by_cases hkey : entry.1 = key
    · simp [insert, hkey]
    · simp [insert, hkey, ih]

end Ordered

theorem declarations_concat (cs : List Contribution) (c : Contribution) :
    declarations (cs ++ [c]) = declarations cs ++ c.declaration?.toList := by
  rw [declarations, List.filterMap_append]
  cases hd : c.declaration? <;> simp [hd, declarations]

theorem redeclarations_concat (ds : List Declaration) (d : Declaration) :
    redeclarations (ds ++ [d]) = redeclarations ds ++
      ((ds.filter (Declaration.isOf d.path d.name)).getLast?.map fun previous =>
        (previous, d)).toList := by
  rw [redeclarations, List.mapIdx_concat, List.reduceOption_append, List.reduceOption_singleton,
    List.take_left, redeclarations]
  congr 2
  refine List.ext_getElem? fun i => ?_
  rw [List.getElem?_mapIdx, List.getElem?_mapIdx]
  cases hd : ds[i]? with
  | none => rfl
  | some other =>
    have hlt : i < ds.length := (List.getElem?_eq_some_iff.mp hd).1
    rw [Option.map_some, Option.map_some, List.take_append_of_le_length (Nat.le_of_lt hlt)]

theorem Contribution.path_of_declaration? {c : Contribution} {d : Declaration}
    (h : c.declaration? = some d) : d.path = c.path ∧ d.file = c.file := by
  cases c with
  | enters => cases h
  | declares other =>
    obtain rfl := Option.some.inj h
    exact ⟨rfl, rfl⟩

theorem path_of_mem_declarations {cs : List Contribution} {d : Declaration}
    (h : d ∈ declarations cs) : ∃ c ∈ cs, c.path = d.path := by
  obtain ⟨c, hc, hd⟩ := List.mem_filterMap.mp h
  exact ⟨c, hc, (Contribution.path_of_declaration? hd).1.symm⟩

/-- Declarations in other namespaces do not count. -/
theorem filter_eq_nil_of_path {ds : List Declaration} {path : String}
    (h : ∀ d ∈ ds, d.path ≠ path) :
    ds.filter (·.path = path) = [] ∧ ∀ name, ds.filter (Declaration.isOf path name) = [] := by
  refine ⟨List.filter_eq_nil_iff.mpr fun d hd => ?_, fun name =>
    List.filter_eq_nil_iff.mpr fun d hd => ?_⟩
  · simpa using h d hd
  · simp [Declaration.isOf, h d hd]

/-! ### One more contribution -/

/-- The namespace with one more contribution. -/
def Namespace.contribute (space : Namespace) (c : Contribution) : Namespace where
  entries := c.declaration?.elim space.entries fun d => Ordered.insert d.name d.entry space.entries
  files := Ordered.addName space.files c.file
  mainFile? := space.mainFile?.or (if c.marksMain then some c.file else none)

namespace Namespace

variable {space : Namespace} {path : String} {cs : List Contribution} {c : Contribution}

/-- Nothing is held where nothing is contributed. -/
theorem holds_empty (h : ∀ c ∈ cs, c.path ≠ path) : Namespace.empty.Holds path cs := by
  have hnone : cs.filter (·.path = path) = [] :=
    List.filter_eq_nil_iff.mpr fun c hc => by simpa using h c hc
  have hdeclared : ∀ d ∈ declarations cs, d.path ≠ path := by
    intro d hd
    obtain ⟨c, hc, hpath⟩ := path_of_mem_declarations hd
    exact hpath ▸ h c hc
  obtain ⟨hnames, hentries⟩ := filter_eq_nil_of_path hdeclared
  exact ⟨by rw [hnone]; rfl, by rw [hnone]; rfl, by rw [hnames]; rfl,
    fun name => by rw [hentries]; rfl⟩

/-- A contribution to another namespace changes nothing. -/
theorem Holds.frame (h : space.Holds path cs) (hc : c.path ≠ path) :
    space.Holds path (cs ++ [c]) := by
  have hnone : [c].filter (·.path = path) = [] := by simp [hc]
  have hdeclared : ∀ d ∈ c.declaration?.toList, d.path ≠ path := by
    intro d hd
    rw [(Contribution.path_of_declaration? (Option.mem_toList.mp hd)).1]
    exact hc
  obtain ⟨hnames, hentries⟩ := filter_eq_nil_of_path hdeclared
  refine ⟨?_, ?_, ?_, fun name => ?_⟩
  · rw [List.filter_append, hnone, List.append_nil, h.files]
  · rw [List.filter_append, hnone, List.append_nil, h.mainFile]
  · rw [declarations_concat, List.filter_append, hnames, List.append_nil, h.names]
  · rw [declarations_concat, List.filter_append, hentries, List.append_nil, h.entries]

/-- A contribution to the namespace joins what it holds. -/
theorem Holds.contribute (h : space.Holds path cs) (hc : c.path = path) :
    (space.contribute c).Holds path (cs ++ [c]) := by
  have hown : (cs ++ [c]).filter (·.path = path) = cs.filter (·.path = path) ++ [c] := by
    rw [List.filter_append]
    simp [hc]
  refine ⟨?_, ?_, ?_, fun name => ?_⟩
  · rw [hown, List.map_append, List.map_singleton, ← Ordered.addName_eraseDups, ← h.files]
    rfl
  · rw [hown, List.find?_append, Option.map_or, ← h.mainFile]
    simp only [Namespace.contribute, List.find?_singleton]
    cases c.marksMain <;> rfl
  · rw [declarations_concat, List.filter_append, List.map_append]
    cases hd : c.declaration? with
    | none =>
      simpa [Namespace.contribute, hd] using h.names
    | some d =>
      have hpath : d.path = path := (Contribution.path_of_declaration? hd).1.trans hc
      simp only [Namespace.contribute, hd, Option.elim_some, Ordered.map_fst_insert, h.names]
      rw [Ordered.addName_eraseDups]
      simp [hpath]
  · rw [declarations_concat, List.filter_append, List.getLast?_append, Option.map_or, ← h.entries]
    cases hd : c.declaration? with
    | none => simp [Namespace.contribute, hd]
    | some d =>
      have hpath : d.path = path := (Contribution.path_of_declaration? hd).1.trans hc
      simp only [Namespace.contribute, hd, Option.elim_some]
      by_cases hname : d.name = name
      · simp [Declaration.isOf, hpath, hname]
      · rw [Ordered.lookup_insert_of_ne _ _ (Ne.symm hname)]
        simp [Declaration.isOf, hname]

end Namespace

namespace NamespaceTable

theorem modify_modify (table : NamespaceTable) (path : String) (f g : Namespace → Namespace) :
    (table.modify path f).modify path g = table.modify path fun space => g (f space) := by
  have hget : (table.modify path f).get? path =
      some (f ((table.get? path).getD Namespace.empty)) := by
    rw [get?_modify, if_pos rfl]
  rw [modify, hget]
  exact congrArg NamespaceTable.mk (Ordered.insert_insert ..)

/-! ### The operations of the table -/

theorem declare_eq (table : NamespaceTable) (path file : String) :
    table.declare path file =
      table.modify path fun space => space.contribute (.enters path file false) := by
  refine congrArg (table.modify path) (funext fun space => ?_)
  simp [Namespace.contribute, Contribution.declaration?, Contribution.file, Contribution.marksMain]

theorem markMain_eq (table : NamespaceTable) (path file : String) :
    table.markMain path file =
      table.modify path fun space => space.contribute (.enters path file true) := by
  rw [markMain, declare, modify_modify]
  refine congrArg (table.modify path) (funext fun space => ?_)
  cases hmain : space.mainFile? <;>
    simp [Namespace.contribute, Contribution.declaration?, Contribution.file,
      Contribution.marksMain, hmain]

theorem define_eq (table : NamespaceTable) (d : Declaration) :
    table.define d.path d.entry =
      table.modify d.path fun space => space.contribute (.declares d) := by
  rw [define, declare, modify_modify]
  refine congrArg (table.modify d.path) (funext fun space => ?_)
  simp [Namespace.contribute, Contribution.declaration?, Contribution.file, Contribution.marksMain,
    Declaration.entry]

namespace Holds

variable {table : NamespaceTable} {cs : List Contribution}

/-- A namespace is there exactly if something is contributed to it. -/
theorem isSome_get?_iff (h : table.Holds cs) {path : String} :
    (table.get? path).isSome ↔ ∃ c ∈ cs, c.path = path := by
  rw [← List.mem_map, ← List.mem_eraseDups, ← h.paths, get?, List.lookup_isSome_iff, List.mem_map]
  refine exists_congr fun entry => and_congr_right fun _ => ?_
  rw [beq_iff_eq, eq_comm]

/-- The namespace of a path, which is empty where nothing is contributed. -/
theorem getD_holds (h : table.Holds cs) (path : String) :
    ((table.get? path).getD Namespace.empty).Holds path cs := by
  cases hspace : table.get? path with
  | some space => exact h.spaces path space hspace
  | none =>
    refine Namespace.holds_empty fun c hc hpath => ?_
    have hsome := h.isSome_get?_iff.mpr ⟨c, hc, hpath⟩
    rw [hspace] at hsome
    cases hsome

/-- A name is looked up to its last declaration. -/
theorem lookup (h : table.Holds cs) (path name : String) : table.lookup path name =
    ((declarations cs).filter (Declaration.isOf path name)).getLast?.map Declaration.entry := by
  rw [← (h.getD_holds path).entries name, NamespaceTable.lookup]
  cases table.get? path <;> rfl

/-- A contribution joins the namespace of its path. -/
theorem contribute (h : table.Holds cs) (c : Contribution) :
    (table.modify c.path fun space => space.contribute c).Holds (cs ++ [c]) := by
  refine ⟨?_, fun path space hspace => ?_⟩
  · rw [List.map_append, List.map_singleton, ← Ordered.addName_eraseDups, ← h.paths]
    exact Ordered.map_fst_insert ..
  · rw [get?_modify] at hspace
    split at hspace
    · next hpath =>
      obtain rfl := Option.some.inj hspace
      exact hpath ▸ (h.getD_holds c.path).contribute rfl
    · next hpath => exact (h.spaces path space hspace).frame fun heq => hpath heq.symm

end Holds

end NamespaceTable

/-! ### A run over contributions -/

/-- The namespace table, and what was reported about declarations that take the place of others. -/
structure Registry where
  table : NamespaceTable
  redeclared : List Finding

namespace Registry

def empty : Registry := ⟨.empty, []⟩

/-- The registry with one more contribution. -/
def record (r : Registry) (c : Contribution) : Registry where
  table := r.table.modify c.path fun space => space.contribute c
  redeclared := r.redeclared ++ (c.declaration?.bind fun d => (r.table.lookup d.path d.name).map
    (Finding.redeclared d.file d.span d.kind d.name)).toList

/-- The finding about a declaration that takes the place of another one. -/
def finding (pair : Declaration × Declaration) : Finding :=
  .redeclared pair.2.file pair.2.span pair.2.kind pair.2.name pair.1.entry

/-- The registry is that of the contributions. -/
structure Records (r : Registry) (cs : List Contribution) : Prop where
  table : r.table.Holds cs
  redeclared : r.redeclared = (redeclarations (declarations cs)).map finding

theorem records_empty : empty.Records [] :=
  ⟨⟨rfl, fun _ _ h => by cases h⟩, rfl⟩

theorem Records.record {r : Registry} {cs : List Contribution} (h : r.Records cs)
    (c : Contribution) : (r.record c).Records (cs ++ [c]) := by
  refine ⟨h.table.contribute c, ?_⟩
  rw [declarations_concat, Registry.record, h.redeclared]
  cases hd : c.declaration? with
  | none => simp
  | some d =>
    rw [Option.toList_some, redeclarations_concat, List.map_append, Option.bind_some, h.table.lookup]
    cases ((declarations cs).filter (Declaration.isOf d.path d.name)).getLast? <;> rfl

/-- What a run over contributions comes to. -/
theorem records_run (cs : List Contribution) : (cs.foldl record empty).Records cs := by
  induction cs using List.reverseRecOn with
  | nil => exact records_empty
  | append_singleton cs c ih =>
    rw [List.foldl_append]
    exact ih.record c

end Registry

/-! ### Collecting -/

def Placed.contribution? (p : Placed) : Option Contribution :=
  p.stmt.contribution? p.file p.path

def Collected.registry (c : Collected) : Registry :=
  ⟨c.table, c.findings.filter (·.IsRedeclaration)⟩

theorem Stmt.contribution?_withUniqueName (file : String) (before : List Stmt) (s : Stmt) :
    (s.withUniqueName (activeNamespace (before ++ [s]))).contribution? file
      (activeNamespace (before ++ [s])) = s.contribution? file (activeNamespace before) := by
  cases s with
  | namespaceDecl | usingDecl | ifElse | whileLoop | untilLoop | ret | block | expr => rfl
  | foreignDecl | letDecl | function | classDecl => rw [activeNamespace_concat rfl]; rfl

/-- The contributions of a file are those of its placed statements. -/
theorem filterMap_contribution?_placed (file : ParsedFile) :
    file.placed.filterMap Placed.contribution? = file.contributions := by
  have hmap : file.placed.map Placed.contribution? = file.program.stmts.mapIdx fun i s =>
      s.contribution? file.name (activeNamespace (file.program.stmts.take i)) := by
    refine List.ext_getElem? fun i => ?_
    rw [List.getElem?_map, getElem?_placed, List.getElem?_mapIdx, Option.map_map]
    cases hs : file.program.stmts[i]? with
    | none => rfl
    | some s =>
      have htake : file.program.stmts.take (i + 1) = file.program.stmts.take i ++ [s] := by
        rw [List.take_add_one, hs]
        rfl
      show some (Stmt.contribution? _ _ (s.withUniqueName _)) = _
      rw [htake, Stmt.contribution?_withUniqueName]
      rfl
  rw [ParsedFile.contributions, ← hmap, List.reduceOption, List.filterMap_map]
  rfl

theorem filter_isRedeclaration_eq_nil {findings : List Finding}
    (h : ∀ f ∈ findings, ¬ f.IsRedeclaration) : findings.filter (·.IsRedeclaration) = [] :=
  List.filter_eq_nil_iff.mpr fun f hf => by simpa using h f hf

namespace Collected

theorem filter_duplicateMain (file path : String) (span : Span) (first? : Option String) :
    (first?.map (Finding.duplicateMain file span path)).toList.filter (·.IsRedeclaration) =
      [] := by
  cases first? <;> rfl

theorem filter_redeclared (file name : String) (span : Span) (kind : EntryKind)
    (previous? : Option Entry) :
    (previous?.map (Finding.redeclared file span kind name)).toList.filter
      (·.IsRedeclaration) = (previous?.map (Finding.redeclared file span kind name)).toList := by
  cases previous? <;> rfl

theorem registry_enter (c : Collected) (file : String) (span : Span) (decl : NamespaceDecl) :
    (c.enter .standard file span decl).registry =
      c.registry.record (.enters decl.cleanName file decl.isMain) := by
  have hnone : ∀ isMain, (Contribution.enters decl.cleanName file isMain).declaration? = none :=
    fun _ => rfl
  rw [enter]
  cases hmain : decl.isMain with
  | true =>
    simp [registry, Registry.record, hnone, NamespaceTable.markMain_eq, Mode.enforce,
      filter_duplicateMain, Contribution.path]
  | false =>
    simp [registry, Registry.record, hnone, NamespaceTable.declare_eq, Contribution.path]

theorem registry_register (c : Collected) (file path : String) (kind : EntryKind) (name : Ident) :
    (c.register file path kind name).registry =
      c.registry.record (.declares ⟨path, file, kind, name.name, name.span⟩) := by
  have hdefine := NamespaceTable.define_eq c.table ⟨path, file, kind, name.name, name.span⟩
  simp only [register, registry, Registry.record, Contribution.declaration?, List.filter_append,
    filter_redeclared, Option.bind_some, Contribution.path]
  exact congrArg (Registry.mk · _) hdefine

/-- A statement is collected as its contribution is recorded. -/
theorem registry_add (c : Collected) (p : Placed) :
    (c.add .standard p).registry = p.contribution?.elim c.registry c.registry.record := by
  obtain ⟨stmt, file, active⟩ := p
  cases stmt with
  | namespaceDecl span decl => exact registry_enter c file span decl
  | foreignDecl | letDecl | function | classDecl => exact registry_register c file active _ _
  | _ => rfl

theorem registry_foldl_add (c : Collected) (ps : List Placed) :
    (ps.foldl (add .standard) c).registry =
      (ps.filterMap Placed.contribution?).foldl Registry.record c.registry := by
  induction ps generalizing c with
  | nil => rfl
  | cons p rest ih =>
    rw [List.foldl_cons, ih, registry_add, List.filterMap_cons]
    cases p.contribution? <;> rfl

/-- The rule on main namespaces is about no declaration. -/
theorem registry_addFile (c : Collected) (file : ParsedFile) :
    (c.addFile .standard file.name file.program.stmts).registry =
      file.contributions.foldl Registry.record c.registry := by
  have hmain : (mainFinding? file.name file.program.stmts).toList.filter (·.IsRedeclaration) = [] :=
    filter_isRedeclaration_eq_nil fun f hf => by
      have habout := isMainRule_of_mainFinding? (Option.mem_toList.mp hf)
      cases f with
      | redeclared => cases habout
      | _ => exact id
  rw [← filterMap_contribution?_placed, ← registry_foldl_add]
  refine congrArg (Registry.mk _) ?_
  show (_ ++ _ : List Finding).filter _ = _
  rw [List.filter_append, Mode.enforce, hmain, List.append_nil]
  rfl

end Collected

theorem registry_collect (files : List ParsedFile) :
    (collect .standard files).registry.Records (files.flatMap ParsedFile.contributions) := by
  have hrun : ∀ c : Collected,
      (files.foldl (fun c file => c.addFile .standard file.name file.program.stmts) c).registry =
        (files.flatMap ParsedFile.contributions).foldl Registry.record c.registry := by
    induction files with
    | nil => exact fun _ => rfl
    | cons file rest ih =>
      intro c
      rw [List.foldl_cons, ih, Collected.registry_addFile, List.flatMap_cons, List.foldl_append]
  rw [collect, hrun]
  exact Registry.records_run _

/-! ### Linking -/

theorem not_isRedeclaration_of_mem_check {c : Collected} {p : Placed} {f : Finding}
    (hf : f ∈ c.check p) : ¬ f.IsRedeclaration := by
  intro hre
  have hplain : ¬ f.IsReference := by
    cases f with
    | redeclared => exact id
    | _ => exact hre.elim
  obtain ⟨part, _, hown⟩ := (Occurrence.mem_check_iff (o := Occurrence.top p.stmt) hplain).mp hf
  rcases Occurrence.ownFindings_cases hown with ⟨_, _, rfl⟩ | ⟨_, _, _, rfl⟩
  · exact hre
  · exact hre

/-- No rules are about declarations of the same name. -/
theorem filter_isRedeclaration_under (rules : Rules) (findings : List Finding) :
    (findings.filterMap (Finding.under rules)).filter (·.IsRedeclaration) =
      findings.filter (·.IsRedeclaration) := by
  rw [List.filter_filterMap, ← List.filterMap_eq_filter]
  refine List.filterMap_congr fun f _ => ?_
  obtain ⟨mode, policy⟩ := rules
  cases f with
  | implicitMemberCall => cases policy <;> rfl
  | _ => cases mode <;> rfl

/-- Declarations of the same name are found while the files are collected, and nowhere else. -/
theorem filter_findings_link (rules : Rules) {sources : Sources} {parsed : List ParsedFile}
    {failures : List Finding} (h : parseFiles sources = .ok (parsed, failures)) :
    (failures ++ (survey sources.names parsed).2.filterMap (Finding.under rules)).filter
        (·.IsRedeclaration) =
      (collect .standard
        (inOrder (Graph.ofFiles parsed).order.order parsed)).registry.redeclared := by
  have hfailures : failures.filter (·.IsRedeclaration) = [] := by
    refine filter_isRedeclaration_eq_nil fun f hf => ?_
    rw [(parseFiles_eq_ok h).2] at hf
    obtain ⟨reading, _, hfinding⟩ := List.mem_filterMap.mp hf
    cases reading with
    | unparsable =>
      obtain rfl := Option.some.inj hfinding
      exact id
    | _ => cases hfinding
  have hcycles : ((Graph.ofFiles parsed).order.cycles.map Finding.cycle).filter
      (·.IsRedeclaration) = [] := by
    refine filter_isRedeclaration_eq_nil fun f hf => ?_
    obtain ⟨_, _, rfl⟩ := List.mem_map.mp hf
    exact id
  have hchecks : ∀ (c : Collected) (placed : List Placed),
      (placed.flatMap c.check).filter (·.IsRedeclaration) = [] := by
    refine fun c placed => filter_isRedeclaration_eq_nil fun f hf => ?_
    obtain ⟨_, _, hcheck⟩ := List.mem_flatMap.mp hf
    exact not_isRedeclaration_of_mem_check hcheck
  rw [List.filter_append, filter_isRedeclaration_under]
  simp only [survey, List.filter_append, hfailures, hcycles, hchecks, List.nil_append,
    List.append_nil]
  rfl

/-- Whatever sources are linked, the namespace table holds what the top-level statements of all files
    that can be parsed contribute in the order of the files, and the warnings about names that are
    declared again are those of the declarations that take the place of others. -/
theorem link_table_image {rules : Rules} {sources : Sources} {linked : Linked}
    {findings : List Finding} (h : link rules sources = .ok (linked, findings)) :
    linked.order.Nodup ∧ ∃ files : List ParsedFile, files.map ParsedFile.name = linked.order ∧
      (∀ file, file ∈ files ↔ ParsedFrom sources file) ∧
      linked.table.Holds (files.flatMap ParsedFile.contributions) ∧
      (findings.filter (·.IsRedeclaration)).map Finding.diagnostic? =
        (redeclarations (declarations (files.flatMap ParsedFile.contributions))).map fun pair =>
          some (pair.2.warning pair.1) := by
  obtain ⟨parsed, failures, hparse, rfl, rfl⟩ := link_eq_ok_iff.mp h
  have hnodup := (parseFiles_cases hparse).nodup
  have horder := (Graph.order_sound (Graph.ofFiles_wellFormed hnodup)).2
  rw [Graph.files_ofFiles] at horder
  have hrecords := registry_collect (inOrder (Graph.ofFiles parsed).order.order parsed)
  refine ⟨horder.nodup_iff.mpr hnodup, inOrder (Graph.ofFiles parsed).order.order parsed, ?_, ?_,
    hrecords.table, ?_⟩
  · exact map_name_inOrder fun name hname => horder.mem_iff.mp hname
  · intro file
    rw [(inOrder_perm hnodup).mem_iff, mem_parsed_iff hparse]
  · rw [filter_findings_link rules hparse, hrecords.redeclared, List.map_map]
    rfl

/-- Two files that share two namespaces. Both declare the same names there, and the second one, which
    the first one imports, marks two namespaces. -/
def sharedSources : Sources :=
  (Sources.empty.insert "a.tn"
    "using b; namespace! a; let x = 1; micro x() {} namespace shared; let s = 1;").insert "b.tn"
    "class top {} namespace shared; class s {} let r = 1; namespace! b; namespace! a; let x = 2;"

/-- The files and the main file of a namespace, and the kinds and files of its names. -/
structure Overview where
  path : String
  files : List String
  mainFile? : Option String
  names : List (String × EntryKind × String)
deriving DecidableEq, Repr

def NamespaceTable.overviews (table : NamespaceTable) : List Overview :=
  table.namespaces.map fun space => ⟨space.1, space.2.files, space.2.mainFile?,
    space.2.entries.map fun entry => (entry.1, entry.2.kind, entry.2.file)⟩

/-- Names keep the places of their first declarations, and the last ones count. -/
theorem link_sharedSources :
    ∃ linked findings, link .strict sharedSources = .ok (linked, findings) ∧
      linked.order = ["b.tn", "a.tn"] ∧
      linked.table.overviews =
        [⟨"", ["b.tn"], none, [("top", .classType, "b.tn")]⟩,
          ⟨"shared", ["b.tn", "a.tn"], none, [("s", .value, "a.tn"), ("r", .value, "b.tn")]⟩,
          ⟨"b", ["b.tn"], some "b.tn", []⟩,
          ⟨"a", ["b.tn", "a.tn"], some "b.tn", [("x", .function, "a.tn")]⟩] ∧
      (findings.filter (·.IsRedeclaration)).map Finding.message =
        ["variable 'x' redeclares variable from 'b.tn'",
          "function 'x' redeclares variable from 'a.tn'",
          "variable 's' redeclares class from 'b.tn'"] ∧
      linked.order.Nodup ∧ ∃ files : List ParsedFile, files.map ParsedFile.name = linked.order ∧
        (∀ file, file ∈ files ↔ ParsedFrom sharedSources file) ∧
        linked.table.Holds (files.flatMap ParsedFile.contributions) ∧
        (findings.filter (·.IsRedeclaration)).map Finding.diagnostic? =
          (redeclarations (declarations (files.flatMap ParsedFile.contributions))).map fun pair =>
            some (pair.2.warning pair.1) := by
  have hvalue : (link .strict sharedSources).toOption.map (fun result =>
      (result.1.order, result.1.table.overviews,
        (result.2.filter (·.IsRedeclaration)).map Finding.message)) =
      some (["b.tn", "a.tn"],
        [⟨"", ["b.tn"], none, [("top", .classType, "b.tn")]⟩,
          ⟨"shared", ["b.tn", "a.tn"], none, [("s", .value, "a.tn"), ("r", .value, "b.tn")]⟩,
          ⟨"b", ["b.tn"], some "b.tn", []⟩,
          ⟨"a", ["b.tn", "a.tn"], some "b.tn", [("x", .function, "a.tn")]⟩],
        ["variable 'x' redeclares variable from 'b.tn'",
          "function 'x' redeclares variable from 'a.tn'",
          "variable 's' redeclares class from 'b.tn'"]) := by
    decide +kernel
  obtain ⟨linked, findings, hlink, hview⟩ := exists_link_of_map hvalue
  obtain ⟨horder, hrest⟩ := Prod.mk.inj hview
  obtain ⟨htable, hwarnings⟩ := Prod.mk.inj hrest
  exact ⟨linked, findings, hlink, horder, htable, hwarnings, link_table_image hlink⟩

end ScriptCompiler
