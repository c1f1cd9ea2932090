import Mathlib.Data.List.Induction
import Mathlib.Data.List.Nodup
import ScriptCompiler.Link.Program

/-!
# What the tables of a compilation hold

The tables are filled statement by statement. A name is looked up to its last declaration in a
namespace, a namespace is the main one of the first file that marks it, and the imports of a file
are its import declarations in their order.
-/

namespace ScriptCompiler

namespace NamespaceTable

theorem get?_modify (table : NamespaceTable) (path other : String) (f : Namespace → Namespace) :
    (table.modify path f).get? other =
      if other = path then some (f ((table.get? path).getD Namespace.empty))
      else table.get? other := by
  unfold modify get?
  split
  · rename_i h
    rw [h, Ordered.lookup_insert_self]
  · rename_i h
    rw [Ordered.lookup_insert_of_ne _ _ h]

/-- A change that keeps the declarations of a namespace keeps all declarations. -/
theorem lookup_modify_of_entries (table : NamespaceTable) (path other name : String)
    {f : Namespace → Namespace} (h : ∀ space, (f space).entries = space.entries) :
    (table.modify path f).lookup other name = table.lookup other name := by
  unfold lookup
  rw [get?_modify]
  split
  · rename_i heq
    subst heq
    cases hfound : table.get? other with
    | none => simp [h, Namespace.empty]
    | some space => simp [h]
  · rfl

/-- A change that keeps the mark of a namespace keeps all marks. -/
theorem mainFile?_modify_of_mark (table : NamespaceTable) (path other : String)
    {f : Namespace → Namespace} (h : ∀ space, (f space).mainFile? = space.mainFile?) :
    (table.modify path f).mainFile? other = table.mainFile? other := by
  unfold mainFile?
  rw [get?_modify]
  split
  · rename_i heq
    subst heq
    cases hfound : table.get? other with
    | none => simp [h, Namespace.empty]
    | some space => simp [h]
  · rfl

@[simp] theorem lookup_declare (table : NamespaceTable) (path file other name : String) :
    (table.declare path file).lookup other name = table.lookup other name :=
  lookup_modify_of_entries _ _ _ _ fun _ => rfl

@[simp] theorem mainFile?_declare (table : NamespaceTable) (path file other : String) :
    (table.declare path file).mainFile? other = table.mainFile? other :=
  mainFile?_modify_of_mark _ _ _ fun _ => rfl

@[simp] theorem lookup_markMain (table : NamespaceTable) (path file other name : String) :
    (table.markMain path file).lookup other name = table.lookup other name := by
  rw [markMain, lookup_modify_of_entries, lookup_declare]
  intro space
  rfl

@[simp] theorem mainFile?_define (table : NamespaceTable) (path other : String) (entry : Entry) :
    (table.define path entry).mainFile? other = table.mainFile? other := by
  rw [define, mainFile?_modify_of_mark, mainFile?_declare]
  intro space
  rfl

theorem mainFile?_markMain (table : NamespaceTable) (path file other : String) :
    (table.markMain path file).mainFile? other =
      (table.mainFile? other).or (if other = path then some file else none) := by
  rw [markMain, mainFile?, get?_modify]
  split
  · rename_i h
    subst h
    have hmark := mainFile?_declare table other file other
    unfold mainFile? at hmark ⊢
    rw [← hmark]
    cases (table.declare other file).get? other with
    | none => simp [Namespace.empty]
    | some space => cases hspace : space.mainFile? <;> simp [hspace]
  · rw [Option.or_none]
    exact mainFile?_declare table path file other

/-- A declaration takes the place of an earlier one of its name. -/
theorem lookup_define (table : NamespaceTable) (path other name : String) (entry : Entry) :
    (table.define path entry).lookup other name =
      if other = path ∧ name = entry.name then some entry else table.lookup other name := by
  have hbefore := lookup_declare table path entry.file other name
  unfold define
  by_cases hpath : other = path
  · subst hpath
    unfold lookup at hbefore ⊢
    rw [get?_modify, if_pos rfl, ← hbefore]
    by_cases hname : name = entry.name
    · subst hname
      simp
    · simp only [Option.bind_some, hname, and_false, if_false]
      rw [Ordered.lookup_insert_of_ne _ _ hname]
      cases (table.declare other entry.file).get? other <;> simp [Namespace.empty]
  · rw [if_neg fun h => hpath h.1, ← hbefore]
    unfold lookup
    rw [get?_modify, if_neg hpath]

end NamespaceTable

namespace Placed

/-- The entry that a statement makes for `name` in the namespace `path`. -/
def registered? (path name : String) (p : Placed) : Option Entry :=
  p.stmt.declared?.bind fun (kind, ident) =>
    if path = p.path ∧ name = ident.name then
      some ⟨kind, ident.name, uniqueName p.path ident.name, p.file, ident.span⟩
    else none

/-- The namespace that a statement marks as the main one of its file. -/
def main? (p : Placed) : Option String :=
  match p.stmt with
  | .namespaceDecl _ decl => if decl.isMain then some decl.cleanName else none
  | _ => none

def import? (p : Placed) : Option Import :=
  match p.stmt with
  | .usingDecl span decl => some ⟨decl.target, decl.isGlobal, span⟩
  | _ => none

end Placed

namespace Collected

theorem lookup_add (c : Collected) (p : Placed) (path name : String) :
    (c.add .standard p).table.lookup path name =
      (p.registered? path name).or (c.table.lookup path name) := by
  obtain ⟨stmt, file, active⟩ := p
  cases stmt with
  | namespaceDecl span decl =>
    simp only [add, enter, Placed.registered?, Stmt.declared?, Option.bind_none, Option.none_or]
    split <;> simp
  | foreignDecl | letDecl | function | classDecl =>
    simp only [add, Stmt.declared?, register, NamespaceTable.lookup_define, Placed.registered?,
      Option.bind_some]
    split <;> simp
  | _ => simp [add, Stmt.declared?, Placed.registered?]

/-- A namespace has a main file if it had one or the statement marks it. -/
theorem mainFile?_add_eq_none (c : Collected) (p : Placed) (path : String) :
    (c.add .standard p).table.mainFile? path = none ↔
      c.table.mainFile? path = none ∧ p.main? ≠ some path := by
  obtain ⟨stmt, file, active⟩ := p
  cases stmt with
  | namespaceDecl span decl =>
    simp only [add, enter, Placed.main?]
    split
    · rw [NamespaceTable.mainFile?_markMain, Option.or_eq_none_iff]
      simp [eq_comm]
    · simp
  | _ => simp [add, Stmt.declared?, register, Placed.main?]

theorem lookup_foldl_add (ps : List Placed) (c : Collected) (path name : String) :
    (ps.foldl (add .standard) c).table.lookup path name =
      (ps.reverse.findSome? (Placed.registered? path name)).or (c.table.lookup path name) := by
  induction ps generalizing c with
  | nil => simp
  | cons p rest ih =>
    rw [List.foldl_cons, ih, lookup_add, List.reverse_cons, List.findSome?_append, Option.or_assoc]
    simp

end Collected

/-- The statements of a file with their namespaces, in the order of the text. -/
def ParsedFile.placed (file : ParsedFile) : List Placed :=
  placeStmts file.name "" file.program.stmts

/-- The statements of files with their namespaces, in the order of the text. -/
def placedOf (files : List ParsedFile) : List Placed :=
  files.flatMap ParsedFile.placed

theorem placedOf_cons (file : ParsedFile) (rest : List ParsedFile) :
    placedOf (file :: rest) = file.placed ++ placedOf rest :=
  List.flatMap_cons

theorem table_addFile (c : Collected) (file : ParsedFile) :
    (c.addFile .standard file.name file.program.stmts).table =
      (file.placed.foldl (Collected.add .standard) c).table :=
  rfl

theorem imports_addFile (c : Collected) (file : ParsedFile) :
    (c.addFile .standard file.name file.program.stmts).imports =
      (file.placed.foldl (Collected.add .standard) c).imports :=
  rfl

theorem lookup_foldl_addFile (files : List ParsedFile) (c : Collected) (path name : String) :
    (files.foldl (fun c file => c.addFile .standard file.name file.program.stmts) c).table.lookup
        path name =
      ((placedOf files).reverse.findSome? (Placed.registered? path name)).or
        (c.table.lookup path name) := by
  induction files generalizing c with
  | nil => simp [placedOf]
  | cons file rest ih =>
    rw [List.foldl_cons, ih, table_addFile, Collected.lookup_foldl_add, placedOf_cons,
      List.reverse_append, List.findSome?_append, Option.or_assoc]

/-- The declaration of a name in a namespace is its last one. -/
theorem lookup_collect (files : List ParsedFile) (path name : String) :
    (collect .standard files).table.lookup path name =
      (placedOf files).reverse.findSome? (Placed.registered? path name) := by
  rw [collect, lookup_foldl_addFile]
  exact Option.or_none

namespace ImportTable

/-- The imports of files, those without imports left out. -/
def ofImports (files : List (String × List Import)) : List (String × List Import) :=
  files.filter fun entry => !entry.2.isEmpty

theorem ofImports_append (before : List (String × List Import)) (file : String)
    (entries : List Import) :
    ofImports (before ++ [(file, entries)]) =
      ofImports before ++ if entries = [] then [] else [(file, entries)] := by
  unfold ofImports
  cases entries <;> simp

theorem notMem_keys_ofImports {before : List (String × List Import)} {file : String}
    (h : file ∉ before.map Prod.fst) : file ∉ (ofImports before).map Prod.fst := by
  intro hin
  obtain ⟨entry, hentry, rfl⟩ := List.mem_map.mp hin
  exact h (List.mem_map_of_mem (List.mem_filter.mp hentry).1)

theorem insert_append {file : String} {entries : List Import}
    {before after : List (String × List Import)} (h : file ∉ before.map Prod.fst) :
    Ordered.insert file entries (before ++ after) = before ++ Ordered.insert file entries after := by
  induction before with
  | nil => rfl
  | cons entry rest ih =>
    rw [List.map_cons, List.mem_cons, not_or] at h
    rw [List.cons_append, Ordered.insert, if_neg fun heq => h.1 heq.symm, ih h.2, List.cons_append]

theorem lookup_append_of_notMem {file : String} {before after : List (String × List Import)}
    (h : file ∉ before.map Prod.fst) : (before ++ after).lookup file = after.lookup file := by
  have hnone : before.lookup file = none := by
    refine List.lookup_eq_none_iff.mpr fun entry hentry => ?_
    exact bne_iff_ne.mpr fun heq => h (heq ▸ List.mem_map_of_mem hentry)
  rw [List.lookup_append, hnone, Option.none_or]

/-- An import of the last file joins the imports of that file. -/
theorem record_last {table : ImportTable} {before : List (String × List Import)} {file : String}
    {entries : List Import} (h : file ∉ before.map Prod.fst)
    (htable : table.files = ofImports (before ++ [(file, entries)])) (entry : Import) :
    (table.record file entry).files = ofImports (before ++ [(file, entries ++ [entry])]) := by
  rw [ofImports_append] at htable ⊢
  have hkeys := notMem_keys_ofImports h
  unfold record imports
  rw [htable, insert_append hkeys, lookup_append_of_notMem hkeys]
  cases entries <;> simp [Ordered.insert]

end ImportTable

def ParsedFile.importEntries (file : ParsedFile) : List Import :=
  file.placed.filterMap Placed.import?

namespace Collected

theorem imports_add (c : Collected) (p : Placed) :
    (c.add .standard p).imports =
      match p.import? with
      | some entry => c.imports.record p.file entry
      | none => c.imports := by
  obtain ⟨stmt, file, active⟩ := p
  cases stmt with
  | namespaceDecl span decl =>
    simp only [add, enter, Placed.import?]
    split <;> rfl
  | _ => rfl

theorem imports_foldl_add {file : String} {before : List (String × List Import)}
    (h : file ∉ before.map Prod.fst) {ps : List Placed} (hfile : ∀ p ∈ ps, p.file = file)
    {c : Collected} {entries : List Import}
    (hc : c.imports.files = ImportTable.ofImports (before ++ [(file, entries)])) :
    (ps.foldl (add .standard) c).imports.files =
      ImportTable.ofImports (before ++ [(file, entries ++ ps.filterMap Placed.import?)]) := by
  induction ps generalizing c entries with
  | nil => simpa using hc
  | cons p rest ih =>
    have hrest : ∀ q ∈ rest, q.file = file := fun q hq => hfile q (List.mem_cons_of_mem _ hq)
    have hadd := imports_add c p
    rw [List.foldl_cons]
    cases hp : p.import? with
    | none =>
      rw [hp] at hadd
      rw [List.filterMap_cons_none hp]
      exact ih hrest (hadd ▸ hc)
    | some entry =>
      rw [hp, hfile p List.mem_cons_self] at hadd
      have hnext := ImportTable.record_last h hc entry
      rw [List.filterMap_cons_some hp, List.append_cons entries]
      exact ih hrest (hadd ▸ hnext)

end Collected

theorem file_of_mem_placeStmts {file active : String} {stmts : List Stmt} {p : Placed}
    (h : p ∈ placeStmts file active stmts) : p.file = file := by
  induction stmts generalizing active with
  | nil => exact absurd h List.not_mem_nil
  | cons s rest ih =>
    rcases List.mem_cons.mp h with rfl | h
    · rfl
    · exact ih h

/-- The import table of distinct files holds the imports of each file that has any. -/
theorem files_imports_collect {files : List ParsedFile} (h : (files.map ParsedFile.name).Nodup) :
    (collect .standard files).imports.files =
      ImportTable.ofImports (files.map fun file => (file.name, file.importEntries)) := by
  -- Files are added at the end, so the last one is taken off and its imports are the newest.
  induction files using List.reverseRecOn with
  | nil => rfl
  | append_singleton front file ih =>
    rw [List.map_append, List.map_singleton, List.nodup_append] at h
    have hnew : file.name ∉ (front.map fun f => (f.name, f.importEntries)).map Prod.fst := by
      rw [List.map_map]
      exact fun hin => h.2.2 _ hin _ List.mem_cons_self rfl
    have hfront := ih h.1
    have hstart : (collect .standard front).imports.files = ImportTable.ofImports
        ((front.map fun f => (f.name, f.importEntries)) ++ [(file.name, [])]) := by
      rw [hfront, ImportTable.ofImports_append, if_pos rfl, List.append_nil]
    have hfile := Collected.imports_foldl_add hnew
      (fun p hp => file_of_mem_placeStmts hp : ∀ p ∈ file.placed, p.file = file.name) hstart
    rw [List.map_append, List.map_singleton]
    have hcollect : collect .standard (front ++ [file]) =
        (collect .standard front).addFile .standard file.name file.program.stmts := by
      simp [collect]
    rw [hcollect, imports_addFile, hfile]
    rfl

theorem flatMap_ofImports (files : List (String × List Import)) :
    (ImportTable.ofImports files).flatMap Prod.snd = files.flatMap Prod.snd := by
  induction files with
  | nil => rfl
  | cons entry rest ih =>
    rw [ImportTable.ofImports, List.filter_cons, List.flatMap_cons, ← ih]
    split
    · rfl
    · rename_i hempty
      have hnil : entry.2 = [] := by simpa using hempty
      rw [hnil]
      rfl

theorem imports_collect {files : List ParsedFile} (h : (files.map ParsedFile.name).Nodup)
    {file : ParsedFile} (hfile : file ∈ files) :
    (collect .standard files).imports.imports file.name = file.importEntries := by
  have hkeys : ((files.map fun f => (f.name, f.importEntries)).map Prod.fst).Nodup := by
    rwa [List.map_map]
  have hmem : (file.name, file.importEntries) ∈ files.map fun f => (f.name, f.importEntries) :=
    List.mem_map_of_mem hfile
  rw [ImportTable.imports, files_imports_collect h]
  -- A file without imports has no entry in the table.
  by_cases hempty : file.importEntries = []
  · have hnone : (ImportTable.ofImports
        (files.map fun f => (f.name, f.importEntries))).lookup file.name = none := by
      refine List.lookup_eq_none_iff.mpr fun entry hentry => bne_iff_ne.mpr fun heq => ?_
      obtain ⟨hin, hsome⟩ := List.mem_filter.mp hentry
      have hentryMem : (file.name, entry.2) ∈ files.map fun f => (f.name, f.importEntries) := by
        rw [heq]
        exact hin
      have hsame := (Ordered.lookup_of_mem hkeys hmem).symm.trans
        (Ordered.lookup_of_mem hkeys hentryMem)
      rw [← Option.some.inj hsame, hempty] at hsome
      simp at hsome
    rw [hnone, hempty]
    rfl
  · have hkeys' : ((ImportTable.ofImports
        (files.map fun f => (f.name, f.importEntries))).map Prod.fst).Nodup :=
      hkeys.sublist (List.filter_sublist.map _)
    have hin : (file.name, file.importEntries) ∈ ImportTable.ofImports
        (files.map fun f => (f.name, f.importEntries)) :=
      List.mem_filter.mpr ⟨hmem, by simpa using hempty⟩
    rw [Ordered.lookup_of_mem hkeys' hin]
    rfl

/-- The global imports are those of all files in their order. -/
theorem globals_collect {files : List ParsedFile} (h : (files.map ParsedFile.name).Nodup) :
    (collect .standard files).imports.globals = Ordered.distinct
      (((files.flatMap ParsedFile.importEntries).filter Import.isGlobal).map Import.target) := by
  rw [ImportTable.globals, files_imports_collect h, flatMap_ofImports, List.flatMap_map]

end ScriptCompiler
