import ScriptCompiler.Proofs.Collection

/-!
# Where names are searched

A statement belongs to the namespace that was declared last before it. Its unqualified names are
searched in that namespace, in the imports of its file, in the global imports of all files and at
last outside every namespace. That each import counts once does not show: the search stops at the
first namespace that has the name.
-/

namespace ScriptCompiler

/-- The namespace that is active behind the statements of a file. -/
def activeNamespace (before : List Stmt) : String :=
  ((namespaceDecls before).getLast?.map NamespaceDecl.cleanName).getD ""

/-- Behind a first statement the last declaration still counts. -/
theorem getLast?_namespaceDecls_cons (active : String) (s : Stmt) (rest : List Stmt) :
    ((namespaceDecls (s :: rest)).getLast?.map NamespaceDecl.cleanName).getD active =
      ((namespaceDecls rest).getLast?.map NamespaceDecl.cleanName).getD (s.activePath active) := by
  cases s with
  | namespaceDecl span decl =>
    have hcons : namespaceDecls (.namespaceDecl span decl :: rest) = decl :: namespaceDecls rest := rfl
    rw [hcons, List.getLast?_cons]
    cases (namespaceDecls rest).getLast? <;> rfl
  | _ => rfl

theorem getElem?_placeStmts (file active : String) (stmts : List Stmt) (i : Nat) :
    (placeStmts file active stmts)[i]? = (stmts[i]?).map fun s =>
      let path := ((namespaceDecls (stmts.take (i + 1))).getLast?.map
        NamespaceDecl.cleanName).getD active
      ⟨s.withUniqueName path, file, path⟩ := by
  induction stmts generalizing active i with
  | nil => simp [placeStmts]
  | cons s rest ih =>
    rw [List.take_succ_cons, getLast?_namespaceDecls_cons]
    cases i with
    | zero => simp [placeStmts, namespaceDecls]
    | succ i =>
      rw [placeStmts, List.getElem?_cons_succ, List.getElem?_cons_succ]
      exact ih (s.activePath active) i

theorem getElem?_placed (file : ParsedFile) (i : Nat) :
    file.placed[i]? = (file.program.stmts[i]?).map fun s =>
      let path := activeNamespace (file.program.stmts.take (i + 1))
      ⟨s.withUniqueName path, file.name, path⟩ :=
  getElem?_placeStmts file.name "" file.program.stmts i

theorem mem_placedOf {files : List ParsedFile} {p : Placed} :
    p ∈ placedOf files ↔ ∃ file ∈ files, ∃ i s, file.program.stmts[i]? = some s ∧
      let path := activeNamespace (file.program.stmts.take (i + 1))
      p = ⟨s.withUniqueName path, file.name, path⟩ := by
  rw [placedOf, List.mem_flatMap]
  constructor
  · rintro ⟨file, hfile, hp⟩
    obtain ⟨i, hi⟩ := List.mem_iff_getElem?.mp hp
    rw [getElem?_placed, Option.map_eq_some_iff] at hi
    obtain ⟨s, hs, heq⟩ := hi
    exact ⟨file, hfile, i, s, hs, heq.symm⟩
  · rintro ⟨file, hfile, i, s, hs, rfl⟩
    refine ⟨file, hfile, List.mem_iff_getElem?.mpr ⟨i, ?_⟩⟩
    rw [getElem?_placed, hs]
    rfl

/-- A statement of some file declares `name` in the namespace `path`. -/
def Declares (files : List ParsedFile) (path name : String) : Prop :=
  ∃ file ∈ files, ∃ i s kind ident, file.program.stmts[i]? = some s ∧
    activeNamespace (file.program.stmts.take (i + 1)) = path ∧
    s.declared? = some (kind, ident) ∧ ident.name = name

@[simp] theorem Stmt.declared?_withUniqueName (path : String) (s : Stmt) :
    (s.withUniqueName path).declared? = s.declared? := by
  cases s <;> rfl

/-- A statement makes an entry for the name that it declares in its namespace, and for no other. -/
theorem Placed.registered?_eq_some_iff {p : Placed} {path name : String} {entry : Entry} :
    p.registered? path name = some entry ↔ p.path = path ∧ ∃ kind ident,
      p.stmt.declared? = some (kind, ident) ∧ ident.name = name ∧
      entry = ⟨kind, name, uniqueName path name, p.file, ident.span⟩ := by
  unfold registered?
  rw [Option.bind_eq_some_iff]
  constructor
  · rintro ⟨⟨kind, ident⟩, hdeclared, hentry⟩
    obtain ⟨⟨rfl, rfl⟩, hvalue⟩ := Option.ite_none_right_eq_some.mp hentry
    exact ⟨rfl, kind, ident, hdeclared, rfl, (Option.some.inj hvalue).symm⟩
  · rintro ⟨rfl, kind, ident, hdeclared, rfl, rfl⟩
    exact ⟨(kind, ident), hdeclared, if_pos ⟨rfl, rfl⟩⟩

theorem exists_registered_of_lookup {files : List ParsedFile} {path name : String} {entry : Entry}
    (h : (collect .standard files).table.lookup path name = some entry) :
    ∃ p ∈ placedOf files, p.registered? path name = some entry := by
  rw [lookup_collect] at h
  obtain ⟨p, hp, hentry⟩ := List.exists_of_findSome?_eq_some h
  exact ⟨p, List.mem_reverse.mp hp, hentry⟩

/-- A name is found in a namespace exactly if it is declared there. -/
theorem lookup_collect_isSome {files : List ParsedFile} {path name : String} :
    ((collect .standard files).table.lookup path name).isSome ↔ Declares files path name := by
  constructor
  · intro hsome
    obtain ⟨entry, hentry⟩ := Option.isSome_iff_exists.mp hsome
    obtain ⟨p, hp, hregistered⟩ := exists_registered_of_lookup hentry
    obtain ⟨file, hfile, i, s, hs, rfl⟩ := mem_placedOf.mp hp
    obtain ⟨hpath, kind, ident, hdeclared, hname, _⟩ :=
      Placed.registered?_eq_some_iff.mp hregistered
    rw [Stmt.declared?_withUniqueName] at hdeclared
    exact ⟨file, hfile, i, s, kind, ident, hs, hpath, hdeclared, hname⟩
  · rintro ⟨file, hfile, i, s, kind, ident, hs, hpath, hdeclared, hname⟩
    have hp := mem_placedOf.mpr ⟨file, hfile, i, s, hs, rfl⟩
    rw [lookup_collect, List.findSome?_isSome_iff]
    refine ⟨_, List.mem_reverse.mpr hp, Option.isSome_of_eq_some
      (Placed.registered?_eq_some_iff.mpr ⟨hpath, kind, ident, ?_, hname, rfl⟩)⟩
    rw [Stmt.declared?_withUniqueName, hdeclared]

/-- A search that stops at the first hit does not see repetitions. -/
theorem Ordered.findSome?_foldl_addName {α : Type} (f : String → Option α)
    (names start : List String) :
    (names.foldl addName start).findSome? f = (start ++ names).findSome? f := by
  induction names generalizing start with
  | nil => rw [List.foldl_nil, List.append_nil]
  | cons name rest ih =>
    rw [List.foldl_cons, ih, addName]
    split
    · rename_i hseen
      have hmem : name ∈ start := List.contains_iff_mem.mp hseen
      rw [List.findSome?_append, List.findSome?_append, List.findSome?_cons]
      cases hstart : start.findSome? f with
      | some value => rfl
      | none =>
        rw [List.findSome?_eq_none_iff] at hstart
        rw [hstart name hmem]
    · rw [← List.append_cons]

theorem Ordered.findSome?_distinct {α : Type} (f : String → Option α) (names : List String) :
    (distinct names).findSome? f = names.findSome? f :=
  findSome?_foldl_addName f names []

/-- The imports of a file that hold for the file alone. -/
def ParsedFile.ownTargets (file : ParsedFile) : List String :=
  (file.imports.filter fun decl => !decl.isGlobal).map UsingDecl.target

/-- The namespaces that names in the namespace `path` of a file are searched in: that one, the own
    imports of the file, the global imports of all files, and the names outside every namespace. -/
def searchOrder (files : List ParsedFile) (file : ParsedFile) (path : String) : List String :=
  path :: file.ownTargets ++ Graph.globalTargets files ++ [""]

/-- The collected imports of a file are its import declarations. -/
theorem ParsedFile.map_importEntries (file : ParsedFile) :
    file.importEntries.map (fun entry => (entry.target, entry.isGlobal)) =
      file.imports.map fun decl => (decl.target, decl.isGlobal) := by
  unfold importEntries imports placed
  generalize "" = active
  induction file.program.stmts generalizing active with
  | nil => rfl
  | cons s rest ih =>
    rw [placeStmts]
    cases s with
    | usingDecl span decl =>
      simp only [List.filterMap_cons, Placed.import?, Stmt.withUniqueName, List.map_cons]
      rw [ih]
    | _ => exact ih _

/-- A selection of the imports by what they import and whether they are global. -/
theorem targets_eq {entries : List Import} {decls : List UsingDecl}
    (h : entries.map (fun entry => (entry.target, entry.isGlobal)) =
      decls.map fun decl => (decl.target, decl.isGlobal)) (select : Bool → Bool) :
    (entries.filter fun entry => select entry.isGlobal).map Import.target =
      (decls.filter fun decl => select decl.isGlobal).map UsingDecl.target := by
  have hsel := congrArg (fun list => (list.filter fun pair => select pair.2).map Prod.fst) h
  simpa [List.filter_map, Function.comp_def] using hsel

theorem map_flatMap_importEntries (files : List ParsedFile) :
    (files.flatMap ParsedFile.importEntries).map (fun entry => (entry.target, entry.isGlobal)) =
      (files.flatMap ParsedFile.imports).map fun decl => (decl.target, decl.isGlobal) := by
  rw [List.map_flatMap, List.map_flatMap]
  exact congrArg files.flatMap (funext ParsedFile.map_importEntries)

/-- A search through the namespaces of a statement follows the order of the declarations. -/
theorem findSome?_candidates {α : Type} {files : List ParsedFile}
    (h : (files.map ParsedFile.name).Nodup) {file : ParsedFile} (hfile : file ∈ files) {p : Placed}
    (hp : p.file = file.name) (f : String → Option α) :
    ((collect .standard files).environment p).candidates.findSome? f =
      (searchOrder files file p.path).findSome? f := by
  have hown : (file.importEntries.filter fun entry => !entry.isGlobal).map Import.target =
      file.ownTargets := targets_eq file.map_importEntries not
  have hglobal : ((files.flatMap ParsedFile.importEntries).filter Import.isGlobal).map
      Import.target = Graph.globalTargets files :=
    targets_eq (map_flatMap_importEntries files) id
  unfold Environment.candidates Collected.environment ImportTable.searchPath searchOrder
  rw [hp, imports_collect h hfile, globals_collect h]
  simp only [List.cons_append, List.findSome?_cons, List.findSome?_append,
    Ordered.findSome?_distinct]
  rw [hown, hglobal]

/-- The name is no path: it has no `::`. -/
def Unqualified (name : String) : Prop :=
  ¬ [':', ':'] <:+: name.toList

theorem splitLastPair_eq_none_iff {text : List Char} :
    Text.splitLastPair text = none ↔ ¬ [':', ':'] <:+: text := by
  fun_induction Text.splitLastPair text with
  | case1 => simp
  | case2 c =>
    have hshort : ¬ [':', ':'] <:+: [c] := fun h => absurd h.length_le (by simp)
    simp [hshort]
  | case3 c d rest before after hsplit ih =>
    rw [hsplit] at ih
    have hin : [':', ':'] <:+: d :: rest := by simpa using ih
    simp [hin.trans (List.suffix_cons c _).isInfix]
  | case4 c d rest hsplit hpair ih =>
    have hin : [':', ':'] <:+: c :: d :: rest := by
      rw [hpair.1, hpair.2]
      exact (List.prefix_append [':', ':'] rest).isInfix
    simp [hin]
  | case5 c d rest hsplit hpair ih =>
    have hrest : ¬ [':', ':'] <:+: d :: rest := ih.mp hsplit
    have hhead : ¬ [':', ':'] <+: c :: d :: rest := by
      intro h
      rw [List.cons_prefix_cons, List.cons_prefix_cons] at h
      exact hpair ⟨h.1.symm, h.2.1.symm⟩
    simp [List.infix_cons_iff, hrest, hhead]

/-- The declaration that an unqualified name refers to is the first one that the search finds. -/
theorem entry?_environment {files : List ParsedFile} (h : (files.map ParsedFile.name).Nodup)
    {file : ParsedFile} (hfile : file ∈ files) {p : Placed} (hp : p.file = file.name)
    {name : String} (hname : Unqualified name) :
    Environment.entry? ((collect .standard files).environment p) name =
      (searchOrder files file p.path).findSome? fun path =>
        (collect .standard files).table.lookup path name := by
  have hsplit : splitQualified name = none := by
    rw [splitQualified, splitLastPair_eq_none_iff.mpr hname]
    rfl
  rw [Environment.entry?, hsplit]
  exact findSome?_candidates h hfile hp _

end ScriptCompiler
