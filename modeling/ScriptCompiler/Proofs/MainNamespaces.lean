import Mathlib.Data.List.Nodup
import ScriptCompiler.Proofs.Collection
import ScriptCompiler.Proofs.Rewriting

/-!
# The rule on main namespaces

Every file marks exactly one of its namespaces as the main one, and no two files mark the same one.
Collecting the declarations of all files finds nothing against main namespaces exactly if the files
follow this rule.
-/

namespace ScriptCompiler

/-- The namespaces that statements mark as the main one of their file. -/
def mainsOf (stmts : List Stmt) : List String :=
  ((namespaceDecls stmts).filter NamespaceDecl.isMain).map NamespaceDecl.cleanName

/-- The namespaces that a file marks as its main one. -/
def ParsedFile.mains (file : ParsedFile) : List String :=
  mainsOf file.program.stmts

/-- Every file marks exactly one main namespace, and no two files mark the same one. -/
structure MainsDistinct (files : List ParsedFile) : Prop where
  single : ∀ file ∈ files, file.mains.length = 1
  apart : files.Pairwise fun a b => ∀ path ∈ a.mains, path ∉ b.mains

/-- The marks of placed statements are those of the statements. -/
theorem filterMap_main?_placeStmts (file active : String) (stmts : List Stmt) :
    (placeStmts file active stmts).filterMap Placed.main? = mainsOf stmts := by
  induction stmts generalizing active with
  | nil => rfl
  | cons s rest ih =>
    rw [placeStmts, List.filterMap_cons]
    cases s with
    | namespaceDecl span decl =>
      have hdecls : namespaceDecls (.namespaceDecl span decl :: rest) =
          decl :: namespaceDecls rest := rfl
      simp only [Placed.main?, Stmt.withUniqueName, mainsOf, hdecls, List.filter_cons]
      cases decl.isMain with
      | true => exact congrArg (decl.cleanName :: ·) (ih _)
      | false => exact ih _
    | _ => exact ih _

/-- The file itself is fine exactly if it marks one namespace. -/
theorem mainFinding?_eq_none_iff {file : String} {stmts : List Stmt} :
    mainFinding? file stmts = none ↔ (mainsOf stmts).length = 1 := by
  unfold mainFinding? mainsOf
  cases namespaceDecls stmts with
  | nil => simp
  | cons decl rest =>
    rw [List.length_map]
    dsimp only
    cases (decl :: rest).filter NamespaceDecl.isMain with
    | nil => simp
    | cons first others => cases others <;> simp

namespace Collected

/-- Nothing was found about main namespaces. -/
def MainsFine (c : Collected) : Prop :=
  ∀ f ∈ c.findings, ¬ f.isMainRule

/-- A statement keeps the mains fine unless it marks a namespace that has a main file. -/
theorem mainsFine_add {c : Collected} {p : Placed} :
    (c.add .standard p).MainsFine ↔
      c.MainsFine ∧ ∀ path, p.main? = some path → c.table.mainFile? path = none := by
  obtain ⟨stmt, file, active⟩ := p
  cases stmt with
  | namespaceDecl span decl =>
    simp only [add, enter, Placed.main?]
    split
    · cases hmain : c.table.mainFile? decl.cleanName with
      | none => simp [MainsFine, hmain, Mode.enforce]
      | some first =>
        have hdup : (Finding.duplicateMain file span decl.cleanName first).isMainRule := rfl
        constructor
        · intro h
          exact absurd hdup (h _ (List.mem_append_right _ List.mem_cons_self))
        · rintro ⟨_, h⟩
          exact absurd (h _ rfl) (by simp [hmain])
    · simp [MainsFine]
  | foreignDecl | letDecl | function | classDecl =>
    simp only [add, Stmt.declared?, register, Placed.main?, MainsFine, List.mem_append,
      Option.mem_toList, Option.map_eq_some_iff]
    constructor
    · exact fun h => ⟨fun f hf => h f (.inl hf), fun _ hnone => absurd hnone (by simp)⟩
    · rintro ⟨h, _⟩ f (hf | ⟨previous, _, rfl⟩)
      · exact h f hf
      · exact Bool.false_ne_true
  | _ => simp [add, Stmt.declared?, Placed.main?, MainsFine]

theorem mainFile?_foldl_add {ps : List Placed} {c : Collected} {path : String} :
    (ps.foldl (add .standard) c).table.mainFile? path = none ↔
      c.table.mainFile? path = none ∧ path ∉ ps.filterMap Placed.main? := by
  induction ps generalizing c with
  | nil => simp
  | cons p rest ih =>
    rw [List.foldl_cons, ih, mainFile?_add_eq_none, List.filterMap_cons]
    cases p.main? with
    | none => simp
    | some marked => simp [and_assoc, eq_comm]

/-- Statements keep the mains fine if they mark different namespaces that have no main file yet. -/
theorem mainsFine_foldl_add {ps : List Placed} {c : Collected} :
    (ps.foldl (add .standard) c).MainsFine ↔
      c.MainsFine ∧ (ps.filterMap Placed.main?).Nodup ∧
        ∀ path ∈ ps.filterMap Placed.main?, c.table.mainFile? path = none := by
  induction ps generalizing c with
  | nil => simp
  | cons p rest ih =>
    rw [List.foldl_cons, ih, mainsFine_add, List.filterMap_cons]
    cases hmain : p.main? with
    | none => simp [mainFile?_add_eq_none, hmain]
    | some marked =>
      simp only [mainFile?_add_eq_none, hmain, List.nodup_cons, List.mem_cons, forall_eq_or_imp,
        Option.some.injEq, forall_eq', ne_eq]
      constructor
      · rintro ⟨⟨hfine, hfirst⟩, hnodup, hrest⟩
        exact ⟨hfine, ⟨fun hin => (hrest marked hin).2 rfl, hnodup⟩, hfirst,
          fun path hpath => (hrest path hpath).1⟩
      · rintro ⟨hfine, ⟨hnew, hnodup⟩, hfirst, hrest⟩
        exact ⟨⟨hfine, hfirst⟩, hnodup, fun path hpath =>
          ⟨hrest path hpath, fun heq => hnew (heq ▸ hpath)⟩⟩

/-- A file keeps the mains fine if it marks exactly one namespace, which has no main file yet. -/
theorem mainsFine_addFile {c : Collected} {file : ParsedFile} :
    (c.addFile .standard file.name file.program.stmts).MainsFine ↔
      c.MainsFine ∧ file.mains.length = 1 ∧ ∀ path ∈ file.mains, c.table.mainFile? path = none := by
  have hmarks : file.placed.filterMap Placed.main? = file.mains := filterMap_main?_placeStmts ..
  have hsplit : (c.addFile .standard file.name file.program.stmts).MainsFine ↔
      (file.placed.foldl (add .standard) c).MainsFine ∧
        mainFinding? file.name file.program.stmts = none := by
    unfold MainsFine addFile
    constructor
    · intro h
      refine ⟨fun f hf => h f (List.mem_append_left _ hf), Option.eq_none_iff_forall_ne_some.mpr ?_⟩
      intro f hf
      exact h f (List.mem_append_right _ (Option.mem_toList.mpr hf)) (isMainRule_of_mainFinding? hf)
    · rintro ⟨hfine, hnone⟩
      rw [hnone, Option.toList_none]
      simp only [Mode.enforce, List.append_nil]
      exact hfine
  rw [hsplit, mainsFine_foldl_add, mainFinding?_eq_none_iff, hmarks]
  constructor
  · rintro ⟨⟨hfine, _, hnew⟩, hone⟩
    exact ⟨hfine, hone, hnew⟩
  · rintro ⟨hfine, hone, hnew⟩
    obtain ⟨path, hpath⟩ := List.length_eq_one_iff.mp hone
    exact ⟨⟨hfine, hpath ▸ List.nodup_singleton path, hnew⟩, hone⟩

end Collected

/-- Files keep the mains fine if they follow the rule and mark namespaces without a main file. -/
theorem mainsFine_foldl_addFile {files : List ParsedFile} {c : Collected} :
    (files.foldl (fun c file => c.addFile .standard file.name file.program.stmts) c).MainsFine ↔
      c.MainsFine ∧ MainsDistinct files ∧
        ∀ file ∈ files, ∀ path ∈ file.mains, c.table.mainFile? path = none := by
  induction files generalizing c with
  | nil => simp [show MainsDistinct [] from ⟨by simp, List.Pairwise.nil⟩]
  | cons file rest ih =>
    have hmarks : file.placed.filterMap Placed.main? = file.mains := filterMap_main?_placeStmts ..
    rw [List.foldl_cons, ih, Collected.mainsFine_addFile, table_addFile]
    simp only [Collected.mainFile?_foldl_add, hmarks]
    constructor
    · -- A later file cannot mark what this one has marked, since it would not be the first.
      rintro ⟨⟨hfine, hone, hnew⟩, hrest, hafter⟩
      refine ⟨hfine, ⟨?_, ?_⟩, ?_⟩
      · exact List.forall_mem_cons.mpr ⟨hone, hrest.single⟩
      · refine List.pairwise_cons.mpr ⟨fun other hother path hpath hin => ?_, hrest.apart⟩
        exact (hafter other hother path hin).2 hpath
      · exact List.forall_mem_cons.mpr
          ⟨hnew, fun other hother path hpath => (hafter other hother path hpath).1⟩
    · rintro ⟨hfine, ⟨hsingle, hapart⟩, hnew⟩
      obtain ⟨hone, hsingle⟩ := List.forall_mem_cons.mp hsingle
      obtain ⟨hfirst, hapart⟩ := List.pairwise_cons.mp hapart
      obtain ⟨hnewFirst, hnew⟩ := List.forall_mem_cons.mp hnew
      exact ⟨⟨hfine, hone, hnewFirst⟩, ⟨hsingle, hapart⟩, fun other hother path hpath =>
        ⟨hnew other hother path hpath, fun hin => hfirst other hother path hin hpath⟩⟩

/-- Nothing is found about main namespaces exactly if the files follow the rule. -/
theorem collect_mains_iff {files : List ParsedFile} :
    (∀ f ∈ (collect .standard files).findings, ¬ f.isMainRule) ↔ MainsDistinct files := by
  have hempty : Collected.empty.MainsFine := fun f hf => absurd hf List.not_mem_nil
  show (collect .standard files).MainsFine ↔ _
  rw [collect, mainsFine_foldl_addFile]
  exact ⟨fun h => h.2.1, fun h => ⟨hempty, h, fun _ _ _ _ => rfl⟩⟩

/-- The finding is about a name that is declared again. -/
def Finding.IsRedeclaration : Finding → Prop
  | .redeclared .. => True
  | _ => False

/-- What can be found when a placed statement is collected. -/
inductive Placed.Finds (p : Placed) : Finding → Prop where
  | duplicateMain {span : Span} {decl : NamespaceDecl} (h : p.stmt = .namespaceDecl span decl)
      (first : String) : Finds p (.duplicateMain p.file span decl.cleanName first)
  | redeclared {kind : EntryKind} {name : Ident} (h : p.stmt.declared? = some (kind, name))
      (previous : Entry) : Finds p (.redeclared p.file name.span kind name.name previous)

namespace Collected

variable {c : Collected} {f : Finding}

theorem findings_add_cases {p : Placed} (hf : f ∈ (c.add .standard p).findings) :
    f ∈ c.findings ∨ p.Finds f := by
  obtain ⟨stmt, file, active⟩ := p
  cases stmt with
  | namespaceDecl span decl =>
    simp only [Collected.add, enter] at hf
    split at hf
    · rcases List.mem_append.mp hf with hf | hf
      · exact .inl hf
      · obtain ⟨first, _, rfl⟩ := Option.map_eq_some_iff.mp (Option.mem_toList.mp hf)
        exact .inr (.duplicateMain rfl first)
    · exact .inl hf
  | foreignDecl | letDecl | function | classDecl =>
    rcases List.mem_append.mp hf with hf | hf
    · exact .inl hf
    · obtain ⟨previous, _, rfl⟩ := Option.map_eq_some_iff.mp (Option.mem_toList.mp hf)
      exact .inr (.redeclared rfl previous)
  | _ => exact .inl hf

theorem findings_foldl_add_cases {ps : List Placed}
    (hf : f ∈ (ps.foldl (Collected.add .standard) c).findings) :
    f ∈ c.findings ∨ ∃ p ∈ ps, p.Finds f := by
  induction ps generalizing c with
  | nil => exact .inl hf
  | cons p rest ih =>
    rcases ih hf with hf | ⟨q, hq, hfinds⟩
    · exact (findings_add_cases hf).imp_right fun hfinds => ⟨p, List.mem_cons_self, hfinds⟩
    · exact .inr ⟨q, List.mem_cons_of_mem _ hq, hfinds⟩

theorem findings_addFile_cases {file : ParsedFile}
    (hf : f ∈ (c.addFile .standard file.name file.program.stmts).findings) :
    f ∈ c.findings ∨ (∃ p ∈ file.placed, p.Finds f) ∨
      mainFinding? file.name file.program.stmts = some f := by
  rcases List.mem_append.mp hf with hf | hf
  · exact (findings_foldl_add_cases hf).imp_right .inl
  · exact .inr (.inr (Option.mem_toList.mp hf))

theorem findings_foldl_addFile_cases {files : List ParsedFile}
    (hf : f ∈ (files.foldl
      (fun c file => c.addFile .standard file.name file.program.stmts) c).findings) :
    f ∈ c.findings ∨ ∃ file ∈ files, (∃ p ∈ file.placed, p.Finds f) ∨
      mainFinding? file.name file.program.stmts = some f := by
  induction files generalizing c with
  | nil => exact .inl hf
  | cons file rest ih =>
    rcases ih hf with hf | ⟨other, hother, hfound⟩
    · exact (findings_addFile_cases hf).imp_right fun hfound => ⟨file, List.mem_cons_self, hfound⟩
    · exact .inr ⟨other, List.mem_cons_of_mem _ hother, hfound⟩

end Collected

/-- What is found while declarations are collected is about a statement of some file or about the
    namespaces of the file. -/
theorem exists_of_mem_collect_findings {files : List ParsedFile} {f : Finding}
    (hf : f ∈ (collect .standard files).findings) :
    ∃ file ∈ files, (∃ p ∈ file.placed, p.Finds f) ∨
      mainFinding? file.name file.program.stmts = some f :=
  (Collected.findings_foldl_addFile_cases hf).resolve_left List.not_mem_nil

theorem collect_findings_cases {files : List ParsedFile} {f : Finding}
    (hf : f ∈ (collect .standard files).findings) : f.isMainRule ∨ f.IsRedeclaration := by
  obtain ⟨file, _, ⟨p, _, hfinds⟩ | hmain⟩ := exists_of_mem_collect_findings hf
  · cases hfinds with
    | duplicateMain => exact .inl rfl
    | redeclared => exact .inr trivial
  · exact .inl (isMainRule_of_mainFinding? hmain)

end ScriptCompiler
