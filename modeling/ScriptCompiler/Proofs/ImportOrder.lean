import ScriptCompiler.Proofs.DependencyOrder
import ScriptCompiler.Proofs.References

/-!
# Imports and the order of files

A file depends on one provider of each namespace that it imports: the first file that declares the
namespace. The declarations of a namespace may come from any file, though, and the last one counts.
So the file that declares what a reference finds through an import comes before the file of the
reference if it is the provider of the namespace, or if the provider depends on it; otherwise it may
come later.
-/

namespace ScriptCompiler

/-- The unqualified name is not found in the namespace `path` of the statement, and the first import
    of the file that has it, own or global, is the one of the namespace `space`. -/
def FoundByImport (linked : Linked) (files : List ParsedFile) (file : ParsedFile)
    (path name space : String) : Prop :=
  Unqualified name ∧ ∃ before after,
    file.ownTargets ++ Graph.globalTargets files = before ++ space :: after ∧
    ∀ other ∈ path :: before, linked.table.lookup other name = none

/-- The files that declare what the references of a file find through its imports come before that
    file. -/
def Linked.ImportsOrdered (linked : Linked) (files : List ParsedFile) : Prop :=
  ∀ file ∈ files, ∀ p ∈ placeFiles files, p.file = file.name → ∀ position name space entry,
    RefersAt linked files p position name space entry →
    FoundByImport linked files file p.path name space → entry.file ≠ file.name →
    linked.order.idxOf entry.file < linked.order.idxOf file.name

/-! ### Imports and providers -/

theorem isPath_of_mem_imports {file : ParsedFile}
    (h : ∀ s ∈ file.program.stmts, (Node.stmt s).Named) {decl : UsingDecl}
    (hdecl : decl ∈ file.imports) : IsPath decl.path := by
  obtain ⟨s, hs, hsome⟩ := List.mem_filterMap.mp hdecl
  have hnames : s.WellNamed := (h s hs).here
  cases s with
  | usingDecl span other =>
    obtain rfl := Option.some.inj hsome
    exact hnames.path _ rfl
  | _ => cases hsome

/-- The namespace of a statement, unless it is outside every namespace, is declared in its file. -/
theorem activeNamespace_mem_declared {file : ParsedFile} {n : Nat}
    (h : activeNamespace (file.program.stmts.take n) ≠ "") :
    activeNamespace (file.program.stmts.take n) ∈ file.declared := by
  unfold activeNamespace at h ⊢
  cases hlast : (namespaceDecls (file.program.stmts.take n)).getLast? with
  | none =>
    rw [hlast] at h
    exact absurd rfl h
  | some decl =>
    obtain ⟨s, hs, hdecl⟩ := List.mem_filterMap.mp (List.mem_of_getLast? hlast)
    refine List.mem_filterMap.mpr ⟨s, List.mem_of_mem_take hs, ?_⟩
    cases s with
    | namespaceDecl span other =>
      obtain rfl := Option.some.inj hdecl
      rfl
    | _ => cases hdecl

section Providers

variable {linked : Linked} {files : List ParsedFile} {file : ParsedFile}

/-- The targets of the imports of a file, own and global. -/
theorem exists_import_of_target {target : String} (hfile : file ∈ files)
    (h : target ∈ file.ownTargets ++ Graph.globalTargets files) :
    ∃ other ∈ files, ∃ decl ∈ other.imports, decl.target = target := by
  rcases List.mem_append.mp h with hown | hglobal
  · obtain ⟨decl, hdecl, rfl⟩ := List.mem_map.mp hown
    exact ⟨file, hfile, decl, (List.mem_filter.mp hdecl).1, rfl⟩
  · obtain ⟨decl, hdecl, rfl⟩ := List.mem_map.mp hglobal
    obtain ⟨other, hother, hin⟩ := List.mem_flatMap.mp (List.mem_filter.mp hdecl).1
    exact ⟨other, hother, decl, hin, rfl⟩

/-- The file of an entry that is found in an imported namespace declares that namespace. -/
theorem LinkedFrom.exists_declaring (h : LinkedFrom linked files) (hfile : file ∈ files)
    {space name : String} (hspace : space ∈ file.ownTargets ++ Graph.globalTargets files)
    {entry : Entry} (hentry : linked.table.lookup space name = some entry) :
    ∃ other ∈ files, other.name = entry.file ∧ space ∈ other.declared := by
  have hne : space ≠ "" := by
    obtain ⟨other, hother, decl, hdecl, rfl⟩ := exists_import_of_target hfile hspace
    exact joinPath_ne_empty (isPath_of_mem_imports (h.named other hother) hdecl)
  rw [h.table] at hentry
  obtain ⟨p, hp, hregistered⟩ := exists_registered_of_lookup hentry
  obtain ⟨hpath, _, _, _, _, rfl⟩ := Placed.registered?_eq_some_iff.mp hregistered
  obtain ⟨other, hother, i, s, _, rfl⟩ := mem_placedOf.mp hp
  subst hpath
  exact ⟨other, hother, rfl, activeNamespace_mem_declared hne⟩

/-- What a reference finds through an import comes from a file that declares the imported
    namespace. -/
theorem FoundByImport.exists_declaring (h : LinkedFrom linked files) (hfile : file ∈ files)
    {p : Placed} {position : List Nat} {name space : String} {entry : Entry}
    (himport : FoundByImport linked files file p.path name space)
    (hrefers : RefersAt linked files p position name space entry) :
    space ∈ file.ownTargets ++ Graph.globalTargets files ∧
      ∃ other ∈ files, other.name = entry.file ∧ space ∈ other.declared := by
  obtain ⟨_, before, after, htargets, _⟩ := himport
  have hspace : space ∈ file.ownTargets ++ Graph.globalTargets files := by
    rw [htargets]
    exact List.mem_append_right _ List.mem_cons_self
  obtain ⟨_, _, _, hfinds⟩ := hrefers.found
  obtain ⟨last, hentry⟩ := hfinds.lookup
  exact ⟨hspace, h.exists_declaring hfile hspace hentry⟩

theorem exists_provider {space : String} {other : ParsedFile} (hother : other ∈ files)
    (hdeclared : space ∈ other.declared) :
    ∃ provider, (Graph.providers files).lookup space = some provider := by
  have hin : (space, other.name) ∈ Graph.providers files :=
    List.mem_flatMap.mpr ⟨other, hother, List.mem_map_of_mem hdeclared⟩
  exact Option.isSome_iff_exists.mp (List.lookup_isSome_iff.mpr ⟨_, hin, beq_self_eq_true space⟩)

/-- A file depends on the providers of the namespaces that it imports. -/
theorem edge_of_provider (h : (files.map ParsedFile.name).Nodup) (hfile : file ∈ files)
    {space provider : String} (hspace : space ∈ file.ownTargets ++ Graph.globalTargets files)
    (hprovider : (Graph.providers files).lookup space = some provider)
    (hne : provider ≠ file.name) : (Graph.ofFiles files).Edge file.name provider := by
  have hentry : (file.name, Graph.dependenciesOf files file) ∈ (Graph.ofFiles files).edges :=
    List.mem_map_of_mem hfile
  have hnodup : (Graph.ofFiles files).files.Nodup := by rwa [Graph.files_ofFiles]
  rw [Graph.Edge, Graph.dependencies_of_mem hnodup hentry, Graph.dependenciesOf,
    Ordered.mem_distinct, List.mem_filter, List.mem_filterMap]
  refine ⟨⟨space, ?_, hprovider⟩, decide_eq_true hne⟩
  rcases List.mem_append.mp hspace with hown | hglobal
  · obtain ⟨decl, hdecl, rfl⟩ := List.mem_map.mp hown
    exact List.mem_append_left _ (List.mem_map_of_mem (List.mem_filter.mp hdecl).1)
  · exact List.mem_append_right _ hglobal

end Providers

/-! ### Files that come earlier -/

theorem cycles_eq_nil_of_link {rules : Rules} {sources : Sources} {linked : Linked}
    {findings : List Finding} (h : link rules sources = .ok (linked, findings))
    (hcycles : ∀ cycle, Finding.cycle cycle ∉ findings) :
    ∃ parsed failures, parseFiles sources = .ok (parsed, failures) ∧
      linked.order = (Graph.ofFiles parsed).order.order ∧
      (Graph.ofFiles parsed).order.cycles = [] := by
  obtain ⟨parsed, failures, hparse, rfl, rfl⟩ := link_eq_ok_iff.mp h
  refine ⟨parsed, failures, hparse, rfl, List.eq_nil_iff_forall_not_mem.mpr fun cycle hcycle => ?_⟩
  have hfound : Finding.cycle cycle ∈ (survey sources.names parsed).2 :=
    List.mem_append_left _ (List.mem_append_left _ (List.mem_map_of_mem hcycle))
  exact hcycles cycle (List.mem_append_right _ (List.mem_filterMap.mpr ⟨_, hfound, rfl⟩))

/-- What is known of the file of an entry that a reference of `file` finds in the imported namespace
    `space`: the provider of the namespace comes earlier, and so does the file of the entry if the
    provider depends on it or is it. -/
def ProvidedBefore (linked : Linked) (parsed : List ParsedFile) (file space : String)
    (entry : Entry) : Prop :=
  ∃ provider, (Graph.providers parsed).lookup space = some provider ∧
    (provider ≠ file → linked.order.idxOf provider < linked.order.idxOf file) ∧
    (Relation.ReflTransGen (Graph.ofFiles parsed).Edge provider entry.file → entry.file ≠ file →
      linked.order.idxOf entry.file < linked.order.idxOf file)

theorem providedBefore_of_mem {linked : Linked} {parsed : List ParsedFile}
    (hnodup : (parsed.map ParsedFile.name).Nodup)
    (horder : linked.order = (Graph.ofFiles parsed).order.order)
    (hcycles : (Graph.ofFiles parsed).order.cycles = []) {file other : ParsedFile}
    (hfile : file ∈ parsed) {space : String}
    (hspace : space ∈ file.ownTargets ++ Graph.globalTargets parsed) (hother : other ∈ parsed)
    (hdeclared : space ∈ other.declared) (entry : Entry) :
    ProvidedBefore linked parsed file.name space entry := by
  have hg := Graph.ofFiles_wellFormed hnodup
  obtain ⟨provider, hprovider⟩ := exists_provider hother hdeclared
  have hedge : provider ≠ file.name → (Graph.ofFiles parsed).Edge file.name provider :=
    edge_of_provider hnodup hfile hspace hprovider
  refine ⟨provider, hprovider, fun hne => ?_, fun hreach hne => ?_⟩
  · rw [horder]
    exact Graph.idxOf_lt_of_transGen hg hcycles (.single (hedge hne))
  · rw [horder]
    refine Graph.idxOf_lt_of_transGen hg hcycles ?_
    -- The file is the provider itself, or it depends on it first.
    by_cases hself : provider = file.name
    · subst hself
      exact (Relation.reflTransGen_iff_eq_or_transGen.mp hreach).resolve_left hne
    · exact Relation.TransGen.head' (hedge hself) hreach

/-- Every imported namespace is declared by one file at most. -/
def ImportsDeclaredOnce (files : List ParsedFile) : Prop :=
  ∀ user ∈ files, ∀ decl ∈ user.imports, ∀ file ∈ files, ∀ other ∈ files,
    decl.target ∈ file.declared → decl.target ∈ other.declared → file.name = other.name

/-- The provider of a namespace that only one file declares is that file. -/
theorem provider_eq {files : List ParsedFile} {space provider : String}
    (hprovider : (Graph.providers files).lookup space = some provider) {other : ParsedFile}
    (hother : ∀ file ∈ files, space ∈ file.declared → file.name = other.name) :
    provider = other.name := by
  obtain ⟨file, hfile, hin⟩ := List.mem_flatMap.mp (Ordered.mem_of_lookup hprovider)
  obtain ⟨path, hpath, heq⟩ := List.mem_map.mp hin
  obtain ⟨rfl, rfl⟩ := Prod.mk.inj heq
  exact hother file hfile hpath

/-- Whatever sources are linked without circular dependencies: what a reference finds through
    an import comes from a file that comes earlier if it is the provider of the imported namespace
    or if the provider depends on it. This is so for all references if no imported namespace is
    declared by two files. -/
theorem link_imports_ordered {rules : Rules} {sources : Sources} {linked : Linked}
    {findings : List Finding} (h : link rules sources = .ok (linked, findings))
    (hcycles : ∀ cycle, Finding.cycle cycle ∉ findings) :
    ∃ parsed failures, parseFiles sources = .ok (parsed, failures) ∧
      let files := inOrder linked.order parsed
      (∀ file ∈ files, ∀ p ∈ placeFiles files, p.file = file.name →
        ∀ position name space entry, RefersAt linked files p position name space entry →
          FoundByImport linked files file p.path name space →
          ProvidedBefore linked parsed file.name space entry) ∧
      (ImportsDeclaredOnce files → linked.ImportsOrdered files) := by
  obtain ⟨parsed, failures, hparse, horder, hnone⟩ := cycles_eq_nil_of_link h hcycles
  obtain ⟨parsed', failures', hparse', hfrom⟩ := link_cases h
  obtain ⟨rfl, rfl⟩ := Prod.mk.inj (Except.ok.inj (hparse.symm.trans hparse'))
  have hnodup := (parseFiles_cases hparse).nodup
  have hperm : (inOrder linked.order parsed).Perm parsed := by
    rw [horder]
    exact inOrder_perm hnodup
  have hprovided : ∀ file ∈ inOrder linked.order parsed, ∀ p position name space entry,
      RefersAt linked (inOrder linked.order parsed) p position name space entry →
      FoundByImport linked (inOrder linked.order parsed) file p.path name space →
      ProvidedBefore linked parsed file.name space entry := by
    intro file hfile p position name space entry hrefers himport
    obtain ⟨hspace, other, hother, _, hdeclared⟩ := himport.exists_declaring hfrom hfile hrefers
    refine providedBefore_of_mem hnodup horder hnone (hperm.mem_iff.mp hfile) ?_
      (hperm.mem_iff.mp hother) hdeclared entry
    exact ((Graph.globalTargets_perm hperm).append_left _).mem_iff.mp hspace
  refine ⟨parsed, failures, hparse, fun file hfile p _ _ => hprovided file hfile p, ?_⟩
  intro honce file hfile p _ _ position name space entry hrefers himport hne
  obtain ⟨hspace, other, hother, hname, hdeclared⟩ :=
    himport.exists_declaring hfrom hfile hrefers
  obtain ⟨provider, hprovider, _, hbefore⟩ :=
    hprovided file hfile p position name space entry hrefers himport
  obtain ⟨user, huser, decl, hdecl, rfl⟩ := exists_import_of_target hfile hspace
  refine hbefore ?_ hne
  rw [← hname, provider_eq hprovider fun third hthird hin => honce user huser decl hdecl third
    (hperm.mem_iff.mpr hthird) other hother hin hdeclared]

/-- Three files, each of which reads a variable of the next one. -/
def chainedSources : Sources :=
  ((Sources.empty.insert "a.tn" "namespace! a; using b; let x = y;").insert "b.tn"
    "namespace! b; using c; let y = z;").insert "c.tn" "namespace! c; let z = 1;"

/-- The files of the chain come in the order in which their variables can be read. -/
theorem link_chainedSources :
    ∃ linked, link .strict chainedSources = .ok (linked, []) ∧
      linked.order = ["c.tn", "b.tn", "a.tn"] ∧
      (∀ cycle, Finding.cycle cycle ∉ ([] : List Finding)) ∧
      ∃ parsed failures, parseFiles chainedSources = .ok (parsed, failures) ∧
        (ImportsDeclaredOnce (inOrder linked.order parsed) →
          linked.ImportsOrdered (inOrder linked.order parsed)) := by
  have horder : (link .strict chainedSources).toOption.map (fun result =>
      (result.1.order, result.2.isEmpty)) = some (["c.tn", "b.tn", "a.tn"], true) := by
    decide +kernel
  obtain ⟨linked, findings, hlink, hvalue⟩ := exists_link_of_map horder
  obtain ⟨hnames, hempty⟩ := Prod.mk.inj hvalue
  obtain rfl : findings = [] := List.isEmpty_iff.mp hempty
  have hcycles : ∀ cycle, Finding.cycle cycle ∉ ([] : List Finding) := fun _ => List.not_mem_nil
  obtain ⟨parsed, failures, hparse, _, honce⟩ := link_imports_ordered hlink hcycles
  exact ⟨linked, hlink, hnames, hcycles, parsed, failures, hparse, honce⟩

/-- A namespace `lib` that two files declare. The variable `y` of the second one is read by a file
    that imports the namespace. -/
def spreadSources : Sources :=
  ((Sources.empty.insert "a.tn" "namespace! a; using lib; let x = y;").insert "b.tn"
    "namespace lib; namespace! b;").insert "c.tn" "namespace lib; let y = 1; namespace! c;"

/-- A reference that finds its entry in the first import of its file, and nothing of its name in its
    own namespace. -/
theorem refersAt_of_import {linked : Linked} {files : List ParsedFile} {file : ParsedFile}
    (hfile : file ∈ files) {p : Placed} (hp : p.file = file.name) {position : List Nat}
    {name : String} (hreference : p.stmt.referenceAt position = some (name, []))
    (hself : ¬ (name = "self" ∨ name = "Self")) (hname : Unqualified name) {space : String}
    {others : List String}
    (htargets : file.ownTargets ++ Graph.globalTargets files = space :: others)
    (hown : linked.table.lookup p.path name = none) {entry : Entry}
    (hentry : linked.table.lookup space name = some entry) :
    RefersAt linked files p position name space entry ∧
      FoundByImport linked files file p.path name space := by
  have hnone : ∀ other ∈ [p.path], linked.table.lookup other name = none :=
    List.forall_mem_singleton.mpr hown
  obtain ⟨halone, part, kind, ident, hpart, href, rfl, hlocals⟩ :=
    Stmt.referenceAt_eq_some hreference
  have horder : searchOrder files file p.path = [p.path] ++ space :: (others ++ [""]) := by
    rw [searchOrder, List.cons_append, List.cons_append, htargets]
    rfl
  refine ⟨⟨⟨part, hpart, Node.spelling?_of_reference href⟩, halone _, ?_, file, hfile, hp,
    .searched hname horder hnone hentry⟩, hname, [], others, htargets, hnone⟩
  rintro (hname | hname | hbinds)
  · exact hself (.inl hname)
  · exact hself (.inr hname)
  · rw [← Occurrence.mem_locals_top hpart, hlocals] at hbinds
    exact List.not_mem_nil hbinds

/-- Nothing is found wrong with these files, but the variable comes from a later file. -/
theorem link_spreadSources :
    ∃ linked parsed failures, link .strict spreadSources = .ok (linked, []) ∧
      parseFiles spreadSources = .ok (parsed, failures) ∧
      ¬ linked.ImportsOrdered (inOrder linked.order parsed) := by
  obtain ⟨linked, findings, parsed, failures, hlink, hparse, hfrom, hvalue⟩ :=
    exists_linked_of_map spreadSources (fun linked files findings =>
      findings.isEmpty && linked.order = ["b.tn", "a.tn", "c.tn"] &&
        ((placeFiles files)[6]?).map (fun p => (p.file, p.path, p.stmt.referenceAt [0])) =
          some ("a.tn", "a", some ("y", [])) &&
        (files[1]?).map (fun file => (file.name, file.ownTargets ++ Graph.globalTargets files)) =
          some ("a.tn", ["lib"]) &&
        (linked.table.lookup "a" "y").isNone &&
        (linked.table.lookup "lib" "y").map Entry.file = some "c.tn") true (by decide +kernel)
  simp only [Bool.and_eq_true, decide_eq_true_eq, Option.map_eq_some_iff, Prod.mk.injEq] at hvalue
  obtain ⟨⟨⟨⟨⟨hempty, horder⟩, p, hp, hpfile, hpath, hreference⟩, file, hfile, hname, htargets⟩,
    hown⟩, entry, hentry, hdeclaring⟩ := hvalue
  obtain rfl : findings = [] := List.isEmpty_iff.mp hempty
  rw [← hpath, Option.isNone_iff_eq_none] at hown
  refine ⟨linked, parsed, failures, hlink, hparse, fun hordered => ?_⟩
  obtain ⟨hrefers, himport⟩ := refersAt_of_import (List.mem_of_getElem? hfile)
    (hpfile.trans hname.symm) hreference (by decide) (by unfold Unqualified; decide) htargets hown
    hentry
  have hlt := hordered file (List.mem_of_getElem? hfile) p (List.mem_of_getElem? hp)
    (hpfile.trans hname.symm) [0] "y" "lib" entry hrefers himport
  rw [hdeclaring, hname, horder] at hlt
  exact absurd (hlt (by decide)) (by decide)

end ScriptCompiler
