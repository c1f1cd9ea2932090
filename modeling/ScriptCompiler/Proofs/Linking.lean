import ScriptCompiler.Proofs.DependencyOrder
import ScriptCompiler.Proofs.NameSearch
import ScriptCompiler.Proofs.Readings
import ScriptCompiler.Proofs.Rewriting

/-!
# The files of a linked program

Putting files in dependency order neither loses nor repeats one, and arranging the statements of all
files by their stages neither loses nor repeats a statement. What a name can refer to does not
depend on the order of the files.
-/

namespace ScriptCompiler

open scoped List

/-- Files that are asked for by their names, in their own order, are all found. -/
theorem inOrder_map_name {files : List ParsedFile} (h : (files.map ParsedFile.name).Nodup) :
    inOrder (files.map ParsedFile.name) files = files := by
  induction files with
  | nil => rfl
  | cons file rest ih =>
    obtain ⟨hnew, hrest⟩ := List.nodup_cons.mp h
    have hothers : (rest.map ParsedFile.name).filterMap
          (fun name => (file :: rest).find? (·.name == name)) =
        (rest.map ParsedFile.name).filterMap fun name => rest.find? (·.name == name) := by
      refine List.filterMap_congr fun name hname => ?_
      have hne : (file.name == name) = false :=
        beq_eq_false_iff_ne.mpr fun heq => hnew (heq ▸ hname)
      rw [List.find?_cons, hne]
    have hself : (file :: rest).find? (·.name == file.name) = some file := by
      rw [List.find?_cons, beq_self_eq_true]
    unfold inOrder at ih ⊢
    rw [List.map_cons, List.filterMap_cons, hself, hothers, ih hrest]

theorem mem_of_mem_inOrder {order : List String} {files : List ParsedFile} {file : ParsedFile}
    (h : file ∈ inOrder order files) : file ∈ files := by
  obtain ⟨_, _, hfound⟩ := List.mem_filterMap.mp h
  exact List.mem_of_find?_eq_some hfound

theorem inOrder_perm {files : List ParsedFile} (h : (files.map ParsedFile.name).Nodup) :
    inOrder (Graph.ofFiles files).order.order files ~ files := by
  have horder := (Graph.order_sound (Graph.ofFiles_wellFormed h)).2
  rw [Graph.files_ofFiles] at horder
  have hperm : inOrder (Graph.ofFiles files).order.order files ~
      inOrder (files.map ParsedFile.name) files := horder.filterMap _
  rwa [inOrder_map_name h] at hperm

/-- One more statement joins the group of its own stage and no other group. -/
theorem flatMap_filter_stage_cons (p : Placed) (rest : List Placed) {stages : List Stage}
    (hnodup : stages.Nodup) (hstage : p.stmt.stage ∈ stages) :
    (stages.flatMap fun stage => (p :: rest).filter fun q => q.stmt.stage == stage) ~
      p :: stages.flatMap fun stage => rest.filter fun q => q.stmt.stage == stage := by
  induction stages with
  | nil => exact absurd hstage List.not_mem_nil
  | cons stage others ih =>
    obtain ⟨hnew, hothers⟩ := List.nodup_cons.mp hnodup
    rw [List.flatMap_cons, List.flatMap_cons, List.filter_cons]
    by_cases heq : p.stmt.stage = stage
    · -- The other groups do not take the statement in.
      have hsame : (others.flatMap fun stage => (p :: rest).filter fun q => q.stmt.stage == stage) =
          others.flatMap fun stage => rest.filter fun q => q.stmt.stage == stage := by
        refine List.flatMap_congr fun other hother => ?_
        have hne : p.stmt.stage ≠ other := fun h => hnew (heq ▸ h ▸ hother)
        rw [List.filter_cons, if_neg (by simpa using hne)]
      rw [if_pos (by simpa using heq), hsame, List.cons_append]
    · have hin : p.stmt.stage ∈ others := (List.mem_cons.mp hstage).resolve_left heq
      rw [if_neg (by simpa using heq)]
      exact ((ih hothers hin).append_left _).trans List.perm_middle

/-- Every statement has exactly one stage. -/
theorem arrange_perm (placed : List Placed) : arrange placed ~ placed := by
  have hall : Stage.all.Nodup := by decide
  have hevery : ∀ stage : Stage, stage ∈ Stage.all := by
    intro stage
    cases stage <;> decide
  induction placed with
  | nil => exact List.Perm.refl _
  | cons p rest ih => exact (flatMap_filter_stage_cons p rest hall (hevery _)).trans (ih.cons p)

theorem placeFiles_perm (files : List ParsedFile) : placeFiles files ~ placedOf files :=
  arrange_perm _

/-- A statement in the namespace `path` of a file finds a declaration of `name`. -/
def Visible (files : List ParsedFile) (file : ParsedFile) (path name : String) : Prop :=
  ∃ space ∈ searchOrder files file path, Declares files space name

theorem Declares.perm {files others : List ParsedFile} (h : files ~ others) {path name : String}
    (hdeclares : Declares files path name) : Declares others path name := by
  obtain ⟨file, hfile, hstmt⟩ := hdeclares
  exact ⟨file, h.mem_iff.mp hfile, hstmt⟩

/-- What is visible does not depend on the order of the files. -/
theorem Graph.globalTargets_perm {files others : List ParsedFile} (h : files ~ others) :
    globalTargets files ~ globalTargets others :=
  ((h.flatMap_right _).filter _).map _

theorem Visible.perm {files others : List ParsedFile} (h : files ~ others) {file : ParsedFile}
    {path name : String} (hvisible : Visible files file path name) :
    Visible others file path name := by
  obtain ⟨space, hspace, hdeclares⟩ := hvisible
  have horder : searchOrder files file path ~ searchOrder others file path :=
    ((Graph.globalTargets_perm h).append_left _).append_right _
  exact ⟨space, horder.mem_iff.mp hspace, hdeclares.perm h⟩

theorem Declares.isIdentifier {files : List ParsedFile}
    (hnamed : ∀ file ∈ files, ∀ s ∈ file.program.stmts, (Node.stmt s).Named) {path name : String}
    (h : Declares files path name) : IsIdentifier name := by
  obtain ⟨file, hfile, i, s, kind, ident, hs, _, hdeclared, rfl⟩ := h
  have hnames : s.WellNamed := (hnamed file hfile s (List.mem_of_getElem? hs)).here
  exact hnames.declared hdeclared

theorem isSome_entry?_iff {files : List ParsedFile} (h : (files.map ParsedFile.name).Nodup)
    {file : ParsedFile} (hfile : file ∈ files) {p : Placed} (hp : p.file = file.name)
    {name : String} (hname : Unqualified name) :
    (Environment.entry? ((collect .standard files).environment p) name).isSome ↔
      Visible files file p.path name := by
  rw [entry?_environment h hfile hp hname, List.findSome?_isSome_iff]
  simp only [lookup_collect_isSome]
  rfl

/-- A reference that is no local refers to nothing exactly if nothing of its name is visible. Neither
    `self` nor `Self` can be declared. -/
theorem resolve?_eq_none_iff {files : List ParsedFile} (h : (files.map ParsedFile.name).Nodup)
    (hnamed : ∀ file ∈ files, ∀ s ∈ file.program.stmts, (Node.stmt s).Named)
    {file : ParsedFile} (hfile : file ∈ files) {p : Placed} (hp : p.file = file.name)
    {locals : List String} {name : String} (hname : IsReference name) (hlocal : name ∉ locals) :
    ((collect .standard files).environment p).resolve? locals name = none ↔
      ¬ Visible files file p.path name := by
  unfold Environment.resolve?
  rcases hname with hident | hself
  · have hself : ¬ (name = "self" ∨ name = "Self" ∨ name ∈ locals) := by
      rintro (heq | heq | hin)
      · exact hident.ne_text .selfKw heq
      · exact hident.ne_text .selfTypeKw heq
      · exact hlocal hin
    rw [if_neg hself, Option.map_eq_none_iff, ← isSome_entry?_iff h hfile hp hident.unqualified]
    simp
  · rw [if_pos (hself.elim .inl fun heq => .inr (.inl heq))]
    refine ⟨fun _ hvisible => ?_, fun _ => rfl⟩
    obtain ⟨_, _, hdeclares⟩ := hvisible
    have hident := hdeclares.isIdentifier hnamed
    rcases hself with heq | heq
    · exact hident.ne_text .selfKw heq
    · exact hident.ne_text .selfTypeKw heq

theorem link_eq_ok_iff {rules : Rules} {sources : Sources} {linked : Linked}
    {findings : List Finding} :
    link rules sources = .ok (linked, findings) ↔
      ∃ parsed failures, parseFiles sources = .ok (parsed, failures) ∧
        linked = (survey sources.names parsed).1 ∧
        findings = failures ++
          (survey sources.names parsed).2.filterMap (Finding.under rules) := by
  unfold link
  simp only [linkParsed_eq]
  cases parseFiles sources with
  | error e => simp
  | ok read =>
    obtain ⟨parsed, failures⟩ := read
    simp only [Except.ok.injEq, Prod.mk.injEq]
    constructor
    · rintro ⟨rfl, rfl⟩
      exact ⟨parsed, failures, ⟨rfl, rfl⟩, rfl, rfl⟩
    · rintro ⟨_, _, ⟨rfl, rfl⟩, rfl, rfl⟩
      exact ⟨rfl, rfl⟩

/-- What can be seen of a result is seen of one. -/
theorem exists_ok_of_map {ε α β : Type} {x : Except ε α} {view : α → β} {value : β}
    (h : x.toOption.map view = some value) : ∃ result, x = .ok result ∧ view result = value := by
  cases x with
  | error e => cases h
  | ok result => exact ⟨result, rfl, Option.some.inj h⟩

theorem exists_link_of_map {α : Type} {rules : Rules} {sources : Sources}
    {view : Linked × List Finding → α} {value : α}
    (h : (link rules sources).toOption.map view = some value) :
    ∃ linked findings, link rules sources = .ok (linked, findings) ∧
      view (linked, findings) = value := by
  obtain ⟨⟨linked, findings⟩, hlink, hview⟩ := exists_ok_of_map h
  exact ⟨linked, findings, hlink, hview⟩

/-- The program was linked from these files, which stand in dependency order. -/
structure LinkedFrom (linked : Linked) (files : List ParsedFile) : Prop where
  nodup : (files.map ParsedFile.name).Nodup
  named : ∀ file ∈ files, ∀ s ∈ file.program.stmts, (Node.stmt s).Named
  table : linked.table = (collect .standard files).table
  stmts : linked.program.stmts = (placeFiles files).map (collect .standard files).resolve

/-- A linked program comes from the files that were read, in their order. -/
theorem link_cases {rules : Rules} {sources : Sources} {linked : Linked} {findings : List Finding}
    (h : link rules sources = .ok (linked, findings)) :
    ∃ parsed failures, parseFiles sources = .ok (parsed, failures) ∧
      LinkedFrom linked (inOrder linked.order parsed) := by
  obtain ⟨parsed, failures, hparse, rfl, _⟩ := link_eq_ok_iff.mp h
  obtain ⟨hnodup, hnamed, _, _⟩ := parseFiles_cases hparse
  have hperm := inOrder_perm hnodup
  refine ⟨parsed, failures, hparse, ?_, fun file hfile => ?_, rfl, rfl⟩
  · exact (hperm.map ParsedFile.name).nodup_iff.mpr hnodup
  · exact hnamed file (hperm.mem_iff.mp hfile)

end ScriptCompiler
