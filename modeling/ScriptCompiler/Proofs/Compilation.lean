import ScriptCompiler.Compile
import ScriptCompiler.Proofs.Findings
import ScriptCompiler.Proofs.Linking
import ScriptCompiler.Proofs.Locals
import ScriptCompiler.Proofs.MainNamespaces

/-!
# When a compilation succeeds

A compilation is stopped by a text that cannot be tokenized and by nothing else. Otherwise it has a
result, which carries a script exactly if no error was found. Which programs are without errors is
said here about the parsed files alone: how their main namespaces are marked, which constructors
await, and which bare calls name a member of their class.
-/

namespace ScriptCompiler

open scoped List

/-- The identifier that a part calls without a receiver. -/
def Node.bareCallee? : Node → Option Ident
  | .expr (.call _ (.name _ callee) _ _) => some callee
  | _ => none

/-- The part calls `callee` without a receiver, which names a method or field of the innermost class
    around the part. -/
structure Occurrence.CallsMember (o : Occurrence) (callee : Ident) : Prop where
  calls : o.node.bareCallee? = some callee
  member : ∃ scope, o.class? = some scope ∧ callee.name ∈ scope.members

def Node.AwaitingConstructor : Node → Prop
  | .member (.constructor _ _ body) => body.awaits = true
  | _ => False

/-- A constructor that awaits stands in the files, at whatever depth. -/
def AwaitingConstructorIn (files : List ParsedFile) : Prop :=
  ∃ file ∈ files, ∃ s ∈ file.program.stmts, ∃ part, (Occurrence.top s).Within part ∧
    part.node.AwaitingConstructor

/-- A bare call that names a member of its class, but no local and no declaration that it could see,
    stands in the files, at whatever depth. -/
def MemberCallIn (files : List ParsedFile) : Prop :=
  ∃ file ∈ files, ∃ i s, file.program.stmts[i]? = some s ∧ ∃ position part callee,
    (Occurrence.top s).part? position = some part ∧ part.CallsMember callee ∧
      ¬ s.BindsAt position callee.name ∧
      ¬ Visible files file (activeNamespace (file.program.stmts.take (i + 1))) callee.name

/-- The parsed files have no errors under the given rules. -/
structure Compilable (rules : Rules) (files : List ParsedFile) : Prop where
  mains : rules.mode = .standard → MainsDistinct files
  constructors : ¬ AwaitingConstructorIn files
  calls : rules.memberCalls = .error → ¬ MemberCallIn files

/-! ### Errors among findings -/

theorem Finding.exists_error_iff {f : Finding} :
    (∃ d, f.diagnostic? = some d ∧ d.isError = true) ↔ f.severity? = some .error := by
  unfold diagnostic?
  constructor
  · rintro ⟨d, hd, herror⟩
    obtain ⟨severity, hseverity, rfl⟩ := Option.map_eq_some_iff.mp hd
    rw [hseverity]
    cases severity with
    | error => rfl
    | warning => cases hspan : f.span? <;> simp [hspan, Diagnostic.isError, Diagnostic.ofFile] at herror
  · intro h
    rw [h]
    refine ⟨_, rfl, ?_⟩
    cases f.span? <;> rfl

theorem Diagnostics.hasErrors_ofFindings {findings : List Finding} :
    (ofFindings findings).hasErrors = true ↔ ∃ f ∈ findings, f.severity? = some .error := by
  have herrors : (ofFindings findings).errors =
      (findings.filterMap Finding.diagnostic?).filter Diagnostic.isError := errors_ofList _
  rw [hasErrors, herrors, Bool.not_eq_true', List.isEmpty_eq_false_iff_exists_mem]
  constructor
  · rintro ⟨d, hd⟩
    obtain ⟨hd, herror⟩ := List.mem_filter.mp hd
    obtain ⟨f, hf, hdiagnostic⟩ := List.mem_filterMap.mp hd
    exact ⟨f, hf, Finding.exists_error_iff.mp ⟨d, hdiagnostic, herror⟩⟩
  · rintro ⟨f, hf, herror⟩
    obtain ⟨d, hdiagnostic, hd⟩ := Finding.exists_error_iff.mpr herror
    exact ⟨d, List.mem_filter.mpr ⟨List.mem_filterMap.mpr ⟨f, hf, hdiagnostic⟩, hd⟩⟩

theorem exists_error_under_iff {rules : Rules} {findings : List Finding} :
    (∃ f ∈ findings.filterMap (Finding.under rules), f.severity? = some .error) ↔
      ∃ f ∈ findings, f.severityUnder rules = some .error := by
  simp only [List.mem_filterMap, Finding.severityUnder, Option.bind_eq_some_iff]
  constructor
  · rintro ⟨g, ⟨f, hf, hunder⟩, herror⟩
    exact ⟨f, hf, g, hunder, herror⟩
  · rintro ⟨f, hf, g, hunder, herror⟩
    exact ⟨g, ⟨f, hf, hunder⟩, herror⟩

/-- While declarations are collected, errors are found in standard mode only, and only about main
    namespaces. -/
theorem exists_error_collect_iff {rules : Rules} {files : List ParsedFile} :
    (∃ f ∈ (collect .standard files).findings, f.severityUnder rules = some .error) ↔
      rules.mode = .standard ∧ ¬ MainsDistinct files := by
  have hmain : ∀ {f : Finding}, f.isMainRule →
      (f.severityUnder rules = some .error ↔ rules.mode = .standard) := by
    intro f hf
    cases f with
    | duplicateMain | namespaceMissing | mainMissing | manyMains =>
      cases hmode : rules.mode <;>
        simp [Finding.severityUnder, Finding.under, Finding.isMainRule, Finding.severity?, hmode]
    | _ => cases hf
  rw [← collect_mains_iff]
  constructor
  · rintro ⟨f, hf, herror⟩
    rcases collect_findings_cases hf with habout | hredeclared
    · exact ⟨(hmain habout).mp herror, fun hnone => hnone f hf habout⟩
    · cases f with
      | redeclared => cases herror
      | _ => exact hredeclared.elim
  · rintro ⟨hmode, hsome⟩
    obtain ⟨f, hf, habout⟩ : ∃ f ∈ (collect .standard files).findings, f.isMainRule := by
      by_contra hnone
      exact hsome fun f hf habout => hnone ⟨f, hf, habout⟩
    exact ⟨f, hf, (hmain habout).mpr hmode⟩

/-! ### Errors in statements -/

/-- A bare call is in error if the rules forbid it, and it names a member and nothing else. -/
theorem Site.exists_error_call_iff {rules : Rules} {site : Site} {locals : List String}
    {callee : Ident} :
    (∃ f ∈ (site.callFinding? .error locals callee).toList, f.severityUnder rules = some .error) ↔
      rules.memberCalls = .error ∧
        (∃ scope, site.class? = some scope ∧ callee.name ∈ scope.members) ∧
        callee.name ∉ locals ∧ site.env.resolve? locals callee.name = none := by
  have hseverity : ∀ file span name className,
      (Finding.implicitMemberCall file span name className .error).severityUnder rules =
        some .error ↔
        rules.memberCalls = .error := by
    intro file span name className
    cases hpolicy : rules.memberCalls <;> 
      simp [Finding.severityUnder, Finding.under, Finding.severity?, MemberCallPolicy.severity?,
        hpolicy]
  unfold callFinding?
  cases site.class? with
  | none => simp
  | some scope =>
    simp only [Option.bind_some, Option.some.injEq]
    split
    · rename_i h
      simp [hseverity, h]
    · rename_i h
      constructor
      · rintro ⟨f, hf, _⟩
        exact absurd hf (by simp)
      · rintro ⟨_, ⟨_, rfl, hmember⟩, hlocal, hresolve⟩
        exact absurd ⟨hmember, hlocal, hresolve⟩ h

/-- Parts without findings of their own that are neither bare calls nor constructors are not in
    error. -/
theorem Occurrence.exists_error_own_of_nil {rules : Rules} {file : String} {env : Environment}
    {o : Occurrence} (hown : o.ownFindings file env = []) (hcall : o.node.bareCallee? = none)
    (hawaits : ¬ o.node.AwaitingConstructor) :
    (∃ f ∈ o.ownFindings file env, f.severityUnder rules = some .error) ↔
      o.node.AwaitingConstructor ∨ rules.memberCalls = .error ∧
        ∃ callee, o.CallsMember callee ∧ callee.name ∉ o.locals ∧
          env.resolve? o.locals callee.name = none := by
  rw [hown]
  constructor
  · rintro ⟨f, hf, _⟩
    exact absurd hf List.not_mem_nil
  · rintro (h | ⟨_, callee, hcalls, _⟩)
    · exact absurd h hawaits
    · rw [hcalls.calls] at hcall
      cases hcall

/-- A part is in error itself if it is a constructor that awaits, or if it is a bare call of a member
    that refers to nothing and the rules forbid such calls. -/
theorem Occurrence.exists_error_own_iff {rules : Rules} {file : String} {env : Environment}
    {o : Occurrence} :
    (∃ f ∈ o.ownFindings file env, f.severityUnder rules = some .error) ↔
      o.node.AwaitingConstructor ∨ rules.memberCalls = .error ∧
        ∃ callee, o.CallsMember callee ∧ callee.name ∉ o.locals ∧
          env.resolve? o.locals callee.name = none := by
  obtain ⟨locals, class?, node⟩ := o
  cases node with
  | expr e =>
    cases e with
    | call span callee args closure? =>
      cases callee with
      | name nameSpan callee =>
        show (∃ f ∈ (Site.callFinding? ⟨file, env, class?⟩ .error locals callee).toList, _) ↔ _
        rw [Site.exists_error_call_iff]
        constructor
        · rintro ⟨hpolicy, hmember, hlocal, hresolve⟩
          exact .inr ⟨hpolicy, callee, ⟨rfl, hmember⟩, hlocal, hresolve⟩
        · rintro (hawaits | ⟨hpolicy, other, ⟨hcalls, hmember⟩, hlocal, hresolve⟩)
          · exact hawaits.elim
          · obtain rfl := Option.some.inj hcalls
            exact ⟨hpolicy, hmember, hlocal, hresolve⟩
      | _ => exact exists_error_own_of_nil rfl rfl id
    | _ => exact exists_error_own_of_nil rfl rfl id
  | member m =>
    cases m with
    | constructor span params body =>
      cases hawaits : body.awaits with
      | true =>
        have hown : ∃ name, ownFindings file env
            ⟨locals, class?, .member (.constructor span params body)⟩ =
              [.awaitingConstructor file span name] := by
          simp [ownFindings, hawaits]
        obtain ⟨name, hown⟩ := hown
        exact ⟨fun _ => .inl hawaits, fun _ => ⟨_, hown ▸ List.mem_cons_self, rfl⟩⟩
      | false =>
        refine exists_error_own_of_nil ?_ rfl ?_
        · simp [ownFindings, hawaits]
        · simp [Node.AwaitingConstructor, hawaits]
    | _ => exact exists_error_own_of_nil rfl rfl id
  | _ => exact exists_error_own_of_nil rfl rfl id

theorem Stmt.check_withUniqueName (site : Site) (locals : List String) (path : String) (s : Stmt) :
    (s.withUniqueName path).check site locals = s.check site locals := by
  cases s with
  | classDecl span decl =>
    cases decl
    simp [withUniqueName, Stmt.check, ClassDecl.check]
  | _ => simp [withUniqueName, Stmt.check]

theorem exists_error_check_iff {rules : Rules} {file : String} {env : Environment} {s : Stmt} :
    (∃ f ∈ s.check ⟨file, env, none⟩ [], f.severityUnder rules = some .error) ↔
      ∃ part, (Occurrence.top s).Within part ∧
        ∃ f ∈ part.ownFindings file env, f.severityUnder rules = some .error := by
  have hmem : ∀ {f : Finding}, f.severityUnder rules = some .error →
      (f ∈ s.check ⟨file, env, none⟩ [] ↔
        ∃ part, (Occurrence.top s).Within part ∧ f ∈ part.ownFindings file env) := by
    intro f herror
    refine Occurrence.mem_check_iff (o := Occurrence.top s) fun href => ?_
    cases f with
    | qualifiedReference => cases herror
    | _ => exact href.elim
  constructor
  · rintro ⟨f, hf, herror⟩
    obtain ⟨part, hpart, hown⟩ := (hmem herror).mp hf
    exact ⟨part, hpart, f, hown, herror⟩
  · rintro ⟨part, hpart, f, hown, herror⟩
    exact ⟨f, (hmem herror).mpr ⟨part, hpart, hown⟩, herror⟩

/-! ### Errors of files -/

/-- The callee of a bare call in a parsed program is an identifier, `self` or `Self`. -/
theorem Occurrence.CallsMember.isReference {s : Stmt} (hs : (Node.stmt s).Named)
    {part : Occurrence} (hpart : (top s).Within part) {callee : Ident}
    (h : part.CallsMember callee) : IsReference callee.name := by
  have hcalls := h.calls
  have hwhole : (top s).node.Named := hs
  have hnamed := hwhole.of_within hpart
  unfold Node.bareCallee? at hcalls
  split at hcalls
  · rename_i span nameSpan called args closure? hnode
    obtain rfl := Option.some.inj hcalls
    have hchild : .plain (.expr (.name nameSpan called)) ∈ part.node.children := by
      rw [hnode]
      exact List.mem_cons_self
    exact (hnamed.child hchild).here
  · cases hcalls

section

variable {rules : Rules} {files : List ParsedFile} (hnodup : (files.map ParsedFile.name).Nodup)
  (hnamed : ∀ file ∈ files, ∀ s ∈ file.program.stmts, (Node.stmt s).Named)

include hnodup hnamed

theorem exists_error_stmt_iff {file : ParsedFile} (hfile : file ∈ files) {s : Stmt}
    (hs : s ∈ file.program.stmts) (path : String) :
    (∃ f ∈ (collect .standard files).check ⟨s.withUniqueName path, file.name, path⟩,
        f.severityUnder rules = some .error) ↔
      ∃ position part, (Occurrence.top s).part? position = some part ∧
        (part.node.AwaitingConstructor ∨ rules.memberCalls = .error ∧ ∃ callee,
          part.CallsMember callee ∧ ¬ s.BindsAt position callee.name ∧
            ¬ Visible files file path callee.name) := by
  rw [Collected.check, Stmt.check_withUniqueName, exists_error_check_iff]
  simp only [Occurrence.Within, ← exists_and_right]
  rw [exists_comm]
  -- Both sides speak about the same part, so that only what it refers to remains to be compared.
  refine exists_congr fun position => exists_congr fun part => and_congr_right fun hpart => ?_
  rw [Occurrence.exists_error_own_iff]
  refine or_congr_right (and_congr_right fun _ => exists_congr fun callee =>
    and_congr_right fun hcalls => ?_)
  rw [Occurrence.mem_locals_top hpart]
  refine and_congr_right fun hlocal => ?_
  have href := hcalls.isReference (hnamed file hfile s hs) ⟨position, hpart⟩
  rw [← Occurrence.mem_locals_top hpart] at hlocal
  exact resolve?_eq_none_iff hnodup hnamed hfile rfl href hlocal

theorem exists_error_placed_iff :
    (∃ f ∈ (placeFiles files).flatMap (collect .standard files).check,
        f.severityUnder rules = some .error) ↔
      AwaitingConstructorIn files ∨ rules.memberCalls = .error ∧ MemberCallIn files := by
  constructor
  · rintro ⟨f, hf, herror⟩
    obtain ⟨p, hp, hf⟩ := List.mem_flatMap.mp hf
    obtain ⟨file, hfile, i, s, hs, rfl⟩ := mem_placedOf.mp ((placeFiles_perm files).mem_iff.mp hp)
    have hmem : s ∈ file.program.stmts := List.mem_of_getElem? hs
    obtain ⟨position, part, hpart, hawaits | ⟨hpolicy, callee, hcall⟩⟩ :=
      (exists_error_stmt_iff hnodup hnamed hfile hmem _).mp ⟨f, hf, herror⟩
    · exact .inl ⟨file, hfile, s, hmem, part, ⟨position, hpart⟩, hawaits⟩
    · exact .inr ⟨hpolicy, file, hfile, i, s, hs, position, part, callee, hpart, hcall⟩
  · -- The findings of every statement are among those of the program, whatever their order.
    have hplaced : ∀ {file : ParsedFile}, file ∈ files → ∀ {i s}, file.program.stmts[i]? = some s →
        (∃ f ∈ (collect .standard files).check ⟨s.withUniqueName (activeNamespace
            (file.program.stmts.take (i + 1))), file.name, activeNamespace
            (file.program.stmts.take (i + 1))⟩, f.severityUnder rules = some .error) →
          ∃ f ∈ (placeFiles files).flatMap (collect .standard files).check,
            f.severityUnder rules = some .error := by
      rintro file hfile i s hs ⟨f, hf, herror⟩
      have hp := (placeFiles_perm files).mem_iff.mpr (mem_placedOf.mpr ⟨file, hfile, i, s, hs, rfl⟩)
      exact ⟨f, List.mem_flatMap.mpr ⟨_, hp, hf⟩, herror⟩
    rintro (⟨file, hfile, s, hs, part, ⟨position, hpart⟩, hawaits⟩ |
      ⟨hpolicy, file, hfile, i, s, hs, position, part, callee, hpart, hcall⟩)
    · obtain ⟨i, hi⟩ := List.mem_iff_getElem?.mp hs
      exact hplaced hfile hi ((exists_error_stmt_iff hnodup hnamed hfile hs _).mpr
        ⟨position, part, hpart, .inl hawaits⟩)
    · have hmem : s ∈ file.program.stmts := List.mem_of_getElem? hs
      exact hplaced hfile hs ((exists_error_stmt_iff hnodup hnamed hfile hmem _).mpr
        ⟨position, part, hpart, .inr ⟨hpolicy, callee, hcall⟩⟩)

end

/-! ### How a compilation ends -/

theorem MainsDistinct.perm {files others : List ParsedFile} (h : files ~ others)
    (hmains : MainsDistinct files) : MainsDistinct others := by
  refine ⟨fun file hfile => hmains.single file (h.mem_iff.mpr hfile), ?_⟩
  refine (h.pairwise_iff ?_).mp hmains.apart
  intro a b hab path hb ha
  exact hab path ha hb

theorem AwaitingConstructorIn.perm {files others : List ParsedFile} (h : files ~ others)
    (hin : AwaitingConstructorIn files) : AwaitingConstructorIn others := by
  obtain ⟨file, hfile, hstmt⟩ := hin
  exact ⟨file, h.mem_iff.mp hfile, hstmt⟩

theorem MemberCallIn.perm {files others : List ParsedFile} (h : files ~ others)
    (hin : MemberCallIn files) : MemberCallIn others := by
  obtain ⟨file, hfile, i, s, hs, position, part, callee, hpart, hcalls, hfree, hunseen⟩ := hin
  exact ⟨file, h.mem_iff.mp hfile, i, s, hs, position, part, callee, hpart, hcalls, hfree,
    fun hseen => hunseen (hseen.perm h.symm)⟩

/-- Whether files have errors does not depend on their order. -/
theorem Compilable.perm {rules : Rules} {files others : List ParsedFile} (h : files ~ others)
    (hfiles : Compilable rules files) : Compilable rules others :=
  ⟨fun hmode => (hfiles.mains hmode).perm h, fun hin => hfiles.constructors (hin.perm h.symm),
    fun hpolicy hin => hfiles.calls hpolicy (hin.perm h.symm)⟩

/-- Linking finds no error exactly if the files have none. -/
theorem survey_errors_iff {rules : Rules} {names : List String} {parsed : List ParsedFile}
    (hnodup : (parsed.map ParsedFile.name).Nodup)
    (hnamed : ∀ file ∈ parsed, ∀ s ∈ file.program.stmts, (Node.stmt s).Named) :
    (∃ f ∈ (survey names parsed).2, f.severityUnder rules = some .error) ↔
      ¬ Compilable rules parsed := by
  have hperm := inOrder_perm hnodup
  have hnodup' := (hperm.map ParsedFile.name).nodup_iff.mpr hnodup
  have hnamed' := fun file hfile => hnamed file (hperm.mem_iff.mp hfile)
  unfold survey
  dsimp only
  generalize inOrder (Graph.ofFiles parsed).order.order parsed = files at hperm hnodup' hnamed' ⊢
  have hcycles : ¬ ∃ f ∈ (Graph.ofFiles parsed).order.cycles.map Finding.cycle,
      f.severityUnder rules = some .error := by
    rintro ⟨f, hf, herror⟩
    obtain ⟨path, _, rfl⟩ := List.mem_map.mp hf
    cases herror
  have hcompilable : Compilable rules parsed ↔ Compilable rules files :=
    ⟨fun h => h.perm hperm.symm, fun h => h.perm hperm⟩
  simp only [List.mem_append, or_and_right, exists_or, hcycles, false_or]
  rw [exists_error_collect_iff, exists_error_placed_iff hnodup' hnamed', hcompilable]
  constructor
  · rintro (⟨hmode, hmains⟩ | hawaits | ⟨hpolicy, hcall⟩) h
    · exact hmains (h.mains hmode)
    · exact h.constructors hawaits
    · exact h.calls hpolicy hcall
  · intro h
    by_contra hnone
    rw [not_or, not_or] at hnone
    obtain ⟨hmains, hconstructors, hcalls⟩ := hnone
    refine h ⟨fun hmode => ?_, hconstructors, fun hpolicy hcall => hcalls ⟨hpolicy, hcall⟩⟩
    by_contra hdistinct
    exact hmains ⟨hmode, hdistinct⟩

/-- What the result of a compilation says: whether it has a script, an error, a source map, and
    whether the files of the compilation are without errors. -/
structure Outcome (sources : Sources) (mode : Mode) (options : CompileOptions)
    (result : CompileResult) : Prop where
  code : result.success = true ↔ result.code?.isSome
  errors : result.success = true ↔ ∀ d ∈ result.diagnostics, d.isError = false
  sourceMap : result.sourceMap?.isSome ↔ result.success = true ∧ options.sourceMap = true
  success : result.success = true ↔
    ∃ files, ParsesTo sources files ∧ Compilable ⟨mode, options.memberCalls⟩ files

theorem Script.isSome_sourceMap?_generate (options : Script.Options) (files : List String)
    (program : Program) :
    (generate options files program).sourceMap?.isSome = options.mapFile?.isSome := by
  unfold generate
  cases options.mapFile? <;> rfl

theorem Diagnostics.forall_isError_iff {findings : List Finding} :
    (∀ d ∈ (ofFindings findings).toList, d.isError = false) ↔
      (ofFindings findings).hasErrors = false := by
  unfold toList hasErrors ofFindings
  rw [errors_ofList, warnings_ofList, Bool.not_eq_false', List.isEmpty_iff, List.filter_eq_nil_iff]
  constructor
  · intro h d hd herror
    have hnot := h d (List.mem_append_left _ (List.mem_filter.mpr ⟨hd, herror⟩))
    rw [herror] at hnot
    cases hnot
  · intro h d hd
    rcases List.mem_append.mp hd with hd | hd
    · exact Bool.eq_false_iff.mpr (h d (List.mem_filter.mp hd).1)
    · exact Bool.eq_false_iff.mpr (h d (List.mem_filter.mp hd).1)

/-- Linking has found an error exactly if a file is not parsed or the parsed files have errors. -/
theorem hasErrors_link_iff {rules : Rules} {sources : Sources} {linked : Linked}
    {findings : List Finding} (h : link rules sources = .ok (linked, findings)) :
    (Diagnostics.ofFindings findings).hasErrors = false ↔
      ∃ files, ParsesTo sources files ∧ Compilable rules files := by
  obtain ⟨parsed, failures, hparse, _, rfl⟩ := link_eq_ok_iff.mp h
  obtain ⟨hnodup, hnamed, hfailures, hcomplete⟩ := parseFiles_cases hparse
  rw [← Bool.not_eq_true, Diagnostics.hasErrors_ofFindings]
  simp only [List.mem_append, or_and_right, exists_or, hcomplete, exists_error_under_iff,
    survey_errors_iff hnodup hnamed, not_or, not_not]
  constructor
  · rintro ⟨hparsed, hcompilable⟩
    have hnil : failures = [] := by
      cases failures with
      | nil => rfl
      | cons f rest =>
        obtain ⟨file, e, rfl⟩ := hfailures f List.mem_cons_self
        exact absurd ⟨_, List.mem_cons_self, rfl⟩ hparsed
    exact ⟨parsed, ⟨hnil, rfl⟩, hcompilable⟩
  · rintro ⟨files, ⟨rfl, rfl⟩, hcompilable⟩
    exact ⟨by simp, hcompilable⟩

theorem compile_eq_ok_iff {sources : Sources} {mode : Mode} {options : CompileOptions}
    {result : CompileResult} :
    compile sources mode options = .ok result ↔
      ∃ linked findings, link (options.rules mode) sources = .ok (linked, findings) ∧
        result = finish options linked findings := by
  unfold compile
  cases link (options.rules mode) sources with
  | error e => simp
  | ok read =>
    obtain ⟨linked, findings⟩ := read
    simp [eq_comm]

theorem diagnostics_finish (options : CompileOptions) (linked : Linked) (findings : List Finding) :
    (finish options linked findings).diagnostics = (Diagnostics.ofFindings findings).toList := by
  unfold finish
  dsimp only
  split <;> rfl

theorem finish_outcome {sources : Sources} {mode : Mode} {options : CompileOptions}
    {linked : Linked} {findings : List Finding}
    (h : link (options.rules mode) sources = .ok (linked, findings)) :
    Outcome sources mode options (finish options linked findings) := by
  have hfiles := hasErrors_link_iff h
  have hdiagnostics : (∀ d ∈ (Diagnostics.ofFindings findings).toList, d.isError = false) ↔ _ :=
    Diagnostics.forall_isError_iff
  unfold finish
  dsimp only
  cases herrors : (Diagnostics.ofFindings findings).hasErrors with
  | true =>
    rw [herrors] at hfiles hdiagnostics
    rw [if_pos rfl]
    refine ⟨by simp [CompileResult.failed], by simpa [CompileResult.failed] using hdiagnostics,
      by simp [CompileResult.failed], ?_⟩
    exact ⟨fun hfalse => absurd hfalse Bool.false_ne_true,
      fun hsome => absurd (hfiles.mpr hsome).symm Bool.false_ne_true⟩
  | false =>
    rw [herrors] at hfiles hdiagnostics
    rw [if_neg Bool.false_ne_true]
    refine ⟨by simp, ⟨fun _ => hdiagnostics.mpr rfl, fun _ => rfl⟩, ?_,
      ⟨fun _ => hfiles.mp rfl, fun _ => rfl⟩⟩
    rw [Script.isSome_sourceMap?_generate, CompileOptions.script]
    cases options.sourceMap <;> simp

/-- Whatever the files, the mode and the options: a compilation fails exactly if some text cannot be
    tokenized, and then it names the first such file and the error of its text; otherwise it has a
    result, which succeeds exactly if all files are parsed and have no errors. -/
theorem compile_outcome (sources : Sources) (mode : Mode) (options : CompileOptions) :
    (∀ e, compile sources mode options = .error e ↔ FirstUntokenized sources e) ∧
    ((∃ e, compile sources mode options = .error e) ↔
      ∃ entry ∈ sources.entries, ∃ cause, tokenize entry.2 = .error cause) ∧
    ((∀ entry ∈ sources.entries, ∃ lexemes, tokenize entry.2 = .ok lexemes) →
      ∃ result, compile sources mode options = .ok result ∧
        Outcome sources mode options result) := by
  have herror : ∀ e, compile sources mode options = .error e ↔ FirstUntokenized sources e := by
    intro e
    rw [← parseFiles_eq_error_iff]
    unfold compile link
    cases parseFiles sources <;> simp
  refine ⟨herror, ?_, ?_⟩
  · simp only [herror]
    exact exists_firstUntokenized_iff
  · intro htokens
    cases hlink : link (options.rules mode) sources with
    | ok read =>
      obtain ⟨linked, findings⟩ := read
      exact ⟨_, by rw [compile, hlink], finish_outcome hlink⟩
    | error e =>
      -- A link that fails names a file whose text cannot be tokenized.
      obtain ⟨text, hin, htext, _⟩ := (herror e).mp (by rw [compile, hlink])
      obtain ⟨lexemes, hlexemes⟩ := htokens _ hin
      rw [htext] at hlexemes
      cases hlexemes

end ScriptCompiler
