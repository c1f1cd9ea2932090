import ScriptCompiler.Proofs.Compilation

/-!
# What the rules of a compilation decide

The mode and the policy on implicit member calls decide what is reported, and nothing else: there is
one linked program for all of them. A diagnostic does not carry the finding that it comes from, but
its message tells whether it is about an implicit member call or about main namespaces. These are
the two kinds of findings that the rules speak about.
-/

namespace ScriptCompiler

open scoped List

/-! ### What messages begin with -/

/-- What a text begins with, more text begins with. -/
theorem prefix_toList_append {text first : String} (h : text.toList <+: first.toList)
    (rest : String) : text.toList <+: (first ++ rest).toList := by
  rw [String.toList_append]
  exact List.prefix_append_of_prefix h

namespace Diagnostic

def begins (d : Diagnostic) (text : String) : Bool :=
  text.toList.isPrefixOf d.message.toList

/-- What is said about implicit member calls begins so. -/
def memberCallText : String := "call to '"

/-- What is said about main namespaces begins with one of these. -/
def mainRuleTexts : List String :=
  ["duplicate main namespace '", "file does not declare a namespace",
    "file does not declare a main namespace (mark one with '!')",
    "file declares more than one main namespace"]

/-- Is this about a bare call that names a member of its class? -/
def isMemberCall (d : Diagnostic) : Bool :=
  d.begins memberCallText

/-- Is this about the main namespaces of the files? -/
def isMainRule (d : Diagnostic) : Bool :=
  mainRuleTexts.any d.begins

/-- The same message at the same place, as an error. -/
def asError (d : Diagnostic) : Diagnostic :=
  { d with severity := .error }

theorem begins_eq_true {d : Diagnostic} {text : String} (h : text.toList <+: d.message.toList) :
    d.begins text = true :=
  List.isPrefixOf_iff_prefix.mpr h

/-- A message begins in one way only. -/
theorem begins_eq_false {d : Diagnostic} {text other : String}
    (h : text.toList <+: d.message.toList) (hshort : ¬ text.toList <+: other.toList)
    (hlong : ¬ other.toList <+: text.toList) : d.begins other = false := by
  by_contra hbegins
  have hother : other.toList <+: d.message.toList :=
    List.isPrefixOf_iff_prefix.mp (Bool.not_eq_false _ ▸ hbegins)
  rcases List.prefix_or_prefix_of_prefix h hother with hfound | hfound
  · exact hshort hfound
  · exact hlong hfound

end Diagnostic

namespace Finding

/-- Is this a bare call that names a member of its class? -/
def isMemberCall : Finding → Bool
  | .implicitMemberCall .. => true
  | _ => false

/-- What is said about everything else begins with one of these. -/
def otherTexts : List String :=
  ["expected ", "unknown attribute '@", "invalid assignment target", "circular dependency: ",
    "variable", "function", "class", "foreign function", "constructor of '", "reference to "]

end Finding

open Diagnostic (begins_eq_true begins_eq_false mainRuleTexts memberCallText)
open Finding (otherTexts)

theorem ParseCause.exists_otherText (cause : ParseCause) :
    ∃ text ∈ otherTexts, text.toList <+: cause.message.toList := by
  have hexpected : "expected " ∈ otherTexts := List.mem_cons_self
  cases cause with
  | unknownMarker name =>
    refine ⟨"unknown attribute '@", by simp [otherTexts], ?_⟩
    iterate 2 refine prefix_toList_append ?_ _
    exact List.prefix_rfl
  | invalidTarget => exact ⟨"invalid assignment target", by simp [otherTexts], List.prefix_rfl⟩
  | expectedToken _ _ | expectedTarget _ _ =>
    refine ⟨_, hexpected, ?_⟩
    iterate 4 refine prefix_toList_append ?_ _
    decide
  | _ =>
    refine ⟨_, hexpected, ?_⟩
    iterate 2 refine prefix_toList_append ?_ _
    decide

namespace Finding

theorem exists_otherText {f : Finding} (hcall : f.isMemberCall = false)
    (hmain : f.isMainRule = false) : ∃ text ∈ otherTexts, text.toList <+: f.message.toList := by
  cases f with
  | unparsable _ error => exact error.cause.exists_otherText
  | redeclared _ _ kind _ previous =>
    refine ⟨kind.text, by cases kind <;> simp [otherTexts, EntryKind.text], ?_⟩
    iterate 7 refine prefix_toList_append ?_ _
    exact List.prefix_rfl
  | cycle path =>
    exact ⟨_, by simp [otherTexts], prefix_toList_append List.prefix_rfl _⟩
  | awaitingConstructor _ _ className =>
    exact ⟨_, by simp [otherTexts], prefix_toList_append (prefix_toList_append List.prefix_rfl _) _⟩
  | qualifiedReference _ uniqueName =>
    exact ⟨_, by simp [otherTexts], prefix_toList_append List.prefix_rfl _⟩
  | implicitMemberCall => cases hcall
  | duplicateMain | namespaceMissing | mainMissing | manyMains => cases hmain

theorem exists_mainRuleText {f : Finding} (h : f.isMainRule = true) :
    ∃ text ∈ mainRuleTexts, text.toList <+: f.message.toList := by
  cases f with
  | duplicateMain _ _ name first =>
    refine ⟨_, List.mem_cons_self, ?_⟩
    iterate 4 refine prefix_toList_append ?_ _
    exact List.prefix_rfl
  | namespaceMissing file =>
    have hin : (namespaceMissing file).message ∈ mainRuleTexts := .tail _ (.head _)
    exact ⟨_, hin, List.prefix_rfl⟩
  | mainMissing file =>
    have hin : (mainMissing file).message ∈ mainRuleTexts := .tail _ (.tail _ (.head _))
    exact ⟨_, hin, List.prefix_rfl⟩
  | manyMains file =>
    have hin : (manyMains file).message ∈ mainRuleTexts := .tail _ (.tail _ (.tail _ (.head _)))
    exact ⟨_, hin, List.prefix_rfl⟩
  | _ => cases h

theorem prefix_of_isMemberCall {f : Finding} (h : f.isMemberCall = true) :
    memberCallText.toList <+: f.message.toList := by
  cases f with
  | implicitMemberCall _ _ callee className =>
    iterate 8 refine prefix_toList_append ?_ _
    exact List.prefix_rfl
  | _ => cases h

/-! ### Reports of findings -/

/-- The diagnostic of a finding that is taken for an error or a warning. -/
def report (severity : Severity) (f : Finding) : Diagnostic :=
  match f.span? with
  | some span => ⟨severity, f.message, span.line, span.column, f.file⟩
  | none => .ofFile severity f.message f.file

theorem severity_report (severity : Severity) (f : Finding) :
    (f.report severity).severity = severity := by
  unfold report
  split <;> rfl

theorem message_report (severity : Severity) (f : Finding) :
    (f.report severity).message = f.message := by
  unfold report
  split <;> rfl

theorem asError_report (severity : Severity) (f : Finding) :
    (f.report severity).asError = f.report .error := by
  unfold report
  split <;> rfl

/-- The message of a report tells whether it is about an implicit member call. -/
theorem isMemberCall_report (severity : Severity) (f : Finding) :
    (f.report severity).isMemberCall = f.isMemberCall := by
  have hapart : ∀ text ∈ mainRuleTexts ++ otherTexts,
      ¬ text.toList <+: memberCallText.toList ∧ ¬ memberCallText.toList <+: text.toList := by
    decide
  have hmessage := f.message_report severity
  cases hcall : f.isMemberCall with
  | true => exact begins_eq_true (hmessage ▸ prefix_of_isMemberCall hcall)
  | false =>
    have hbegins : ∃ text ∈ mainRuleTexts ++ otherTexts, text.toList <+: f.message.toList := by
      cases hmain : f.isMainRule with
      | true =>
        obtain ⟨text, htext, hprefix⟩ := exists_mainRuleText hmain
        exact ⟨text, List.mem_append_left _ htext, hprefix⟩
      | false =>
        obtain ⟨text, htext, hprefix⟩ := exists_otherText hcall hmain
        exact ⟨text, List.mem_append_right _ htext, hprefix⟩
    -- Of two beginnings of one message, one begins the other.
    obtain ⟨text, htext, hprefix⟩ := hbegins
    obtain ⟨hshort, hlong⟩ := hapart text htext
    exact begins_eq_false (hmessage ▸ hprefix) hshort hlong

/-- The message of a report tells whether it is about main namespaces. -/
theorem isMainRule_report (severity : Severity) (f : Finding) :
    (f.report severity).isMainRule = f.isMainRule := by
  have hapart : ∀ text ∈ memberCallText :: otherTexts, ∀ main ∈ mainRuleTexts,
      ¬ text.toList <+: main.toList ∧ ¬ main.toList <+: text.toList := by
    decide
  have hmessage := f.message_report severity
  cases hmain : f.isMainRule with
  | true =>
    obtain ⟨text, htext, hprefix⟩ := exists_mainRuleText hmain
    exact List.any_eq_true.mpr ⟨text, htext, begins_eq_true (hmessage ▸ hprefix)⟩
  | false =>
    have hbegins : ∃ text ∈ memberCallText :: otherTexts, text.toList <+: f.message.toList := by
      cases hcall : f.isMemberCall with
      | true => exact ⟨_, List.mem_cons_self, prefix_of_isMemberCall hcall⟩
      | false =>
        obtain ⟨text, htext, hprefix⟩ := exists_otherText hcall hmain
        exact ⟨text, List.mem_cons_of_mem _ htext, hprefix⟩
    obtain ⟨text, htext, hprefix⟩ := hbegins
    refine List.any_eq_false.mpr fun main hin => ?_
    obtain ⟨hshort, hlong⟩ := hapart text htext main hin
    exact Bool.not_eq_true _ ▸ begins_eq_false (hmessage ▸ hprefix) hshort hlong

end Finding

/-! ### Diagnostics under all rules -/

namespace Finding

theorem severityUnder_of_isMemberCall {f : Finding} (h : f.isMemberCall = true) (rules : Rules) :
    f.severityUnder rules = rules.memberCalls.severity? := by
  cases f with
  | implicitMemberCall =>
    obtain ⟨mode, policy⟩ := rules
    cases policy <;> rfl
  | _ => cases h

/-- The policy is about implicit member calls only. -/
theorem severityUnder_policy {f : Finding} (h : f.isMemberCall = false) (mode : Mode)
    (policy policy' : MemberCallPolicy) :
    f.severityUnder ⟨mode, policy⟩ = f.severityUnder ⟨mode, policy'⟩ := by
  cases f with
  | implicitMemberCall => cases h
  | _ => rfl

/-- The mode is about main namespaces only, and takes them for errors or for nothing. -/
theorem severityUnder_mode (f : Finding) (policy : MemberCallPolicy) :
    f.severityUnder ⟨.standard, policy⟩ =
        (if f.isMainRule then some .error else f.severityUnder ⟨.repl, policy⟩) ∧
      (f.isMainRule = true → f.severityUnder ⟨.repl, policy⟩ = none) := by
  cases f <;> simp [severityUnder, under, severity?, isMainRule]

/-- What is reported under the rules. -/
theorem diagnostic?_under (rules : Rules) (f : Finding) :
    (f.under rules).bind diagnostic? =
      (f.severityUnder rules).map fun severity => f.report severity := by
  unfold severityUnder
  cases hunder : f.under rules with
  | none => rfl
  | some g => rcases under_cases hunder with rfl | ⟨_, _, _, _, _, _, rfl, rfl⟩ <;> rfl

/-- The reports of one kind are those of the findings of that kind. -/
theorem filter_map_report {p : Diagnostic → Bool} {q : Finding → Bool}
    (h : ∀ severity f, p (report severity f) = q f) (severity : Severity)
    (reported : Finding → Bool) (findings : List Finding) :
    ((findings.filter reported).map (report severity)).filter p =
      (findings.filter fun f => q f && reported f).map (report severity) := by
  rw [List.filter_map, List.filter_filter]
  simp only [Function.comp_def, h]

/-- No implicit member call is reported with a severity that the policy does not give it. -/
theorem filter_isMemberCall_report {rules : Rules} {severity : Severity}
    (h : rules.memberCalls.severity? ≠ some severity) (findings : List Finding) :
    ((findings.filter fun f => f.severityUnder rules == some severity).map (report severity)).filter
      Diagnostic.isMemberCall = [] := by
  rw [filter_map_report isMemberCall_report, List.map_eq_nil_iff, List.filter_eq_nil_iff]
  intro f _ hreported
  obtain ⟨hcall, hseverity⟩ := (Bool.and_eq_true _ _).mp hreported
  rw [severityUnder_of_isMemberCall hcall, beq_iff_eq] at hseverity
  exact h hseverity

/-- All that is no implicit member call is reported alike under all policies. -/
theorem filter_not_isMemberCall_report (mode : Mode) (policy policy' : MemberCallPolicy)
    (severity : Severity) (findings : List Finding) :
    (((findings.filter fun f => f.severityUnder ⟨mode, policy⟩ == some severity).map
      (report severity)).filter fun d => !d.isMemberCall) =
    ((findings.filter fun f => f.severityUnder ⟨mode, policy'⟩ == some severity).map
      (report severity)).filter fun d => !d.isMemberCall := by
  have hkind (severity : Severity) (f : Finding) :
      (!(f.report severity).isMemberCall) = !f.isMemberCall :=
    congrArg (!·) (isMemberCall_report severity f)
  rw [filter_map_report hkind, filter_map_report hkind]
  refine congrArg (List.map _) (List.filter_congr fun f _ => ?_)
  cases hcall : f.isMemberCall with
  | true => rfl
  | false => rw [severityUnder_policy hcall mode policy policy']

end Finding

namespace Diagnostics

/-- Of the diagnostics that the rules ask for, those of one severity. -/
theorem filter_severity (rules : Rules) (severity : Severity) (findings : List Finding) :
    ((findings.filterMap (Finding.under rules)).filterMap Finding.diagnostic?).filter
        (fun d => d.severity == severity) =
      (findings.filter fun f => f.severityUnder rules == some severity).map
        (Finding.report severity) := by
  rw [List.filterMap_filterMap]
  induction findings with
  | nil => rfl
  | cons f rest ih =>
    rw [List.filterMap_cons, List.filter_cons, f.diagnostic?_under]
    cases hf : f.severityUnder rules with
    | none => simpa using ih
    | some found =>
      by_cases hfound : found = severity
      · subst hfound
        simpa [Finding.severity_report] using ih
      · simpa [Finding.severity_report, hfound] using ih

theorem ofFindings_eq (rules : Rules) (findings : List Finding) :
    ofFindings (findings.filterMap (Finding.under rules)) =
      ⟨(findings.filter fun f => f.severityUnder rules == some .error).map (Finding.report .error),
        (findings.filter fun f => f.severityUnder rules == some .warning).map
          (Finding.report .warning)⟩ := by
  have hwarning (d : Diagnostic) : (!d.isError) = (d.severity == .warning) := by
    cases h : d.severity <;> simp [Diagnostic.isError, h]
  rw [← filter_severity, ← filter_severity, ofFindings, ofList, foldl_push]
  simp only [hwarning]
  rfl

/-- How the diagnostics of one program depend on the rules. -/
structure ByRules (reported : Rules → Diagnostics) : Prop where
  /-- Implicit member calls are warnings or errors, with the same messages and places in the same
      order. -/
  memberCalls : ∀ mode,
    ((reported ⟨mode, .warn⟩).warnings.filter Diagnostic.isMemberCall).map Diagnostic.asError =
      (reported ⟨mode, .error⟩).errors.filter Diagnostic.isMemberCall
  warned : ∀ mode, (reported ⟨mode, .warn⟩).errors.filter Diagnostic.isMemberCall = []
  refused : ∀ mode, (reported ⟨mode, .error⟩).warnings.filter Diagnostic.isMemberCall = []
  ignored : ∀ mode, (reported ⟨mode, .ignore⟩).toList.filter Diagnostic.isMemberCall = []
  /-- Everything else is the same under all policies. -/
  otherErrors : ∀ mode policy policy',
    ((reported ⟨mode, policy⟩).errors.filter fun d => !d.isMemberCall) =
      (reported ⟨mode, policy'⟩).errors.filter fun d => !d.isMemberCall
  otherWarnings : ∀ mode policy policy',
    ((reported ⟨mode, policy⟩).warnings.filter fun d => !d.isMemberCall) =
      (reported ⟨mode, policy'⟩).warnings.filter fun d => !d.isMemberCall
  /-- Only the errors about main namespaces depend on the mode. -/
  replErrors : ∀ policy, (reported ⟨.repl, policy⟩).errors =
    (reported ⟨.standard, policy⟩).errors.filter fun d => !d.isMainRule
  replWarnings : ∀ policy,
    (reported ⟨.repl, policy⟩).warnings = (reported ⟨.standard, policy⟩).warnings

/-- Whatever was found, the rules decide in the same way. -/
theorem byRules_ofFindings (findings : List Finding) :
    ByRules fun rules => ofFindings (findings.filterMap (Finding.under rules)) := by
  simp only [ofFindings_eq]
  constructor
  case memberCalls =>
    intro mode
    rw [Finding.filter_map_report Finding.isMemberCall_report,
      Finding.filter_map_report Finding.isMemberCall_report, List.map_map]
    simp only [Function.comp_def, Finding.asError_report]
    refine congrArg (List.map _) (List.filter_congr fun f _ => ?_)
    cases hcall : f.isMemberCall with
    | true =>
      rw [Finding.severityUnder_of_isMemberCall hcall, Finding.severityUnder_of_isMemberCall hcall]
      rfl
    | false => rfl
  case warned =>
    exact fun mode => Finding.filter_isMemberCall_report (by simp [MemberCallPolicy.severity?]) _
  case refused =>
    exact fun mode => Finding.filter_isMemberCall_report (by simp [MemberCallPolicy.severity?]) _
  case ignored =>
    intro mode
    rw [toList, List.filter_append,
      Finding.filter_isMemberCall_report (by simp [MemberCallPolicy.severity?]),
      Finding.filter_isMemberCall_report (by simp [MemberCallPolicy.severity?]), List.append_nil]
  case otherErrors =>
    exact fun mode policy policy' =>
      Finding.filter_not_isMemberCall_report mode policy policy' .error findings
  case otherWarnings =>
    exact fun mode policy policy' =>
      Finding.filter_not_isMemberCall_report mode policy policy' .warning findings
  case replErrors =>
    intro policy
    have hkind (severity : Severity) (f : Finding) :
        (!(f.report severity).isMainRule) = !f.isMainRule :=
      congrArg (!·) (Finding.isMainRule_report severity f)
    rw [Finding.filter_map_report hkind]
    refine congrArg (List.map _) (List.filter_congr fun f _ => ?_)
    obtain ⟨hstandard, hrepl⟩ := f.severityUnder_mode policy
    cases hmain : f.isMainRule with
    | true => rw [hrepl hmain]; rfl
    | false => rw [hstandard, hmain]; rfl
  case replWarnings =>
    intro policy
    refine congrArg (List.map _) (List.filter_congr fun f _ => ?_)
    obtain ⟨hstandard, hrepl⟩ := f.severityUnder_mode policy
    cases hmain : f.isMainRule with
    | true => rw [hrepl hmain, hstandard, hmain]; rfl
    | false => rw [hstandard, hmain]; rfl

end Diagnostics

/-! ### Linking and compiling -/

/-- Files that cannot be parsed are reported under all rules. -/
theorem filterMap_under_failures {sources : Sources} {parsed : List ParsedFile}
    {failures : List Finding} (h : parseFiles sources = .ok (parsed, failures)) (rules : Rules) :
    failures.filterMap (Finding.under rules) = failures := by
  obtain ⟨_, _, hfailures, _⟩ := parseFiles_cases h
  have hkept : ∀ f ∈ failures, f.under rules = some f := by
    intro f hf
    obtain ⟨file, e, rfl⟩ := hfailures f hf
    rfl
  rw [List.filterMap_congr hkept, List.filterMap_some]

/-- A script and its map depend on the program and the options of the script. -/
theorem finish_of_success {options : CompileOptions} {linked : Linked} {findings : List Finding}
    (h : (finish options linked findings).success = true) :
    (finish options linked findings).code? =
        some (Script.generate options.script linked.files linked.program).code ∧
      (finish options linked findings).sourceMap? =
        (Script.generate options.script linked.files linked.program).sourceMap? := by
  unfold finish at h ⊢
  dsimp only at h ⊢
  split at h
  · cases h
  · rename_i herrors
    rw [if_neg herrors]
    exact ⟨rfl, rfl⟩

/-- Two compilations of the same files whose options are the same for scripts have the same script
    and the same source map, if they succeed. -/
theorem compile_code_eq {sources : Sources} {options options' : CompileOptions} {mode mode' : Mode}
    {result result' : CompileResult} (hscript : options.script = options'.script)
    (hfirst : compile sources mode options = .ok result)
    (hsecond : compile sources mode' options' = .ok result')
    (hsuccess : result.success = true) (hsuccess' : result'.success = true) :
    result.code? = result'.code? ∧ result.sourceMap? = result'.sourceMap? := by
  obtain ⟨linked, findings, hlink, rfl⟩ := compile_eq_ok_iff.mp hfirst
  obtain ⟨linked', findings', hlink', rfl⟩ := compile_eq_ok_iff.mp hsecond
  obtain ⟨parsed, failures, hparse, rfl, _⟩ := link_eq_ok_iff.mp hlink
  obtain ⟨parsed', failures', hparse', rfl, _⟩ := link_eq_ok_iff.mp hlink'
  obtain ⟨rfl, rfl⟩ := Prod.mk.inj (Except.ok.inj (hparse.symm.trans hparse'))
  obtain ⟨hcode, hmap⟩ := finish_of_success hsuccess
  obtain ⟨hcode', hmap'⟩ := finish_of_success hsuccess'
  rw [hcode, hmap, hcode', hmap', hscript]
  exact ⟨rfl, rfl⟩

/-- Whatever the rules, linking has one linked program or one error, and a compilation that succeeds
    has one script and one source map. The rules decide on diagnostics: how implicit member calls
    are reported, and whether the rules on main namespaces hold. -/
theorem link_byRules (sources : Sources) :
    ((∃ e, (∀ rules, link rules sources = .error e) ∧
        ∀ mode options, compile sources mode options = .error e) ∨
      ∃ (linked : Linked) (found : Rules → List Finding),
        (∀ rules, link rules sources = .ok (linked, found rules)) ∧
        (∀ mode options, ∃ result, compile sources mode options = .ok result ∧
          result.diagnostics = (Diagnostics.ofFindings (found (options.rules mode))).toList) ∧
        Diagnostics.ByRules fun rules => Diagnostics.ofFindings (found rules)) ∧
    ∀ (options : CompileOptions) (mode mode' : Mode) (policy policy' : MemberCallPolicy)
      (result result' : CompileResult),
      compile sources mode { options with memberCalls := policy } = .ok result →
      compile sources mode' { options with memberCalls := policy' } = .ok result' →
      result.success = true → result'.success = true →
      result.code? = result'.code? ∧ result.sourceMap? = result'.sourceMap? := by
  refine ⟨?_, fun options mode mode' policy policy' result result' => compile_code_eq rfl⟩
  cases hparse : parseFiles sources with
  | error e =>
    have hlink (rules : Rules) : link rules sources = .error e := by rw [link, hparse]
    exact .inl ⟨e, hlink, fun mode options => by rw [compile, hlink]⟩
  | ok read =>
    obtain ⟨parsed, failures⟩ := read
    -- Under all rules, what is found is what the strictest ones find, as far as it is asked for.
    have hlink (rules : Rules) : link rules sources = .ok ((survey sources.names parsed).1,
        (failures ++ (survey sources.names parsed).2).filterMap (Finding.under rules)) := by
      rw [List.filterMap_append, filterMap_under_failures hparse]
      exact link_eq_ok_iff.mpr ⟨parsed, failures, hparse, rfl, rfl⟩
    refine .inr ⟨_, _, hlink, fun mode options => ?_, Diagnostics.byRules_ofFindings _⟩
    exact ⟨_, compile_eq_ok_iff.mpr ⟨_, _, hlink _, rfl⟩, diagnostics_finish options _ _⟩

/-- A file that breaks the rules on main namespaces and calls a member without a receiver. -/
def unruledSources : Sources :=
  Sources.empty.insert "a.tn"
    "let x = 1; class K \x7b micro m() \x7b\x7d micro n() \x7b m(); \x7d \x7d"

/-- The numbers of errors and warnings about this file under all rules. In the mode without rules on
    main namespaces there is a script under two policies, and it is the same one. -/
theorem compile_unruledSources :
    ([MemberCallPolicy.warn, .ignore, .error].map fun policy =>
      (link ⟨.standard, policy⟩ unruledSources).toOption.map fun result =>
        ((Diagnostics.ofFindings result.2).errors.length,
          (Diagnostics.ofFindings result.2).warnings.length)) =
      [some (1, 1), some (1, 0), some (2, 0)] ∧
    ([MemberCallPolicy.warn, .ignore, .error].map fun policy =>
      (link ⟨.repl, policy⟩ unruledSources).toOption.map fun result =>
        ((Diagnostics.ofFindings result.2).errors.length,
          (Diagnostics.ofFindings result.2).warnings.length)) =
      [some (0, 1), some (0, 0), some (1, 0)] ∧
    ∃ result result', compile unruledSources .repl {} = .ok result ∧
      compile unruledSources .repl { memberCalls := .ignore } = .ok result' ∧
      result.success = true ∧ result'.success = true ∧
      result.code? = result'.code? ∧ result.sourceMap? = result'.sourceMap? := by
  refine ⟨by decide +kernel, by decide +kernel, ?_⟩
  have hsuccess : (compile unruledSources .repl {}).toOption.map (·.success) = some true := by
    decide +kernel
  have hsuccess' : (compile unruledSources .repl { memberCalls := .ignore }).toOption.map
      (·.success) = some true := by
    decide +kernel
  obtain ⟨result, hfirst, hdone⟩ := exists_ok_of_map hsuccess
  obtain ⟨result', hsecond, hdone'⟩ := exists_ok_of_map hsuccess'
  exact ⟨result, result', hfirst, hsecond, hdone, hdone',
    (link_byRules unruledSources).2 {} .repl .repl .warn .ignore result result' hfirst hsecond
      hdone hdone'⟩

end ScriptCompiler
