import ScriptCompiler.Proofs.Linking
import ScriptCompiler.Proofs.RelocatedLinking
import ScriptCompiler.Proofs.RelocatedParsing
import ScriptCompiler.Proofs.Tokenization

/-!
# Files that cannot be parsed

A file that cannot be parsed takes no part in linking. It is reported, and it has a number like
every other file, so that the files behind it have the next numbers. Without the file everything
else is the same.
-/

namespace ScriptCompiler

/-! ### Readings under other numbers -/

namespace Reading

def relocate (f : Span → Span) : Reading → Reading
  | .program file => .program (file.relocate f)
  | .unparsable file error => .unparsable file (error.relocate f)
  | .untokenized error => .untokenized error

theorem parsed?_relocate (f : Span → Span) (reading : Reading) :
    (reading.relocate f).parsed? = reading.parsed?.map (ParsedFile.relocate f) := by
  cases reading <;> rfl

end Reading

theorem tokenizeFile_renumber (number : Nat → Nat) (id : Nat) (text : String) :
    tokenizeFile (number id) text =
      (tokenizeFile id text).map fun lexemes =>
        lexemes.map (Lexeme.relocate (Span.renumber number)) := by
  rw [tokenizeFile_eq_map, tokenizeFile_eq_map id]
  cases tokenize text with
  | error e => rfl
  | ok lexemes =>
    simp only [Except.map, List.map_map]
    rfl

/-- The number of a file stands in the spans of its reading and nowhere else. -/
theorem Reading.ofText_renumber (number : Nat → Nat) (id : Nat) (file text : String) :
    ofText (number id) file text = (ofText id file text).relocate (Span.renumber number) := by
  unfold ofText
  rw [tokenizeFile_renumber]
  cases htokens : tokenizeFile id text with
  | error e => rfl
  | ok lexemes =>
    obtain ⟨tokens, last, rfl, hlast⟩ := exists_eof_of_tokenizeFile htokens
    simp only [Except.map, parseProgram_relocate (Span.keeps_renumber number) hlast]
    cases parseProgram (tokens ++ [last]) <;> rfl

theorem readFrom_renumber {number : Nat → Nat} {id id' : Nat} {entries : List (String × String)}
    (h : ∀ k < entries.length, number (id + k) = id' + k) :
    readFrom id' entries =
      (readFrom id entries).map (Reading.relocate (Span.renumber number)) := by
  induction entries generalizing id id' with
  | nil => rfl
  | cons entry rest ih =>
    obtain ⟨file, text⟩ := entry
    have hfirst : number id = id' := h 0 (Nat.zero_lt_succ _)
    have hrest : ∀ k < rest.length, number (id + 1 + k) = id' + 1 + k := by
      intro k hk
      have := h (k + 1) (Nat.succ_lt_succ hk)
      rwa [Nat.add_assoc, Nat.add_comm 1, Nat.add_assoc, Nat.add_comm 1]
    rw [readFrom, readFrom, List.map_cons, ← hfirst, Reading.ofText_renumber, hfirst, ih hrest]

theorem readFrom_append (id : Nat) (before after : List (String × String)) :
    readFrom id (before ++ after) = readFrom id before ++ readFrom (id + before.length) after := by
  induction before generalizing id with
  | nil => rfl
  | cons entry rest ih =>
    obtain ⟨file, text⟩ := entry
    rw [List.cons_append, readFrom, ih, readFrom, List.length_cons, Nat.add_comm rest.length,
      Nat.add_assoc]
    rfl

/-- If every file can be tokenized, files are parsed or reported. -/
theorem parseFiles_of_tokenizes {sources : Sources}
    (h : ∀ entry ∈ sources.entries, ∃ lexemes, tokenize entry.2 = .ok lexemes) :
    parseFiles sources = .ok ((readFiles sources).filterMap Reading.parsed?,
      (readFiles sources).filterMap Reading.finding?) := by
  cases hparse : parseFiles sources with
  | error e =>
    obtain ⟨text, hentry, hfails, _⟩ := parseFiles_eq_error_iff.mp hparse
    obtain ⟨lexemes, hlexemes⟩ := h _ hentry
    rw [hfails] at hlexemes
    cases hlexemes
  | ok result =>
    obtain ⟨parsed, failures⟩ := result
    obtain ⟨rfl, rfl⟩ := parseFiles_eq_ok hparse
    rfl

/-! ### What is reported about failures -/

/-- What is reported about a text that cannot be parsed. -/
def parseDiagnostic? (file text : String) : Option Diagnostic :=
  match tokenize text with
  | .error _ => none
  | .ok lexemes =>
    match parseProgram lexemes with
    | .error error => some ⟨.error, error.detail, error.span.line, error.span.column, file⟩
    | .ok _ => none

/-- What is reported about files that cannot be parsed, in the order of the files. -/
def parseDiagnostics (entries : List (String × String)) : List Diagnostic :=
  entries.filterMap fun entry => parseDiagnostic? entry.1 entry.2

theorem parseDiagnostic?_eq_some_iff {file text : String} {d : Diagnostic} :
    parseDiagnostic? file text = some d ↔
      ∃ lexemes error, tokenize text = .ok lexemes ∧ parseProgram lexemes = .error error ∧
        d = ⟨.error, error.detail, error.span.line, error.span.column, file⟩ := by
  unfold parseDiagnostic?
  cases tokenize text with
  | error e => simp
  | ok lexemes =>
    cases hparse : parseProgram lexemes with
    | error error => simp [hparse, eq_comm]
    | ok program => simp [hparse]

theorem isError_of_mem_parseDiagnostics {entries : List (String × String)} {d : Diagnostic}
    (h : d ∈ parseDiagnostics entries) : d.isError = true := by
  obtain ⟨entry, _, hd⟩ := List.mem_filterMap.mp h
  obtain ⟨_, _, _, _, rfl⟩ := parseDiagnostic?_eq_some_iff.mp hd
  rfl

theorem Reading.diagnostic?_ofText (id : Nat) (file text : String) :
    (ofText id file text).finding?.bind Finding.diagnostic? = parseDiagnostic? file text := by
  -- The report does not tell the number of the file, so that it may be zero.
  rw [ofText_renumber (fun _ => id) 0]
  unfold ofText parseDiagnostic?
  rw [tokenize]
  cases tokenizeFile 0 text with
  | error e => rfl
  | ok lexemes =>
    dsimp only
    cases parseProgram lexemes <;> rfl

theorem filterMap_diagnostic?_readFrom (id : Nat) (entries : List (String × String)) :
    ((readFrom id entries).filterMap Reading.finding?).filterMap Finding.diagnostic? =
      parseDiagnostics entries := by
  rw [List.filterMap_filterMap]
  induction entries generalizing id with
  | nil => rfl
  | cons entry rest ih =>
    obtain ⟨file, text⟩ := entry
    rw [readFrom, List.filterMap_cons, Reading.diagnostic?_ofText, ih]
    rfl

namespace Diagnostics

/-- The reports about failures come before the other errors. -/
theorem errors_ofFindings_failures (id : Nat) (entries : List (String × String))
    (findings : List Finding) :
    (ofFindings ((readFrom id entries).filterMap Reading.finding? ++ findings)).errors =
      parseDiagnostics entries ++ (ofFindings findings).errors := by
  have herrors : (parseDiagnostics entries).filter Diagnostic.isError = parseDiagnostics entries :=
    List.filter_eq_self.mpr fun d => isError_of_mem_parseDiagnostics
  simp only [ofFindings, errors_ofList, List.filterMap_append, List.filter_append,
    filterMap_diagnostic?_readFrom, herrors]

theorem warnings_ofFindings_failures (id : Nat) (entries : List (String × String))
    (findings : List Finding) :
    (ofFindings ((readFrom id entries).filterMap Reading.finding? ++ findings)).warnings =
      (ofFindings findings).warnings := by
  have hnone : (parseDiagnostics entries).filter (fun d => !d.isError) = [] := by
    refine List.filter_eq_nil_iff.mpr fun d hd => ?_
    rw [isError_of_mem_parseDiagnostics hd]
    decide
  simp only [ofFindings, warnings_ofList, List.filterMap_append, List.filter_append,
    filterMap_diagnostic?_readFrom, hnone, List.nil_append]

end Diagnostics

/-! ### One file less -/

namespace Sources

/-- The files of a compilation without the file `file`. -/
def without (sources : Sources) (file : String) : Sources :=
  ⟨sources.entries.filter fun entry => entry.1 ≠ file, sources.ordered.filter _⟩

/-- The file stands between the files `before`, which have smaller names, and the files `after`,
    which have greater ones. -/
structure Splits (sources : Sources) (file text : String) (before after : List (String × String)) :
    Prop where
  entries : sources.entries = before ++ (file, text) :: after
  before : ∀ entry ∈ before, entry.1 < file
  after : ∀ entry ∈ after, file < entry.1

theorem exists_splits {sources : Sources} {file text : String}
    (h : sources.text? file = some text) :
    ∃ before after, sources.Splits file text before after := by
  obtain ⟨before, after, hentries, _⟩ := List.lookup_eq_some_iff.mp h
  have hordered := sources.ordered
  rw [hentries, List.pairwise_append] at hordered
  obtain ⟨_, hbehind, hbefore⟩ := hordered
  exact ⟨before, after, hentries, fun entry hentry => hbefore entry hentry _ List.mem_cons_self,
    fun entry hentry => List.rel_of_pairwise_cons hbehind hentry⟩

namespace Splits

variable {sources : Sources} {file text : String} {before after : List (String × String)}

theorem without (h : sources.Splits file text before after) :
    (sources.without file).entries = before ++ after := by
  have hbefore : before.filter (fun entry => entry.1 ≠ file) = before :=
    List.filter_eq_self.mpr fun entry hentry => by
      simpa using (String.ne_of_lt (h.before entry hentry))
  have hafter : after.filter (fun entry => entry.1 ≠ file) = after :=
    List.filter_eq_self.mpr fun entry hentry => by
      simpa using (String.ne_of_lt (h.after entry hentry)).symm
  show sources.entries.filter _ = _
  rw [h.entries, List.filter_append, List.filter_cons_of_neg (by simp), hbefore, hafter]

theorem filter_lt (h : sources.Splits file text before after) :
    (sources.entries.filter fun entry => entry.1 < file) = before := by
  have hbefore : (before.filter fun entry => entry.1 < file) = before :=
    List.filter_eq_self.mpr fun entry hentry => by simpa using h.before entry hentry
  have hafter : (after.filter fun entry => entry.1 < file) = [] :=
    List.filter_eq_nil_iff.mpr fun entry hentry => by
      simp [String.lt_asymm (h.after entry hentry)]
  rw [h.entries, List.filter_append, List.filter_cons_of_neg (by simp), hbefore, hafter,
    List.append_nil]

theorem filter_gt (h : sources.Splits file text before after) :
    (sources.entries.filter fun entry => file < entry.1) = after := by
  have hbefore : (before.filter fun entry => file < entry.1) = [] :=
    List.filter_eq_nil_iff.mpr fun entry hentry => by
      simp [String.lt_asymm (h.before entry hentry)]
  have hafter : (after.filter fun entry => file < entry.1) = after :=
    List.filter_eq_self.mpr fun entry hentry => by simpa using h.after entry hentry
  rw [h.entries, List.filter_append, List.filter_cons_of_neg (by simp), hbefore, hafter,
    List.nil_append]

end Splits

end Sources

/-- The numbers of files once another one has joined them at `place`: those from there on move up
    by one, and the order stays. -/
def makeRoom (place number : Nat) : Nat :=
  if number < place then number else number + 1

theorem makeRoom_of_lt {place number : Nat} (h : number < place) : makeRoom place number = number :=
  if_pos h

theorem makeRoom_add (place k : Nat) : makeRoom place (place + k) = place + 1 + k := by
  rw [makeRoom, if_neg (Nat.not_lt.mpr (Nat.le_add_right place k)), Nat.add_right_comm]

/-- The second program is the first one after the file `file`, which has the number `place` and
    takes no part in it, has joined the files. -/
structure Linked.Joined (place : Nat) (file : String) (linked joined : Linked) : Prop where
  program : joined.program = linked.program.relocate (Span.renumber (makeRoom place))
  order : joined.order = linked.order
  table : joined.table = linked.table.relocate (Span.renumber (makeRoom place))
  imports : joined.imports = linked.imports.relocate (Span.renumber (makeRoom place))
  file : joined.files[place]? = some file
  files : joined.files.length = linked.files.length + 1
  numbers : ∀ number, joined.files[makeRoom place number]? = linked.files[number]?

/-! ### Linking with and without the file -/

namespace Sources.Splits

variable {sources : Sources} {file text : String} {before after : List (String × String)}

/-- The files that are parsed are the same as without the file, under other numbers. -/
theorem parsed_eq (h : sources.Splits file text before after) {d : Diagnostic}
    (hfails : parseDiagnostic? file text = some d) :
    (readFiles sources).filterMap Reading.parsed? =
      ((readFiles (sources.without file)).filterMap Reading.parsed?).map
        (ParsedFile.relocate (Span.renumber (makeRoom before.length))) := by
  have hbefore : readFrom 0 before =
      (readFrom 0 before).map (Reading.relocate (Span.renumber (makeRoom before.length))) :=
    readFrom_renumber fun k hk => makeRoom_of_lt (by rwa [Nat.zero_add])
  have hafter : readFrom (before.length + 1) after = (readFrom before.length after).map
      (Reading.relocate (Span.renumber (makeRoom before.length))) :=
    readFrom_renumber fun k _ => makeRoom_add before.length k
  have hnone : (Reading.ofText before.length file text).parsed? = none := by
    have hreport := Reading.diagnostic?_ofText before.length file text
    rw [hfails] at hreport
    cases hreading : Reading.ofText before.length file text with
    | program parsed =>
      rw [hreading] at hreport
      cases hreport
    | unparsable _ _ => rfl
    | untokenized _ => rfl
  have hmap : ∀ readings : List Reading,
      (readings.map (Reading.relocate (Span.renumber (makeRoom before.length)))).filterMap
          Reading.parsed? =
        (readings.filterMap Reading.parsed?).map
          (ParsedFile.relocate (Span.renumber (makeRoom before.length))) := by
    intro readings
    rw [List.filterMap_map, List.map_filterMap]
    exact List.filterMap_congr fun reading _ => reading.parsed?_relocate _
  rw [readFiles, readFiles, h.entries, h.without, readFrom_append, readFrom_append, Nat.zero_add,
    readFrom, hafter, List.filterMap_append, List.filterMap_cons_none hnone, hmap,
    List.filterMap_append, List.map_append, ← hmap (readFrom 0 before), ← hbefore]

theorem names_eq (h : sources.Splits file text before after) :
    sources.names = before.map Prod.fst ++ file :: after.map Prod.fst := by
  rw [names, h.entries, List.map_append, List.map_cons]

theorem names_without (h : sources.Splits file text before after) :
    (sources.without file).names = before.map Prod.fst ++ after.map Prod.fst := by
  rw [names, h.without, List.map_append]

theorem getElem?_names_self (h : sources.Splits file text before after) :
    sources.names[before.length]? = some file := by
  rw [h.names_eq, List.getElem?_append_right (by simp)]
  simp

theorem length_names (h : sources.Splits file text before after) :
    sources.names.length = (sources.without file).names.length + 1 := by
  simp [h.names_eq, h.names_without, Nat.add_assoc]

/-- The names of the other files stand under the numbers that make room for the file. -/
theorem getElem?_names (h : sources.Splits file text before after) (number : Nat) :
    sources.names[makeRoom before.length number]? = (sources.without file).names[number]? := by
  have hlength : (before.map Prod.fst).length = before.length := List.length_map ..
  rw [h.names_eq, h.names_without]
  by_cases hlt : number < before.length
  · rw [makeRoom_of_lt hlt, List.getElem?_append_left (by omega),
      List.getElem?_append_left (by omega)]
  · obtain ⟨k, rfl⟩ := Nat.exists_eq_add_of_le (Nat.not_lt.mp hlt)
    rw [makeRoom_add, List.getElem?_append_right (by omega), List.getElem?_append_right (by omega),
      hlength, show before.length + 1 + k - before.length = k + 1 by omega,
      List.getElem?_cons_succ, Nat.add_sub_cancel_left]

theorem parseDiagnostics_entries (h : sources.Splits file text before after) {d : Diagnostic}
    (hfails : parseDiagnostic? file text = some d) :
    parseDiagnostics sources.entries = parseDiagnostics before ++ d :: parseDiagnostics after := by
  rw [h.entries, parseDiagnostics, List.filterMap_append, List.filterMap_cons, hfails]
  rfl

theorem parseDiagnostics_without (h : sources.Splits file text before after) :
    parseDiagnostics (sources.without file).entries =
      parseDiagnostics before ++ parseDiagnostics after := by
  rw [h.without, parseDiagnostics, List.filterMap_append]
  rfl

end Sources.Splits

/-- A file that cannot be parsed affects nothing but what is reported about it and the numbers of
    the files behind it. -/
theorem link_without_unparsable {sources : Sources} {file text : String} {lexemes : List Lexeme}
    {error : ParseError}
    (htokenizes : ∀ entry ∈ sources.entries, ∃ lexemes, tokenize entry.2 = .ok lexemes)
    (htext : sources.text? file = some text) (hlexemes : tokenize text = .ok lexemes)
    (hfails : parseProgram lexemes = .error error) :
    ∃ place linked joined, linked.Joined place file joined ∧
      ∀ rules, ∃ findings found, link rules (sources.without file) = .ok (linked, findings) ∧
        link rules sources = .ok (joined, found) ∧
        (Diagnostics.ofFindings found).warnings = (Diagnostics.ofFindings findings).warnings ∧
        ∃ others,
          (Diagnostics.ofFindings findings).errors =
            parseDiagnostics (sources.entries.filter fun entry => entry.1 < file)
              ++ parseDiagnostics (sources.entries.filter fun entry => file < entry.1) ++ others ∧
          (Diagnostics.ofFindings found).errors =
            parseDiagnostics (sources.entries.filter fun entry => entry.1 < file)
              ++ ⟨.error, error.detail, error.span.line, error.span.column, file⟩
              :: parseDiagnostics (sources.entries.filter fun entry => file < entry.1)
              ++ others := by
  obtain ⟨before, after, h⟩ := Sources.exists_splits htext
  have hrest : ∀ entry ∈ (sources.without file).entries,
      ∃ lexemes, tokenize entry.2 = .ok lexemes :=
    fun entry hentry => htokenizes entry (List.mem_of_mem_filter hentry)
  have hjoined (rules : Rules) : link rules sources = .ok (_, _) :=
    link_eq_ok_iff.mpr ⟨_, _, parseFiles_of_tokenizes htokenizes, rfl, rfl⟩
  have hlinked (rules : Rules) : link rules (sources.without file) = .ok (_, _) :=
    link_eq_ok_iff.mpr ⟨_, _, parseFiles_of_tokenizes hrest, rfl, rfl⟩
  have hdiagnostic : parseDiagnostic? file text =
      some ⟨.error, error.detail, error.span.line, error.span.column, file⟩ :=
    parseDiagnostic?_eq_some_iff.mpr ⟨lexemes, error, hlexemes, hfails, rfl⟩
  -- Linking sees the parsed files only, which are the same up to their numbers.
  rw [h.parsed_eq hdiagnostic, survey_relocate] at hjoined
  refine ⟨before.length, _, _, ?_, fun rules => ⟨_, _, hlinked rules, hjoined rules, ?_, ?_⟩⟩
  · exact ⟨rfl, rfl, rfl, rfl, h.getElem?_names_self, h.length_names, h.getElem?_names⟩
  · rw [readFiles, readFiles, Diagnostics.warnings_ofFindings_failures,
      Diagnostics.warnings_ofFindings_failures, Prod.map_snd, filterMap_under_relocate]
    exact congrArg Diagnostics.warnings (Diagnostics.ofFindings_renumber _ _)
  · rw [h.filter_lt, h.filter_gt, readFiles, readFiles, Diagnostics.errors_ofFindings_failures,
      Diagnostics.errors_ofFindings_failures, h.parseDiagnostics_entries hdiagnostic,
      h.parseDiagnostics_without, Prod.map_snd, filterMap_under_relocate]
    refine ⟨_, rfl, congrArg (HAppend.hAppend _) ?_⟩
    exact congrArg Diagnostics.errors (Diagnostics.ofFindings_renumber _ _)

/-- Four files, of which the first two cannot be parsed. -/
def brokenSources : Sources :=
  (((Sources.empty.insert "a.tn" "let x = ;").insert "b.tn" "namespace! b; let = 1;").insert "c.tn"
    "using d; namespace! c; class K \x7b micro m() \x7b m(); \x7d \x7d f();").insert "d.tn"
    "namespace! d; micro f() \x7b\x7d"

/-- The second of the files is reported behind the first one and before the call of a member. -/
theorem link_brokenSources :
    ∃ place linked findings joined found,
      link .strict (brokenSources.without "b.tn") = .ok (linked, findings) ∧
      link .strict brokenSources = .ok (joined, found) ∧ linked.Joined place "b.tn" joined ∧
      joined.files = ["a.tn", "b.tn", "c.tn", "d.tn"] ∧ joined.order = ["d.tn", "c.tn"] ∧
      ((Diagnostics.ofFindings found).errors.map fun d =>
        (d.file, d.line, d.column)) = [("a.tn", 1, 9), ("b.tn", 1, 19), ("c.tn", 1, 46)] := by
  have htokenizes : ∀ entry ∈ brokenSources.entries, ∃ lexemes, tokenize entry.2 = .ok lexemes := by
    have hall : (brokenSources.entries.all fun entry => (tokenize entry.2).isOk) = true := by
      decide +kernel
    intro entry hentry
    have hok := List.all_eq_true.mp hall entry hentry
    cases htokens : tokenize entry.2 with
    | error e =>
      rw [htokens] at hok
      cases hok
    | ok lexemes => exact ⟨lexemes, rfl⟩
  have htext : brokenSources.text? "b.tn" = some "namespace! b; let = 1;" := by
    decide +kernel
  have hfails : parseDiagnostic? "b.tn" "namespace! b; let = 1;" =
      some ⟨.error, "expected identifier, found '='", 1, 19, "b.tn"⟩ := by
    decide +kernel
  have hvalue : (link .strict brokenSources).toOption.map (fun result =>
      (result.1.files, result.1.order, (Diagnostics.ofFindings result.2).errors.map fun d =>
        (d.file, d.line, d.column))) =
      some (["a.tn", "b.tn", "c.tn", "d.tn"], ["d.tn", "c.tn"],
        [("a.tn", 1, 9), ("b.tn", 1, 19), ("c.tn", 1, 46)]) := by
    decide +kernel
  obtain ⟨lexemes, error, hlexemes, herror, _⟩ := parseDiagnostic?_eq_some_iff.mp hfails
  obtain ⟨place, linked, joined, hsame, hrules⟩ :=
    link_without_unparsable htokenizes htext hlexemes herror
  obtain ⟨findings, found, hlinked, hjoined, _⟩ := hrules .strict
  rw [hjoined] at hvalue
  obtain ⟨hfiles, hrest⟩ := Prod.mk.inj (Option.some.inj hvalue)
  obtain ⟨horder, herrors⟩ := Prod.mk.inj hrest
  exact ⟨place, linked, findings, joined, found, hlinked, hjoined, hsame, hfiles, horder, herrors⟩

end ScriptCompiler
