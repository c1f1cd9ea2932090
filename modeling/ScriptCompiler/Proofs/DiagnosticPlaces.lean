import ScriptCompiler.Proofs.Compilation
import ScriptCompiler.Proofs.DependencyOrder
import ScriptCompiler.Proofs.LineIndexes
import ScriptCompiler.Proofs.LinkPlan
import ScriptCompiler.Proofs.RelocatedLinking
import ScriptCompiler.Proofs.RelocatedParsing

/-!
# The places that diagnostics name

A diagnostic names a file of the compilation and no place in it, or the place where one of its
tokens starts. The places of trees and failures are put together from the places of lexemes, and the
start of such a place is the start of a lexeme. That is shown by a map that moves every other start:
it leaves the lexemes of a file where they are, so that it leaves there all that is read from them.
-/

namespace ScriptCompiler

/-! ### Lexemes -/

namespace Scanner

/-- The scanner stands behind the beginning `before` of the source, at the position there. -/
structure Behind (s : Scanner) (source before : List Char) : Prop where
  source_eq : source = before ++ s.rest
  position_eq : s.position = Position.start.after before

theorem Behind.move {s : Scanner} {source before text rest : List Char} (h : s.Behind source before)
    (hrest : s.rest = text ++ rest) : (s.move text).Behind source (before ++ text) := by
  refine ⟨?_, ?_⟩
  · show source = before ++ text ++ s.rest.drop text.length
    rw [h.source_eq, hrest, List.drop_left, List.append_assoc]
  · show s.position.after text = _
    rw [h.position_eq, Position.after_append]

theorem Behind.locate {s : Scanner} {source before : List Char} (h : s.Behind source before) :
    Lines.locate source s.position.offset = (s.position.line, s.position.column) := by
  have hoffset : (Position.start.after before).offset = Lines.byteLength before := by
    rw [Position.offset_after]
    exact Nat.zero_add _
  rw [h.position_eq, hoffset, h.source_eq, Lines.locate_append]

/-- The line and column of every lexeme are those of its first byte. -/
theorem Behind.locate_lexemesWithin {bound : Nat} {s : Scanner} {source before : List Char}
    {lexemes : List Lexeme} (h : s.Behind source before)
    (hrun : s.lexemesWithin bound = .ok lexemes) :
    ∀ l ∈ lexemes, Lines.locate source l.span.start = (l.span.line, l.span.column) := by
  induction bound generalizing s before lexemes with
  | zero =>
    obtain rfl := Except.ok.inj hrun
    exact fun l hl => List.mem_singleton.mp hl ▸ h.locate
  | succ bound ih =>
    obtain ⟨rest, hrest, _⟩ := Token.gap_maximal false s.rest
    have hskipped : s.skipGap.Behind source _ := h.move hrest
    rw [lexemesWithin, next] at hrun
    rcases s.skipGap.read_cases with ⟨_, hread⟩ | ⟨token, text, hmunch, hread⟩ | ⟨c, _, _, _, hread⟩
    · rw [hread] at hrun
      obtain rfl : [s.skipGap.endLexeme] = lexemes := Except.ok.inj hrun
      exact fun l hl => List.mem_singleton.mp hl ▸ hskipped.locate
    · rw [hread] at hrun
      dsimp only at hrun
      obtain ⟨behind, hbehind⟩ := (Token.isLongest_of_munch hmunch).starts
      split at hrun
      · obtain rfl := Except.ok.inj hrun
        exact fun l hl => List.mem_singleton.mp hl ▸ hskipped.locate
      · cases hmore : (s.skipGap.move text).lexemesWithin bound with
        | error e =>
          rw [hmore] at hrun
          cases hrun
        | ok more =>
          rw [hmore] at hrun
          obtain rfl := Except.ok.inj hrun
          exact List.forall_mem_cons.mpr
            ⟨hskipped.locate, ih (hskipped.move hbehind.symm) hmore⟩
    · rw [hread] at hrun
      cases hrun

end Scanner

theorem locate_of_tokenizeFile {id : Nat} {text : String} {lexemes : List Lexeme}
    (h : tokenizeFile id text = .ok lexemes) :
    ∀ l ∈ lexemes, Lines.locate text.toList l.span.start = (l.span.line, l.span.column) := by
  have hstart : (Scanner.ofSource id text).Behind text.toList [] := ⟨rfl, rfl⟩
  exact hstart.locate_lexemesWithin h

theorem locate_of_tokenize {text : String} {lexemes : List Lexeme}
    (h : tokenize text = .ok lexemes) :
    ∀ l ∈ lexemes, Lines.locate text.toList l.span.start = (l.span.line, l.span.column) :=
  locate_of_tokenizeFile h

/-- The index of a source gives the words of the line and column that a lexeme's span counts. In
    sources of less than `2 ^ 32 - 1` bytes these words are the counts. -/
theorem LineIndex.locate_lexeme {id : Nat} {text : String} {lexemes : List Lexeme}
    (h : tokenizeFile id text = .ok lexemes) :
    ∀ l ∈ lexemes,
      (ofText text.toList).locate text.toList l.span.start =
          (l.span.line.toUInt32, l.span.column.toUInt32) ∧
        (Lines.byteLength text.toList < 2 ^ 32 - 1 →
          l.span.line.toUInt32.toNat = l.span.line ∧
            l.span.column.toUInt32.toNat = l.span.column) := by
  intro l hl
  have hplace := locate_of_tokenizeFile h l hl
  have hwords := locate_eq text.toList l.span.start
  rw [hplace] at hwords
  refine ⟨hwords, fun hbytes => ?_⟩
  have hcounts := toNat_locate hbytes l.span.start
  rwa [hwords, hplace] at hcounts

/-! ### Spans that start at lexemes -/

namespace Span

/-- The span starts where one of the lexemes starts. -/
def StartsAt (lexemes : List Lexeme) (span : Span) : Prop :=
  ∃ l ∈ lexemes, l.span.line = span.line ∧ l.span.column = span.column

instance (lexemes : List Lexeme) (span : Span) : Decidable (span.StartsAt lexemes) :=
  inferInstanceAs (Decidable (∃ l ∈ lexemes, _))

/-- The span itself if it starts where one of the lexemes starts, and otherwise another one. -/
def hold (lexemes : List Lexeme) (span : Span) : Span :=
  if span.StartsAt lexemes then span else { span with line := span.line + 1 }

theorem hold_eq_self_iff {lexemes : List Lexeme} {span : Span} :
    hold lexemes span = span ↔ span.StartsAt lexemes := by
  unfold hold
  split
  · next h => exact iff_of_true rfl h
  · next h =>
    refine iff_of_false (fun heq => ?_) h
    exact absurd (congrArg Span.line heq) (Nat.succ_ne_self _)

theorem keeps_hold (lexemes : List Lexeme) : Keeps (hold lexemes) := by
  refine ⟨fun a b => ?_⟩
  have hstarts : (a.through b).StartsAt lexemes ↔ a.StartsAt lexemes := Iff.rfl
  have hstop : (hold lexemes b).stop = b.stop := by
    unfold hold
    split <;> rfl
  have hend : (hold lexemes a).through (hold lexemes b) = (hold lexemes a).through b := by
    rw [through, through, hstop]
  rw [hend]
  simp only [hold, hstarts]
  split <;> rfl

end Span

variable {lexemes : List Lexeme}

theorem map_relocate_hold (id : Nat) :
    (lexemes.map (Scanner.relocate id)).map (Lexeme.relocate (Span.hold lexemes)) =
      lexemes.map (Scanner.relocate id) := by
  rw [List.map_map]
  refine List.map_congr_left fun l hl => ?_
  have hheld : Span.hold lexemes (Scanner.relocate id l).span = (Scanner.relocate id l).span :=
    Span.hold_eq_self_iff.mpr ⟨l, hl, rfl, rfl⟩
  show { Scanner.relocate id l with span := Span.hold lexemes (Scanner.relocate id l).span } = _
  rw [hheld]

/-- Parsing puts no span at another start. -/
theorem parseProgram_hold (id : Nat) {text : String} (h : tokenize text = .ok lexemes) :
    parseProgram (lexemes.map (Scanner.relocate id)) =
      ((parseProgram (lexemes.map (Scanner.relocate id))).map
        (Program.relocate (Span.hold lexemes))).mapError
          (ParseError.relocate (Span.hold lexemes)) := by
  obtain ⟨tokens, last, hlexemes, hlast⟩ := exists_eof_of_tokenizeFile h
  have hend : lexemes.map (Scanner.relocate id) =
      tokens.map (Scanner.relocate id) ++ [Scanner.relocate id last] := by
    rw [hlexemes, List.map_append, List.map_singleton]
  have hmoved := @parseProgram_relocate _ (Span.keeps_hold lexemes)
    (tokens.map (Scanner.relocate id)) (Scanner.relocate id last) hlast
  rwa [← hend, map_relocate_hold] at hmoved

/-! ### Findings -/

/-- The finding names a file of the compilation, and if it names a place, one of the tokens of that
    file starts there. -/
def Finding.PointsInto (sources : Sources) (f : Finding) : Prop :=
  ∃ text lexemes, sources.text? f.file = some text ∧ tokenize text = .ok lexemes ∧
    ∀ span ∈ f.span?, span.StartsAt lexemes

/-- The diagnostic names a file of the compilation, and no place or the line and column of the first
    byte of one of the tokens of that file. -/
def Diagnostic.PointsInto (sources : Sources) (d : Diagnostic) : Prop :=
  ∃ text lexemes, sources.text? d.file = some text ∧ tokenize text = .ok lexemes ∧
    ((d.line, d.column) = (0, 0) ∨
      ∃ l ∈ lexemes, Lines.locate text.toList l.span.start = (d.line, d.column))

theorem Sources.text?_of_mem {sources : Sources} {file text : String}
    (h : (file, text) ∈ sources.entries) : sources.text? file = some text := by
  refine Ordered.lookup_of_mem ?_ h
  rw [List.Nodup, List.pairwise_map]
  exact sources.ordered.imp fun hlt => String.ne_of_lt hlt

/-- What is found in a part is about the file of the part. -/
theorem Occurrence.file_of_mem_check {file : String} {env : Environment} {o : Occurrence}
    {f : Finding} (hf : f ∈ o.check file env) (hreported : ¬ f.IsReference) : f.file = file := by
  obtain ⟨_, _, hown⟩ := (mem_check_iff hreported).mp hf
  rcases ownFindings_cases hown with ⟨_, _, rfl⟩ | ⟨_, _, _, rfl⟩ <;> rfl

theorem file_of_mainFinding? {file : String} {stmts : List Stmt} {f : Finding}
    (h : mainFinding? file stmts = some f) : f.file = file ∧ f.span? = none := by
  unfold mainFinding? at h
  split at h
  · obtain rfl := Option.some.inj h
    exact ⟨rfl, rfl⟩
  · split at h
    · obtain rfl := Option.some.inj h
      exact ⟨rfl, rfl⟩
    · cases h
    · obtain rfl := Option.some.inj h
      exact ⟨rfl, rfl⟩

/-- The program of a file starts no span but where a token of its text starts. -/
structure ParsedFile.Held (sources : Sources) (file : ParsedFile) (text : String)
    (lexemes : List Lexeme) : Prop where
  source : sources.text? file.name = some text
  tokens : tokenize text = .ok lexemes
  program : file.program.relocate (Span.hold lexemes) = file.program

theorem tokenize_of_tokenizeFile {id : Nat} {text : String} {found : List Lexeme}
    (h : tokenizeFile id text = .ok found) :
    ∃ lexemes, tokenize text = .ok lexemes ∧ found = lexemes.map (Scanner.relocate id) := by
  rw [tokenizeFile_eq_map] at h
  cases htokens : tokenize text with
  | error e =>
    rw [htokens] at h
    cases h
  | ok lexemes =>
    rw [htokens] at h
    exact ⟨lexemes, rfl, (Except.ok.inj h).symm⟩

theorem ParsedFrom.held {sources : Sources} {file : ParsedFile} (h : ParsedFrom sources file) :
    ∃ text lexemes, file.Held sources text lexemes := by
  obtain ⟨id, text, found, hentry, htokens, hparse⟩ := h
  obtain ⟨lexemes, hlexemes, rfl⟩ := tokenize_of_tokenizeFile htokens
  have hheld := parseProgram_hold id hlexemes
  rw [hparse] at hheld
  exact ⟨text, lexemes, Sources.text?_of_mem (List.mem_of_getElem? hentry), hlexemes,
    (Except.ok.inj hheld).symm⟩

namespace ParsedFile.Held

variable {sources : Sources} {file : ParsedFile} {text : String} {lexemes : List Lexeme}

theorem pointsInto (h : file.Held sources text lexemes) {f : Finding} (hfile : f.file = file.name)
    (hspan : ∀ span ∈ f.span?, Span.hold lexemes span = span) : f.PointsInto sources :=
  ⟨text, lexemes, hfile ▸ h.source, h.tokens, fun span hin =>
    Span.hold_eq_self_iff.mp (hspan span hin)⟩

/-- The map leaves the placed statements of the file where they are. -/
theorem placed (h : file.Held sources text lexemes) {p : Placed} (hp : p ∈ file.placed) :
    p.file = file.name ∧ p.stmt.relocate (Span.hold lexemes) = p.stmt := by
  have hplaced : file.placed.map (Placed.relocate (Span.hold lexemes)) = file.placed := by
    rw [ParsedFile.placed, ← placeStmts_relocate]
    exact congrArg (placeStmts file.name "") (congrArg Program.stmts h.program)
  have hself := List.map_inj_left.mp (hplaced.trans (List.map_id' _).symm) p hp
  exact ⟨file_of_mem_placeStmts hp, congrArg Placed.stmt hself⟩

/-- What is found when a statement is collected is at the start of the statement or of its name. -/
theorem pointsInto_of_finds (h : file.Held sources text lexemes) {p : Placed} (hp : p ∈ file.placed)
    {f : Finding} (hf : p.Finds f) : f.PointsInto sources := by
  obtain ⟨hfile, hheld⟩ := h.placed hp
  cases hf with
  | @duplicateMain span decl hstmt first =>
    refine h.pointsInto hfile fun place hplace => ?_
    obtain rfl := Option.some.inj hplace
    rw [hstmt] at hheld
    exact (Stmt.namespaceDecl.inj hheld).1
  | @redeclared kind name hdeclared previous =>
    refine h.pointsInto hfile fun place hplace => ?_
    obtain rfl := Option.some.inj hplace
    have hname := p.stmt.declared?_relocate (f := Span.hold lexemes)
    rw [hheld, hdeclared] at hname
    exact congrArg Ident.span (Prod.mk.inj (Option.some.inj hname)).2.symm

/-- What is found in a statement is at the start of one of its parts. -/
theorem pointsInto_of_check (h : file.Held sources text lexemes) {p : Placed} (hp : p ∈ file.placed)
    {c : Collected} {f : Finding} (hf : f ∈ c.check p) (hreported : ¬ f.IsReference) :
    f.PointsInto sources := by
  obtain ⟨hfile, hheld⟩ := h.placed hp
  have hfound : f ∈ (Occurrence.top p.stmt).check p.file (c.environment p) := hf
  have htop : (Occurrence.top p.stmt).relocate (Span.hold lexemes) = .top p.stmt :=
    congrArg Occurrence.top hheld
  -- The findings move with the statement, and the map does not move the statement.
  have hcheck : ((Occurrence.top p.stmt).relocate (Span.hold lexemes)).check p.file
      (c.environment p) = _ := Occurrence.check_relocate (fun _ _ => rfl) _
  rw [htop] at hcheck
  have hself := List.map_inj_left.mp (hcheck.symm.trans (List.map_id' _).symm) f hfound
  refine h.pointsInto ((Occurrence.file_of_mem_check hfound hreported).trans hfile)
    fun span hspan => ?_
  have hmoved := f.span?_relocate (f := Span.hold lexemes)
  rw [hself, Option.mem_def.mp hspan] at hmoved
  exact (Option.some.inj hmoved).symm

end ParsedFile.Held

theorem pointsInto_of_mem_failures {sources : Sources} {f : Finding}
    (hf : f ∈ (readFiles sources).filterMap Reading.finding?) : f.PointsInto sources := by
  obtain ⟨reading, hreading, hfinding⟩ := List.mem_filterMap.mp hf
  obtain ⟨id, hid⟩ := List.mem_iff_getElem?.mp hreading
  rw [getElem?_readFiles] at hid
  obtain ⟨⟨file, text⟩, hentry, rfl⟩ := Option.map_eq_some_iff.mp hid
  unfold Reading.ofText at hfinding
  cases htokens : tokenizeFile id text with
  | error e =>
    rw [htokens] at hfinding
    cases hfinding
  | ok found =>
    obtain ⟨lexemes, hlexemes, rfl⟩ := tokenize_of_tokenizeFile htokens
    have hheld := parseProgram_hold id hlexemes
    rw [htokens] at hfinding
    dsimp only at hfinding
    cases hparse : parseProgram (lexemes.map (Scanner.relocate id)) with
    | ok program =>
      rw [hparse] at hfinding
      cases hfinding
    | error e =>
      rw [hparse] at hfinding hheld
      obtain rfl := Option.some.inj hfinding
      refine ⟨text, lexemes, Sources.text?_of_mem (List.mem_of_getElem? hentry), hlexemes, ?_⟩
      intro span hspan
      obtain rfl := Option.some.inj hspan
      exact Span.hold_eq_self_iff.mp (congrArg ParseError.span (Except.error.inj hheld)).symm

/-- A cycle starts at a file. -/
theorem Graph.IsCycle.exists_file {files : List ParsedFile} {cycle : List String}
    (h : (Graph.ofFiles files).IsCycle cycle) :
    ∃ file ∈ files, (Finding.cycle cycle).file = file.name := by
  obtain ⟨_, hlong, _, hlinked⟩ := h
  rcases cycle with _ | ⟨first, _ | ⟨second, rest⟩⟩
  · cases hlong
  · simp at hlong
  · have hedge : (Graph.ofFiles files).Edge first second := hlinked.rel
    obtain ⟨file, hfile, hentry⟩ := List.mem_map.mp hedge.entry
    exact ⟨file, hfile, (congrArg Prod.fst hentry).symm⟩

/-- Whatever the strictest rules report points into the file that it is about. -/
theorem survey_pointsInto {sources : Sources} {parsed : List ParsedFile} {failures : List Finding}
    (hparse : parseFiles sources = .ok (parsed, failures)) {f : Finding}
    (hf : f ∈ (survey sources.names parsed).2) (hreported : ¬ f.IsReference) :
    f.PointsInto sources := by
  have hnodup := (parseFiles_cases hparse).nodup
  have hheld : ∀ file ∈ parsed, ∃ text lexemes, file.Held sources text lexemes :=
    fun file hfile => ((mem_parsed_iff hparse).mp hfile).held
  rcases List.mem_append.mp hf with hf | hf
  · rcases List.mem_append.mp hf with hf | hf
    · -- a cycle of imports, which names no place
      obtain ⟨cycle, hcycle, rfl⟩ := List.mem_map.mp hf
      have hsound := (Graph.order_sound (Graph.ofFiles_wellFormed hnodup)).1
      obtain ⟨file, hfile, hname⟩ := (hsound.cyclic cycle hcycle).exists_file
      obtain ⟨text, lexemes, hfileHeld⟩ := hheld file hfile
      exact hfileHeld.pointsInto hname fun span hspan => by cases hspan
    · -- a declaration that is collected, or the main namespace of a file
      obtain ⟨file, hfile, hfound⟩ := exists_of_mem_collect_findings hf
      obtain ⟨text, lexemes, hfileHeld⟩ := hheld file (mem_of_mem_inOrder hfile)
      rcases hfound with ⟨p, hp, hfinds⟩ | hmain
      · exact hfileHeld.pointsInto_of_finds hp hfinds
      · obtain ⟨hname, hspan⟩ := file_of_mainFinding? hmain
        refine hfileHeld.pointsInto hname fun span hin => ?_
        rw [hspan] at hin
        cases hin
  · -- a part of a statement that is checked
    obtain ⟨p, hp, hcheck⟩ := List.mem_flatMap.mp hf
    obtain ⟨file, hfile, hplaced⟩ := List.mem_flatMap.mp ((placeFiles_perm _).mem_iff.mp hp)
    obtain ⟨text, lexemes, hfileHeld⟩ := hheld file (mem_of_mem_inOrder hfile)
    exact hfileHeld.pointsInto_of_check hplaced hcheck hreported

/-- Whatever linking reports points into the file that it is about. -/
theorem link_pointsInto {rules : Rules} {sources : Sources} {linked : Linked}
    {findings : List Finding} (h : link rules sources = .ok (linked, findings)) {f : Finding}
    (hf : f ∈ findings) (hreported : ¬ f.IsReference) : f.PointsInto sources := by
  obtain ⟨parsed, failures, hparse, rfl, rfl⟩ := link_eq_ok_iff.mp h
  rcases List.mem_append.mp hf with hf | hf
  · rw [(parseFiles_eq_ok hparse).2] at hf
    exact pointsInto_of_mem_failures hf
  · obtain ⟨found, hfound, hunder⟩ := List.mem_filterMap.mp hf
    rcases Finding.under_cases hunder with rfl | ⟨_, _, _, _, _, _, rfl, rfl⟩
    · exact survey_pointsInto hparse hfound hreported
    · have hcall := survey_pointsInto hparse hfound id
      exact hcall

/-! ### Diagnostics -/

theorem Finding.PointsInto.diagnostic {sources : Sources} {f : Finding} (h : f.PointsInto sources)
    {d : Diagnostic} (hd : f.diagnostic? = some d) : d.PointsInto sources := by
  obtain ⟨text, lexemes, htext, htokens, hspan⟩ := h
  obtain ⟨severity, _, rfl⟩ := Option.map_eq_some_iff.mp hd
  cases hplace : f.span? with
  | none => exact ⟨text, lexemes, htext, htokens, .inl rfl⟩
  | some span =>
    obtain ⟨l, hl, hline, hcolumn⟩ := hspan span hplace
    refine ⟨text, lexemes, htext, htokens, .inr ⟨l, hl, ?_⟩⟩
    rw [locate_of_tokenize htokens l hl, hline, hcolumn]

theorem mem_toList_ofFindings {findings : List Finding} {d : Diagnostic}
    (h : d ∈ (Diagnostics.ofFindings findings).toList) :
    ∃ f ∈ findings, f.diagnostic? = some d := by
  have hd : d ∈ findings.filterMap Finding.diagnostic? := by
    simp only [Diagnostics.toList, Diagnostics.ofFindings, Diagnostics.errors_ofList,
      Diagnostics.warnings_ofList, List.mem_append, List.mem_filter] at h
    rcases h with h | h
    · exact h.1
    · exact h.1
  exact List.mem_filterMap.mp hd

/-- Every diagnostic of linking or compiling names a file of the compilation, and no place in it or
    the line and column of the first byte of one of its tokens. -/
theorem diagnostics_pointInto (sources : Sources) :
    (∀ rules linked findings, link rules sources = .ok (linked, findings) →
      ∀ d ∈ (Diagnostics.ofFindings findings).toList, d.PointsInto sources) ∧
    ∀ mode options result, compile sources mode options = .ok result →
      ∀ d ∈ result.diagnostics, d.PointsInto sources := by
  have hlink : ∀ rules linked findings, link rules sources = .ok (linked, findings) →
      ∀ d ∈ (Diagnostics.ofFindings findings).toList, d.PointsInto sources := by
    intro rules linked findings h d hd
    obtain ⟨f, hf, hdiagnostic⟩ := mem_toList_ofFindings hd
    have hreported : ¬ f.IsReference := by
      intro hreference
      cases f with
      | qualifiedReference => cases hdiagnostic
      | _ => exact hreference
    exact (link_pointsInto h hf hreported).diagnostic hdiagnostic
  refine ⟨hlink, fun mode options result h d hd => ?_⟩
  obtain ⟨linked, findings, hlinked, rfl⟩ := compile_eq_ok_iff.mp h
  rw [diagnostics_finish] at hd
  exact hlink (options.rules mode) linked findings hlinked d hd

/-- Four files, in which nearly everything that is reported is found. -/
def reportedSources : Sources :=
  (((Sources.empty.insert "a.tn" "let x =\n  ;").insert "b.tn"
    "namespace! b;\nusing c;\nlet x = 1;\n  let x = 2;").insert "c.tn"
    ("namespace! b; namespace c;\nusing b;\n" ++
      "class K \x7b\n  constructor() \x7b await m(); \x7d micro m() \x7b\x7d\n\x7d"))
    |>.insert "d.tn" "// nothing"

/-- The places that are reported about these files. -/
theorem compile_reportedSources :
    ∃ result, compile reportedSources .standard {} = .ok result ∧
      (result.diagnostics.map fun d => (d.file, d.line, d.column)) =
        [("a.tn", 2, 3), ("b.tn", 1, 1), ("d.tn", 0, 0), ("c.tn", 4, 3), ("b.tn", 0, 0),
          ("b.tn", 4, 7), ("c.tn", 4, 25)] ∧
      ∀ d ∈ result.diagnostics, d.PointsInto reportedSources := by
  have hvalue : (compile reportedSources .standard {}).toOption.map (fun result =>
      result.diagnostics.map fun d => (d.file, d.line, d.column)) =
      some [("a.tn", 2, 3), ("b.tn", 1, 1), ("d.tn", 0, 0), ("c.tn", 4, 3), ("b.tn", 0, 0),
        ("b.tn", 4, 7), ("c.tn", 4, 25)] := by
    decide +kernel
  obtain ⟨result, hcompile, hplaces⟩ := exists_ok_of_map hvalue
  exact ⟨result, hcompile, hplaces,
    (diagnostics_pointInto reportedSources).2 .standard {} result hcompile⟩

end ScriptCompiler
