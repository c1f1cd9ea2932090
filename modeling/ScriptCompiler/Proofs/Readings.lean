import ScriptCompiler.Link.Program
import ScriptCompiler.Proofs.WellNamed

/-!
# Reading the files of a compilation

Files are read in the order of their names. The number of a file stands in the spans of its lexemes
and nowhere else, so whether a text can be tokenized does not depend on the file that holds it. The
first file that cannot be tokenized stops the compilation; otherwise every file is either parsed or
reported.
-/

namespace ScriptCompiler

namespace Scanner

/-- The scanner in the file with another number. -/
def inFile (file : Nat) (s : Scanner) : Scanner :=
  { s with file := file }

/-- The lexeme in the file with another number. -/
def relocate (file : Nat) (lexeme : Lexeme) : Lexeme :=
  { lexeme with span := { lexeme.span with file := file } }

theorem next_inFile (file : Nat) (s : Scanner) :
    (s.inFile file).next =
      s.next.map fun (lexeme, rest) => (relocate file lexeme, rest.inFile file) := by
  have hrest : (s.inFile file).skipGap.rest = s.skipGap.rest := rfl
  unfold next read
  rw [hrest]
  cases s.skipGap.rest with
  | nil => rfl
  | cons c rest =>
    dsimp only
    cases Token.munch (c :: rest) with
    | none => rfl
    | some found => rfl

theorem lexemesWithin_inFile (file bound : Nat) (s : Scanner) :
    (s.inFile file).lexemesWithin bound =
      (s.lexemesWithin bound).map fun lexemes => lexemes.map (relocate file) := by
  induction bound generalizing s with
  | zero => rfl
  | succ bound ih =>
    unfold lexemesWithin
    rw [next_inFile]
    cases s.next with
    | error e => rfl
    | ok pair =>
      obtain ⟨lexeme, rest⟩ := pair
      have htoken : (relocate file lexeme).token = lexeme.token := rfl
      simp only [Except.map, htoken, ih]
      split
      · rfl
      · cases rest.lexemesWithin bound <;> rfl

end Scanner

/-- The lexemes of a text in the file with another number. -/
theorem tokenizeFile_eq_map (id : Nat) (text : String) :
    tokenizeFile id text =
      (tokenize text).map fun lexemes => lexemes.map (Scanner.relocate id) :=
  Scanner.lexemesWithin_inFile id text.toList.length (Scanner.ofSource 0 text)

/-- Whether a text can be tokenized does not depend on the number of its file. -/
theorem tokenizeFile_eq_error_iff {id : Nat} {text : String} {e : LexError} :
    tokenizeFile id text = .error e ↔ tokenize text = .error e := by
  rw [tokenizeFile_eq_map]
  cases tokenize text <;> simp [Except.map]

/-- The file of the error is the first one in the order of the names whose text cannot be
    tokenized, and the error is that of its text. -/
def FirstUntokenized (sources : Sources) (e : LinkError) : Prop :=
  ∃ text, (e.file, text) ∈ sources.entries ∧ tokenize text = .error e.error ∧
    ∀ entry ∈ sources.entries, entry.1 < e.file → ∃ lexemes, tokenize entry.2 = .ok lexemes

theorem Reading.linkError?_ofText {id : Nat} {file text : String} {e : LinkError} :
    (ofText id file text).linkError? = some e ↔
      e.file = file ∧ tokenize text = .error e.error := by
  unfold ofText
  cases htokens : tokenizeFile id text with
  | error cause =>
    rw [tokenizeFile_eq_error_iff.mp htokens]
    simp only [linkError?, Option.some.injEq, Except.error.injEq]
    constructor
    · rintro rfl
      exact ⟨rfl, rfl⟩
    · rintro ⟨rfl, rfl⟩
      rfl
  | ok lexemes =>
    have hother : tokenize text ≠ .error e.error := by
      intro htokenize
      rw [tokenizeFile_eq_error_iff.mpr htokenize] at htokens
      cases htokens
    dsimp only
    cases parseProgram lexemes with
    | error cause => simp [linkError?, hother]
    | ok tree => simp [linkError?, hother]

/-- Among files in the order of their names the first one that cannot be tokenized is named. -/
theorem findSome?_readFrom {id : Nat} {entries : List (String × String)}
    (hordered : entries.Pairwise (·.1 < ·.1)) {e : LinkError} :
    (readFrom id entries).findSome? Reading.linkError? = some e ↔
      ∃ text, (e.file, text) ∈ entries ∧ tokenize text = .error e.error ∧
        ∀ entry ∈ entries, entry.1 < e.file → ∃ lexemes, tokenize entry.2 = .ok lexemes := by
  induction entries generalizing id with
  | nil => simp [readFrom]
  | cons entry rest ih =>
    obtain ⟨file, text⟩ := entry
    obtain ⟨hbehind, hrest⟩ := List.pairwise_cons.mp hordered
    rw [readFrom, List.findSome?_cons]
    cases htokens : tokenize text with
    | error cause =>
      have hfound : (Reading.ofText id file text).linkError? = some ⟨file, cause⟩ :=
        Reading.linkError?_ofText.mpr ⟨rfl, htokens⟩
      rw [hfound]
      simp only [Option.some.injEq]
      constructor
      · rintro rfl
        refine ⟨text, List.mem_cons_self, htokens, fun other hother hlt => ?_⟩
        -- No file stands before the first one.
        rcases List.mem_cons.mp hother with rfl | hother
        · exact absurd hlt (String.lt_irrefl _)
        · exact absurd (String.lt_trans hlt (hbehind other hother)) (String.lt_irrefl _)
      · rintro ⟨text', hin, htext', hbefore⟩
        rcases List.mem_cons.mp hin with heq | hin
        · obtain ⟨hfile, rfl⟩ := Prod.mk.inj heq
          rw [htokens] at htext'
          rw [← hfile, Except.error.inj htext']
        · obtain ⟨lexemes, hlexemes⟩ :=
            hbefore (file, text) List.mem_cons_self (hbehind _ hin)
          rw [htokens] at hlexemes
          cases hlexemes
    | ok lexemes =>
      have hnone : (Reading.ofText id file text).linkError? = none := by
        refine Option.eq_none_iff_forall_ne_some.mpr fun e' he' => ?_
        rw [(Reading.linkError?_ofText.mp he').2] at htokens
        cases htokens
      rw [hnone, ih hrest]
      constructor
      · rintro ⟨text', hin, htext', hbefore⟩
        refine ⟨text', List.mem_cons_of_mem _ hin, htext', fun other hother hlt => ?_⟩
        rcases List.mem_cons.mp hother with rfl | hother
        · exact ⟨lexemes, htokens⟩
        · exact hbefore other hother hlt
      · rintro ⟨text', hin, htext', hbefore⟩
        rcases List.mem_cons.mp hin with heq | hin
        · obtain ⟨_, rfl⟩ := Prod.mk.inj heq
          rw [htokens] at htext'
          cases htext'
        · exact ⟨text', hin, htext', fun other hother => hbefore other (List.mem_cons_of_mem _ hother)⟩

theorem length_readFrom (id : Nat) (entries : List (String × String)) :
    (readFrom id entries).length = entries.length := by
  induction entries generalizing id with
  | nil => rfl
  | cons entry rest ih => rw [readFrom, List.length_cons, ih, List.length_cons]

/-- Each file is read under the number that is its place among the files. -/
theorem getElem?_readFrom (id : Nat) (entries : List (String × String)) (i : Nat) :
    (readFrom id entries)[i]? =
      (entries[i]?).map fun entry => .ofText (id + i) entry.1 entry.2 := by
  induction entries generalizing id i with
  | nil => simp [readFrom]
  | cons entry rest ih =>
    obtain ⟨file, text⟩ := entry
    cases i with
    | zero => simp [readFrom]
    | succ i =>
      rw [readFrom, List.getElem?_cons_succ, List.getElem?_cons_succ, ih, Nat.add_right_comm]
      rfl

theorem getElem?_readFiles (sources : Sources) (i : Nat) :
    (readFiles sources)[i]? =
      (sources.entries[i]?).map fun entry => .ofText i entry.1 entry.2 := by
  have h := getElem?_readFrom 0 sources.entries i
  rwa [Nat.zero_add] at h

/-- The first file that cannot be tokenized stops the compilation, and no other one does. -/
theorem parseFiles_eq_error_iff {sources : Sources} {e : LinkError} :
    parseFiles sources = .error e ↔ FirstUntokenized sources e := by
  have hfirst : (readFrom 0 sources.entries).findSome? Reading.linkError? = some e ↔
      FirstUntokenized sources e := findSome?_readFrom sources.ordered
  rw [← hfirst]
  unfold parseFiles readFiles
  dsimp only
  cases (readFrom 0 sources.entries).findSome? Reading.linkError? <;> simp

/-- The files that were parsed and what was found are those of the readings. -/
theorem parseFiles_eq_ok {sources : Sources} {parsed : List ParsedFile} {failures : List Finding}
    (h : parseFiles sources = .ok (parsed, failures)) :
    parsed = (readFiles sources).filterMap Reading.parsed? ∧
      failures = (readFiles sources).filterMap Reading.finding? := by
  unfold parseFiles at h
  dsimp only at h
  split at h
  · cases h
  · obtain ⟨rfl, rfl⟩ := Prod.mk.inj (Except.ok.inj h)
    exact ⟨rfl, rfl⟩

/-- There is a first file that cannot be tokenized exactly if there is one at all. -/
theorem exists_firstUntokenized_iff {sources : Sources} :
    (∃ e, FirstUntokenized sources e) ↔
      ∃ entry ∈ sources.entries, ∃ cause, tokenize entry.2 = .error cause := by
  constructor
  · rintro ⟨e, text, hin, htext, _⟩
    exact ⟨(e.file, text), hin, e.error, htext⟩
  · rintro ⟨⟨file, text⟩, hentry, cause, hcause⟩
    obtain ⟨i, hi⟩ := List.mem_iff_getElem?.mp hentry
    have hreading : Reading.ofText i file text ∈ readFiles sources := by
      refine List.mem_of_getElem? (i := i) ?_
      rw [getElem?_readFiles, hi]
      rfl
    have hfails : (Reading.ofText i file text).linkError? = some ⟨file, cause⟩ :=
      Reading.linkError?_ofText.mpr ⟨rfl, hcause⟩
    have hsome : ((readFiles sources).findSome? Reading.linkError?).isSome :=
      List.findSome?_isSome_iff.mpr ⟨_, hreading, by rw [hfails]; rfl⟩
    obtain ⟨e, he⟩ := Option.isSome_iff_exists.mp hsome
    exact ⟨e, (findSome?_readFrom sources.ordered).mp he⟩

/-- Every file can be tokenized and parsed, and `files` are their programs in the order of the
    names. -/
structure ParsesTo (sources : Sources) (files : List ParsedFile) : Prop where
  length : files.length = sources.entries.length
  parsed : ∀ i name text, sources.entries[i]? = some (name, text) →
    ∃ lexemes program, tokenizeFile i text = .ok lexemes ∧ parseProgram lexemes = .ok program ∧
      files[i]? = some ⟨name, program⟩

theorem Reading.ofText_eq_program_iff {id : Nat} {name text : String} {file : ParsedFile} :
    ofText id name text = .program file ↔
      ∃ lexemes program, tokenizeFile id text = .ok lexemes ∧ parseProgram lexemes = .ok program ∧
        file = ⟨name, program⟩ := by
  unfold ofText
  cases tokenizeFile id text with
  | error e => simp
  | ok lexemes =>
    cases hparse : parseProgram lexemes with
    | error e => simp [hparse]
    | ok program => simp [hparse, eq_comm]

/-- All files are parsed if each of them reads as its program. -/
theorem readFiles_eq_map_iff {sources : Sources} {files : List ParsedFile} :
    readFiles sources = files.map Reading.program ↔ ParsesTo sources files := by
  have hlength : (readFiles sources).length = sources.entries.length := length_readFrom ..
  constructor
  · intro h
    refine ⟨by rw [← hlength, h, List.length_map], fun i name text hi => ?_⟩
    have hread := getElem?_readFiles sources i
    rw [h, hi, List.getElem?_map] at hread
    obtain ⟨file, hfile, hreading⟩ := Option.map_eq_some_iff.mp hread
    obtain ⟨lexemes, program, htokens, hparse, rfl⟩ :=
      Reading.ofText_eq_program_iff.mp hreading.symm
    exact ⟨lexemes, program, htokens, hparse, hfile⟩
  · rintro ⟨hcount, hparsed⟩
    refine List.ext_getElem? fun i => ?_
    rw [getElem?_readFiles, List.getElem?_map]
    cases hi : sources.entries[i]? with
    | none =>
      rw [List.getElem?_eq_none_iff] at hi
      rw [List.getElem?_eq_none (by omega)]
      rfl
    | some entry =>
      obtain ⟨lexemes, program, htokens, hparse, hfile⟩ := hparsed i entry.1 entry.2 hi
      rw [hfile]
      exact congrArg some
        (Reading.ofText_eq_program_iff.mpr ⟨lexemes, program, htokens, hparse, rfl⟩)

theorem map_name_parsed_sublist (id : Nat) (entries : List (String × String)) :
    (((readFrom id entries).filterMap Reading.parsed?).map ParsedFile.name).Sublist
      (entries.map Prod.fst) := by
  induction entries generalizing id with
  | nil => exact List.Sublist.refl []
  | cons entry rest ih =>
    obtain ⟨file, text⟩ := entry
    rw [readFrom, List.filterMap_cons, List.map_cons]
    cases hreading : Reading.ofText id file text with
    | program parsed =>
      obtain ⟨_, program, _, _, rfl⟩ := Reading.ofText_eq_program_iff.mp hreading
      exact (ih (id + 1)).cons_cons file
    | unparsable _ _ => exact (ih (id + 1)).cons file
    | untokenized _ => exact (ih (id + 1)).cons file

/-- What is known about files that were read without a file that cannot be tokenized. -/
structure ReadTo (sources : Sources) (parsed : List ParsedFile) (failures : List Finding) :
    Prop where
  nodup : (parsed.map ParsedFile.name).Nodup
  named : ∀ file ∈ parsed, ∀ s ∈ file.program.stmts, (Node.stmt s).Named
  failures_are : ∀ f ∈ failures, ∃ file e, f = .unparsable file e
  complete : ∀ files, ParsesTo sources files ↔ failures = [] ∧ files = parsed

/-- Readings without failures are those of the parsed files. -/
theorem readings_eq_iff {readings : List Reading}
    (hlink : readings.findSome? Reading.linkError? = none) :
    readings.filterMap Reading.finding? = [] ↔
      readings = (readings.filterMap Reading.parsed?).map Reading.program := by
  rw [List.findSome?_eq_none_iff] at hlink
  induction readings with
  | nil => simp
  | cons reading rest ih =>
    have hrest := ih fun r hr => hlink r (List.mem_cons_of_mem _ hr)
    have hfirst := hlink reading List.mem_cons_self
    cases reading with
    | program file => simpa [Reading.finding?, Reading.parsed?] using hrest
    | unparsable file e =>
      constructor
      · intro hnil
        cases hnil
      · intro heq
        have hmem : Reading.unparsable file e ∈ ((Reading.unparsable file e :: rest).filterMap
            Reading.parsed?).map Reading.program := heq ▸ List.mem_cons_self
        obtain ⟨_, _, hprogram⟩ := List.mem_map.mp hmem
        cases hprogram
    | untokenized e => cases hfirst

theorem parseFiles_cases {sources : Sources} {parsed : List ParsedFile} {failures : List Finding}
    (h : parseFiles sources = .ok (parsed, failures)) : ReadTo sources parsed failures := by
  unfold parseFiles at h
  dsimp only at h
  split at h
  · cases h
  · rename_i hlink
    obtain ⟨rfl, rfl⟩ := Prod.mk.inj (Except.ok.inj h)
    refine ⟨?_, ?_, ?_, ?_⟩
    · have hnames : (sources.entries.map Prod.fst).Nodup := by
        rw [List.Nodup, List.pairwise_map]
        refine sources.ordered.imp ?_
        intro a b hlt heq
        rw [heq] at hlt
        exact String.lt_irrefl _ hlt
      exact hnames.sublist (map_name_parsed_sublist 0 sources.entries)
    · intro file hfile
      obtain ⟨reading, hreading, hparsed⟩ := List.mem_filterMap.mp hfile
      obtain ⟨i, hi⟩ := List.mem_iff_getElem?.mp hreading
      rw [getElem?_readFiles] at hi
      obtain ⟨entry, _, rfl⟩ := Option.map_eq_some_iff.mp hi
      cases hof : Reading.ofText i entry.1 entry.2 with
      | program parsed =>
        rw [hof] at hparsed
        obtain rfl := Option.some.inj hparsed
        obtain ⟨lexemes, program, htokens, hparse, rfl⟩ := Reading.ofText_eq_program_iff.mp hof
        exact parseProgram_wellNamed (tokenizeFile_spelled htokens) hparse
      | unparsable _ _ =>
        rw [hof] at hparsed
        cases hparsed
      | untokenized _ =>
        rw [hof] at hparsed
        cases hparsed
    · intro f hf
      obtain ⟨reading, _, hfinding⟩ := List.mem_filterMap.mp hf
      cases reading with
      | unparsable file e => exact ⟨file, e, (Option.some.inj hfinding).symm⟩
      | program _ => cases hfinding
      | untokenized _ => cases hfinding
    · intro files
      rw [← readFiles_eq_map_iff, readings_eq_iff hlink]
      constructor
      · intro heq
        have hfiles : (readFiles sources).filterMap Reading.parsed? = files := by
          rw [heq, List.filterMap_map]
          exact List.filterMap_some
        rw [hfiles]
        exact ⟨heq, rfl⟩
      · rintro ⟨heq, rfl⟩
        exact heq

end ScriptCompiler
