import ScriptCompiler.Proofs.LongestMatch
import ScriptCompiler.Source.Lines
import ScriptCompiler.Token.Scanner

/-!
# Tiling a source with lexemes

A source splits into gaps and lexemes. A gap is made of white space and comments, and a lexeme is
the longest token at a place where neither starts. Scanning finds all lexemes of a source, or those
before the first place where no gap and no token goes on.
-/

namespace ScriptCompiler

open Lines (byteLength)
open scoped Computability

/-! ### Gaps -/

namespace Token

/-- Comments: a mark, then the characters up to a line feed. -/
def comments : Language Char :=
  ({['/', '/']} + {['#']}) * (single (· != '\n'))∗

/-- Nothing is left of the line. -/
def LineEnds (text : List Char) : Prop :=
  ∀ c ∈ text.head?, c = '\n'

/-- White space and comments that stand before `rest`. Each comment takes the rest of its line. -/
inductive Gap (rest : List Char) : List Char → Prop where
  | nil : Gap rest []
  | space {c : Char} {gap : List Char} (hc : isSpace c) (hgap : Gap rest gap) : Gap rest (c :: gap)
  | comment {text gap : List Char} (htext : text ∈ comments) (hend : LineEnds (gap ++ rest))
      (hgap : Gap rest gap) : Gap rest (text ++ gap)

/-- Neither white space nor a comment starts the text. -/
def NoGap (rest : List Char) : Prop :=
  ∀ text, text <+: rest → text ∉ single isSpace ∧ text ∉ comments

/-- The rest of a comment, and the gap after it. -/
def CommentGap (rest gap : List Char) : Prop :=
  ∃ body tail, gap = body ++ tail ∧ (∀ c ∈ body, c ≠ '\n') ∧ LineEnds (tail ++ rest) ∧ Gap rest tail

theorem lineEnds_nil : LineEnds [] := by
  simp [LineEnds]

theorem lineEnds_cons {c : Char} {rest : List Char} : LineEnds (c :: rest) ↔ c = '\n' := by
  simp [LineEnds]

theorem mem_comments {text : List Char} :
    text ∈ comments ↔ ∃ mark body, (mark = ['/', '/'] ∨ mark = ['#']) ∧ (∀ c ∈ body, c ≠ '\n') ∧
      text = mark ++ body := by
  simp only [comments, Language.mem_mul, Language.mem_add, mem_kstar_single, bne_iff_ne]
  constructor
  · rintro ⟨mark, hmark, body, hbody, rfl⟩
    exact ⟨mark, body, hmark, hbody, rfl⟩
  · rintro ⟨mark, body, hmark, hbody, rfl⟩
    exact ⟨mark, hmark, body, hbody, rfl⟩

theorem noGap_nil : NoGap [] := by
  intro text htext
  obtain rfl := List.prefix_nil.mp htext
  refine ⟨?_, fun h => ?_⟩
  · rintro ⟨c, _, heq⟩
    cases heq
  · obtain ⟨mark, body, rfl | rfl, _, heq⟩ := mem_comments.mp h <;> cases heq

theorem noGap_cons {c : Char} {rest : List Char} (hspace : ¬ isSpace c)
    (hmark : ¬ (c = '#' ∨ (c = '/' ∧ rest.head? = some '/'))) : NoGap (c :: rest) := by
  intro text htext
  refine ⟨?_, fun h => ?_⟩
  · rintro ⟨d, hd, rfl⟩
    obtain rfl := (List.cons_prefix_cons.mp htext).1
    exact hspace hd
  · obtain ⟨mark, body, rfl | rfl, _, rfl⟩ := mem_comments.mp h
    · obtain ⟨rfl, hrest⟩ := List.cons_prefix_cons.mp htext
      obtain ⟨after, rfl⟩ := hrest
      exact hmark (.inr ⟨rfl, rfl⟩)
    · exact hmark (.inl (List.cons_prefix_cons.mp htext).1.symm)

theorem CommentGap.gap {mark rest gap : List Char} (hmark : mark = ['/', '/'] ∨ mark = ['#'])
    (h : CommentGap rest gap) : Gap rest (mark ++ gap) := by
  obtain ⟨body, tail, rfl, hbody, hend, htail⟩ := h
  rw [← List.append_assoc]
  exact .comment (mem_comments.mpr ⟨mark, body, hmark, hbody, rfl⟩) hend htail

/-- A character other than a line feed belongs to the comment. -/
theorem CommentGap.of_cons {c : Char} {rest gap : List Char} (hc : c ≠ '\n')
    (h : CommentGap rest (c :: gap)) : CommentGap rest gap := by
  obtain ⟨body, tail, heq, hbody, hend, htail⟩ := h
  cases body with
  | nil =>
    rw [List.nil_append] at heq
    rw [← heq, List.cons_append, lineEnds_cons] at hend
    exact absurd hend hc
  | cons d body =>
    obtain ⟨rfl, rfl⟩ := List.cons.inj heq
    exact ⟨body, tail, rfl, fun e he => hbody e (List.mem_cons_of_mem c he), hend, htail⟩

theorem CommentGap.cons {c : Char} {rest gap : List Char} (hc : c ≠ '\n')
    (h : CommentGap rest gap) : CommentGap rest (c :: gap) := by
  obtain ⟨body, tail, rfl, hbody, hend, htail⟩ := h
  exact ⟨c :: body, tail, rfl, List.forall_mem_cons.mpr ⟨hc, hbody⟩, hend, htail⟩

/-- A line feed ends the comment, and white space follows. -/
theorem Gap.afterLine {rest gap : List Char} (h : Gap rest gap) : CommentGap rest ('\n' :: gap) :=
  ⟨[], '\n' :: gap, rfl, by simp, lineEnds_cons.mpr rfl, .space rfl h⟩

/-- The scanner skips a gap, or the rest of one that begins inside a comment, and no other gap
    follows. -/
theorem gap_maximal (inComment : Bool) (text : List Char) :
    ∃ rest, text = gap inComment text ++ rest ∧ NoGap rest ∧
      if inComment then CommentGap rest (gap inComment text) else Gap rest (gap inComment text) := by
  fun_induction gap inComment text with
  | case1 inComment =>
    refine ⟨[], rfl, noGap_nil, ?_⟩
    cases inComment with
    | false => exact .nil
    | true => exact ⟨[], [], rfl, by simp, lineEnds_nil, .nil⟩
  | case2 c text ih =>
    obtain ⟨rest, htext, hrest, hgap⟩ := ih
    refine ⟨rest, congrArg (c :: ·) htext, hrest, ?_⟩
    by_cases hc : c = '\n'
    · subst hc
      exact Gap.afterLine hgap
    · rw [if_pos (bne_iff_ne.mpr hc)] at hgap
      exact hgap.cons hc
  | case3 inComment c text hin hspace ih =>
    obtain ⟨rest, htext, hrest, hgap⟩ := ih
    refine ⟨rest, congrArg (c :: ·) htext, hrest, ?_⟩
    rw [if_neg hin]
    exact .space hspace hgap
  | case4 inComment c text hin hspace hmark ih =>
    obtain ⟨rest, htext, hrest, hgap⟩ := ih
    refine ⟨rest, congrArg (c :: ·) htext, hrest, ?_⟩
    rw [if_neg hin]
    rcases hmark with rfl | ⟨rfl, hhead⟩
    · exact CommentGap.gap (.inr rfl) hgap
    · -- The second stroke belongs to the mark, so it is taken off the comment again.
      obtain ⟨tail, rfl⟩ := List.head?_eq_some_iff.mp hhead
      exact CommentGap.gap (.inl rfl) (CommentGap.of_cons (by decide) hgap)
  | case5 inComment c text hin hspace hmark =>
    refine ⟨c :: text, rfl, noGap_cons hspace hmark, ?_⟩
    rw [if_neg hin]
    exact .nil

end Token

/-! ### Offsets -/

theorem Lines.byteLength_append (first second : List Char) :
    byteLength (first ++ second) = byteLength first + byteLength second := by
  induction first with
  | nil => exact (Nat.zero_add _).symm
  | cons c first ih =>
    simp only [List.cons_append, byteLength, ih]
    omega

theorem Lines.byteLength_pos {text : List Char} (h : text ≠ []) : 0 < byteLength text := by
  cases text with
  | nil => exact absurd rfl h
  | cons c rest => exact Nat.lt_of_lt_of_le c.utf8Size_pos (Nat.le_add_right _ _)

theorem Position.offset_after (p : Position) (text : List Char) :
    (p.after text).offset = p.offset + byteLength text := by
  induction text generalizing p with
  | nil => rfl
  | cons c rest ih =>
    have hadvance : (p.advance c).offset = p.offset + c.utf8Size := by
      unfold Position.advance
      split
      · next hc => subst hc; rfl
      · rfl
    rw [Position.after_cons, ih, hadvance, byteLength, Nat.add_assoc]

/-! ### Tilings -/

/-- The bytes of the source from `start` to `stop` are a gap. -/
def GapBetween (source : List Char) (start stop : Nat) : Prop :=
  ∃ before gap rest, source = before ++ (gap ++ rest) ∧ byteLength before = start ∧
    byteLength (before ++ gap) = stop ∧ Token.Gap rest gap

/-- The bytes of the source in the lexeme's span are its text, no gap starts there, and of all texts
    at that place that a pattern matches the lexeme's is the longest. -/
def Lexeme.ReadFrom (source : List Char) (l : Lexeme) : Prop :=
  ∃ before rest, source = before ++ (l.text.toList ++ rest) ∧ byteLength before = l.span.start ∧
    byteLength (before ++ l.text.toList) = l.span.stop ∧ Token.NoGap (l.text.toList ++ rest) ∧
    Token.IsLongest (l.text.toList ++ rest) l.token l.text.toList

/-- The lexemes fill the bytes of the source from `start` to `stop`, with gaps before, between and
    after them. -/
structure Tiles (file : Nat) (source : List Char) (start : Nat) (lexemes : List Lexeme)
    (stop : Nat) : Prop where
  inFile : ∀ l ∈ lexemes, l.span.file = file
  nonempty : ∀ l ∈ lexemes, l.span.start < l.span.stop
  ordered : lexemes.Pairwise fun a b => a.span.stop ≤ b.span.start
  read : ∀ l ∈ lexemes, l.ReadFrom source
  gaps : List.Forall₂ (GapBetween source) (start :: lexemes.map (·.span.stop))
    (lexemes.map (·.span.start) ++ [stop])

/-- At the place of the error the source goes on, but neither with white space nor with a comment
    nor with a token. The cause tells the character there. -/
def LexError.Refuses (source : List Char) (e : LexError) : Prop :=
  ∃ before c rest, source = before ++ c :: rest ∧ byteLength before = e.position.offset ∧
    Token.NoGap (c :: rest) ∧ (∀ text token, text <+: c :: rest → ¬ Token.Matches text token) ∧
    (e.cause = .unterminatedString ↔ c = '"') ∧ (c ≠ '"' → e.cause = .unexpectedChar c)

/-- What scanning a source from the byte `start` on comes to: a tiling of all of it and the end
    token, or a tiling up to an error. -/
def Scanned (file : Nat) (source : List Char) (start : Nat) : Except LexError (List Lexeme) → Prop
  | .ok lexemes => ∃ tokens last, lexemes = tokens ++ [last] ∧
      Tiles file source start tokens (byteLength source) ∧ (∀ l ∈ tokens, l.token ≠ .eof) ∧
      last.token = .eof ∧ last.text = "" ∧ last.span.file = file ∧
      last.span.start = byteLength source ∧ last.span.stop = byteLength source
  | .error e => ∃ tokens, Tiles file source start tokens e.position.offset ∧
      (∀ l ∈ tokens, l.token ≠ .eof) ∧ e.Refuses source

theorem GapBetween.le {source : List Char} {start stop : Nat} (h : GapBetween source start stop) :
    start ≤ stop := by
  obtain ⟨before, gap, rest, _, rfl, rfl, _⟩ := h
  rw [Lines.byteLength_append]
  exact Nat.le_add_right _ _

theorem Token.Matches.ne_eof {text : List Char} {token : Token} (h : Token.Matches text token) :
    token ≠ .eof := by
  cases h <;> exact Token.noConfusion

theorem Token.Matches.ne_nil {text : List Char} {token : Token} (h : Token.Matches text token) :
    text ≠ [] := by
  obtain ⟨c, rest, rfl, _⟩ := h.shape
  exact List.cons_ne_nil c rest

theorem Lexeme.ReadFrom.matched {source : List Char} {l : Lexeme} (h : l.ReadFrom source) :
    Token.Matches l.text.toList l.token := by
  obtain ⟨_, _, _, _, _, _, hlongest⟩ := h
  exact hlongest.matched

theorem Lexeme.ReadFrom.start_lt_stop {source : List Char} {l : Lexeme} (h : l.ReadFrom source) :
    l.span.start < l.span.stop := by
  have hpos := Lines.byteLength_pos h.matched.ne_nil
  obtain ⟨before, rest, _, hstart, hstop, _⟩ := h
  rw [Lines.byteLength_append] at hstop
  omega

theorem Tiles.nil {file start stop : Nat} {source : List Char} (h : GapBetween source start stop) :
    Tiles file source start [] stop :=
  ⟨by simp, by simp, .nil, by simp, .cons h .nil⟩

/-- No lexeme begins before the tiling. -/
theorem Tiles.start_le {file start stop : Nat} {source : List Char} {lexemes : List Lexeme}
    (h : Tiles file source start lexemes stop) : ∀ l ∈ lexemes, start ≤ l.span.start := by
  intro l hl
  cases lexemes with
  | nil => cases hl
  | cons first rest =>
    obtain ⟨hgap, _⟩ := List.forall₂_cons.mp h.gaps
    rcases List.mem_cons.mp hl with rfl | hin
    · exact hgap.le
    · have hfirst : start ≤ first.span.start := hgap.le
      have hnonempty := h.nonempty first (List.mem_cons_self ..)
      have hordered := List.rel_of_pairwise_cons h.ordered hin
      omega

theorem Tiles.cons {file start stop : Nat} {source : List Char} {l : Lexeme}
    {lexemes : List Lexeme} (hgap : GapBetween source start l.span.start) (hfile : l.span.file = file)
    (hread : l.ReadFrom source) (h : Tiles file source l.span.stop lexemes stop) :
    Tiles file source start (l :: lexemes) stop where
  inFile := List.forall_mem_cons.mpr ⟨hfile, h.inFile⟩
  nonempty := List.forall_mem_cons.mpr ⟨hread.start_lt_stop, h.nonempty⟩
  ordered := List.pairwise_cons.mpr ⟨h.start_le, h.ordered⟩
  read := List.forall_mem_cons.mpr ⟨hread, h.read⟩
  gaps := .cons hgap h.gaps

/-- A lexeme before what the rest of the source comes to. -/
theorem Scanned.cons {file start : Nat} {source : List Char} {l : Lexeme}
    {outcome : Except LexError (List Lexeme)} (hgap : GapBetween source start l.span.start)
    (hfile : l.span.file = file) (hread : l.ReadFrom source)
    (h : Scanned file source l.span.stop outcome) :
    Scanned file source start (outcome.map fun rest => l :: rest) := by
  have htoken := hread.matched.ne_eof
  cases outcome with
  | ok lexemes =>
    obtain ⟨tokens, last, rfl, htiles, hnone, hlast⟩ := h
    exact ⟨l :: tokens, last, rfl, htiles.cons hgap hfile hread,
      List.forall_mem_cons.mpr ⟨htoken, hnone⟩, hlast⟩
  | error e =>
    obtain ⟨tokens, htiles, hnone, hrefuses⟩ := h
    exact ⟨l :: tokens, htiles.cons hgap hfile hread, List.forall_mem_cons.mpr ⟨htoken, hnone⟩,
      hrefuses⟩

/-! ### Scanning -/

namespace Scanner

/-- The scanner stands in the source with number `file`, behind the characters `before`. -/
structure StandsIn (s : Scanner) (file : Nat) (source before : List Char) : Prop where
  file_eq : s.file = file
  source_eq : source = before ++ s.rest
  offset_eq : s.position.offset = byteLength before

theorem StandsIn.move {s : Scanner} {file : Nat} {source before text rest : List Char}
    (h : s.StandsIn file source before) (hrest : s.rest = text ++ rest) :
    (s.move text).StandsIn file source (before ++ text) ∧ (s.move text).rest = rest := by
  have hmoved : (s.move text).rest = rest := by
    show s.rest.drop text.length = rest
    rw [hrest, List.drop_left]
  refine ⟨⟨h.file_eq, ?_, ?_⟩, hmoved⟩
  · rw [hmoved, h.source_eq, hrest, List.append_assoc]
  · show (s.position.after text).offset = _
    rw [Position.offset_after, h.offset_eq, Lines.byteLength_append]

/-- Skipping moves over a gap to a place where no gap starts. -/
theorem StandsIn.skipGap {s : Scanner} {file : Nat} {source before : List Char}
    (h : s.StandsIn file source before) :
    ∃ before', s.skipGap.StandsIn file source before' ∧ Token.NoGap s.skipGap.rest ∧
      GapBetween source s.position.offset s.skipGap.position.offset := by
  obtain ⟨rest, hrest, hnone, hgap⟩ := Token.gap_maximal false s.rest
  obtain ⟨hstands, hmoved⟩ := h.move hrest
  refine ⟨_, hstands, hmoved ▸ hnone, before, Token.gap false s.rest, rest, ?_, h.offset_eq.symm,
    hstands.offset_eq.symm, hgap⟩
  rw [h.source_eq, ← hrest]

theorem read_cases (s : Scanner) :
    (s.rest = [] ∧ s.read = .ok (s.endLexeme, s)) ∨
    (∃ token text, Token.munch s.rest = some (token, text) ∧
      s.read = .ok (s.lexeme token text, s.move text)) ∨
    ∃ c rest, s.rest = c :: rest ∧ Token.munch s.rest = none ∧ s.read = .error (s.errorAt c) := by
  unfold Scanner.read
  split
  · next hrest => exact .inl ⟨hrest, rfl⟩
  · next c rest hrest =>
    cases hmunch : Token.munch s.rest with
    | none => exact .inr (.inr ⟨c, rest, hrest, rfl, rfl⟩)
    | some found => exact .inr (.inl ⟨found.1, found.2, rfl, rfl⟩)

/-- The token found at a place where no gap starts is the longest one there. -/
theorem StandsIn.lexeme {s : Scanner} {file : Nat} {source before text : List Char} {token : Token}
    (h : s.StandsIn file source before) (hnone : Token.NoGap s.rest)
    (hmunch : Token.munch s.rest = some (token, text)) :
    (s.lexeme token text).ReadFrom source ∧ (s.move text).StandsIn file source (before ++ text) ∧
      (s.move text).rest.length < s.rest.length := by
  have hlongest := Token.isLongest_of_munch hmunch
  obtain ⟨rest, hrest⟩ := hlongest.starts
  obtain ⟨hstands, hmoved⟩ := h.move hrest.symm
  have htext : (s.lexeme token text).text.toList = text := String.toList_ofList
  refine ⟨⟨before, rest, ?_, h.offset_eq.symm, ?_, ?_, ?_⟩, hstands, ?_⟩
  · rw [htext, hrest, h.source_eq]
  · rw [htext]
    exact hstands.offset_eq.symm
  · rwa [htext, hrest]
  · rwa [htext, hrest]
  · have hpos := List.length_pos_iff.mpr hlongest.matched.ne_nil
    rw [hmoved, ← hrest, List.length_append]
    omega

/-- Where no gap starts and no token is found, none of their texts is there. -/
theorem StandsIn.refuses {s : Scanner} {file : Nat} {source before rest : List Char} {c : Char}
    (h : s.StandsIn file source before) (hnone : Token.NoGap s.rest) (hrest : s.rest = c :: rest)
    (hmunch : Token.munch s.rest = none) : (s.errorAt c).Refuses source := by
  refine ⟨before, c, rest, hrest ▸ h.source_eq, h.offset_eq.symm, hrest ▸ hnone, ?_, ?_, ?_⟩
  · intro text token htext
    exact Token.not_matches_of_munch hmunch (hrest ▸ htext)
  · show (if c = '"' then LexCause.unterminatedString else .unexpectedChar c) = _ ↔ _
    split <;> simp_all
  · intro hc
    show (if c = '"' then LexCause.unterminatedString else .unexpectedChar c) = _
    rw [if_neg hc]

/-- At the end of the source the end token follows the last gap. -/
theorem StandsIn.scanned_end {s : Scanner} {file start : Nat} {source before : List Char}
    (h : s.StandsIn file source before) (hrest : s.rest = [])
    (hgap : GapBetween source start s.position.offset) :
    Scanned file source start (.ok [s.endLexeme]) := by
  have hstop : s.position.offset = byteLength source := by
    rw [h.offset_eq, h.source_eq, hrest, List.append_nil]
  exact ⟨[], s.endLexeme, rfl, .nil (hstop ▸ hgap), by simp, rfl, rfl, h.file_eq, hstop, hstop⟩

/-- What scanning the rest of a source comes to. -/
theorem scanned_lexemesWithin {bound : Nat} {s : Scanner} {file : Nat} {source before : List Char}
    (h : s.StandsIn file source before) (hbound : s.rest.length ≤ bound) :
    Scanned file source s.position.offset (s.lexemesWithin bound) := by
  induction bound generalizing s before with
  | zero =>
    have hrest : s.rest = [] := List.length_eq_zero_iff.mp (Nat.le_zero.mp hbound)
    refine h.scanned_end hrest ⟨before, [], s.rest, h.source_eq, h.offset_eq.symm, ?_, .nil⟩
    rw [List.append_nil, h.offset_eq]
  | succ bound ih =>
    obtain ⟨before, hskipped, hnone, hgap⟩ := h.skipGap
    have hlength : s.skipGap.rest.length ≤ s.rest.length := by
      show (s.rest.drop _).length ≤ _
      exact List.length_drop ▸ Nat.sub_le ..
    rw [lexemesWithin, next]
    rcases s.skipGap.read_cases with ⟨hrest, hread⟩ | ⟨token, text, hmunch, hread⟩ |
      ⟨c, rest, hrest, hmunch, hread⟩
    · rw [hread]
      exact hskipped.scanned_end hrest hgap
    · obtain ⟨hfrom, hstands, hshorter⟩ := hskipped.lexeme hnone hmunch
      have htoken : (s.skipGap.lexeme token text).token ≠ .eof := hfrom.matched.ne_eof
      have hscanned := ih hstands (by omega)
      rw [hread]
      dsimp only
      rw [if_neg htoken]
      exact hscanned.cons hgap hskipped.file_eq hfrom
    · rw [hread]
      exact ⟨[], .nil hgap, by simp, hskipped.refuses hnone hrest hmunch⟩

end Scanner

/-- The lexemes of a source end with the end token. -/
theorem exists_eof_of_tokenizeFile {file : Nat} {source : String} {lexemes : List Lexeme}
    (h : tokenizeFile file source = .ok lexemes) :
    ∃ tokens last, lexemes = tokens ++ [last] ∧ last.token = .eof := by
  have hstands : (Scanner.ofSource file source).StandsIn file source.toList [] := ⟨rfl, rfl, rfl⟩
  have hscanned : Scanned file source.toList 0 (tokenizeFile file source) :=
    Scanner.scanned_lexemesWithin hstands (Nat.le_refl _)
  rw [h] at hscanned
  obtain ⟨tokens, last, hlexemes, _, _, hlast, _⟩ := hscanned
  exact ⟨tokens, last, hlexemes, hlast⟩

/-- Scanning a source gives its lexemes, which are the longest tokens between its gaps, and then the
    end token. It stops only at a place where neither a gap nor a token goes on, and what comes
    before that place is lexemes and gaps, too. -/
theorem tokenizeFile_scanned (file : Nat) (source : String) :
    Scanned file source.toList 0 (tokenizeFile file source) := by
  have hstands : (Scanner.ofSource file source).StandsIn file source.toList [] := ⟨rfl, rfl, rfl⟩
  exact Scanner.scanned_lexemesWithin hstands (Nat.le_refl _)

end ScriptCompiler
