import ScriptCompiler.Proofs.LineColumns
import ScriptCompiler.Proofs.Relocation

/-!
# Scanning line after line

No token and no comment of a source goes on over a line feed behind it: the only tokens that hold
line feeds are string literals, and these end with their closing quote. So the lexemes of two sources
with a line feed between them are those of the first one and, further down, those of the second one.
-/

namespace ScriptCompiler

open Lines (byteLength)

/-! ### What a line feed ends -/

namespace Token

section Stop

variable {p : Char → Bool} {c : Char} (hc : p c = false)

include hc

theorem takeWhile_append_cons (text rest : List Char) :
    (text ++ c :: rest).takeWhile p = text.takeWhile p := by
  induction text with
  | nil => exact List.takeWhile_cons_of_neg (by simp [hc])
  | cons d text ih => rw [List.cons_append, List.takeWhile_cons, List.takeWhile_cons, ih]

theorem dropWhile_append_cons (text rest : List Char) :
    (text ++ c :: rest).dropWhile p = text.dropWhile p ++ c :: rest := by
  induction text with
  | nil => exact List.dropWhile_cons_of_neg (by simp [hc])
  | cons d text ih =>
    rw [List.cons_append, List.dropWhile_cons, List.dropWhile_cons, ih]
    split <;> rfl

end Stop

/-- A gap that reaches up to a line feed goes on behind it, and another one ends where it did. -/
theorem gap_append_line (inComment : Bool) (text second : List Char) :
    gap inComment (text ++ '\n' :: second) =
      if gap inComment text = text then text ++ '\n' :: gap false second
      else gap inComment text := by
  fun_induction gap inComment text with
  | case1 inComment => cases inComment <;> rfl
  | case2 c text ih =>
    rw [List.cons_append, gap, if_pos rfl, ih]
    simp only [List.cons.injEq, true_and]
    split <;> rfl
  | case3 inComment c text hin hspace ih =>
    rw [List.cons_append, gap, if_neg hin, if_pos hspace, ih]
    simp only [List.cons.injEq, true_and]
    split <;> rfl
  | case4 inComment c text hin hspace hmark ih =>
    have hmark' : c = '#' ∨ (c = '/' ∧ (text ++ '\n' :: second).head? = some '/') := by
      refine hmark.imp_right fun hstroke => ⟨hstroke.1, ?_⟩
      rw [List.head?_append, hstroke.2, Option.some_or]
    rw [List.cons_append, gap, if_neg hin, if_neg hspace, if_pos hmark', ih]
    simp only [List.cons.injEq, true_and]
    split <;> rfl
  | case5 inComment c text hin hspace hmark =>
    -- A stroke before the line feed is not the start of a comment.
    have hmark' : ¬ (c = '#' ∨ (c = '/' ∧ (text ++ '\n' :: second).head? = some '/')) := by
      cases text with
      | nil => exact fun h => hmark (h.imp_right fun h => absurd (Option.some.inj h.2) (by decide))
      | cons d text => exact hmark
    rw [List.cons_append, gap, if_neg hin, if_neg hspace, if_neg hmark',
      if_neg (List.cons_ne_nil c text).symm]

theorem numeralChars_append_line (text second : List Char) :
    numeralChars (text ++ '\n' :: second) = numeralChars text := by
  have hfeed : isDigitPart '\n' = false := by decide
  unfold numeralChars
  rw [takeWhile_append_cons hfeed, dropWhile_append_cons hfeed]
  dsimp only
  rcases text.dropWhile isDigitPart with _ | ⟨c, _ | ⟨d, rest⟩⟩
  · rfl
  · by_cases hc : c = '.'
    · subst hc
      rfl
    · simp [hc]
  · by_cases hc : c = '.'
    · subst hc
      simp only [List.cons_append, takeWhile_append_cons hfeed]
    · simp [hc]

theorem literalBody_append {text body : List Char} (h : literalBody text = some body)
    (rest : List Char) : literalBody (text ++ rest) = some body := by
  obtain ⟨hbody, behind, rfl⟩ := literalBody_sound h
  rw [List.append_assoc, List.append_assoc]
  exact literalBody_complete hbody

theorem isPrefixOf_append_line {chars : List Char} (h : '\n' ∉ chars) (text second : List Char) :
    chars.isPrefixOf (text ++ '\n' :: second) = chars.isPrefixOf text := by
  induction chars generalizing text with
  | nil => simp
  | cons c chars ih =>
    obtain ⟨hc, hchars⟩ := not_or.mp (mt List.mem_cons.mpr h)
    cases text with
    | nil => simp [List.isPrefixOf, Ne.symm hc]
    | cons d text => rw [List.cons_append, List.isPrefixOf, List.isPrefixOf, ih hchars]

theorem symbolAt?_append_line (text second : List Char) :
    symbolAt? (text ++ '\n' :: second) = symbolAt? text := by
  have hplain : ∀ s : Symbol, '\n' ∉ s.chars := by
    intro s
    cases s <;> decide
  unfold symbolAt?
  congr 1
  funext s
  exact isPrefixOf_append_line (hplain s) text second

/-- The token at the start of a text does not go on over a line feed behind the text. -/
theorem munch_append_line {text chars : List Char} {token : Token}
    (h : munch text = some (token, chars)) (second : List Char) :
    munch (text ++ '\n' :: second) = some (token, chars) := by
  cases text with
  | nil => cases h
  | cons c rest =>
    have hword : wordChars (c :: rest ++ '\n' :: second) = wordChars (c :: rest) :=
      takeWhile_append_cons (by decide) (c :: rest) second
    have hnumeral := numeralChars_append_line (c :: rest) second
    have hsymbol := symbolAt?_append_line (c :: rest) second
    rw [List.cons_append] at hword hnumeral hsymbol ⊢
    rw [munch, hword, hnumeral, hsymbol]
    rw [munch] at h
    by_cases hquote : c = '"'
    · subst hquote
      rw [if_neg (by decide), if_neg (by decide), if_pos rfl] at h ⊢
      obtain ⟨body, hbody, hfound⟩ := Option.map_eq_some_iff.mp h
      rw [literalBody_append hbody, Option.map_some, hfound]
    · rw [if_neg hquote] at h ⊢
      exact h

end Token

/-! ### Scanning without a bound -/

namespace Scanner

theorem length_skipGap_le (s : Scanner) : s.skipGap.rest.length ≤ s.rest.length := by
  show (s.rest.drop _).length ≤ _
  exact List.length_drop ▸ Nat.sub_le ..

theorem length_move_lt {s : Scanner} {token : Token} {text : List Char}
    (h : Token.munch s.rest = some (token, text)) : (s.move text).rest.length < s.rest.length := by
  have hlongest := Token.isLongest_of_munch h
  have hpos := List.length_pos_iff.mpr hlongest.matched.ne_nil
  have hle := hlongest.starts.length_le
  show (s.rest.drop text.length).length < _
  rw [List.length_drop]
  omega

theorem skipGap_of_nil {s : Scanner} (h : s.rest = []) : s.skipGap = s := by
  rw [skipGap, h]
  rfl

/-- More steps than there are characters change nothing. -/
theorem lexemesWithin_succ {bound : Nat} {s : Scanner} (h : s.rest.length ≤ bound) :
    s.lexemesWithin (bound + 1) = s.lexemesWithin bound := by
  induction bound generalizing s with
  | zero =>
    have hrest : s.rest = [] := List.length_eq_zero_iff.mp (Nat.le_zero.mp h)
    have hnext : s.next = .ok (s.endLexeme, s) := by
      rw [next, skipGap_of_nil hrest, read, hrest]
    rw [lexemesWithin, lexemesWithin, hnext]
    rfl
  | succ bound ih =>
    have hskip := s.length_skipGap_le
    rw [lexemesWithin.eq_2 s (bound + 1), lexemesWithin.eq_2 s bound, next]
    rcases s.skipGap.read_cases with ⟨_, hread⟩ | ⟨token, text, hmunch, hread⟩ | ⟨_, _, _, _, hread⟩
    · rw [hread]
      rfl
    · have hmove := length_move_lt hmunch
      rw [hread]
      dsimp only
      rw [ih (by omega)]
    · rw [hread]

theorem lexemesWithin_eq_lexemes {bound : Nat} {s : Scanner} (h : s.rest.length ≤ bound) :
    s.lexemesWithin bound = s.lexemes := by
  induction bound, h using Nat.le_induction with
  | base => rfl
  | succ bound hle ih => rw [lexemesWithin_succ hle, ih]

/-- Scanning takes one step and goes on from there. -/
theorem lexemes_eq (s : Scanner) : s.lexemes = s.lexemesWithin (s.rest.length + 1) :=
  (lexemesWithin_eq_lexemes (Nat.le_succ _)).symm

section Steps

variable {s : Scanner}

theorem lexemes_of_end (h : s.skipGap.rest = []) : s.lexemes = .ok [s.skipGap.endLexeme] := by
  rw [lexemes_eq, lexemesWithin, next, read, h]
  rfl

theorem lexemes_of_munch {token : Token} {text : List Char}
    (h : Token.munch s.skipGap.rest = some (token, text)) :
    s.lexemes = (s.skipGap.move text).lexemes.map (s.skipGap.lexeme token text :: ·) := by
  have hskip := s.length_skipGap_le
  have hmove := length_move_lt h
  have htoken : ¬ (s.skipGap.lexeme token text).token = .eof :=
    (Token.isLongest_of_munch h).matched.ne_eof
  rcases s.skipGap.read_cases with ⟨hrest, _⟩ | ⟨found, chars, hmunch, hread⟩ | ⟨_, _, _, hnone, _⟩
  · rw [hrest] at h
    cases h
  · obtain ⟨rfl, rfl⟩ : found = token ∧ chars = text := by
      simpa using hmunch.symm.trans h
    rw [lexemes_eq, lexemesWithin, next, hread]
    dsimp only
    rw [if_neg htoken, lexemesWithin_eq_lexemes (by omega)]
  · rw [hnone] at h
    cases h

theorem lexemes_of_error {c : Char} {rest : List Char} (hrest : s.skipGap.rest = c :: rest)
    (h : Token.munch s.skipGap.rest = none) : s.lexemes = .error (s.skipGap.errorAt c) := by
  rw [hrest] at h
  rw [lexemes_eq, lexemesWithin, next, read, hrest]
  dsimp only
  rw [h]

/-- Scanning depends on what is left behind the first gap. -/
theorem lexemes_congr {t : Scanner} (h : s.skipGap = t.skipGap) : s.lexemes = t.lexemes := by
  rcases s.skipGap.read_cases with ⟨hrest, _⟩ | ⟨token, text, hmunch, _⟩ | ⟨c, rest, hrest, hnone, _⟩
  · rw [lexemes_of_end hrest, lexemes_of_end (h ▸ hrest), h]
  · rw [lexemes_of_munch hmunch, h]
    exact (lexemes_of_munch (h ▸ hmunch)).symm
  · rw [lexemes_of_error hrest hnone, lexemes_of_error (h ▸ hrest) (h ▸ hnone), h]

/-- Scanning ends, fails or goes on behind a token. -/
theorem scan_induction {motive : Scanner → Prop}
    (ended : ∀ s : Scanner, s.skipGap.rest = [] → motive s)
    (munched : ∀ (s : Scanner) (token : Token) (text : List Char),
      Token.munch s.skipGap.rest = some (token, text) → motive (s.skipGap.move text) → motive s)
    (failed : ∀ (s : Scanner) (c : Char) (rest : List Char), s.skipGap.rest = c :: rest →
      Token.munch s.skipGap.rest = none → motive s) (s : Scanner) : motive s := by
  induction hlength : s.rest.length using Nat.strong_induction_on generalizing s with
  | _ n ih =>
    rcases s.skipGap.read_cases with ⟨hrest, _⟩ | ⟨token, text, hmunch, _⟩ | ⟨c, rest, hrest, hnone, _⟩
    · exact ended s hrest
    · have hshorter : (s.skipGap.move text).rest.length < n :=
        hlength ▸ Nat.lt_of_lt_of_le (length_move_lt hmunch) s.length_skipGap_le
      exact munched s token text hmunch (ih _ hshorter _ rfl)
    · exact failed s c rest hrest hnone

end Steps

/-! ### More text behind a line feed -/

/-- The scanner with more text behind its own. -/
def extend (s : Scanner) (more : List Char) : Scanner :=
  { s with rest := s.rest ++ more }

/-- The scanner that has moved over all its text and a line feed, before more text. -/
def below (s : Scanner) (more : List Char) : Scanner :=
  ⟨s.file, s.position.after (s.rest ++ ['\n']), more⟩

theorem move_extend {s : Scanner} {text : List Char} (h : text <+: s.rest) (more : List Char) :
    (s.extend more).move text = (s.move text).extend more := by
  show Scanner.mk _ _ ((s.rest ++ more).drop text.length) = Scanner.mk _ _ (s.rest.drop _ ++ more)
  rw [List.drop_append_of_le_length h.length_le]
  rfl

theorem below_move {s : Scanner} {text : List Char} (h : text <+: s.rest) (more : List Char) :
    (s.move text).below more = s.below more := by
  obtain ⟨rest, hrest⟩ := h
  show Scanner.mk _ ((s.position.after text).after (s.rest.drop text.length ++ ['\n'])) _ =
    Scanner.mk _ (s.position.after (s.rest ++ ['\n'])) _
  rw [← hrest, List.drop_left, ← Position.after_append, List.append_assoc]
  rfl

/-- The gap before the next lexeme ends where it did, or it is all that is left and goes on behind
    the line feed. -/
theorem skipGap_extend_line (s : Scanner) (second : List Char) :
    (s.extend ('\n' :: second)).skipGap =
      if s.skipGap.rest = [] then (s.below second).skipGap
      else s.skipGap.extend ('\n' :: second) := by
  obtain ⟨rest, hrest, _⟩ := Token.gap_maximal false s.rest
  have hskipped : s.skipGap.rest = rest :=
    (congrArg (List.drop _) hrest).trans List.drop_left
  have hgap := Token.gap_append_line false s.rest second
  rw [hskipped]
  by_cases hnil : rest = []
  · have hall : Token.gap false s.rest = s.rest := by
      rw [hnil, List.append_nil] at hrest
      exact hrest.symm
    rw [if_pos hall] at hgap
    rw [if_pos hnil]
    show Scanner.mk _ (s.position.after (Token.gap false (s.rest ++ '\n' :: second)))
      ((s.rest ++ '\n' :: second).drop (Token.gap false (s.rest ++ '\n' :: second)).length) = _
    rw [hgap, List.append_cons, List.append_cons s.rest '\n' second, Position.after_append,
      List.length_append, List.drop_length_add_append]
    rfl
  · have hsome : Token.gap false s.rest ≠ s.rest := by
      intro heq
      rw [heq] at hrest
      exact hnil (List.self_eq_append_right.mp hrest)
    rw [if_neg hsome] at hgap
    rw [if_neg hnil]
    show (s.extend _).move (Token.gap false (s.rest ++ '\n' :: second)) = _
    rw [hgap]
    exact move_extend ⟨rest, hrest.symm⟩ _

/-- Scanning goes on behind the line feed as if it began there. -/
theorem lexemes_extend_line {s : Scanner} {lexemes : List Lexeme} (h : s.lexemes = .ok lexemes)
    (second : List Char) :
    (s.extend ('\n' :: second)).lexemes = (s.below second).lexemes.map
      (lexemes.filter (fun l => l.token ≠ .eof) ++ ·) := by
  induction s using scan_induction generalizing lexemes with
  | ended s hrest =>
    have hskip := skipGap_extend_line s second
    rw [if_pos hrest] at hskip
    rw [lexemes_of_end hrest] at h
    obtain rfl := Except.ok.inj h
    rw [lexemes_congr hskip]
    cases (s.below second).lexemes <;> rfl
  | munched s token text hmunch ih =>
    have hne : s.skipGap.rest ≠ [] := by
      intro hnil
      rw [hnil] at hmunch
      cases hmunch
    have hskip := skipGap_extend_line s second
    rw [if_neg hne] at hskip
    have hlongest := Token.isLongest_of_munch hmunch
    have htoken : (s.skipGap.lexeme token text).token ≠ .eof := hlongest.matched.ne_eof
    obtain ⟨_, hgap, _⟩ := Token.gap_maximal false s.rest
    have hbelow : s.skipGap.below second = s.below second := below_move ⟨_, hgap.symm⟩ second
    rw [lexemes_of_munch hmunch] at h
    cases hmore : (s.skipGap.move text).lexemes with
    | error e =>
      rw [hmore] at h
      cases h
    | ok more =>
      rw [hmore] at h
      obtain rfl := Except.ok.inj h
      have hmunch' : Token.munch (s.extend ('\n' :: second)).skipGap.rest = some (token, text) := by
        rw [hskip]
        exact Token.munch_append_line hmunch second
      rw [lexemes_of_munch hmunch', hskip, move_extend hlongest.starts, ih hmore,
        below_move hlongest.starts, hbelow, List.filter_cons_of_pos (by simpa using htoken)]
      cases (s.below second).lexemes <;> rfl
  | failed s c rest hrest hnone =>
    rw [lexemes_of_error hrest hnone] at h
    cases h

end Scanner

/-! ### Places further down -/

/-- The place so many bytes and lines further down. -/
def Position.shift (bytes lines : Nat) (p : Position) : Position :=
  { p with offset := p.offset + bytes, line := p.line + lines }

def Span.shift (bytes lines : Nat) (span : Span) : Span :=
  { span with start := span.start + bytes, stop := span.stop + bytes, line := span.line + lines }

def LexError.shift (bytes lines : Nat) (e : LexError) : LexError :=
  { e with position := e.position.shift bytes lines }

/-- What scanning comes to so many bytes and lines further down. -/
def shiftOutcome (bytes lines : Nat) :
    Except LexError (List Lexeme) → Except LexError (List Lexeme)
  | .ok lexemes => .ok (lexemes.map (Lexeme.relocate (Span.shift bytes lines)))
  | .error e => .error (e.shift bytes lines)

namespace Position

variable (bytes lines : Nat)

theorem shift_advance (p : Position) (c : Char) :
    (p.shift bytes lines).advance c = (p.advance c).shift bytes lines := by
  unfold advance
  split <;> simp [shift, Nat.add_right_comm]

theorem shift_after (p : Position) (text : List Char) :
    (p.shift bytes lines).after text = (p.after text).shift bytes lines := by
  induction text generalizing p with
  | nil => rfl
  | cons c rest ih => rw [after_cons, after_cons, shift_advance, ih]

end Position

namespace Scanner

def shift (bytes lines : Nat) (s : Scanner) : Scanner :=
  { s with position := s.position.shift bytes lines }

variable (bytes lines : Nat)

theorem shift_move (s : Scanner) (text : List Char) :
    (s.shift bytes lines).move text = (s.move text).shift bytes lines :=
  congrArg (fun p => Scanner.mk s.file p (s.rest.drop text.length))
    (Position.shift_after bytes lines s.position text)

theorem shift_lexeme (s : Scanner) (token : Token) (text : List Char) :
    (s.shift bytes lines).lexeme token text =
      (s.lexeme token text).relocate (Span.shift bytes lines) := by
  show Lexeme.mk _ _ (Span.between _ _ ((s.position.shift bytes lines).after text)) = _
  rw [Position.shift_after]
  rfl

/-- Where a scanner stands does not matter for what it reads. -/
theorem lexemes_shift (s : Scanner) :
    (s.shift bytes lines).lexemes = shiftOutcome bytes lines s.lexemes := by
  have hskip : ∀ s : Scanner, (s.shift bytes lines).skipGap = s.skipGap.shift bytes lines :=
    fun s => shift_move bytes lines s _
  induction s using scan_induction with
  | ended s hrest =>
    have hend : (s.shift bytes lines).skipGap.rest = [] := by
      rw [hskip]
      exact hrest
    rw [lexemes_of_end hend, lexemes_of_end hrest, hskip]
    rfl
  | munched s token text hmunch ih =>
    have hmunch' : Token.munch (s.shift bytes lines).skipGap.rest = some (token, text) := by
      rw [hskip]
      exact hmunch
    rw [lexemes_of_munch hmunch', lexemes_of_munch hmunch, hskip, shift_move, shift_lexeme, ih]
    cases (s.skipGap.move text).lexemes <;> rfl
  | failed s c rest hrest hnone =>
    have hrest' : (s.shift bytes lines).skipGap.rest = c :: rest := by
      rw [hskip]
      exact hrest
    have hnone' : Token.munch (s.shift bytes lines).skipGap.rest = none := by
      rw [hskip]
      exact hnone
    rw [lexemes_of_error hrest' hnone', lexemes_of_error hrest hnone, hskip]
    rfl

end Scanner

/-- The position behind a line feed is the start of a source, further down. -/
theorem Position.after_line (text : List Char) :
    start.after (text ++ ['\n']) = start.shift (byteLength text + 1) (text.count '\n' + 1) := by
  have hoffset := offset_after start text
  have hline := line_after start text
  rw [after_append, after_cons, after_nil, advance, if_pos rfl, hoffset, hline]
  simp [shift, start, Nat.add_comm, Nat.add_left_comm]

/-- If a source can be scanned, its lexemes up to the end token are those of the joined source, too,
    and the second source is scanned behind the line feed as it is alone: all its places are as many
    bytes and lines further down as the first source and the line feed have, and so is the place of
    an error. -/
theorem tokenizeFile_append_line {file : Nat} {first : String} {lexemes : List Lexeme}
    (h : tokenizeFile file first = .ok lexemes) (second : String) :
    tokenizeFile file (first ++ "\n" ++ second) =
      (shiftOutcome (byteLength first.toList + 1) (first.toList.count '\n' + 1)
        (tokenizeFile file second)).map (lexemes.filter (fun l => l.token ≠ .eof) ++ ·) := by
  have hsource : Scanner.ofSource file (first ++ "\n" ++ second) =
      (Scanner.ofSource file first).extend ('\n' :: second.toList) := by
    simp [Scanner.ofSource, Scanner.extend]
  have hbelow : (Scanner.ofSource file first).below second.toList =
      (Scanner.ofSource file second).shift (byteLength first.toList + 1)
        (first.toList.count '\n' + 1) := by
    show Scanner.mk _ (Position.start.after (first.toList ++ ['\n'])) _ = _
    rw [Position.after_line]
    rfl
  rw [tokenizeFile, hsource, Scanner.lexemes_extend_line h, hbelow, Scanner.lexemes_shift]
  rfl

/-- A string literal over two lines, and a comment that the end of the source ends. -/
def commentedSource : String :=
  "f(\"é\n\") // \" $"

/-- The comment ends at the line feed between the sources. What follows is on the third line, and so
    is the error there. -/
theorem tokenize_commentedSource :
    ∃ lexemes, tokenizeFile 0 commentedSource = .ok lexemes ∧
      lexemes.map (fun l => (l.text, l.span.start, l.span.line, l.span.column)) =
        [("f", 0, 1, 1), ("(", 1, 1, 2), ("\"é\n\"", 2, 1, 3), (")", 7, 2, 2), ("", 15, 2, 10)] ∧
      tokenizeFile 0 (commentedSource ++ "\n" ++ "g") =
        .ok (lexemes.filter (fun l => l.token ≠ .eof) ++
          [⟨.ident "g", "g", 0, 16, 17, 3, 1⟩, ⟨.eof, "", 0, 17, 17, 3, 2⟩]) ∧
      tokenizeFile 0 (commentedSource ++ "\n" ++ "g $") =
        .error ⟨.unexpectedChar '$', 18, 3, 3⟩ := by
  have hfirst : tokenizeFile 0 commentedSource = .ok
      [⟨.ident "f", "f", 0, 0, 1, 1, 1⟩, ⟨.symbol .lparen, "(", 0, 1, 2, 1, 2⟩,
        ⟨.string "é\n", "\"é\n\"", 0, 2, 7, 1, 3⟩, ⟨.symbol .rparen, ")", 0, 7, 8, 2, 2⟩,
        ⟨.eof, "", 0, 15, 15, 2, 10⟩] := by
    decide +kernel
  refine ⟨_, hfirst, rfl, (tokenizeFile_append_line hfirst "g").trans ?_,
    (tokenizeFile_append_line hfirst "g $").trans ?_⟩ <;> decide +kernel

end ScriptCompiler
