import Mathlib.Tactic.SplitIfs
import ScriptCompiler.Proofs.JoinedText
import ScriptCompiler.Proofs.Spelling
import ScriptCompiler.Text.Quoted

/-!
# Scanning a text piece by piece

The lexemes of a text are those of its beginning followed by those of the rest, as long as the token
at the seam is not continued by the rest. What continues a token depends on its kind: a word goes on
with word characters, a numeral with digits or a point, a sign with one certain character, and a
string literal never goes on. So a text can be scanned from its end to its start, one token at a
time, and wherever it stands in a source.
-/

namespace ScriptCompiler

/-- A token with its text, wherever it stands. -/
structure Piece where
  token : Token
  text : String
deriving DecidableEq, Repr

def Lexeme.piece (l : Lexeme) : Piece :=
  ⟨l.token, l.text⟩

namespace Piece

/-- A word: a reserved one, a truth value or an identifier. -/
def word (text : String) : Piece :=
  ⟨.ofWord text, text⟩

def symbol (s : Symbol) : Piece :=
  ⟨.symbol s, s.text⟩

def numeral (digits : String) : Piece :=
  ⟨.number digits, digits⟩

def literal (value : String) : Piece :=
  ⟨.string value, Text.quoted value⟩

def eof : Piece :=
  ⟨.eof, ""⟩

end Piece

/-- Wherever the text stands at the end of a source, its lexemes are these pieces. -/
def Scans (text : List Char) (pieces : List Piece) : Prop :=
  ∀ file position bound, text.length ≤ bound →
    ∃ lexemes, Scanner.lexemesWithin bound ⟨file, position, text⟩ = .ok lexemes ∧
      lexemes.map Lexeme.piece = pieces

/-- Neither a word nor a numeral goes on with the rest, and no sign becomes a longer one by its
    first character. -/
def Stops (rest : List Char) : Prop :=
  ∀ c ∈ rest.head?, Token.isWordPart c = false ∧ c ≠ '=' ∧
    (c = '.' → ∀ d ∈ rest.tail.head?, d.isDigit = false)

/-- The character that makes something else of the sign: a longer sign or a comment. -/
def Symbol.continuation? : Symbol → Option Char
  | .eq | .bang | .lt | .gt => some '='
  | .amp => some '&'
  | .pipe => some '|'
  | .colon => some ':'
  | .minus => some '>'
  | .slash => some '/'
  | _ => none

theorem Stops.nil : Stops [] :=
  fun _ hc => absurd hc (Option.not_mem_none _)

/-! ### The token at the start of a text -/

namespace Token

theorem gap_eq_nil {c : Char} {rest : List Char} (hspace : isSpace c = false) (hhash : c ≠ '#')
    (hslash : c = '/' → rest.head? ≠ some '/') : gap false (c :: rest) = [] := by
  have hcomment : ¬ (c = '#' ∨ (c = '/' ∧ rest.head? = some '/')) := by
    rintro (hc | ⟨hc, hrest⟩)
    · exact hhash hc
    · exact hslash hc hrest
  simp [gap, hspace, hcomment]

theorem gap_of_isWordPart {c : Char} (h : isWordPart c) (rest : List Char) :
    gap false (c :: rest) = [] := by
  have hne : ∀ d, isWordPart d = false → c ≠ d := by
    rintro d hd rfl
    rw [h] at hd
    exact Bool.noConfusion hd
  refine gap_eq_nil ?_ (hne '#' (by decide)) fun hc => absurd hc (hne '/' (by decide))
  simp [isSpace, hne ' ' (by decide), hne '\t' (by decide), hne '\r' (by decide),
    hne '\n' (by decide), hne '\x0c' (by decide)]

theorem gap_symbol {s : Symbol} {rest : List Char}
    (h : ∀ c ∈ rest.head?, s.continuation? ≠ some c) : gap false (s.chars ++ rest) = [] := by
  cases s with
  | slash => exact gap_eq_nil (by decide) (by decide) fun _ hrest => h '/' hrest rfl
  | _ => exact gap_eq_nil (by decide) (by decide) fun hc => absurd hc (by decide)

theorem takeWhile_append_of_stop {p : Char → Bool} {text rest : List Char}
    (htext : ∀ c ∈ text, p c) (hrest : ∀ c ∈ rest.head?, p c = false) :
    (text ++ rest).takeWhile p = text := by
  rw [List.takeWhile_append_of_pos htext]
  cases rest with
  | nil => rw [List.takeWhile_nil, List.append_nil]
  | cons c rest =>
    rw [List.takeWhile_cons_of_neg (by simp [hrest c rfl]), List.append_nil]

theorem dropWhile_append_of_stop {p : Char → Bool} {text rest : List Char}
    (htext : ∀ c ∈ text, p c) (hrest : ∀ c ∈ rest.head?, p c = false) :
    (text ++ rest).dropWhile p = rest := by
  rw [List.dropWhile_append_of_pos htext]
  cases rest with
  | nil => exact List.dropWhile_nil
  | cons c rest => exact List.dropWhile_cons_of_neg (by simp [hrest c rfl])

theorem munch_word {word : String} {rest : List Char}
    (hstart : ∃ c ∈ word.toList.head?, isWordStart c) (hword : IsWord word)
    (hrest : ∀ c ∈ rest.head?, isWordPart c = false) :
    munch (word.toList ++ rest) = some (ofWord word, word.toList) := by
  obtain ⟨c, hc, hcstart⟩ := hstart
  have hchars : wordChars (word.toList ++ rest) = word.toList :=
    takeWhile_append_of_stop hword hrest
  obtain ⟨tail, htail⟩ := List.head?_eq_some_iff.mp hc
  rw [htail, List.cons_append] at hchars
  rw [htail, List.cons_append, munch, if_pos hcstart, hchars, ← htail, String.ofList_toList]

theorem ofWord_ne_eof (word : String) : ofWord word ≠ .eof := by
  unfold ofWord
  split
  · exact Token.noConfusion
  · split_ifs <;> exact Token.noConfusion

theorem symbolAt?_chars (s : Symbol) {rest : List Char}
    (h : ∀ c ∈ rest.head?, s.continuation? ≠ some c) :
    symbolAt? (s.chars ++ rest) = some s := by
  cases rest with
  | nil => cases s <;> rfl
  | cons c rest =>
    have hstop : ∀ d, s.continuation? = some d → [d].isPrefixOf (c :: rest) = false := by
      intro d hd
      have hne : d ≠ c := fun heq => h c rfl (heq ▸ hd)
      simp [List.isPrefixOf, hne]
    cases s <;> simp [symbolAt?, Symbol.all, Symbol.chars] <;> exact hstop _ rfl

theorem munch_symbol (s : Symbol) {rest : List Char}
    (h : ∀ c ∈ rest.head?, s.continuation? ≠ some c) :
    munch (s.chars ++ rest) = some (.symbol s, s.chars) := by
  have hsymbol := symbolAt?_chars s h
  obtain ⟨c, tail, hchars, hword, hdigit, hquote⟩ : ∃ c tail, s.chars = c :: tail ∧
      isWordStart c = false ∧ c.isDigit = false ∧ c ≠ '"' := by
    cases s <;> exact ⟨_, _, rfl, by decide, by decide, by decide⟩
  rw [hchars, List.cons_append] at hsymbol ⊢
  rw [munch, if_neg (by simp [hword]), if_neg (by simp [hdigit]), if_neg hquote, hsymbol,
    Option.map_some, hchars]

theorem isWordStart_of_isDigit {c : Char} (h : c.isDigit) : isWordStart c = false := by
  have hne : c ≠ '_' := by
    rintro rfl
    exact absurd h (by decide)
  have halpha : c.isAlpha = false := by
    change (decide (c.val ≥ 65 ∧ c.val ≤ 90) ||
      (decide (c.val ≥ 97) && decide (c.val ≤ 122))) = false
    simp [Char.isDigit, UInt32.le_iff_toNat_le] at h ⊢
    omega
  simp [isWordStart, halpha, hne]

theorem isDigitPart_of_isDigit {c : Char} (h : c.isDigit) : isDigitPart c := by
  simp [isDigitPart, h]

theorem isDigitPart_of_not_isWordPart {c : Char} (h : isWordPart c = false) :
    isDigitPart c = false := by
  simp only [isWordPart, Char.isAlphanum, Bool.or_eq_false_iff] at h
  simp [isDigitPart, h.1.2, h.2]

theorem numeralChars_append {digits : String} (h : IsNumeral digits) {rest : List Char}
    (hrest : Stops rest) : numeralChars (digits.toList ++ rest) = digits.toList := by
  have hstop : ∀ c ∈ rest.head?, isDigitPart c = false :=
    fun c hc => isDigitPart_of_not_isWordPart (hrest c hc).1
  cases h with
  | whole _ hdigits =>
    have hparts : ∀ c ∈ digits.toList, isDigitPart c :=
      fun c hc => isDigitPart_of_isDigit (hdigits c hc)
    unfold numeralChars
    rw [takeWhile_append_of_stop hparts hstop, dropWhile_append_of_stop hparts hstop]
    dsimp only
    split
    · rename_i d tail
      have hd := (hrest '.' rfl).2.2 rfl d rfl
      rw [if_neg (by simp [hd])]
    · rfl
  | @fraction whole part hchars _ hpart hdigits =>
    obtain ⟨d, tail, rfl⟩ := List.exists_cons_of_ne_nil hpart
    have hwhole : ∀ c ∈ whole, isDigitPart c :=
      fun c hc => isDigitPart_of_isDigit (hdigits c (List.mem_append_left _ hc))
    have htail : ∀ c ∈ tail, isDigitPart c := fun c hc =>
      isDigitPart_of_isDigit (hdigits c (List.mem_append_right _ (List.mem_cons_of_mem _ hc)))
    have hpoint : ∀ c ∈ ('.' :: (d :: tail ++ rest)).head?, isDigitPart c = false := by
      rintro c hc
      obtain rfl := Option.some.inj hc
      decide
    unfold numeralChars
    rw [hchars, List.append_assoc, List.cons_append, takeWhile_append_of_stop hwhole hpoint,
      dropWhile_append_of_stop hwhole hpoint]
    show (if d.isDigit then whole ++ '.' :: d :: (tail ++ rest).takeWhile isDigitPart else whole) =
      whole ++ '.' :: d :: tail
    rw [if_pos (hdigits d (by simp)), takeWhile_append_of_stop htail hstop]

theorem filter_numeral {digits : String} (h : IsNumeral digits) :
    digits.toList.filter (· != '_') = digits.toList := by
  refine List.filter_eq_self.mpr fun c hc => bne_iff_ne.mpr ?_
  rintro rfl
  cases h with
  | whole _ hdigits => exact absurd (hdigits '_' hc) (by decide)
  | fraction hchars _ _ hdigits =>
    rw [hchars, List.mem_append, List.mem_cons] at hc
    rcases hc with hc | hc | hc
    · exact absurd (hdigits '_' (List.mem_append_left _ hc)) (by decide)
    · cases hc
    · exact absurd (hdigits '_' (List.mem_append_right _ hc)) (by decide)

theorem exists_cons_of_isNumeral {digits : String} (h : IsNumeral digits) :
    ∃ c tail, digits.toList = c :: tail ∧ c.isDigit := by
  cases h with
  | whole hne hdigits =>
    obtain ⟨c, tail, htail⟩ := List.exists_cons_of_ne_nil hne
    exact ⟨c, tail, htail, hdigits c (htail ▸ List.mem_cons_self)⟩
  | fraction hchars hwhole _ hdigits =>
    obtain ⟨c, tail, rfl⟩ := List.exists_cons_of_ne_nil hwhole
    exact ⟨c, _, hchars, hdigits c List.mem_cons_self⟩

theorem munch_numeral {digits : String} (h : IsNumeral digits) {rest : List Char}
    (hrest : Stops rest) :
    munch (digits.toList ++ rest) = some (.number digits, digits.toList) := by
  have hchars := numeralChars_append h hrest
  obtain ⟨c, tail, htail, hc⟩ := exists_cons_of_isNumeral h
  rw [htail, List.cons_append] at hchars
  rw [htail, List.cons_append, munch, if_neg (by simp [isWordStart_of_isDigit hc]), if_pos hc,
    hchars, ← htail, filter_numeral h, String.ofList_toList]

/-! ### String literals -/

/-- The character is not written as its code point. -/
def WrittenPlainly (c : Char) : Prop :=
  ¬ ['\\', 'u', '{'] <+: Text.quotedChar c

/-- A character that stands for itself, or a backslash and the letter that stands for it. -/
theorem quotedChar_cases {c : Char} (h : WrittenPlainly c) :
    (Text.quotedChar c = [c] ∧ c ≠ '"' ∧ c ≠ '\\') ∨
      ∃ d, Text.quotedChar c = ['\\', d] ∧ d ≠ '\n' ∧ escapeValue? d = some c := by
  have hcoded : ¬ ['\\', 'u', '{'] <+: Text.quotedChar c := h
  unfold Text.quotedChar at hcoded ⊢
  split_ifs at hcoded ⊢ with hnul htab hreturn hfeed hquote hslash hprintable
  · exact .inr ⟨'0', rfl, by decide, hnul ▸ rfl⟩
  · exact .inr ⟨'t', rfl, by decide, htab ▸ rfl⟩
  · exact .inr ⟨'r', rfl, by decide, hreturn ▸ rfl⟩
  · exact .inr ⟨'n', rfl, by decide, hfeed ▸ rfl⟩
  · exact .inr ⟨'"', rfl, by decide, by rw [hquote]; rfl⟩
  · exact .inr ⟨'\\', rfl, by decide, by rw [hslash]; rfl⟩
  · exact .inl ⟨rfl, hquote, hslash⟩
  · rw [List.append_assoc] at hcoded
    exact absurd (List.prefix_append _ _) hcoded

theorem literalBody_quotedChar {c : Char} (h : WrittenPlainly c) (rest : List Char) :
    literalBody (Text.quotedChar c ++ rest) =
      (literalBody rest).map fun body => Text.quotedChar c ++ body := by
  rcases quotedChar_cases h with ⟨hquoted, hquote, hslash⟩ | ⟨d, hquoted, hd, _⟩
  · rw [hquoted, List.singleton_append, literalBody.eq_def]
    dsimp only
    rw [if_neg hquote, if_neg hslash]
    rfl
  · rw [hquoted, List.cons_append, List.singleton_append, literalBody, if_neg (by decide),
      if_pos rfl, if_neg hd]
    rfl

theorem unescape_cons {c : Char} (h : c ≠ '\\') (rest : List Char) :
    unescape (c :: rest) = c :: unescape rest := by
  rw [unescape.eq_def]
  dsimp only
  rw [if_neg h]

theorem unescape_letter {d value : Char} (h : escapeValue? d = some value) (rest : List Char) :
    unescape ('\\' :: d :: rest) = value :: unescape rest := by
  rw [unescape, if_pos rfl, h]

theorem unescape_quotedChar {c : Char} (h : WrittenPlainly c) (rest : List Char) :
    unescape (Text.quotedChar c ++ rest) = c :: unescape rest := by
  rcases quotedChar_cases h with ⟨hquoted, _, hslash⟩ | ⟨d, hquoted, _, hvalue⟩
  · rw [hquoted, List.singleton_append, unescape_cons hslash]
  · rw [hquoted, List.cons_append, List.singleton_append, unescape_letter hvalue]

theorem literalBody_flatMap {value : List Char} (h : ∀ c ∈ value, WrittenPlainly c)
    (rest : List Char) :
    literalBody (value.flatMap Text.quotedChar ++ '"' :: rest) =
      some (value.flatMap Text.quotedChar) := by
  induction value with
  | nil =>
    rw [List.flatMap_nil, List.nil_append, literalBody.eq_def]
    rfl
  | cons c value ih =>
    obtain ⟨hc, hvalue⟩ := List.forall_mem_cons.mp h
    rw [List.flatMap_cons, List.append_assoc, literalBody_quotedChar hc, ih hvalue]
    rfl

theorem unescape_flatMap {value : List Char} (h : ∀ c ∈ value, WrittenPlainly c) :
    unescape (value.flatMap Text.quotedChar) = value := by
  induction value with
  | nil => rfl
  | cons c value ih =>
    obtain ⟨hc, hvalue⟩ := List.forall_mem_cons.mp h
    rw [List.flatMap_cons, unescape_quotedChar hc, ih hvalue]

theorem munch_quoted {value : String} (h : ∀ c ∈ value.toList, WrittenPlainly c)
    (rest : List Char) :
    munch ((Text.quoted value).toList ++ rest) =
      some (.string value, (Text.quoted value).toList) := by
  have hquoted : (Text.quoted value).toList =
      '"' :: (value.toList.flatMap Text.quotedChar ++ ['"']) := by
    rw [Text.quoted, String.toList_ofList, List.cons_append]
  rw [hquoted, List.cons_append, List.append_assoc, List.singleton_append, munch,
    if_neg (by decide), if_neg (by decide), if_pos rfl, literalBody_flatMap h, Option.map_some,
    unescape_flatMap h, String.ofList_toList, List.cons_append]

end Token

/-! ### The lexemes of a text -/

namespace Scans

variable {rest : List Char} {pieces : List Piece}

theorem nil : Scans [] [.eof] := by
  intro file position bound _
  cases bound with
  | zero => exact ⟨_, rfl, rfl⟩
  | succ bound => exact ⟨_, rfl, rfl⟩

/-- White space before a token belongs to no lexeme. -/
theorem space (h : Scans rest pieces) : Scans (' ' :: rest) pieces := by
  intro file position bound hbound
  obtain ⟨bound, rfl⟩ := Nat.exists_eq_add_one_of_ne_zero (Nat.ne_zero_of_lt hbound)
  have hnext : Scanner.lexemesWithin (bound + 1) ⟨file, position, ' ' :: rest⟩ =
      Scanner.lexemesWithin (bound + 1) ⟨file, position.advance ' ', rest⟩ := rfl
  rw [hnext]
  exact h file (position.advance ' ') (bound + 1) (Nat.le_of_succ_le hbound)

/-- A token at the start of a text, which the rest does not go on with. -/
theorem cons {text : List Char} {token : Token}
    (hmunch : Token.munch (text ++ rest) = some (token, text))
    (hgap : Token.gap false (text ++ rest) = []) (hne : text ≠ []) (htoken : token ≠ .eof)
    (h : Scans rest pieces) : Scans (text ++ rest) (⟨token, String.ofList text⟩ :: pieces) := by
  intro file position bound hbound
  obtain ⟨c, tail, rfl⟩ := List.exists_cons_of_ne_nil hne
  rw [List.length_append, List.length_cons] at hbound
  obtain ⟨bound, rfl⟩ := Nat.exists_eq_add_one_of_ne_zero (by omega : bound ≠ 0)
  obtain ⟨lexemes, hlexemes, hpieces⟩ := h file (position.after (c :: tail)) bound (by omega)
  let s : Scanner := ⟨file, position, c :: tail ++ rest⟩
  have hskip : s.skipGap = s := by
    rw [Scanner.skipGap, hgap]
    rfl
  have hmove : s.move (c :: tail) = ⟨file, position.after (c :: tail), rest⟩ :=
    congrArg (Scanner.mk file (position.after (c :: tail))) List.drop_left
  have hnext : s.next = .ok (s.lexeme token (c :: tail), s.move (c :: tail)) := by
    rw [Scanner.next, hskip, Scanner.read, hmunch]
    rfl
  refine ⟨s.lexeme token (c :: tail) :: lexemes, ?_, congrArg (List.cons _) hpieces⟩
  rw [Scanner.lexemesWithin, hnext, hmove]
  have hlast : ¬ (s.lexeme token (c :: tail)).token = .eof := htoken
  dsimp only
  rw [if_neg hlast, hlexemes]
  rfl

theorem word {text : String} (hstart : ∃ c ∈ text.toList.head?, Token.isWordStart c)
    (hword : IsWord text) (hrest : ∀ c ∈ rest.head?, Token.isWordPart c = false)
    (h : Scans rest pieces) : Scans (text.toList ++ rest) (.word text :: pieces) := by
  have hmunch := Token.munch_word hstart hword hrest
  obtain ⟨c, hc, hcstart⟩ := hstart
  obtain ⟨tail, htail⟩ := List.head?_eq_some_iff.mp hc
  have hgap : Token.gap false (text.toList ++ rest) = [] := by
    rw [htail]
    exact Token.gap_of_isWordPart (Token.isWordPart_of_isWordStart hcstart) _
  have hscans := h.cons hmunch hgap (htail ▸ List.cons_ne_nil c tail) (Token.ofWord_ne_eof text)
  rwa [String.ofList_toList] at hscans

theorem numeral {digits : String} (hdigits : IsNumeral digits) (hrest : Stops rest)
    (h : Scans rest pieces) : Scans (digits.toList ++ rest) (.numeral digits :: pieces) := by
  obtain ⟨c, tail, htail, hc⟩ := Token.exists_cons_of_isNumeral hdigits
  have hgap : Token.gap false (digits.toList ++ rest) = [] := by
    rw [htail]
    exact Token.gap_of_isWordPart (by simp [Token.isWordPart, Char.isAlphanum, hc]) _
  have hscans := h.cons (Token.munch_numeral hdigits hrest) hgap
    (htail ▸ List.cons_ne_nil c tail) Token.noConfusion
  rwa [String.ofList_toList] at hscans

theorem literal {value : String} (hvalue : ∀ c ∈ value.toList, Token.WrittenPlainly c)
    (h : Scans rest pieces) :
    Scans ((Text.quoted value).toList ++ rest) (.literal value :: pieces) := by
  have htail : (Text.quoted value).toList =
      '"' :: (value.toList.flatMap Text.quotedChar ++ ['"']) := by
    rw [Text.quoted, String.toList_ofList, List.cons_append]
  have hgap : Token.gap false ((Text.quoted value).toList ++ rest) = [] := by
    rw [htail]
    exact Token.gap_eq_nil (by decide) (by decide) fun hc => absurd hc (by decide)
  have hscans := h.cons (Token.munch_quoted hvalue rest) hgap
    (htail ▸ List.cons_ne_nil _ _) Token.noConfusion
  rwa [String.ofList_toList] at hscans

theorem symbol (s : Symbol) (hrest : ∀ c ∈ rest.head?, s.continuation? ≠ some c)
    (h : Scans rest pieces) : Scans (s.chars ++ rest) (.symbol s :: pieces) := by
  have hne : s.chars ≠ [] := by cases s <;> exact List.cons_ne_nil _ _
  exact h.cons (Token.munch_symbol s hrest) (Token.gap_symbol hrest) hne Token.noConfusion

theorem symbol_space (s : Symbol) (h : Scans rest pieces) :
    Scans (s.chars ++ ' ' :: rest) (.symbol s :: pieces) := by
  refine h.space.symbol s fun c hc => ?_
  obtain rfl := Option.some.inj hc
  cases s <;> decide

theorem mark (s : Symbol) (hs : s.continuation? = none) (h : Scans rest pieces) :
    Scans (s.chars ++ rest) (.symbol s :: pieces) :=
  h.symbol s fun c _ => hs ▸ (Option.some_ne_none c).symm

end Scans

theorem tokenize_of_scans {text : String} {pieces : List Piece} (h : Scans text.toList pieces) :
    ∃ lexemes, tokenize text = .ok lexemes ∧ lexemes.map Lexeme.piece = pieces :=
  h 0 Position.start text.toList.length (Nat.le_refl _)

end ScriptCompiler
