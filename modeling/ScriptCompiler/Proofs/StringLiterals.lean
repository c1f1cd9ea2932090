import ScriptCompiler.Proofs.LongestMatch
import ScriptCompiler.Proofs.ScriptReader

/-!
# String literals of the script

A string literal of the script stands on one line, its quotes cannot be taken for other ones, and
its value can be read back. There are two readers. The one of the script knows letters for the
backslash, the quote and three control characters, and codes of four digits for the others. The
scanner of the language knows more letters and no codes, so it reads a value back just if no code
was written.
-/

namespace ScriptCompiler.Script

/-! ### Reading a literal -/

/-- The value of a hexadecimal digit in upper or lower case. -/
def hexDigit? (c : Char) : Option Nat :=
  "0123456789abcdef".toList.idxOf? c.toLower

/-- The character with the given code. Surrogates are no characters. -/
def charOfCode? (code : Nat) : Option Char :=
  if code < 0xd800 ∨ 0xdfff < code ∧ code < 0x110000 then some (Char.ofNat code) else none

/-- The character whose code has the given hexadecimal digits, highest first. -/
def codedChar? (digits : List Char) : Option Char :=
  (digits.mapM hexDigit?).bind fun values => charOfCode? (values.foldl (16 * · + ·) 0)

/-- The letters of escapes, each with the character that it stands for. -/
def escapeLetters : List (Char × Char) :=
  [('\\', '\\'), ('"', '"'), ('n', '\n'), ('r', '\r'), ('t', '\t')]

/-- The value of a string literal behind its opening quote. The text ends with the closing quote,
    and a line does not end inside the literal. -/
def literalChars? : List Char → Option (List Char)
  | [] => none
  | c :: rest =>
    if c = '"' then if rest = [] then some [] else none
    else if c = '\\' then
      match rest with
      | 'u' :: a :: b :: high :: low :: rest =>
        (codedChar? [a, b, high, low]).bind fun value => (literalChars? rest).map (value :: ·)
      | letter :: rest =>
        (escapeLetters.lookup letter).bind fun value => (literalChars? rest).map (value :: ·)
      | [] => none
    else if c = '\n' ∨ c = '\r' then none
    else (literalChars? rest).map (c :: ·)

def literalValue? (text : String) : Option String :=
  match text.toList with
  | [] => none
  | c :: rest => if c = '"' then (literalChars? rest).map String.ofList else none

/-! ### Escaped characters -/

/-- A character behind the text is escaped: an odd number of backslashes stands directly before
    it. -/
def EscapesNext (text : List Char) : Prop :=
  (text.reverse.takeWhile (· = '\\')).length % 2 = 1

instance (text : List Char) : Decidable (EscapesNext text) :=
  inferInstanceAs (Decidable (_ = _))

theorem not_escapesNext_nil : ¬ EscapesNext [] := by
  decide

theorem escapesNext_concat {text : List Char} {c : Char} :
    EscapesNext (text ++ [c]) ↔ c = '\\' ∧ ¬ EscapesNext text := by
  unfold EscapesNext
  rw [List.reverse_append, List.reverse_singleton, List.singleton_append, List.takeWhile_cons]
  by_cases hc : c = '\\'
  · simp [hc]
    omega
  · simp [hc]

/-! ### The ways to write a character -/

/-- The character may stand for itself in a literal. -/
structure IsPlain (c : Char) : Prop where
  printed : 0x20 ≤ c.toNat
  notQuote : c ≠ '"'
  notSlash : c ≠ '\\'

/-- The control characters that have a letter. -/
def letteredControls : List Char :=
  ['\t', '\n', '\r']

/-- The text is a way to write the character in a literal: itself, a backslash with the letter that
    stands for it, or its code. -/
inductive Written (c : Char) : List Char → Prop where
  | plain (h : IsPlain c) : Written c [c]
  | letter {letter : Char} (h : (letter, c) ∈ escapeLetters) : Written c ['\\', letter]
  | coded {high low : Char} (hcontrol : c.toNat < 0x20) (hrare : c ∉ letteredControls)
      (hhigh : IsPlain high) (hlow : IsPlain low)
      (hvalue : codedChar? ['0', '0', high, low] = some c) :
      Written c ['\\', 'u', '0', '0', high, low]

/-- The first two digits of the code of a control character are zeros. -/
theorem unicodeEscape_control {c : Char} (h : c.toNat < 0x20) :
    ∃ high low, Text.Json.unicodeEscape c = ['\\', 'u', '0', '0', high, low] ∧
      IsPlain high ∧ IsPlain low ∧ codedChar? ['0', '0', high, low] = some c := by
  have hdigits : ∀ k < 0x20, Text.Json.unicodeEscape (Char.ofNat k) =
      ['\\', 'u', '0', '0', Nat.digitChar (k / 16), Nat.digitChar (k % 16)] ∧
        codedChar? ['0', '0', Nat.digitChar (k / 16), Nat.digitChar (k % 16)] =
          some (Char.ofNat k) := by
    decide +kernel
  have hplain : ∀ d < 16, 0x20 ≤ (Nat.digitChar d).toNat ∧ Nat.digitChar d ≠ '"' ∧
      Nat.digitChar d ≠ '\\' := by
    decide
  have isPlain {d : Nat} (hd : d < 16) : IsPlain (Nat.digitChar d) :=
    ⟨(hplain d hd).1, (hplain d hd).2.1, (hplain d hd).2.2⟩
  obtain ⟨hescape, hvalue⟩ := hdigits c.toNat h
  rw [Char.ofNat_toNat] at hescape hvalue
  exact ⟨_, _, hescape, isPlain (by omega), isPlain (by omega), hvalue⟩

theorem written_quoteChar (c : Char) : Written c (quoteChar c) := by
  unfold quoteChar
  split_ifs with hslash hquote hline hreturn htab hcontrol
  · exact .letter (by simp [escapeLetters, hslash])
  · exact .letter (by simp [escapeLetters, hquote])
  · exact .letter (by simp [escapeLetters, hline])
  · exact .letter (by simp [escapeLetters, hreturn])
  · exact .letter (by simp [escapeLetters, htab])
  · obtain ⟨high, low, hescape, hhigh, hlow, hvalue⟩ := unicodeEscape_control hcontrol
    rw [hescape]
    exact .coded hcontrol (by simp [letteredControls, htab, hline, hreturn]) hhigh hlow hvalue
  · exact .plain ⟨Nat.le_of_not_lt hcontrol, hquote, hslash⟩

/-- Both readers take the letter for the character, and neither for something else. -/
structure IsLetterOf (letter c : Char) : Prop where
  printed : 0x20 ≤ letter.toNat
  notFeed : letter ≠ '\n'
  notCode : letter ≠ 'u'
  value : escapeLetters.lookup letter = some c
  scanned : Token.escapeValue? letter = some c
  control : c.toNat < 0x20 → c ∈ letteredControls

theorem isLetterOf_of_mem {letter c : Char} (h : (letter, c) ∈ escapeLetters) :
    IsLetterOf letter c := by
  simp only [escapeLetters, List.mem_cons, List.not_mem_nil, Prod.mk.injEq, or_false] at h
  rcases h with ⟨rfl, rfl⟩ | ⟨rfl, rfl⟩ | ⟨rfl, rfl⟩ | ⟨rfl, rfl⟩ | ⟨rfl, rfl⟩ <;>
    constructor <;> decide

/-! ### The text of a literal -/

namespace Written

variable {c : Char} {text : List Char}

/-- No control character is written as it is. -/
theorem printed (h : Written c text) : ∀ d ∈ text, 0x20 ≤ d.toNat := by
  cases h with
  | plain h => simpa using h.printed
  | letter h => simpa using (isLetterOf_of_mem h).printed
  | coded _ _ hhigh hlow => simpa using ⟨hhigh.printed, hlow.printed⟩

/-- Escapes are complete: behind a character nothing is escaped if nothing was before it. -/
theorem not_escapesNext_append (h : Written c text) {before : List Char}
    (hbefore : ¬ EscapesNext before) : ¬ EscapesNext (before ++ text) := by
  cases h with
  | plain h => exact fun hnext => h.notSlash (escapesNext_concat.mp hnext).1
  | @letter letter _ =>
    have hslash : EscapesNext (before ++ ['\\']) := escapesNext_concat.mpr ⟨rfl, hbefore⟩
    rw [List.append_cons]
    exact fun hnext => (escapesNext_concat.mp hnext).2 hslash
  | @coded high low _ _ _ hlow =>
    have hends : before ++ ['\\', 'u', '0', '0', high, low] =
        before ++ ['\\', 'u', '0', '0', high] ++ [low] := by
      simp
    rw [hends]
    exact fun hnext => hlow.notSlash (escapesNext_concat.mp hnext).1

/-- A quote is written behind a backslash that escapes it. -/
theorem escapesNext_of_quote (h : Written c text) {before inner after : List Char}
    (hbefore : ¬ EscapesNext before) (htext : text = inner ++ '"' :: after) :
    EscapesNext (before ++ inner) := by
  have hmem : '"' ∈ text := htext ▸ List.mem_append_right _ List.mem_cons_self
  cases h with
  | plain h => exact absurd (List.mem_singleton.mp hmem).symm h.notQuote
  | letter _ =>
    cases inner with
    | nil => cases htext
    | cons d inner =>
      obtain ⟨rfl, hrest⟩ := List.cons.inj htext
      have hlength : 1 = inner.length + (after.length + 1) := by
        simpa using congrArg List.length hrest
      obtain rfl : inner = [] := List.eq_nil_of_length_eq_zero (by omega)
      exact escapesNext_concat.mpr ⟨rfl, hbefore⟩
  | coded _ _ hhigh hlow => simp [hhigh.notQuote.symm, hlow.notQuote.symm] at hmem

theorem literalChars?_append (h : Written c text) (rest : List Char) :
    literalChars? (text ++ rest) = (literalChars? rest).map (c :: ·) := by
  cases h with
  | plain h =>
    have hline : ¬ (c = '\n' ∨ c = '\r') := by
      rintro (rfl | rfl) <;> exact absurd h.printed (by decide)
    rw [List.singleton_append, literalChars?.eq_def]
    dsimp only
    rw [if_neg h.notQuote, if_neg h.notSlash, if_neg hline]
  | @letter letter h =>
    have hletter := isLetterOf_of_mem h
    simp [literalChars?, hletter.notCode, hletter.value]
  | coded _ _ _ _ hvalue => simp [literalChars?, hvalue]

theorem append_mem_literalBodies (h : Written c text) {rest : List Char}
    (hrest : rest ∈ Token.literalBodies) : text ++ rest ∈ Token.literalBodies := by
  cases h with
  | plain h => exact Token.literalBodies_plain h.notQuote h.notSlash hrest
  | letter h => exact Token.literalBodies_escape (isLetterOf_of_mem h).notFeed hrest
  | coded _ _ hhigh hlow =>
    refine Token.literalBodies_escape (by decide) ?_
    refine Token.literalBodies_plain (by decide) (by decide) ?_
    refine Token.literalBodies_plain (by decide) (by decide) ?_
    refine Token.literalBodies_plain hhigh.notQuote hhigh.notSlash ?_
    exact Token.literalBodies_plain hlow.notQuote hlow.notSlash hrest

end Written

/-- A literal stands on one line. -/
theorem printed_of_mem_quote {value : String} {c : Char} (h : c ∈ (quote value).toList) :
    0x20 ≤ c.toNat := by
  rw [toList_quote, List.mem_cons, List.mem_append, List.mem_flatMap, List.mem_singleton] at h
  rcases h with rfl | ⟨d, _, hc⟩ | rfl
  · decide
  · exact (written_quoteChar d).printed c hc
  · decide

theorem not_escapesNext_append_flatMap (chars : List Char) {before : List Char}
    (h : ¬ EscapesNext before) : ¬ EscapesNext (before ++ chars.flatMap quoteChar) := by
  induction chars generalizing before with
  | nil => rwa [List.flatMap_nil, List.append_nil]
  | cons c chars ih =>
    rw [List.flatMap_cons, ← List.append_assoc]
    exact ih ((written_quoteChar c).not_escapesNext_append h)

/-- Every quote among the characters of a literal is escaped. -/
theorem escapesNext_of_flatMap_quoteChar {chars before inner after : List Char}
    (hbefore : ¬ EscapesNext before) (h : chars.flatMap quoteChar = inner ++ '"' :: after) :
    EscapesNext (before ++ inner) := by
  induction chars generalizing before inner with
  | nil => simp at h
  | cons c chars ih =>
    have hnext := (written_quoteChar c).not_escapesNext_append hbefore
    rw [List.flatMap_cons, List.append_eq_append_iff] at h
    -- The quote belongs to a later character or to this one.
    rcases h with ⟨more, rfl, hmore⟩ | ⟨more, hmore, hrest⟩
    · rw [← List.append_assoc]
      exact ih hnext hmore
    · cases more with
      | nil =>
        have hinner : EscapesNext (before ++ quoteChar c ++ []) := ih hnext hrest.symm
        rw [List.append_nil] at hinner hmore
        rwa [hmore] at hinner
      | cons d more =>
        obtain ⟨rfl, _⟩ := List.cons.inj hrest
        exact (written_quoteChar c).escapesNext_of_quote hbefore hmore

/-- The first and the last character of a literal are its only quotes that are not escaped. -/
theorem not_escapesNext_iff_of_quote {value : String} {before after : List Char}
    (h : (quote value).toList = before ++ '"' :: after) :
    ¬ EscapesNext before ↔ before = [] ∨ after = [] := by
  have hopening : ¬ EscapesNext ['"'] := by decide
  rw [toList_quote] at h
  cases before with
  | nil => exact iff_of_true not_escapesNext_nil (.inl rfl)
  | cons opening inner =>
    rw [List.cons_append] at h
    obtain ⟨rfl, hrest⟩ := List.cons.inj h
    rcases List.eq_nil_or_concat' after with rfl | ⟨after, closing, rfl⟩
    · obtain ⟨rfl, _⟩ := List.append_inj' hrest rfl
      exact iff_of_true (not_escapesNext_append_flatMap _ hopening) (.inr rfl)
    · -- Without the closing quote on both sides, the other quote stands among the characters.
      rw [← List.cons_append, ← List.append_assoc] at hrest
      obtain ⟨hinner, _⟩ := List.append_inj' hrest rfl
      have hescaped := escapesNext_of_flatMap_quoteChar hopening hinner
      exact iff_of_false (fun hfree => hfree hescaped) (by simp)

theorem literalChars?_flatMap_quoteChar (chars : List Char) :
    literalChars? (chars.flatMap quoteChar ++ ['"']) = some chars := by
  induction chars with
  | nil => rfl
  | cons c chars ih =>
    rw [List.flatMap_cons, List.append_assoc, (written_quoteChar c).literalChars?_append, ih]
    rfl

/-- A literal is read as its value. -/
theorem literalValue?_quote (value : String) : literalValue? (quote value) = some value := by
  rw [literalValue?, toList_quote]
  dsimp only
  rw [if_pos rfl, literalChars?_flatMap_quoteChar, Option.map_some, String.ofList_toList]

/-! ### Scanning a literal -/

/-- What the scanner makes of a character of a literal. It does not know codes. -/
def rescanned (c : Char) : List Char :=
  if c.toNat < 0x20 ∧ c ∉ letteredControls then quoteChar c else [c]

theorem rescanned_eq_singleton_iff (c : Char) :
    rescanned c = [c] ↔ (c.toNat < 0x20 → c ∈ letteredControls) := by
  have hwritten := written_quoteChar c
  unfold rescanned
  split
  · rename_i hrare
    refine iff_of_false (fun hquote => ?_) fun hletter => hrare.2 (hletter hrare.1)
    rw [hquote] at hwritten
    exact absurd (hwritten.printed c List.mem_cons_self) (Nat.not_le.mpr hrare.1)
  · rename_i hcommon
    exact iff_of_true rfl fun hcontrol => by_contra fun hrare => hcommon ⟨hcontrol, hrare⟩

theorem unescape_quoteChar (c : Char) (rest : List Char) :
    Token.unescape (quoteChar c ++ rest) = rescanned c ++ Token.unescape rest := by
  have hwritten := written_quoteChar c
  unfold rescanned
  generalize quoteChar c = text at hwritten ⊢
  cases hwritten with
  | plain h =>
    rw [if_neg fun hrare => absurd h.printed (Nat.not_le.mpr hrare.1)]
    exact Token.unescape_cons h.notSlash rest
  | letter h =>
    have hletter := isLetterOf_of_mem h
    rw [if_neg fun hrare => hrare.2 (hletter.control hrare.1)]
    exact Token.unescape_letter hletter.scanned rest
  | coded hcontrol hrare hhigh hlow =>
    have hcode : Token.escapeValue? 'u' = none := by decide
    rw [if_pos ⟨hcontrol, hrare⟩, List.cons_append, List.cons_append, Token.unescape, if_pos rfl,
      hcode]
    -- The backslash and its letter stay, and the digits stand for themselves.
    simp [Token.unescape_cons, hhigh.notSlash, hlow.notSlash]

theorem unescape_flatMap_quoteChar (chars : List Char) :
    Token.unescape (chars.flatMap quoteChar) = chars.flatMap rescanned := by
  induction chars with
  | nil => rfl
  | cons c chars ih => rw [List.flatMap_cons, unescape_quoteChar, ih, List.flatMap_cons]

theorem flatMap_quoteChar_mem (chars : List Char) :
    chars.flatMap quoteChar ∈ Token.literalBodies := by
  induction chars with
  | nil => exact Token.literalBodies_nil
  | cons c chars ih => exact (written_quoteChar c).append_mem_literalBodies ih

/-- A character that is not read back is read as a backslash first, which it is not. -/
theorem rescanned_cases (c : Char) :
    rescanned c = [c] ∨ c ≠ '\\' ∧ ∃ rest, rescanned c = '\\' :: rest := by
  have hwritten := written_quoteChar c
  unfold rescanned
  split
  · rename_i hrare
    have hslash : c ≠ '\\' := by
      rintro rfl
      exact absurd hrare.1 (by decide)
    generalize quoteChar c = text at hwritten ⊢
    cases hwritten with
    | plain h => exact .inl rfl
    | letter _ => exact .inr ⟨hslash, _, rfl⟩
    | coded => exact .inr ⟨hslash, _, rfl⟩
  · exact .inl rfl

/-- The characters are read back just if each of them is. -/
theorem flatMap_rescanned_eq_iff (chars : List Char) :
    chars.flatMap rescanned = chars ↔ ∀ c ∈ chars, rescanned c = [c] := by
  induction chars with
  | nil => simp
  | cons c chars ih =>
    rw [List.flatMap_cons, List.forall_mem_cons]
    rcases rescanned_cases c with hc | ⟨hslash, rest, hc⟩
    · rw [hc, List.singleton_append, List.cons_inj_right, ih]
      exact (and_iff_right rfl).symm
    · rw [hc, List.cons_append]
      refine iff_of_false (fun heq => ?_) fun heq => ?_
      · exact hslash (List.cons.inj heq).1.symm
      · exact hslash (List.cons.inj heq.1).1.symm

/-- A literal of the script is one token, whatever follows it. -/
theorem munch_quote (value : String) (rest : List Char) :
    Token.munch ((quote value).toList ++ rest) =
      some (.string (String.ofList (value.toList.flatMap rescanned)), (quote value).toList) := by
  have hbody : Token.literalBody (value.toList.flatMap quoteChar ++ '"' :: rest) =
      some (value.toList.flatMap quoteChar) :=
    Token.literalBody_complete (flatMap_quoteChar_mem value.toList)
  rw [toList_quote, List.cons_append, List.append_assoc, List.singleton_append, Token.munch,
    if_neg (by decide), if_neg (by decide), if_pos rfl, hbody, Option.map_some,
    unescape_flatMap_quoteChar, List.cons_append]

/-- A literal is scanned as one token and the end. -/
theorem tokenize_quote (value : String) :
    ∃ lexemes, tokenize (quote value) = .ok lexemes ∧ lexemes.map Lexeme.piece =
      [⟨.string (String.ofList (value.toList.flatMap rescanned)), quote value⟩, .eof] := by
  have hmunch := munch_quote value []
  have hgap : Token.gap false ((quote value).toList ++ []) = [] := by
    rw [toList_quote]
    exact Token.gap_eq_nil (by decide) (by decide) fun hc => absurd hc (by decide)
  have hne : (quote value).toList ≠ [] := by
    rw [toList_quote]
    exact List.cons_ne_nil _ _
  have hscans := Scans.nil.cons hmunch hgap hne Token.noConfusion
  rw [List.append_nil, String.ofList_toList] at hscans
  exact tokenize_of_scans hscans

/-- The value is scanned back just if its control characters have letters. -/
theorem tokenize_quote_iff (value : String) :
    (∃ lexemes, tokenize (quote value) = .ok lexemes ∧
        lexemes.map Lexeme.piece = [⟨.string value, quote value⟩, .eof]) ↔
      ∀ c ∈ value.toList, c.toNat < 0x20 → c ∈ letteredControls := by
  obtain ⟨lexemes, hlexemes, hpieces⟩ := tokenize_quote value
  have hletters : value.toList.flatMap rescanned = value.toList ↔
      ∀ c ∈ value.toList, c.toNat < 0x20 → c ∈ letteredControls := by
    simp only [flatMap_rescanned_eq_iff, rescanned_eq_singleton_iff]
  rw [← hletters]
  constructor
  · rintro ⟨others, hothers, hvalue⟩
    obtain rfl := Except.ok.inj (hlexemes.symm.trans hothers)
    have htoken := (Piece.mk.inj (List.cons.inj (hpieces.symm.trans hvalue)).1).1
    exact String.toList_ofList.symm.trans (congrArg String.toList (Token.string.inj htoken))
  · intro hvalue
    rw [hvalue, String.ofList_toList] at hpieces
    exact ⟨lexemes, hlexemes, hpieces⟩

/-! ### Values survive -/

/-- A string literal has no control characters, and no quotes inside it but escaped ones. Scripts
    read it as its value, and so does the scanner of the language, which takes it as one token, if
    tabs and line breaks are the only control characters of the value. -/
theorem quote_faithful (value : String) :
    (∀ c ∈ (quote value).toList, 0x20 ≤ c.toNat) ∧
    (∃ body, (quote value).toList = '"' :: (body ++ ['"'])) ∧
    (∀ before after, (quote value).toList = before ++ '"' :: after →
      (¬ EscapesNext before ↔ before = [] ∨ after = [])) ∧
    literalValue? (quote value) = some value ∧
    ((∃ lexemes, tokenize (quote value) = .ok lexemes ∧
        lexemes.map Lexeme.piece = [⟨.string value, quote value⟩, .eof]) ↔
      ∀ c ∈ value.toList, c.toNat < 0x20 → c ∈ ['\t', '\n', '\r']) :=
  ⟨fun _ => printed_of_mem_quote, ⟨_, toList_quote value⟩,
    fun _ _ => not_escapesNext_iff_of_quote, literalValue?_quote value, tokenize_quote_iff value⟩

/-- Two backslashes before a quote, all control characters with letters, and a backslash at the
    end. -/
def slashesAndBreaks : String :=
  "a\\\\\"\r\n\t\\"

/-- Five backslashes stand before the quote inside, so it is escaped, and four of them are read as
    two. -/
theorem quote_slashesAndBreaks :
    (∀ c ∈ slashesAndBreaks.toList, c.toNat < 0x20 → c ∈ ['\t', '\n', '\r']) ∧
      (quote slashesAndBreaks).toList =
        "\"a\\\\\\\\\\".toList ++ '"' :: "\\r\\n\\t\\\\\"".toList ∧
      EscapesNext "\"a\\\\\\\\\\".toList ∧
      literalValue? (quote slashesAndBreaks) = some slashesAndBreaks ∧
      ∃ lexemes, tokenize (quote slashesAndBreaks) = .ok lexemes ∧ lexemes.map Lexeme.piece =
        [⟨.string slashesAndBreaks, quote slashesAndBreaks⟩, .eof] := by
  have hletters : ∀ c ∈ slashesAndBreaks.toList, c.toNat < 0x20 → c ∈ ['\t', '\n', '\r'] := by
    simp [slashesAndBreaks]
  have htext : (quote slashesAndBreaks).toList =
      "\"a\\\\\\\\\\".toList ++ '"' :: "\\r\\n\\t\\\\\"".toList := by
    decide +kernel
  obtain ⟨_, _, hquotes, hvalue, hscanned⟩ := quote_faithful slashesAndBreaks
  have hescaped := mt (hquotes _ _ htext).mp (by simp)
  exact ⟨hletters, htext, not_not.mp hescaped, hvalue, hscanned.mpr hletters⟩

end ScriptCompiler.Script
