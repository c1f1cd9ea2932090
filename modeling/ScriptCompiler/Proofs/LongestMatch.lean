import Mathlib.Computability.Language
import ScriptCompiler.Proofs.Scanning

/-!
# The longest token at the start of a text

The texts of tokens are given by patterns, built from classes of characters by sequence, choice and
repetition. At the start of a text several patterns may match, each with texts of several lengths.
The scanner takes the longest text that any pattern matches; a reserved word or truth value goes
before an identifier of the same text.
-/

namespace ScriptCompiler.Token

open scoped Computability

/-! ### Patterns -/

/-- The texts of one character from a class. -/
def single (p : Char → Bool) : Language Char :=
  {text | ∃ c, p c ∧ text = [c]}

/-- Words: a letter or underscore, then letters, digits and underscores. -/
def words : Language Char :=
  single isWordStart * (single isWordPart)∗

/-- Digits and separators that begin with a digit. -/
def digitRuns : Language Char :=
  single Char.isDigit * (single isDigitPart)∗

/-- Numerals: a run of digits, or two of them with a point between. -/
def numerals : Language Char :=
  digitRuns * (1 + {['.']} * digitRuns)

/-- What stands between the quotes of a string literal: characters other than quotes and backslashes,
    and backslashes each with a character other than a line feed. -/
def literalBodies : Language Char :=
  (single (fun c => c != '"' && c != '\\') + {['\\']} * single (· != '\n'))∗

/-- String literals. -/
def literals : Language Char :=
  {['"']} * literalBodies * {['"']}

/-- A pattern matches the whole text, and gives the token with this value. -/
inductive Matches : List Char → Token → Prop where
  | keyword (k : Keyword) : Matches k.text.toList (.keyword k)
  | truth (b : Bool) : Matches (Token.bool b).display.toList (.bool b)
  | symbol (s : Symbol) : Matches s.chars (.symbol s)
  | number {text : List Char} (h : text ∈ numerals) :
      Matches text (.number (String.ofList (text.filter (· != '_'))))
  | string {body : List Char} (h : '"' :: (body ++ ['"']) ∈ literals) :
      Matches ('"' :: (body ++ ['"'])) (.string (String.ofList (unescape body)))
  | ident {text : List Char} (h : text ∈ words) : Matches text (.ident (String.ofList text))

def isReserved : Token → Bool
  | .keyword _ | .bool _ => true
  | _ => false

/-- The text is the longest one at the start of the source that some pattern matches. Only
    identifiers share their text with another token, which goes before them. -/
structure IsLongest (source : List Char) (token : Token) (text : List Char) : Prop where
  starts : text <+: source
  matched : Matches text token
  longest : ∀ other found, other <+: source → Matches other found → other.length ≤ text.length
  preferred : ∀ found, Matches text found →
    found = token ∨ token.isReserved = true ∧ ∃ name, found = .ident name

/-! ### The texts of the patterns -/

theorem mem_kstar_single {p : Char → Bool} {text : List Char} :
    text ∈ (single p)∗ ↔ ∀ c ∈ text, p c := by
  rw [Language.mem_kstar]
  constructor
  · rintro ⟨parts, rfl, hparts⟩ c hc
    obtain ⟨part, hpart, hin⟩ := List.mem_flatten.mp hc
    obtain ⟨d, hd, rfl⟩ := hparts part hpart
    rwa [List.mem_singleton.mp hin]
  · intro h
    refine ⟨text.map fun c => [c], (List.flatMap_singleton' text).symm, fun part hpart => ?_⟩
    obtain ⟨c, hc, rfl⟩ := List.mem_map.mp hpart
    exact ⟨c, h c hc, rfl⟩

/-- A character of one class before characters of another one. -/
theorem mem_single_mul_kstar {p q : Char → Bool} {text : List Char} :
    text ∈ single p * (single q)∗ ↔ ∃ c rest, text = c :: rest ∧ p c ∧ ∀ d ∈ rest, q d := by
  rw [Language.mem_mul]
  constructor
  · rintro ⟨first, ⟨c, hc, rfl⟩, rest, hrest, rfl⟩
    exact ⟨c, rest, rfl, hc, mem_kstar_single.mp hrest⟩
  · rintro ⟨c, rest, rfl, hc, hrest⟩
    exact ⟨[c], ⟨c, hc, rfl⟩, rest, mem_kstar_single.mpr hrest, rfl⟩

theorem mem_numerals {text : List Char} :
    text ∈ numerals ↔ text ∈ digitRuns ∨
      ∃ whole ∈ digitRuns, ∃ part ∈ digitRuns, text = whole ++ '.' :: part := by
  rw [numerals, mul_add, mul_one, Language.mem_add]
  refine or_congr_right ?_
  rw [Language.mem_mul]
  constructor
  · rintro ⟨whole, hwhole, rest, hrest, rfl⟩
    obtain ⟨point, hpoint, part, hpart, rfl⟩ := Language.mem_mul.mp hrest
    obtain rfl : point = ['.'] := hpoint
    exact ⟨whole, hwhole, part, hpart, rfl⟩
  · rintro ⟨whole, hwhole, part, hpart, rfl⟩
    exact ⟨whole, hwhole, '.' :: part, Language.mem_mul.mpr ⟨['.'], rfl, part, hpart, rfl⟩, rfl⟩

theorem mem_literals {text : List Char} :
    text ∈ literals ↔ ∃ body ∈ literalBodies, text = '"' :: (body ++ ['"']) := by
  rw [literals, Language.mem_mul]
  constructor
  · rintro ⟨front, hfront, close, hclose, rfl⟩
    obtain ⟨opening, hopening, body, hbody, rfl⟩ := Language.mem_mul.mp hfront
    obtain rfl : opening = ['"'] := hopening
    obtain rfl : close = ['"'] := hclose
    exact ⟨body, hbody, rfl⟩
  · rintro ⟨body, hbody, rfl⟩
    exact ⟨'"' :: body, Language.mem_mul.mpr ⟨['"'], rfl, body, hbody, rfl⟩, ['"'], rfl, rfl⟩

theorem literalBodies_nil : [] ∈ literalBodies :=
  Language.nil_mem_kstar _

theorem literalBodies_append {first rest : List Char}
    (hfirst : first ∈ single (fun c => c != '"' && c != '\\') + {['\\']} * single (· != '\n'))
    (hrest : rest ∈ literalBodies) : first ++ rest ∈ literalBodies := by
  obtain ⟨parts, rfl, hparts⟩ := Language.mem_kstar.mp hrest
  refine Language.mem_kstar.mpr ⟨first :: parts, rfl, fun part hpart => ?_⟩
  rcases List.mem_cons.mp hpart with rfl | hpart
  · exact hfirst
  · exact hparts part hpart

/-! ### The first character of a text -/

/-- The kinds of texts that patterns match, told apart by the first character `c`. -/
inductive Shape (c : Char) (rest : List Char) : Token → Prop where
  | word {token : Token} (hc : isWordStart c) (hrest : ∀ d ∈ rest, isWordPart d)
      (htoken : token = ofWord (String.ofList (c :: rest)) ∨
        token = .ident (String.ofList (c :: rest))) : Shape c rest token
  | numeral (hc : c.isDigit) (h : c :: rest ∈ numerals) :
      Shape c rest (.number (String.ofList ((c :: rest).filter (· != '_'))))
  | literal {body : List Char} (hc : c = '"') (hrest : rest = body ++ ['"'])
      (h : body ∈ literalBodies) : Shape c rest (.string (String.ofList (unescape body)))
  | sign {s : Symbol} (hword : isWordStart c = false) (hdigit : c.isDigit = false)
      (hquote : c ≠ '"') (h : c :: rest = s.chars) : Shape c rest (.symbol s)

theorem Keyword.text_of_ofText? {word : String} {k : Keyword} (h : Keyword.ofText? word = some k) :
    k.text = word := by
  unfold Keyword.ofText? at h
  simpa using List.find?_some h

theorem ofWord_keyword (k : Keyword) : ofWord k.text = .keyword k := by
  cases k <;> rfl

theorem ofWord_truth (b : Bool) : ofWord (Token.bool b).display = .bool b := by
  cases b <;> rfl

theorem Shape.keyword (k : Keyword) :
    ∃ c rest, k.text.toList = c :: rest ∧ Shape c rest (.keyword k) := by
  obtain ⟨c, rest, htext, hc, hrest⟩ : ∃ c rest, k.text.toList = c :: rest ∧ isWordStart c ∧
      rest.all isWordPart = true := by
    cases k <;> exact ⟨_, _, rfl, by decide, by decide⟩
  refine ⟨c, rest, htext, .word hc (List.all_eq_true.mp hrest) (.inl ?_)⟩
  rw [← htext, String.ofList_toList, ofWord_keyword]

theorem Shape.truth (b : Bool) :
    ∃ c rest, (Token.bool b).display.toList = c :: rest ∧ Shape c rest (.bool b) := by
  obtain ⟨c, rest, htext, hc, hrest⟩ : ∃ c rest, (Token.bool b).display.toList = c :: rest ∧
      isWordStart c ∧ rest.all isWordPart = true := by
    cases b <;> exact ⟨_, _, rfl, by decide, by decide⟩
  refine ⟨c, rest, htext, .word hc (List.all_eq_true.mp hrest) (.inl ?_)⟩
  rw [← htext, String.ofList_toList, ofWord_truth]

theorem Shape.symbol (s : Symbol) : ∃ c rest, s.chars = c :: rest ∧ Shape c rest (.symbol s) := by
  cases s <;> exact ⟨_, _, rfl, .sign (by decide) (by decide) (by decide) rfl⟩

theorem exists_cons_of_mem_numerals {text : List Char} (h : text ∈ numerals) :
    ∃ c rest, text = c :: rest ∧ c.isDigit := by
  rcases mem_numerals.mp h with hrun | ⟨whole, hwhole, part, _, rfl⟩
  · obtain ⟨c, rest, rfl, hc, _⟩ := mem_single_mul_kstar.mp hrun
    exact ⟨c, rest, rfl, hc⟩
  · obtain ⟨c, rest, rfl, hc, _⟩ := mem_single_mul_kstar.mp hwhole
    exact ⟨c, rest ++ '.' :: part, rfl, hc⟩

/-- The first character of a text tells which pattern matches it. -/
theorem Matches.shape {text : List Char} {token : Token} (h : Matches text token) :
    ∃ c rest, text = c :: rest ∧ Shape c rest token := by
  cases h with
  | keyword k => exact Shape.keyword k
  | truth b => exact Shape.truth b
  | symbol s => exact Shape.symbol s
  | number h =>
    obtain ⟨c, rest, rfl, hc⟩ := exists_cons_of_mem_numerals h
    exact ⟨c, rest, rfl, .numeral hc h⟩
  | string h =>
    obtain ⟨body, hbody, heq⟩ := mem_literals.mp h
    obtain rfl := List.append_cancel_right (List.cons.inj heq).2
    exact ⟨_, _, rfl, .literal rfl rfl hbody⟩
  | ident h =>
    obtain ⟨c, rest, rfl, hc, hrest⟩ := mem_single_mul_kstar.mp h
    exact ⟨c, rest, rfl, .word hc hrest (.inr rfl)⟩

/-! ### Words -/

/-- The token of a word is reserved or the identifier of that word. -/
theorem ofWord_cases (word : String) :
    (ofWord word).isReserved = true ∨ ofWord word = .ident word := by
  unfold ofWord
  split
  · exact .inl rfl
  · split_ifs
    · exact .inl rfl
    · exact .inl rfl
    · exact .inr rfl

theorem matches_ofWord {text : List Char} (h : text ∈ words) :
    Matches text (ofWord (String.ofList text)) := by
  unfold ofWord
  split
  · rename_i k hk
    have htext := Keyword.text_of_ofText? hk
    have hmatches := Matches.keyword k
    rwa [htext, String.toList_ofList] at hmatches
  · split_ifs with htrue hfalse
    · have hmatches := Matches.truth true
      rwa [show (Token.bool true).display = String.ofList text from htrue.symm,
        String.toList_ofList] at hmatches
    · have hmatches := Matches.truth false
      rwa [show (Token.bool false).display = String.ofList text from hfalse.symm,
        String.toList_ofList] at hmatches
    · exact .ident h

theorem length_le_takeWhile {p : Char → Bool} {text source : List Char} (h : text <+: source)
    (htext : ∀ c ∈ text, p c) : text.length ≤ (source.takeWhile p).length := by
  obtain ⟨rest, rfl⟩ := h
  rw [List.takeWhile_append_of_pos htext, List.length_append]
  omega

/-- The longest word is the longest text of all patterns where a word starts. -/
theorem isLongest_word {c : Char} {rest : List Char} (hc : isWordStart c) :
    IsLongest (c :: rest) (ofWord (String.ofList (wordChars (c :: rest))))
      (wordChars (c :: rest)) := by
  have hpart := isWordPart_of_isWordStart hc
  have hchars : wordChars (c :: rest) = c :: rest.takeWhile isWordPart :=
    List.takeWhile_cons_of_pos hpart
  have hword : wordChars (c :: rest) ∈ words := by
    rw [hchars]
    refine mem_single_mul_kstar.mpr ⟨c, _, rfl, hc, fun d hd => ?_⟩
    exact List.all_eq_true.mp List.all_takeWhile d hd
  -- Whatever pattern matches here, it matches a word.
  have hshape {other : List Char} {found : Token} (hother : other <+: c :: rest)
      (hfound : Matches other found) : (∀ d ∈ other, isWordPart d) ∧
        (found = ofWord (String.ofList other) ∨ found = .ident (String.ofList other)) := by
    obtain ⟨d, tail, rfl, hshape⟩ := hfound.shape
    obtain rfl := (List.cons_prefix_cons.mp hother).1
    cases hshape with
    | word _ htail htoken => exact ⟨List.forall_mem_cons.mpr ⟨hpart, htail⟩, htoken⟩
    | numeral hdigit => simp [isWordStart_of_isDigit hdigit] at hc
    | literal hquote =>
      subst hquote
      exact absurd hc (by decide)
    | sign hnot => simp [hnot] at hc
  refine ⟨List.takeWhile_prefix _, matches_ofWord hword, fun other found hother hfound => ?_,
    fun found hfound => ?_⟩
  · exact length_le_takeWhile hother (hshape hother hfound).1
  · rcases (hshape (List.takeWhile_prefix _) hfound).2 with rfl | rfl
    · exact .inl rfl
    · rcases ofWord_cases (String.ofList (wordChars (c :: rest))) with hreserved | hident
      · exact .inr ⟨hreserved, _, rfl⟩
      · exact .inl hident.symm

/-! ### Numerals -/

theorem digitRun_takeWhile {c : Char} (hc : c.isDigit) (rest : List Char) :
    (c :: rest).takeWhile isDigitPart ∈ digitRuns := by
  rw [List.takeWhile_cons_of_pos (isDigitPart_of_isDigit hc)]
  refine mem_single_mul_kstar.mpr ⟨c, _, rfl, hc, fun d hd => ?_⟩
  exact List.all_eq_true.mp List.all_takeWhile d hd

theorem isDigitPart_of_mem_digitRuns {text : List Char} (h : text ∈ digitRuns) :
    ∀ c ∈ text, isDigitPart c := by
  obtain ⟨c, rest, rfl, hc, hrest⟩ := mem_single_mul_kstar.mp h
  exact List.forall_mem_cons.mpr ⟨isDigitPart_of_isDigit hc, hrest⟩

theorem numeralChars_cases (c : Char) (rest : List Char) :
    numeralChars (c :: rest) = (c :: rest).takeWhile isDigitPart ∨
      ∃ d after, d.isDigit ∧ (c :: rest).dropWhile isDigitPart = '.' :: d :: after ∧
        numeralChars (c :: rest) =
          (c :: rest).takeWhile isDigitPart ++ '.' :: (d :: after).takeWhile isDigitPart := by
  unfold numeralChars
  dsimp only
  split
  · rename_i d after hafter
    split_ifs with hd
    · refine .inr ⟨d, after, hd, hafter, ?_⟩
      rw [List.takeWhile_cons_of_pos (isDigitPart_of_isDigit hd)]
    · exact .inl rfl
  · exact .inl rfl

theorem numeralChars_mem {c : Char} (hc : c.isDigit) (rest : List Char) :
    numeralChars (c :: rest) ∈ numerals := by
  rcases numeralChars_cases c rest with heq | ⟨d, after, hd, _, heq⟩
  · rw [heq]
    exact mem_numerals.mpr (.inl (digitRun_takeWhile hc rest))
  · rw [heq]
    exact mem_numerals.mpr
      (.inr ⟨_, digitRun_takeWhile hc rest, _, digitRun_takeWhile hd after, rfl⟩)

theorem numeralChars_starts (c : Char) (rest : List Char) :
    numeralChars (c :: rest) <+: c :: rest := by
  rcases numeralChars_cases c rest with heq | ⟨d, after, _, hafter, heq⟩
  · rw [heq]
    exact List.takeWhile_prefix _
  · rw [heq]
    conv_rhs => rw [← List.takeWhile_append_dropWhile (p := isDigitPart) (l := c :: rest), hafter]
    rw [List.prefix_append_right_inj, List.cons_prefix_cons]
    exact ⟨rfl, List.takeWhile_prefix _⟩

theorem takeWhile_length_le_numeralChars (c : Char) (rest : List Char) :
    ((c :: rest).takeWhile isDigitPart).length ≤ (numeralChars (c :: rest)).length := by
  rcases numeralChars_cases c rest with heq | ⟨d, after, _, _, heq⟩
  · rw [heq]
  · rw [heq, List.length_append]
    omega

/-- A point with a digit behind it always belongs to the numeral. -/
theorem numeralChars_point {whole after : List Char} {d : Char} (hwhole : ∀ c ∈ whole, isDigitPart c)
    (hd : d.isDigit) : numeralChars (whole ++ '.' :: d :: after) =
      whole ++ '.' :: (d :: after).takeWhile isDigitPart := by
  have hpoint : ∀ c ∈ ('.' :: d :: after).head?, isDigitPart c = false := by
    intro c hc
    obtain rfl := Option.some.inj hc
    decide
  unfold numeralChars
  rw [takeWhile_append_of_stop hwhole hpoint, dropWhile_append_of_stop hwhole hpoint]
  show (if d.isDigit then whole ++ '.' :: d :: after.takeWhile isDigitPart else whole) = _
  rw [if_pos hd, List.takeWhile_cons_of_pos (isDigitPart_of_isDigit hd)]

theorem length_le_numeralChars {text : List Char} {c : Char} {rest : List Char}
    (h : text ∈ numerals) (hstarts : text <+: c :: rest) :
    text.length ≤ (numeralChars (c :: rest)).length := by
  rcases mem_numerals.mp h with hrun | ⟨whole, hwhole, part, hpart, rfl⟩
  · exact Nat.le_trans (length_le_takeWhile hstarts (isDigitPart_of_mem_digitRuns hrun))
      (takeWhile_length_le_numeralChars c rest)
  · -- The point stands behind the longest run of digits, so the numeral goes on with it.
    obtain ⟨after, hafter⟩ := hstarts
    have hdigits := isDigitPart_of_mem_digitRuns hpart
    obtain ⟨d, tail, rfl, hd, _⟩ := mem_single_mul_kstar.mp hpart
    have hsource : c :: rest = whole ++ '.' :: d :: (tail ++ after) := by simp [← hafter]
    rw [hsource, numeralChars_point (isDigitPart_of_mem_digitRuns hwhole) hd]
    have hlength : (d :: tail).length ≤ ((d :: (tail ++ after)).takeWhile isDigitPart).length :=
      length_le_takeWhile (List.prefix_append (d :: tail) after) hdigits
    simp only [List.length_append, List.length_cons] at hlength ⊢
    omega

/-- The longest numeral is the longest text of all patterns where a digit stands. -/
theorem isLongest_numeral {c : Char} {rest : List Char} (hc : c.isDigit) :
    IsLongest (c :: rest)
      (.number (String.ofList ((numeralChars (c :: rest)).filter (· != '_'))))
      (numeralChars (c :: rest)) := by
  have hstart := isWordStart_of_isDigit hc
  have hshape {other : List Char} {found : Token} (hother : other <+: c :: rest)
      (hfound : Matches other found) : other ∈ numerals ∧
        found = .number (String.ofList (other.filter (· != '_'))) := by
    obtain ⟨d, tail, rfl, hshape⟩ := hfound.shape
    obtain rfl := (List.cons_prefix_cons.mp hother).1
    cases hshape with
    | word hword => simp [hstart] at hword
    | numeral _ h => exact ⟨h, rfl⟩
    | literal hquote =>
      subst hquote
      exact absurd hc (by decide)
    | sign _ hdigit => simp [hdigit] at hc
  refine ⟨numeralChars_starts c rest, .number (numeralChars_mem hc rest),
    fun other found hother hfound => ?_, fun found hfound => ?_⟩
  · exact length_le_numeralChars (hshape hother hfound).1 hother
  · exact .inl (hshape (numeralChars_starts c rest) hfound).2

/-! ### String literals -/

/-- A character between the quotes that stands for itself. -/
theorem literalBodies_plain {c : Char} {rest : List Char} (hquote : c ≠ '"') (hslash : c ≠ '\\')
    (hrest : rest ∈ literalBodies) : c :: rest ∈ literalBodies := by
  have hfirst : [c] ∈ single (fun c => c != '"' && c != '\\') := ⟨c, by simp [hquote, hslash], rfl⟩
  exact literalBodies_append (.inl hfirst) hrest

/-- A backslash between the quotes with the character behind it. -/
theorem literalBodies_escape {d : Char} {rest : List Char} (hd : d ≠ '\n')
    (hrest : rest ∈ literalBodies) : '\\' :: d :: rest ∈ literalBodies := by
  have hfirst : ['\\', d] ∈ ({['\\']} : Language Char) * single (· != '\n') :=
    Language.mem_mul.mpr ⟨['\\'], rfl, [d], ⟨d, by simpa using hd, rfl⟩, rfl⟩
  exact literalBodies_append (.inr hfirst) hrest

/-- What stands between quotes is nothing, or it begins in one of these two ways. -/
theorem literalBodies_cases {body : List Char} (h : body ∈ literalBodies) :
    body = [] ∨
      (∃ c rest, body = c :: rest ∧ c ≠ '"' ∧ c ≠ '\\' ∧ rest ∈ literalBodies) ∨
      ∃ d rest, body = '\\' :: d :: rest ∧ d ≠ '\n' ∧ rest ∈ literalBodies := by
  obtain ⟨parts, rfl, hparts⟩ := Language.mem_kstar.mp h
  cases parts with
  | nil => exact .inl rfl
  | cons part parts =>
    obtain ⟨hpart, hrest⟩ := List.forall_mem_cons.mp hparts
    have hbody : parts.flatten ∈ literalBodies := Language.mem_kstar.mpr ⟨parts, rfl, hrest⟩
    rcases hpart with ⟨c, hc, rfl⟩ | hescape
    · rw [Bool.and_eq_true, bne_iff_ne, bne_iff_ne] at hc
      exact .inr (.inl ⟨c, parts.flatten, rfl, hc.1, hc.2, hbody⟩)
    · obtain ⟨slash, hslash, _, ⟨d, hd, rfl⟩, rfl⟩ := Language.mem_mul.mp hescape
      obtain rfl : slash = ['\\'] := hslash
      exact .inr (.inr ⟨d, parts.flatten, rfl, bne_iff_ne.mp hd, hbody⟩)

theorem literalBody_sound {text body : List Char} (h : literalBody text = some body) :
    body ∈ literalBodies ∧ body ++ ['"'] <+: text := by
  fun_induction literalBody text generalizing body with
  | case1 => cases h
  | case2 rest =>
    obtain rfl := Option.some.inj h
    exact ⟨literalBodies_nil, List.prefix_append ['"'] rest⟩
  | case3 => cases h
  | case4 => cases h
  | case5 d rest hd _ ih =>
    obtain ⟨inner, hinner, rfl⟩ := Option.map_eq_some_iff.mp h
    obtain ⟨hmem, hstarts⟩ := ih hinner
    refine ⟨literalBodies_escape hd hmem, ?_⟩
    rwa [List.cons_append, List.cons_append, List.prefix_cons_inj, List.prefix_cons_inj]
  | case6 c rest hquote hslash ih =>
    obtain ⟨inner, hinner, rfl⟩ := Option.map_eq_some_iff.mp h
    obtain ⟨hmem, hstarts⟩ := ih hinner
    refine ⟨literalBodies_plain hquote hslash hmem, ?_⟩
    rwa [List.cons_append, List.prefix_cons_inj]

/-- A string literal ends at its first closing quote, so there is at most one at each place. -/
theorem literalBody_complete {body rest : List Char} (h : body ∈ literalBodies) :
    literalBody (body ++ '"' :: rest) = some body := by
  induction hlength : body.length using Nat.strong_induction_on generalizing body with
  | _ n ih =>
    rcases literalBodies_cases h with rfl | ⟨c, tail, rfl, hquote, hslash, htail⟩ |
      ⟨d, tail, rfl, hd, htail⟩
    · rw [List.nil_append, literalBody.eq_def]
      rfl
    · have hrest := ih tail.length (by simp [← hlength]) htail rfl
      rw [List.cons_append, literalBody.eq_def]
      dsimp only
      rw [if_neg hquote, if_neg hslash, hrest]
      rfl
    · have hshorter : tail.length < n := by
        rw [← hlength, List.length_cons, List.length_cons]
        omega
      have hrest := ih tail.length hshorter htail rfl
      rw [List.cons_append, List.cons_append, literalBody, if_neg (by decide), if_pos rfl,
        if_neg hd, hrest]
      rfl

/-- A pattern that matches a text with a quote at its start matches a string literal, and the
    literal is the one that the scanner finds. -/
theorem Matches.literalBody_eq {rest other : List Char} {found : Token}
    (h : Matches other found) (hother : other <+: '"' :: rest) :
    ∃ body, literalBody rest = some body ∧ other = '"' :: (body ++ ['"']) ∧
      found = .string (String.ofList (unescape body)) := by
  obtain ⟨d, tail, rfl, hshape⟩ := h.shape
  obtain ⟨rfl, after, hafter⟩ := List.cons_prefix_cons.mp hother
  cases hshape with
  | word hword => exact absurd hword (by decide)
  | numeral hdigit => exact absurd hdigit (by decide)
  | @literal body _ htail hbody =>
    subst htail
    rw [List.append_assoc, List.singleton_append] at hafter
    exact ⟨body, hafter ▸ literalBody_complete hbody, rfl, rfl⟩
  | sign _ _ hquote => exact absurd rfl hquote

/-- A string literal is the longest text of all patterns where a quote stands. -/
theorem isLongest_literal {rest body : List Char} (h : literalBody rest = some body) :
    IsLongest ('"' :: rest) (.string (String.ofList (unescape body))) ('"' :: body ++ ['"']) := by
  obtain ⟨hbody, hstarts⟩ := literalBody_sound h
  have hopens : '"' :: (body ++ ['"']) <+: '"' :: rest := List.prefix_cons_inj '"' |>.mpr hstarts
  refine ⟨hopens, .string (mem_literals.mpr ⟨body, hbody, rfl⟩), fun other found hother hfound => ?_,
    fun found hfound => ?_⟩
  · obtain ⟨inner, hinner, rfl, _⟩ := hfound.literalBody_eq hother
    obtain rfl := Option.some.inj (h.symm.trans hinner)
    exact Nat.le_refl _
  · obtain ⟨inner, hinner, _, rfl⟩ := hfound.literalBody_eq hopens
    obtain rfl := Option.some.inj (h.symm.trans hinner)
    exact .inl rfl

/-! ### Signs -/

theorem Symbol.length_chars (s : Symbol) : 1 ≤ s.chars.length := by
  cases s <;> decide

/-- Signs that a character can make longer have one character themselves. -/
theorem Symbol.length_chars_of_continuation (s : Symbol) (h : s.continuation? ≠ none) :
    s.chars.length = 1 := by
  cases s <;> first | rfl | exact absurd rfl h

theorem Symbol.chars_injective {s t : Symbol} (h : s.chars = t.chars) : s = t := by
  revert h
  cases s <;> cases t <;> decide

theorem symbolAt?_starts {source : List Char} {s : Symbol} (h : symbolAt? source = some s) :
    s.chars <+: source := by
  unfold symbolAt? at h
  simpa using List.find?_some h

theorem symbolAt?_isSome {source : List Char} {s : Symbol} (h : s.chars <+: source) :
    (symbolAt? source).isSome := by
  unfold symbolAt?
  rw [List.find?_isSome]
  refine ⟨s, ?_, List.isPrefixOf_iff_prefix.mpr h⟩
  cases s <;> decide

/-- The sign that is found is the longest one. -/
theorem length_le_of_symbolAt? {source : List Char} {s t : Symbol} (h : symbolAt? source = some s)
    (ht : t.chars <+: source) : t.chars.length ≤ s.chars.length := by
  by_cases hnext : t.continuation? = none
  · -- A sign that nothing makes longer is found wherever it stands.
    obtain ⟨rest, rfl⟩ := ht
    rw [symbolAt?_chars t fun c _ => hnext ▸ (Option.some_ne_none c).symm] at h
    rw [Option.some.inj h]
  · rw [Symbol.length_chars_of_continuation t hnext]
    exact Symbol.length_chars s

/-- A pattern that matches where neither a word, a numeral nor a string literal starts matches a
    sign. -/
theorem Matches.eq_symbol {c : Char} {rest other : List Char} {found : Token}
    (h : Matches other found) (hother : other <+: c :: rest) (hword : ¬ isWordStart c)
    (hdigit : ¬ c.isDigit) (hquote : c ≠ '"') : ∃ s : Symbol, other = s.chars ∧ found = .symbol s := by
  obtain ⟨d, tail, rfl, hshape⟩ := h.shape
  obtain rfl := (List.cons_prefix_cons.mp hother).1
  cases hshape with
  | word hc => exact absurd hc hword
  | numeral hc => exact absurd hc hdigit
  | literal hc => exact absurd hc hquote
  | sign _ _ _ hchars => exact ⟨_, hchars, rfl⟩

theorem isLongest_symbol {c : Char} {rest : List Char} {s : Symbol} (hword : ¬ isWordStart c)
    (hdigit : ¬ c.isDigit) (hquote : c ≠ '"') (h : symbolAt? (c :: rest) = some s) :
    IsLongest (c :: rest) (.symbol s) s.chars := by
  refine ⟨symbolAt?_starts h, .symbol s, fun other found hother hfound => ?_, fun found hfound => ?_⟩
  · obtain ⟨t, rfl, _⟩ := hfound.eq_symbol hother hword hdigit hquote
    exact length_le_of_symbolAt? h hother
  · obtain ⟨t, hchars, rfl⟩ := hfound.eq_symbol (symbolAt?_starts h) hword hdigit hquote
    exact .inl (by rw [Symbol.chars_injective hchars])

/-! ### The token at the start of a source -/

/-- The scanner takes the longest text that a pattern matches. -/
theorem isLongest_of_munch {source text : List Char} {token : Token}
    (h : munch source = some (token, text)) : IsLongest source token text := by
  unfold munch at h
  split at h
  · cases h
  · split_ifs at h with hword hdigit hquote
    · obtain ⟨rfl, rfl⟩ := Prod.mk.inj (Option.some.inj h)
      exact isLongest_word hword
    · obtain ⟨rfl, rfl⟩ := Prod.mk.inj (Option.some.inj h)
      exact isLongest_numeral hdigit
    · obtain ⟨body, hbody, heq⟩ := Option.map_eq_some_iff.mp h
      obtain ⟨rfl, rfl⟩ := Prod.mk.inj heq
      rw [hquote]
      exact isLongest_literal hbody
    · obtain ⟨s, hs, heq⟩ := Option.map_eq_some_iff.mp h
      obtain ⟨rfl, rfl⟩ := Prod.mk.inj heq
      exact isLongest_symbol hword hdigit hquote hs

/-- Where the scanner finds no token, no pattern matches. -/
theorem not_matches_of_munch {source text : List Char} {token : Token} (h : munch source = none)
    (htext : text <+: source) : ¬ Matches text token := by
  intro hmatches
  unfold munch at h
  split at h
  · obtain ⟨c, rest, rfl, _⟩ := hmatches.shape
    simp at htext
  · split_ifs at h with hword hdigit hquote
    · subst hquote
      obtain ⟨body, hbody, _⟩ := hmatches.literalBody_eq htext
      simp [hbody] at h
    · obtain ⟨s, rfl, _⟩ := hmatches.eq_symbol htext hword hdigit hquote
      obtain ⟨t, ht⟩ := Option.isSome_iff_exists.mp (symbolAt?_isSome htext)
      simp [ht] at h

end ScriptCompiler.Token
