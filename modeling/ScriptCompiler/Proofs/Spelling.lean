import ScriptCompiler.Grammar.Types
import ScriptCompiler.Proofs.NameSearch

/-!
# The spelling of identifiers

Identifiers are words that are not reserved, and numerals are digits with at most one point between
them. The scanner hands out no other ones, each on a line of its source, and a parser can only find
what the scanner has handed out. `Yields p Q` says that the parser `p` stays among lexemes that are
spelled in this way and that its results satisfy `Q`.
-/

namespace ScriptCompiler

/-- All characters of the text belong to words. -/
def IsWord (name : String) : Prop :=
  ∀ c ∈ name.toList, Token.isWordPart c

theorem IsWord.notMem {name : String} {c : Char} (h : IsWord name)
    (hc : Token.isWordPart c = false) : c ∉ name.toList := by
  intro hin
  rw [h c hin] at hc
  exact Bool.noConfusion hc

/-- The name of a member: a word that is no numeral and no truth value, but may be reserved. -/
structure IsMemberName (name : String) : Prop where
  start : ∃ c ∈ name.toList.head?, Token.isWordStart c
  word : IsWord name
  notTrue : name ≠ "true"
  notFalse : name ≠ "false"

theorem IsMemberName.nonempty {name : String} (h : IsMemberName name) : name ≠ "" := by
  rintro rfl
  obtain ⟨c, hc, _⟩ := h.start
  exact absurd hc (Option.not_mem_none c)

/-- A word that is not reserved. -/
structure IsIdentifier (name : String) : Prop extends IsMemberName name where
  free : Keyword.ofText? name = none

namespace IsIdentifier

variable {name : String}

theorem unqualified (h : IsIdentifier name) : Unqualified name := by
  intro hpair
  exact h.word.notMem (by decide) (hpair.subset List.mem_cons_self)

theorem ne_text (h : IsIdentifier name) (k : Keyword) : name ≠ k.text := by
  rintro rfl
  have hnone := h.free
  revert hnone
  cases k <;> decide

end IsIdentifier

/-- Digits, with a point between them or without one. -/
inductive IsNumeral (digits : String) : Prop where
  | whole (h : digits.toList ≠ []) (hdigits : ∀ c ∈ digits.toList, c.isDigit)
  | fraction {whole part : List Char} (h : digits.toList = whole ++ '.' :: part)
      (hwhole : whole ≠ []) (hpart : part ≠ []) (hdigits : ∀ c ∈ whole ++ part, c.isDigit)

/-- The identifier or numeral of a token, if it is one, is spelled as such. -/
def Token.Spelled : Token → Prop
  | .ident name => IsIdentifier name
  | .number digits => IsNumeral digits
  | _ => True

def Token.isWord : Token → Bool
  | .ident _ | .keyword _ => true
  | _ => false

/-- The token of the lexeme and its text are spelled as they should be, and it stands on a line. -/
structure Lexeme.Spelled (l : Lexeme) : Prop where
  token : l.token.Spelled
  word : l.token.isWord = true → IsMemberName l.text
  line : 1 ≤ l.span.line

theorem Token.isMemberName_of_isWord {word : String}
    (hstart : ∃ c ∈ word.toList.head?, isWordStart c) (hword : IsWord word)
    (h : (ofWord word).isWord = true) : IsMemberName word := by
  refine ⟨hstart, hword, ?_, ?_⟩
  · rintro rfl
    revert h
    decide
  · rintro rfl
    revert h
    decide

theorem Token.spelled_ofWord {word : String} (hstart : ∃ c ∈ word.toList.head?, isWordStart c)
    (hword : IsWord word) : (ofWord word).Spelled := by
  have hmember := isMemberName_of_isWord hstart hword
  unfold ofWord at hmember ⊢
  cases hkey : Keyword.ofText? word with
  | some k => trivial
  | none =>
    rw [hkey] at hmember
    dsimp only at hmember ⊢
    split
    · trivial
    · split
      · trivial
      · rename_i htrue hfalse
        rw [if_neg htrue, if_neg hfalse] at hmember
        exact ⟨hmember rfl, hkey⟩

theorem Token.isWordPart_of_isWordStart {c : Char} (h : isWordStart c) : isWordPart c := by
  unfold isWordStart at h
  unfold isWordPart Char.isAlphanum
  rcases Bool.or_eq_true_iff.mp h with h | h <;> simp [h]

/-- A digit is kept when the separators of a numeral are dropped. -/
theorem Token.filter_cons_of_isDigit {c : Char} (h : c.isDigit) (rest : List Char) :
    (c :: rest).filter (· != '_') = c :: rest.filter (· != '_') := by
  have hne : (c != '_') = true := by
    refine bne_iff_ne.mpr ?_
    rintro rfl
    revert h
    decide
  simp only [List.filter_cons, hne, if_true]

theorem Token.isDigit_of_mem_filter {text : List Char} {c : Char}
    (h : c ∈ (text.takeWhile isDigitPart).filter (· != '_')) : c.isDigit := by
  obtain ⟨hmem, hne⟩ := List.mem_filter.mp h
  have hpart := List.all_eq_true.mp List.all_takeWhile c hmem
  rcases Bool.or_eq_true_iff.mp hpart with hdigit | hsep
  · exact hdigit
  · exact absurd (eq_of_beq hsep) (bne_iff_ne.mp hne)

/-- A numeral that begins with a digit is one without its separators. -/
theorem Token.isNumeral_numeralChars {c : Char} {rest : List Char} (hc : c.isDigit) :
    IsNumeral (String.ofList ((numeralChars (c :: rest)).filter (· != '_'))) := by
  have hpart : isDigitPart c = true := Bool.or_eq_true_iff.mpr (.inl hc)
  have hne : ((c :: rest).takeWhile isDigitPart).filter (· != '_') ≠ [] := by
    rw [List.takeWhile_cons_of_pos hpart, filter_cons_of_isDigit hc]
    exact List.cons_ne_nil _ _
  unfold numeralChars
  dsimp only
  split
  · rename_i d rest' _
    split
    · rename_i hd
      have htext : (((c :: rest).takeWhile isDigitPart ++ '.' :: d :: rest'.takeWhile
          isDigitPart).filter (· != '_')) = ((c :: rest).takeWhile isDigitPart).filter (· != '_') ++
            '.' :: d :: (rest'.takeWhile isDigitPart).filter (· != '_') := by
        rw [List.filter_append, List.filter_cons_of_pos (by decide),
          filter_cons_of_isDigit hd]
      refine .fraction (String.toList_ofList.trans htext) hne (List.cons_ne_nil _ _) ?_
      intro b hb
      rcases List.mem_append.mp hb with hb | hb
      · exact isDigit_of_mem_filter hb
      · rcases List.mem_cons.mp hb with rfl | hb
        · exact hd
        · exact isDigit_of_mem_filter hb
    · refine .whole ?_ ?_ <;> rw [String.toList_ofList]
      · exact hne
      · exact fun _ => isDigit_of_mem_filter
  · refine .whole ?_ ?_ <;> rw [String.toList_ofList]
    · exact hne
    · exact fun _ => isDigit_of_mem_filter

/-- The longest token of a text is spelled as it should be. -/
theorem Token.spelled_of_munch {text chars : List Char} {token : Token}
    (h : munch text = some (token, chars)) :
    token.Spelled ∧ (token.isWord = true → IsMemberName (String.ofList chars)) := by
  unfold munch at h
  split at h
  · cases h
  · rename_i c rest
    split at h
    · rename_i hstart
      obtain ⟨rfl, rfl⟩ := Prod.mk.inj (Option.some.inj h)
      have hword : IsWord (String.ofList (wordChars (c :: rest))) := by
        intro d hd
        rw [String.toList_ofList] at hd
        exact List.all_eq_true.mp List.all_takeWhile d hd
      have hfirst : ∃ d ∈ (String.ofList (wordChars (c :: rest))).toList.head?, isWordStart d := by
        refine ⟨c, ?_, hstart⟩
        rw [String.toList_ofList, wordChars,
          List.takeWhile_cons_of_pos (isWordPart_of_isWordStart hstart)]
        rfl
      exact ⟨spelled_ofWord hfirst hword, isMemberName_of_isWord hfirst hword⟩
    · split at h
      · rename_i hdigit
        obtain ⟨rfl, rfl⟩ := Prod.mk.inj (Option.some.inj h)
        exact ⟨isNumeral_numeralChars hdigit, nofun⟩
      · split at h
        · obtain ⟨body, _, hbody⟩ := Option.map_eq_some_iff.mp h
          obtain ⟨rfl, rfl⟩ := Prod.mk.inj hbody
          exact ⟨trivial, nofun⟩
        · obtain ⟨sign, _, hsign⟩ := Option.map_eq_some_iff.mp h
          obtain ⟨rfl, rfl⟩ := Prod.mk.inj hsign
          exact ⟨trivial, nofun⟩

theorem Lexeme.spelled_eof {text : String} {span : Span} (h : 1 ≤ span.line) :
    Lexeme.Spelled ⟨.eof, text, span⟩ :=
  ⟨trivial, nofun, h⟩

/-- Moving forward never leaves the lines of a source. -/
theorem Position.line_le_after (p : Position) (text : List Char) :
    p.line ≤ (p.after text).line := by
  induction text generalizing p with
  | nil => exact Nat.le_refl _
  | cons c rest ih =>
    have hc : p.line ≤ (p.advance c).line := by
      unfold advance
      split
      · exact Nat.le_succ _
      · exact Nat.le_refl _
    exact Nat.le_trans hc (ih (p.advance c))

theorem Scanner.spelled_of_next {s s' : Scanner} {lexeme : Lexeme} (hs : 1 ≤ s.position.line)
    (h : s.next = .ok (lexeme, s')) : lexeme.Spelled ∧ 1 ≤ s'.position.line := by
  have hgap : 1 ≤ s.skipGap.position.line :=
    Nat.le_trans hs (Position.line_le_after s.position (Token.gap false s.rest))
  unfold next read at h
  split at h
  · obtain ⟨rfl, rfl⟩ := Prod.mk.inj (Except.ok.inj h)
    exact ⟨Lexeme.spelled_eof hgap, hgap⟩
  · split at h
    · rename_i token text hmunch
      obtain ⟨rfl, rfl⟩ := Prod.mk.inj (Except.ok.inj h)
      obtain ⟨htoken, hword⟩ := Token.spelled_of_munch hmunch
      exact ⟨⟨htoken, hword, hgap⟩, Nat.le_trans hgap (Position.line_le_after _ text)⟩
    · cases h

theorem Scanner.spelled_of_lexemesWithin {bound : Nat} {s : Scanner} {lexemes : List Lexeme}
    (hs : 1 ≤ s.position.line) (h : s.lexemesWithin bound = .ok lexemes) :
    ∀ l ∈ lexemes, l.Spelled := by
  induction bound generalizing s lexemes with
  | zero =>
    obtain rfl := Except.ok.inj h
    intro l hl
    rw [List.mem_singleton.mp hl]
    exact Lexeme.spelled_eof hs
  | succ bound ih =>
    unfold lexemesWithin at h
    cases hnext : s.next with
    | error e => simp [hnext] at h
    | ok pair =>
      obtain ⟨lexeme, rest⟩ := pair
      obtain ⟨hfirst, hnextLine⟩ := spelled_of_next hs hnext
      simp only [hnext] at h
      split at h
      · obtain rfl := Except.ok.inj h
        intro l hl
        rw [List.mem_singleton.mp hl]
        exact hfirst
      · cases hrest : lexemesWithin bound rest with
        | error e => simp [hrest, Except.map] at h
        | ok others =>
          rw [hrest] at h
          obtain rfl := Except.ok.inj h
          exact List.forall_mem_cons.mpr ⟨hfirst, ih hnextLine hrest⟩

/-- The lexemes of a source are spelled as they should be. -/
theorem tokenizeFile_spelled {id : Nat} {text : String} {lexemes : List Lexeme}
    (h : tokenizeFile id text = .ok lexemes) : ∀ l ∈ lexemes, l.Spelled :=
  Scanner.spelled_of_lexemesWithin (Nat.le_refl 1) h

/-- The lexemes that a cursor can still reach are spelled as they should be. -/
def Cursor.Spelled (c : Cursor) : Prop :=
  ∀ l ∈ c.current :: c.after, l.Spelled

namespace Cursor.Spelled

variable {c : Cursor}

theorem current (h : c.Spelled) : c.current.Spelled :=
  h c.current List.mem_cons_self

theorem advance (h : c.Spelled) : c.advance.Spelled := by
  unfold Cursor.advance
  split
  · exact h
  · rename_i next rest hafter
    intro l hl
    exact h l (List.mem_cons_of_mem _ (hafter ▸ hl))

end Cursor.Spelled

theorem Cursor.spelled_ofLexemes {lexemes : List Lexeme} (hne : lexemes ≠ [])
    (h : ∀ l ∈ lexemes, l.Spelled) : (ofLexemes lexemes).Spelled := by
  obtain ⟨first, rest, rfl⟩ := List.exists_cons_of_ne_nil hne
  unfold ofLexemes
  dsimp only
  split
  · exact h
  · intro l hl
    rw [← List.cons_append] at hl
    rcases List.mem_append.mp hl with hl | hl
    · exact h l hl
    · rw [List.mem_singleton.mp hl]
      exact Lexeme.spelled_eof (h _ (List.getLast_mem _)).line

namespace TokenParser

/-- Among lexemes that are spelled as they should be the parser finds only results that satisfy
    `Q`, and it stays among such lexemes. -/
def Yields {α : Type} (p : TokenParser α) (Q : α → Prop) : Prop :=
  ∀ c a d, c.Spelled → p c = .ok a d → d.Spelled ∧ Q a

/-- The parser stays among lexemes that are spelled as they should be. -/
abbrev Stays {α : Type} (p : TokenParser α) : Prop :=
  Yields p fun _ => True

namespace Yields

variable {α β : Type} {p : TokenParser α} {Q R : α → Prop}

theorem mono (h : Yields p Q) (himp : ∀ a, Q a → R a) : Yields p R := by
  intro c a d hc hrun
  obtain ⟨hd, ha⟩ := h c a d hc hrun
  exact ⟨hd, himp a ha⟩

theorem stays (h : Yields p Q) : Stays p :=
  h.mono fun _ _ => trivial

theorem pure {a : α} (ha : Q a) : Yields (pure a) Q := by
  intro c b d hc hrun
  obtain ⟨rfl, rfl⟩ := EStateM.Result.ok.inj hrun
  exact ⟨hc, ha⟩

/-- A parser after another one may use what the first one has found. -/
theorem bind {f : α → TokenParser β} {T : β → Prop} (hp : Yields p Q)
    (hf : ∀ a, Q a → Yields (f a) T) : Yields (p >>= f) T := by
  intro c b d hc hrun
  change EStateM.bind p f c = .ok b d at hrun
  unfold EStateM.bind at hrun
  split at hrun
  · rename_i a c' hfirst
    obtain ⟨hc', ha⟩ := hp c a c' hc hfirst
    exact hf a ha c' b d hc' hrun
  · cases hrun

/-- A parser after one whose result does not matter. -/
theorem after {f : α → TokenParser β} {T : β → Prop} (hp : Stays p)
    (hf : ∀ a, Yields (f a) T) : Yields (p >>= f) T :=
  hp.bind fun a _ => hf a

theorem map {f : α → β} {T : β → Prop} (hp : Yields p Q) (hf : ∀ a, Q a → T (f a)) :
    Yields (f <$> p) T := by
  intro c b d hc hrun
  change EStateM.map f p c = .ok b d at hrun
  unfold EStateM.map at hrun
  split at hrun
  · rename_i a c' hfirst
    obtain ⟨rfl, rfl⟩ := EStateM.Result.ok.inj hrun
    obtain ⟨hc', ha⟩ := hp c a c' hc hfirst
    exact ⟨hc', hf a ha⟩
  · cases hrun

theorem pure_some {a : α} (ha : Q a) :
    Yields (Pure.pure (some a)) fun value? => ∀ b ∈ value?, Q b := by
  refine pure fun b hb => ?_
  obtain rfl := Option.some.inj hb
  exact ha

theorem map_some (hp : Yields p Q) : Yields (some <$> p) fun value? => ∀ a ∈ value?, Q a := by
  refine map hp fun a ha b hb => ?_
  obtain rfl := Option.some.inj hb
  exact ha

theorem ite {t : Prop} [Decidable t] {q : TokenParser α} (hp : Yields p Q) (hq : Yields q Q) :
    Yields (if t then p else q) Q := by
  split
  · exact hp
  · exact hq

theorem read {f : Cursor → α} (h : ∀ c, c.Spelled → Q (f c)) :
    Yields (fun c => .ok (f c) c) Q := by
  intro c a d hc hrun
  obtain ⟨rfl, rfl⟩ := EStateM.Result.ok.inj hrun
  exact ⟨hc, h c hc⟩

theorem peek : Yields peek Token.Spelled :=
  read fun _ hc => hc.current.token

theorem peekNext : Stays peekNext :=
  read fun _ _ => trivial

theorem here : Yields here fun span => 1 ≤ span.line :=
  read fun _ hc => hc.current.line

theorem previous : Stays previous :=
  read fun _ _ => trivial

theorem sees (token : Token) : Stays (sees token) :=
  read fun _ _ => trivial

theorem advance : Yields advance Lexeme.Spelled := by
  intro c a d hc hrun
  obtain ⟨rfl, rfl⟩ := EStateM.Result.ok.inj hrun
  exact ⟨hc.advance, hc.current⟩

theorem failAt {span : Span} {cause : ParseCause} : Yields (failAt span cause) Q := by
  intro c a d _ hrun
  cases hrun

theorem failHere {cause : Token → ParseCause} : Yields (failHere cause) Q := by
  intro c a d _ hrun
  cases hrun

theorem eat (token : Token) : Stays (eat token) := by
  intro c a d hc hrun
  unfold TokenParser.eat at hrun
  split at hrun
  · obtain ⟨rfl, rfl⟩ := EStateM.Result.ok.inj hrun
    exact ⟨hc.advance, trivial⟩
  · obtain ⟨rfl, rfl⟩ := EStateM.Result.ok.inj hrun
    exact ⟨hc, trivial⟩

theorem expect (token : Token) : Stays (expect token) := by
  intro c a d hc hrun
  unfold TokenParser.expect at hrun
  split at hrun
  · obtain ⟨rfl, rfl⟩ := EStateM.Result.ok.inj hrun
    exact ⟨hc.advance, trivial⟩
  · cases hrun

theorem ident : Yields TokenParser.ident fun ident => IsIdentifier ident.name := by
  intro c a d hc hrun
  have htoken : c.token.Spelled := hc.current.token
  unfold TokenParser.ident at hrun
  split at hrun
  · rename_i name hname
    obtain ⟨rfl, rfl⟩ := EStateM.Result.ok.inj hrun
    rw [hname] at htoken
    exact ⟨hc.advance, htoken⟩
  · cases hrun

theorem memberName : Yields memberName fun member => IsMemberName member.name := by
  intro c a d hc hrun
  unfold TokenParser.memberName at hrun
  split at hrun
  · rename_i name hname
    obtain ⟨rfl, rfl⟩ := EStateM.Result.ok.inj hrun
    have hword : c.current.token.isWord = true := congrArg Token.isWord hname
    exact ⟨hc.advance, hc.current.word hword⟩
  · rename_i k hk
    obtain ⟨rfl, rfl⟩ := EStateM.Result.ok.inj hrun
    have hword : c.current.token.isWord = true := congrArg Token.isWord hk
    exact ⟨hc.advance, hc.current.word hword⟩
  · cases hrun

-- The modes of a cursor are no lexemes, so both brackets leave the spelling alone.
theorem withCondition {mode : Bool} (hp : Yields p Q) : Yields (withCondition mode p) Q := by
  intro c a d hc hrun
  have hmode : Cursor.Spelled { c with inCondition := mode } := hc
  unfold TokenParser.withCondition at hrun
  split at hrun
  · rename_i b c' hinner
    obtain ⟨rfl, rfl⟩ := EStateM.Result.ok.inj hrun
    exact hp _ _ c' hmode hinner
  · cases hrun

theorem withTypeOperand (hp : Yields p Q) : Yields (withTypeOperand p) Q := by
  intro c a d hc hrun
  have hmode : Cursor.Spelled { c with inTypeOperand := true } := hc
  unfold TokenParser.withTypeOperand at hrun
  split at hrun
  · rename_i b c' hinner
    obtain ⟨rfl, rfl⟩ := EStateM.Result.ok.inj hrun
    exact hp _ _ c' hmode hinner
  · cases hrun

theorem manyWithin {done : Token → Bool} (hp : Yields p Q) (bound : List Lexeme) :
    Yields (manyWithin done p bound) fun items => ∀ a ∈ items, Q a := by
  induction bound with
  | nil => exact pure (by simp)
  | cons _ bound ih =>
    unfold TokenParser.manyWithin
    refine peek.stays.after fun token => ?_
    split
    · exact pure (by simp)
    · refine hp.bind fun first hfirst => ih.bind fun rest hrest => ?_
      exact pure (List.forall_mem_cons.mpr ⟨hfirst, hrest⟩)

theorem many {done : Token → Bool} (hp : Yields p Q) :
    Yields (many done p) fun items => ∀ a ∈ items, Q a :=
  fun c => manyWithin hp c.after c

theorem iterateWithin {step : α → TokenParser (Option α)}
    (hstep : ∀ a, Q a → Yields (step a) fun next => ∀ b ∈ next, Q b) (bound : List Lexeme) {a : α}
    (ha : Q a) : Yields (iterateWithin step bound a) Q := by
  induction bound generalizing a with
  | nil => exact pure ha
  | cons _ bound ih =>
    unfold TokenParser.iterateWithin
    refine (hstep a ha).bind fun next hnext => ?_
    cases next with
    | some b => exact ih (hnext b rfl)
    | none => exact pure ha

theorem iterate {step : α → TokenParser (Option α)}
    (hstep : ∀ a, Q a → Yields (step a) fun next => ∀ b ∈ next, Q b) {a : α} (ha : Q a) :
    Yields (iterate step a) Q :=
  fun c => iterateWithin hstep c.after ha c

theorem itemsWithin {close : Token} (hp : Yields p Q) (bound : List Lexeme) :
    Yields (itemsWithin close p bound) fun items => ∀ a ∈ items, Q a := by
  induction bound with
  | nil => exact pure (by simp)
  | cons _ bound ih =>
    unfold TokenParser.itemsWithin
    refine (eat _).after fun comma => ?_
    split
    · refine (sees _).after fun closes => ?_
      split
      · exact pure (by simp)
      · refine hp.bind fun first hfirst => ih.bind fun rest hrest => ?_
        exact pure (List.forall_mem_cons.mpr ⟨hfirst, hrest⟩)
    · exact pure (by simp)

theorem items {close : Token} (hp : Yields p Q) :
    Yields (items close p) fun items => ∀ a ∈ items, Q a :=
  fun c => itemsWithin hp c.after c

theorem delimited {close : Token} (hp : Yields p Q) :
    Yields (delimited close p) fun items => ∀ a ∈ items, Q a := by
  refine withCondition (bind (Q := fun items => ∀ a ∈ items, Q a) ?_ fun contents hcontents => ?_)
  · refine (sees _).after fun closes => ?_
    split
    · exact pure (by simp)
    · refine hp.bind fun first hfirst => (items hp).bind fun rest hrest => ?_
      exact pure (List.forall_mem_cons.mpr ⟨hfirst, hrest⟩)
  · exact (expect _).after fun _ => pure hcontents

theorem optionally {token : Token} (hp : Yields p Q) :
    Yields (optionally token p) fun value? => ∀ a ∈ value?, Q a := by
  refine (eat _).after fun eaten => ?_
  split
  · exact hp.bind fun a ha => pure_some ha
  · exact pure (by simp)

end Yields

end TokenParser

end ScriptCompiler
