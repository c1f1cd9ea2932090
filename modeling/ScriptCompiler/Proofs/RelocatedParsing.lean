import ScriptCompiler.Proofs.PairedProductions

/-!
# Parsing lexemes at other places

A parser looks at tokens and never at places. So lexemes at other places give the same trees and the
same failures, at the places that belong to them.
-/

namespace ScriptCompiler

namespace Cursor

/-- The last lexeme is an end token. -/
def EndsLast (c : Cursor) : Prop :=
  ∃ l ∈ c.rest.getLast?, l.token = .eof

theorem EndsLast.endsAhead {c : Cursor} (h : c.EndsLast) : c.EndsAhead := by
  obtain ⟨l, hl, hend⟩ := h
  exact ⟨l, List.mem_of_getLast? hl, hend⟩

theorem EndsLast.advance {c : Cursor} (h : c.EndsLast) : c.advance.EndsLast := by
  obtain ⟨before, current, after, inCondition, inTypeOperand⟩ := c
  cases after with
  | nil => exact h
  | cons next rest => exact h

variable (f : Span → Span) (c : Cursor)

theorem nextToken_relocate : (c.relocate f).nextToken = c.nextToken := by
  obtain ⟨before, current, after, inCondition, inTypeOperand⟩ := c
  cases after <;> rfl

theorem previousSpan_relocate : (c.relocate f).previousSpan = f c.previousSpan := by
  obtain ⟨before, current, after, inCondition, inTypeOperand⟩ := c
  cases before <;> rfl

theorem advance_relocate : (c.relocate f).advance = c.advance.relocate f := by
  obtain ⟨before, current, after, inCondition, inTypeOperand⟩ := c
  cases after <;> rfl

theorem typeArgsFollow_relocate : (c.relocate f).typeArgsFollow = c.typeArgsFollow := by
  have hangles : ∀ (depth : Nat) (lexemes : List Lexeme),
      closesAngles depth (lexemes.map (Lexeme.relocate f)) = closesAngles depth lexemes := by
    intro depth lexemes
    induction lexemes generalizing depth with
    | nil => rfl
    | cons lexeme rest ih =>
      simp only [List.map_cons, closesAngles, Lexeme.token_relocate, ih]
  exact hangles 0 (c.current :: c.after)

theorem namedFunctionFollows_relocate :
    (c.relocate f).namedFunctionFollows = c.namedFunctionFollows := by
  obtain ⟨before, current, after, inCondition, inTypeOperand⟩ := c
  rcases after with _ | ⟨name, _ | ⟨opening, rest⟩⟩ <;> rfl

end Cursor

/-- A run on lexemes that end with the end token, and one on the moved lexemes. -/
def Pairing.relocation {f : Span → Span} (hf : Span.Keeps f) : Pairing where
  move := f
  keeps := hf
  Lossy := False
  Aligned _ c c' := c' = c.relocate f ∧ c.EndsLast
  Behind c c' := c' = c.relocate f ∧ c.EndsLast
  Over _ := False
  aligned_of_moved h := h
  behind_of_moved h := h
  aligned_or_over h := .inl h
  lossy_of_over := Pairing.lossless_of_never
  current_eq := by
    rintro _ c _ ⟨rfl, -⟩
    rfl
  inCondition_eq := by
    rintro _ c _ ⟨rfl, -⟩
    rfl
  inTypeOperand_eq := by
    rintro _ c _ ⟨rfl, -⟩
    rfl
  previousSpan_eq := by
    rintro c _ ⟨rfl, -⟩
    exact c.previousSpan_relocate f
  nextToken_eq := by
    rintro _ c _ ⟨rfl, -⟩ _
    exact c.nextToken_relocate f
  typeArgsFollow_eq := by
    rintro _ c _ ⟨rfl, -⟩
    exact c.typeArgsFollow_relocate f
  namedFunctionFollows_eq := by
    rintro _ c _ ⟨rfl, -⟩ _
    exact c.namedFunctionFollows_relocate f
  advance := by
    rintro _ c _ ⟨rfl, hend⟩ _
    exact ⟨c.advance_relocate f, hend.advance⟩
  advance_semi := by
    rintro _ c _ ⟨rfl, hend⟩ _
    exact ⟨c.advance_relocate f, hend.advance⟩
  inCondition := by
    rintro _ c _ mode ⟨rfl, hend⟩
    exact ⟨rfl, hend⟩
  inTypeOperand := by
    rintro _ c _ mode ⟨rfl, hend⟩
    exact ⟨rfl, hend⟩
  over_inCondition _ h := h
  endsAhead h := h.2.endsAhead
  ahead_le := by
    rintro _ c _ ⟨rfl, hend⟩
    rw [Cursor.relocate, List.length_map]
    exact hend.endsAhead.ahead_le

/-- Lexemes that end with the end token need no other one. -/
theorem Cursor.ofLexemes_concat {tokens : List Lexeme} {last : Lexeme} (hlast : last.token = .eof) :
    ofLexemes (tokens ++ [last]) =
      ⟨[], (tokens ++ [last]).head (by simp), (tokens ++ [last]).tail, false, false⟩ := by
  cases tokens with
  | nil => simp [ofLexemes, hlast]
  | cons first rest =>
    have hend : (first :: (rest ++ [last])).getLast (List.cons_ne_nil first _) = last :=
      List.getLast_concat (l := first :: rest)
    show ofLexemes (first :: (rest ++ [last])) = _
    simp [ofLexemes, hend, hlast]

theorem Cursor.rest_ofLexemes {tokens : List Lexeme} {last : Lexeme} (hlast : last.token = .eof) :
    (ofLexemes (tokens ++ [last])).rest = tokens ++ [last] := by
  rw [ofLexemes_concat hlast, rest, List.cons_head_tail]

theorem Cursor.endsLast_ofLexemes (tokens : List Lexeme) {last : Lexeme}
    (hlast : last.token = .eof) : (ofLexemes (tokens ++ [last])).EndsLast := by
  rw [EndsLast, rest_ofLexemes hlast]
  exact ⟨last, List.getLast?_concat, hlast⟩

theorem Cursor.ofLexemes_relocate (f : Span → Span) {tokens : List Lexeme} {last : Lexeme}
    (hlast : last.token = .eof) :
    ofLexemes ((tokens ++ [last]).map (Lexeme.relocate f)) =
      (ofLexemes (tokens ++ [last])).relocate f := by
  have hmoved : (last.relocate f).token = .eof := hlast
  rw [List.map_append, List.map_singleton, ofLexemes_concat hlast, ofLexemes_concat hmoved]
  cases tokens <;> simp [Cursor.relocate]

theorem Grammar.program_ofLexemes {tokens : List Lexeme} {last : Lexeme} {n : Nat}
    (hlast : last.token = .eof) (hn : (tokens ++ [last]).length < n) :
    (level ((tokens ++ [last]).length + 1)).program (Cursor.ofLexemes (tokens ++ [last])) =
      (level n).program (Cursor.ofLexemes (tokens ++ [last])) := by
  have hend := (Cursor.endsLast_ofLexemes tokens hlast).endsAhead
  have hahead := hend.ahead_le
  have hrest : (Cursor.ofLexemes (tokens ++ [last])).after.length + 1 = (tokens ++ [last]).length :=
    congrArg List.length (Cursor.rest_ofLexemes hlast)
  exact program_level hend (by omega) hn

theorem exists_program_of_parse {tokens : List Lexeme} {last : Lexeme} {n : Nat} {p : Program}
    (hlast : last.token = .eof) (hn : (tokens ++ [last]).length < n)
    (hp : parseProgram (tokens ++ [last]) = .ok p) :
    ∃ d, (Grammar.level n).program (Cursor.ofLexemes (tokens ++ [last])) = .ok p d := by
  unfold parseProgram runParser at hp
  rw [Grammar.program_ofLexemes hlast hn] at hp
  cases hrun : (Grammar.level n).program (Cursor.ofLexemes (tokens ++ [last])) with
  | ok q d =>
    rw [hrun] at hp
    cases hp
    exact ⟨d, rfl⟩
  | error e d =>
    rw [hrun] at hp
    cases hp

/-- What two runs have in common, the two programs have in common. -/
theorem parseProgram_of_outcome {P : Pairing} {B : Cursor → Cursor → Prop}
    {m : Program → Program} {tokens tokens' : List Lexeme} {last last' : Lexeme} {n : Nat}
    (hlossy : ¬ P.Lossy) (hlast : last.token = .eof) (hlast' : last'.token = .eof)
    (hn : (tokens ++ [last]).length < n) (hn' : (tokens' ++ [last']).length < n)
    (h : TokenParser.Outcome P B (TokenParser.Becomes m)
      ((Grammar.level n).program (Cursor.ofLexemes (tokens ++ [last])))
      ((Grammar.level n).program (Cursor.ofLexemes (tokens' ++ [last'])))) :
    parseProgram (tokens' ++ [last']) =
      ((parseProgram (tokens ++ [last])).map m).mapError (ParseError.relocate P.move) := by
  unfold parseProgram runParser
  rw [Grammar.program_ofLexemes hlast hn, Grammar.program_ofLexemes hlast' hn']
  revert h
  generalize (Grammar.level n).program (Cursor.ofLexemes (tokens ++ [last])) = r,
    (Grammar.level n).program (Cursor.ofLexemes (tokens' ++ [last'])) = r'
  intro h
  cases h with
  | @ok p q d d' h =>
    obtain rfl : q = m p := h
    rfl
  | error e d d' => rfl
  | lost h => exact absurd h hlossy

/-- Moved lexemes spell the moved program, or fail at the moved place. -/
theorem parseProgram_relocate {f : Span → Span} (hf : Span.Keeps f) {tokens : List Lexeme}
    {last : Lexeme} (hlast : last.token = .eof) :
    parseProgram ((tokens ++ [last]).map (Lexeme.relocate f)) =
      ((parseProgram (tokens ++ [last])).map (Program.relocate f)).mapError
        (ParseError.relocate f) := by
  let n := (tokens ++ [last]).length + 1
  have hcarries : TokenParser.Carries (Pairing.relocation hf) TokenParser.anyToken false _ _ _ _ :=
    Grammar.program_carries (fun _ => id) (Grammar.paired_level n)
  have hrun := hcarries (Cursor.ofLexemes (tokens ++ [last])) _ trivial
    ⟨rfl, Cursor.endsLast_ofLexemes tokens hlast⟩
  rw [← Cursor.ofLexemes_relocate f hlast] at hrun
  rw [List.map_append, List.map_singleton] at hrun ⊢
  have hmoved : (last.relocate f).token = .eof := hlast
  exact parseProgram_of_outcome id hlast hmoved (Nat.lt_succ_self _) (by simp) hrun

end ScriptCompiler
