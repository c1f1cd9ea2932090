import ScriptCompiler.Proofs.RelocatedParsing

/-!
# Code behind a semicolon

No parser looks past a semicolon before it consumes it. So what stands behind a semicolon does not
change how the code before it is read, and it is itself read as if nothing stood before it.
-/

namespace ScriptCompiler

open TokenParser

theorem Span.keeps_id : Span.Keeps id :=
  ⟨fun _ _ => rfl⟩

/-! ### A run that goes on behind a semicolon -/

section Continuation

variable {semi last next : Lexeme} {rest : List Lexeme} {c c' : Cursor}

/-- Two runs have the same lexemes up to the semicolon `semi`. Behind it there is only `last` in the
    first run, and `next` and `rest` in the second one. The cursors stand at the same lexeme, which
    is the semicolon or one before it. -/
inductive Cursor.Shares (semi last next : Lexeme) (rest : List Lexeme) :
    Cursor → Cursor → Prop where
  | within (before : List Lexeme) (current : Lexeme) (shared : List Lexeme)
    (inCondition inTypeOperand : Bool) (hcurrent : current.token ≠ .eof)
    (hshared : ∀ l ∈ shared, l.token ≠ .eof) :
    Shares semi last next rest
      ⟨before, current, shared ++ [semi, last], inCondition, inTypeOperand⟩
      ⟨before, current, shared ++ semi :: next :: rest, inCondition, inTypeOperand⟩
  | atSemi (before : List Lexeme) (inCondition inTypeOperand : Bool) :
    Shares semi last next rest ⟨before, semi, [last], inCondition, inTypeOperand⟩
      ⟨before, semi, next :: rest, inCondition, inTypeOperand⟩

/-- Both runs have consumed the semicolon, and no other lexeme is the same. -/
inductive Cursor.Parts (semi last next : Lexeme) (rest : List Lexeme) :
    Cursor → Cursor → Prop where
  | mk (before : List Lexeme) (inCondition inTypeOperand : Bool) :
    Parts semi last next rest ⟨semi :: before, last, [], inCondition, inTypeOperand⟩
      ⟨semi :: before, next, rest, inCondition, inTypeOperand⟩

/-- Type arguments do not reach over a semicolon. -/
theorem closesAngles_semi (hsemi : semi.token = .symbol .semi) (depth : Nat)
    (shared after after' : List Lexeme) :
    closesAngles depth (shared ++ semi :: after') =
      closesAngles depth (shared ++ semi :: after) := by
  induction shared generalizing depth with
  | nil => simp [closesAngles, hsemi, Token.isTypePart]
  | cons l shared ih => simp only [List.cons_append, closesAngles, ih]

namespace Cursor.Shares

theorem token_ne_eof (hsemi : semi.token = .symbol .semi) (h : Shares semi last next rest c c') :
    c.token ≠ .eof := by
  cases h with
  | within before current shared _ _ hcurrent => exact hcurrent
  | atSemi before =>
    rw [Cursor.token, hsemi]
    exact Token.noConfusion

/-- The next lexeme is shared too, unless the cursors stand at the last semicolon. -/
theorem advance (h : Shares semi last next rest c c') :
    Shares semi last next rest c.advance c'.advance ∨
      c.current = semi ∧ Parts semi last next rest c.advance c'.advance := by
  cases h with
  | within before current shared inCondition inTypeOperand hcurrent hshared =>
    cases shared with
    | nil => exact .inl (.atSemi (current :: before) inCondition inTypeOperand)
    | cons l shared =>
      obtain ⟨hl, hshared⟩ := List.forall_mem_cons.mp hshared
      exact .inl (.within (current :: before) l shared inCondition inTypeOperand hl hshared)
  | atSemi before inCondition inTypeOperand =>
    exact .inr ⟨rfl, .mk before inCondition inTypeOperand⟩

/-- Before the semicolon, the next token is shared. -/
theorem nextToken_eq (hsemi : semi.token = .symbol .semi) (h : Shares semi last next rest c c')
    (htoken : c.token ≠ .symbol .semi) : c'.nextToken = c.nextToken := by
  cases h with
  | within before current shared => cases shared <;> rfl
  | atSemi before => exact absurd hsemi htoken

/-- The semicolon is no name, and a parenthesis that opens parameters stands before it. -/
theorem namedFunctionFollows_eq (hsemi : semi.token = .symbol .semi)
    (h : Shares semi last next rest c c') (htoken : c.token ≠ .symbol .semi) :
    c'.namedFunctionFollows = c.namedFunctionFollows := by
  cases h with
  | within before current shared =>
    rcases shared with _ | ⟨name, _ | ⟨opening, shared⟩⟩
    · simp [Cursor.namedFunctionFollows, hsemi]
    · rfl
    · rfl
  | atSemi before => exact absurd hsemi htoken

theorem typeArgsFollow_eq (hsemi : semi.token = .symbol .semi)
    (h : Shares semi last next rest c c') : c'.typeArgsFollow = c.typeArgsFollow := by
  cases h with
  | within before current shared =>
    exact closesAngles_semi hsemi 0 (current :: shared) [last] (next :: rest)
  | atSemi before => exact closesAngles_semi hsemi 0 [] [last] (next :: rest)

theorem endsAhead (hlast : last.token = .eof) (h : Shares semi last next rest c c') :
    c.EndsAhead := by
  cases h with
  | within before current shared => exact ⟨last, by simp [Cursor.rest], hlast⟩
  | atSemi before => exact ⟨last, by simp [Cursor.rest], hlast⟩

theorem length_after_le (h : Shares semi last next rest c c') :
    c.after.length ≤ c'.after.length := by
  cases h with
  | within before current shared => simp
  | atSemi before => simp

end Cursor.Shares

/-- A run that ends behind a semicolon, and one that goes on there with other lexemes. -/
def Pairing.continuation (hsemi : semi.token = .symbol .semi) (hlast : last.token = .eof)
    (next : Lexeme) (rest : List Lexeme) : Pairing where
  move := id
  keeps := Span.keeps_id
  Lossy := True
  Aligned _ := Cursor.Shares semi last next rest
  Behind c c' := Cursor.Shares semi last next rest c c' ∨ Cursor.Parts semi last next rest c c'
  Over c := c.token = .eof
  aligned_of_moved h := h
  behind_of_moved h := .inl h
  aligned_or_over := by
    rintro c c' (h | h)
    · exact .inl h
    · cases h with
      | mk before => exact .inr hlast
  lossy_of_over h := ⟨trivial, h⟩
  current_eq h := by cases h <;> rfl
  inCondition_eq h := by cases h <;> rfl
  inTypeOperand_eq h := by cases h <;> rfl
  previousSpan_eq := by
    rintro c c' (h | h)
    · cases h <;> rfl
    · cases h with
      | mk before => rfl
  nextToken_eq h := h.nextToken_eq hsemi
  typeArgsFollow_eq h := h.typeArgsFollow_eq hsemi
  namedFunctionFollows_eq h := h.namedFunctionFollows_eq hsemi
  advance := by
    intro _ c c' h htoken
    rcases h.advance with h | ⟨hcurrent, -⟩
    · exact h
    · exact absurd ((congrArg Lexeme.token hcurrent).trans hsemi) htoken
  advance_semi h _ := h.advance.imp_right And.right
  inCondition mode h := by
    cases h with
    | within before current shared _ inTypeOperand hcurrent hshared =>
      exact .within before current shared mode inTypeOperand hcurrent hshared
    | atSemi before _ inTypeOperand => exact .atSemi before mode inTypeOperand
  inTypeOperand mode h := by
    cases h with
    | within before current shared inCondition _ hcurrent hshared =>
      exact .within before current shared inCondition mode hcurrent hshared
    | atSemi before inCondition => exact .atSemi before inCondition mode
  over_inCondition _ h := h
  endsAhead h := h.endsAhead hlast
  ahead_le h := Nat.le_trans (h.endsAhead hlast).ahead_le h.length_after_le

end Continuation

/-! ### A run on the lexemes behind others -/

/-- The cursors have the same lexemes to read, up to an end token. -/
structure Cursor.Resumes (c c' : Cursor) : Prop where
  eq_before : ∃ before, c' = { c with before := before }
  endsLast : c.EndsLast

theorem Cursor.Resumes.advance {c c' : Cursor} (h : c.Resumes c') :
    c.advance.Resumes c'.advance ∧ c'.advance.previousSpan = c.advance.previousSpan := by
  obtain ⟨⟨before, rfl⟩, hend⟩ := h
  have hend' := hend.advance
  obtain ⟨_, current, after, inCondition, inTypeOperand⟩ := c
  cases after with
  | nil => exact ⟨⟨⟨current :: before, rfl⟩, hend'⟩, rfl⟩
  | cons next rest => exact ⟨⟨⟨current :: before, rfl⟩, hend'⟩, rfl⟩

/-- A run on some lexemes, and one on the same lexemes behind others. -/
def Pairing.resumption : Pairing where
  move := id
  keeps := Span.keeps_id
  Lossy := False
  Aligned moved c c' := c.Resumes c' ∧ (moved = true → c'.previousSpan = c.previousSpan)
  Behind c c' := c.Resumes c' ∧ c'.previousSpan = c.previousSpan
  Over _ := False
  aligned_of_moved h := ⟨h.1, fun hfalse => Bool.noConfusion hfalse⟩
  behind_of_moved h := ⟨h.1, h.2 rfl⟩
  aligned_or_over h := .inl ⟨h.1, fun _ => h.2⟩
  lossy_of_over := Pairing.lossless_of_never
  current_eq := by
    rintro _ c _ ⟨⟨⟨before, rfl⟩, -⟩, -⟩
    rfl
  inCondition_eq := by
    rintro _ c _ ⟨⟨⟨before, rfl⟩, -⟩, -⟩
    rfl
  inTypeOperand_eq := by
    rintro _ c _ ⟨⟨⟨before, rfl⟩, -⟩, -⟩
    rfl
  previousSpan_eq h := h.2
  nextToken_eq := by
    rintro _ c _ ⟨⟨⟨before, rfl⟩, -⟩, -⟩ _
    rfl
  typeArgsFollow_eq := by
    rintro _ c _ ⟨⟨⟨before, rfl⟩, -⟩, -⟩
    rfl
  namedFunctionFollows_eq := by
    rintro _ c _ ⟨⟨⟨before, rfl⟩, -⟩, -⟩ _
    rfl
  advance h _ := h.1.advance.imp_right fun hprevious _ => hprevious
  advance_semi h _ := h.1.advance
  inCondition := by
    rintro _ c _ mode ⟨⟨⟨before, rfl⟩, hend⟩, hprevious⟩
    exact ⟨⟨⟨before, rfl⟩, hend⟩, hprevious⟩
  inTypeOperand := by
    rintro _ c _ mode ⟨⟨⟨before, rfl⟩, hend⟩, hprevious⟩
    exact ⟨⟨⟨before, rfl⟩, hend⟩, hprevious⟩
  over_inCondition _ h := h
  endsAhead h := h.1.endsLast.endsAhead
  ahead_le := by
    rintro _ c _ ⟨⟨⟨before, rfl⟩, hend⟩, -⟩
    exact hend.endsAhead.ahead_le

/-! ### Loops -/

section Loops

variable {α β : Type} {done : Token → Bool} {p : TokenParser α} {q : TokenParser β} {m : α → β}
  {P : Pairing} {c c' d : Cursor}

/-- A success of a parser that always consumes something leaves fewer lexemes ahead. -/
theorem TokenParser.ahead_lt_of_ok (hp : ∀ depth, InStep anyToken depth (fun _ => 1) p p)
    (hend : c.EndsAhead) {a : α} (hrun : p c = .ok a d) : d.EndsAhead ∧ d.ahead < c.ahead := by
  obtain ⟨-, consumed, hconsumes, hleast⟩ := hp (c.ahead + 1) c trivial hend (Nat.lt_succ_self _)
  rw [hrun] at hconsumes hleast
  have hahead : c.ahead = consumed.length + d.ahead := hconsumes.ahead_eq
  have hpos : 1 ≤ consumed.length := hleast a d rfl
  exact ⟨hconsumes.endsAhead hend, by omega⟩

theorem TokenParser.Carries.exists_ok {B : Cursor → Cursor → Prop}
    (hcarries : Carries P anyToken false B (Becomes m) p q) (haligned : P.Aligned false c c')
    {a : α} (hrun : p c = .ok a d) : ∃ d', q c' = .ok (m a) d' ∧ B d d' := by
  have hround := hcarries c c' trivial haligned
  rw [hrun] at hround
  generalize q c' = r at hround
  cases hround with
  | @ok _ b _ d' h hd =>
    obtain rfl : b = m a := h
    exact ⟨d', rfl, hd⟩

theorem TokenParser.many_stop (hc : done c.token = true) : many done p c = .ok [] c := by
  unfold many
  cases c.after with
  | nil => rfl
  | cons l bound => rw [manyWithin_cons, if_pos hc]

/-- A loop that does not stop here has a first round, and goes on behind it. -/
theorem TokenParser.many_eq_bind (hdone : done .eof = true)
    (hp : ∀ depth, InStep anyToken depth (fun _ => 1) p p) (hend : c.EndsAhead)
    (hc : done c.token = false) :
    many done p c = (p >>= fun a => many done p >>= fun as => pure (a :: as)) c := by
  have hahead : c.ahead ≠ 0 := by
    intro hzero
    rw [Cursor.ahead_eq_zero_iff.mp hzero, hdone] at hc
    exact Bool.noConfusion hc
  have hle := hend.ahead_le
  cases hafter : c.after with
  | nil =>
    rw [hafter] at hle
    exact absurd (Nat.le_zero.mp hle) hahead
  | cons l bound =>
    rw [many, hafter, manyWithin_cons, if_neg (ne_true_of_eq_false hc)]
    cases hfirst : p c with
    | error e d => rw [bind_of_error hfirst]
    | ok a d =>
      obtain ⟨hends, hlt⟩ := ahead_lt_of_ok hp hend hfirst
      have hbound : d.ahead ≤ bound.length := by
        rw [hafter, List.length_cons] at hle
        omega
      rw [bind_of_ok hfirst]
      dsimp only
      rw [manyWithin_eq_many hdone hp hends hbound]
      cases hothers : many done p d with
      | error e d' => rw [bind_of_error hothers]
      | ok as d' =>
        rw [bind_of_ok hothers]
        rfl

/-- If the loop of the first run comes to its end, that of the second run goes on where the first
    one has stopped. -/
theorem TokenParser.many_continues (hdone : done .eof = true)
    (hp : ∀ depth, InStep anyToken depth (fun _ => 1) p p)
    (hq : ∀ depth, InStep anyToken depth (fun _ => 1) q q)
    (hcarries : Carries P anyToken false P.Behind (Becomes m) p q) (hbehind : P.Behind c c')
    (hend' : c'.EndsAhead) {as : List α} (hrun : many done p c = .ok as d) :
    done d.token = true ∧ ∃ d', P.Behind d d' ∧
      many done q c' = (many done q >>= fun bs => pure (as.map m ++ bs)) d' := by
  induction hn : c.ahead using Nat.strongRecOn generalizing c c' as with
  | ind n ih =>
    cases hc : done c.token with
    | true =>
      rw [many_stop hc] at hrun
      cases hrun
      refine ⟨hc, c', hbehind, ?_⟩
      cases hmany : many done q c' with
      | ok bs f => exact (bind_of_ok hmany).symm
      | error e f => exact (bind_of_error hmany).symm
    | false =>
      -- The first run is not over, so both runs have the same round before them.
      have haligned : P.Aligned false c c' := by
        refine (P.aligned_or_over hbehind).resolve_right fun hover => ?_
        rw [(P.lossy_of_over hover).2, hdone] at hc
        exact Bool.noConfusion hc
      have hc' : done c'.token = false := by rw [Pairing.token_eq haligned, hc]
      rw [many_eq_bind hdone hp (P.endsAhead haligned) hc] at hrun
      obtain ⟨a, e, hfirst, hrun⟩ := exists_of_bind_ok hrun
      obtain ⟨as, e₁, hothers, hrun⟩ := exists_of_bind_ok hrun
      cases hrun
      obtain ⟨e', hfirst', he⟩ := hcarries.exists_ok haligned hfirst
      have hlt := (ahead_lt_of_ok hp (P.endsAhead haligned) hfirst).2
      have hends' := (ahead_lt_of_ok hq hend' hfirst').1
      obtain ⟨hd, d', hd', hmany⟩ := ih e.ahead (hn ▸ hlt) he hends' hothers rfl
      refine ⟨hd, d', hd', ?_⟩
      rw [many_eq_bind hdone hq hend' hc', bind_of_ok hfirst']
      cases hrest : many done q d' with
      | ok bs f =>
        rw [bind_of_ok hrest] at hmany ⊢
        exact bind_of_ok hmany
      | error cause f =>
        rw [bind_of_error hrest] at hmany ⊢
        exact bind_of_error hmany

end Loops

/-! ### Programs -/

section Append

variable {semi last next : Lexeme} {rest : List Lexeme} {g : Grammar} {c c' d e : Cursor}

/-- Behind the semicolon the second run goes on with the lexemes that follow there. The cursor `e`
    stands before the same lexemes, with nothing behind it. -/
theorem Grammar.program_continues (hsemi : semi.token = .symbol .semi) (hlast : last.token = .eof)
    (hg : g.Paired (Pairing.continuation hsemi hlast next rest))
    (hshares : Cursor.Shares semi last next rest c c') (hend' : c'.EndsAhead)
    (he : e = ⟨[], next, rest, c.inCondition, c.inTypeOperand⟩) {p : Program}
    (hrun : g.program c = .ok p d) :
    ∃ before, g.program c' = (g.program >>= fun q =>
      pure ⟨(p.relocate id).stmts ++ q.stmts⟩) { e with before := before } := by
  have hreads : InStep anyToken (c.ahead + 1) _ g.program g.program := program_inStep (hg.agree _)
  obtain ⟨-, consumed, hconsumes, -⟩ :=
    hreads c trivial (hshares.endsAhead hlast) (Nat.lt_succ_self _)
  rw [hrun] at hconsumes
  obtain ⟨stmts, d, hmany, hrun⟩ := exists_of_bind_ok hrun
  cases hrun
  have hcount := fun depth => (hg.agree depth).stmt
  obtain ⟨hd, d', hbehind, hmore⟩ :=
    many_continues rfl hcount hcount hg.stmt (.inl hshares) hend' hmany
  -- The first run has come to its end token, so the semicolon has been consumed.
  have hd : d.token = .eof := of_decide_eq_true hd
  obtain ⟨before, rfl⟩ : ∃ before, d' = { e with before := before } := by
    rcases hbehind with h | h
    · exact absurd hd (h.token_ne_eof hsemi)
    · cases h with
      | mk before inCondition inTypeOperand =>
        obtain rfl : inCondition = c.inCondition := hconsumes.inCondition_eq
        obtain rfl : inTypeOperand = c.inTypeOperand := hconsumes.inTypeOperand_eq
        exact ⟨semi :: before, by rw [he]⟩
  refine ⟨before, ?_⟩
  cases hloop : many (fun token => token = .eof) g.nestedStmt { e with before := before } with
  | ok others f =>
    have hothers : g.program { e with before := before } = .ok ⟨others⟩ f := bind_of_ok hloop
    rw [bind_of_ok hloop] at hmore
    rw [bind_of_ok hothers]
    exact bind_of_ok hmore
  | error cause f =>
    have hothers : g.program { e with before := before } = .error cause f := bind_of_error hloop
    rw [bind_of_error hloop] at hmore
    rw [bind_of_error hothers]
    exact bind_of_error hmore

/-- What is before the cursor plays no part in how a program is read. -/
theorem Grammar.program_resumes (hg : g.Paired Pairing.resumption) (hend : e.EndsLast)
    (before : List Lexeme) :
    Outcome Pairing.resumption (Pairing.resumption.Aligned false) (Becomes (Program.relocate id))
      (g.program e) (g.program { e with before := before }) := by
  have hcarries : Carries Pairing.resumption anyToken false _ _ g.program g.program :=
    program_carries (fun _ => id) hg
  exact hcarries e { e with before := before } trivial
    ⟨⟨⟨before, rfl⟩, hend⟩, fun hfalse => Bool.noConfusion hfalse⟩

/-- The program of the second run has the statements of the first one and then those that are read
    behind the semicolon. -/
theorem Grammar.program_append (hsemi : semi.token = .symbol .semi) (hlast : last.token = .eof)
    (hg : ∀ P, g.Paired P) (hshares : Cursor.Shares semi last next rest c c')
    (hend' : c'.EndsAhead) (he : e = ⟨[], next, rest, c.inCondition, c.inTypeOperand⟩)
    (hend : e.EndsLast) {p : Program} (hrun : g.program c = .ok p d) :
    Outcome Pairing.resumption (Pairing.resumption.Aligned false)
      (Becomes fun q => ⟨(p.relocate id).stmts ++ (q.relocate id).stmts⟩)
      (g.program e) (g.program c') := by
  obtain ⟨before, hprogram⟩ := program_continues hsemi hlast (hg _) hshares hend' he hrun
  have hrest := program_resumes (hg _) hend before
  rw [hprogram]
  generalize g.program e = r, hr' : g.program { e with before := before } = r' at hrest
  cases hrest with
  | @ok q q' f f' h hf =>
    obtain rfl : q' = q.relocate id := h
    rw [bind_of_ok hr']
    exact .ok rfl hf
  | error cause f f' =>
    rw [bind_of_error hr']
    exact .error cause f f'
  | lost h => exact h.elim

end Append

/-- A tree that a parser has built stays the same if nothing is moved: it is also built from the
    lexemes that are moved to where they are. -/
theorem parseProgram_relocate_id {tokens : List Lexeme} {last : Lexeme} {p : Program}
    (hlast : last.token = .eof) (hp : parseProgram (tokens ++ [last]) = .ok p) :
    p.relocate id = p := by
  have hmoved : parseProgram ((tokens ++ [last]).map (Lexeme.relocate id)) = _ :=
    parseProgram_relocate Span.keeps_id hlast
  have hid : (tokens ++ [last]).map (Lexeme.relocate id) = tokens ++ [last] := List.map_id _
  rw [hid, hp] at hmoved
  exact (Except.ok.inj hmoved).symm

theorem Cursor.ofLexemes_of_eq {tokens after : List Lexeme} {last first : Lexeme}
    (hlast : last.token = .eof) (h : tokens ++ [last] = first :: after) :
    ofLexemes (tokens ++ [last]) = ⟨[], first, after, false, false⟩ := by
  rw [ofLexemes_concat hlast]
  simp only [h, List.head_cons, List.tail_cons]

theorem Cursor.shares_ofLexemes {front tokens rest : List Lexeme} {semi last last' next : Lexeme}
    (hfront : ∀ l ∈ front, l.token ≠ .eof) (hlast : last.token = .eof) (hlast' : last'.token = .eof)
    (hmore : tokens ++ [last'] = next :: rest) :
    Shares semi last next rest (ofLexemes (front ++ [semi] ++ [last]))
      (ofLexemes (front ++ [semi] ++ tokens ++ [last'])) := by
  have hcode : front ++ [semi] ++ tokens ++ [last'] = front ++ semi :: next :: rest := by
    rw [List.append_assoc, hmore, List.append_assoc]
    rfl
  cases front with
  | nil =>
    rw [ofLexemes_of_eq hlast' hcode, ofLexemes_of_eq hlast rfl]
    exact .atSemi [] false false
  | cons l front =>
    have hcode₁ : l :: front ++ [semi] ++ [last] = l :: (front ++ [semi, last]) := by simp
    obtain ⟨hl, hfront⟩ := List.forall_mem_cons.mp hfront
    rw [ofLexemes_of_eq hlast' hcode, ofLexemes_of_eq hlast hcode₁]
    exact .within [] l front false false hl hfront

/-- The code behind a semicolon does not change how the code before it is read. The statements of
    both follow one another, and a failure is the one of the later code. -/
theorem parseProgram_append {code more : List Lexeme} {last : Lexeme} {p : Program}
    (hcode : ∀ l ∈ code, l.token ≠ .eof) (hsemi : ∃ l ∈ code.getLast?, l.token = .symbol .semi)
    (hlast : last.token = .eof) (hmore : ∃ l ∈ more.getLast?, l.token = .eof)
    (hp : parseProgram (code ++ [last]) = .ok p) :
    parseProgram (code ++ more) = (parseProgram more).map fun q => ⟨p.stmts ++ q.stmts⟩ := by
  obtain ⟨semi, hcodeLast, hsemi⟩ := hsemi
  obtain ⟨front, rfl⟩ := List.getLast?_eq_some_iff.mp hcodeLast
  obtain ⟨last', hmoreLast, hlast'⟩ := hmore
  obtain ⟨tokens, rfl⟩ := List.getLast?_eq_some_iff.mp hmoreLast
  obtain ⟨next, rest, hmore⟩ := List.exists_cons_of_ne_nil (List.concat_ne_nil last' tokens)
  have hfront : ∀ l ∈ front, l.token ≠ .eof := fun l hl => hcode l (List.mem_append_left _ hl)
  have hshares : Cursor.Shares semi last next rest _ _ :=
    Cursor.shares_ofLexemes hfront hlast hlast' hmore
  rw [← List.append_assoc]
  let n := (front ++ [semi] ++ tokens ++ [last']).length + 1
  have hn : (front ++ [semi] ++ [last]).length < n ∧ (tokens ++ [last']).length < n := by
    simp only [n, List.length_append, List.length_singleton]
    omega
  have hfirst : Cursor.ofLexemes (tokens ++ [last']) = ⟨[], next, rest,
      (Cursor.ofLexemes (front ++ [semi] ++ [last])).inCondition,
      (Cursor.ofLexemes (front ++ [semi] ++ [last])).inTypeOperand⟩ := by
    rw [Cursor.ofLexemes_of_eq hlast' hmore, Cursor.ofLexemes_concat hlast]
  obtain ⟨d, hrun⟩ := exists_program_of_parse hlast hn.1 hp
  have hrest := Grammar.program_append hsemi hlast (fun _ => Grammar.paired_level n) hshares
    (Cursor.endsLast_ofLexemes _ hlast').endsAhead hfirst (Cursor.endsLast_ofLexemes _ hlast') hrun
  rw [parseProgram_of_outcome id hlast' hlast' hn.2 (Nat.lt_succ_self _) hrest]
  cases hq : parseProgram (tokens ++ [last']) with
  | ok q =>
    show Except.ok (Program.mk ((p.relocate id).stmts ++ (q.relocate id).stmts)) = _
    rw [parseProgram_relocate_id hlast hp, parseProgram_relocate_id hlast' hq]
    rfl
  | error e => rfl

def closedConditional : List Lexeme :=
  [⟨.keyword .ifKw, "if", ⟨0, 0, 2, 1, 1⟩⟩, ⟨.ident "a", "a", ⟨0, 3, 4, 1, 4⟩⟩,
    ⟨.symbol .lbrace, "\x7b", ⟨0, 5, 6, 1, 6⟩⟩, ⟨.symbol .rbrace, "\x7d", ⟨0, 6, 7, 1, 7⟩⟩,
    ⟨.symbol .semi, ";", ⟨0, 7, 8, 1, 8⟩⟩]

/-- The code `else {}`, which continues no conditional behind a semicolon. -/
def strayElse : List Lexeme :=
  [⟨.keyword .elseKw, "else", ⟨0, 9, 13, 1, 10⟩⟩, ⟨.symbol .lbrace, "\x7b", ⟨0, 14, 15, 1, 15⟩⟩,
    ⟨.symbol .rbrace, "\x7d", ⟨0, 15, 16, 1, 16⟩⟩, ⟨.eof, "", ⟨0, 16, 16, 1, 17⟩⟩]

theorem parseProgram_strayElse :
    (∃ p, parseProgram (closedConditional ++ [⟨.eof, "", Span.zero⟩]) = .ok p) ∧
      parseProgram (closedConditional ++ strayElse) =
        .error ⟨.expectedExpression (.keyword .elseKw), ⟨0, 9, 13, 1, 10⟩⟩ := by
  have hparse : ∃ p, parseProgram (closedConditional ++ [⟨.eof, "", Span.zero⟩]) = .ok p :=
    ⟨_, rfl⟩
  refine ⟨hparse, ?_⟩
  obtain ⟨p, hp⟩ := hparse
  rw [parseProgram_append (by decide) ⟨_, rfl, rfl⟩ rfl ⟨_, rfl, rfl⟩ hp]
  rfl

end ScriptCompiler
