import ScriptCompiler.Proofs.Consumption
import ScriptCompiler.Proofs.Relocation

/-!
# Two runs of a parser side by side

A pairing says when the cursors of two runs see the same. The lexemes of the second run may stand
at other places, other lexemes may come before them, and behind a last semicolon the two runs may go
on differently. As long as the cursors see the same, the two runs do the same. The rules follow the
way parsers are put together.

The two runs may repeat a step in different bounds. The first run does not depend on its bound, so
it is given that of the second one.
-/

namespace ScriptCompiler

/-- Two runs of a parser, and when their cursors see the same. -/
structure Pairing where
  /-- The places in the second run of what stands somewhere in the first one. -/
  move : Span → Span
  keeps : Span.Keeps move
  /-- If the first run fails, nothing is said about the second one. -/
  Lossy : Prop
  /-- Both runs stand before the same lexemes, up to the last semicolon. If the mark is set, they
      also stand behind the same lexeme. -/
  Aligned : (moved : Bool) → Cursor → Cursor → Prop
  /-- Both runs stand behind the same lexeme, which may be the last semicolon. -/
  Behind : Cursor → Cursor → Prop
  /-- The first run stands behind the last semicolon and has come to its end. -/
  Over : Cursor → Prop
  aligned_of_moved : ∀ {c c'}, Aligned true c c' → Aligned false c c'
  behind_of_moved : ∀ {c c'}, Aligned true c c' → Behind c c'
  aligned_or_over : ∀ {c c'}, Behind c c' → Aligned false c c' ∨ Over c
  lossy_of_over : ∀ {c}, Over c → Lossy ∧ c.token = .eof
  current_eq : ∀ {moved c c'}, Aligned moved c c' → c'.current = c.current.relocate move
  inCondition_eq : ∀ {moved c c'}, Aligned moved c c' → c'.inCondition = c.inCondition
  inTypeOperand_eq : ∀ {moved c c'}, Aligned moved c c' → c'.inTypeOperand = c.inTypeOperand
  previousSpan_eq : ∀ {c c'}, Behind c c' → c'.previousSpan = move c.previousSpan
  nextToken_eq : ∀ {moved c c'}, Aligned moved c c' → c.token ≠ .symbol .semi →
    c'.nextToken = c.nextToken
  typeArgsFollow_eq : ∀ {moved c c'}, Aligned moved c c' → c'.typeArgsFollow = c.typeArgsFollow
  namedFunctionFollows_eq : ∀ {moved c c'}, Aligned moved c c' → c.token ≠ .symbol .semi →
    c'.namedFunctionFollows = c.namedFunctionFollows
  advance : ∀ {moved c c'}, Aligned moved c c' → c.token ≠ .symbol .semi →
    Aligned true c.advance c'.advance
  advance_semi : ∀ {moved c c'}, Aligned moved c c' → c.token = .symbol .semi →
    Behind c.advance c'.advance
  inCondition : ∀ {moved c c'} (mode : Bool), Aligned moved c c' →
    Aligned moved { c with inCondition := mode } { c' with inCondition := mode }
  inTypeOperand : ∀ {moved c c'} (mode : Bool), Aligned moved c c' →
    Aligned moved { c with inTypeOperand := mode } { c' with inTypeOperand := mode }
  over_inCondition : ∀ {c} (mode : Bool), Over c → Over { c with inCondition := mode }
  endsAhead : ∀ {moved c c'}, Aligned moved c c' → c.EndsAhead
  ahead_le : ∀ {moved c c'}, Aligned moved c c' → c.ahead ≤ c'.after.length

namespace Pairing

/-- If the first run is never over, nothing is lost. -/
theorem lossless_of_never {c : Cursor} (h : False) : False ∧ c.token = .eof :=
  h.elim

variable {P : Pairing} {moved : Bool} {c c' : Cursor}

theorem token_eq (h : P.Aligned moved c c') : c'.token = c.token := by
  rw [Cursor.token, P.current_eq h]
  rfl

theorem span_eq (h : P.Aligned moved c c') : c'.current.span = P.move c.current.span := by
  rw [P.current_eq h]
  rfl

theorem text_eq (h : P.Aligned moved c c') : c'.current.text = c.current.text := by
  rw [P.current_eq h]
  rfl

/-- What is known after a lexeme has been consumed is more than what was known before. -/
theorem aligned_mono (h : P.Aligned true c c') : P.Aligned moved c c' := by
  cases moved with
  | false => exact P.aligned_of_moved h
  | true => exact h

theorem aligned_unmoved (h : P.Aligned moved c c') : P.Aligned false c c' := by
  cases moved with
  | false => exact h
  | true => exact P.aligned_of_moved h

end Pairing

namespace TokenParser

variable {α β γ δ : Type} {P : Pairing} {moved moved' : Bool} {start : Token → Prop}
  {B : Cursor → Cursor → Prop}

section Bind

variable {p : TokenParser α} {k : α → TokenParser β} {c d : Cursor}

theorem bind_of_ok {a : α} (h : p c = .ok a d) : (p >>= k) c = k a d := by
  show EStateM.bind p k c = _
  rw [EStateM.bind, h]

theorem bind_of_error {e : ParseError} (h : p c = .error e d) : (p >>= k) c = .error e d := by
  show EStateM.bind p k c = _
  rw [EStateM.bind, h]

theorem exists_of_bind_ok {b : β} (h : (p >>= k) c = .ok b d) :
    ∃ a e, p c = .ok a e ∧ k a e = .ok b d := by
  cases hp : p c with
  | ok a e =>
    rw [bind_of_ok hp] at h
    exact ⟨a, e, rfl, h⟩
  | error e d' =>
    rw [bind_of_error hp] at h
    cases h

theorem peek_bind (k : Token → TokenParser β) (c : Cursor) : (peek >>= k) c = k c.token c :=
  bind_of_ok rfl

end Bind

abbrev notSemi : Token → Prop := fun token => token ≠ .symbol .semi

/-- The results are related by `R` and the cursors by `B`, or both runs fail for the same reason. -/
inductive Outcome (P : Pairing) (B : Cursor → Cursor → Prop) (R : α → β → Prop) :
    EStateM.Result ParseError Cursor α → EStateM.Result ParseError Cursor β → Prop where
  | ok {a : α} {b : β} {d d' : Cursor} (h : R a b) (hd : B d d') :
    Outcome P B R (.ok a d) (.ok b d')
  | error (e : ParseError) (d d' : Cursor) :
    Outcome P B R (.error e d) (.error (e.relocate P.move) d')
  | lost (h : P.Lossy) (e : ParseError) (d : Cursor)
    (r : EStateM.Result ParseError Cursor β) : Outcome P B R (.error e d) r

/-- Where the two runs see the same and the token satisfies `start`, the parsers `p` and `q` do the
    same in the first and in the second run. Their results are related by `R` and the cursors behind
    them by `B`. -/
def Carries (P : Pairing) (start : Token → Prop) (moved : Bool) (B : Cursor → Cursor → Prop)
    (R : α → β → Prop) (p : TokenParser α) (q : TokenParser β) : Prop :=
  ∀ c c' : Cursor, start c.token → P.Aligned moved c c' → Outcome P B R (p c) (q c')

/-- The second of two results is the image of the first. -/
def Becomes (m : α → β) (a : α) (b : β) : Prop :=
  b = m a

namespace Carries

variable {R : α → β → Prop} {S : γ → δ → Prop} {p p' : TokenParser α} {q q' : TokenParser β}

theorem anywhere (h : Carries P anyToken moved B R p q) : Carries P start moved B R p q :=
  fun c c' _ => h c c' trivial

theorem atToken {token : Token} (h : Carries P notSemi moved B R p q)
    (htoken : token ≠ .symbol .semi) : Carries P (fun t => t = token) moved B R p q :=
  fun c c' hc => h c c' (hc ▸ htoken)

/-- Nothing is said about a semicolon that may have been consumed. -/
theorem behind (h : Carries P start moved (P.Aligned true) R p q) :
    Carries P start moved P.Behind R p q := by
  intro c c' hc haligned
  have hrun := h c c' hc haligned
  revert hrun
  generalize p c = r, q c' = r'
  intro hrun
  cases hrun with
  | ok h hd => exact .ok h (P.behind_of_moved hd)
  | error e d d' => exact .error e d d'
  | lost h e d => exact .lost h e d r'

theorem pure {a : α} {b : β} (h : R a b) :
    Carries P start moved (P.Aligned moved) R (pure a) (pure b) :=
  fun _ _ _ haligned => .ok h haligned

theorem bind {k : α → TokenParser γ} {k' : β → TokenParser δ}
    (hp : Carries P start moved (P.Aligned moved') R p q)
    (hk : ∀ a b, R a b → Carries P anyToken moved' B S (k a) (k' b)) :
    Carries P start moved B S (p >>= k) (q >>= k') := by
  intro c c' hc haligned
  have hrun := hp c c' hc haligned
  show Outcome P B S (EStateM.bind p k c) (EStateM.bind q k' c')
  unfold EStateM.bind
  revert hrun
  generalize p c = r, q c' = r'
  intro hrun
  cases hrun with
  | ok h hd => exact hk _ _ h _ _ trivial hd
  | error e d d' => exact .error e d d'
  | lost h e d => exact .lost h e d _

theorem same {p : TokenParser α} {k : α → TokenParser γ} {k' : α → TokenParser δ}
    (hp : Carries P start moved (P.Aligned moved') Eq p p)
    (hk : ∀ a, Carries P anyToken moved' B S (k a) (k' a)) :
    Carries P start moved B S (p >>= k) (p >>= k') := by
  refine hp.bind fun a b h => ?_
  subst h
  exact hk a

theorem next {m : α → β} {k : α → TokenParser γ} {k' : β → TokenParser δ}
    (hp : Carries P start moved (P.Aligned moved') (Becomes m) p q)
    (hk : ∀ a, Carries P anyToken moved' B S (k a) (k' (m a))) :
    Carries P start moved B S (p >>= k) (q >>= k') := by
  refine hp.bind fun a b h => ?_
  obtain rfl : b = m a := h
  exact hk a

theorem map {g : α → γ} {g' : β → δ} (hp : Carries P start moved B R p q)
    (hg : ∀ a b, R a b → S (g a) (g' b)) : Carries P start moved B S (g <$> p) (g' <$> q) := by
  intro c c' hc haligned
  have hrun := hp c c' hc haligned
  show Outcome P B S (EStateM.map g p c) (EStateM.map g' q c')
  unfold EStateM.map
  revert hrun
  generalize p c = r, q c' = r'
  intro hrun
  cases hrun with
  | ok h hd => exact .ok (hg _ _ h) hd
  | error e d d' => exact .error e d d'
  | lost h e d => exact .lost h e d _

theorem ite {t : Prop} [Decidable t] (hp : Carries P start moved B R p q)
    (hp' : Carries P start moved B R p' q') :
    Carries P start moved B R (if t then p else p') (if t then q else q') := by
  split
  · exact hp
  · exact hp'

/-! ### Looking at the cursor -/

theorem peek {k : Token → TokenParser α} {k' : Token → TokenParser β}
    (h : ∀ token, Carries P (fun t => t = token) moved B R (k token) (k' token)) :
    Carries P start moved B R (TokenParser.peek >>= k) (TokenParser.peek >>= k') := by
  intro c c' _ haligned
  show Outcome P B R (k c.token c) (k' c'.token c')
  rw [Pairing.token_eq haligned]
  exact h c.token c c' rfl haligned

/-- Behind the last semicolon the next tokens differ. -/
theorem peekNext {k : Token → TokenParser α} {k' : Token → TokenParser β}
    (h : ∀ token, Carries P notSemi moved B R (k token) (k' token)) :
    Carries P notSemi moved B R (TokenParser.peekNext >>= k) (TokenParser.peekNext >>= k') := by
  intro c c' hc haligned
  show Outcome P B R (k c.nextToken c) (k' c'.nextToken c')
  rw [P.nextToken_eq haligned hc]
  exact h c.nextToken c c' hc haligned

theorem here {k : Span → TokenParser α} {k' : Span → TokenParser β}
    (h : ∀ span, Carries P start moved B R (k span) (k' (P.move span))) :
    Carries P start moved B R (TokenParser.here >>= k) (TokenParser.here >>= k') := by
  intro c c' hc haligned
  show Outcome P B R (k c.current.span c) (k' c'.current.span c')
  rw [Pairing.span_eq haligned]
  exact h c.current.span c c' hc haligned

/-- Only after a lexeme has been consumed, the two runs are known to stand behind the same one. -/
theorem previous : Carries P start true (P.Aligned true) (Becomes P.move) previous previous :=
  fun _ _ _ haligned => .ok (P.previousSpan_eq (P.behind_of_moved haligned)) haligned

/-- Where the token is seen, the first parser goes on with it at the cursor. -/
theorem ifSees {token : Token} (hyes : Carries P (fun t => t = token) moved B R p q)
    (hno : Carries P start moved B R p' q') :
    Carries P start moved B R (sees token >>= fun seen => if seen then p else p')
      (sees token >>= fun seen => if seen then q else q') := by
  intro c c' hc haligned
  show Outcome P B R ((if decide (c.token = token) then p else p') c)
    ((if decide (c'.token = token) then q else q') c')
  rw [Pairing.token_eq haligned]
  by_cases htoken : c.token = token
  · rw [decide_eq_true htoken]
    exact hyes c c' htoken haligned
  · rw [decide_eq_false htoken]
    exact hno c c' hc haligned

/-! ### Consuming lexemes and failing -/

theorem advance :
    Carries P notSemi moved (P.Aligned true) (Becomes (Lexeme.relocate P.move)) advance advance :=
  fun _ _ hc haligned => .ok (P.current_eq haligned) (P.advance haligned hc)

theorem advanceOver {token : Token} (htoken : token ≠ .symbol .semi) :
    Carries P (fun t => t = token) moved (P.Aligned true) (Becomes (Lexeme.relocate P.move))
      TokenParser.advance TokenParser.advance :=
  advance.atToken htoken

theorem failAt {span : Span} {cause : ParseCause} :
    Carries P start moved B R (failAt span cause) (failAt (P.move span) cause) :=
  fun c c' _ _ => .error ⟨cause, span⟩ c c'

theorem failHere {cause : Token → ParseCause} :
    Carries P start moved B R (failHere cause) (failHere cause) := by
  intro c c' _ haligned
  show Outcome P B R (.error ⟨cause c.token, c.current.span⟩ c)
    (.error ⟨cause c'.token, c'.current.span⟩ c')
  rw [Pairing.token_eq haligned, Pairing.span_eq haligned]
  exact .error ⟨cause c.token, c.current.span⟩ c c'

theorem expect {token : Token} (htoken : token ≠ .symbol .semi) :
    Carries P start moved (P.Aligned true) (Becomes (Lexeme.relocate P.move)) (expect token)
      (expect token) := by
  intro c c' _ haligned
  unfold TokenParser.expect
  rw [Pairing.token_eq haligned, Pairing.span_eq haligned]
  split
  · next heq => exact .ok (P.current_eq haligned) (P.advance haligned (heq ▸ htoken))
  · exact .error ⟨.expectedToken token c.token, c.current.span⟩ c c'

theorem ident :
    Carries P start moved (P.Aligned true) (Becomes (Ident.relocate P.move)) TokenParser.ident
      TokenParser.ident := by
  intro c c' _ haligned
  unfold TokenParser.ident
  rw [Pairing.token_eq haligned, Pairing.span_eq haligned]
  split
  · next heq => exact .ok rfl (P.advance haligned (heq ▸ Token.noConfusion))
  · exact .error ⟨.expectedIdentifier _, c.current.span⟩ c c'

theorem memberName :
    Carries P start moved (P.Aligned true) (Becomes (Ident.relocate P.move)) memberName
      memberName := by
  intro c c' _ haligned
  unfold TokenParser.memberName
  rw [Pairing.token_eq haligned, Pairing.span_eq haligned, Pairing.text_eq haligned]
  split
  · next heq => exact .ok rfl (P.advance haligned (heq ▸ Token.noConfusion))
  · next heq => exact .ok rfl (P.advance haligned (heq ▸ Token.noConfusion))
  · exact .error ⟨.expectedMemberName _, c.current.span⟩ c c'

/-- If the token is there, the first parser goes on behind it. -/
theorem ifEat {token : Token} (htoken : token ≠ .symbol .semi)
    (hyes : Carries P anyToken true B R p q) (hno : Carries P anyToken moved B R p' q') :
    Carries P start moved B R (eat token >>= fun eaten => if eaten then p else p')
      (eat token >>= fun eaten => if eaten then q else q') := by
  intro c c' _ haligned
  show Outcome P B R (EStateM.bind (eat token) _ c) (EStateM.bind (eat token) _ c')
  unfold EStateM.bind TokenParser.eat
  rw [Pairing.token_eq haligned]
  by_cases heq : c.token = token
  · rw [if_pos heq, if_pos heq]
    exact hyes _ _ trivial (P.advance haligned (heq ▸ htoken))
  · rw [if_neg heq, if_neg heq]
    exact hno _ _ trivial haligned

theorem eat {token : Token} (htoken : token ≠ .symbol .semi) :
    Carries P start moved (P.Aligned moved) Eq (eat token) (eat token) := by
  intro c c' _ haligned
  unfold TokenParser.eat
  rw [Pairing.token_eq haligned]
  split
  · next heq => exact .ok rfl (Pairing.aligned_mono (P.advance haligned (heq ▸ htoken)))
  · exact .ok rfl haligned

theorem eatSemi :
    Carries P start true P.Behind Eq (TokenParser.eat (.symbol .semi))
      (TokenParser.eat (.symbol .semi)) := by
  intro c c' _ haligned
  unfold TokenParser.eat
  rw [Pairing.token_eq haligned]
  split
  · next heq => exact .ok rfl (P.advance_semi haligned heq)
  · exact .ok rfl (P.behind_of_moved haligned)

/-- Behind the last semicolon, the two runs can still give a result. -/
theorem result {g : α → γ} {g' : β → δ} (hp : Carries P start moved B R p q)
    (hg : ∀ a b, R a b → S (g a) (g' b)) :
    Carries P start moved B S (p >>= fun a => Pure.pure (g a)) (q >>= fun b => Pure.pure (g' b)) :=
  hp.map hg

/-- Behind the last semicolon, the two runs can still tell the place of the semicolon. -/
theorem placed {g : α → Span → γ} {g' : β → Span → δ} (hp : Carries P start moved P.Behind R p q)
    (hg : ∀ a b span, R a b → S (g a span) (g' b (P.move span))) :
    Carries P start moved P.Behind S
      (p >>= fun a => TokenParser.previous >>= fun span => Pure.pure (g a span))
      (q >>= fun b => TokenParser.previous >>= fun span => Pure.pure (g' b span)) := by
  intro c c' hc haligned
  have hrun := hp c c' hc haligned
  show Outcome P _ S (EStateM.bind p _ c) (EStateM.bind q _ c')
  unfold EStateM.bind
  revert hrun
  generalize p c = r, q c' = r'
  intro hrun
  cases hrun with
  | @ok a b d d' h hd =>
    show Outcome P _ S (.ok (g a d.previousSpan) d) (.ok (g' b d'.previousSpan) d')
    rw [P.previousSpan_eq hd]
    exact .ok (hg a b _ h) hd
  | error e d d' => exact .error e d d'
  | lost h e d => exact .lost h e d _

/-! ### Modes -/

theorem withCondition {mode : Bool} (hp : Carries P start moved (P.Aligned moved') R p q) :
    Carries P start moved (P.Aligned moved') R (withCondition mode p) (withCondition mode q) := by
  intro c c' hc haligned
  have hrun := hp { c with inCondition := mode } { c' with inCondition := mode } hc
    (P.inCondition mode haligned)
  unfold TokenParser.withCondition
  rw [P.inCondition_eq haligned]
  revert hrun
  generalize p _ = r, q _ = r'
  intro hrun
  cases hrun with
  | ok h hd => exact .ok h (P.inCondition c.inCondition hd)
  | error e d d' => exact .error e _ _
  | lost h e d => exact .lost h e _ _

theorem withTypeOperand (hp : Carries P start moved (P.Aligned moved') R p q) :
    Carries P start moved (P.Aligned moved') R (withTypeOperand p) (withTypeOperand q) := by
  intro c c' hc haligned
  have hrun := hp { c with inTypeOperand := true } { c' with inTypeOperand := true } hc
    (P.inTypeOperand true haligned)
  unfold TokenParser.withTypeOperand
  rw [P.inTypeOperand_eq haligned]
  revert hrun
  generalize p _ = r, q _ = r'
  intro hrun
  cases hrun with
  | ok h hd => exact .ok h (P.inTypeOperand c.inTypeOperand hd)
  | error e d d' => exact .error e _ _
  | lost h e d => exact .lost h e _ _

/-! ### Repetition -/

variable {m : α → β}

theorem optionally {token : Token} (htoken : token ≠ .symbol .semi)
    (hp : Carries P anyToken true (P.Aligned true) (Becomes m) p q) :
    Carries P start true (P.Aligned true) (Becomes (Option.map m)) (optionally token p)
      (optionally token q) :=
  ifEat htoken (hp.next fun _ => .pure rfl) (.pure rfl)

theorem iterateWithin {step : α → TokenParser (Option α)} {step' : β → TokenParser (Option β)}
    (hstep : ∀ a, Carries P anyToken true (P.Aligned true) (Becomes (Option.map m)) (step a)
      (step' (m a))) (bound : List Lexeme) (a : α) :
    Carries P start true (P.Aligned true) (Becomes m) (iterateWithin step bound a)
      (iterateWithin step' bound (m a)) := by
  induction bound generalizing a start with
  | nil => exact .pure rfl
  | cons _ bound ih =>
    refine (hstep a).anywhere.next fun result => ?_
    cases result with
    | none => exact .pure rfl
    | some b => exact ih b

/-- A repeated step that has no result at the end token, and else consumes something. -/
theorem iterate {step : α → TokenParser (Option α)} {step' : β → TokenParser (Option β)}
    (hend : ∀ a, EndsWith none (step a))
    (hcount : ∀ depth a, InStep anyToken depth (fun next => next.isSome.toNat) (step a) (step a))
    (hstep : ∀ a, Carries P anyToken true (P.Aligned true) (Becomes (Option.map m)) (step a)
      (step' (m a))) (a : α) :
    Carries P start true (P.Aligned true) (Becomes m) (iterate step a) (iterate step' (m a)) := by
  intro c c' hc haligned
  have hends := P.endsAhead haligned
  have hbound : TokenParser.iterate step a c = TokenParser.iterateWithin step c'.after a c :=
    (InStep.iterateWithin hend hend (hcount (c.ahead + 1)) (Nat.succ_le_succ hends.ahead_le)
      (Nat.succ_le_succ (P.ahead_le haligned)) a c hc hends (Nat.lt_succ_self _)).1
  rw [hbound]
  exact iterateWithin hstep c'.after a c c' hc haligned

theorem itemsWithin {close : Token} (hp : Carries P anyToken true (P.Aligned true) (Becomes m) p q)
    (bound : List Lexeme) :
    Carries P start true (P.Aligned true) (Becomes (List.map m)) (itemsWithin close p bound)
      (itemsWithin close q bound) := by
  induction bound generalizing start with
  | nil => exact .pure rfl
  | cons _ bound ih =>
    refine .ifEat (by decide) (.ifSees (.pure rfl) ?_) (.pure rfl)
    exact hp.next fun first => ih.next fun rest => .pure rfl

theorem items {close : Token} {least : α → Nat}
    (hcount : ∀ depth, InStep anyToken depth least p p)
    (hp : Carries P anyToken true (P.Aligned true) (Becomes m) p q) :
    Carries P start true (P.Aligned true) (Becomes (List.map m)) (items close p)
      (items close q) := by
  intro c c' hc haligned
  have hends := P.endsAhead haligned
  have hbound : TokenParser.items close p c = TokenParser.itemsWithin close p c'.after c :=
    (InStep.itemsWithin (hcount (c.ahead + 1)) (Nat.succ_le_succ hends.ahead_le)
      (Nat.succ_le_succ (P.ahead_le haligned)) c hc hends (Nat.lt_succ_self _)).1
  rw [hbound]
  exact itemsWithin hp c'.after c c' hc haligned

theorem delimited {close : Token} {least : α → Nat} (hclose : close ≠ .symbol .semi)
    (hcount : ∀ depth, InStep anyToken depth least p p)
    (hp : Carries P anyToken true (P.Aligned true) (Becomes m) p q) :
    Carries P start true (P.Aligned true) (Becomes (List.map m)) (delimited close p)
      (delimited close q) := by
  have hcontents : Carries P start true (P.Aligned true) (Becomes (List.map m))
      (TokenParser.sees close >>= fun seen => if seen then Pure.pure [] else
        p >>= fun first => TokenParser.items close p >>= fun rest => Pure.pure (first :: rest))
      (TokenParser.sees close >>= fun seen => if seen then Pure.pure [] else
        q >>= fun first => TokenParser.items close q >>= fun rest => Pure.pure (first :: rest)) :=
    .ifSees (.pure rfl) (hp.anywhere.next fun first => (items hcount hp).next fun rest => .pure rfl)
  exact .withCondition (hcontents.next fun contents => (expect hclose).next fun _ => .pure rfl)

end Carries

/-- Any bound that is long enough may be given to a loop. -/
theorem manyWithin_eq_many {done : Token → Bool} {p : TokenParser α} {c : Cursor}
    {bound : List Lexeme} (hdone : done .eof = true)
    (hp : ∀ depth, InStep anyToken depth (fun _ => 1) p p) (hend : c.EndsAhead)
    (hbound : c.ahead ≤ bound.length) : manyWithin done p bound c = many done p c := by
  have hloop : InStep anyToken (c.ahead + 1) _ (manyWithin done p bound)
      (manyWithin done p c.after) :=
    .manyWithin hdone (hp _) (Nat.succ_le_succ hbound) (Nat.succ_le_succ hend.ahead_le)
  exact (hloop c trivial hend (Nat.lt_succ_self _)).1

theorem manyWithin_cons (done : Token → Bool) (p : TokenParser α) (l : Lexeme)
    (bound : List Lexeme) (c : Cursor) :
    manyWithin done p (l :: bound) c =
      if done c.token then .ok [] c
      else
        match p c with
        | .error e d => .error e d
        | .ok a d =>
          match manyWithin done p bound d with
          | .error e d' => .error e d'
          | .ok rest d' => .ok (a :: rest) d' := by
  show (if done c.token then _ else _ : TokenParser (List α)) c = _
  split
  · rfl
  · show EStateM.bind p _ c = _
    unfold EStateM.bind
    cases p c with
    | error e d => rfl
    | ok a d =>
      show EStateM.bind (manyWithin done p bound) _ d = _
      unfold EStateM.bind
      dsimp only
      cases manyWithin done p bound d <;> rfl

/-- As `Carries`, for a parser after which the first run may be over. -/
def Trails (P : Pairing) (start : Token → Prop) (moved : Bool) (R : α → β → Prop)
    (p : TokenParser α) (q : TokenParser β) : Prop :=
  ∀ c c' : Cursor, start c.token → P.Aligned moved c c' →
    Outcome P (P.Aligned false) R (p c) (q c') ∨ ∃ a d, p c = .ok a d ∧ P.Over d

namespace Trails

variable {R : α → β → Prop} {S : γ → δ → Prop} {p : TokenParser α} {q : TokenParser β} {m : α → β}

theorem manyWithin {done : Token → Bool} (hdone : done .eof = true)
    (hp : Carries P anyToken false P.Behind (Becomes m) p q) (bound : List Lexeme) :
    Trails P anyToken false (Becomes (List.map m)) (manyWithin done p bound)
      (manyWithin done q bound) := by
  induction bound with
  | nil => exact fun c c' _ haligned => .inl (.ok rfl haligned)
  | cons l bound ih =>
    intro c c' _ haligned
    rw [manyWithin_cons, manyWithin_cons, Pairing.token_eq haligned]
    split
    · exact .inl (.ok rfl haligned)
    · have hrun := hp c c' trivial haligned
      revert hrun
      generalize p c = r, q c' = r'
      intro hrun
      cases hrun with
      | error e d d' => exact .inl (.error e d d')
      | lost h e d => exact .inl (.lost h e d _)
      | @ok a b d d' h hd =>
        obtain rfl : b = m a := h
        rcases P.aligned_or_over hd with hd | hover
        · have hrest := ih d d' trivial hd
          dsimp only
          revert hrest
          generalize TokenParser.manyWithin done p bound d = s,
            TokenParser.manyWithin done q bound d' = s'
          rintro (hrest | ⟨rest, e, rfl, hover⟩)
          · cases hrest with
            | error e d d' => exact .inl (.error e d d')
            | lost h e d => exact .inl (.lost h e d _)
            | @ok rest rest' _ _ h hd =>
              obtain rfl : rest' = rest.map m := h
              exact .inl (.ok rfl hd)
          · exact .inr ⟨a :: rest, e, rfl, hover⟩
        · -- The first run stops at its end, wherever the second one may be.
          have hend := endsWith_manyWithin hdone p bound d (P.lossy_of_over hover).2
          dsimp only
          rw [hend]
          exact .inr ⟨[a], d, rfl, hover⟩

theorem many {done : Token → Bool} (hdone : done .eof = true)
    (hcount : ∀ depth, InStep anyToken depth (fun _ => 1) p p)
    (hp : Carries P anyToken false P.Behind (Becomes m) p q) :
    Trails P start moved (Becomes (List.map m)) (many done p) (many done q) := by
  intro c c' hc haligned
  rw [← manyWithin_eq_many hdone hcount (P.endsAhead haligned) (P.ahead_le haligned)]
  exact manyWithin hdone hp c'.after c c' trivial (Pairing.aligned_unmoved haligned)

theorem withCondition {mode : Bool} (hp : Trails P start moved R p q) :
    Trails P start moved R (withCondition mode p) (withCondition mode q) := by
  intro c c' hc haligned
  have hrun := hp { c with inCondition := mode } { c' with inCondition := mode } hc
    (P.inCondition mode haligned)
  unfold TokenParser.withCondition
  rw [P.inCondition_eq haligned]
  revert hrun
  generalize p _ = r, q _ = r'
  rintro (hrun | ⟨a, d, rfl, hover⟩)
  · cases hrun with
    | ok h hd => exact .inl (.ok h (P.inCondition c.inCondition hd))
    | error e d d' => exact .inl (.error e _ _)
    | lost h e d => exact .inl (.lost h e _ _)
  · exact .inr ⟨a, _, rfl, P.over_inCondition c.inCondition hover⟩

/-- Where the first run cannot be over, the two runs go on together. -/
theorem carries (hover : ∀ c, ¬ P.Over c) (hp : Trails P start moved R p q) :
    Carries P start moved (P.Aligned false) R p q := by
  intro c c' hc haligned
  rcases hp c c' hc haligned with hrun | ⟨a, d, -, hd⟩
  · exact hrun
  · exact absurd hd (hover d)

/-- At its end the first run does not find the closing token. -/
theorem close {token : Token} {k : α → Lexeme → TokenParser γ} {k' : β → Lexeme → TokenParser δ}
    (htoken : token ≠ .symbol .semi) (hend : token ≠ .eof) (hp : Trails P start moved R p q)
    (hk : ∀ a b l, R a b → Carries P anyToken true B S (k a l) (k' b (l.relocate P.move))) :
    Carries P start moved B S (p >>= fun a => expect token >>= k a)
      (q >>= fun b => expect token >>= k' b) := by
  intro c c' hc haligned
  show Outcome P B S (EStateM.bind p _ c) (EStateM.bind q _ c')
  unfold EStateM.bind
  have hrun := hp c c' hc haligned
  revert hrun
  generalize p c = r, q c' = r'
  rintro (hrun | ⟨a, d, rfl, hover⟩)
  · cases hrun with
    | error e d d' => exact .error e d d'
    | lost h e d => exact .lost h e d _
    | @ok a b d d' h hd =>
      have hclose : Carries P anyToken false B S (expect token >>= k a) (expect token >>= k' b) :=
        (Carries.expect htoken).next fun l => hk a b l h
      exact hclose d d' trivial hd
  · obtain ⟨hlossy, heof⟩ := P.lossy_of_over hover
    have hne : d.token ≠ token := fun heq => hend (heq.symm.trans heof)
    have hfails : (expect token >>= k a) d =
        .error ⟨.expectedToken token d.token, d.current.span⟩ d := by
      show EStateM.bind (TokenParser.expect token) _ d = _
      unfold EStateM.bind TokenParser.expect
      rw [if_neg hne]
    dsimp only
    rw [hfails]
    exact .lost hlossy _ _ _

end Trails

end TokenParser

end ScriptCompiler
