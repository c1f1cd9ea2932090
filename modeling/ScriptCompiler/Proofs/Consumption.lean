import ScriptCompiler.Grammar.Program

/-!
# What parsers consume

A parser moves its cursor forward over lexemes, and it never consumes an end token. Two parsers are
in step if they do the same at every cursor that has few enough lexemes before the next end token.
The productions of the grammar over two grammars whose nested parts are in step are in step
themselves, for one more lexeme.
-/

namespace ScriptCompiler

namespace Cursor

def rest (c : Cursor) : List Lexeme :=
  c.current :: c.after

/-- The number of lexemes from the cursor to the next end token. -/
def ahead (c : Cursor) : Nat :=
  c.rest.findIdx fun l => l.token = .eof

/-- An end token stands at the cursor or after it. -/
def EndsAhead (c : Cursor) : Prop :=
  ∃ l ∈ c.rest, l.token = .eof

/-- The cursor `d` stands behind the lexemes `consumed` at the cursor `c`, of which none is an end
    token, and has the same modes. -/
structure Consumes (c : Cursor) (consumed : List Lexeme) (d : Cursor) : Prop where
  noEnd : ∀ l ∈ consumed, l.token ≠ .eof
  before_eq : d.before = consumed.reverse ++ c.before
  rest_eq : c.rest = consumed ++ d.rest
  inCondition_eq : d.inCondition = c.inCondition
  inTypeOperand_eq : d.inTypeOperand = c.inTypeOperand

theorem ahead_eq_zero_iff {c : Cursor} : c.ahead = 0 ↔ c.token = .eof := by
  rw [ahead, rest, List.findIdx_cons]
  by_cases hend : c.current.token = .eof
  · simp [token, hend]
  · simp [token, hend]

theorem EndsAhead.ahead_le {c : Cursor} (h : c.EndsAhead) : c.ahead ≤ c.after.length := by
  obtain ⟨l, hl, hend⟩ := h
  have hlt : c.ahead < c.rest.length := List.findIdx_lt_length_of_exists ⟨l, hl, by simpa using hend⟩
  exact Nat.lt_succ_iff.mp hlt

namespace Consumes

variable {c d e : Cursor} {first second consumed : List Lexeme}

theorem refl (c : Cursor) : c.Consumes [] c :=
  ⟨by simp, rfl, rfl, rfl, rfl⟩

theorem trans (hfirst : c.Consumes first d) (hsecond : d.Consumes second e) :
    c.Consumes (first ++ second) e where
  noEnd := List.forall_mem_append.mpr ⟨hfirst.noEnd, hsecond.noEnd⟩
  before_eq := by rw [hsecond.before_eq, hfirst.before_eq, List.reverse_append, List.append_assoc]
  rest_eq := by rw [hfirst.rest_eq, hsecond.rest_eq, List.append_assoc]
  inCondition_eq := hsecond.inCondition_eq.trans hfirst.inCondition_eq
  inTypeOperand_eq := hsecond.inTypeOperand_eq.trans hfirst.inTypeOperand_eq

theorem ahead_eq (h : c.Consumes consumed d) : c.ahead = consumed.length + d.ahead := by
  have hnone : consumed.findIdx (fun l => l.token = .eof) = consumed.length := by
    rw [List.findIdx_eq_length]
    intro l hl
    simpa using h.noEnd l hl
  rw [ahead, h.rest_eq, List.findIdx_append, hnone, if_neg (Nat.lt_irrefl _), Nat.add_comm]
  rfl

theorem endsAhead (h : c.Consumes consumed d) (hc : c.EndsAhead) : d.EndsAhead := by
  obtain ⟨l, hl, hend⟩ := hc
  rw [h.rest_eq] at hl
  rcases List.mem_append.mp hl with hin | hin
  · exact absurd hend (h.noEnd l hin)
  · exact ⟨l, hin, hend⟩

/-- Before an end token there is always a lexeme to go on to. -/
theorem advance (hc : c.EndsAhead) (htoken : c.token ≠ .eof) :
    c.Consumes [c.current] c.advance := by
  obtain ⟨before, current, after, inCondition, inTypeOperand⟩ := c
  cases after with
  | nil =>
    obtain ⟨l, hl, hend⟩ := hc
    obtain rfl := List.mem_singleton.mp hl
    exact absurd hend htoken
  | cons next rest =>
    refine ⟨fun l hl => ?_, rfl, rfl, rfl, rfl⟩
    rw [List.mem_singleton.mp hl]
    exact htoken

end Consumes

end Cursor

namespace TokenParser

/-- The cursor that a parser leaves behind. -/
def finalCursor {α : Type} : EStateM.Result ParseError Cursor α → Cursor
  | .ok _ d | .error _ d => d

/-- The outcome `r` of a parser at the cursor `c`: it stands behind lexemes that it has consumed, and
    after a success these are at least as many as `least` says. -/
def Advances {α : Type} (least : α → Nat) (c : Cursor) (r : EStateM.Result ParseError Cursor α) :
    Prop :=
  ∃ consumed, c.Consumes consumed (finalCursor r) ∧ ∀ a d, r = .ok a d → least a ≤ consumed.length

/-- At every cursor that has less than `depth` lexemes before the next end token and whose token
    satisfies `start`, the two parsers do the same and consume at least as many lexemes as `least`
    says. -/
def InStep {α : Type} (start : Token → Prop) (depth : Nat) (least : α → Nat)
    (p q : TokenParser α) : Prop :=
  ∀ c : Cursor, start c.token → c.EndsAhead → c.ahead < depth → p c = q c ∧ Advances least c (p c)

/-- No condition on the token at the cursor. -/
abbrev anyToken : Token → Prop := fun _ => True

/-- Any token but the end token is at the cursor. -/
abbrev notEnd : Token → Prop := fun token => token ≠ .eof

/-- The parser leaves the cursor where it is and finds what `R` says about the token there. -/
def Looks {α : Type} (R : α → Token → Prop) (p : TokenParser α) : Prop :=
  ∀ c : Cursor, ∃ a, p c = .ok a c ∧ R a c.token

namespace InStep

variable {α β : Type} {start : Token → Prop} {depth : Nat} {least : α → Nat} {p q : TokenParser α}

theorem mono {start' : Token → Prop} {depth' : Nat} {least' : α → Nat}
    (h : InStep start depth least p q) (hstart : ∀ t, start' t → start t) (hdepth : depth' ≤ depth)
    (hleast : ∀ a, least' a ≤ least a) : InStep start' depth' least' p q := by
  intro c hc hend hahead
  obtain ⟨heq, consumed, hconsumed, hcount⟩ := h c (hstart _ hc) hend (by omega)
  exact ⟨heq, consumed, hconsumed, fun a d hrun => Nat.le_trans (hleast a) (hcount a d hrun)⟩

theorem anywhere (h : InStep anyToken depth least p q) : InStep start depth least p q :=
  h.mono (fun _ _ => trivial) (Nat.le_refl _) fun _ => Nat.le_refl _

/-- A production at a token that is not the end token. -/
theorem atToken {token : Token} (h : InStep notEnd depth least p q) (htoken : token ≠ .eof) :
    InStep (fun t => t = token) depth least p q :=
  h.mono (fun _ ht => ht ▸ htoken) (Nat.le_refl _) fun _ => Nat.le_refl _

theorem lower (h : InStep start (depth + 1) least p q) : InStep start depth least p q :=
  h.mono (fun _ => id) (Nat.le_succ _) fun _ => Nat.le_refl _

theorem uncounted (h : InStep start depth least p q) : InStep start depth (fun _ => 0) p q :=
  h.mono (fun _ => id) (Nat.le_refl _) fun _ => Nat.zero_le _

/-- A parser that gives its outcome without moving. -/
theorem stay {r : Cursor → EStateM.Result ParseError Cursor α}
    (hstay : ∀ c, finalCursor (r c) = c) (hleast : ∀ c a d, r c = .ok a d → least a = 0) :
    InStep start depth least r r := by
  intro c _ _ _
  refine ⟨rfl, [], ?_, fun a d hrun => Nat.le_of_eq (hleast c a d hrun)⟩
  rw [hstay]
  exact .refl c

theorem pure {a : α} (ha : least a = 0) : InStep start depth least (pure a) (pure a) := by
  refine stay (fun _ => rfl) fun c b d hrun => ?_
  obtain ⟨rfl, _⟩ := EStateM.Result.ok.inj hrun
  exact ha

theorem failAt {span : Span} {cause : ParseCause} :
    InStep start depth least (failAt span cause) (failAt span cause) :=
  stay (fun _ => rfl) fun _ _ _ hrun => by cases hrun

theorem failHere {cause : Token → ParseCause} :
    InStep start depth least (failHere cause) (failHere cause) :=
  stay (fun _ => rfl) fun _ _ _ hrun => by cases hrun

/-- After a parser has consumed lexemes, less of them are ahead, and less are still to consume. -/
theorem bind {f f' : α → TokenParser β} {total : β → Nat} (hp : InStep start depth least p q)
    (hf : ∀ a, InStep anyToken (depth - least a) (fun b => total b - least a) (f a) (f' a)) :
    InStep start depth total (p >>= f) (q >>= f') := by
  intro c hc hend hahead
  obtain ⟨heq, first, hfirst, hcount⟩ := hp c hc hend hahead
  show EStateM.bind p f c = EStateM.bind q f' c ∧ Advances total c (EStateM.bind p f c)
  unfold EStateM.bind
  rw [← heq]
  cases hrun : p c with
  | error e d =>
    rw [hrun] at hfirst
    exact ⟨rfl, first, hfirst, nofun⟩
  | ok a d =>
    rw [hrun] at hfirst
    have hleast := hcount a d hrun
    have hleft : c.ahead = first.length + d.ahead := hfirst.ahead_eq
    obtain ⟨hsame, second, hsecond, hcount'⟩ := hf a d trivial (hfirst.endsAhead hend) (by omega)
    refine ⟨hsame, first ++ second, hfirst.trans hsecond, fun b e hb => ?_⟩
    have hrest : total b - least a ≤ second.length := hcount' b e hb
    rw [List.length_append]
    omega

/-- After the first parser has consumed a lexeme, the rest of a production is one level deeper. -/
theorem first {f f' : α → TokenParser β} (hp : InStep start (depth + 1) (fun _ => 1) p q)
    (hf : ∀ a, InStep anyToken depth (fun _ => 0) (f a) (f' a)) :
    InStep start (depth + 1) (fun _ => 1) (p >>= f) (q >>= f') :=
  hp.bind hf

/-- A parser after another one of which nothing is known. -/
theorem next {m : α → Nat} {f f' : α → TokenParser β} {total : β → Nat}
    (hp : InStep start depth m p q)
    (hf : ∀ a, InStep anyToken depth total (f a) (f' a)) :
    InStep start depth total (p >>= f) (q >>= f') :=
  hp.uncounted.bind hf

theorem map {f : α → β} {total : β → Nat} (hp : InStep start depth least p q)
    (hf : ∀ a, total (f a) ≤ least a) : InStep start depth total (f <$> p) (f <$> q) := by
  intro c hc hend hahead
  obtain ⟨heq, consumed, hconsumed, hcount⟩ := hp c hc hend hahead
  show EStateM.map f p c = EStateM.map f q c ∧ Advances total c (EStateM.map f p c)
  unfold EStateM.map
  rw [← heq]
  cases hrun : p c with
  | error e d =>
    rw [hrun] at hconsumed
    exact ⟨rfl, consumed, hconsumed, nofun⟩
  | ok a d =>
    rw [hrun] at hconsumed
    refine ⟨rfl, consumed, hconsumed, fun b e hb => ?_⟩
    obtain ⟨rfl, _⟩ := EStateM.Result.ok.inj hb
    exact Nat.le_trans (hf a) (hcount a d hrun)

theorem ite {t : Prop} [Decidable t] {p' q' : TokenParser α} (hp : InStep start depth least p q)
    (hq : InStep start depth least p' q') :
    InStep start depth least (if t then p else p') (if t then q else q') := by
  split
  · exact hp
  · exact hq

/-! ### Elementary parsers -/

theorem advance : InStep notEnd depth (fun _ => 1) advance advance := by
  intro c hc hend _
  exact ⟨rfl, [c.current], .advance hend hc, fun _ _ _ => Nat.le_refl 1⟩

theorem advanceOver {token : Token} (htoken : token ≠ .eof) :
    InStep (fun t => t = token) depth (fun _ => 1) TokenParser.advance TokenParser.advance :=
  advance.atToken htoken

theorem eat {token : Token} (htoken : token ≠ .eof) :
    InStep start depth Bool.toNat (eat token) (eat token) := by
  intro c _ hend _
  refine ⟨rfl, ?_⟩
  unfold TokenParser.eat
  split
  · next heq => exact ⟨[c.current], .advance hend (heq ▸ htoken), fun a _ _ => a.toNat_le⟩
  · refine ⟨[], .refl c, fun a d hrun => ?_⟩
    obtain ⟨rfl, _⟩ := EStateM.Result.ok.inj hrun
    exact Nat.le_refl 0

theorem expect {token : Token} (htoken : token ≠ .eof) :
    InStep start depth (fun _ => 1) (expect token) (expect token) := by
  intro c _ hend _
  refine ⟨rfl, ?_⟩
  unfold TokenParser.expect
  split
  · next heq => exact ⟨[c.current], .advance hend (heq ▸ htoken), fun _ _ _ => Nat.le_refl 1⟩
  · exact ⟨[], .refl c, fun _ _ hrun => by cases hrun⟩

theorem ident : InStep start depth (fun _ => 1) TokenParser.ident TokenParser.ident := by
  intro c _ hend _
  refine ⟨rfl, ?_⟩
  unfold TokenParser.ident
  split
  · next heq =>
    have htoken : c.token ≠ .eof := heq ▸ Token.noConfusion
    exact ⟨[c.current], .advance hend htoken, fun _ _ _ => Nat.le_refl 1⟩
  · exact ⟨[], .refl c, fun _ _ hrun => by cases hrun⟩

theorem memberName : InStep start depth (fun _ => 1) memberName memberName := by
  intro c _ hend _
  refine ⟨rfl, ?_⟩
  unfold TokenParser.memberName
  split
  · next heq =>
    have htoken : c.token ≠ .eof := heq ▸ Token.noConfusion
    exact ⟨[c.current], .advance hend htoken, fun _ _ _ => Nat.le_refl 1⟩
  · next heq =>
    have htoken : c.token ≠ .eof := heq ▸ Token.noConfusion
    exact ⟨[c.current], .advance hend htoken, fun _ _ _ => Nat.le_refl 1⟩
  · exact ⟨[], .refl c, fun _ _ hrun => by cases hrun⟩

-- The modes take no part in what is ahead, and both brackets put them back.
theorem withCondition {mode : Bool} (hp : InStep start depth least p q) :
    InStep start depth least (withCondition mode p) (withCondition mode q) := by
  intro c hc hend hahead
  obtain ⟨heq, consumed, hconsumed, hcount⟩ := hp { c with inCondition := mode } hc hend hahead
  unfold TokenParser.withCondition
  rw [← heq]
  obtain ⟨hnone, hbefore, hrest, _, htype⟩ := hconsumed
  cases hrun : p { c with inCondition := mode } with
  | error e d =>
    rw [hrun] at hbefore hrest htype
    exact ⟨rfl, consumed, ⟨hnone, hbefore, hrest, rfl, htype⟩, fun _ _ hok => by cases hok⟩
  | ok a d =>
    rw [hrun] at hbefore hrest htype
    refine ⟨rfl, consumed, ⟨hnone, hbefore, hrest, rfl, htype⟩, fun b e hok => ?_⟩
    obtain ⟨rfl, _⟩ := EStateM.Result.ok.inj hok
    exact hcount a d hrun

theorem withTypeOperand (hp : InStep start depth least p q) :
    InStep start depth least (withTypeOperand p) (withTypeOperand q) := by
  intro c hc hend hahead
  obtain ⟨heq, consumed, hconsumed, hcount⟩ := hp { c with inTypeOperand := true } hc hend hahead
  unfold TokenParser.withTypeOperand
  rw [← heq]
  obtain ⟨hnone, hbefore, hrest, hcondition, _⟩ := hconsumed
  cases hrun : p { c with inTypeOperand := true } with
  | error e d =>
    rw [hrun] at hbefore hrest hcondition
    exact ⟨rfl, consumed, ⟨hnone, hbefore, hrest, hcondition, rfl⟩, fun _ _ hok => by cases hok⟩
  | ok a d =>
    rw [hrun] at hbefore hrest hcondition
    refine ⟨rfl, consumed, ⟨hnone, hbefore, hrest, hcondition, rfl⟩, fun b e hok => ?_⟩
    obtain ⟨rfl, _⟩ := EStateM.Result.ok.inj hok
    exact hcount a d hrun

/-- If the token is there, the first parser goes on one level deeper. -/
theorem ifEat {token : Token} {p' q' : TokenParser α} (htoken : token ≠ .eof)
    (hyes : InStep anyToken depth (fun a => least a - 1) p q)
    (hno : InStep anyToken (depth + 1) least p' q') :
    InStep start (depth + 1) least (TokenParser.eat token >>= fun eaten => if eaten then p else p')
      (TokenParser.eat token >>= fun eaten => if eaten then q else q') := by
  refine (eat htoken).bind fun eaten => ?_
  cases eaten with
  | true => exact hyes
  | false => exact hno

theorem optionally {token : Token} (htoken : token ≠ .eof) (hp : InStep anyToken depth least p q) :
    InStep start (depth + 1) (fun _ => 0) (optionally token p) (optionally token q) :=
  ifEat htoken (hp.next fun _ => .pure rfl) (.pure rfl)

end InStep

namespace Looks

variable {α β : Type} {start : Token → Prop} {depth : Nat} {total : β → Nat}
  {R : α → Token → Prop} {p : TokenParser α} {f f' : α → TokenParser β}

/-- What is seen of the token replaces what is known of it. -/
theorem sees_token (hp : Looks R p) (hf : ∀ a, InStep (R a) depth total (f a) (f' a)) :
    InStep start depth total (p >>= f) (p >>= f') := by
  intro c _ hend hahead
  obtain ⟨a, hrun, ha⟩ := hp c
  show EStateM.bind p f c = EStateM.bind p f' c ∧ Advances total c (EStateM.bind p f c)
  unfold EStateM.bind
  rw [hrun]
  exact hf a c ha hend hahead

theorem keeps_token (hp : Looks R p) (hf : ∀ a, InStep start depth total (f a) (f' a)) :
    InStep start depth total (p >>= f) (p >>= f') := by
  intro c hc hend hahead
  obtain ⟨a, hrun, _⟩ := hp c
  show EStateM.bind p f c = EStateM.bind p f' c ∧ Advances total c (EStateM.bind p f c)
  unfold EStateM.bind
  rw [hrun]
  exact hf a c hc hend hahead

/-- Where the token is seen, the first parser goes on with it at the cursor. -/
theorem ifSees {token : Token} {p : TokenParser Bool} {q q' r r' : TokenParser β}
    (hp : Looks (fun seen t => seen = true → t = token) p)
    (hyes : InStep (fun t => t = token) depth total q q') (hno : InStep start depth total r r') :
    InStep start depth total (p >>= fun seen => if seen then q else r)
      (p >>= fun seen => if seen then q' else r') := by
  intro c hc hend hahead
  obtain ⟨seen, hrun, htoken⟩ := hp c
  show EStateM.bind p _ c = EStateM.bind p _ c ∧ Advances total c (EStateM.bind p _ c)
  unfold EStateM.bind
  rw [hrun]
  cases seen with
  | true => exact hyes c (htoken rfl) hend hahead
  | false => exact hno c hc hend hahead

end Looks

theorem looks_peek : Looks (fun token t => t = token) peek :=
  fun c => ⟨c.token, rfl, rfl⟩

theorem looks_peekNext : Looks (fun _ _ => True) peekNext :=
  fun c => ⟨c.nextToken, rfl, trivial⟩

theorem looks_here : Looks (fun _ _ => True) here :=
  fun c => ⟨c.current.span, rfl, trivial⟩

theorem looks_previous : Looks (fun _ _ => True) previous :=
  fun c => ⟨c.previousSpan, rfl, trivial⟩

theorem looks_sees (token : Token) : Looks (fun seen t => seen = true → t = token) (sees token) :=
  fun _ => ⟨_, rfl, of_decide_eq_true⟩

/-! ### Loops -/

section Loops

variable {α : Type} {start : Token → Prop} {depth : Nat} {least : α → Nat}

/-- The parser gives `a` at the end token and stays there. -/
def EndsWith (a : α) (p : TokenParser α) : Prop :=
  ∀ c : Cursor, c.token = .eof → p c = .ok a c

theorem EndsWith.pure (a : α) : EndsWith a (pure a) :=
  fun _ _ => rfl

theorem EndsWith.bind {β : Type} {a : α} {b : β} {p : TokenParser α} {f : α → TokenParser β}
    (hp : EndsWith a p) (hf : EndsWith b (f a)) : EndsWith b (p >>= f) := by
  intro c hc
  show EStateM.bind p f c = _
  unfold EStateM.bind
  rw [hp c hc]
  exact hf c hc

theorem Looks.endsWith {β : Type} {b : β} {R : α → Token → Prop} {p : TokenParser α}
    {f : α → TokenParser β} (hp : Looks R p) (hf : ∀ a, EndsWith b (f a)) :
    EndsWith b (p >>= f) := by
  intro c hc
  obtain ⟨a, hrun, _⟩ := hp c
  show EStateM.bind p f c = _
  unfold EStateM.bind
  rw [hrun]
  exact hf a c hc

theorem endsWith_peek : EndsWith .eof peek := by
  intro c hc
  rw [peek, hc]

theorem endsWith_eat {token : Token} (htoken : token ≠ .eof) : EndsWith false (eat token) := by
  intro c hc
  rw [eat, if_neg fun heq => htoken (heq.symm.trans hc)]

theorem endsWith_manyWithin {done : Token → Bool} (hdone : done .eof = true) (item : TokenParser α)
    (bound : List Lexeme) : EndsWith [] (manyWithin done item bound) := by
  cases bound with
  | nil => exact .pure []
  | cons _ bound =>
    refine endsWith_peek.bind ?_
    rw [if_pos hdone]
    exact .pure []

theorem endsWith_iterateWithin {step : α → TokenParser (Option α)}
    (hstep : ∀ a, EndsWith none (step a)) (bound : List Lexeme) (a : α) :
    EndsWith a (iterateWithin step bound a) := by
  cases bound with
  | nil => exact .pure a
  | cons _ bound => exact (hstep a).bind (.pure a)

theorem endsWith_itemsWithin (close : Token) (item : TokenParser α) (bound : List Lexeme) :
    EndsWith [] (itemsWithin close item bound) := by
  cases bound with
  | nil => exact .pure []
  | cons _ bound => exact (endsWith_eat Token.noConfusion).bind (.pure [])

namespace InStep

/-- With less than one lexeme ahead the end token is at the cursor. -/
theorem ofEndsWith {a : α} {p q : TokenParser α} (hdepth : depth ≤ 1) (ha : least a = 0)
    (hp : EndsWith a p) (hq : EndsWith a q) : InStep start depth least p q := by
  intro c _ _ hahead
  have hend : c.token = .eof := Cursor.ahead_eq_zero_iff.mp (by omega)
  rw [hp c hend, hq c hend]
  refine ⟨rfl, [], .refl c, fun b d hrun => ?_⟩
  obtain ⟨rfl, _⟩ := EStateM.Result.ok.inj hrun
  exact Nat.le_of_eq ha

/-- Items that each consume a lexeme are read to the end whatever the bounds are, if these are long
    enough. -/
theorem manyWithin {done : Token → Bool} {item item' : TokenParser α} (hdone : done .eof = true)
    (hitem : InStep anyToken depth (fun _ => 1) item item') {bound bound' : List Lexeme}
    (hbound : depth ≤ bound.length + 1) (hbound' : depth ≤ bound'.length + 1) :
    InStep start depth (fun _ => 0) (manyWithin done item bound)
      (manyWithin done item' bound') := by
  induction bound generalizing bound' start depth with
  | nil =>
    exact ofEndsWith hbound rfl (endsWith_manyWithin hdone _ _) (endsWith_manyWithin hdone _ _)
  | cons _ bound ih =>
    cases bound' with
    | nil =>
      exact ofEndsWith hbound' rfl (endsWith_manyWithin hdone _ _) (endsWith_manyWithin hdone _ _)
    | cons _ bound' =>
      rw [List.length_cons] at hbound hbound'
      have hshorter : InStep anyToken (depth - 1) (fun _ => 1) item item' :=
        hitem.mono (fun _ => id) (Nat.sub_le depth 1) fun _ => Nat.le_refl 1
      have hrest : InStep anyToken (depth - 1) (fun _ => 0) (TokenParser.manyWithin done item bound)
          (TokenParser.manyWithin done item' bound') := ih hshorter (by omega) (by omega)
      exact looks_peek.keeps_token fun _ =>
        ite (.pure rfl) (hitem.anywhere.bind fun _ => hrest.next fun _ => .pure rfl)

theorem many {done : Token → Bool} {item item' : TokenParser α} (hdone : done .eof = true)
    (hitem : InStep anyToken depth (fun _ => 1) item item') :
    InStep start depth (fun _ => 0) (many done item) (many done item') := by
  intro c hc hend hahead
  -- Only the lexemes that are ahead of this cursor count.
  have hitem' : InStep anyToken (c.ahead + 1) (fun _ => 1) item item' :=
    hitem.mono (fun _ => id) hahead fun _ => Nat.le_refl 1
  have hbound := Nat.succ_le_succ hend.ahead_le
  exact manyWithin hdone hitem' hbound hbound c hc hend (Nat.lt_succ_self _)

/-- A step that has no result at the end token is repeated to the end whatever the bounds are, if
    these are long enough. -/
theorem iterateWithin {step step' : α → TokenParser (Option α)}
    (hend : ∀ a, EndsWith none (step a)) (hend' : ∀ a, EndsWith none (step' a))
    (hstep : ∀ a, InStep anyToken depth (fun next => next.isSome.toNat) (step a) (step' a))
    {bound bound' : List Lexeme} (hbound : depth ≤ bound.length + 1)
    (hbound' : depth ≤ bound'.length + 1) (a : α) :
    InStep start depth (fun _ => 0) (iterateWithin step bound a) (iterateWithin step' bound' a) := by
  induction bound generalizing bound' start depth a with
  | nil =>
    exact ofEndsWith hbound rfl (endsWith_iterateWithin hend _ a) (endsWith_iterateWithin hend' _ a)
  | cons _ bound ih =>
    cases bound' with
    | nil =>
      exact ofEndsWith hbound' rfl (endsWith_iterateWithin hend _ a)
        (endsWith_iterateWithin hend' _ a)
    | cons _ bound' =>
      rw [List.length_cons] at hbound hbound'
      refine (hstep a).anywhere.bind fun next => ?_
      cases next with
      | none => exact .pure rfl
      | some b =>
        have hshorter : ∀ a, InStep anyToken (depth - 1) (fun next => next.isSome.toNat) (step a)
            (step' a) := fun a =>
          (hstep a).mono (fun _ => id) (Nat.sub_le depth 1) fun _ => Nat.le_refl _
        exact ih hshorter (by omega) (by omega) b

theorem iterate {step step' : α → TokenParser (Option α)}
    (hend : ∀ a, EndsWith none (step a)) (hend' : ∀ a, EndsWith none (step' a))
    (hstep : ∀ a, InStep anyToken depth (fun next => next.isSome.toNat) (step a) (step' a)) (a : α) :
    InStep start depth (fun _ => 0) (iterate step a) (iterate step' a) := by
  intro c hc hends hahead
  have hstep' : ∀ a, InStep anyToken (c.ahead + 1) (fun next => next.isSome.toNat) (step a)
      (step' a) := fun a => (hstep a).mono (fun _ => id) hahead fun _ => Nat.le_refl _
  have hbound := Nat.succ_le_succ hends.ahead_le
  exact iterateWithin hend hend' hstep' hbound hbound a c hc hends (Nat.lt_succ_self _)

/-- Each further item comes after a comma, so the items need not consume anything themselves. -/
theorem itemsWithin {close : Token} {item item' : TokenParser α}
    (hitem : InStep anyToken depth least item item') {bound bound' : List Lexeme}
    (hbound : depth ≤ bound.length + 1) (hbound' : depth ≤ bound'.length + 1) :
    InStep start depth (fun _ => 0) (itemsWithin close item bound)
      (itemsWithin close item' bound') := by
  induction bound generalizing bound' start depth with
  | nil => exact ofEndsWith hbound rfl (endsWith_itemsWithin _ _ _) (endsWith_itemsWithin _ _ _)
  | cons _ bound ih =>
    cases bound' with
    | nil => exact ofEndsWith hbound' rfl (endsWith_itemsWithin _ _ _) (endsWith_itemsWithin _ _ _)
    | cons _ bound' =>
      rw [List.length_cons] at hbound hbound'
      have hshorter : InStep anyToken (depth - 1) least item item' :=
        hitem.mono (fun _ => id) (Nat.sub_le depth 1) fun _ => Nat.le_refl _
      have hrest : InStep anyToken (depth - 1) (fun _ => 0)
          (TokenParser.itemsWithin close item bound) (TokenParser.itemsWithin close item' bound') :=
        ih hshorter (by omega) (by omega)
      refine (eat Token.noConfusion).bind fun eaten => ?_
      cases eaten with
      | false => exact .pure rfl
      | true =>
        exact (looks_sees close).keeps_token fun _ =>
          ite (.pure rfl) (hshorter.next fun _ => hrest.next fun _ => .pure rfl)

theorem items {close : Token} {item item' : TokenParser α}
    (hitem : InStep anyToken depth least item item') :
    InStep start depth (fun _ => 0) (items close item) (items close item') := by
  intro c hc hend hahead
  have hitem' : InStep anyToken (c.ahead + 1) least item item' :=
    hitem.mono (fun _ => id) hahead fun _ => Nat.le_refl _
  have hbound := Nat.succ_le_succ hend.ahead_le
  exact itemsWithin hitem' hbound hbound c hc hend (Nat.lt_succ_self _)

theorem delimited {close : Token} {item item' : TokenParser α} (hclose : close ≠ .eof)
    (hitem : InStep anyToken depth least item item') :
    InStep start depth (fun _ => 1) (delimited close item) (delimited close item') := by
  refine withCondition (next (m := fun _ => 0) ?_ fun contents => ?_)
  · exact (looks_sees close).keeps_token fun _ =>
      ite (.pure rfl) (hitem.anywhere.next fun _ => (items hitem).next fun _ => .pure rfl)
  · exact (expect hclose).bind fun _ => .pure rfl

end InStep

end Loops

end TokenParser

end ScriptCompiler
