import ScriptCompiler.Grammar.Program
import ScriptCompiler.Proofs.PrintedPieces

/-!
# Parsers that read given pieces

`Reads p pieces next Q` says that the parser `p` succeeds on the given pieces, consumes exactly them
and finds a result with `Q`, as long as the token behind them satisfies `next`. The rules follow the
way parsers are put together: one after the other, repeated, and between brackets. Everything is
read outside conditions, in both modes of reading types.
-/

namespace ScriptCompiler

namespace Cursor

def pieces (c : Cursor) : List Piece :=
  (c.current :: c.after).map Lexeme.piece

def skip : Nat → Cursor → Cursor
  | 0, c => c
  | n + 1, c => skip n c.advance

@[simp] theorem inCondition_advance (c : Cursor) : c.advance.inCondition = c.inCondition := by
  unfold advance
  split <;> rfl

@[simp] theorem inCondition_skip (n : Nat) (c : Cursor) :
    (c.skip n).inCondition = c.inCondition := by
  induction n generalizing c with
  | zero => rfl
  | succ n ih => rw [skip, ih, inCondition_advance]

theorem skip_skip (m n : Nat) (c : Cursor) : (c.skip m).skip n = c.skip (m + n) := by
  induction m generalizing c with
  | zero => rw [Nat.zero_add, skip]
  | succ m ih => rw [skip, ih, Nat.succ_add, skip]

/-- The mode of reading types does not matter for where the cursor stands. -/
theorem skip_inTypeOperand (n : Nat) (c : Cursor) (mode : Bool) :
    skip n { c with inTypeOperand := mode } = { c.skip n with inTypeOperand := mode } := by
  induction n generalizing c with
  | zero => rfl
  | succ n ih =>
    have hadvance : advance { c with inTypeOperand := mode } =
        { c.advance with inTypeOperand := mode } := by
      obtain ⟨before, current, after, inCondition, inTypeOperand⟩ := c
      cases after <;> rfl
    rw [skip, hadvance, ih, skip]

theorem inTypeOperand_skip (n : Nat) (c : Cursor) :
    (c.skip n).inTypeOperand = c.inTypeOperand := by
  have hskip : c.skip n = { c.skip n with inTypeOperand := c.inTypeOperand } :=
    skip_inTypeOperand n c c.inTypeOperand
  rw [hskip]

theorem token_eq {c : Cursor} {piece : Piece} {rest : List Piece} (h : c.pieces = piece :: rest) :
    c.token = piece.token :=
  congrArg Piece.token (List.cons.inj h).1

theorem nextToken_eq {c : Cursor} {first second : Piece} {rest : List Piece}
    (h : c.pieces = first :: second :: rest) : c.nextToken = second.token := by
  obtain ⟨next, others, hafter, hnext, _⟩ := List.map_eq_cons_iff.mp (List.cons.inj h).2
  rw [nextToken, hafter, ← hnext]
  rfl

theorem pieces_skip {c : Cursor} {first rest : List Piece} (h : c.pieces = first ++ rest)
    (hne : rest ≠ []) : (c.skip first.length).pieces = rest := by
  induction first generalizing c with
  | nil => exact h
  | cons piece first ih =>
    refine ih ?_
    have hafter : c.after.map Lexeme.piece = first ++ rest := (List.cons.inj h).2
    unfold advance
    split
    · rename_i hnil
      rw [hnil] at hafter
      exact absurd (List.append_eq_nil_iff.mp hafter.symm).2 hne
    · rename_i next others hcons
      rw [hcons] at hafter
      exact hafter

end Cursor

/-- There are pieces, and the token of the first one satisfies `next`. -/
def Before (next : Token → Prop) (pieces : List Piece) : Prop :=
  ∃ piece rest, pieces = piece :: rest ∧ next piece.token

namespace Before

variable {next other : Token → Prop} {pieces : List Piece}

theorem cons {piece : Piece} {rest : List Piece} (h : next piece.token) :
    Before next (piece :: rest) :=
  ⟨piece, rest, rfl, h⟩

theorem mono (h : Before next pieces) (himp : ∀ t, next t → other t) : Before other pieces := by
  obtain ⟨piece, rest, rfl, hnext⟩ := h
  exact cons (himp _ hnext)

theorem append (h : Before next pieces) (others : List Piece) : Before next (pieces ++ others) := by
  obtain ⟨piece, rest, rfl, hnext⟩ := h
  exact cons hnext

theorem ne_nil (h : Before next pieces) : pieces ≠ [] := by
  obtain ⟨piece, rest, rfl, _⟩ := h
  exact List.cons_ne_nil piece rest

theorem any (h : Before next pieces) (first : List Piece) :
    Before (fun _ => True) (first ++ pieces) := by
  cases first with
  | nil => exact h.mono fun _ _ => trivial
  | cons piece first => exact cons trivial

end Before

/-- The parser reads exactly the pieces and finds a result with `Q`, whatever follows them, as long
    as its first token satisfies `next`. -/
def Reads {α : Type} (p : TokenParser α) (pieces : List Piece) (next : Token → Prop)
    (Q : α → Prop) : Prop :=
  ∀ (c : Cursor) (rest : List Piece), c.inCondition = false → c.pieces = pieces ++ rest →
    Before next rest → ∃ a, p c = .ok a (c.skip pieces.length) ∧ Q a

/-- Nothing is asked of the token that follows. -/
abbrev anything : Token → Prop :=
  fun _ => True

namespace Reads

variable {α β : Type} {p : TokenParser α} {pieces first second : List Piece}
  {next middle : Token → Prop} {Q R : α → Prop}

theorem mono (h : Reads p pieces next Q) (himp : ∀ a, Q a → R a) : Reads p pieces next R := by
  intro c rest hmode hpieces hnext
  obtain ⟨a, hrun, ha⟩ := h c rest hmode hpieces hnext
  exact ⟨a, hrun, himp a ha⟩

theorem before (h : Reads p pieces middle Q) (himp : ∀ t, next t → middle t) :
    Reads p pieces next Q :=
  fun c rest hmode hpieces hnext => h c rest hmode hpieces (hnext.mono himp)

theorem pure {a : α} (ha : Q a) : Reads (pure a) [] next Q :=
  fun _ _ _ _ _ => ⟨a, rfl, ha⟩

/-- One parser after the other. The second one sees where the first one has stopped. -/
theorem bind {f : α → TokenParser β} {T : β → Prop} (hp : Reads p first middle Q)
    (hf : ∀ a, Q a → Reads (f a) second next T)
    (hmiddle : ∀ rest, Before next rest → Before middle (second ++ rest)) :
    Reads (p >>= f) (first ++ second) next T := by
  intro c rest hmode hpieces hnext
  -- The first parser is followed by the pieces of the second one.
  rw [List.append_assoc] at hpieces
  have hbefore := hmiddle rest hnext
  obtain ⟨a, hrun, ha⟩ := hp c (second ++ rest) hmode hpieces hbefore
  have hskip : (c.skip first.length).pieces = second ++ rest :=
    Cursor.pieces_skip hpieces hbefore.ne_nil
  obtain ⟨b, hrest, hb⟩ := hf a ha (c.skip first.length) rest (by simpa using hmode) hskip hnext
  refine ⟨b, ?_, hb⟩
  change EStateM.bind p f c = _
  unfold EStateM.bind
  rw [hrun]
  dsimp only
  rw [hrest, Cursor.skip_skip, List.length_append]

/-- One parser after another one that asks for nothing behind it. -/
theorem andThen {f : α → TokenParser β} {T : β → Prop} (hp : Reads p first anything Q)
    (hf : ∀ a, Q a → Reads (f a) second next T) : Reads (p >>= f) (first ++ second) next T :=
  hp.bind hf fun _ hnext => hnext.any second

/-- One parser that reads nothing before another one. -/
theorem thenRead {f : α → TokenParser β} {T : β → Prop} (hp : Reads p [] anything Q)
    (hf : ∀ a, Q a → Reads (f a) pieces next T) : Reads (p >>= f) pieces next T :=
  hp.bind hf fun _ hnext => hnext.any pieces

/-- One parser before another one that reads nothing. -/
theorem finish {f : α → TokenParser β} {T : β → Prop} (hp : Reads p pieces middle Q)
    (hf : ∀ a, Q a → Reads (f a) [] next T) (hmiddle : ∀ t, next t → middle t) :
    Reads (p >>= f) pieces next T := by
  rw [← List.append_nil pieces]
  exact hp.bind hf fun _ hnext => hnext.mono hmiddle

theorem map {f : α → β} {T : β → Prop} (hp : Reads p pieces next Q) (hf : ∀ a, Q a → T (f a)) :
    Reads (f <$> p) pieces next T := by
  intro c rest hmode hpieces hnext
  obtain ⟨a, hrun, ha⟩ := hp c rest hmode hpieces hnext
  refine ⟨f a, ?_, hf a ha⟩
  change EStateM.map f p c = _
  unfold EStateM.map
  rw [hrun]

theorem look {f : Cursor → α} (h : ∀ c, Q (f c)) : Reads (fun c => .ok (f c) c) [] next Q :=
  fun c _ _ _ _ => ⟨f c, rfl, h c⟩

/-- A parser that only looks at the cursor, where the pieces ahead tell what it sees. -/
theorem lookAhead {view : Cursor → α} {k : α → TokenParser β} {a : α} {T : β → Prop}
    (hview : ∀ c rest, c.pieces = pieces ++ rest → view c = a) (h : Reads (k a) pieces next T) :
    Reads ((fun c => .ok (view c) c) >>= k) pieces next T := by
  intro c rest hmode hpieces hnext
  obtain ⟨b, hrun, hb⟩ := h c rest hmode hpieces hnext
  refine ⟨b, ?_, hb⟩
  change k (view c) c = _
  rw [hview c rest hpieces, hrun]

theorem peekAt {piece : Piece} {rest : List Piece} {k : Token → TokenParser β} {T : β → Prop}
    (h : Reads (k piece.token) (piece :: rest) next T) :
    Reads (TokenParser.peek >>= k) (piece :: rest) next T :=
  lookAhead (fun _ _ hpieces => Cursor.token_eq hpieces) h

theorem here : Reads TokenParser.here [] next fun _ => True :=
  look fun _ => trivial

theorem previous : Reads TokenParser.previous [] next fun _ => True :=
  look fun _ => trivial

theorem peekNext : Reads TokenParser.peekNext [] next fun _ => True :=
  look fun _ => trivial

/-- The token at the cursor is one that may follow. -/
theorem peek : Reads TokenParser.peek [] next next := by
  intro c rest _ hpieces hnext
  obtain ⟨piece, rest, rfl, hpiece⟩ := hnext
  exact ⟨c.token, rfl, Cursor.token_eq hpieces ▸ hpiece⟩

theorem sees {token : Token} :
    Reads (TokenParser.sees token) [] (fun t => t = token) fun b => b = true := by
  intro c rest _ hpieces hnext
  obtain ⟨piece, rest, rfl, hpiece⟩ := hnext
  exact ⟨decide (c.token = token), rfl, decide_eq_true ((Cursor.token_eq hpieces).trans hpiece)⟩

theorem sees_not {token : Token} :
    Reads (TokenParser.sees token) [] (fun t => t ≠ token) fun b => b = false := by
  intro c rest _ hpieces hnext
  obtain ⟨piece, rest, rfl, hpiece⟩ := hnext
  exact ⟨decide (c.token = token), rfl, decide_eq_false (Cursor.token_eq hpieces ▸ hpiece)⟩

theorem advance {piece : Piece} :
    Reads TokenParser.advance [piece] anything fun l => l.piece = piece :=
  fun c _ _ hpieces _ => ⟨c.current, rfl, (List.cons.inj hpieces).1⟩

theorem expect {piece : Piece} {token : Token} (h : piece.token = token) :
    Reads (TokenParser.expect token) [piece] anything fun l => l.piece = piece := by
  intro c rest _ hpieces _
  have htoken : c.token = token := (Cursor.token_eq hpieces).trans h
  refine ⟨c.current, ?_, (List.cons.inj hpieces).1⟩
  rw [TokenParser.expect, if_pos htoken]
  rfl

theorem eat {piece : Piece} {token : Token} (h : piece.token = token) :
    Reads (TokenParser.eat token) [piece] anything fun b => b = true := by
  intro c rest _ hpieces _
  have htoken : c.token = token := (Cursor.token_eq hpieces).trans h
  refine ⟨true, ?_, rfl⟩
  rw [TokenParser.eat, if_pos htoken]
  rfl

theorem eat_not {token : Token} :
    Reads (TokenParser.eat token) [] (fun t => t ≠ token) fun b => b = false := by
  intro c rest _ hpieces hnext
  obtain ⟨piece, rest, rfl, hpiece⟩ := hnext
  have htoken : c.token ≠ token := Cursor.token_eq hpieces ▸ hpiece
  refine ⟨false, ?_, rfl⟩
  rw [TokenParser.eat, if_neg htoken]
  rfl

theorem ident {piece : Piece} {name : String} (h : piece.token = .ident name) :
    Reads TokenParser.ident [piece] anything fun ident => ident.name = name := by
  intro c rest _ hpieces _
  have htoken : c.token = .ident name := (Cursor.token_eq hpieces).trans h
  refine ⟨⟨name, c.current.span⟩, ?_, rfl⟩
  rw [TokenParser.ident, htoken]
  rfl

theorem memberName {piece : Piece} (h : piece.token.isWord = true) :
    Reads TokenParser.memberName [piece] anything fun ident => ident.name = piece.text := by
  intro c rest _ hpieces _
  have htoken : c.token = piece.token := Cursor.token_eq hpieces
  have htext : c.current.text = piece.text := congrArg Piece.text (List.cons.inj hpieces).1
  refine ⟨⟨c.current.text, c.current.span⟩, ?_, htext⟩
  rw [TokenParser.memberName, htoken]
  cases hword : piece.token with
  | ident | keyword => rfl
  | _ => simp [hword, Token.isWord] at h

theorem outOfCondition (h : Reads p pieces next Q) :
    Reads (TokenParser.withCondition false p) pieces next Q := by
  intro c rest hmode hpieces hnext
  obtain ⟨a, hrun, ha⟩ := h c rest hmode hpieces hnext
  have hsame : { c with inCondition := false } = c := by rw [← hmode]
  have hrestored : { c.skip pieces.length with inCondition := c.inCondition } =
      c.skip pieces.length := by
    rw [← Cursor.inCondition_skip pieces.length c]
  refine ⟨a, ?_, ha⟩
  rw [TokenParser.withCondition, hsame, hrun]
  dsimp only
  rw [hrestored]

theorem asTypeOperand (h : Reads p pieces next Q) :
    Reads (TokenParser.withTypeOperand p) pieces next Q := by
  intro c rest hmode hpieces hnext
  obtain ⟨a, hrun, ha⟩ := h { c with inTypeOperand := true } rest hmode hpieces hnext
  have hrestored : { c.skip pieces.length with inTypeOperand := c.inTypeOperand } =
      c.skip pieces.length := by
    rw [← Cursor.inTypeOperand_skip pieces.length c]
  refine ⟨a, ?_, ha⟩
  rw [TokenParser.withTypeOperand, hrun]
  dsimp only
  rw [Cursor.skip_inTypeOperand, hrestored]

end Reads

/-! ### Repetition -/

/-- The step, repeated from `a` on, reads the pieces and ends with a result that has `Q`. -/
def Iterates {α : Type} (step : α → TokenParser (Option α)) (a : α) (pieces : List Piece)
    (next : Token → Prop) (Q : α → Prop) : Prop :=
  ∀ bound : List Lexeme, pieces.length ≤ bound.length →
    Reads (TokenParser.iterateWithin step bound a) pieces next Q

namespace Iterates

variable {α : Type} {step : α → TokenParser (Option α)} {a : α} {first second : List Piece}
  {next middle : Token → Prop} {P Q : α → Prop}

theorem done (hstep : Reads (step a) [] next fun result => result = none) (ha : Q a) :
    Iterates step a [] next Q := by
  intro bound _
  cases bound with
  | nil => exact .pure ha
  | cons _ bound =>
    rw [TokenParser.iterateWithin]
    refine hstep.bind (fun result hresult => ?_) fun _ hnext => hnext
    rw [hresult]
    exact .pure ha

theorem again (hstep : Reads (step a) first middle fun result => ∃ b, result = some b ∧ P b)
    (hne : first ≠ []) (hrest : ∀ b, P b → Iterates step b second next Q)
    (hmiddle : ∀ rest, Before next rest → Before middle (second ++ rest)) :
    Iterates step a (first ++ second) next Q := by
  intro bound hbound
  have hlength := List.length_pos_of_ne_nil hne
  rw [List.length_append] at hbound
  cases bound with
  | nil =>
    rw [List.length_nil] at hbound
    omega
  | cons _ bound =>
    rw [TokenParser.iterateWithin]
    refine hstep.bind (fun result hresult => ?_) hmiddle
    obtain ⟨b, rfl, hb⟩ := hresult
    rw [List.length_cons] at hbound
    exact hrest b hb bound (by omega)

theorem once {pieces : List Piece}
    (hstep : Reads (step a) pieces next fun result => ∃ b, result = some b ∧ Q b)
    (hne : pieces ≠ []) (hdone : ∀ b, Reads (step b) [] next fun result => result = none) :
    Iterates step a pieces next Q := by
  rw [← List.append_nil pieces]
  exact again hstep hne (fun b hb => done (hdone b) hb) fun _ hnext => hnext

/-- The bound on the number of steps is no obstacle. -/
theorem reads {pieces : List Piece} (h : Iterates step a pieces next Q) :
    Reads (TokenParser.iterate step a) pieces next Q := by
  intro c rest hmode hpieces hnext
  -- Something follows the pieces, so there are at least as many lexemes after the first one.
  refine h c.after ?_ c rest hmode hpieces hnext
  have hlength := congrArg List.length hpieces
  have hrest := List.length_pos_of_ne_nil hnext.ne_nil
  rw [Cursor.pieces, List.length_map, List.length_cons, List.length_append] at hlength
  omega

end Iterates

namespace Reads

variable {α β : Type} {item : TokenParser α} {close : Token} {pieces : β → List Piece}
  {P : α → β → Prop}

/-- What is asked of the items of a list: each is read before a comma or the closing token, and does
    not start with the closing token. -/
structure Item (item : TokenParser α) (close : Token) (pieces : List Piece) (Q : α → Prop) :
    Prop where
  reads : Reads item pieces (fun t => t = .symbol .comma ∨ t = close) Q
  start : Before (fun t => t ≠ close) pieces

variable {wanted : List β}

theorem length_le_flatMap (pieces : β → List Piece) (wanted : List β) :
    wanted.length ≤ (wanted.flatMap fun b => Piece.symbol .comma :: pieces b).length := by
  induction wanted with
  | nil => exact Nat.le_refl _
  | cons b wanted ih =>
    rw [List.flatMap_cons, List.length_append, List.length_cons, List.length_cons]
    omega

theorem before_items {rest : List Piece} (h : Before (fun t => t = close) rest) :
    Before (fun t => t = .symbol .comma ∨ t = close)
      ((wanted.flatMap fun b => .symbol .comma :: pieces b) ++ rest) := by
  cases wanted with
  | nil => exact h.mono fun t ht => .inr ht
  | cons b wanted => exact .cons (.inl rfl)

theorem item_cons {b : β} (hb : Item item close (pieces b) fun a => P a b)
    {others : TokenParser (List α)}
    (hothers : Reads others (wanted.flatMap fun b => .symbol .comma :: pieces b)
      (fun t => t = close) fun as => List.Forall₂ P as wanted) :
    Reads (do
      if ← TokenParser.sees close then
        return []
      else
        let first ← item
        let rest ← others
        return first :: rest)
      (pieces b ++ wanted.flatMap fun b => .symbol .comma :: pieces b) (fun t => t = close)
      fun as => List.Forall₂ P as (b :: wanted) := by
  refine sees_not.bind (fun result hresult => ?_) fun rest _ => ?_
  · rw [hresult, if_neg Bool.noConfusion]
    refine hb.reads.bind (fun a ha => ?_) fun rest hrest => before_items hrest
    exact hothers.finish (fun as has => .pure (.cons ha has)) fun _ ht => ht
  · exact (hb.start.append _).append rest

theorem itemsWithin (h : ∀ b ∈ wanted, Item item close (pieces b) fun a => P a b)
    (hcomma : close ≠ .symbol .comma) {bound : List Lexeme}
    (hbound : wanted.length ≤ bound.length) :
    Reads (TokenParser.itemsWithin close item bound)
      (wanted.flatMap fun b => .symbol .comma :: pieces b) (fun t => t = close)
      fun as => List.Forall₂ P as wanted := by
  induction wanted generalizing bound with
  | nil =>
    cases bound with
    | nil => exact .pure .nil
    | cons _ bound =>
      rw [TokenParser.itemsWithin]
      have heat : Reads (TokenParser.eat (.symbol .comma)) [] (fun t => t = close)
          fun b => b = false := eat_not.before fun t ht => ht ▸ hcomma
      refine heat.bind (fun result hresult => ?_) fun _ hnext => hnext
      rw [hresult]
      exact .pure .nil
  | cons b wanted ih =>
    obtain ⟨hb, hwanted⟩ := List.forall_mem_cons.mp h
    cases bound with
    | nil => simp at hbound
    | cons _ bound =>
      rw [TokenParser.itemsWithin, List.flatMap_cons, List.cons_append]
      refine (eat rfl).andThen fun result hresult => ?_
      rw [hresult, if_pos rfl]
      exact item_cons hb (ih hwanted (Nat.le_of_succ_le_succ hbound))

theorem items (h : ∀ b ∈ wanted, Item item close (pieces b) fun a => P a b)
    (hcomma : close ≠ .symbol .comma) :
    Reads (TokenParser.items close item)
      (wanted.flatMap fun b => .symbol .comma :: pieces b) (fun t => t = close)
      fun as => List.Forall₂ P as wanted := by
  intro c rest hmode hpieces hnext
  have hafter : c.after.length + 1 =
      (wanted.flatMap fun b => .symbol .comma :: pieces b).length + rest.length := by
    have hlength := congrArg List.length hpieces
    rwa [Cursor.pieces, List.length_map, List.length_cons, List.length_append] at hlength
  have hrest := List.length_pos_of_ne_nil hnext.ne_nil
  have hwanted := length_le_flatMap pieces wanted
  exact itemsWithin h hcomma (by omega) c rest hmode hpieces hnext

/-- Items between brackets, of which the opening one has been read. -/
theorem delimited {closing : Piece} (hclosing : closing.token = close)
    (h : ∀ b ∈ wanted, Item item close (pieces b) fun a => P a b)
    (hcomma : close ≠ .symbol .comma) :
    Reads (TokenParser.delimited close item) (listPieces (wanted.map pieces) ++ [closing]) anything
      fun as => List.Forall₂ P as wanted := by
  have hcontents : Reads (do
      if ← TokenParser.sees close then
        return []
      else
        let first ← item
        let rest ← TokenParser.items close item
        return first :: rest) (listPieces (wanted.map pieces)) (fun t => t = close)
      fun as => List.Forall₂ P as wanted := by
    cases wanted with
    | nil =>
      refine sees.bind (fun result hresult => ?_) fun _ hnext => hnext
      rw [hresult, if_pos rfl]
      exact .pure .nil
    | cons b wanted =>
      obtain ⟨hb, hwanted⟩ := List.forall_mem_cons.mp h
      rw [listPieces, List.map_cons, Text.intercalate_cons, List.flatMap_map]
      exact item_cons hb (items hwanted hcomma)
  refine outOfCondition (hcontents.bind (fun as has => ?_) fun rest _ => .cons hclosing)
  exact (expect hclosing).finish (fun _ _ => .pure has) fun _ _ => trivial

end Reads

end ScriptCompiler
