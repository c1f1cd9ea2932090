import ScriptCompiler.Proofs.Consumption
import ScriptCompiler.Proofs.OperatorTrees
import ScriptCompiler.Proofs.RelocatedParsing

/-!
# Parsers that climb by precedence

A climbing parser reads an operand, and then operators with their right operands as long as they
bind tightly enough. On a chain of operands and operators up to the end token it does what
precedence climbing does on the chain. It can only fail where an operator refuses its left operand.
-/

namespace ScriptCompiler

/-- A value with the text and the place of the lexeme that stands for it. -/
structure Lexed (α : Type) where
  value : α
  text : String
  span : Span

/-- The lexeme of a value whose token is given by `token`. -/
def Lexed.lexeme {α : Type} (token : α → Token) (a : Lexed α) : Lexeme :=
  ⟨token a.value, a.text, a.span⟩

/-- Operands with operators between them. -/
structure OperatorChain (κ ω : Type) where
  first : Lexed κ
  links : List (Lexed ω × Lexed κ)

theorem Cursor.token_of_rest {c : Cursor} {l : Lexeme} {rest : List Lexeme}
    (h : c.rest = l :: rest) : c.token = l.token :=
  congrArg Lexeme.token (List.cons.inj h).1

theorem Cursor.rest_advance {c : Cursor} {l next : Lexeme} {rest : List Lexeme}
    (h : c.rest = l :: next :: rest) : c.advance.rest = next :: rest := by
  have hafter : c.after = next :: rest := (List.cons.inj h).2
  rw [Cursor.advance, hafter]
  rfl

theorem TokenParser.iterateWithin_cons {α : Type} (step : α → TokenParser (Option α)) (l : Lexeme)
    (bound : List Lexeme) (a : α) (c : Cursor) :
    iterateWithin step (l :: bound) a c =
      match step a c with
      | .ok (some b) d => iterateWithin step bound b d
      | .ok none d => .ok a d
      | .error error d => .error error d := by
  rw [iterateWithin]
  show EStateM.bind (step a) _ c = _
  unfold EStateM.bind
  cases step a c with
  | ok b d => cases b <;> rfl
  | error error d => rfl

/-- A repeated step that has no result leaves everything as it is. -/
theorem TokenParser.iterateWithin_stop {α : Type} {step : α → TokenParser (Option α)} {a : α}
    {c : Cursor} (h : step a c = .ok none c) (bound : List Lexeme) :
    iterateWithin step bound a c = .ok a c := by
  cases bound with
  | nil => rfl
  | cons l bound => rw [iterateWithin_cons, h]

section

variable {κ ω τ : Type}

namespace OperatorTree

variable (accepts : ω → OperatorTree τ ω → Bool)

/-- Every operator accepts its left operand. -/
def Accepted : OperatorTree τ ω → Prop
  | operand _ => True
  | node op left right => accepts op left = true ∧ left.Accepted ∧ right.Accepted

end OperatorTree

/-- The parsers of a grammar that climbs by precedence, and what each of them does at an operand, an
    operator and the end token. Operands are of kind `κ`, and the results are trees of type `τ`. -/
structure ClimbingParser (κ ω τ : Type) where
  table : OperatorTable ω
  operandToken : κ → Token
  operatorToken : ω → Token
  /-- What an operand is read as. -/
  leaf : Lexed κ → τ
  shape : τ → OperatorTree τ ω
  /-- Does the operator take this left operand? -/
  accepts : ω → OperatorTree τ ω → Bool
  /-- Reads operators of at least the given precedence, where as many operators may be nested as the
      first number says. -/
  read : Nat → Nat → TokenParser τ
  /-- One more operator with its right operand. -/
  step : Nat → Nat → τ → TokenParser (Option τ)
  shape_leaf : ∀ a, shape (leaf a) = .operand (leaf a)
  read_operand : ∀ {n least : Nat} {c : Cursor} {a : Lexed κ} {next : Lexeme} {rest : List Lexeme},
    c.rest = a.lexeme operandToken :: next :: rest →
    next.token = .eof ∨ (∃ op, next.token = operatorToken op) →
    read n least c = TokenParser.iterateWithin (step n least) rest (leaf a) c.advance
  step_atEnd : ∀ {n least : Nat} {left : τ} {c : Cursor}, c.token = .eof →
    step n least left c = .ok none c
  step_stop : ∀ {n least : Nat} {left : τ} {c : Cursor} {op : ω}, c.token = operatorToken op →
    table.precedence op < least → step n least left c = .ok none c
  step_refused : ∀ {n least : Nat} {left : τ} {c : Cursor} {op : ω}, c.token = operatorToken op →
    least ≤ table.precedence op → accepts op (shape left) = false →
    ∃ error d, step n least left c = .error error d ∧ error.cause = .invalidTarget
  step_failed : ∀ {n least : Nat} {left : τ} {c d : Cursor} {op : ω} {error : ParseError},
    c.token = operatorToken op → least ≤ table.precedence op → accepts op (shape left) = true →
    read n (table.rightLeast op) c.advance = .error error d →
    step (n + 1) least left c = .error error d
  step_read : ∀ {n least : Nat} {left right : τ} {c d : Cursor} {op : ω},
    c.token = operatorToken op → least ≤ table.precedence op → accepts op (shape left) = true →
    read n (table.rightLeast op) c.advance = .ok right d →
    ∃ t, step (n + 1) least left c = .ok (some t) d ∧
      shape t = .node op (shape left) (shape right)

namespace ClimbingParser

variable (parser : ClimbingParser κ ω τ)

/-- The operators and the operands that follow them, as they are read. -/
def reading (links : List (Lexed ω × Lexed κ)) : List (ω × τ) :=
  links.map fun link => (link.1.value, parser.leaf link.2)

/-- The lexemes of operators and the operands that follow them. -/
def linkLexemes (links : List (Lexed ω × Lexed κ)) : List Lexeme :=
  links.flatMap fun link =>
    [link.1.lexeme parser.operatorToken, link.2.lexeme parser.operandToken]

/-- The lexemes of a chain. -/
def lexemes (chain : OperatorChain κ ω) : List Lexeme :=
  chain.first.lexeme parser.operandToken :: parser.linkLexemes chain.links

variable {parser}

theorem length_linkLexemes (links : List (Lexed ω × Lexed κ)) :
    (parser.linkLexemes links).length = 2 * links.length := by
  induction links with
  | nil => rfl
  | cons link links ih =>
    rw [linkLexemes, List.flatMap_cons, List.length_append, ← linkLexemes, ih, List.length_cons,
      List.length_cons, List.length_cons, List.length_nil]
    omega

variable {last : Lexeme}

/-- An operand is read first, and then one operator after the other. -/
theorem read_eq_iterateWithin (hlast : last.token = .eof) {c : Cursor} {a : Lexed κ}
    {links : List (Lexed ω × Lexed κ)}
    (hc : c.rest = a.lexeme parser.operandToken :: (parser.linkLexemes links ++ [last])) :
    c.advance.rest = parser.linkLexemes links ++ [last] ∧
      ∃ bound, links.length ≤ bound.length ∧ ∀ n least,
        parser.read n least c =
          TokenParser.iterateWithin (parser.step n least) bound (parser.leaf a) c.advance := by
  cases links with
  | nil =>
    exact ⟨Cursor.rest_advance hc, [], Nat.le_refl _,
      fun _ _ => parser.read_operand hc (.inl hlast)⟩
  | cons link links =>
    refine ⟨Cursor.rest_advance hc,
      link.2.lexeme parser.operandToken :: (parser.linkLexemes links ++ [last]), ?_,
      fun _ _ => parser.read_operand hc (.inr ⟨link.1.value, rfl⟩)⟩
    rw [List.length_cons, List.length_cons, List.length_append, length_linkLexemes]
    omega

theorem accepted_of_climbs {least : Nat} {left t : OperatorTree τ ω} {links rest : List (ω × τ)}
    (h : Climbs parser.table least left links t rest) (ht : t.Accepted parser.accepts) :
    left.Accepted parser.accepts := by
  induction h with
  | stop => exact ht
  | step _ _ _ _ ihrest => exact (ihrest ht).2.1

/-- What the repeated step does from a cursor before the given links: it finds the tree `t` and
    stops before the links `rest`, or an operator refuses its left operand. -/
inductive Ends (parser : ClimbingParser κ ω τ) (last : Lexeme) (bound : Nat) (t : OperatorTree τ ω)
    (rest : List (ω × τ)) : EStateM.Result ParseError Cursor τ → Prop where
  | read {e : τ} {c : Cursor} {links : List (Lexed ω × Lexed κ)} (hshape : parser.shape e = t)
      (haccepted : t.Accepted parser.accepts) (hrest : rest = parser.reading links)
      (hc : c.rest = parser.linkLexemes links ++ [last]) (hbound : links.length ≤ bound) :
      Ends parser last bound t rest (.ok e c)
  | refused {error : ParseError} {c : Cursor} (hcause : error.cause = .invalidTarget)
      (hrefused : ¬ t.Accepted parser.accepts) : Ends parser last bound t rest (.error error c)

theorem Ends.mono {bound bound' : Nat} {t : OperatorTree τ ω} {rest : List (ω × τ)}
    {result : EStateM.Result ParseError Cursor τ} (h : Ends parser last bound t rest result)
    (hle : bound ≤ bound') : Ends parser last bound' t rest result := by
  cases h with
  | read hshape haccepted hrest hc hbound =>
    exact .read hshape haccepted hrest hc (Nat.le_trans hbound hle)
  | refused hcause hrefused => exact .refused hcause hrefused

/-- One round: the operator is read with its right operand, or refuses its left one, or another one
    is refused inside the right operand. -/
theorem step_ends {n least bound : Nat} {e : τ} {c : Cursor} {op : ω} {right : OperatorTree τ ω}
    {middle : List (ω × τ)} (htoken : c.token = parser.operatorToken op)
    (hop : least ≤ parser.table.precedence op)
    (haccepted : (parser.shape e).Accepted parser.accepts)
    (hright : Ends parser last bound right middle
      (parser.read n (parser.table.rightLeast op) c.advance)) :
    (∃ t d, parser.step (n + 1) least e c = .ok (some t) d ∧
      Ends parser last bound (.node op (parser.shape e) right) middle (.ok t d)) ∨
    ∃ error d, parser.step (n + 1) least e c = .error error d ∧
      Ends parser last bound (.node op (parser.shape e) right) middle (.error error d) := by
  cases haccepts : parser.accepts op (parser.shape e) with
  | false =>
    obtain ⟨error, d, hstep, hcause⟩ := parser.step_refused htoken hop haccepts
    exact .inr ⟨error, d, hstep, .refused hcause fun h => by simp [h.1] at haccepts⟩
  | true =>
    generalize hrun : parser.read n (parser.table.rightLeast op) c.advance = result at hright
    cases hright with
    | read hshape hright hmiddle hd hbound =>
      obtain ⟨t, hstep, ht⟩ := parser.step_read htoken hop haccepts hrun
      rw [hshape] at ht
      exact .inl ⟨t, _, hstep, .read ht ⟨haccepts, haccepted, hright⟩ hmiddle hd hbound⟩
    | refused hcause hrefused =>
      exact .inr ⟨_, _, parser.step_failed htoken hop haccepts hrun,
        .refused hcause fun h => hrefused h.2.2⟩

theorem iterateWithin_climbs (hlast : last.token = .eof) {least : Nat}
    {left t : OperatorTree τ ω} {read rest : List (ω × τ)}
    (h : Climbs parser.table least left read t rest) {n : Nat} {e : τ} {c : Cursor}
    {links : List (Lexed ω × Lexed κ)} {bound : List Lexeme} (hleft : parser.shape e = left)
    (haccepted : left.Accepted parser.accepts) (hread : read = parser.reading links)
    (hc : c.rest = parser.linkLexemes links ++ [last]) (hn : links.length ≤ n)
    (hbound : links.length ≤ bound.length) :
    Ends parser last links.length t rest
      (TokenParser.iterateWithin (parser.step n least) bound e c) := by
  induction h generalizing n e c links bound with
  | @stop least left _ hstop =>
    have hstep : parser.step n least e c = .ok none c := by
      cases links with
      | nil => exact parser.step_atEnd ((Cursor.token_of_rest hc).trans hlast)
      | cons link links =>
        rw [hread] at hstop
        exact parser.step_stop (Cursor.token_of_rest hc) (hstop _ rfl)
    rw [TokenParser.iterateWithin_stop hstep]
    exact .read hleft haccepted hread hc (Nat.le_refl _)
  | @step least left right t _ _ _ middle rest hop hright hrest ihright ihrest =>
    cases links with
    | nil => cases hread
    | cons link links =>
      obtain ⟨hlink, hlinks⟩ := List.cons.inj hread
      obtain ⟨rfl, rfl⟩ := Prod.mk.inj hlink
      cases bound with
      | nil => cases hbound
      | cons l bound =>
        cases n with
        | zero => cases hn
        | succ n =>
          subst hleft
          have hn : links.length ≤ n := Nat.le_of_succ_le_succ hn
          have hbound : links.length ≤ bound.length := Nat.le_of_succ_le_succ hbound
          obtain ⟨hrest', others, hothers, hrun⟩ :=
            read_eq_iterateWithin hlast (Cursor.rest_advance hc)
          have hends := ihright (parser.shape_leaf link.2) trivial hlinks hrest' hn hothers
          rw [← hrun] at hends
          rw [TokenParser.iterateWithin_cons]
          rcases step_ends (Cursor.token_of_rest hc) hop haccepted hends with
            ⟨e', d, hstep, hends⟩ | ⟨error, d, hstep, hends⟩
          · rw [hstep]
            cases hends with
            | read hshape haccepted hmiddle hd hle =>
              have hle' := Nat.le_succ_of_le (Nat.le_trans hle hn)
              have hmore := ihrest hshape haccepted hmiddle hd hle' (Nat.le_trans hle hbound)
              exact hmore.mono (Nat.le_succ_of_le hle)
          · rw [hstep]
            cases hends with
            | refused hcause hrefused =>
              -- What has been refused stays part of the whole tree.
              exact .refused hcause fun ht => hrefused (accepted_of_climbs hrest ht)

/-- A chain up to the end token is read as its grouped tree, unless an operator of this tree refuses
    its left operand. -/
theorem reads_chain (hlast : last.token = .eof) {least : Nat}
    (hleast : ∀ op, least ≤ parser.table.precedence op) (chain : OperatorChain κ ω)
    {tokens : List Lexeme} (htokens : tokens = parser.lexemes chain ++ [last]) :
    ∃ t : OperatorTree τ ω, t.Grouped parser.table ∧ t.first = parser.leaf chain.first ∧
      t.links = parser.reading chain.links ∧
      ((t.Accepted parser.accepts ∧
          ∃ e d, parser.read tokens.length least (Cursor.ofLexemes tokens) = .ok e d ∧
            parser.shape e = t ∧ d.rest = [last]) ∨
        (¬ t.Accepted parser.accepts ∧
          ∃ error d, parser.read tokens.length least (Cursor.ofLexemes tokens) = .error error d ∧
            error.cause = .invalidTarget)) := by
  subst htokens
  have hc : (Cursor.ofLexemes (parser.lexemes chain ++ [last])).rest =
      parser.lexemes chain ++ [last] := Cursor.rest_ofLexemes hlast
  obtain ⟨t, hclimbs, hgrouped, hfirst, hlinks⟩ :=
    exists_climbs_grouped parser.table hleast (parser.leaf chain.first)
      (parser.reading chain.links)
  obtain ⟨hrest, bound, hbound, hrun⟩ := read_eq_iterateWithin hlast hc
  have hn : chain.links.length ≤ (parser.lexemes chain ++ [last]).length := by
    rw [List.length_append, lexemes, List.length_cons, length_linkLexemes]
    omega
  have hends := iterateWithin_climbs hlast hclimbs (parser.shape_leaf chain.first) trivial rfl hrest
    hn hbound
  refine ⟨t, hgrouped, hfirst, hlinks, ?_⟩
  rw [← hrun] at hends
  revert hends
  generalize parser.read _ least _ = result
  intro hends
  cases hends with
  | read hshape haccepted hnil hd =>
    rw [List.map_eq_nil_iff.mp hnil.symm] at hd
    exact .inl ⟨haccepted, _, _, rfl, hshape, hd⟩
  | refused hcause hrefused => exact .inr ⟨hrefused, _, _, rfl, hcause⟩

end ClimbingParser

end

end ScriptCompiler
