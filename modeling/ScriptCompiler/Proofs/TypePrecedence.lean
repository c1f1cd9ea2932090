import ScriptCompiler.Proofs.OperatorChains
import ScriptCompiler.Proofs.ReadBack

/-!
# Type operators group by precedence

A chain of names with type operators between them is always read to its end, as the one tree that
groups the operators by their precedence: the arrow to the right, the others to the left. In the
type after `is` or `as` the same lexemes are read as their first name alone.
-/

namespace ScriptCompiler

open TokenParser

namespace TypeOp

/-- The precedence of type operators. -/
def table : OperatorTable TypeOp where
  precedence := precedence
  groupsRight := groupsRight
  uniform := by
    intro op op'
    cases op <;> cases op' <;> decide

def token (op : TypeOp) : Token :=
  .symbol op.symbol

theorem typeOp?_token (op : TypeOp) : op.token.typeOp? = some op := by
  cases op <;> rfl

end TypeOp

/-- The operators of a type outside its arguments, brackets and parentheses. -/
def TypeExpr.shape : TypeExpr → OperatorTree TypeExpr TypeOp
  | .binary _ op left right => .node op left.shape right.shape
  | t => .operand t

def Lexed.type (a : Lexed String) : TypeExpr :=
  .named (a.span.through a.span) ⟨a.value, a.span.through a.span⟩ []

namespace Grammar

variable {g : Grammar} {least : Nat} {left : TypeExpr} {c : Cursor}

/-- A name before a type operator or the end token is a type without arguments. -/
theorem primaryType_ident {a : Lexed String} {next : Lexeme} {rest : List Lexeme}
    (hc : c.rest = a.lexeme .ident :: next :: rest)
    (hnext : next.token = .eof ∨ ∃ op : TypeOp, next.token = op.token) :
    g.primaryType c = .ok a.type c.advance := by
  have hname : joinPath [⟨a.value, a.span⟩] = a.value := joinPath_singleton _
  obtain ⟨before, current, after, inCondition, inTypeOperand⟩ := c
  obtain ⟨rfl, rfl⟩ := List.cons.inj hc
  obtain ⟨token, text, span⟩ := next
  rw [Lexed.type, ← hname]
  rcases hnext with rfl | ⟨op, rfl⟩
  · cases rest <;> rfl
  · cases op <;> cases rest <;> rfl

theorem typeStep_atEnd (hc : c.token = .eof) : g.typeStep least left c = .ok none c := by
  unfold typeStep
  rw [peek_bind, hc]
  rfl

theorem typeStep_loose {op : TypeOp} (hc : c.token = op.token) (hlt : op.precedence < least) :
    g.typeStep least left c = .ok none c := by
  unfold typeStep
  rw [peek_bind, hc, op.typeOp?_token]
  dsimp only
  rw [if_pos hlt]
  rfl

/-- A type operator that binds tightly enough is consumed, with its right operand. -/
theorem typeStep_tight {op : TypeOp} (hc : c.token = op.token) (hle : least ≤ op.precedence) :
    g.typeStep least left c =
      match g.nestedType (TypeOp.table.rightLeast op) c.advance with
      | .ok right d => .ok (some (.binary (left.span.through right.span) op left right)) d
      | .error error d => .error error d := by
  unfold typeStep
  rw [peek_bind, hc, op.typeOp?_token]
  dsimp only
  rw [if_neg (Nat.not_lt_of_le hle)]
  show EStateM.bind (g.nestedType (TypeOp.table.rightLeast op)) _ c.advance = _
  unfold EStateM.bind
  cases g.nestedType (TypeOp.table.rightLeast op) c.advance <;> rfl

end Grammar

/-- The parsers of types climb by precedence, and no operator refuses an operand. -/
def typeParser : ClimbingParser String TypeOp TypeExpr where
  table := TypeOp.table
  operandToken := .ident
  operatorToken := TypeOp.token
  leaf := Lexed.type
  shape := TypeExpr.shape
  accepts _ _ := true
  read n := (Grammar.level n).typeAt
  step n := (Grammar.level n).typeStep
  shape_leaf _ := rfl
  read_operand {n least c a next rest} hc hnext := by
    have hafter : c.advance.after = rest := (List.cons.inj (Cursor.rest_advance hc)).2
    show EStateM.bind (Grammar.primaryType _) _ c = _
    unfold EStateM.bind
    rw [Grammar.primaryType_ident hc hnext]
    show iterateWithin _ c.advance.after _ _ = _
    rw [hafter]
  step_atEnd := Grammar.typeStep_atEnd
  step_stop := Grammar.typeStep_loose
  step_refused _ _ hrefused := Bool.noConfusion hrefused
  step_failed {n least left c d op error} hc hle _ hrun := by
    have hnested : (Grammar.level (n + 1)).nestedType (TypeOp.table.rightLeast op) c.advance =
        .error error d := hrun
    rw [Grammar.typeStep_tight hc hle, hnested]
  step_read {n least left right c d op} hc hle _ hrun := by
    have hnested : (Grammar.level (n + 1)).nestedType (TypeOp.table.rightLeast op) c.advance =
        .ok right d := hrun
    rw [Grammar.typeStep_tight hc hle, hnested]
    exact ⟨_, rfl, rfl⟩

/-- The type has the names and the operators of the chain from left to right, and groups the
    operators by their precedence. -/
structure TypeExpr.IsTreeOf (t : TypeExpr) (chain : OperatorChain String TypeOp) : Prop where
  first : t.shape.first = chain.first.type
  links : t.shape.links = chain.links.map fun link => (link.1.value, link.2.type)
  grouped : t.shape.Grouped TypeOp.table

theorem TypeExpr.IsTreeOf.shape_eq {t t' : TypeExpr} {chain : OperatorChain String TypeOp}
    (h : t.IsTreeOf chain) (h' : t'.IsTreeOf chain) : t'.shape = t.shape :=
  h'.grouped.eq_of_links h.grouped (h'.first.trans h.first.symm) (h'.links.trans h.links.symm)

theorem typeParser_accepted (t : OperatorTree TypeExpr TypeOp) : t.Accepted typeParser.accepts := by
  induction t with
  | operand a => trivial
  | node op left right ihleft ihright => exact ⟨rfl, ihleft, ihright⟩

/-- A type operand stops before the first operator. -/
theorem typeOperand_chain {chain : OperatorChain String TypeOp} {last : Lexeme}
    (hlast : last.token = .eof) (n : Nat) {c : Cursor}
    (hc : c.rest = typeParser.lexemes chain ++ [last]) :
    withTypeOperand ((Grammar.level (n + 1)).nestedType TypeOp.operandOnly) c =
        .ok chain.first.type c.advance ∧
      c.advance.rest = typeParser.linkLexemes chain.links ++ [last] := by
  -- No type operator binds as tightly as a type operand asks for.
  have hstop : ∀ c : Cursor, c.rest = typeParser.linkLexemes chain.links ++ [last] →
      (Grammar.level n).typeStep TypeOp.operandOnly chain.first.type c = .ok none c := by
    intro c hc
    cases hlinks : chain.links with
    | nil =>
      rw [hlinks] at hc
      exact Grammar.typeStep_atEnd ((Cursor.token_of_rest hc).trans hlast)
    | cons link links =>
      rw [hlinks] at hc
      exact Grammar.typeStep_loose (Cursor.token_of_rest hc) (by cases link.1.value <;> decide)
  obtain ⟨before, current, after, inCondition, inTypeOperand⟩ := c
  obtain ⟨hrest, bound, -, hrun⟩ := ClimbingParser.read_eq_iterateWithin hlast
    (c := ⟨before, current, after, inCondition, true⟩) hc
  have hread : (Grammar.level (n + 1)).nestedType TypeOp.operandOnly
      ⟨before, current, after, inCondition, true⟩ =
        .ok chain.first.type (Cursor.advance ⟨before, current, after, inCondition, true⟩) :=
    (hrun n TypeOp.operandOnly).trans (iterateWithin_stop (hstop _ hrest) bound)
  rw [withTypeOperand, hread]
  cases after with
  | nil => exact ⟨rfl, hrest⟩
  | cons next after => exact ⟨rfl, hrest⟩

/-- A chain of names and type operators is read to its end, as the one tree that groups the
    operators by precedence; as a type operand it is read as its first name. -/
theorem parseType_chain (chain : OperatorChain String TypeOp) (text : String) (place : Span) :
    let lexemes := typeParser.lexemes chain ++ [⟨.eof, text, place⟩]
    (∃ t, parseType lexemes = .ok t ∧
      ReadsWhole (fun g => g.nestedType TypeOp.loosest) lexemes t ∧ t.IsTreeOf chain ∧
      ∀ t' : TypeExpr, t'.IsTreeOf chain → t'.shape = t.shape) ∧
    ∃ c, withTypeOperand
        ((Grammar.level (lexemes.length + 1)).nestedType TypeOp.operandOnly)
        (Cursor.ofLexemes lexemes) = .ok chain.first.type c ∧ c.rest = lexemes.tail := by
  intro lexemes
  have hlast : (⟨.eof, text, place⟩ : Lexeme).token = .eof := rfl
  constructor
  · have hleast : ∀ op, TypeOp.loosest ≤ typeParser.table.precedence op := by
      intro op
      cases op <;> decide
    obtain ⟨tree, hgrouped, hfirst, hlinks, hrun⟩ :=
      typeParser.reads_chain hlast hleast chain (rfl : lexemes = _)
    obtain ⟨-, t, d, hrun, rfl, hd⟩ | ⟨hrefused, -⟩ := hrun
    · have hwhole : ReadsWhole (fun g => g.nestedType TypeOp.loosest) lexemes t :=
        ⟨d, hrun, Cursor.token_of_rest hd, (List.cons.inj hd).2⟩
      have htree : t.IsTreeOf chain := ⟨hfirst, hlinks, hgrouped⟩
      exact ⟨t, hwhole.runParser_eq, hwhole, htree, fun t' => htree.shape_eq⟩
    · exact absurd (typeParser_accepted tree) hrefused
  · obtain ⟨hrun, hrest⟩ := typeOperand_chain hlast lexemes.length (Cursor.rest_ofLexemes hlast)
    exact ⟨_, hrun, hrest⟩

end ScriptCompiler
