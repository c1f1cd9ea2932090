import ScriptCompiler.Proofs.OperatorChains
import ScriptCompiler.Proofs.ReadBack

/-!
# Binary operators and assignments group by precedence

A chain of single tokens with binary operators and `=` between them is read to its end exactly if no
`=` comes after a binary operator and only names stand directly before an `=`. It is then read as
the one tree in which binary operators are grouped by their precedence and to the left, and
assignments to the right, outside of all binary operators.
-/

namespace ScriptCompiler

open TokenParser

/-- Expressions of a single token. -/
inductive Atom where
  | number (digits : String)
  | string (value : String)
  | bool (value : Bool)
  | ident (name : String)
  | self
  | selfType

namespace Atom

def token : Atom → Token
  | number digits => .number digits
  | string value => .string value
  | bool value => .bool value
  | ident name => .ident name
  | self => .keyword .selfKw
  | selfType => .keyword .selfTypeKw

/-- Identifiers, `self` and `Self` are names. -/
def isName : Atom → Bool
  | ident _ | self | selfType => true
  | number _ | string _ | bool _ => false

end Atom

def Lexed.expr (a : Lexed Atom) : Expr :=
  match a.value with
  | .number digits => .number a.span digits
  | .string value => .string a.span value
  | .bool value => .bool a.span value
  | .ident name => .name a.span ⟨name, a.span⟩
  | .self => .name a.span ⟨"self", a.span⟩
  | .selfType => .name a.span ⟨"Self", a.span⟩

/-- The assignment and the binary operators. -/
inductive ValueOp where
  | assign
  | binary (op : BinaryOp)

namespace ValueOp

def infixOp : ValueOp → InfixOp
  | assign => .assign
  | binary op => .binary op

def token : ValueOp → Token
  | assign => .symbol .eq
  | binary op => .symbol op.symbol

theorem infixOp?_token (op : ValueOp) : op.token.infixOp? = some op.infixOp := by
  cases op with
  | assign => rfl
  | binary op => cases op <;> rfl

/-- The precedence of the assignment and of the binary operators. Only the assignment groups to the
    right. -/
def table : OperatorTable ValueOp where
  precedence op := op.infixOp.precedence
  groupsRight
    | assign => true
    | binary _ => false
  uniform := by
    intro op op'
    cases op with
    | assign =>
      cases op' with
      | assign => exact fun _ => rfl
      | binary op' => cases op' <;> decide
    | binary op =>
      cases op' with
      | assign => cases op <;> decide
      | binary op' => exact fun _ => rfl

theorem loosest_le_precedence (op : ValueOp) : Expr.loosest ≤ table.precedence op := by
  cases op with
  | assign => decide
  | binary op => cases op <;> decide

theorem one_lt_precedence_binary (op : BinaryOp) : 1 < table.precedence (binary op) := by
  cases op <;> decide

/-- Does the operator take this left operand? Only names are assigned to. -/
def accepts : ValueOp → OperatorTree Expr ValueOp → Bool
  | binary _, _ => true
  | assign, .operand e => e.isAssignable
  | assign, .node .. => false

end ValueOp

/-- The assignments and binary operators of an expression outside its brackets, parentheses, calls
    and unary operators. -/
def Expr.shape : Expr → OperatorTree Expr ValueOp
  | .assign _ target value => .node .assign target.shape value.shape
  | .binary _ op left right => .node (.binary op) left.shape right.shape
  | e => .operand e

theorem Expr.accepts_assign_shape (e : Expr) :
    ValueOp.accepts .assign e.shape = e.isAssignable := by
  cases e <;> rfl

namespace Grammar

variable {g : Grammar} {least : Nat} {left : Expr} {c : Cursor}

/-- No call, member access or index starts with an operator. -/
theorem postfixStep_stop (e : Expr) (hc : c.token = .eof ∨ ∃ op : ValueOp, c.token = op.token) :
    g.postfixStep e c = .ok none c := by
  obtain ⟨before, ⟨token, text, span⟩, after, inCondition, inTypeOperand⟩ := c
  rcases hc with rfl | ⟨op, rfl⟩
  · rfl
  · cases op with
    | assign => rfl
    | binary op => cases op <;> rfl

/-- A single token before an operator or the end token is an operand. -/
theorem operand_atom {a : Lexed Atom} {next : Lexeme} {rest : List Lexeme}
    (hc : c.rest = a.lexeme Atom.token :: next :: rest)
    (hnext : next.token = .eof ∨ ∃ op : ValueOp, next.token = op.token) :
    g.operand c = .ok a.expr c.advance := by
  have hprimary : g.operand c = iterate g.postfixStep a.expr c.advance := by
    obtain ⟨before, current, after, inCondition, inTypeOperand⟩ := c
    obtain ⟨rfl, rfl⟩ := List.cons.inj hc
    obtain ⟨value, text, span⟩ := a
    cases value <;> rfl
  rw [hprimary]
  rw [← Cursor.token_of_rest (Cursor.rest_advance hc)] at hnext
  exact iterateWithin_stop (postfixStep_stop a.expr hnext) _

theorem exprStep_atEnd (hc : c.token = .eof) : g.exprStep least left c = .ok none c := by
  unfold exprStep
  rw [peek_bind, hc]
  rfl

variable {op : ValueOp}

theorem exprStep_loose (hc : c.token = op.token) (hlt : op.infixOp.precedence < least) :
    g.exprStep least left c = .ok none c := by
  unfold exprStep
  rw [peek_bind, hc, op.infixOp?_token]
  dsimp only
  rw [if_pos hlt]
  rfl

/-- An operator that binds tightly enough is consumed. -/
theorem exprStep_tight (hc : c.token = op.token) (hle : least ≤ op.infixOp.precedence) :
    g.exprStep least left c =
      match g.infixRest left op.infixOp c.advance with
      | .ok e d => .ok (some e) d
      | .error error d => .error error d := by
  unfold exprStep
  rw [peek_bind, hc, op.infixOp?_token]
  dsimp only
  rw [if_neg (Nat.not_lt_of_le hle)]
  show EStateM.map some (g.infixRest left op.infixOp) c.advance = _
  unfold EStateM.map
  cases g.infixRest left op.infixOp c.advance <;> rfl

/-- What follows an operator that takes the left operand is its right operand. -/
theorem infixRest_accepted (haccepts : op.accepts left.shape = true) :
    ∃ build : Expr → Expr,
      (∀ right, (build right).shape = .node op left.shape right.shape) ∧
      g.infixRest left op.infixOp c =
        match g.nestedExpr (ValueOp.table.rightLeast op) c with
        | .ok right d => .ok (build right) d
        | .error error d => .error error d := by
  cases op with
  | assign =>
    rw [Expr.accepts_assign_shape] at haccepts
    refine ⟨fun right => .assign (left.span.through right.span) left right, fun _ => rfl, ?_⟩
    show (if left.isAssignable then _ else _ : TokenParser Expr) c = _
    rw [if_pos haccepts]
    show EStateM.bind (g.nestedExpr (ValueOp.table.rightLeast .assign)) _ c = _
    unfold EStateM.bind
    cases g.nestedExpr (ValueOp.table.rightLeast .assign) c <;> rfl
  | binary op =>
    refine ⟨fun right => .binary (left.span.through right.span) op left right, fun _ => rfl, ?_⟩
    show EStateM.bind (g.nestedExpr (ValueOp.table.rightLeast (.binary op))) _ c = _
    unfold EStateM.bind
    cases g.nestedExpr (ValueOp.table.rightLeast (.binary op)) c <;> rfl

/-- Only an assignment refuses its left operand. -/
theorem infixRest_refused (haccepts : op.accepts left.shape = false) :
    g.infixRest left op.infixOp c = .error ⟨.invalidTarget, left.span⟩ c := by
  cases op with
  | assign =>
    rw [Expr.accepts_assign_shape] at haccepts
    show (if left.isAssignable then _ else _ : TokenParser Expr) c = _
    rw [haccepts]
    rfl
  | binary op => exact Bool.noConfusion haccepts

end Grammar

/-- The parsers of expressions climb by precedence. -/
def valueParser : ClimbingParser Atom ValueOp Expr where
  table := ValueOp.table
  operandToken := Atom.token
  operatorToken := ValueOp.token
  leaf := Lexed.expr
  shape := Expr.shape
  accepts := ValueOp.accepts
  read n := (Grammar.level n).exprAt
  step n := (Grammar.level n).exprStep
  shape_leaf a := by
    obtain ⟨value, text, span⟩ := a
    cases value <;> rfl
  read_operand {n least c a next rest} hc hnext := by
    have hafter : c.advance.after = rest := (List.cons.inj (Cursor.rest_advance hc)).2
    show EStateM.bind (Grammar.operand _) _ c = _
    unfold EStateM.bind
    rw [Grammar.operand_atom hc hnext]
    show iterateWithin _ c.advance.after _ _ = _
    rw [hafter]
  step_atEnd := Grammar.exprStep_atEnd
  step_stop := Grammar.exprStep_loose
  step_refused {n least left c op} hc hle hrefused := by
    rw [Grammar.exprStep_tight hc hle, Grammar.infixRest_refused hrefused]
    exact ⟨_, _, rfl, rfl⟩
  step_failed {n least left c d op error} hc hle haccepts hrun := by
    obtain ⟨build, -, hrest⟩ := Grammar.infixRest_accepted (g := Grammar.level (n + 1)) haccepts
    have hnested : (Grammar.level (n + 1)).nestedExpr (ValueOp.table.rightLeast op) c.advance =
        .error error d := hrun
    rw [Grammar.exprStep_tight hc hle, hrest, hnested]
  step_read {n least left right c d op} hc hle haccepts hrun := by
    obtain ⟨build, hbuild, hrest⟩ :=
      Grammar.infixRest_accepted (g := Grammar.level (n + 1)) haccepts
    have hnested : (Grammar.level (n + 1)).nestedExpr (ValueOp.table.rightLeast op) c.advance =
        .ok right d := hrun
    rw [Grammar.exprStep_tight hc hle, hrest, hnested]
    exact ⟨_, rfl, hbuild right⟩

/-! ### What is assigned to -/

section

variable {α ω : Type}

/-- The operators of a sequence, each with the operand directly before it. -/
def leftOperands : α → List (ω × α) → List (ω × α)
  | _, [] => []
  | a, (op, b) :: rest => (op, a) :: leftOperands b rest

/-- In a sequence of operands and operators no assignment comes after another operator, and what
    stands directly before an assignment is a name. -/
structure AssignsToNames (isAssign : ω → Prop) (isName : α → Prop) (first : α)
    (links : List (ω × α)) : Prop where
  outermost : links.Pairwise fun earlier later => isAssign later.1 → isAssign earlier.1
  named : ∀ link ∈ leftOperands first links, isAssign link.1 → isName link.2

theorem leftOperands_map {β ψ : Type} (f : ω → ψ) (k : α → β) (a : α) (links : List (ω × α)) :
    leftOperands (k a) (links.map (Prod.map f k)) = (leftOperands a links).map (Prod.map f k) := by
  induction links generalizing a with
  | nil => rfl
  | cons link links ih => exact congrArg _ (ih link.2)

theorem leftOperands_append (a : α) (before : List (ω × α)) (op : ω) (b : α)
    (after : List (ω × α)) :
    ∃ c, leftOperands a (before ++ (op, b) :: after) =
      leftOperands a before ++ (op, c) :: leftOperands b after := by
  induction before generalizing a with
  | nil => exact ⟨a, rfl⟩
  | cons link before ih =>
    obtain ⟨c, hc⟩ := ih link.2
    exact ⟨c, congrArg _ hc⟩

theorem exists_mem_of_mem_leftOperands {a : α} {links : List (ω × α)} {link : ω × α}
    (h : link ∈ leftOperands a links) : ∃ b, (link.1, b) ∈ links := by
  induction links generalizing a with
  | nil => cases h
  | cons first links ih =>
    rcases List.mem_cons.mp h with rfl | h
    · exact ⟨first.2, List.mem_cons_self⟩
    · obtain ⟨b, hb⟩ := ih h
      exact ⟨b, List.mem_cons_of_mem first hb⟩

namespace AssignsToNames

variable {isAssign : ω → Prop} {isName : α → Prop} {a b : α} {op : ω}
  {links before after : List (ω × α)}

theorem of_no_assign (h : ∀ link ∈ links, ¬ isAssign link.1) :
    AssignsToNames isAssign isName a links where
  outermost := List.pairwise_of_forall_mem_list fun _ _ later hlater hassign =>
    absurd hassign (h later hlater)
  named link hlink hassign := by
    obtain ⟨b, hb⟩ := exists_mem_of_mem_leftOperands hlink
    exact absurd hassign (h (link.1, b) hb)

theorem left (h : AssignsToNames isAssign isName a (before ++ (op, b) :: after)) :
    AssignsToNames isAssign isName a before where
  outermost := (List.pairwise_append.mp h.outermost).1
  named link hlink := by
    obtain ⟨c, hc⟩ := leftOperands_append a before op b after
    exact h.named link (hc ▸ List.mem_append_left _ hlink)

theorem right (h : AssignsToNames isAssign isName a (before ++ (op, b) :: after)) :
    AssignsToNames isAssign isName b after where
  outermost := (List.pairwise_cons.mp (List.pairwise_append.mp h.outermost).2.1).2
  named link hlink := by
    obtain ⟨c, hc⟩ := leftOperands_append a before op b after
    exact h.named link (hc ▸ List.mem_append_right _ (List.mem_cons_of_mem _ hlink))

end AssignsToNames

end

/-- The chain assigns only to names, and only outside of binary operators. -/
def OperatorChain.Assignable (chain : OperatorChain Atom ValueOp) : Prop :=
  AssignsToNames (fun op : Lexed ValueOp => op.value = .assign)
    (fun a : Lexed Atom => a.value.isName = true) chain.first chain.links

theorem Lexed.isAssignable_expr (a : Lexed Atom) : a.expr.isAssignable = a.value.isName := by
  obtain ⟨value, text, span⟩ := a
  cases value <;> rfl

/-- The condition on a chain, in terms of what its tokens are read as. -/
theorem OperatorChain.assignable_iff (chain : OperatorChain Atom ValueOp) :
    chain.Assignable ↔
      AssignsToNames (fun op : ValueOp => op = .assign) (fun e : Expr => e.isAssignable = true)
        chain.first.expr (valueParser.reading chain.links) := by
  have hoperands := leftOperands_map Lexed.value Lexed.expr chain.first chain.links
  have hreading : valueParser.reading chain.links =
      chain.links.map (Prod.map Lexed.value Lexed.expr) := rfl
  rw [hreading]
  constructor
  · intro h
    refine ⟨List.pairwise_map.mpr h.outermost, ?_⟩
    rw [hoperands, List.forall_mem_map]
    exact fun link hlink hassign => (Lexed.isAssignable_expr _).trans (h.named link hlink hassign)
  · intro h
    refine ⟨List.pairwise_map.mp h.outermost, fun link hlink hassign => ?_⟩
    have hnamed := h.named
    rw [hoperands, List.forall_mem_map] at hnamed
    exact (Lexed.isAssignable_expr _).symm.trans (hnamed link hlink hassign)

namespace OperatorTree

/-- In a grouped tree an operator below a binary one is not an assignment. -/
theorem Grouped.not_assign {t : OperatorTree Expr ValueOp} (h : t.Grouped ValueOp.table)
    {least : Nat} (hroot : t.AtLeast ValueOp.table least) (hleast : 1 < least)
    {link : ValueOp × Expr} (hlink : link ∈ t.links) : link.1 ≠ .assign := by
  intro hassign
  have hle := h.le_precedence hroot hlink
  rw [hassign] at hle
  exact absurd hle (Nat.not_le_of_lt hleast)

/-- The grouped tree of a sequence assigns to names exactly if the sequence does. -/
theorem Grouped.accepted_iff {t : OperatorTree Expr ValueOp} (h : t.Grouped ValueOp.table) :
    t.Accepted ValueOp.accepts ↔
      AssignsToNames (fun op : ValueOp => op = .assign) (fun e : Expr => e.isAssignable = true)
        t.first t.links := by
  induction t with
  | operand e =>
    exact ⟨fun _ => .of_no_assign fun _ hlink => absurd hlink List.not_mem_nil, fun _ => trivial⟩
  | node op left right ihleft ihright =>
    have hgrouped := h
    obtain ⟨hl, hr, hleft, hright⟩ := h
    cases op with
    | binary op =>
      have hnone : ∀ link ∈ (node (.binary op) left right).links, link.1 ≠ .assign := fun _ =>
        hgrouped.not_assign (Nat.le_refl _) (ValueOp.one_lt_precedence_binary op)
      exact ⟨fun _ => .of_no_assign hnone, fun hassigns =>
        ⟨rfl, (ihleft hleft).mpr hassigns.left, (ihright hright).mpr hassigns.right⟩⟩
    | assign =>
      cases left with
      | operand e =>
        constructor
        · rintro ⟨hname, -, haccepted⟩
          have hassigns := (ihright hright).mp haccepted
          refine ⟨List.pairwise_cons.mpr ⟨fun _ _ _ => rfl, hassigns.outermost⟩, ?_⟩
          exact List.forall_mem_cons.mpr ⟨fun _ => hname, hassigns.named⟩
        · intro hassigns
          have hname := hassigns.named _ List.mem_cons_self rfl
          exact ⟨hname, trivial, (ihright hright).mpr hassigns.right⟩
      | node op' left' right' =>
        -- Only a tighter operator stands on the left, so the sequence has it before `=`.
        have hop' : (op', right'.first) ∈ (node op' left' right').links := by simp [links]
        have hne := hleft.not_assign hl (by decide) hop'
        refine ⟨fun haccepted => Bool.noConfusion haccepted.1, fun hassigns => absurd ?_ hne⟩
        have hpairs := (List.pairwise_append.mp hassigns.outermost).2.2
        exact hpairs _ hop' _ List.mem_cons_self rfl

/-- The root is no assignment, and if it is a binary operator its precedence satisfies `P`. -/
def BinaryRoot (P : Nat → Prop) : OperatorTree Expr ValueOp → Prop
  | operand _ => True
  | node .assign _ _ => False
  | node (.binary op) _ _ => P op.precedence

/-- Assignments have a single operand on their left and stand outside of binary operators, and these
    are grouped to the left by their precedence. -/
inductive Layered : OperatorTree Expr ValueOp → Prop where
  | operand (e : Expr) : Layered (.operand e)
  | assign (target : Expr) {value : OperatorTree Expr ValueOp} (hvalue : Layered value) :
      Layered (.node .assign (.operand target) value)
  | binary {op : BinaryOp} {left right : OperatorTree Expr ValueOp}
      (hl : left.BinaryRoot (op.precedence ≤ ·)) (hr : right.BinaryRoot (op.precedence < ·))
      (hleft : Layered left) (hright : Layered right) : Layered (.node (.binary op) left right)

theorem BinaryRoot.atLeast {P : Nat → Prop} {t : OperatorTree Expr ValueOp} (h : t.BinaryRoot P)
    {least : Nat} (hleast : ∀ n, P n → least ≤ n) : t.AtLeast ValueOp.table least := by
  cases t with
  | operand e => trivial
  | node op left right =>
    cases op with
    | assign => exact h.elim
    | binary op => exact hleast op.precedence h

theorem AtLeast.binaryRoot {P : Nat → Prop} {t : OperatorTree Expr ValueOp} {least : Nat}
    (h : t.AtLeast ValueOp.table least) (hleast : ∀ n, least ≤ n → P n) (hone : 1 < least) :
    t.BinaryRoot P := by
  cases t with
  | operand e => trivial
  | node op left right =>
    cases op with
    | assign => exact absurd h (Nat.not_le_of_lt hone)
    | binary op => exact hleast op.precedence h

theorem Layered.grouped {t : OperatorTree Expr ValueOp} (h : t.Layered) :
    t.Grouped ValueOp.table := by
  induction h with
  | operand e => trivial
  | @assign target value hvalue ih =>
    have hroot : value.AtLeast ValueOp.table (ValueOp.table.rightLeast .assign) := by
      cases value with
      | operand e => trivial
      | node op left right => exact ValueOp.loosest_le_precedence op
    exact ⟨trivial, hroot, trivial, ih⟩
  | binary hl hr hleft hright ihleft ihright =>
    exact ⟨hl.atLeast fun _ => id, hr.atLeast fun _ => id, ihleft, ihright⟩

theorem Grouped.layered {t : OperatorTree Expr ValueOp} (h : t.Grouped ValueOp.table)
    (haccepted : t.Accepted ValueOp.accepts) : t.Layered := by
  induction t with
  | operand e => exact .operand e
  | node op left right ihleft ihright =>
    obtain ⟨hl, hr, hleft, hright⟩ := h
    obtain ⟨hname, haccepted, haccepted'⟩ := haccepted
    cases op with
    | assign =>
      cases left with
      | operand target => exact .assign target (ihright hright haccepted')
      | node => exact Bool.noConfusion hname
    | binary op =>
      have hone := ValueOp.one_lt_precedence_binary op
      exact .binary (hl.binaryRoot (fun _ => id) hone)
        (hr.binaryRoot (fun _ => id) (Nat.lt_succ_of_lt hone)) (ihleft hleft haccepted)
        (ihright hright haccepted')

end OperatorTree

/-- The expression has the operands and the operators of the chain from left to right, with
    assignments outermost and binary operators grouped by precedence. -/
structure Expr.IsTreeOf (e : Expr) (chain : OperatorChain Atom ValueOp) : Prop where
  first : e.shape.first = chain.first.expr
  links : e.shape.links = chain.links.map fun link => (link.1.value, link.2.expr)
  layered : e.shape.Layered

theorem Expr.IsTreeOf.shape_eq {e e' : Expr} {chain : OperatorChain Atom ValueOp}
    (h : e.IsTreeOf chain) (h' : e'.IsTreeOf chain) : e'.shape = e.shape :=
  h'.layered.grouped.eq_of_links h.layered.grouped (h'.first.trans h.first.symm)
    (h'.links.trans h.links.symm)

/-- A chain of single tokens and operators is read exactly if it assigns only to names and outside
    of binary operators. It is then read to its end, as the one tree that groups the operators by
    precedence. -/
theorem parseExpr_chain (chain : OperatorChain Atom ValueOp) (text : String) (place : Span) :
    let lexemes := valueParser.lexemes chain ++ [⟨.eof, text, place⟩]
    ((∃ e, parseExpr lexemes = .ok e) ↔ chain.Assignable) ∧
    (∀ error, parseExpr lexemes = .error error → error.detail = "invalid assignment target") ∧
    ∀ e, parseExpr lexemes = .ok e →
      ReadsWhole (fun g => g.nestedExpr Expr.loosest) lexemes e ∧ e.IsTreeOf chain ∧
      ∀ e' : Expr, e'.IsTreeOf chain → e'.shape = e.shape := by
  intro lexemes
  have hlast : (⟨.eof, text, place⟩ : Lexeme).token = .eof := rfl
  obtain ⟨tree, hgrouped, hfirst, hlinks, hrun⟩ :=
    valueParser.reads_chain hlast ValueOp.loosest_le_precedence chain (rfl : lexemes = _)
  have hassignable : tree.Accepted ValueOp.accepts ↔ chain.Assignable := by
    rw [hgrouped.accepted_iff, hfirst, hlinks, chain.assignable_iff]
    rfl
  obtain ⟨haccepted, e, d, hrun, rfl, hd⟩ | ⟨hrefused, error, d, hrun, hcause⟩ := hrun
  · have hwhole : ReadsWhole (fun g => g.nestedExpr Expr.loosest) lexemes e :=
      ⟨d, hrun, Cursor.token_of_rest hd, (List.cons.inj hd).2⟩
    have hok : parseExpr lexemes = .ok e := hwhole.runParser_eq
    have htree : e.IsTreeOf chain := ⟨hfirst, hlinks, hgrouped.layered haccepted⟩
    refine ⟨⟨fun _ => hassignable.mp haccepted, fun _ => ⟨e, hok⟩⟩, ?_, ?_⟩
    · intro error herror
      rw [hok] at herror
      cases herror
    · intro e' he'
      obtain rfl := Except.ok.inj (hok.symm.trans he')
      exact ⟨hwhole, htree, fun _ => htree.shape_eq⟩
  · have herror : parseExpr lexemes = .error error := by
      have hnested : (Grammar.level (lexemes.length + 1)).nestedExpr Expr.loosest
          (Cursor.ofLexemes lexemes) = .error error d := hrun
      rw [parseExpr, runParser, hnested]
    refine ⟨⟨?_, fun h => absurd (hassignable.mpr h) hrefused⟩, ?_, ?_⟩
    · rintro ⟨e, hok⟩
      rw [herror] at hok
      cases hok
    · intro error' herror'
      obtain rfl := Except.error.inj (herror.symm.trans herror')
      rw [ParseError.detail, hcause]
      rfl
    · intro e hok
      rw [herror] at hok
      cases hok

-- Each precedence inside the next looser one, and neighbours of the same one to the left.
example : ((tokenize "x = y = a || b && c == d < e | f & g + h * i - j != k").toOption.bind
      fun lexemes => (parseExpr lexemes).toOption.map Expr.compact) =
    some "(x = (y = (a || (b && ((c == (d < ((e | f) & ((g + (h * i)) - j)))) != k)))))" := by
  decide +kernel

end ScriptCompiler
