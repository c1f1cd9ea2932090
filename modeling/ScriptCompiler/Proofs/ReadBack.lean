import ScriptCompiler.Proofs.ReadTypes

/-!
# Printed trees are read again

The one-line form of an expression puts every operator into parentheses. What is left is a chain: a
primary expression with calls, member accesses and indices behind it. A chain is read from its
start, but the tree of its last link is the outermost one. So the lemmas say of each expression that
its pieces are read as the start of any longer chain.
-/

namespace ScriptCompiler

/-! ### Expressions without places -/

mutual

/-- The expression without its places. Blocks are left as they are. -/
def Expr.unplaced : Expr → Expr
  | .number _ digits => .number .zero digits
  | .string _ value => .string .zero value
  | .bool _ value => .bool .zero value
  | .name _ ident => .name .zero ⟨ident.name, .zero⟩
  | .binary _ op left right => .binary .zero op left.unplaced right.unplaced
  | .unary _ op operand => .unary .zero op operand.unplaced
  | .assign _ target value => .assign .zero target.unplaced value.unplaced
  | .typeTest _ operand type guarded => .typeTest .zero operand.unplaced type.unplaced guarded
  | .cast _ operand type guarded => .cast .zero operand.unplaced type.unplaced guarded
  | .call _ callee args closure? => .call .zero callee.unplaced (unplacedExprs args) closure?
  | .field _ receiver member => .field .zero receiver.unplaced ⟨member.name, .zero⟩
  | .staticMember _ receiver member =>
    .staticMember .zero receiver.unplaced ⟨member.name, .zero⟩
  | .index _ receiver position => .index .zero receiver.unplaced position.unplaced
  | .array _ elements => .array .zero (unplacedExprs elements)
  | .object _ fields => .object .zero (unplacedFields fields)
  | .lambda _ params body => .lambda .zero params body
  | .new _ className args => .new .zero ⟨className.name, .zero⟩ (unplacedExprs args)

def unplacedExprs : List Expr → List Expr
  | [] => []
  | e :: rest => e.unplaced :: unplacedExprs rest

/-- The fields of an object literal without their places. -/
def unplacedFields : List ObjectField → List ObjectField
  | [] => []
  | ⟨key, value, _⟩ :: rest => ⟨key, value.unplaced, .zero⟩ :: unplacedFields rest

end

theorem unplacedExprs_eq (es : List Expr) : unplacedExprs es = es.map Expr.unplaced := by
  induction es with
  | nil => rw [unplacedExprs, List.map_nil]
  | cons e rest ih => rw [unplacedExprs, List.map_cons, ih]

def ObjectField.unplaced (field : ObjectField) : ObjectField :=
  ⟨field.key, field.value.unplaced, .zero⟩

theorem unplacedFields_eq (fields : List ObjectField) :
    unplacedFields fields = fields.map ObjectField.unplaced := by
  induction fields with
  | nil => rw [unplacedFields, List.map_nil]
  | cons field rest ih =>
    obtain ⟨key, value, span⟩ := field
    rw [unplacedFields, List.map_cons, ih, ObjectField.unplaced]

theorem Expr.isAssignable_unplaced (e : Expr) : e.unplaced.isAssignable = e.isAssignable := by
  cases e <;> rw [unplaced] <;> rfl

namespace Grammar

open TokenParser

variable {g : Grammar}

/-! ### Chains -/

/-- The pieces of the expression are read as the start of a chain, whatever links follow, as long as
    no brace follows. -/
def Chains (g : Grammar) (e : Expr) : Prop :=
  ∀ (more : List Piece) (next : Token → Prop) (Q : Expr → Prop),
    (∀ rest, Before next rest → Before (fun t => t ≠ .symbol .lbrace) (more ++ rest)) →
    (∀ start, start.unplaced = e.unplaced → Iterates g.postfixStep start more next Q) →
    Reads g.postfixChain (e.pieces ++ more) next Q

theorem chains_of_primary {e : Expr}
    (h : Reads g.primary e.pieces anything fun u => u.unplaced = e.unplaced) : Chains g e :=
  fun _ _ _ _ hmore => h.andThen fun start hstart => (hmore start hstart).reads

theorem Chains.link {receiver e : Expr} {suffix : List Piece} (h : Chains g receiver)
    (hpieces : e.pieces = receiver.pieces ++ suffix)
    (hsuffix : Before (fun t => t ≠ .symbol .lbrace) suffix)
    (hstep : ∀ start, start.unplaced = receiver.unplaced →
      Reads (g.postfixStep start) suffix (fun t => t ≠ .symbol .lbrace) fun result =>
        ∃ u, result = some u ∧ u.unplaced = e.unplaced) : Chains g e := by
  intro more next Q hbrace hmore
  -- For the receiver the link is the first of those that follow.
  rw [hpieces, List.append_assoc]
  refine h (suffix ++ more) next Q (fun rest _ => (hsuffix.append _).append rest) ?_
  intro start hstart
  exact Iterates.again (hstep start hstart) hsuffix.ne_nil hmore hbrace

/-- No link of a chain follows. -/
structure EndsChain (t : Token) : Prop where
  call : t ≠ .symbol .lparen
  field : t ≠ .symbol .dot
  static : t ≠ .symbol .colonColon
  index : t ≠ .symbol .lbracket
  closure : t ≠ .symbol .lbrace

/-- Neither an operator nor a link of a chain follows. -/
def EndsExpr (t : Token) : Prop :=
  t.infixOp? = none ∧ EndsChain t

theorem postfixStep_done (e : Expr) :
    Reads (g.postfixStep e) [] EndsChain fun result => result = none := by
  refine Reads.peek.bind (fun token htoken => ?_) fun _ hnext => hnext
  split
  · exact absurd rfl htoken.call
  · exact absurd rfl htoken.field
  · exact absurd rfl htoken.static
  · exact absurd rfl htoken.index
  · exact .pure rfl

theorem Chains.reads {e : Expr} (h : Chains g e) :
    Reads g.postfixChain e.pieces EndsChain fun u => u.unplaced = e.unplaced := by
  rw [← List.append_nil e.pieces]
  refine h [] _ _ (fun rest hnext => hnext.mono fun _ ht => ht.closure) fun start hstart => ?_
  exact .done (postfixStep_done start) hstart

theorem operand_reads {e : Expr} (hstart : Before (fun t => t.unaryOp? = none) e.pieces)
    (h : Chains g e) : Reads g.operand e.pieces EndsChain fun u => u.unplaced = e.unplaced := by
  have hchain := h.reads
  obtain ⟨piece, rest, hpieces, hpiece⟩ := hstart
  rw [hpieces] at hchain ⊢
  refine Reads.peekAt ?_
  rw [hpiece]
  exact hchain

theorem exprStep_done (least : Nat) (left : Expr) :
    Reads (g.exprStep least left) [] (fun t => t.infixOp? = none) fun result => result = none := by
  refine Reads.peek.bind (fun token htoken => ?_) fun _ hnext => hnext
  rw [htoken]
  exact .pure rfl

theorem exprAt_reads {e : Expr} (least : Nat)
    (h : Reads g.operand e.pieces EndsChain fun u => u.unplaced = e.unplaced) :
    Reads (g.exprAt least) e.pieces EndsExpr fun u => u.unplaced = e.unplaced := by
  refine h.finish (fun first hfirst => ?_) fun _ ht => ht.2
  exact (Iterates.done (exprStep_done least first) hfirst).reads.before fun _ ht => ht.1

/-! ### Links -/

/-- What is asked of the expressions of a list. -/
abbrev ReadsItem (g : Grammar) (close : Token) (e : Expr) : Prop :=
  Reads.Item (g.nestedExpr Expr.loosest) close e.pieces fun u => u.unplaced = e.unplaced

theorem trailingClosure_none :
    Reads g.trailingClosure [] (fun t => t ≠ .symbol .lbrace) fun closure? => closure? = none := by
  intro c rest _ hpieces hnext
  obtain ⟨piece, rest, rfl, hpiece⟩ := hnext
  have htoken : c.token ≠ .symbol .lbrace := Cursor.token_eq hpieces ▸ hpiece
  refine ⟨none, ?_, rfl⟩
  rw [trailingClosure, decide_eq_false htoken, Bool.and_false, if_neg Bool.noConfusion]
  rfl

theorem args_read {args : List Expr} (h : ∀ arg ∈ args, ReadsItem g (.symbol .rparen) arg) :
    Reads g.args (listPieces (args.map Expr.pieces) ++ [.symbol .rparen]) anything fun es =>
      es.map Expr.unplaced = args.map Expr.unplaced :=
  (Reads.delimited rfl h (by decide)).mono fun _ hes => map_eq_of_forall₂ hes

theorem postfixStep_call (callee : Expr) {args : List Expr}
    (h : ∀ arg ∈ args, ReadsItem g (.symbol .rparen) arg) :
    Reads (g.postfixStep callee)
      (.symbol .lparen :: listPieces (args.map Expr.pieces) ++ [.symbol .rparen])
      (fun t => t ≠ .symbol .lbrace) fun result =>
        ∃ u, result = some u ∧
          u.unplaced = .call .zero callee.unplaced (args.map Expr.unplaced) none := by
  refine Reads.peekAt (Reads.advance.andThen fun _ _ => ?_)
  refine (args_read h).finish (fun es hes => ?_) fun _ _ => trivial
  refine trailingClosure_none.bind (fun closure? hclosure => ?_) fun _ hnext => hnext
  refine Reads.previous.thenRead fun stop _ => ?_
  refine .pure ⟨_, rfl, ?_⟩
  rw [Expr.unplaced, unplacedExprs_eq, hes, hclosure]

theorem token_word_isWord {name : String} (h : IsMemberName name) :
    (Piece.word name).token.isWord = true := by
  unfold Piece.word Token.ofWord
  cases Keyword.ofText? name with
  | some k => rfl
  | none =>
    dsimp only
    rw [if_neg h.notTrue, if_neg h.notFalse]
    rfl

theorem postfixStep_field (receiver : Expr) {name : String} (h : IsMemberName name) :
    Reads (g.postfixStep receiver) [.symbol .dot, .word name] anything fun result =>
      ∃ u, result = some u ∧ u.unplaced = .field .zero receiver.unplaced ⟨name, .zero⟩ := by
  refine Reads.peekAt (Reads.advance.andThen fun _ _ => ?_)
  refine (Reads.memberName (token_word_isWord h)).andThen fun member hmember => ?_
  refine .pure ⟨_, rfl, ?_⟩
  rw [Expr.unplaced, hmember, Piece.word]

theorem postfixStep_staticMember (receiver : Expr) {name : String} (h : IsMemberName name) :
    Reads (g.postfixStep receiver) [.symbol .colonColon, .word name] anything fun result =>
      ∃ u, result = some u ∧ u.unplaced = .staticMember .zero receiver.unplaced ⟨name, .zero⟩ := by
  refine Reads.peekAt (Reads.advance.andThen fun _ _ => ?_)
  refine (Reads.memberName (token_word_isWord h)).andThen fun member hmember => ?_
  refine .pure ⟨_, rfl, ?_⟩
  rw [Expr.unplaced, hmember, Piece.word]

theorem endsExpr_symbol {s : Symbol} (h : s = .rparen ∨ s = .rbracket ∨ s = .rbrace ∨ s = .comma) :
    EndsExpr (.symbol s) := by
  rcases h with rfl | rfl | rfl | rfl <;>
    exact ⟨rfl, by decide, by decide, by decide, by decide, by decide⟩

theorem postfixStep_index (receiver : Expr) {position : Expr}
    (h : Reads (g.nestedExpr Expr.loosest) position.pieces EndsExpr fun u =>
      u.unplaced = position.unplaced) :
    Reads (g.postfixStep receiver) (.symbol .lbracket :: position.pieces ++ [.symbol .rbracket])
      anything fun result =>
        ∃ u, result = some u ∧ u.unplaced = .index .zero receiver.unplaced position.unplaced := by
  refine Reads.peekAt (Reads.advance.andThen fun _ _ => ?_)
  refine h.outOfCondition.bind (fun u hu => ?_) fun _ _ => .cons (endsExpr_symbol (by simp))
  refine (Reads.expect rfl).andThen fun _ _ => ?_
  refine .pure ⟨_, rfl, ?_⟩
  rw [Expr.unplaced, hu]

/-! ### Primary expressions -/

theorem primary_number (digits : String) :
    Reads g.primary [.numeral digits] anything fun u => u.unplaced = .number .zero digits := by
  refine Reads.peekAt (Reads.advance.andThen fun _ _ => ?_)
  exact .pure (by rw [Expr.unplaced])

theorem primary_string (value : String) :
    Reads g.primary [.literal value] anything fun u => u.unplaced = .string .zero value := by
  refine Reads.peekAt (Reads.advance.andThen fun _ _ => ?_)
  exact .pure (by rw [Expr.unplaced])

theorem primary_bool (value : Bool) :
    Reads g.primary [.word (Text.Json.boolText value)] anything fun u =>
      u.unplaced = .bool .zero value := by
  have htoken : (Piece.word (Text.Json.boolText value)).token = .bool value := by
    cases value <;> decide
  refine Reads.peekAt ?_
  rw [htoken]
  refine Reads.advance.andThen fun _ _ => ?_
  exact .pure (by rw [Expr.unplaced])

theorem nameAtom_reads (name : String) (piece : Piece) :
    Reads (nameAtom name) [piece] anything fun u => u.unplaced = .name .zero ⟨name, .zero⟩ := by
  refine Reads.advance.andThen fun _ _ => ?_
  exact .pure (by rw [Expr.unplaced])

theorem primary_name {name : String} (h : IsReference name) :
    Reads g.primary [.word name] anything fun u => u.unplaced = .name .zero ⟨name, .zero⟩ := by
  refine Reads.peekAt ?_
  rcases h with hident | rfl | rfl
  · have htoken : (Piece.word name).token = .ident name := Token.ofWord_of_isIdentifier hident
    rw [htoken]
    exact nameAtom_reads name _
  · exact nameAtom_reads "self" _
  · exact nameAtom_reads "Self" _

theorem primary_array {elements : List Expr}
    (h : ∀ e ∈ elements, ReadsItem g (.symbol .rbracket) e) :
    Reads g.primary (.symbol .lbracket :: listPieces (elements.map Expr.pieces) ++
      [.symbol .rbracket]) anything fun u =>
        u.unplaced = .array .zero (elements.map Expr.unplaced) := by
  refine Reads.peekAt (Reads.here.thenRead fun start _ => ?_)
  refine Reads.advance.andThen fun _ _ => ?_
  refine (Reads.delimited rfl h (by decide)).finish (fun es hes => ?_) fun _ _ => trivial
  refine Reads.previous.thenRead fun stop _ => ?_
  refine .pure ?_
  rw [Expr.unplaced, unplacedExprs_eq, map_eq_of_forall₂ hes]

theorem objectField_reads {field : ObjectField} {next : Token → Prop}
    (hkey : IsMemberName field.key)
    (h : Reads (g.nestedExpr Expr.loosest) field.value.pieces next fun u =>
      u.unplaced = field.value.unplaced) :
    Reads g.objectField (.word field.key :: .symbol .colon :: field.value.pieces) next fun f =>
      f.unplaced = field.unplaced := by
  have hword := token_word_isWord hkey
  refine Reads.here.thenRead fun start _ => ?_
  refine Reads.andThen (Q := fun key => key = field.key) (?_ : Reads _ [.word field.key] anything _)
    fun key hkey => (Reads.expect rfl).andThen fun _ _ => ?_
  · refine Reads.peekAt ?_
    -- A word is no string literal, so the key is read as the name of a member.
    split
    · rename_i value htoken
      rw [htoken] at hword
      exact Bool.noConfusion hword
    · exact (Reads.memberName hword).finish (fun name hname => .pure hname) fun _ _ => trivial
  · refine h.finish (fun u hu => ?_) fun _ ht => ht
    refine .pure ?_
    rw [ObjectField.unplaced, ObjectField.unplaced, hkey, hu]

theorem primary_object {fields : List ObjectField}
    (h : ∀ field ∈ fields, Reads.Item g.objectField (.symbol .rbrace)
      (.word field.key :: .symbol .colon :: field.value.pieces) fun f =>
        f.unplaced = field.unplaced) :
    Reads g.primary (.symbol .lbrace :: listPieces (fields.map fun field =>
      .word field.key :: .symbol .colon :: field.value.pieces) ++ [.symbol .rbrace]) anything
      fun u => u.unplaced = .object .zero (fields.map ObjectField.unplaced) := by
  refine Reads.peekAt (Reads.here.thenRead fun start _ => ?_)
  refine Reads.advance.andThen fun _ _ => ?_
  refine (Reads.delimited rfl h (by decide)).finish (fun fs hfs => ?_) fun _ _ => trivial
  refine Reads.previous.thenRead fun stop _ => ?_
  refine .pure ?_
  rw [Expr.unplaced, unplacedFields_eq, map_eq_of_forall₂ hfs]

theorem className_reads {name : String} (h : IsPathName name ∨ name = "Self") :
    Reads className (pathPieces name) (fun t => t ≠ .symbol .colonColon) fun ident =>
      ident.name = name := by
  rcases h with ⟨path, hpath, rfl⟩ | rfl
  · have hstart : Before (fun t => t ≠ .keyword .selfTypeKw) (pathPieces (joinPath path)) := by
      refine (before_pathPieces hpath).mono ?_
      rintro _ ⟨first, rfl⟩
      exact Token.noConfusion
    have hread := path_reads hpath
    generalize pathPieces (joinPath path) = pieces at hstart hread ⊢
    refine Reads.sees_not.bind (fun result hresult => ?_) fun rest _ => hstart.append rest
    rw [hresult, if_neg Bool.noConfusion]
    refine Reads.here.thenRead fun start _ => ?_
    refine hread.finish (fun segments hsegments => ?_) fun _ ht => ht
    refine Reads.previous.thenRead fun stop _ => ?_
    exact .pure hsegments
  · rw [pathPieces_self]
    refine Reads.sees.bind (fun result hresult => ?_) fun rest _ => .cons rfl
    rw [hresult, if_pos rfl]
    exact Reads.advance.finish (fun _ _ => .pure rfl) fun _ _ => trivial

theorem primary_new {name : String} (hname : IsPathName name ∨ name = "Self") {args : List Expr}
    (h : ∀ arg ∈ args, ReadsItem g (.symbol .rparen) arg) :
    Reads g.primary (.word "new" :: pathPieces name ++
      .symbol .lparen :: listPieces (args.map Expr.pieces) ++ [.symbol .rparen]) anything fun u =>
        u.unplaced = .new .zero ⟨name, .zero⟩ (args.map Expr.unplaced) := by
  have hargs : Reads (do
      if ← eat (.symbol .lparen) then
        g.args
      else
        return []) (.symbol .lparen :: listPieces (args.map Expr.pieces) ++ [.symbol .rparen])
      anything fun es => es.map Expr.unplaced = args.map Expr.unplaced := by
    refine (Reads.eat rfl).andThen fun result hresult => ?_
    rw [hresult, if_pos rfl]
    exact args_read h
  rw [List.append_assoc]
  refine Reads.peekAt (Reads.here.thenRead fun start _ => Reads.advance.andThen fun _ _ => ?_)
  refine (className_reads hname).bind (fun ident hident => ?_) fun _ _ => .cons (by decide)
  refine hargs.finish (fun es hes => ?_) fun _ _ => trivial
  refine Reads.previous.thenRead fun stop _ => ?_
  refine .pure ?_
  rw [Expr.unplaced, unplacedExprs_eq, hes, hident]

/-! ### Operators -/

theorem primary_grouped {pieces : List Piece} {Q : Expr → Prop}
    (h : Reads (g.nestedExpr Expr.loosest) pieces (fun t => t = .symbol .rparen) Q) :
    Reads g.primary (.symbol .lparen :: pieces ++ [.symbol .rparen]) anything Q := by
  refine Reads.peekAt (Reads.advance.andThen fun _ _ => ?_)
  refine h.outOfCondition.bind (fun inner hinner => ?_) fun _ _ => .cons rfl
  exact (Reads.expect rfl).finish (fun _ _ => .pure hinner) fun _ _ => trivial

theorem exprStep_reads {left : Expr} {sign : Piece} {op : InfixOp} {pieces : List Piece}
    {next : Token → Prop} {Q : Expr → Prop} (hop : sign.token.infixOp? = some op)
    (h : Reads (g.infixRest left op) pieces next Q) :
    Reads (g.exprStep Expr.loosest left) (sign :: pieces) next fun result =>
      ∃ u, result = some u ∧ Q u := by
  have hleast : Expr.loosest ≤ op.precedence := by
    cases op with
    | binary op => cases op <;> decide
    | _ => decide
  refine Reads.peekAt ?_
  rw [hop]
  dsimp only
  rw [if_neg (Nat.not_lt.mpr hleast)]
  exact Reads.advance.andThen fun _ _ => h.map fun u hu => ⟨u, rfl, hu⟩

theorem infixOp?_symbol (op : BinaryOp) :
    (Piece.symbol op.symbol).token.infixOp? = some (.binary op) := by
  cases op <;> rfl

/-- An operand, an operator and what belongs to it, in parentheses. -/
theorem primary_infix {left result : Expr} {sign : Piece} {op : InfixOp} {pieces : List Piece}
    (hleft : Reads g.operand left.pieces EndsChain fun u => u.unplaced = left.unplaced)
    (hop : sign.token.infixOp? = some op) (hsign : EndsChain sign.token)
    (hrest : ∀ first, first.unplaced = left.unplaced →
      Reads (g.infixRest first op) pieces (fun t => t = .symbol .rparen) fun u =>
        u.unplaced = result) :
    Reads g.deeper.primary (.symbol .lparen :: (left.pieces ++ sign :: pieces) ++ [.symbol .rparen])
      anything fun u => u.unplaced = result := by
  refine primary_grouped ?_
  refine hleft.bind (fun first hfirst => ?_) fun _ _ => .cons hsign
  refine Iterates.reads (.once (exprStep_reads hop (hrest first hfirst)) (List.cons_ne_nil _ _) ?_)
  exact fun u => (exprStep_done _ u).before fun _ ht => ht ▸ rfl

theorem infixRest_binary {left right : Expr} (op : BinaryOp)
    (h : ∀ least, Reads (g.nestedExpr least) right.pieces EndsExpr fun u =>
      u.unplaced = right.unplaced) :
    Reads (g.infixRest left (.binary op)) right.pieces EndsExpr fun u =>
      u.unplaced = .binary .zero op left.unplaced right.unplaced := by
  refine (h _).finish (fun u hu => ?_) fun _ ht => ht
  exact .pure (by rw [Expr.unplaced, hu])

theorem infixRest_assign {left right : Expr} (hleft : left.isAssignable = true)
    (h : ∀ least, Reads (g.nestedExpr least) right.pieces EndsExpr fun u =>
      u.unplaced = right.unplaced) :
    Reads (g.infixRest left .assign) right.pieces EndsExpr fun u =>
      u.unplaced = .assign .zero left.unplaced right.unplaced := by
  rw [infixRest, if_pos hleft]
  refine (h _).finish (fun u hu => ?_) fun _ ht => ht
  exact .pure (by rw [Expr.unplaced, hu])

theorem typeOperand_reads {type : TypeExpr} (guarded : Bool)
    (hstart : Before StartsType type.pieces)
    (h : Reads (g.nestedType TypeOp.operandOnly) type.pieces EndsType fun u =>
      u.unplaced = type.unplaced) :
    Reads g.typeOperand (guardPieces guarded ++ type.pieces) EndsType fun result =>
      result.1 = guarded ∧ result.2.unplaced = type.unplaced := by
  have hguard : Reads (eat (.symbol .question)) (guardPieces guarded)
      (fun t => t ≠ .symbol .question) fun b => b = guarded := by
    cases guarded with
    | false => exact Reads.eat_not
    | true => exact (Reads.eat rfl).before fun _ _ => trivial
  refine hguard.bind (fun b hb => ?_) fun rest _ => (hstart.mono fun _ ht => ht.2.2).append rest
  refine h.asTypeOperand.finish (fun u hu => ?_) fun _ ht => ht
  exact .pure ⟨hb, hu⟩

theorem infixRest_typeTest {left : Expr} {pieces : List Piece} {type : TypeExpr} {guarded : Bool}
    (h : Reads g.typeOperand pieces EndsType fun result =>
      result.1 = guarded ∧ result.2.unplaced = type.unplaced) :
    Reads (g.infixRest left .typeTest) pieces EndsType fun u =>
      u.unplaced = .typeTest .zero left.unplaced type.unplaced guarded := by
  refine h.finish (fun result hresult => ?_) fun _ ht => ht
  exact .pure (by rw [Expr.unplaced, hresult.1, hresult.2])

theorem infixRest_cast {left : Expr} {pieces : List Piece} {type : TypeExpr} {guarded : Bool}
    (h : Reads g.typeOperand pieces EndsType fun result =>
      result.1 = guarded ∧ result.2.unplaced = type.unplaced) :
    Reads (g.infixRest left .cast) pieces EndsType fun u =>
      u.unplaced = .cast .zero left.unplaced type.unplaced guarded := by
  refine h.finish (fun result hresult => ?_) fun _ ht => ht
  exact .pure (by rw [Expr.unplaced, hresult.1, hresult.2])

/-- A unary operator and its operand, in parentheses. -/
theorem primary_unary {operand : Expr} (op : UnaryOp)
    (h : Reads g.nestedOperand operand.pieces EndsChain fun u => u.unplaced = operand.unplaced) :
    Reads g.deeper.primary (.symbol .lparen :: (op.piece :: operand.pieces) ++ [.symbol .rparen])
      anything fun u => u.unplaced = .unary .zero op operand.unplaced := by
  have hop : op.piece.token.unaryOp? = some op := by
    cases op <;> decide
  have hoperand : Reads g.operand (op.piece :: operand.pieces) EndsChain fun u =>
      u.unplaced = .unary .zero op operand.unplaced := by
    refine Reads.peekAt ?_
    rw [hop]
    refine Reads.here.thenRead fun start _ => Reads.advance.andThen fun _ _ => ?_
    refine h.finish (fun u hu => ?_) fun _ ht => ht
    exact .pure (by rw [Expr.unplaced, hu])
  refine primary_grouped ?_
  refine hoperand.finish (fun u hu => ?_) fun _ ht => ht ▸ (endsExpr_symbol (by simp)).2
  exact (Iterates.done (exprStep_done _ u) hu).reads.before fun _ ht => ht ▸ rfl

end Grammar

/-! ### Trees -/

/-- Neither a unary operator nor the end of a list. -/
def StartsExpr (t : Token) : Prop :=
  t.unaryOp? = none ∧ t ≠ .symbol .rparen ∧ t ≠ .symbol .rbracket

/-- The pieces of the expression are read as the expression, by every grammar that allows for as
    many tokens. -/
structure Expr.ReadsBack (e : Expr) : Prop where
  start : Before StartsExpr e.pieces
  chains : ∀ n, e.pieces.length ≤ n → Grammar.Chains (Grammar.level n) e

namespace Expr.ReadsBack

open Grammar

variable {e : Expr} {m : Nat}

theorem operand (h : e.ReadsBack) (hm : e.pieces.length ≤ m) :
    Reads (level m).operand e.pieces EndsChain fun u => u.unplaced = e.unplaced :=
  operand_reads (h.start.mono fun _ ht => ht.1) (h.chains m hm)

theorem nested (h : e.ReadsBack) (hm : e.pieces.length ≤ m) (least : Nat) :
    Reads ((level (m + 1)).nestedExpr least) e.pieces EndsExpr fun u => u.unplaced = e.unplaced :=
  exprAt_reads least (h.operand hm)

theorem items {es : List Expr} (h : ∀ e ∈ es, e.ReadsBack) {close : Symbol}
    (hclose : close = .rparen ∨ close = .rbracket)
    (hm : (listPieces (es.map Expr.pieces)).length ≤ m) :
    ∀ e ∈ es, ReadsItem (level (m + 1)) (.symbol close) e := by
  intro e he
  have hle := length_le_listPieces (List.mem_map_of_mem (f := Expr.pieces) he)
  refine ⟨((h e he).nested (by omega) _).before ?_, (h e he).start.mono ?_⟩
  · rintro _ (rfl | rfl)
    · exact endsExpr_symbol (by simp)
    · exact endsExpr_symbol (by rcases hclose with rfl | rfl <;> simp)
  · rintro t ⟨_, hparen, hbracket⟩
    rcases hclose with rfl | rfl
    · exact hparen
    · exact hbracket

end Expr.ReadsBack

/-- The first token of an expression, given that of the expression with which it may start. -/
theorem Expr.before_pieces {e : Expr} (hnamed : (Node.expr e).WellNamed)
    (hreadable : (Node.expr e).Readable)
    (ih : ∀ part, Child.plain (.expr part) ∈ e.children → Before StartsExpr part.pieces) :
    Before StartsExpr e.pieces := by
  cases e with
  | number | string =>
    rw [pieces]
    exact .cons ⟨rfl, Token.noConfusion, Token.noConfusion⟩
  | binary | unary | assign | typeTest | cast | array | object | new =>
    rw [pieces]
    exact .cons ⟨by decide, by decide, by decide⟩
  | bool span value =>
    rw [pieces]
    cases value <;> exact .cons ⟨by decide, by decide, by decide⟩
  | name span ident =>
    rw [pieces]
    refine .cons ?_
    rcases hnamed with hident | hself | hself
    · have htoken : (Piece.word ident.name).token = .ident ident.name :=
        Token.ofWord_of_isIdentifier hident
      rw [htoken]
      exact ⟨rfl, Token.noConfusion, Token.noConfusion⟩
    · rw [hself]
      exact ⟨by decide, by decide, by decide⟩
    · rw [hself]
      exact ⟨by decide, by decide, by decide⟩
  | call span callee args closure? =>
    rw [pieces]
    exact ((ih callee (.head _)).append _).append _
  | field span receiver ident | staticMember span receiver ident =>
    rw [pieces]
    exact (ih receiver (.head _)).append _
  | index span receiver position =>
    rw [pieces]
    exact ((ih receiver (.head _)).append _).append _
  | lambda span params body => exact hreadable.elim

namespace Grammar

theorem typeOperand_level {type : TypeExpr} (h : type.ReadsBack) {m : Nat}
    (hm : type.pieces.length ≤ m) (guarded : Bool) :
    Reads (level (m + 1)).typeOperand (guardPieces guarded ++ type.pieces) EndsType fun result =>
      result.1 = guarded ∧ result.2.unplaced = type.unplaced :=
  typeOperand_reads guarded h.start (h.nested hm TypeOp.operandOnly)

/-- An expression that is one operator with its operands starts a chain. -/
theorem chains_infix {e left : Expr} {sign : Piece} {op : InfixOp} {pieces : List Piece} {m : Nat}
    (hpieces : e.pieces =
      .symbol .lparen :: (left.pieces ++ sign :: pieces) ++ [.symbol .rparen])
    (hleft : left.ReadsBack) (hm : left.pieces.length ≤ m) (hop : sign.token.infixOp? = some op)
    (hrest : ∀ first, first.unplaced = left.unplaced →
      Reads ((level m).infixRest first op) pieces (fun t => t = .symbol .rparen) fun u =>
        u.unplaced = e.unplaced) : Chains (level (m + 1)) e := by
  have hsign : EndsChain sign.token := by
    constructor <;> intro heq <;> rw [heq] at hop <;> exact absurd hop nofun
  refine chains_of_primary ?_
  rw [hpieces]
  exact primary_infix (hleft.operand hm) hop hsign hrest

end Grammar

namespace Expr

open Grammar

variable {n : Nat}

theorem chains_binary (span : Span) (op : BinaryOp) {left right : Expr} (hleft : left.ReadsBack)
    (hright : right.ReadsBack) (hn : (binary span op left right).pieces.length ≤ n) :
    Chains (level n) (binary span op left right) := by
  simp only [pieces, List.length_append, List.length_cons] at hn
  -- One level for the parentheses, and one more for what stands behind the operator.
  obtain ⟨m, rfl⟩ : ∃ m, n = m + 2 := Nat.exists_eq_add_of_le' (by omega)
  refine chains_infix (by rw [pieces]; rfl) hleft (by omega) (infixOp?_symbol op)
    fun first hfirst => ?_
  rw [unplaced, ← hfirst]
  refine (infixRest_binary op (hright.nested (by omega))).before ?_
  exact fun _ ht => ht ▸ endsExpr_symbol (by simp)

theorem chains_assign (span : Span) {target value : Expr} (hassignable : target.isAssignable = true)
    (htarget : target.ReadsBack) (hvalue : value.ReadsBack)
    (hn : (assign span target value).pieces.length ≤ n) :
    Chains (level n) (assign span target value) := by
  simp only [pieces, List.length_append, List.length_cons] at hn
  obtain ⟨m, rfl⟩ : ∃ m, n = m + 2 := Nat.exists_eq_add_of_le' (by omega)
  refine chains_infix (by rw [pieces]; rfl) htarget (by omega) rfl fun first hfirst => ?_
  -- What can be assigned to does not depend on places.
  have hfirstAssignable : first.isAssignable = true := by
    rw [← first.isAssignable_unplaced, hfirst, target.isAssignable_unplaced, hassignable]
  rw [unplaced, ← hfirst]
  refine (infixRest_assign hfirstAssignable (hvalue.nested (by omega))).before ?_
  exact fun _ ht => ht ▸ endsExpr_symbol (by simp)

theorem chains_typeTest (span : Span) (guarded : Bool) {operand : Expr} {type : TypeExpr}
    (hoperand : operand.ReadsBack) (htype : type.ReadsBack)
    (hn : (typeTest span operand type guarded).pieces.length ≤ n) :
    Chains (level n) (typeTest span operand type guarded) := by
  have hop : (Piece.word "is").token.infixOp? = some .typeTest := by decide
  simp only [pieces, List.length_append, List.length_cons] at hn
  obtain ⟨m, rfl⟩ : ∃ m, n = m + 2 := Nat.exists_eq_add_of_le' (by omega)
  refine chains_infix (by rw [pieces, List.append_assoc (_ :: _)]; rfl) hoperand (by omega) hop
    fun first hfirst => ?_
  rw [unplaced, ← hfirst]
  refine (infixRest_typeTest (typeOperand_level htype (by omega) guarded)).before ?_
  exact fun _ ht => ht ▸ endsType_rparen

theorem chains_cast (span : Span) (guarded : Bool) {operand : Expr} {type : TypeExpr}
    (hoperand : operand.ReadsBack) (htype : type.ReadsBack)
    (hn : (cast span operand type guarded).pieces.length ≤ n) :
    Chains (level n) (cast span operand type guarded) := by
  have hop : (Piece.word "as").token.infixOp? = some .cast := by decide
  simp only [pieces, List.length_append, List.length_cons] at hn
  obtain ⟨m, rfl⟩ : ∃ m, n = m + 2 := Nat.exists_eq_add_of_le' (by omega)
  refine chains_infix (by rw [pieces, List.append_assoc (_ :: _)]; rfl) hoperand (by omega) hop
    fun first hfirst => ?_
  rw [unplaced, ← hfirst]
  refine (infixRest_cast (typeOperand_level htype (by omega) guarded)).before ?_
  exact fun _ ht => ht ▸ endsType_rparen

theorem chains_unary (span : Span) (op : UnaryOp) {operand : Expr} (hoperand : operand.ReadsBack)
    (hn : (unary span op operand).pieces.length ≤ n) :
    Chains (level n) (unary span op operand) := by
  simp only [pieces, List.length_append, List.length_cons] at hn
  obtain ⟨m, rfl⟩ : ∃ m, n = m + 2 := Nat.exists_eq_add_of_le' (by omega)
  refine chains_of_primary ?_
  rw [pieces, unplaced]
  exact primary_unary op (hoperand.operand (by omega))

theorem chains_call (span : Span) {callee : Expr} {args : List Expr} (hcallee : callee.ReadsBack)
    (hargs : ∀ arg ∈ args, arg.ReadsBack) (hn : (call span callee args none).pieces.length ≤ n) :
    Chains (level n) (call span callee args none) := by
  simp only [pieces, exprPieces_eq, List.length_append, List.length_cons] at hn
  -- The arguments are nested, the callee is not.
  obtain ⟨m, rfl⟩ : ∃ m, n = m + 1 := Nat.exists_eq_add_of_le' (by omega)
  refine Chains.link (hcallee.chains _ (by omega))
    (by rw [pieces, exprPieces_eq, List.append_assoc]; rfl) (.cons (by decide))
    fun start hstart => ?_
  rw [unplaced, unplacedExprs_eq, ← hstart]
  exact postfixStep_call start (ReadsBack.items hargs (.inl rfl) (by omega))

theorem chains_field (span : Span) {receiver : Expr} {member : Ident}
    (hmember : IsMemberName member.name) (hreceiver : receiver.ReadsBack)
    (hn : (field span receiver member).pieces.length ≤ n) :
    Chains (level n) (field span receiver member) := by
  rw [pieces, List.length_append] at hn
  refine Chains.link (hreceiver.chains n (by omega)) (by rw [pieces]) (.cons (by decide))
    fun start hstart => ?_
  rw [unplaced, ← hstart]
  exact (postfixStep_field start hmember).before fun _ _ => trivial

theorem chains_staticMember (span : Span) {receiver : Expr} {member : Ident}
    (hmember : IsMemberName member.name) (hreceiver : receiver.ReadsBack)
    (hn : (staticMember span receiver member).pieces.length ≤ n) :
    Chains (level n) (staticMember span receiver member) := by
  rw [pieces, List.length_append] at hn
  refine Chains.link (hreceiver.chains n (by omega)) (by rw [pieces]) (.cons (by decide))
    fun start hstart => ?_
  rw [unplaced, ← hstart]
  exact (postfixStep_staticMember start hmember).before fun _ _ => trivial

theorem chains_index (span : Span) {receiver position : Expr} (hreceiver : receiver.ReadsBack)
    (hposition : position.ReadsBack) (hn : (index span receiver position).pieces.length ≤ n) :
    Chains (level n) (index span receiver position) := by
  simp only [pieces, List.length_append, List.length_cons] at hn
  obtain ⟨m, rfl⟩ : ∃ m, n = m + 1 := Nat.exists_eq_add_of_le' (by omega)
  refine Chains.link (hreceiver.chains _ (by omega)) (by rw [pieces, List.append_assoc]; rfl)
    (.cons (by decide)) fun start hstart => ?_
  rw [unplaced, ← hstart]
  exact (postfixStep_index start (hposition.nested (by omega) _)).before fun _ _ => trivial

theorem chains_array (span : Span) {elements : List Expr} (h : ∀ e ∈ elements, e.ReadsBack)
    (hn : (array span elements).pieces.length ≤ n) : Chains (level n) (array span elements) := by
  simp only [pieces, exprPieces_eq, List.length_append, List.length_cons] at hn
  obtain ⟨m, rfl⟩ : ∃ m, n = m + 1 := Nat.exists_eq_add_of_le' (by omega)
  refine chains_of_primary ?_
  rw [pieces, exprPieces_eq, unplaced, unplacedExprs_eq]
  exact primary_array (ReadsBack.items h (.inr rfl) (by omega))

theorem chains_object (span : Span) {fields : List ObjectField}
    (hkeys : ∀ field ∈ fields, IsMemberName field.key)
    (hvalues : ∀ field ∈ fields, field.value.ReadsBack)
    (hn : (object span fields).pieces.length ≤ n) : Chains (level n) (object span fields) := by
  simp only [pieces, fieldPieces_eq, List.length_append, List.length_cons] at hn
  obtain ⟨m, rfl⟩ : ∃ m, n = m + 1 := Nat.exists_eq_add_of_le' (by omega)
  refine chains_of_primary ?_
  rw [pieces, fieldPieces_eq, unplaced, unplacedFields_eq]
  refine primary_object fun field hfield => ?_
  have hword := token_word_isWord (hkeys field hfield)
  have hle := length_le_listPieces (List.mem_map_of_mem
    (f := fun field => .word field.key :: .symbol .colon :: field.value.pieces) hfield)
  rw [List.length_cons, List.length_cons] at hle
  have hvalue := (hvalues field hfield).nested (m := m) (by omega) Expr.loosest
  refine ⟨(objectField_reads (hkeys field hfield) hvalue).before ?_, .cons fun heq => ?_⟩
  · rintro _ (rfl | rfl) <;> exact endsExpr_symbol (by simp)
  · rw [heq] at hword
    exact Bool.noConfusion hword

theorem chains_new (span : Span) {className : Ident} {args : List Expr}
    (hname : IsPathName className.name ∨ className.name = "Self")
    (hargs : ∀ arg ∈ args, arg.ReadsBack) (hn : (new span className args).pieces.length ≤ n) :
    Chains (level n) (new span className args) := by
  simp only [pieces, exprPieces_eq, List.length_append, List.length_cons] at hn
  obtain ⟨m, rfl⟩ : ∃ m, n = m + 1 := Nat.exists_eq_add_of_le' (by omega)
  refine chains_of_primary ?_
  rw [pieces, exprPieces_eq, unplaced, unplacedExprs_eq]
  exact primary_new hname (ReadsBack.items hargs (.inl rfl) (by omega))

/-- Every readable expression starts a chain if its parts do. -/
theorem chains {e : Expr} (hnamed : (Node.expr e).WellNamed) (hreadable : (Node.expr e).Readable)
    (hparts : ∀ part, Child.plain (.expr part) ∈ e.children → part.ReadsBack)
    (htypes : ∀ type, Child.plain (.type type) ∈ e.children → type.ReadsBack)
    (hn : e.pieces.length ≤ n) : Chains (level n) e := by
  cases e with
  | number span digits =>
    refine chains_of_primary ?_
    rw [pieces, unplaced]
    exact primary_number digits
  | string span value =>
    refine chains_of_primary ?_
    rw [pieces, unplaced]
    exact primary_string value
  | bool span value =>
    refine chains_of_primary ?_
    rw [pieces, unplaced]
    exact primary_bool value
  | name span ident =>
    refine chains_of_primary ?_
    rw [pieces, unplaced]
    exact primary_name hnamed
  | binary span op left right =>
    exact chains_binary span op (hparts left (.head _)) (hparts right (.tail _ (.head _))) hn
  | unary span op operand => exact chains_unary span op (hparts operand (.head _)) hn
  | assign span target value =>
    exact chains_assign span hnamed (hparts target (.head _)) (hparts value (.tail _ (.head _))) hn
  | typeTest span operand type guarded =>
    exact chains_typeTest span guarded (hparts operand (.head _)) (htypes type (.tail _ (.head _)))
      hn
  | cast span operand type guarded =>
    exact chains_cast span guarded (hparts operand (.head _)) (htypes type (.tail _ (.head _))) hn
  | call span callee args closure? =>
    obtain rfl : closure? = none := hreadable
    refine chains_call span (hparts callee (.head _)) (fun arg harg => hparts arg ?_) hn
    exact List.mem_append_left _ (List.mem_cons_of_mem _ (List.mem_map_of_mem harg))
  | field span receiver member => exact chains_field span hnamed (hparts receiver (.head _)) hn
  | staticMember span receiver member =>
    exact chains_staticMember span hnamed (hparts receiver (.head _)) hn
  | index span receiver position =>
    exact chains_index span (hparts receiver (.head _)) (hparts position (.tail _ (.head _))) hn
  | array span elements =>
    exact chains_array span (fun e he => hparts e (List.mem_map_of_mem he)) hn
  | object span fields =>
    refine chains_object span hreadable (fun field hfield => hparts field.value ?_) hn
    exact List.mem_map.mpr ⟨field, hfield, rfl⟩
  | lambda span params body => exact hreadable.elim
  | new span className args =>
    exact chains_new span hnamed (fun arg harg => hparts arg (List.mem_map_of_mem harg)) hn

end Expr

theorem Expr.readsBack {e : Expr} (hnamed : (Node.expr e).Named)
    (hreadable : (Node.expr e).Every Node.Readable) : e.ReadsBack := by
  -- The induction is over all parts; of a readable expression they are types and expressions.
  have hall : ∀ n : Node, n.Named → n.Every Node.Readable → ∀ e, n = .expr e → e.ReadsBack := by
    intro n
    induction n using Node.induction_on with
    | h n ih =>
      rintro hn hread e rfl
      have hparts : ∀ part, Child.plain (.expr part) ∈ e.children → part.ReadsBack :=
        fun part hpart => ih _ hpart (hn.child hpart) (hread.child hpart) part rfl
      have htypes : ∀ type, Child.plain (.type type) ∈ e.children → type.ReadsBack :=
        fun _ htype => TypeExpr.readsBack (hn.child htype)
      exact ⟨e.before_pieces hn.here hread.here fun part hpart => (hparts part hpart).start,
        fun _ hlength => e.chains hn.here hread.here hparts htypes hlength⟩
  exact hall _ hnamed hreadable e rfl

/-! ### Whole sources -/

/-- The parser reads the lexemes up to the end token and finds `a`. -/
def ReadsWhole {α : Type} (p : Grammar → TokenParser α) (lexemes : List Lexeme) (a : α) : Prop :=
  ∃ c, p (Grammar.level (lexemes.length + 1)) (Cursor.ofLexemes lexemes) = .ok a c ∧
    c.token = .eof ∧ c.after = []

theorem ReadsWhole.runParser_eq {α : Type} {p : Grammar → TokenParser α} {lexemes : List Lexeme}
    {a : α} (h : ReadsWhole p lexemes a) : runParser p lexemes = .ok a := by
  obtain ⟨c, hrun, _⟩ := h
  rw [runParser, hrun]

theorem Cursor.pieces_ofLexemes {lexemes : List Lexeme} {pieces : List Piece}
    (h : lexemes.map Lexeme.piece = pieces ++ [.eof]) :
    (ofLexemes lexemes).pieces = pieces ++ [.eof] := by
  cases lexemes with
  | nil => exact absurd h.symm (List.append_ne_nil_of_right_ne_nil _ (List.cons_ne_nil _ _))
  | cons first rest =>
    have hne := List.cons_ne_nil first rest
    have hlast : ((first :: rest).getLast hne).piece = .eof := by
      have hmap := List.getLast_map (f := Lexeme.piece) (l := first :: rest) nofun
      simp only [h, List.getLast_append_singleton] at hmap
      exact hmap.symm
    have htoken : ((first :: rest).getLast hne).token = .eof := congrArg Piece.token hlast
    rw [← h, Cursor.pieces, ofLexemes]
    dsimp only
    rw [if_pos htoken]

theorem length_le_of_map_piece {lexemes : List Lexeme} {pieces : List Piece}
    (h : lexemes.map Lexeme.piece = pieces ++ [.eof]) : pieces.length ≤ lexemes.length := by
  have hlength := congrArg List.length h
  rw [List.length_map, List.length_append] at hlength
  omega

/-- A text that is scanned as these pieces is read to its end by every parser that reads them. -/
theorem Prints.reads_whole {α : Type} {text : String} {pieces : List Piece}
    (h : Prints text pieces) (p : Grammar → TokenParser α) {next : Token → Prop} {Q : α → Prop}
    (hreads : ∀ n, pieces.length ≤ n → Reads (p (Grammar.level (n + 1))) pieces next Q)
    (heof : next .eof) :
    ∃ lexemes a, tokenize text = .ok lexemes ∧ runParser p lexemes = .ok a ∧
      ReadsWhole p lexemes a ∧ Q a := by
  have hscans := h.scans Stops.nil Scans.nil
  rw [List.append_nil] at hscans
  obtain ⟨lexemes, hlexemes, hmap⟩ := tokenize_of_scans hscans
  have hpieces := Cursor.pieces_ofLexemes hmap
  have hmode : (Cursor.ofLexemes lexemes).inCondition = false := by
    cases lexemes <;> rfl
  obtain ⟨a, hrun, ha⟩ :=
    hreads lexemes.length (length_le_of_map_piece hmap) _ [.eof] hmode hpieces (.cons heof)
  have hend := Cursor.pieces_skip hpieces (List.cons_ne_nil _ _)
  have hwhole : ReadsWhole p lexemes a :=
    ⟨_, hrun, Cursor.token_eq hend, List.map_eq_nil_iff.mp (List.cons.inj hend).2⟩
  exact ⟨lexemes, a, hlexemes, hwhole.runParser_eq, hwhole, ha⟩

/-- The one-line form of a parsed type, and of a parsed expression that is readable, is scanned and
    read to its end, and the tree that is found differs from the parsed one in places only. -/
theorem compact_reads_back {file : Nat} {text : String} {lexemes : List Lexeme}
    (hlexemes : tokenizeFile file text = .ok lexemes) :
    (∀ t, parseType lexemes = .ok t → ∃ printed again,
      tokenize t.compact = .ok printed ∧ parseType printed = .ok again ∧
      ReadsWhole (fun g => g.nestedType TypeOp.loosest) printed again ∧
      again.unplaced = t.unplaced) ∧
    (∀ e, parseExpr lexemes = .ok e → (Node.expr e).Every Node.Readable → ∃ printed again,
      tokenize e.compact = .ok printed ∧ parseExpr printed = .ok again ∧
      ReadsWhole (fun g => g.nestedExpr Expr.loosest) printed again ∧
      again.unplaced = e.unplaced) := by
  have hspelled := tokenizeFile_spelled hlexemes
  refine ⟨fun t ht => ?_, fun e he hreadable => ?_⟩
  · have hnamed := parseType_named hspelled ht
    have hprints : Prints t.compact t.pieces := Node.prints hnamed t.every_readable
    have heof : Grammar.EndsType .eof := ⟨rfl, by decide, by decide⟩
    refine hprints.reads_whole (fun g => g.nestedType TypeOp.loosest) (fun n hn => ?_) heof
    exact (TypeExpr.readsBack hnamed).nested hn TypeOp.loosest
  · have hnamed := parseExpr_named hspelled he
    have hprints : Prints e.compact e.pieces := Node.prints hnamed hreadable
    have heof : Grammar.EndsExpr .eof :=
      ⟨rfl, by decide, by decide, by decide, by decide, by decide⟩
    refine hprints.reads_whole (fun g => g.nestedExpr Expr.loosest) (fun n hn => ?_) heof
    exact (Expr.readsBack hnamed hreadable).nested hn Expr.loosest

/-- A source whose parse has a known view can be scanned and parsed. -/
theorem exists_parse_of_map {α β : Type} {file : Nat} {text : String}
    {parse : List Lexeme → Except ParseError α} {view : α → β} {b : β}
    (h : ((tokenizeFile file text).toOption.bind fun lexemes =>
      (parse lexemes).toOption.map view) = some b) :
    ∃ lexemes a, tokenizeFile file text = .ok lexemes ∧ parse lexemes = .ok a ∧ view a = b := by
  cases hscan : tokenizeFile file text with
  | error e =>
    rw [hscan] at h
    cases h
  | ok lexemes =>
    rw [hscan] at h
    cases hparse : parse lexemes with
    | error e =>
      dsimp only [Except.toOption, Option.bind_some] at h
      rw [hparse] at h
      cases h
    | ok a =>
      dsimp only [Except.toOption, Option.bind_some] at h
      rw [hparse] at h
      exact ⟨lexemes, a, rfl, hparse, Option.some.inj h⟩

/-- Types as arguments after a word, a reserved word as a member of a numeral, a call behind an
    instantiation, escapes, and operators that bind differently without their parentheses. -/
theorem compact_sample_reads_back :
    ∃ typeLexemes t lexemes e,
      tokenizeFile 1 "a::M<K, [V & W | ()]> | (Self -> K)" = .ok typeLexemes ∧
      parseType typeLexemes = .ok t ∧
      t.compact = "(a::M<K, [((V & W) | ())]> | (Self -> K))" ∧
      tokenizeFile 1 "new A::B(1.await, \x7b if: \"\\n\\\"\" \x7d)(2)[-x is? M<K, [V]> < y] = z" =
        .ok lexemes ∧
      parseExpr lexemes = .ok e ∧ (Node.expr e).Every Node.Readable ∧
      e.compact =
        "(new A::B(1.await, \x7b if: \"\\n\\\"\" \x7d)(2)[(((-x) is? M<K, [V]>) < y)] = z)" ∧
      (∃ printed again, tokenize t.compact = .ok printed ∧ parseType printed = .ok again ∧
        ReadsWhole (fun g => g.nestedType TypeOp.loosest) printed again ∧
        again.unplaced = t.unplaced) ∧
      ∃ printed again, tokenize e.compact = .ok printed ∧ parseExpr printed = .ok again ∧
        ReadsWhole (fun g => g.nestedExpr Expr.loosest) printed again ∧
        again.unplaced = e.unplaced := by
  have htype : ((tokenizeFile 1 "a::M<K, [V & W | ()]> | (Self -> K)").toOption.bind fun lexemes =>
      (parseType lexemes).toOption.map TypeExpr.compact) =
      some "(a::M<K, [((V & W) | ())]> | (Self -> K))" := by
    decide +kernel
  have hexpr : ((tokenizeFile 1
      "new A::B(1.await, \x7b if: \"\\n\\\"\" \x7d)(2)[-x is? M<K, [V]> < y] = z").toOption.bind
      fun lexemes => (parseExpr lexemes).toOption.map fun e => (e.isReadable, e.compact)) =
      some (true,
        "(new A::B(1.await, \x7b if: \"\\n\\\"\" \x7d)(2)[(((-x) is? M<K, [V]>) < y)] = z)") := by
    decide +kernel
  obtain ⟨typeLexemes, t, hscanType, ht, hcompactType⟩ := exists_parse_of_map htype
  obtain ⟨lexemes, e, hscan, he, hview⟩ := exists_parse_of_map hexpr
  obtain ⟨hreadable, hcompact⟩ := Prod.mk.inj hview
  have hevery := e.every_readable hreadable
  exact ⟨typeLexemes, t, lexemes, e, hscanType, ht, hcompactType, hscan, he, hevery, hcompact,
    (compact_reads_back hscanType).1 t ht, (compact_reads_back hscan).2 e he hevery⟩

end ScriptCompiler
