import ScriptCompiler.Proofs.Productions

/-!
# The parser terminates

The recursion of the grammar is no deeper than the number of lexemes: whatever reads nested parts
beyond that level is never asked. In the same way no loop is ended by its bound. On its way the
cursor only moves forward. It stays on the lexemes, at the first end token or before it, and every
parser that stands for a part of a program moves it.
-/

namespace ScriptCompiler

open TokenParser

/-! ### All parsers -/

/-- A step of a loop of the grammar. -/
inductive Step : {α : Type} → (Grammar → α → TokenParser (Option α)) → Prop where
  | path : Step fun _ => Grammar.pathStep
  | type (least : Nat) : Step fun g => g.typeStep least
  | chain : Step Grammar.postfixStep
  | expr (least : Nat) : Step fun g => g.exprStep least
  | implements : Step Grammar.implementsStep

/-- The parsers of the grammar, each with the tokens at which it is called and the number of lexemes
    that it consumes at least when it succeeds. -/
inductive Production : {α : Type} → (Token → Prop) → (α → Nat) → (Grammar → TokenParser α) → Prop where
  | advance : Production notEnd (fun _ => 1) fun _ => advance
  | eat {token : Token} (htoken : token ≠ .eof) : Production anyToken Bool.toNat fun _ => eat token
  | expect {token : Token} (htoken : token ≠ .eof) :
      Production anyToken (fun _ => 1) fun _ => expect token
  | ident : Production anyToken (fun _ => 1) fun _ => ident
  | memberName : Production anyToken (fun _ => 1) fun _ => memberName
  | delimited {α : Type} {close : Token} {least : α → Nat} {item : Grammar → TokenParser α}
      (hclose : close ≠ .eof) (hitem : Production anyToken least item) :
      Production anyToken (fun _ => 1) fun g => delimited close (item g)
  | step {α : Type} {next : Grammar → α → TokenParser (Option α)} (hstep : Step next) (a : α) :
      Production anyToken (fun next => next.isSome.toNat) fun g => next g a
  | nestedType (least : Nat) : Production anyToken (fun _ => 1) fun g => g.nestedType least
  | nestedExpr (least : Nat) : Production anyToken (fun _ => 1) fun g => g.nestedExpr least
  | nestedOperand : Production anyToken (fun _ => 1) fun g => g.nestedOperand
  | nestedElse : Production anyToken (fun _ => 0) fun g => g.nestedElse
  | nestedStmt : Production anyToken (fun _ => 1) fun g => g.nestedStmt
  | path : Production anyToken (fun _ => 1) fun _ => Grammar.path
  | typeArgs : Production anyToken (fun _ => 0) Grammar.typeArgs
  | namedType : Production anyToken (fun _ => 1) Grammar.namedType
  | arrayType : Production notEnd (fun _ => 1) Grammar.arrayType
  | groupedType : Production notEnd (fun _ => 1) Grammar.groupedType
  | primaryType : Production anyToken (fun _ => 1) Grammar.primaryType
  | typeAt (least : Nat) : Production anyToken (fun _ => 1) fun g => g.typeAt least
  | param : Production anyToken (fun _ => 1) Grammar.param
  | params : Production anyToken (fun _ => 1) Grammar.params
  | signatureTail : Production anyToken (fun _ => 0) Grammar.signatureTail
  | block : Production anyToken (fun _ => 1) Grammar.block
  | args : Production anyToken (fun _ => 1) Grammar.args
  | objectField : Production anyToken (fun _ => 1) Grammar.objectField
  | lambda : Production notEnd (fun _ => 1) Grammar.lambda
  | className : Production anyToken (fun _ => 1) fun _ => Grammar.className
  | instantiation : Production notEnd (fun _ => 1) Grammar.instantiation
  | grouped : Production notEnd (fun _ => 1) Grammar.grouped
  | arrayLiteral : Production notEnd (fun _ => 1) Grammar.arrayLiteral
  | objectLiteral : Production notEnd (fun _ => 1) Grammar.objectLiteral
  | atom (build : Span → Expr) : Production notEnd (fun _ => 1) fun _ => Grammar.atom build
  | nameAtom (name : String) : Production notEnd (fun _ => 1) fun _ => Grammar.nameAtom name
  | primary : Production anyToken (fun _ => 1) Grammar.primary
  | trailingClosure : Production anyToken (fun _ => 0) Grammar.trailingClosure
  | postfixChain : Production anyToken (fun _ => 1) Grammar.postfixChain
  | operand : Production anyToken (fun _ => 1) Grammar.operand
  | typeOperand : Production anyToken (fun _ => 1) Grammar.typeOperand
  | infixRest (left : Expr) (op : InfixOp) :
      Production anyToken (fun _ => 1) fun g => g.infixRest left op
  | exprAt (least : Nat) : Production anyToken (fun _ => 1) fun g => g.exprAt least
  | namespaceDecl : Production notEnd (fun _ => 1) fun _ => Grammar.namespaceDecl
  | usingDecl : Production notEnd (fun _ => 1) fun _ => Grammar.usingDecl
  | foreignTarget (marker : Ident) :
      Production anyToken (fun _ => 0) fun _ => Grammar.foreignTarget marker
  | foreignDecl : Production notEnd (fun _ => 1) Grammar.foreignDecl
  | constructorMember : Production notEnd (fun _ => 1) Grammar.constructorMember
  | methodBody : Production anyToken (fun _ => 0) Grammar.methodBody
  | methodMember (first : Span) : Production anyToken (fun _ => 1) fun g => g.methodMember first
  | fieldMember : Production anyToken (fun _ => 1) Grammar.fieldMember
  | namedMember : Production notEnd (fun _ => 1) Grammar.namedMember
  | member : Production anyToken (fun _ => 1) Grammar.member
  | implementsList : Production anyToken (fun _ => 0) Grammar.implementsList
  | classBody (kind : ClassKind) : Production notEnd (fun _ => 1) fun g => g.classBody kind
  | condition : Production anyToken (fun _ => 1) Grammar.condition
  | elseBranch : Production anyToken (fun _ => 0) Grammar.elseBranch
  | letStmt : Production notEnd (fun _ => 1) Grammar.letStmt
  | functionStmt : Production notEnd (fun _ => 1) Grammar.functionStmt
  | ifStmt : Production notEnd (fun _ => 1) Grammar.ifStmt
  | loopStmt (build : Span → Expr → Block → Stmt) :
      Production notEnd (fun _ => 1) fun g => g.loopStmt build
  | returnStmt : Production notEnd (fun _ => 1) Grammar.returnStmt
  | exprStmt : Production anyToken (fun _ => 1) Grammar.exprStmt
  | stmtBody : Production anyToken (fun _ => 1) Grammar.stmtBody
  | stmt : Production anyToken (fun _ => 1) Grammar.stmt
  | program : Production anyToken (fun _ => 0) Grammar.program

/-- The loops of the grammar, each with its form that has an explicit bound. -/
inductive Loop : {α : Type} → (Grammar → TokenParser α) → (Grammar → List Lexeme → TokenParser α) →
    Prop where
  | many {α : Type} {done : Token → Bool} {item : Grammar → TokenParser α}
      (hdone : done .eof = true) (hitem : Production anyToken (fun _ => 1) item) :
      Loop (fun g => many done (item g)) fun g => manyWithin done (item g)
  | items {α : Type} (close : Token) {least : α → Nat} {item : Grammar → TokenParser α}
      (hitem : Production anyToken least item) :
      Loop (fun g => items close (item g)) fun g => itemsWithin close (item g)
  | iterate {α : Type} {next : Grammar → α → TokenParser (Option α)} (hstep : Step next) (a : α) :
      Loop (fun g => iterate (next g) a) fun g bound => iterateWithin (next g) bound a

theorem Step.endsWith {α : Type} {next : Grammar → α → TokenParser (Option α)} (h : Step next)
    (g : Grammar) (a : α) : EndsWith none (next g a) := by
  cases h with
  | path => exact Grammar.pathStep_endsWith a
  | type least => exact g.typeStep_endsWith least a
  | chain => exact g.postfixStep_endsWith a
  | expr least => exact g.exprStep_endsWith least a
  | implements => exact g.implementsStep_endsWith a

theorem Step.inStep {α : Type} {next : Grammar → α → TokenParser (Option α)} {start : Token → Prop}
    {depth : Nat} {g g' : Grammar} (h : Step next) (hg : g.Agree depth g') (a : α) :
    InStep start depth (fun next => next.isSome.toNat) (next g a) (next g' a) := by
  cases h with
  | path => exact (Grammar.pathStep_inStep a).lower
  | type least => exact (Grammar.typeStep_inStep hg least a).lower
  | chain => exact (Grammar.postfixStep_inStep hg a).lower
  | expr least => exact (Grammar.exprStep_inStep hg least a).lower
  | implements => exact (Grammar.implementsStep_inStep hg a).lower

theorem Production.inStep {α : Type} {start : Token → Prop} {least : α → Nat}
    {p : Grammar → TokenParser α} {depth : Nat} {g g' : Grammar} (h : Production start least p)
    (hg : g.Agree depth g') : InStep start depth least (p g) (p g') := by
  induction h with
  | advance => exact .advance
  | eat htoken => exact .eat htoken
  | expect htoken => exact .expect htoken
  | ident => exact .ident
  | memberName => exact .memberName
  | delimited hclose _ ih => exact .delimited hclose ih
  | step hstep a => exact hstep.inStep hg a
  | nestedType least => exact hg.type least
  | nestedExpr least => exact hg.expr least
  | nestedOperand => exact hg.operand
  | nestedElse => exact hg.rest
  | nestedStmt => exact hg.stmt
  | path => exact Grammar.path_inStep.lower
  | typeArgs => exact (Grammar.typeArgs_inStep hg).lower
  | namedType => exact (Grammar.namedType_inStep hg).lower
  | arrayType => exact (Grammar.arrayType_inStep hg).lower
  | groupedType => exact (Grammar.groupedType_inStep hg).lower
  | primaryType => exact (Grammar.primaryType_inStep hg).lower
  | typeAt least => exact (Grammar.typeAt_inStep hg least).lower
  | param => exact (Grammar.param_inStep hg).lower
  | params => exact (Grammar.params_inStep hg).lower
  | signatureTail => exact (Grammar.signatureTail_inStep hg).lower
  | block => exact (Grammar.block_inStep hg).lower
  | args => exact Grammar.args_inStep hg
  | objectField => exact (Grammar.objectField_inStep hg).lower
  | lambda => exact (Grammar.lambda_inStep hg).lower
  | className => exact Grammar.className_inStep.lower
  | instantiation => exact (Grammar.instantiation_inStep hg).lower
  | grouped => exact (Grammar.grouped_inStep hg).lower
  | arrayLiteral => exact (Grammar.arrayLiteral_inStep hg).lower
  | objectLiteral => exact (Grammar.objectLiteral_inStep hg).lower
  | atom build => exact (Grammar.atom_inStep build).lower
  | nameAtom name => exact (Grammar.nameAtom_inStep name).lower
  | primary => exact (Grammar.primary_inStep hg).lower
  | trailingClosure => exact (Grammar.trailingClosure_inStep hg).lower
  | postfixChain => exact (Grammar.postfixChain_inStep hg).lower
  | operand => exact (Grammar.operand_inStep hg).lower
  | typeOperand => exact Grammar.typeOperand_inStep hg
  | infixRest left op => exact Grammar.infixRest_inStep hg left op
  | exprAt least => exact (Grammar.exprAt_inStep hg least).lower
  | namespaceDecl => exact Grammar.namespaceDecl_inStep.lower
  | usingDecl => exact Grammar.usingDecl_inStep.lower
  | foreignTarget marker => exact (Grammar.foreignTarget_inStep marker).lower
  | foreignDecl => exact (Grammar.foreignDecl_inStep hg).lower
  | constructorMember => exact (Grammar.constructorMember_inStep hg).lower
  | methodBody => exact (Grammar.methodBody_inStep hg).lower
  | methodMember first => exact (Grammar.methodMember_inStep hg first).lower
  | fieldMember => exact (Grammar.fieldMember_inStep hg).lower
  | namedMember => exact (Grammar.namedMember_inStep hg).lower
  | member => exact (Grammar.member_inStep hg).lower
  | implementsList => exact (Grammar.implementsList_inStep hg).lower
  | classBody kind => exact (Grammar.classBody_inStep hg kind).lower
  | condition => exact Grammar.condition_inStep hg
  | elseBranch => exact (Grammar.elseBranch_inStep hg).lower
  | letStmt => exact (Grammar.letStmt_inStep hg).lower
  | functionStmt => exact (Grammar.functionStmt_inStep hg).lower
  | ifStmt => exact (Grammar.ifStmt_inStep hg).lower
  | loopStmt build => exact (Grammar.loopStmt_inStep hg build).lower
  | returnStmt => exact (Grammar.returnStmt_inStep hg).lower
  | exprStmt => exact (Grammar.exprStmt_inStep hg).lower
  | stmtBody => exact (Grammar.stmtBody_inStep hg).lower
  | stmt => exact (Grammar.stmt_inStep hg).lower
  | program => exact Grammar.program_inStep hg

/-- A loop does the same for every bound that is long enough. -/
theorem Loop.within_eq {α : Type} {p : Grammar → TokenParser α}
    {within : Grammar → List Lexeme → TokenParser α} {depth : Nat} {g : Grammar} {c : Cursor}
    {bound : List Lexeme} (h : Loop p within) (hg : g.Agree depth g) (hend : c.EndsAhead)
    (hahead : c.ahead < depth) (hbound : c.ahead ≤ bound.length) : within g bound c = p g c := by
  have hlevel : ∀ {β : Type} {least : β → Nat} {q q' : TokenParser β},
      InStep anyToken depth least q q' → InStep anyToken (c.ahead + 1) least q q' :=
    fun hq => hq.mono (fun _ => id) hahead fun _ => Nat.le_refl _
  have hbound' := Nat.succ_le_succ hbound
  have hafter := Nat.succ_le_succ hend.ahead_le
  have hloop : InStep anyToken (c.ahead + 1) (fun _ => 0) (within g bound) (within g c.after) := by
    cases h with
    | many hdone hitem => exact .manyWithin hdone (hlevel (hitem.inStep hg)) hbound' hafter
    | items close hitem => exact .itemsWithin (hlevel (hitem.inStep hg)) hbound' hafter
    | iterate hstep a =>
      exact .iterateWithin (hstep.endsWith g) (hstep.endsWith g)
        (fun a => hlevel (hstep.inStep hg a)) hbound' hafter a
  rw [(hloop c trivial hend (Nat.lt_succ_self _)).1]
  cases h <;> rfl

/-! ### Places in a list of lexemes -/

namespace Cursor

/-- The lexemes that are read, the last of which is an end token. -/
def completed (lexemes : List Lexeme) : List Lexeme :=
  (ofLexemes lexemes).rest

def firstEnd (lexemes : List Lexeme) : Nat :=
  (completed lexemes).findIdx fun l => l.token = .eof

/-- The number of lexemes before the cursor. -/
def place (c : Cursor) : Nat :=
  c.before.length

/-- The cursor stands in the list of lexemes, at the first end token or before it. -/
structure On (lexemes : List Lexeme) (c : Cursor) : Prop where
  lexemes_eq : c.before.reverse ++ c.rest = completed lexemes
  place_le : c.place ≤ firstEnd lexemes

/-- The outcome `r` of a parser at the cursor `c`: the cursor is still on the lexemes, at least as
    far as before and, after a success, as much farther as `least` says; and it has its old modes. -/
structure StepsTo {α : Type} (lexemes : List Lexeme) (least : α → Nat) (c : Cursor)
    (r : EStateM.Result ParseError Cursor α) : Prop where
  on : (finalCursor r).On lexemes
  forward : c.place ≤ (finalCursor r).place
  progress : ∀ a d, r = .ok a d → c.place + least a ≤ d.place
  inCondition_eq : (finalCursor r).inCondition = c.inCondition
  inTypeOperand_eq : (finalCursor r).inTypeOperand = c.inTypeOperand

theorem endsAhead_ofLexemes (lexemes : List Lexeme) : (ofLexemes lexemes).EndsAhead := by
  cases lexemes with
  | nil => exact ⟨_, List.mem_singleton_self _, rfl⟩
  | cons first rest =>
    by_cases hlast : ((first :: rest).getLast (List.cons_ne_nil first rest)).token = .eof
    · refine ⟨_, ?_, hlast⟩
      rw [ofLexemes, Cursor.rest, if_pos hlast]
      exact List.getLast_mem _
    · refine ⟨endAfter ((first :: rest).getLast (List.cons_ne_nil first rest)), ?_, rfl⟩
      rw [ofLexemes, Cursor.rest, if_neg hlast]
      simp

theorem firstEnd_lt (lexemes : List Lexeme) : firstEnd lexemes < (completed lexemes).length := by
  obtain ⟨l, hl, hend⟩ := endsAhead_ofLexemes lexemes
  exact List.findIdx_lt_length_of_exists ⟨l, hl, by simpa using hend⟩

theorem length_completed_le (lexemes : List Lexeme) :
    (completed lexemes).length ≤ lexemes.length + 1 := by
  cases lexemes with
  | nil => exact Nat.le_refl _
  | cons first rest =>
    rw [completed, ofLexemes, Cursor.rest]
    split
    · simp
    · simp

theorem on_ofLexemes (lexemes : List Lexeme) : (ofLexemes lexemes).On lexemes := by
  cases lexemes with
  | nil => exact ⟨rfl, Nat.zero_le _⟩
  | cons first rest => exact ⟨rfl, Nat.zero_le _⟩

namespace On

variable {lexemes consumed : List Lexeme} {c d : Cursor}

/-- The lexemes ahead are those up to the first end token of all. -/
theorem place_add_ahead (h : c.On lexemes) : c.place + c.ahead = firstEnd lexemes := by
  have hle := h.place_le
  have hlength : c.before.reverse.length = c.place := List.length_reverse
  rw [firstEnd, ← h.lexemes_eq, List.findIdx_append] at hle ⊢
  split at hle
  · omega
  · next hnot => rw [if_neg hnot, hlength, Nat.add_comm]; rfl

theorem endsAhead (h : c.On lexemes) : c.EndsAhead := by
  have hlt := firstEnd_lt lexemes
  have hahead := h.place_add_ahead
  have hlength := congrArg List.length h.lexemes_eq
  rw [List.length_append, List.length_reverse] at hlength
  have hrest : c.rest.findIdx (fun l => l.token = .eof) < c.rest.length := by
    show c.ahead < _
    have hplace : c.place = c.before.length := rfl
    omega
  obtain ⟨found, hfound, htoken⟩ := List.findIdx_lt_length.mp hrest
  exact ⟨found, hfound, by simpa using htoken⟩

theorem ahead_le (h : c.On lexemes) : c.ahead ≤ lexemes.length := by
  have hlt := firstEnd_lt lexemes
  have hahead := h.place_add_ahead
  have hlength := length_completed_le lexemes
  omega

theorem place_consumes (hd : c.Consumes consumed d) : d.place = c.place + consumed.length := by
  rw [place, hd.before_eq, List.length_append, List.length_reverse, Nat.add_comm]
  rfl

theorem consumes (h : c.On lexemes) (hd : c.Consumes consumed d) : d.On lexemes := by
  refine ⟨?_, ?_⟩
  · rw [← h.lexemes_eq, hd.before_eq, hd.rest_eq, List.reverse_append, List.reverse_reverse,
      List.append_assoc]
  · have hahead := h.place_add_ahead
    rw [hd.ahead_eq] at hahead
    rw [place_consumes hd]
    omega

theorem stepsTo {α : Type} {least : α → Nat} {r : EStateM.Result ParseError Cursor α}
    (h : c.On lexemes) (hr : Advances least c r) : c.StepsTo lexemes least r := by
  obtain ⟨consumed, hconsumed, hcount⟩ := hr
  have hplace := place_consumes hconsumed
  refine ⟨h.consumes hconsumed, by omega, fun a d hrun => ?_, hconsumed.inCondition_eq,
    hconsumed.inTypeOperand_eq⟩
  have hleast := hcount a d hrun
  subst hrun
  have hd : d.place = c.place + consumed.length := hplace
  omega

end On

end Cursor

/-! ### Angle brackets -/

/-- The values of the counter of open angle brackets while the end of type arguments is looked for.
    The search stops when the counter is zero again, or at a token that belongs to no type. -/
def angleDepths (depth : Int) : List Lexeme → List Int
  | [] => []
  | lexeme :: rest =>
    if lexeme.token = .symbol .lt then (depth + 1) :: angleDepths (depth + 1) rest
    else if lexeme.token = .symbol .gt then
      (depth - 1) :: if depth - 1 = 0 then [] else angleDepths (depth - 1) rest
    else if lexeme.token.isTypePart then angleDepths depth rest
    else []

/-- No value of the counter is below zero, and zero is reached exactly if `closes` holds. -/
def CountsTo (closes : Bool) (values : List Int) : Prop :=
  (∀ value ∈ values, 0 ≤ value) ∧ (closes = true ↔ 0 ∈ values)

theorem CountsTo.cons {closes : Bool} {value : Int} {values : List Int} (hvalue : 0 < value)
    (h : CountsTo closes values) : CountsTo closes (value :: values) := by
  refine ⟨List.forall_mem_cons.mpr ⟨by omega, h.1⟩, ?_⟩
  rw [List.mem_cons, h.2]
  exact ⟨.inr, fun hzero => hzero.resolve_left (by omega)⟩

/-- Inside an open angle bracket the counter goes down to zero at most, and it gets there exactly if
    the bracket is closed. -/
theorem countsTo_angleDepths {depth : Nat} (hdepth : 1 ≤ depth) (lexemes : List Lexeme) :
    CountsTo (closesAngles depth lexemes) (angleDepths depth lexemes) := by
  induction lexemes generalizing depth with
  | nil => exact ⟨by simp [angleDepths], by simp [angleDepths, closesAngles]⟩
  | cons lexeme rest ih =>
    rw [closesAngles, angleDepths]
    by_cases hlt : lexeme.token = .symbol .lt
    · rw [if_pos hlt, if_pos hlt]
      exact (ih (Nat.le_add_left 1 depth)).cons (by omega)
    · rw [if_neg hlt, if_neg hlt]
      by_cases hgt : lexeme.token = .symbol .gt
      · rw [if_pos hgt, if_pos hgt]
        by_cases hone : depth ≤ 1
        · have hzero : (depth : Int) - 1 = 0 := by omega
          rw [if_pos hone, if_pos hzero, hzero]
          exact ⟨by simp, by simp⟩
        · have hcast : (depth : Int) - 1 = ((depth - 1 : Nat) : Int) := by omega
          rw [if_neg hone, if_neg (by omega), hcast]
          exact CountsTo.cons (by omega) (ih (by omega))
      · rw [if_neg hgt, if_neg hgt]
        by_cases hpart : lexeme.token.isTypePart = true
        · rw [if_pos hpart, if_pos hpart]
          exact ih hdepth
        · rw [if_neg hpart, if_neg hpart]
          exact ⟨by simp, by simp⟩

theorem countsTo_typeArgsFollow {c : Cursor} (h : c.token = .symbol .lt) :
    CountsTo c.typeArgsFollow (angleDepths 0 c.rest) := by
  have hlt : c.current.token = .symbol .lt := h
  rw [Cursor.typeArgsFollow, Cursor.rest, closesAngles, angleDepths, if_pos hlt, if_pos hlt]
  exact (countsTo_angleDepths (Nat.le_refl 1) c.after).cons (by omega)

/-! ### The end of a program -/

/-- Items are read until a token ends them, never until the bound is used up. -/
theorem done_of_manyWithin {α : Type} {done : Token → Bool} {item item' : TokenParser α}
    {depth : Nat} {bound : List Lexeme} {c d : Cursor} {found : List α} (hdone : done .eof = true)
    (hitem : InStep anyToken depth (fun _ => 1) item item') (hend : c.EndsAhead)
    (hahead : c.ahead < depth) (hbound : c.ahead ≤ bound.length)
    (hrun : manyWithin done item bound c = .ok found d) : done d.token = true := by
  induction bound generalizing c found with
  | nil =>
    obtain ⟨_, rfl⟩ := EStateM.Result.ok.inj hrun
    have htoken : c.token = .eof := Cursor.ahead_eq_zero_iff.mp (Nat.le_zero.mp hbound)
    rw [htoken]
    exact hdone
  | cons _ bound ih =>
    have hrun' : (if done c.token then pure []
        else item >>= fun first => manyWithin done item bound >>= fun rest => pure (first :: rest) :
          TokenParser (List α)) c = .ok found d := hrun
    by_cases hc : done c.token = true
    · rw [if_pos hc] at hrun'
      obtain ⟨_, rfl⟩ := EStateM.Result.ok.inj hrun'
      exact hc
    · rw [if_neg hc] at hrun'
      obtain ⟨_, consumed, hconsumed, hcount⟩ := hitem c trivial hend hahead
      change EStateM.bind item _ c = _ at hrun'
      unfold EStateM.bind at hrun'
      split at hrun'
      · next first c' hfirst =>
        rw [hfirst] at hconsumed
        have hone : 1 ≤ consumed.length := hcount first c' hfirst
        have hconsumed' : c.Consumes consumed c' := hconsumed
        have hleft := hconsumed'.ahead_eq
        change EStateM.bind (manyWithin done item bound) _ c' = _ at hrun'
        unfold EStateM.bind at hrun'
        rw [List.length_cons] at hbound
        split at hrun'
        · next rest d' hrest =>
          obtain ⟨_, rfl⟩ := EStateM.Result.ok.inj hrun'
          exact ih (hconsumed'.endsAhead hend) (by omega) (by omega) hrest
        · cases hrun'
      · cases hrun'

/-! ### Reading a list of lexemes -/

/-- How a list of lexemes is read, by the grammar of the level that programs, expressions and types
    are parsed with. -/
structure ReadsSafely (lexemes : List Lexeme) : Prop where
  /-- The cursor begins on the lexemes. -/
  begins : (Cursor.ofLexemes lexemes).On lexemes
  /-- The recursion ends: a grammar beyond as many levels as there are lexemes is never asked. -/
  recursion : ∀ {α : Type} {start : Token → Prop} {least : α → Nat} {p : Grammar → TokenParser α},
    Production start least p → ∀ (bottom : Grammar) (n : Nat) (c : Cursor), lexemes.length < n →
      c.On lexemes → start c.token →
        p (bottom.above n) c = p (Grammar.level (lexemes.length + 1)) c
  /-- The loops end: a bound beyond the lexemes ahead changes nothing. -/
  loops : ∀ {α : Type} {p : Grammar → TokenParser α}
    {within : Grammar → List Lexeme → TokenParser α}, Loop p within →
      ∀ (c : Cursor) (bound : List Lexeme), c.On lexemes → c.ahead ≤ bound.length →
        within (Grammar.level (lexemes.length + 1)) bound c =
          p (Grammar.level (lexemes.length + 1)) c
  /-- Each parser keeps the cursor on the lexemes, consumes what it should and keeps the modes. -/
  outcome : ∀ {α : Type} {start : Token → Prop} {least : α → Nat} {p : Grammar → TokenParser α},
    Production start least p → ∀ c : Cursor, c.On lexemes → start c.token →
      c.StepsTo lexemes least (p (Grammar.level (lexemes.length + 1)) c)
  /-- Type arguments are looked for only at a `<`, and then the counter of open brackets is never
      below zero. -/
  angles : ∀ c : Cursor, c.On lexemes →
    (c.token = .symbol .lt → CountsTo c.typeArgsFollow (angleDepths 0 c.rest)) ∧
      (c.token ≠ .symbol .lt → Grammar.opensTypeArgs c = .ok false c)
  /-- A program ends at the first end token. -/
  finish : ∀ program d,
    Grammar.program (Grammar.level (lexemes.length + 1)) (Cursor.ofLexemes lexemes) =
      .ok program d → d.place = Cursor.firstEnd lexemes

/-- A successful program has been read up to an end token. -/
theorem token_of_program {g : Grammar} {depth : Nat} {c d : Cursor} {program : Program}
    (hg : g.Agree depth g) (hend : c.EndsAhead) (hahead : c.ahead < depth)
    (hrun : g.program c = .ok program d) : d.token = .eof := by
  change EStateM.bind (many _ g.nestedStmt) _ c = _ at hrun
  unfold EStateM.bind at hrun
  split at hrun
  · next stmts d' hmany =>
    obtain ⟨_, rfl⟩ := EStateM.Result.ok.inj hrun
    exact of_decide_eq_true (done_of_manyWithin rfl hg.stmt hend hahead hend.ahead_le hmany)
  · cases hrun

/-- Reading ends for every list of lexemes. The cursor moves forward only and never passes the first
    end token, each parser that should consume something does, and all parsers restore the modes. -/
theorem readsSafely (lexemes : List Lexeme) : ReadsSafely lexemes := by
  have hlevel : (Grammar.level (lexemes.length + 1)).Agree (lexemes.length + 1)
      (Grammar.level (lexemes.length + 1)) := by
    rw [Grammar.level_eq_above]
    exact Grammar.agree_above _ _ _
  refine ⟨Cursor.on_ofLexemes lexemes, ?_, ?_, ?_, ?_, ?_⟩
  · intro α start least p hp bottom n c hn hc hstart
    have hstep := hp.inStep (Grammar.agree_level bottom hn)
    exact (hstep c hstart hc.endsAhead (Nat.lt_succ_of_le hc.ahead_le)).1
  · intro α p within hloop c bound hc hbound
    exact hloop.within_eq hlevel hc.endsAhead (Nat.lt_succ_of_le hc.ahead_le) hbound
  · intro α start least p hp c hc hstart
    have hstep := hp.inStep hlevel
    exact hc.stepsTo (hstep c hstart hc.endsAhead (Nat.lt_succ_of_le hc.ahead_le)).2
  · intro c _
    refine ⟨countsTo_typeArgsFollow, fun hlt => ?_⟩
    simp [Grammar.opensTypeArgs, hlt]
  · intro program d hrun
    have hc := Cursor.on_ofLexemes lexemes
    have hahead := Nat.lt_succ_of_le hc.ahead_le
    have htoken := token_of_program hlevel hc.endsAhead hahead hrun
    have hstep := Production.program.inStep hlevel
    have hd := (hc.stepsTo (hstep _ trivial hc.endsAhead hahead).2).on
    rw [hrun] at hd
    have hplace : d.place + d.ahead = Cursor.firstEnd lexemes := hd.place_add_ahead
    rw [← hplace, Cursor.ahead_eq_zero_iff.mpr htoken, Nat.add_zero]

end ScriptCompiler
