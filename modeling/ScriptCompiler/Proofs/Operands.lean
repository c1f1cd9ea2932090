import ScriptCompiler.Proofs.Fronts
import ScriptCompiler.Proofs.ReadBack
import ScriptCompiler.Proofs.TypeTests

/-!
# Operands of the script

An operand has to stay one operand where it is written. Before a call, a member access or an index,
numbers, object literals and anonymous functions are put between parentheses, and at the start of a
statement the latter two are. The outermost constructor decides about this, so that parentheses are
missing around what stands under a plain cast. Beside an operator and in a type test there are none.
-/

namespace ScriptCompiler

open Script Brackets

/-- Places in the text of an expression where another expression has to stay one operand. -/
inductive Place where
  /-- Beside an operator, or in a type test. -/
  | beside
  /-- Before a call or an index. -/
  | receiver
  /-- Before a member access. -/
  | owner
deriving DecidableEq, Repr

namespace Place

/-- Is the expression put between parentheses at this place? -/
def shields : Place → Expr → Bool
  | .beside, _ => false
  | .receiver, e | .owner, e => e.isShielded

/-- What is written for an expression at this place. -/
def text (ctx : Context) (place : Place) (e : Expr) : String :=
  if place.shields e then "(" ++ e.script ctx ++ ")" else e.script ctx

/-- Receivers and owners are written as receivers. -/
theorem text_eq_receiverText (ctx : Context) {place : Place} (h : place ≠ .beside) (e : Expr) :
    place.text ctx e = receiverText (e.script ctx) e := by
  rw [receiverText_eq]
  cases place with
  | beside => exact absurd rfl h
  | receiver | owner => rfl

end Place

/-- A fragment of the text of an expression: a text that does not depend on operands, or the gap for
    an operand. -/
inductive Fragment where
  | own (text : String)
  | gap (place : Place) (operand : Expr)

def Fragment.text (ctx : Context) : Fragment → String
  | .own text => text
  | .gap place operand => place.text ctx operand

/-- Does the fragment satisfy `test` with its place and operand? -/
def Fragment.isGap (test : Place → Expr → Bool) : Fragment → Bool
  | .own _ => false
  | .gap place operand => test place operand

theorem Fragment.exists_gap {test : Place → Expr → Bool} {fragments : List Fragment}
    (h : fragments.any (isGap test) = true) :
    ∃ place operand, .gap place operand ∈ fragments ∧ test place operand = true := by
  obtain ⟨fragment, hin, htest⟩ := List.any_eq_true.mp h
  cases fragment with
  | own text => cases htest
  | gap place operand => exact ⟨place, operand, hin, htest⟩

/-- What a tolerant type test writes before and behind the test. -/
def Script.guardEnds (awaits : Bool) : String × String :=
  if awaits then
    ("(await (async () => \x7b try \x7b return ",
      "; \x7d catch (_) \x7b return false; \x7d \x7d)())")
  else ("(() => \x7b try \x7b return ", "; \x7d catch (_) \x7b return false; \x7d \x7d)()")

/-- The code of a type test around its gaps. -/
def Script.TestCode.fragments (subject : Expr) : TestCode → List Fragment
  | .check before behind => [.own before, .gap .beside subject, .own behind]
  | .join goOn left right => .own "(" :: left.fragments subject
    ++ .own (joinText goOn) :: right.fragments subject ++ [.own ")"]

/-- The text of an expression around its operands. -/
def Expr.fragments (ctx : Context) (e : Expr) : List Fragment :=
  match e with
  | .binary _ op left right =>
    [.own "(", .gap .beside left, .own (" " ++ binaryText op ++ " "), .gap .beside right, .own ")"]
  | .unary _ op operand => [.own ("(" ++ op.text), .gap .beside operand, .own ")"]
  | .typeTest _ operand type false => (testCode ctx type).fragments operand
  | .typeTest _ operand type true => .own (guardEnds operand.awaits).1
    :: (testCode ctx type).fragments operand ++ [.own (guardEnds operand.awaits).2]
  | .call _ receiver _ _ | .index _ receiver _ =>
    [.gap .receiver receiver, .own (e.behindReceiver ctx)]
  | .field _ receiver member | .staticMember _ receiver member =>
    [.gap .owner receiver, .own ("." ++ member.name)]
  | e => [.own (e.script ctx)]

namespace Script

theorem guardText_false (text : String) (awaits : Bool) :
    guardText text "false" awaits = (guardEnds awaits).1 ++ text ++ (guardEnds awaits).2 := by
  rw [← String.toList_inj]
  cases awaits <;> simp [guardText, guardEnds]

theorem TestCode.concat_fragments (ctx : Context) (subject : Expr) (code : TestCode) :
    Text.concat ((code.fragments subject).map (Fragment.text ctx)) =
      code.fill (subject.script ctx) := by
  induction code with
  | check before behind =>
    rw [← String.toList_inj]
    simp [fragments, fill, Fragment.text, Place.text, Place.shields]
  | join goOn left right ihleft ihright =>
    rw [← String.toList_inj, Text.toList_concat] at ihleft ihright ⊢
    simp [fragments, fill, Fragment.text, ← ihleft, ← ihright]

theorem TestCode.eq_of_gap {subject operand : Expr} {place : Place} {code : TestCode}
    (h : .gap place operand ∈ code.fragments subject) : place = .beside ∧ operand = subject := by
  induction code with
  | check before behind => simpa [fragments] using h
  | join goOn left right ihleft ihright =>
    have hparts : .gap place operand ∈ left.fragments subject ∨
        .gap place operand ∈ right.fragments subject := by
      simpa [fragments] using h
    exact hparts.elim ihleft ihright

end Script

namespace Expr

variable {ctx : Context} {e operand : Expr} {place : Place}

/-- The text of every expression is made of its fragments. -/
theorem script_eq_fragments (ctx : Context) (e : Expr) :
    e.script ctx = Text.concat ((e.fragments ctx).map (Fragment.text ctx)) := by
  cases e with
  | binary | unary =>
    rw [← String.toList_inj]
    simp [fragments, script, Fragment.text, Place.text, Place.shields]
  | typeTest span operand type guarded =>
    rw [script, typeTest_eq_fill, ← TestCode.concat_fragments]
    cases guarded with
    | false => rfl
    | true =>
      rw [← String.toList_inj]
      simp [fragments, guardText_false, Fragment.text]
  | call | index | field | staticMember =>
    rw [script_of_receiver? rfl, ← String.toList_inj]
    simp [fragments, Fragment.text, Place.text_eq_receiverText, behindReceiver]
  | _ =>
    rw [← String.toList_inj]
    simp [fragments, Fragment.text]

theorem mem_writtenParts_of_gap (h : .gap place operand ∈ e.fragments ctx) :
    Node.expr operand ∈ (Node.expr e).writtenParts := by
  cases e with
  | binary span op left right =>
    have hside : operand = left ∨ operand = right := by
      have hgap : (place = .beside ∧ operand = left) ∨ place = .beside ∧ operand = right := by
        simpa [fragments] using h
      exact hgap.imp And.right And.right
    rcases hside with rfl | rfl
    · exact List.mem_cons_self
    · exact List.mem_cons_of_mem _ List.mem_cons_self
  | typeTest span subject type guarded =>
    have htest : .gap place operand ∈ (testCode ctx type).fragments subject := by
      cases guarded with
      | false => exact h
      | true => simpa [fragments] using h
    obtain ⟨_, rfl⟩ := TestCode.eq_of_gap htest
    exact List.mem_cons_self
  | unary | call | field | staticMember | index =>
    obtain ⟨_, rfl⟩ : _ ∧ operand = _ := by simpa [fragments] using h
    exact List.mem_cons_self
  | _ => simp [fragments] at h

theorem fragments_of_owner (h : .gap .owner operand ∈ e.fragments ctx) :
    ∃ member, e.fragments ctx = [.gap .owner operand, .own ("." ++ member)] := by
  cases e with
  | field span receiver member | staticMember span receiver member =>
    obtain rfl : operand = receiver := by simpa [fragments] using h
    exact ⟨member.name, rfl⟩
  | typeTest span subject type guarded =>
    have htest : .gap .owner operand ∈ (testCode ctx type).fragments subject := by
      cases guarded with
      | false => exact h
      | true => simpa [fragments] using h
    cases (TestCode.eq_of_gap htest).1
  | _ => simp [fragments] at h

end Expr

namespace Place

variable {ctx : Context} {e : Expr} {place : Place}

theorem exposesArrow_text (h : (Node.expr e).Every Node.Spelt) (hshields : place.shields e = false)
    (hfront : e.front.isLambda = true) : ExposesArrow (place.text ctx e) := by
  rw [text, hshields]
  exact e.exposesArrow_script h hfront

theorem of_exposesArrow_text (hctx : ctx.Plain) (h : e.Regular)
    (harrow : ExposesArrow (place.text ctx e)) :
    place.shields e = false ∧ e.front.isLambda = true := by
  unfold text at harrow
  split at harrow
  · have hclosed := e.closed_script hctx.calm h.writable
    exact absurd harrow (hides_parenthesized hclosed).not_exposesArrow
  · rename_i hshields
    refine ⟨Bool.not_eq_true _ ▸ hshields, ?_⟩
    by_contra hfront
    exact (e.hides_script hctx h (Bool.not_eq_true _ ▸ hfront)).not_exposesArrow harrow

theorem isNumeral_text_iff (hctx : ctx.Plain) (h : (Node.expr e).Every Node.Spelt) :
    IsNumeral (place.text ctx e) ↔ place.shields e = false ∧ e.bare.isNumber = true := by
  unfold text
  split
  · rename_i hshields
    rw [hshields]
    refine iff_of_false (fun hnumeral => ?_) fun ⟨hshields, _⟩ => absurd hshields (by decide)
    have hin : '(' ∈ ("(" ++ e.script ctx ++ ")").toList := by simp
    exact absurd (hnumeral.isDigit_or_point hin) (by decide)
  · rename_i hshields
    rw [Expr.isNumeral_script_iff hctx h]
    exact ⟨fun hnumber => ⟨Bool.not_eq_true _ ▸ hshields, hnumber⟩, fun hboth => hboth.2⟩

end Place

/-- The expression of an expression statement. -/
def Stmt.value? : Stmt → Option Expr
  | .expr _ value => some value
  | _ => none

/-- The expression statements of a program are written, and so are their expressions. -/
theorem Program.writes_of_value? {program : Program} {value : Expr}
    (h : value ∈ program.stmts.filterMap Stmt.value?) (options : Options) :
    program.Writes options (topContext options program) (.expr value) ∧
      ∃ span, program.Writes options (topContext options program) (.stmt (.expr span value)) := by
  obtain ⟨s, hs, hvalue⟩ := List.mem_filterMap.mp h
  cases s with
  | expr span own =>
    obtain rfl : own = value := Option.some.inj hvalue
    exact ⟨⟨_, hs, .inside (.head _) .here⟩, span, _, hs, .here⟩
  | _ => cases hvalue

namespace Script

theorem statementText_eq (text : String) (e : Expr) :
    statementText text e =
      if e.isObject || e.isLambda then "(" ++ text ++ ");" else text ++ ";" := by
  cases e <;> rfl

/-- An expression statement starts with a brace if it is no object literal itself but has one at its
    front. -/
theorem head?_statementText_iff {ctx : Context} (hctx : ctx.Plain) {value : Expr}
    (h : (Node.expr value).Every Node.Spelt) :
    (statementText (value.script ctx) value).toList.head? = some '{' ↔
      value.isObject = false ∧ value.front.isObject = true := by
  rw [statementText_eq]
  split
  · rename_i hshielded
    refine iff_of_false (by simp) ?_
    rintro ⟨hobject, hfront⟩
    rw [hobject, Bool.false_or] at hshielded
    cases value with
    | lambda => cases hfront
    | _ => cases hshielded
  · rename_i hshielded
    obtain ⟨hobject, _⟩ : value.isObject = false ∧ value.isLambda = false := by
      simpa using hshielded
    rw [((value.startsWith_script hctx h).append ";").head?_iff fun c => id]
    simp [hobject]

/-- How operands and expression statements stand in the script of a program. -/
structure OperandsStand (options : Options) (files : List String) (program : Program) : Prop where
  /-- The script holds the text of every expression, which is made of its fragments: its operands
      and the texts around them. -/
  inserted : ∀ ctx e, program.Writes options ctx (.expr e) →
    (e.script ctx).toList <:+: (generate options files program).code.toList ∧
      e.script ctx = Text.concat ((e.fragments ctx).map (Fragment.text ctx))
  /-- The text of an operand exposes an arrow if an anonymous function is at its front and it is not
      put between parentheses. -/
  arrow : ∀ ctx e, program.Writes options ctx (.expr e) → ∀ place operand,
    .gap place operand ∈ e.fragments ctx → place.shields operand = false →
      operand.front.isLambda = true → ExposesArrow (place.text ctx operand)
  /-- No other operand exposes one, unless it has a foreign function with a strange target. -/
  noArrow : ∀ ctx e, program.Writes options ctx (.expr e) → ∀ place operand,
    .gap place operand ∈ e.fragments ctx →
      ((Node.expr operand).Every fun n => n.hasDottedTarget) →
        ExposesArrow (place.text ctx operand) →
          place.shields operand = false ∧ operand.front.isLambda = true
  /-- What is written before a member is a number if one stands there under plain casts. -/
  owner : ∀ ctx e, program.Writes options ctx (.expr e) → ∀ operand,
    .gap .owner operand ∈ e.fragments ctx →
      (∃ member, e.fragments ctx = [.gap .owner operand, .own ("." ++ member)]) ∧
        (IsNumeral (Place.owner.text ctx operand) ↔
          Place.owner.shields operand = false ∧ operand.bare.isNumber = true)
  /-- An expression statement starts with a brace if it is no object literal itself but has one at
      its front. -/
  statement : ∀ ctx span value, program.Writes options ctx (.stmt (.expr span value)) →
    (ctx.rowFrom span (statementText (value.script ctx) value)).render.toList <:+:
        (generate options files program).code.toList ∧
      ((statementText (value.script ctx) value).toList.head? = some '{' ↔
        value.isObject = false ∧ value.front.isObject = true)

/-- The operands and expression statements of every program that was parsed or linked. -/
theorem generate_operandsStand {program : Program} (hread : program.IsRead) (options : Options)
    (files : List String) : OperandsStand options files program := by
  have hoperand : ∀ {ctx e}, program.Writes options ctx (.expr e) → ∀ {place operand},
      .gap place operand ∈ e.fragments ctx → (Node.expr operand).Every Node.Spelt :=
    fun hwrites _ _ hin =>
      (hwrites.spelt hread).writes (.inside (Expr.mem_writtenParts_of_gap hin) .here)
  refine ⟨?_, ?_, ?_, ?_, ?_⟩
  · intro ctx e hwrites
    have hwritten := hwrites.isInfix files
    rw [Node.passage, e.plain_passage] at hwritten
    exact ⟨hwritten, e.script_eq_fragments ctx⟩
  · intro ctx e hwrites place operand hin
    exact Place.exposesArrow_text (hoperand hwrites hin)
  · intro ctx e hwrites place operand hin hdotted
    exact Place.of_exposesArrow_text (hwrites.plain hread) ((hoperand hwrites hin).and hdotted)
  · intro ctx e hwrites operand hin
    exact ⟨Expr.fragments_of_owner hin,
      Place.isNumeral_text_iff (hwrites.plain hread) (hoperand hwrites hin)⟩
  · intro ctx span value hwrites
    have hvalue : (Node.expr value).Every Node.Spelt := (hwrites.spelt hread).child (.head _)
    refine ⟨?_, head?_statementText_iff (hwrites.plain hread) hvalue⟩
    have hwritten := hwrites.isInfix files
    rw [Node.passage, Stmt.plain_passage, Stmt.rows] at hwritten
    simpa [Row.code, Text.concat] using hwritten

/-- Statements with operands at all places, some of them under casts. -/
def operandSource : String :=
  "f(x).y[-1]; (\x7b\x7d); (1).z; (micro () \x7b\x7d as F)(); (2 as Number).k;"

/-- The script and the operands of these statements. -/
theorem generate_operandSource :
    ∃ lexemes program, tokenizeFile 0 operandSource = .ok lexemes ∧
      parseProgram lexemes = .ok program ∧
      (generate {} [] program).code =
        "f(x).y[(-1)];\n(\x7b\x7d);\n(1).z;\n() => \x7b\n\x7d();\n2.k;\n" ∧
      OperandsStand {} [] program := by
  have hview : ((tokenizeFile 0 operandSource).toOption.bind fun lexemes =>
      (parseProgram lexemes).toOption.map fun program => (generate {} [] program).code) =
      some "f(x).y[(-1)];\n(\x7b\x7d);\n(1).z;\n() => \x7b\n\x7d();\n2.k;\n" := by
    decide +kernel
  obtain ⟨lexemes, program, hscan, hparse, hcode⟩ := exists_parse_of_map hview
  exact ⟨lexemes, program, hscan, hparse, hcode,
    generate_operandsStand (.parsed hscan hparse) {} []⟩

/-- An anonymous function beside an operator, a number under a cast before a member, and an object
    literal under a cast at the start of a statement. -/
def unshieldedSource : String :=
  "1 + micro () \x7b\x7d; (1 as Number).x; (\x7b\x7d as T);"

/-- None of them is put between parentheses: the script shows all three. -/
theorem generate_unshieldedSource :
    ∃ lexemes program, tokenizeFile 0 unshieldedSource = .ok lexemes ∧
      parseProgram lexemes = .ok program ∧
      (generate {} [] program).code = "(1 + () => \x7b\n\x7d);\n1.x;\n\x7b\x7d;\n" ∧
      (∃ ctx e place operand, program.Writes {} ctx (.expr e) ∧
        .gap place operand ∈ e.fragments ctx ∧ ExposesArrow (place.text ctx operand) ∧
        e.script ctx = "(1 + " ++ place.text ctx operand ++ ")") ∧
      (∃ ctx e operand, program.Writes {} ctx (.expr e) ∧
        .gap .owner operand ∈ e.fragments ctx ∧ IsNumeral (Place.owner.text ctx operand)) ∧
      (∃ ctx span value, program.Writes {} ctx (.stmt (.expr span value)) ∧
        (statementText (value.script ctx) value).toList.head? = some '{') := by
  -- The three statements are looked for by what goes wrong in them.
  have hview : ((tokenizeFile 0 unshieldedSource).toOption.bind fun lexemes =>
      (parseProgram lexemes).toOption.map fun program =>
        let ctx := topContext {} program
        ((generate {} [] program).code,
          (program.stmts.filterMap Stmt.value?).any fun e =>
            (e.fragments ctx).any (Fragment.isGap fun place operand =>
              decide (ExposesArrow (place.text ctx operand)) &&
                e.script ctx = "(1 + " ++ place.text ctx operand ++ ")"),
          (program.stmts.filterMap Stmt.value?).any fun e =>
            (e.fragments ctx).any (Fragment.isGap fun place operand =>
              place = .owner && place.text ctx operand = "1"),
          (program.stmts.filterMap Stmt.value?).any fun e =>
            (statementText (e.script ctx) e).toList.head? = some '{')) =
      some ("(1 + () => \x7b\n\x7d);\n1.x;\n\x7b\x7d;\n", true, true, true) := by
    decide +kernel
  obtain ⟨lexemes, program, hscan, hparse, hview⟩ := exists_parse_of_map hview
  obtain ⟨hcode, hview⟩ := Prod.mk.inj hview
  obtain ⟨harrow, hview⟩ := Prod.mk.inj hview
  obtain ⟨howner, hstatement⟩ := Prod.mk.inj hview
  refine ⟨lexemes, program, hscan, hparse, hcode, ?_, ?_, ?_⟩
  · obtain ⟨e, he, harrow⟩ := List.any_eq_true.mp harrow
    obtain ⟨place, operand, hgap, hexposed⟩ := Fragment.exists_gap harrow
    simp only [Bool.and_eq_true, decide_eq_true_eq] at hexposed
    exact ⟨_, e, place, operand, (Program.writes_of_value? he {}).1, hgap, hexposed⟩
  · obtain ⟨e, he, howner⟩ := List.any_eq_true.mp howner
    obtain ⟨place, operand, hgap, hnumber⟩ := Fragment.exists_gap howner
    simp only [Bool.and_eq_true, decide_eq_true_eq] at hnumber
    obtain ⟨rfl, htext⟩ := hnumber
    refine ⟨_, e, operand, (Program.writes_of_value? he {}).1, hgap, ?_⟩
    rw [htext]
    exact .whole (by decide) (List.all_eq_true.mp (by decide))
  · obtain ⟨value, hvalue, hhead⟩ := List.any_eq_true.mp hstatement
    obtain ⟨span, hwrites⟩ := (Program.writes_of_value? hvalue {}).2
    exact ⟨_, span, value, hwrites, of_decide_eq_true hhead⟩

end Script

end ScriptCompiler
