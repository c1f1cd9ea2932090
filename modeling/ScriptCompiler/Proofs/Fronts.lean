import ScriptCompiler.Proofs.Scanning
import ScriptCompiler.Proofs.Surface
import ScriptCompiler.Proofs.WrittenContexts

/-!
# The front of an expression

The text of a plain cast is that of its operand, and the text of a call, member access or index
starts with that of its receiver, unless the receiver is put between parentheses. So each text starts
with that of the expression at its front. The front decides whether an arrow stands outside of all
brackets, and whether the text starts with a brace.
-/

namespace ScriptCompiler

open Script Brackets

/-! ### The front of an expression -/

namespace Expr

def isNumber : Expr → Bool
  | .number .. => true
  | _ => false

def isObject : Expr → Bool
  | .object .. => true
  | _ => false

def isLambda : Expr → Bool
  | .lambda .. => true
  | _ => false

def isPlainCast : Expr → Bool
  | .cast _ _ _ false => true
  | _ => false

/-- Expressions that are put between parentheses before a call, member access or index. -/
def isShielded (e : Expr) : Bool :=
  e.isNumber || e.isObject || e.isLambda

/-- What is called, indexed or asked for a member. -/
def receiver? : Expr → Option Expr
  | .call _ callee _ _ => some callee
  | .field _ receiver _ | .staticMember _ receiver _ | .index _ receiver _ => some receiver
  | _ => none

/-- The expression under plain casts. -/
def bare : Expr → Expr
  | .cast _ operand _ false => operand.bare
  | e => e

/-- The expression that the text of an expression starts with. A plain cast starts with its operand,
    and a call, member access or index with what stands before it, unless that is put between
    parentheses. -/
def front : Expr → Expr
  | .cast _ operand _ false => operand.front
  | .call span callee args closure? =>
    if callee.isShielded then .call span callee args closure? else callee.front
  | .field span receiver member =>
    if receiver.isShielded then .field span receiver member else receiver.front
  | .staticMember span receiver member =>
    if receiver.isShielded then .staticMember span receiver member else receiver.front
  | .index span receiver position =>
    if receiver.isShielded then .index span receiver position else receiver.front
  | e => e

variable {e r : Expr}

theorem front_of_receiver? (h : e.receiver? = some r) :
    e.front = if r.isShielded then e else r.front := by
  cases e with
  | call | field | staticMember | index =>
    obtain rfl := Option.some.inj h
    rfl
  | _ => cases h

theorem front_of_other (hcast : e.isPlainCast = false) (hreceiver : e.receiver? = none) :
    e.front = e := by
  cases e with
  | cast span operand type guarded =>
    cases guarded with
    | true => rfl
    | false => cases hcast
  | call | field | staticMember | index => cases hreceiver
  | _ => rfl

theorem bare_of_not_cast (h : e.isPlainCast = false) : e.bare = e := by
  cases e with
  | cast span operand type guarded =>
    cases guarded with
    | true => rfl
    | false => cases h
  | _ => rfl

/-- What has a receiver is neither one of the expressions that need parentheses nor a plain cast. -/
theorem kind_of_receiver? (h : e.receiver? = some r) :
    e.isNumber = false ∧ e.isObject = false ∧ e.isLambda = false ∧ e.isPlainCast = false := by
  cases e with
  | call | field | staticMember | index => exact ⟨rfl, rfl, rfl, rfl⟩
  | _ => cases h

/-- Induction along the start of the text of an expression. -/
theorem front_induction {motive : Expr → Prop}
    (cast : ∀ span operand type, motive operand → motive (.cast span operand type false))
    (receiver : ∀ e r, e.receiver? = some r → motive r → motive e)
    (other : ∀ e, e.isPlainCast = false → e.receiver? = none → motive e) : ∀ e, motive e
  | .cast _ operand _ false => cast _ operand _ (front_induction cast receiver other operand)
  | .cast _ _ _ true => other _ rfl rfl
  | .call _ callee _ _ => receiver _ callee rfl (front_induction cast receiver other callee)
  | .field _ r _ => receiver _ r rfl (front_induction cast receiver other r)
  | .staticMember _ r _ => receiver _ r rfl (front_induction cast receiver other r)
  | .index _ r _ => receiver _ r rfl (front_induction cast receiver other r)
  | .number .. | .string .. | .bool .. | .name .. | .binary .. | .unary .. | .assign ..
  | .typeTest .. | .array .. | .object .. | .lambda .. | .new .. => other _ rfl rfl

/-! ### Texts with a receiver -/

/-- What stands behind the receiver in the text of a call, member access or index. -/
def behindReceiver (ctx : Context) : Expr → String
  | .call _ _ args none => "(" ++ Text.joinWith ", " (scriptExprs ctx args) ++ ")"
  | .call _ _ args (some closure) =>
    "(" ++ Text.joinWith ", " (scriptExprs ctx args
      ++ [lambdaText ctx [] closure.awaits (closure.rows ctx.deeper)]) ++ ")"
  | .field _ _ member | .staticMember _ _ member => "." ++ member.name
  | .index _ _ position => "[" ++ position.script ctx ++ "]"
  | _ => ""

variable {ctx : Context}

theorem script_of_receiver? (h : e.receiver? = some r) :
    e.script ctx = receiverText (r.script ctx) r ++ e.behindReceiver ctx := by
  cases e with
  | call span callee args closure? =>
    obtain rfl := Option.some.inj h
    cases closure? <;> simp only [script, behindReceiver, String.append_assoc]
  | field | staticMember | index =>
    obtain rfl := Option.some.inj h
    simp only [script, behindReceiver, String.append_assoc]
  | _ => cases h

@[simp] theorem script_plainCast (span : Span) (operand : Expr) (type : TypeExpr) :
    (Expr.cast span operand type false).script ctx = operand.script ctx := by
  rw [script]
  rfl

theorem child_of_receiver? (h : e.receiver? = some r) : Child.plain (.expr r) ∈ e.children := by
  cases e with
  | call | field | staticMember | index =>
    obtain rfl := Option.some.inj h
    exact List.mem_cons_self
  | _ => cases h

end Expr

theorem Script.receiverText_eq (text : String) (e : Expr) :
    receiverText text e = if e.isShielded then "(" ++ text ++ ")" else text := by
  cases e <;> rfl

/-! ### Exposed arrows -/

namespace Brackets

/-- An arrow stands in the text outside all brackets, string literals and comments. -/
def ExposesArrow (text : String) : Prop :=
  ['=', '>'] <:+: surface text.toList .start

instance (text : String) : Decidable (ExposesArrow text) :=
  inferInstanceAs (Decidable (_ <:+: _))

theorem ExposesArrow.append {first : String} (h : ExposesArrow first) (second : String) :
    ExposesArrow (first ++ second) := by
  unfold ExposesArrow
  rw [String.toList_append]
  exact h.trans (surface_prefix_append _ _ _).isInfix

/-- An arrow behind closed code. -/
theorem exposesArrow_append_closed {before : String} (h : Closed before) (behind : String) :
    ExposesArrow (before ++ (" =>" ++ behind)) := by
  have harrow : [' ', '=', '>'] <+: surface (" =>" ++ behind).toList .start := by
    rw [String.toList_append]
    exact surface_prefix_append [' ', '=', '>'] behind.toList .start
  have hbefore : surface (before ++ (" =>" ++ behind)).toList .start =
      surface before.toList .start ++ surface (" =>" ++ behind).toList .start := by
    rw [String.toList_append]
    exact surface_append h _
  unfold ExposesArrow
  rw [hbefore]
  exact ((List.suffix_cons ' ' ['=', '>']).isInfix.trans harrow.isInfix).trans
    (List.suffix_append _ _).isInfix

/-- Code that hides the sign of equality exposes no arrow. -/
theorem Hides.not_exposesArrow {text : String} (h : Hides '=' text [] []) : ¬ExposesArrow text :=
  fun hexposed => h.2 (hexposed.subset List.mem_cons_self)

theorem hides_parenthesized {text : String} (h : Closed text) :
    Hides '=' ("(" ++ text ++ ")") [] [] :=
  Hides.enclosed h (x := [')']) (by decide) (by decide) (by decide)

end Brackets

namespace Script

theorem exposesArrow_lambdaText (ctx : Context) {params : List Param}
    (hparams : ∀ name ∈ paramNames params, IsCalm name) (awaits : Bool) (body : List Row) :
    ExposesArrow (lambdaText ctx params awaits body) := by
  have hhead : Closed (asyncMark awaits ++ "(" ++ paramList params ++ ")") :=
    (((closed_asyncMark awaits).append (z := [')']) (by decide)).append_closed
      (closed_paramList hparams)).append (by decide)
  have htext : lambdaText ctx params awaits body =
      asyncMark awaits ++ "(" ++ paramList params ++ ")" ++ (" =>" ++ (" \x7b\n" ++ Row.code body
        ++ Text.spaces (2 * ctx.indent) ++ "\x7d")) := by
    rw [lambdaText, ← String.toList_inj]
    simp
  rw [htext]
  exact exposesArrow_append_closed hhead _

theorem hides_guardText {text fallback : String} (htext : Closed text) (hfallback : Closed fallback)
    (awaits : Bool) : Hides '=' (guardText text fallback awaits) [] [] := by
  have hbody := closed_guardBody htext hfallback
  unfold guardText
  cases awaits with
  | true =>
    exact Hides.enclosed hbody (x := ['}', ')', ')']) (by decide) (by decide) (by decide)
  | false => exact Hides.enclosed hbody (x := ['}', ')']) (by decide) (by decide) (by decide)

theorem hides_typeofTest {subject name : String} (hsubject : Closed subject)
    (hname : Hides '=' (" === \"" ++ name ++ "\")") [')'] []) :
    Hides '=' (typeofTest subject name) [] [] := by
  have htest : typeofTest subject name =
      "(typeof " ++ subject ++ (" === \"" ++ name ++ "\")") := by
    simp only [typeofTest, String.append_assoc]
  rw [htest]
  exact Hides.enclosed hsubject (by decide) hname (by decide)

theorem hides_typeTest {ctx : Context} (hctx : ctx.Calm) {subject : String}
    (hsubject : Closed subject) (t : TypeExpr) (h : (Node.type t).Every Node.Writable) :
    Hides '=' (typeTest ctx subject t) [] [] := by
  have hgroup : ∀ {left right operator : String}, Closed left → Closed right → Closed operator →
      Hides '=' ("(" ++ left ++ operator ++ right ++ ")") [] [] := by
    intro left right operator hleft hright hoperator
    have hinside : Closed (left ++ operator ++ right) :=
      (hleft.append_closed hoperator).append_closed hright
    simpa only [String.append_assoc] using hides_parenthesized hinside
  cases t with
  | named span ident args =>
    show Hides '=' (namedTest ctx subject ident.name) [] []
    unfold namedTest
    split
    · exact hides_typeofTest hsubject (by decide)
    split
    · exact hides_typeofTest hsubject (by decide)
    split
    · exact hides_typeofTest hsubject (by decide)
    split
    · exact hides_typeofTest hsubject (by decide)
    · exact hgroup hsubject (hctx.nameText (h.here.1 _ List.mem_cons_self)).closed (by decide)
  | array span element =>
    exact Hides.enclosed hsubject (x := [')', ')']) (by decide) (by decide) (by decide)
  | unit span => exact Hides.enclosed hsubject (x := [')']) (by decide) (by decide) (by decide)
  | binary span op left right =>
    have hleft := closed_typeTest hctx hsubject left (h.child (.head _))
    have hright := closed_typeTest hctx hsubject right (h.child (.tail _ (.head _)))
    cases op with
    | arrow => exact hides_typeofTest hsubject (by decide)
    | intersection | union | sum => exact hgroup hleft hright (by decide)

theorem hides_isDottedPath {text : String} (h : isDottedPath text) : Hides '=' text [] [] :=
  .of_isCalm (isCalm_of_isDottedPath h) (notMem_of_isDottedPath h (by decide) (by decide))

theorem hides_objectText {fields : List String} (h : ∀ field ∈ fields, Closed field) :
    Hides '=' (objectText fields) [] [] := by
  unfold objectText
  split
  · decide
  · exact Hides.enclosed (closed_joinWith (by decide) h) (x := ['}']) (by decide) (by decide)
      (by decide)

end Script

theorem IsNumeral.toList_ne_nil {digits : String} (h : IsNumeral digits) : digits.toList ≠ [] := by
  cases h with
  | whole h => exact h
  | fraction h => simp [h]

namespace Expr

variable {ctx : Context} {e r : Expr}

/-- What is written for the expression and all its parts is spelled as it should be, and targets of
    foreign functions are paths of names. -/
abbrev Regular (e : Expr) : Prop :=
  (Node.expr e).Every fun n => n.Spelt ∧ n.hasDottedTarget

theorem Regular.writable (h : e.Regular) : (Node.expr e).Every Node.Writable :=
  h.mono fun _ hn => ⟨hn.1.calm, hn.2⟩

theorem hides_behindReceiver (hctx : ctx.Plain) (hr : e.receiver? = some r) (h : e.Regular) :
    Hides '=' (e.behindReceiver ctx) [] [] := by
  have hwritable := h.writable
  cases e with
  | call span callee args closure? =>
    have hargs := closed_scriptExprs hctx.calm args fun e he =>
      hwritable.child (.tail _ (List.mem_append_left _ (List.mem_map_of_mem he)))
    cases closure? with
    | none => exact hides_parenthesized (closed_joinWith (by decide) hargs)
    | some closure =>
      have hclosure := Block.closed_rows hctx.calm.deeper closure
        (hwritable.child (.tail _ (List.mem_append_right _ (.head _))))
      refine hides_parenthesized (closed_joinWith (by decide) ?_)
      rw [List.forall_mem_append, List.forall_mem_singleton]
      exact ⟨hargs, closed_lambdaText ctx (by simp [paramNames]) _ hclosure⟩
  | field span receiver member | staticMember span receiver member =>
    have hmember := isDottedPath_of_isPlainName (h.here.1 member.name (.head _))
    exact Hides.append (y := []) (by decide) (hides_isDottedPath hmember)
  | index span receiver position =>
    have hposition := closed_script hctx.calm position (hwritable.child (.tail _ (.head _)))
    exact Hides.enclosed hposition (x := [']']) (by decide) (by decide) (by decide)
  | _ => cases hr

/-- No arrow is exposed unless an anonymous function is at the front. -/
theorem hides_script (hctx : ctx.Plain) (h : e.Regular) (hfront : e.front.isLambda = false) :
    Hides '=' (e.script ctx) [] [] := by
  induction e using front_induction with
  | cast span operand type ih =>
    rw [script_plainCast]
    exact ih (h.child (.head _)) hfront
  | receiver e r hr ih =>
    rw [script_of_receiver? hr, receiverText_eq]
    refine Hides.append ?_ (hides_behindReceiver hctx hr h)
    have hreceiver : r.Regular := h.child (child_of_receiver? hr)
    split
    · exact hides_parenthesized (closed_script hctx.calm r hreceiver.writable)
    · rename_i hshielded
      rw [front_of_receiver? hr, if_neg hshielded] at hfront
      exact ih hreceiver hfront
  | other e hcast hreceiver =>
    have hwritable := h.writable
    rw [front_of_other hcast hreceiver] at hfront
    cases e with
    | number span digits =>
      rw [script]
      refine .of_isCalm (hwritable.here.1 _ (.head _)) fun hin => ?_
      rcases IsNumeral.isDigit_or_point h.here.1 hin with hdigit | hpoint
      · exact absurd hdigit (by decide)
      · cases hpoint
    | string span value =>
      rw [script]
      exact hides_quote (by decide) value
    | bool span value =>
      rw [script]
      cases value <;> decide
    | name span ident =>
      rw [script]
      exact hides_isDottedPath (hctx.isDottedPath_nameText (.of_plain (h.here.1 _ (.head _))))
    | binary span op left right =>
      rw [script]
      have hop : Closed (" " ++ binaryText op ++ " ") := by cases op <;> decide
      have hleft := closed_script hctx.calm left (hwritable.child (.head _))
      have hright := closed_script hctx.calm right (hwritable.child (.tail _ (.head _)))
      simpa only [String.append_assoc] using
        hides_parenthesized ((hleft.append_closed hop).append_closed hright)
    | unary span op operand =>
      rw [script]
      have hop : Hides '=' ("(" ++ op.text) [] [')'] := by cases op <;> decide
      exact Hides.enclosed (closed_script hctx.calm operand (hwritable.child (.head _))) hop
        (by decide) (by decide)
    | assign span target value =>
      rw [script]
      have htarget := closed_script hctx.calm target (hwritable.child (.head _))
      have hvalue := closed_script hctx.calm value (hwritable.child (.tail _ (.head _)))
      have hequals : Closed " = " := by decide
      simpa only [String.append_assoc] using
        hides_parenthesized ((htarget.append_closed hequals).append_closed hvalue)
    | typeTest span operand type guarded =>
      rw [script]
      have hoperand := closed_script hctx.calm operand (hwritable.child (.head _))
      have htype := hwritable.child (.tail _ (.head _))
      cases guarded with
      | true => exact hides_guardText (closed_typeTest hctx.calm hoperand type htype) (by decide) _
      | false => exact hides_typeTest hctx.calm hoperand type htype
    | cast span operand type guarded =>
      cases guarded with
      | true =>
        rw [script]
        exact hides_guardText (closed_script hctx.calm operand (hwritable.child (.head _)))
          (by decide) _
      | false => cases hcast
    | array span elements =>
      rw [script]
      have helements := closed_scriptExprs hctx.calm elements fun e he =>
        hwritable.child (List.mem_map_of_mem he)
      exact Hides.enclosed (closed_joinWith (by decide) helements) (x := [']']) (by decide)
        (by decide) (by decide)
    | object span fields =>
      rw [script]
      exact hides_objectText (closed_scriptFields hctx.calm fields fun field hfield =>
        hwritable.child (List.mem_map_of_mem hfield))
    | lambda => cases hfront
    | new span className args =>
      rw [script]
      have hargs := closed_scriptExprs hctx.calm args fun e he =>
        hwritable.child (List.mem_map_of_mem he)
      have hname := hides_isDottedPath (hctx.isDottedPath_nameText h.here.1)
      have hnew : Hides '=' "new " [] [] := by decide
      have hclass : Hides '=' ("new " ++ ctx.nameText className.name ++ "(") [] [')'] :=
        (hnew.append hname).append (by decide)
      exact Hides.enclosed (closed_joinWith (by decide) hargs) hclass (by decide) (by decide)
    | call | field | staticMember | index => cases hreceiver

/-- An anonymous function at the front exposes its arrow. -/
theorem exposesArrow_script (h : (Node.expr e).Every Node.Spelt)
    (hfront : e.front.isLambda = true) : ExposesArrow (e.script ctx) := by
  induction e using front_induction with
  | cast span operand type ih =>
    rw [script_plainCast]
    exact ih (h.child (.head _)) hfront
  | receiver e r hr ih =>
    rw [front_of_receiver? hr] at hfront
    split at hfront
    · obtain ⟨_, _, hlambda, _⟩ := kind_of_receiver? hr
      rw [hlambda] at hfront
      cases hfront
    · rename_i hshielded
      rw [script_of_receiver? hr, receiverText_eq, if_neg hshielded]
      exact (ih (h.child (child_of_receiver? hr)) hfront).append _
  | other e hcast hreceiver =>
    rw [front_of_other hcast hreceiver] at hfront
    cases e with
    | lambda span params body =>
      rw [script]
      exact exposesArrow_lambdaText ctx (fun name hname => (h.here.calm) name hname) _ _
    | _ => cases hfront

end Expr

/-! ### First characters -/

namespace Script

/-- The text starts with a character of a kind. -/
def StartsWith (P : Char → Prop) (text : String) : Prop :=
  ∃ c rest, text.toList = c :: rest ∧ P c

namespace StartsWith

variable {P Q : Char → Prop} {text : String}

theorem append (h : StartsWith P text) (behind : String) : StartsWith P (text ++ behind) := by
  obtain ⟨c, rest, htext, hc⟩ := h
  exact ⟨c, rest ++ behind.toList, by rw [String.toList_append, htext, List.cons_append], hc⟩

theorem mono (h : StartsWith P text) (himp : ∀ c, P c → Q c) : StartsWith Q text := by
  obtain ⟨c, rest, htext, hc⟩ := h
  exact ⟨c, rest, htext, himp c hc⟩

theorem head?_iff (h : StartsWith P text) {first : Char} {p : Prop}
    (hP : ∀ c, P c → (c = first ↔ p)) :
    text.toList.head? = some first ↔ p := by
  obtain ⟨c, rest, htext, hc⟩ := h
  rw [htext, List.head?_cons, Option.some_inj]
  exact hP c hc

end StartsWith

theorem startsWith_guardText {P : Char → Prop} (h : P '(') (text fallback : String)
    (awaits : Bool) : StartsWith P (guardText text fallback awaits) := by
  unfold guardText
  split
  · exact .append (.append ⟨'(', _, rfl, h⟩ _) _
  · exact .append (.append ⟨'(', _, rfl, h⟩ _) _

theorem startsWith_typeTest {P : Char → Prop} (h : P '(') (ctx : Context) (subject : String)
    (t : TypeExpr) : StartsWith P (typeTest ctx subject t) := by
  have hopen : ∀ behind, StartsWith P ("(" ++ behind) := .append ⟨'(', _, rfl, h⟩
  have htypeof : ∀ name, StartsWith P (typeofTest subject name) := by
    intro name
    simp only [typeofTest, String.append_assoc]
    exact .append ⟨'(', _, rfl, h⟩ _
  cases t with
  | named span ident args =>
    show StartsWith P (namedTest ctx subject ident.name)
    unfold namedTest
    split
    · exact htypeof _
    split
    · exact htypeof _
    split
    · exact htypeof _
    split
    · exact htypeof _
    · simp only [String.append_assoc, hopen]
  | array span element => exact .append (.append ⟨'(', _, rfl, h⟩ _) _
  | unit span => simp only [typeTest, String.append_assoc, hopen]
  | binary span op left right =>
    cases op with
    | arrow => exact htypeof _
    | intersection | union | sum => simp only [typeTest, String.append_assoc, hopen]

theorem startsWith_objectText (fields : List String) : StartsWith (· = '{') (objectText fields) := by
  unfold objectText
  split
  · exact ⟨'{', _, rfl, rfl⟩
  · have hopen : StartsWith (· = '{') "\x7b " := ⟨'{', _, rfl, rfl⟩
    exact (hopen.append _).append _

/-- Characters that can neither stand in a number nor start an object literal. -/
def isForeign (c : Char) : Bool :=
  !c.isDigit && c != '.' && c != '{'

theorem isForeign_of_isNameStart {c : Char} (h : isNameStart c) : isForeign c := by
  have hdigit : c.isDigit = false := by
    rcases Bool.or_eq_true_iff.mp h with hword | hdollar
    · by_contra hdigit
      have hstart : Token.isWordStart c = false :=
        Token.isWordStart_of_isDigit (Bool.not_eq_false _ ▸ hdigit)
      exact absurd (hword.symm.trans hstart) (by decide)
    · obtain rfl := beq_iff_eq.mp hdollar
      decide
  have hpoint : c ≠ '.' := by
    rintro rfl
    exact absurd h (by decide)
  have hbrace : c ≠ '{' := by
    rintro rfl
    exact absurd h (by decide)
  simp [isForeign, hdigit, hpoint, hbrace]

theorem startsWith_isDottedPath {text : String} (h : isDottedPath text) :
    StartsWith (fun c => isForeign c) text := by
  obtain ⟨c, rest, htext, hc⟩ := exists_head_of_isDottedPath h
  exact ⟨c, rest, htext, isForeign_of_isNameStart hc⟩

end Script

namespace Expr

variable {ctx : Context} {e r : Expr}

/-- How the text of an expression starts that is no literal of a number or object, has no receiver
    and is no plain cast. -/
theorem startsWith_script_other (hctx : ctx.Plain) (h : (Node.expr e).Spelt)
    (hnumber : e.isNumber = false) (hobject : e.isObject = false) (hcast : e.isPlainCast = false)
    (hreceiver : e.receiver? = none) : StartsWith (fun c => isForeign c) (e.script ctx) := by
  have hforeign : isForeign '(' := by decide
  have hopen : ∀ behind, StartsWith (fun c => isForeign c) ("(" ++ behind) :=
    .append ⟨'(', _, rfl, hforeign⟩
  cases e with
  | number => cases hnumber
  | object => cases hobject
  | call | field | staticMember | index => cases hreceiver
  | string span value =>
    rw [script]
    exact ⟨'"', _, String.toList_ofList, by decide⟩
  | bool span value =>
    rw [script]
    cases value with
    | true => exact ⟨'t', _, rfl, by decide⟩
    | false => exact ⟨'f', _, rfl, by decide⟩
  | name span ident =>
    rw [script]
    exact startsWith_isDottedPath (hctx.isDottedPath_nameText (.of_plain (h _ (.head _))))
  | binary | assign | unary => simp only [script, String.append_assoc, hopen]
  | typeTest span operand type guarded =>
    rw [script]
    cases guarded with
    | true => exact startsWith_guardText hforeign _ _ _
    | false => exact startsWith_typeTest hforeign _ _ _
  | cast span operand type guarded =>
    cases guarded with
    | true =>
      rw [script]
      exact startsWith_guardText hforeign _ _ _
    | false => cases hcast
  | array span elements =>
    rw [script]
    exact .append (.append ⟨'[', _, rfl, by decide⟩ _) _
  | lambda span params body =>
    have hmark : StartsWith (fun c => isForeign c) (asyncMark body.awaits ++ "(") := by
      cases body.awaits with
      | true => exact ⟨'a', _, rfl, by decide⟩
      | false => exact ⟨'(', _, rfl, by decide⟩
    rw [script, lambdaText]
    exact ((((hmark.append _).append _).append _).append _).append _
  | new span className args =>
    rw [script]
    exact .append (.append (.append (.append ⟨'n', _, rfl, by decide⟩ _) _) _) _

/-- The text of an expression starts with a brace if an object literal is at the front. -/
theorem startsWith_script (hctx : ctx.Plain) (h : (Node.expr e).Every Node.Spelt) :
    StartsWith (fun c => c = '{' ↔ e.front.isObject = true) (e.script ctx) := by
  induction e using front_induction with
  | cast span operand type ih =>
    rw [script_plainCast]
    exact ih (h.child (.head _))
  | receiver e r hr ih =>
    rw [script_of_receiver? hr, receiverText_eq, front_of_receiver? hr]
    refine .append ?_ _
    split
    · obtain ⟨_, hobject, _, _⟩ := kind_of_receiver? hr
      rw [hobject]
      exact .append (.append ⟨'(', _, rfl, by decide⟩ _) _
    · exact ih (h.child (child_of_receiver? hr))
  | other e hcast hreceiver =>
    rw [front_of_other hcast hreceiver]
    cases hobject : e.isObject with
    | true =>
      cases e with
      | object span fields =>
        rw [script]
        exact (startsWith_objectText _).mono fun c hc => iff_of_true hc rfl
      | _ => cases hobject
    | false =>
      cases hnumber : e.isNumber with
      | true =>
        cases e with
        | number span digits =>
          rw [script]
          have hnumeral : IsNumeral digits := h.here
          obtain ⟨c, rest, htext⟩ := List.exists_cons_of_ne_nil hnumeral.toList_ne_nil
          refine ⟨c, rest, htext, iff_of_false ?_ Bool.false_ne_true⟩
          rintro rfl
          exact absurd (hnumeral.isDigit_or_point (htext ▸ List.mem_cons_self)) (by decide)
        | _ => cases hnumber
      | false =>
        refine (startsWith_script_other hctx h.here hnumber hobject hcast hreceiver).mono ?_
        rintro c hc
        refine iff_of_false ?_ Bool.false_ne_true
        rintro rfl
        exact absurd hc (by decide)

theorem exists_mem_behindReceiver (ctx : Context) (hr : e.receiver? = some r)
    (h : (Node.expr e).Spelt) :
    ∃ c ∈ (e.behindReceiver ctx).toList, isForeign c := by
  cases e with
  | call span callee args closure? =>
    refine ⟨'(', ?_, by decide⟩
    cases closure? <;> simp [behindReceiver]
  | field span receiver member | staticMember span receiver member =>
    obtain ⟨c, rest, htext, hc⟩ := startsWith_isDottedPath
      (isDottedPath_of_isPlainName (h member.name (.head _)))
    exact ⟨c, by simp [behindReceiver, htext], hc⟩
  | index span receiver position => exact ⟨'[', by simp [behindReceiver], by decide⟩
  | _ => cases hr

/-- The text of an expression is a number if there is a number under plain casts. -/
theorem isNumeral_script_iff (hctx : ctx.Plain) (h : (Node.expr e).Every Node.Spelt) :
    IsNumeral (e.script ctx) ↔ e.bare.isNumber = true := by
  have hforeign : ∀ {c : Char}, isForeign c ∨ c = '{' → ∀ {text : String}, c ∈ text.toList →
      ¬IsNumeral text := by
    intro c hc text hin hnumeral
    rcases hnumeral.isDigit_or_point hin with hdigit | rfl
    · rcases hc with hc | rfl
      · simp [isForeign, hdigit] at hc
      · exact absurd hdigit (by decide)
    · exact absurd hc (by decide)
  induction e using front_induction with
  | cast span operand type ih =>
    rw [script_plainCast]
    exact ih (h.child (.head _))
  | receiver e r hr =>
    obtain ⟨hnumber, _, _, hcast⟩ := kind_of_receiver? hr
    obtain ⟨c, hc, hc'⟩ := exists_mem_behindReceiver ctx hr h.here
    rw [bare_of_not_cast hcast, hnumber, script_of_receiver? hr]
    refine iff_of_false (hforeign (.inl hc') ?_) Bool.false_ne_true
    rw [String.toList_append]
    exact List.mem_append_right _ hc
  | other e hcast hreceiver =>
    rw [bare_of_not_cast hcast]
    cases hnumber : e.isNumber with
    | true =>
      cases e with
      | number span digits =>
        rw [script]
        exact iff_of_true h.here rfl
      | _ => cases hnumber
    | false =>
      have hstart : StartsWith (fun c => isForeign c ∨ c = '{') (e.script ctx) := by
        cases hobject : e.isObject with
        | true =>
          cases e with
          | object span fields =>
            rw [script]
            exact (startsWith_objectText _).mono fun c => .inr
          | _ => cases hobject
        | false =>
          exact (startsWith_script_other hctx h.here hnumber hobject hcast hreceiver).mono
            fun c => .inl
      obtain ⟨c, rest, htext, hc⟩ := hstart
      exact iff_of_false (hforeign hc (htext ▸ List.mem_cons_self)) Bool.false_ne_true

end Expr

end ScriptCompiler
