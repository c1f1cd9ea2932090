import ScriptCompiler.Proofs.WrittenNames

/-!
# The brackets of scripts

Every bracket and every string literal of a generated script is closed. What a part of a program
writes between the texts of its parts opens and closes brackets, and the texts of its parts close
what they open; names have no brackets at all, remarks end with their line.
-/

namespace ScriptCompiler

open Brackets

def isDottedPath (text : String) : Bool :=
  (text.toList.splitOn '.').all Script.isPlainName

/-- If the part is a foreign function, its target is a path of names. -/
def Node.hasDottedTarget : Node → Bool
  | .stmt (.foreignDecl _ decl) => isDottedPath decl.target
  | _ => true

/-- The targets of all foreign functions, at whatever depth, are paths of names. -/
def Program.TargetsDotted (program : Program) : Prop :=
  ∀ s ∈ program.stmts, (Node.stmt s).Every fun n => n.hasDottedTarget

/-- What a part itself writes can be written as it is. -/
def Node.Writable (n : Node) : Prop :=
  n.Calm ∧ n.hasDottedTarget

theorem isCalm_of_isDottedPath {text : String} (h : isDottedPath text) : IsCalm text := by
  have hjoined : ['.'].intercalate (text.toList.splitOn '.') = text.toList :=
    List.intercalate_splitOn '.'
  intro c hc
  by_contra hsign
  rw [← hjoined] at hc
  refine Text.notMem_intercalate ?_ (fun name hname hin => ?_) hc
  · intro hin
    obtain rfl := List.mem_singleton.mp hin
    exact hsign rfl
  · exact hsign (isCalm_of_isPlainName (List.all_eq_true.mp h name hname) c hin)

namespace Script

/-! ### Names -/

/-- The name of the innermost class is calm. -/
def Context.Calm (ctx : Context) : Prop :=
  ∀ name ∈ ctx.enclosing?, IsCalm name

namespace Context.Calm

variable {ctx : Context}

theorem deeper (h : ctx.Calm) : ctx.deeper.Calm :=
  h

theorem insideClass (ctx : Context) {name : String} (h : IsCalm name) :
    (ctx.insideClass name).Calm := by
  intro other hother
  obtain rfl := Option.some.inj hother
  exact h

theorem nameText (h : ctx.Calm) {name : String} (hname : IsCalm name) :
    IsCalm (ctx.nameText name) := by
  unfold Context.nameText
  split
  · decide
  · split
    · cases hclass : ctx.enclosing? with
      | none => decide
      | some enclosing => exact h enclosing hclass
    · intro c hc
      rw [String.toList_ofList] at hc
      exact IsCalm.replacePair (by decide) hname c hc

theorem typeName? (h : ctx.Calm) {t : TypeExpr} (ht : (Node.type t).Calm) {name : String}
    (hname : ctx.typeName? t = some name) : IsCalm name := by
  cases t with
  | named span ident args =>
    obtain rfl := Option.some.inj hname
    exact h.nameText (ht _ List.mem_cons_self)
  | _ => cases hname

end Context.Calm

theorem closed_paramList {params : List Param} (h : ∀ name ∈ paramNames params, IsCalm name) :
    Closed (paramList params) :=
  closed_joinWith (by decide) fun name hname => (h name hname).closed

theorem closed_asyncMark (awaits : Bool) : Closed (asyncMark awaits) := by
  cases awaits <;> decide

/-! ### Texts of expressions -/

/-- The body of the function around a guarded value. -/
theorem closed_guardBody {text fallback : String} (htext : Closed text)
    (hfallback : Closed fallback) :
    Closed ("try \x7b return " ++ text ++ "; \x7d catch (_) \x7b return " ++ fallback ++ "; \x7d") := by
  have htry : Takes "try \x7b return " [] ['}'] := by decide
  have hcatch : Takes "; \x7d catch (_) \x7b return " ['}'] ['}'] := by decide
  exact (((htry.append_closed htext).append hcatch).append_closed hfallback).append (by decide)

theorem closed_guardText {text fallback : String} (htext : Closed text)
    (hfallback : Closed fallback) (awaits : Bool) : Closed (guardText text fallback awaits) := by
  have hbody := closed_guardBody htext hfallback
  unfold guardText
  cases awaits with
  | true => exact hbody.enclosed (x := ['}', ')', ')']) (by decide) (by decide)
  | false => exact hbody.enclosed (x := ['}', ')']) (by decide) (by decide)

theorem closed_typeofTest {subject name : String} (hsubject : Closed subject)
    (hname : Takes (" === \"" ++ name ++ "\")") [')'] []) : Closed (typeofTest subject name) := by
  have htest : typeofTest subject name =
      "(typeof " ++ subject ++ (" === \"" ++ name ++ "\")") := by
    simp only [typeofTest, String.append_assoc]
  rw [htest]
  exact hsubject.enclosed (by decide) hname

theorem closed_namedTest {ctx : Context} (hctx : ctx.Calm) {subject name : String}
    (hsubject : Closed subject) (hname : IsCalm name) : Closed (namedTest ctx subject name) := by
  unfold namedTest
  split
  · exact closed_typeofTest hsubject (by decide)
  split
  · exact closed_typeofTest hsubject (by decide)
  split
  · exact closed_typeofTest hsubject (by decide)
  split
  · exact closed_typeofTest hsubject (by decide)
  · have hopening : Takes "(" [] [')'] := by decide
    have hinstance : Closed " instanceof " := by decide
    exact (((hopening.append_closed hsubject).append_closed hinstance).append_closed
      (hctx.nameText hname).closed).append (by decide)

/-- Two closed texts on both sides of an operator, between parentheses. -/
theorem closed_infix {left right operator : String} (hleft : Closed left) (hright : Closed right)
    (hoperator : Closed operator) : Closed ("(" ++ left ++ operator ++ right ++ ")") := by
  have hopening : Takes "(" [] [')'] := by decide
  exact (((hopening.append_closed hleft).append_closed hoperator).append_closed hright).append
    (by decide)

theorem closed_typeTest {ctx : Context} (hctx : ctx.Calm) {subject : String}
    (hsubject : Closed subject) : ∀ t : TypeExpr, (Node.type t).Every Node.Writable →
      Closed (typeTest ctx subject t)
  | .named span ident args, h => by
    show Closed (namedTest ctx subject ident.name)
    exact closed_namedTest hctx hsubject (h.here.1 _ List.mem_cons_self)
  | .array span element, _ => by
    show Closed ("(Array.isArray(" ++ subject ++ "))")
    exact hsubject.enclosed (x := [')', ')']) (by decide) (by decide)
  | .unit span, _ => by
    show Closed ("(" ++ subject ++ " === undefined)")
    exact hsubject.enclosed (x := [')']) (by decide) (by decide)
  | .binary span .arrow left right, _ => by
    show Closed (typeofTest subject "function")
    exact closed_typeofTest hsubject (by decide)
  | .binary span .intersection left right, h => by
    show Closed ("(" ++ typeTest ctx subject left ++ " && " ++ typeTest ctx subject right ++ ")")
    exact closed_infix (closed_typeTest hctx hsubject left (h.child (.head _)))
      (closed_typeTest hctx hsubject right (h.child (.tail _ (.head _)))) (by decide)
  | .binary span .union left right, h => by
    show Closed ("(" ++ typeTest ctx subject left ++ " || " ++ typeTest ctx subject right ++ ")")
    exact closed_infix (closed_typeTest hctx hsubject left (h.child (.head _)))
      (closed_typeTest hctx hsubject right (h.child (.tail _ (.head _)))) (by decide)
  | .binary span .sum left right, h => by
    show Closed ("(" ++ typeTest ctx subject left ++ " || " ++ typeTest ctx subject right ++ ")")
    exact closed_infix (closed_typeTest hctx hsubject left (h.child (.head _)))
      (closed_typeTest hctx hsubject right (h.child (.tail _ (.head _)))) (by decide)

theorem closed_defaultValue (type? : Option TypeExpr) : Closed (defaultValue type?) := by
  unfold defaultValue
  split
  · split
    · decide
    split
    · decide
    split
    · decide
    · decide
  · decide
  · decide

theorem closed_parenthesized {text : String} (h : Closed text) : Closed ("(" ++ text ++ ")") :=
  h.enclosed (x := [')']) (by decide) (by decide)

theorem closed_receiverText {text : String} (h : Closed text) (e : Expr) :
    Closed (receiverText text e) := by
  unfold receiverText
  split
  · exact closed_parenthesized h
  · exact closed_parenthesized h
  · exact closed_parenthesized h
  · exact h

theorem closed_conditionText {text : String} (h : Closed text) (e : Expr) :
    Closed (conditionText text e) := by
  unfold conditionText
  split
  · exact h
  · exact h
  · exact h
  · exact h
  · exact closed_parenthesized h

theorem closed_statementText {text : String} (h : Closed text) (e : Expr) :
    Closed (statementText text e) := by
  unfold statementText
  split
  · exact h.enclosed (x := [')']) (by decide) (by decide)
  · exact h.enclosed (x := [')']) (by decide) (by decide)
  · exact h.append_closed (by decide)

theorem closed_objectKey (key : String) : Closed (objectKey key) := by
  unfold objectKey
  split
  · rename_i hplain
    exact IsCalm.closed (isCalm_of_isPlainName hplain)
  · exact closed_quote key

theorem closed_objectText {fields : List String} (h : ∀ field ∈ fields, Closed field) :
    Closed (objectText fields) := by
  unfold objectText
  split
  · decide
  · exact (closed_joinWith (by decide) h).enclosed (x := ['}']) (by decide) (by decide)

/-! ### Rows -/

/-- Rows close the brackets `before` and leave the brackets `after` open. -/
def RowsTake (rows : List Row) (before after : List Char) : Prop :=
  Takes (Row.code rows) before after

namespace RowsTake

variable {ctx : Context} {span : Span} {text : String} {rows rows' : List Row} {x y z : List Char}

theorem nil (x : List Char) : RowsTake [] x x :=
  Takes.everywhere (by decide) x

theorem append (h : RowsTake rows x y) (h' : RowsTake rows' y z) :
    RowsTake (rows ++ rows') x z := by
  have hcode : Row.code (rows ++ rows') = Row.code rows ++ Row.code rows' := by
    rw [← String.toList_inj, String.toList_append, Row.toList_code_append]
  unfold RowsTake
  rw [hcode]
  exact Takes.append h h'

theorem everywhere (h : RowsTake rows [] []) (x : List Char) : RowsTake rows x x :=
  Takes.everywhere h x

theorem append_closed (h : RowsTake rows x y) (h' : RowsTake rows' [] []) :
    RowsTake (rows ++ rows') x y :=
  h.append (h'.everywhere y)

/-- A row stands between its indentation and a line feed. -/
theorem of_line {row : Row} (h : Takes (row.text ++ "\n") x y) : RowsTake [row] x y := by
  have hcode : Row.code [row] = Text.spaces (2 * row.indent) ++ (row.text ++ "\n") := by
    rw [← String.toList_inj, Row.toList_code_cons]
    simp [Row.code, Text.spaces]
  unfold RowsTake
  rw [hcode]
  exact ((closed_spaces _).everywhere x).append h

theorem cons {first : Row} (h : Takes first.text x y) (hrest : RowsTake rows y z) :
    RowsTake (first :: rows) x z := by
  have hline : Takes (first.text ++ "\n") x y := h.append_closed (by decide)
  exact (of_line hline).append hrest

theorem comment {first : Row} (h : IsComment first.text) (hrest : RowsTake rows x y) :
    RowsTake (first :: rows) x y := by
  have hline : RowsTake [first] x x := (of_line h.closed).everywhere x
  exact hline.append hrest

theorem row (h : Takes text x y) (hrest : RowsTake rows y z) :
    RowsTake (ctx.row text :: rows) x z :=
  cons h hrest

theorem rowFrom (h : Takes text x y) (hrest : RowsTake rows y z) :
    RowsTake (ctx.rowFrom span text :: rows) x z :=
  cons h hrest

theorem close (h : RowsTake rows [] []) (htext : Takes text x y) :
    RowsTake (rows ++ [ctx.row text]) x y :=
  (h.everywhere x).append (row htext (nil y))

theorem of_closed_texts {texts : List String} (h : ∀ text ∈ texts, Closed text) :
    RowsTake (texts.map ctx.row) [] [] := by
  induction texts with
  | nil => exact nil []
  | cons text rest ih =>
    obtain ⟨htext, hrest⟩ := List.forall_mem_cons.mp h
    exact row htext (ih hrest)

end RowsTake

/-! ### Rows of classes and functions -/

theorem takes_classHeader {ctx : Context} (hctx : ctx.Calm) {name : String} (hname : IsCalm name)
    {extends? : Option TypeExpr} (hbase : ∀ t ∈ extends?, (Node.type t).Calm) :
    Takes (classHeader ctx name extends?) [] ['}'] := by
  have hclass : Closed ("class " ++ name) := Takes.append_closed (by decide) hname.closed
  unfold classHeader
  split
  · rename_i base hfound
    obtain ⟨t, ht, htype⟩ := Option.bind_eq_some_iff.mp hfound
    have hextends : Closed " extends " := by decide
    have hbaseName := (hctx.typeName? (hbase t ht) htype).closed
    exact ((hclass.append_closed hextends).append_closed hbaseName).append (by decide)
  · exact hclass.append (by decide)

theorem takes_mixinRows {ctx : Context} (hctx : ctx.Calm) {name : String} (hname : IsCalm name)
    {implements : List TypeExpr} (h : ∀ t ∈ implements, (Node.type t).Calm) :
    RowsTake (mixinRows ctx name implements) [] [] := by
  have htraits : Closed (Text.joinWith ", " (declaredTraits ctx implements)) := by
    refine closed_joinWith (by decide) fun trait htrait => ?_
    obtain ⟨t, ht, htype⟩ := List.mem_filterMap.mp (List.mem_of_mem_filter htrait)
    exact (hctx.typeName? (h t ht) htype).closed
  have hfor : Takes ("for (const __trait of [" ++ Text.joinWith ", " (declaredTraits ctx implements)
      ++ "]) \x7b") [] ['}'] :=
    (Takes.append_closed (y := [']', ')']) (by decide) htraits).append (by decide)
  have htest : Takes ("if (!(__key in " ++ name ++ ".prototype)) \x7b") ['}', '}']
      ['}', '}', '}'] :=
    (Takes.append_closed (y := [')', ')', '}', '}']) (by decide) hname.closed).append (by decide)
  have hdefine : Takes ("Object.defineProperty(" ++ name
      ++ ".prototype, __key, Object.getOwnPropertyDescriptor(__trait.prototype, __key));")
      ['}', '}', '}'] ['}', '}', '}'] :=
    (Takes.append_closed (y := [')', '}', '}', '}']) (by decide) hname.closed).append (by decide)
  -- The brackets that a row leaves open are those of the loops and tests around the next row.
  unfold mixinRows
  split
  · exact .nil []
  · exact .row hfor (.row (y := ['}', '}']) (by decide) (.row htest (.row hdefine
      (.row (y := ['}', '}']) (by decide) (.row (y := ['}']) (by decide)
        (.row (by decide) (.nil [])))))))

theorem takes_instanceRows (ctx : Context) {name : String} (hname : IsCalm name) :
    RowsTake (instanceRows ctx name) [] [] := by
  have hnew : Takes ("__instance = new " ++ name ++ "();") ['}', '}'] ['}', '}'] :=
    (Takes.append_closed (y := ['}', '}']) (by decide) hname.closed).append (by decide)
  exact .row (y := []) (by decide) (.row (y := ['}']) (by decide) (.row (y := ['}', '}'])
    (by decide) (.row hnew (.row (y := ['}']) (by decide) (.row (y := ['}']) (by decide)
      (.row (by decide) (.nil [])))))))

theorem takes_implicitConstructor (ctx : Context) (hasBase : Bool) {inits : List String}
    (h : ∀ init ∈ inits, Closed init) : RowsTake (implicitConstructor ctx hasBase inits) [] [] := by
  unfold implicitConstructor
  split
  · exact .nil []
  · have hinits : RowsTake (inits.map ctx.deeper.row) [] [] := .of_closed_texts h
    cases hasBase with
    | true =>
      exact .row (y := ['}']) (by decide) (.row (y := ['}']) (by decide)
        (hinits.close (by decide)))
    | false => exact .row (y := ['}']) (by decide) (hinits.close (by decide))

theorem takes_memberRows (ctx : Context) (hasBase : Bool) {inits : List String}
    (hinits : ∀ init ∈ inits, Closed init) {constructor? : Option (List Row)}
    (hconstructor : ∀ rows ∈ constructor?, RowsTake rows [] []) {methods : List Row}
    (hmethods : RowsTake methods [] []) :
    RowsTake (memberRows ctx hasBase inits constructor? methods) [] [] := by
  cases constructor? with
  | none => exact (takes_implicitConstructor ctx hasBase hinits).append hmethods
  | some rows => exact (hconstructor rows rfl).append hmethods

/-- The rows of a class and of what it takes over from its traits. -/
theorem takes_classRows {ctx : Context} (hctx : ctx.Calm) {name : String} (hname : IsCalm name)
    {implements : List TypeExpr} (himplements : ∀ t ∈ implements, (Node.type t).Calm) (first : Row)
    (hfirst : Takes first.text [] ['}']) {members : List Row} (hmembers : RowsTake members [] []) :
    RowsTake (first :: members ++ [ctx.row "\x7d"] ++ mixinRows ctx name implements) [] [] := by
  have hclass : RowsTake (first :: members ++ [ctx.row "\x7d"]) [] [] :=
    .cons hfirst (hmembers.close (by decide))
  exact hclass.append (takes_mixinRows hctx hname himplements)

theorem takes_header {before name : String} (hbefore : Closed before) (hname : IsCalm name)
    {params : List Param} (hparams : ∀ param ∈ paramNames params, IsCalm param) :
    Takes (before ++ name ++ "(" ++ paramList params ++ ") \x7b") [] ['}'] :=
  (((hbefore.append_closed hname.closed).append (z := [')']) (by decide)).append_closed
    (closed_paramList hparams)).append (by decide)

theorem takes_functionHeader {name : String} (hname : IsCalm name) {params : List Param}
    (hparams : ∀ param ∈ paramNames params, IsCalm param) (awaits : Bool) :
    Takes (functionHeader name params awaits) [] ['}'] :=
  takes_header ((closed_asyncMark awaits).append_closed (by decide)) hname hparams

theorem takes_methodHeader {name : String} (hname : IsCalm name) {params : List Param}
    (hparams : ∀ param ∈ paramNames params, IsCalm param) (awaits : Bool) :
    Takes (methodHeader name params awaits) [] ['}'] := by
  unfold methodHeader
  split
  · refine takes_header (closed_asyncMark awaits) hname fun param hparam => ?_
    obtain ⟨found, hfound, rfl⟩ := List.mem_map.mp hparam
    exact hparams _ (List.mem_map_of_mem (List.mem_of_mem_tail hfound))
  · exact takes_header (Takes.append_closed (by decide) (closed_asyncMark awaits)) hname hparams

theorem closed_lambdaText (ctx : Context) {params : List Param}
    (hparams : ∀ param ∈ paramNames params, IsCalm param) (awaits : Bool) {body : List Row}
    (hbody : RowsTake body [] []) : Closed (lambdaText ctx params awaits body) := by
  have hhead : Takes (asyncMark awaits ++ "(" ++ paramList params ++ ") => \x7b\n") [] ['}'] :=
    (((closed_asyncMark awaits).append (z := [')']) (by decide)).append_closed
      (closed_paramList hparams)).append (by decide)
  exact ((hhead.append_closed hbody).append_closed (closed_spaces _)).append (by decide)

/-- A call, with its arguments between parentheses. -/
theorem closed_call {callee : String} (hcallee : Closed callee) {args : List String}
    (hargs : ∀ arg ∈ args, Closed arg) :
    Closed (callee ++ "(" ++ Text.joinWith ", " args ++ ")") :=
  ((hcallee.append (z := [')']) (by decide)).append_closed
    (closed_joinWith (by decide) hargs)).append (by decide)

theorem closed_member {receiver member : String} (hreceiver : Closed receiver)
    (hmember : IsCalm member) : Closed (receiver ++ "." ++ member) :=
  (hreceiver.append_closed (by decide)).append_closed hmember.closed

theorem closed_assignment {before name value : String} (hbefore : Closed before)
    (hname : IsCalm name) (hvalue : Closed value) :
    Closed (before ++ name ++ " = " ++ value ++ ";") := by
  have hequals : Closed " = " := by decide
  exact (((hbefore.append_closed hname.closed).append_closed hequals).append_closed
    hvalue).append_closed (by decide)

/-! ### Rows of declarations -/

theorem isComment_namespace {decl : NamespaceDecl} (h : '\n' ∉ (joinPath decl.path).toList) :
    IsComment ("// namespace " ++ decl.key) := by
  refine IsComment.append (by decide) ?_
  unfold NamespaceDecl.key
  split
  · rw [String.toList_append, List.mem_append]
    rintro (hin | hin)
    · exact h hin
    · exact absurd hin (by decide)
  · exact h

theorem isComment_using {decl : UsingDecl} (h : '\n' ∉ (joinPath decl.path).toList) :
    IsComment ("// using " ++ (if decl.isGlobal then "::" else "") ++ decl.target) := by
  refine IsComment.append ?_ h
  cases decl.isGlobal <;> decide

theorem takes_foreignRow {ctx : Context} {span : Span} {decl : ForeignDecl}
    (hname : IsCalm (decl.uniqueName?.getD decl.name.name)) (htarget : IsCalm decl.target) :
    RowsTake [ctx.rowFrom span (foreignText decl)] [] [] := by
  unfold foreignText
  dsimp only
  split
  · have hline : '\n' ∉ (decl.uniqueName?.getD decl.name.name).toList :=
      fun hin => absurd (hname _ hin) (by decide)
    exact .comment (IsComment.append (by decide) hline) (.nil [])
  · exact .rowFrom (closed_assignment (by decide) hname htarget.closed) (.nil [])

end Script

/-! ### Scripts of trees -/

open Script

theorem Node.Calm.emittedName {s : Stmt} (h : (Node.stmt s).Calm) {kind : EntryKind} {ident : Ident}
    (hdeclared : s.declared? = some (kind, ident)) : IsCalm (s.uniqueName?.getD ident.name) := by
  have hwritten : ∀ name ∈ s.written, IsCalm name := h
  simp only [Stmt.written, List.forall_mem_append, hdeclared] at hwritten
  obtain ⟨⟨⟨hname, hunique⟩, _⟩, _⟩ := hwritten
  cases hfound : s.uniqueName? with
  | none => exact hname _ (.head _)
  | some unique => exact hunique unique (Option.mem_toList.mpr hfound)

theorem Node.Calm.params {s : Stmt} (h : (Node.stmt s).Calm) :
    ∀ name ∈ paramNames s.params, IsCalm name := by
  have hwritten : ∀ name ∈ s.written, IsCalm name := h
  simp only [Stmt.written, List.forall_mem_append] at hwritten
  exact hwritten.1.2

/-- The path of a namespace declaration or an import stands on one line. -/
theorem Node.Calm.path {s : Stmt} (h : (Node.stmt s).Calm) {path : List Ident}
    (hpath : s.path? = some path) : '\n' ∉ (joinPath path).toList := by
  have hwritten : ∀ name ∈ s.written, IsCalm name := h
  simp only [Stmt.written, List.forall_mem_append, hpath] at hwritten
  have hjoined : IsCalm (joinPath path) := isCalm_joinWith (by decide) hwritten.2
  intro hin
  exact absurd (hjoined _ hin) (by decide)

theorem Node.Every.types {span : Span} {decl : ClassDecl}
    (h : (Node.stmt (.classDecl span decl)).Every Node.Writable) :
    ∀ t ∈ decl.extends?.toList ++ decl.implements, (Node.type t).Calm :=
  fun _ ht => (h.child (List.mem_append_left _ (List.mem_map_of_mem ht))).here.1

mutual

theorem Expr.closed_script {ctx : Context} (hctx : ctx.Calm) : ∀ e : Expr,
    (Node.expr e).Every Node.Writable → Closed (e.script ctx)
  | .number _ digits, h => by
    rw [Expr.script]
    exact IsCalm.closed (h.here.1 _ (.head _))
  | .string _ value, _ => by
    rw [Expr.script]
    exact closed_quote value
  | .bool _ value, _ => by
    rw [Expr.script]
    cases value <;> decide
  | .name _ ident, h => by
    rw [Expr.script]
    exact (hctx.nameText (h.here.1 _ (.head _))).closed
  | .binary _ op left right, h => by
    rw [Expr.script]
    -- A single stroke is no comment because a space follows it.
    have hop : Closed (" " ++ binaryText op ++ " ") := by cases op <;> decide
    have hleft := Expr.closed_script hctx left (h.child (.head _))
    have hright := Expr.closed_script hctx right (h.child (.tail _ (.head _)))
    simpa only [String.append_assoc] using closed_infix hleft hright hop
  | .unary _ op operand, h => by
    rw [Expr.script]
    have hop : Takes ("(" ++ op.text) [] [')'] := by cases op <;> decide
    exact (hop.append_closed (Expr.closed_script hctx operand (h.child (.head _)))).append
      (by decide)
  | .assign _ target value, h => by
    rw [Expr.script]
    exact closed_infix (Expr.closed_script hctx target (h.child (.head _)))
      (Expr.closed_script hctx value (h.child (.tail _ (.head _)))) (by decide)
  | .typeTest _ operand type guarded, h => by
    rw [Expr.script]
    have htest := closed_typeTest hctx (Expr.closed_script hctx operand (h.child (.head _))) type
      (h.child (.tail _ (.head _)))
    cases guarded with
    | true => exact closed_guardText htest (by decide) _
    | false => exact htest
  | .cast _ operand _ guarded, h => by
    rw [Expr.script]
    have hvalue := Expr.closed_script hctx operand (h.child (.head _))
    cases guarded with
    | true => exact closed_guardText hvalue (by decide) _
    | false => exact hvalue
  | .call _ callee args none, h => by
    rw [Expr.script]
    have hcallee := Expr.closed_script hctx callee (h.child (.head _))
    have hargs := closed_scriptExprs hctx args fun e he =>
      h.child (.tail _ (List.mem_append_left _ (List.mem_map_of_mem he)))
    exact closed_call (closed_receiverText hcallee callee) hargs
  | .call _ callee args (some closure), h => by
    rw [Expr.script]
    have hcallee := Expr.closed_script hctx callee (h.child (.head _))
    have hargs := closed_scriptExprs hctx args fun e he =>
      h.child (.tail _ (List.mem_append_left _ (List.mem_map_of_mem he)))
    have hclosure := Block.closed_rows hctx.deeper closure
      (h.child (.tail _ (List.mem_append_right _ (.head _))))
    refine closed_call (closed_receiverText hcallee callee) ?_
    rw [List.forall_mem_append, List.forall_mem_singleton]
    exact ⟨hargs, closed_lambdaText ctx (by simp [paramNames]) _ hclosure⟩
  | .field _ receiver member, h => by
    rw [Expr.script]
    exact closed_member
      (closed_receiverText (Expr.closed_script hctx receiver (h.child (.head _))) receiver)
      (h.here.1 _ (.head _))
  | .staticMember _ receiver member, h => by
    rw [Expr.script]
    exact closed_member
      (closed_receiverText (Expr.closed_script hctx receiver (h.child (.head _))) receiver)
      (h.here.1 _ (.head _))
  | .index _ receiver position, h => by
    rw [Expr.script]
    have hreceiver := Expr.closed_script hctx receiver (h.child (.head _))
    have hposition := Expr.closed_script hctx position (h.child (.tail _ (.head _)))
    exact (((closed_receiverText hreceiver receiver).append (z := [']']) (by decide)).append_closed
      hposition).append (by decide)
  | .array _ elements, h => by
    rw [Expr.script]
    have helements := closed_scriptExprs hctx elements fun e he =>
      h.child (List.mem_map_of_mem he)
    exact (closed_joinWith (by decide) helements).enclosed (x := [']']) (by decide) (by decide)
  | .object _ fields, h => by
    rw [Expr.script]
    exact closed_objectText (closed_scriptFields hctx fields fun field hfield =>
      h.child (List.mem_map_of_mem hfield))
  | .lambda _ params body, h => by
    rw [Expr.script]
    exact closed_lambdaText ctx h.here.1 _ (Block.closed_rows hctx.deeper body (h.child (.head _)))
  | .new _ className args, h => by
    rw [Expr.script]
    have hname := hctx.nameText (h.here.1 _ (.head _))
    exact closed_call (Takes.append_closed (by decide) hname.closed)
      (closed_scriptExprs hctx args fun e he => h.child (List.mem_map_of_mem he))

theorem closed_scriptExprs {ctx : Context} (hctx : ctx.Calm) : ∀ es : List Expr,
    (∀ e ∈ es, (Node.expr e).Every Node.Writable) → ∀ text ∈ scriptExprs ctx es, Closed text
  | [], _ => by simp [scriptExprs]
  | e :: rest, h => by
    obtain ⟨he, hrest⟩ := List.forall_mem_cons.mp h
    rw [scriptExprs, List.forall_mem_cons]
    exact ⟨Expr.closed_script hctx e he, closed_scriptExprs hctx rest hrest⟩

theorem closed_scriptFields {ctx : Context} (hctx : ctx.Calm) : ∀ fields : List ObjectField,
    (∀ field ∈ fields, (Node.expr field.value).Every Node.Writable) →
    ∀ text ∈ scriptFields ctx fields, Closed text
  | [], _ => by simp [scriptFields]
  | ⟨key, value, _⟩ :: rest, h => by
    obtain ⟨hvalue, hrest⟩ := List.forall_mem_cons.mp h
    rw [scriptFields, List.forall_mem_cons]
    have hkey : Closed (objectKey key ++ ": ") := (closed_objectKey key).append_closed (by decide)
    exact ⟨hkey.append_closed (Expr.closed_script hctx value hvalue),
      closed_scriptFields hctx rest hrest⟩

theorem Block.closed_rows {ctx : Context} (hctx : ctx.Calm) : ∀ b : Block,
    (Node.block b).Every Node.Writable → RowsTake (b.rows ctx) [] []
  | ⟨stmts, _⟩, h => by
    rw [Block.rows]
    exact closed_stmtRows hctx stmts h.stmts

theorem closed_stmtRows {ctx : Context} (hctx : ctx.Calm) : ∀ stmts : List Stmt,
    (∀ s ∈ stmts, (Node.stmt s).Every Node.Writable) → RowsTake (stmtRows ctx stmts) [] []
  | [], _ => by
    rw [stmtRows]
    exact .nil []
  | s :: rest, h => by
    obtain ⟨hs, hrest⟩ := List.forall_mem_cons.mp h
    rw [stmtRows]
    exact (Stmt.closed_rows hctx s hs).append (closed_stmtRows hctx rest hrest)

theorem Stmt.closed_rows {ctx : Context} (hctx : ctx.Calm) : ∀ s : Stmt,
    (Node.stmt s).Every Node.Writable → RowsTake (s.rows ctx) [] []
  | .namespaceDecl span decl, h => by
    rw [Stmt.rows]
    split
    · exact .nil []
    · exact .comment (isComment_namespace (h.here.1.path rfl)) (.nil [])
  | .usingDecl span decl, h => by
    rw [Stmt.rows]
    split
    · exact .nil []
    · exact .comment (isComment_using (h.here.1.path rfl)) (.nil [])
  | .foreignDecl span decl, h => by
    rw [Stmt.rows]
    exact takes_foreignRow (h.here.1.emittedName rfl) (isCalm_of_isDottedPath h.here.2)
  | .letDecl span name _ none unique?, h => by
    rw [Stmt.rows]
    have hname : IsCalm (unique?.getD name.name) := h.here.1.emittedName rfl
    exact .rowFrom ((Takes.append_closed (by decide) hname.closed).append_closed (by decide))
      (.nil [])
  | .letDecl span name _ (some init) unique?, h => by
    rw [Stmt.rows]
    have hname : IsCalm (unique?.getD name.name) := h.here.1.emittedName rfl
    exact .rowFrom (closed_assignment (by decide) hname
      (Expr.closed_script hctx init (h.child (.head _)))) (.nil [])
  | .function span name params _ _ body unique?, h => by
    rw [Stmt.rows]
    have hname : IsCalm (unique?.getD name.name) := h.here.1.emittedName rfl
    have hbody := Block.closed_rows hctx.deeper body (h.child (.head _))
    exact .rowFrom (takes_functionHeader hname h.here.1.params _) (hbody.close (by decide))
  | .classDecl span ⟨kind, name, extends?, implements, members, unique?⟩, h => by
    have hname : IsCalm (unique?.getD name.name) := h.here.1.emittedName rfl
    have hbacking : IsCalm ("__" ++ unique?.getD name.name ++ "_Impl") :=
      (IsCalm.append (by decide) hname).append (by decide)
    obtain ⟨hbase, himplements⟩ := List.forall_mem_append.mp h.types
    have hmembers : ∀ inside : Context, inside.Calm →
        RowsTake (memberRows inside extends?.isSome (fieldInits inside members)
          (constructorRows inside extends?.isSome (fieldInits inside members) members)
          (methodRows inside members)) [] [] := fun inside hinside =>
      have hinits := closed_fieldInits hinside members h.members
      takes_memberRows inside extends?.isSome hinits
        (takes_constructorRows hinside extends?.isSome hinits members h.members)
        (takes_methodRows hinside members h.members)
    have hheader : ∀ inside : Context, inside.Calm → ∀ name, IsCalm name →
        Takes (classHeader inside name extends?) [] ['}'] := fun inside hinside name hcalm =>
      takes_classHeader hinside hcalm fun t ht => hbase t (Option.mem_toList.mpr ht)
    cases kind with
    | singleton =>
      rw [Stmt.rows]
      have hconst : Takes ("const " ++ unique?.getD name.name ++ " = (() => \x7b") [] ['}', ')'] :=
        (Takes.append_closed (y := []) (by decide) hname.closed).append (by decide)
      have hclass := (takes_classRows hctx.deeper hbacking himplements
        (ctx.deeper.row (classHeader ctx.deeper _ extends?))
        (hheader ctx.deeper hctx.deeper _ hbacking)
        (hmembers _ (.insideClass ctx.deeper hbacking))).append
          (takes_instanceRows ctx.deeper hbacking)
      exact .rowFrom hconst ((hclass.everywhere ['}', ')']).append (.row (by decide) (.nil [])))
    | plain | trait =>
      rw [Stmt.rows]
      · exact takes_classRows hctx hname himplements _ (hheader ctx hctx _ hname)
          (hmembers _ (.insideClass ctx hname))
      · intro hkind
        cases hkind
  | .ifElse span condition thenBlock elseBranch, h => by
    rw [Stmt.rows]
    have hcondition := closed_conditionText
      (Expr.closed_script hctx condition (h.child (.head _))) condition
    have hthen := Block.closed_rows hctx.deeper thenBlock (h.child (.tail _ (.head _)))
    have helse := ElseBranch.takes_rows hctx elseBranch (h.child (.tail _ (.tail _ (.head _))))
    have hif : Takes ("if " ++ conditionText (condition.script ctx) condition ++ " \x7b") []
        ['}'] :=
      (Takes.append_closed (y := []) (by decide) hcondition).append (by decide)
    exact .rowFrom hif (((hthen.everywhere ['}']).append helse).append
      (.row (by decide) (.nil [])))
  | .whileLoop span condition body, h => by
    rw [Stmt.rows]
    have hcondition := closed_conditionText
      (Expr.closed_script hctx condition (h.child (.head _))) condition
    have hbody := Block.closed_rows hctx.deeper body (h.child (.tail _ (.head _)))
    exact .rowFrom (y := ['}'])
      ((Takes.append_closed (y := []) (by decide) hcondition).append (by decide))
      (hbody.close (by decide))
  | .untilLoop span condition body, h => by
    rw [Stmt.rows]
    have hcondition := closed_conditionText
      (Expr.closed_script hctx condition (h.child (.head _))) condition
    have hbody := Block.closed_rows hctx.deeper body (h.child (.tail _ (.head _)))
    exact .rowFrom (y := ['}'])
      ((Takes.append_closed (y := [')']) (by decide) hcondition).append (by decide))
      (hbody.close (by decide))
  | .ret span none, _ => by
    rw [Stmt.rows]
    exact .rowFrom (y := []) (by decide) (.nil [])
  | .ret span (some value), h => by
    rw [Stmt.rows]
    have hvalue := Expr.closed_script hctx value (h.child (.head _))
    exact .rowFrom ((Takes.append_closed (by decide) hvalue).append_closed (by decide)) (.nil [])
  | .block span body, h => by
    rw [Stmt.rows]
    exact .rowFrom (y := ['}']) (by decide)
      ((Block.closed_rows hctx.deeper body (h.child (.head _))).close (by decide))
  | .expr span value, h => by
    rw [Stmt.rows]
    exact .rowFrom (closed_statementText (Expr.closed_script hctx value (h.child (.head _))) value)
      (.nil [])

/-- The rest of a conditional closes the brace of what came before it and leaves its own open. -/
theorem ElseBranch.takes_rows {ctx : Context} (hctx : ctx.Calm) : ∀ b : ElseBranch,
    (Node.elseBranch b).Every Node.Writable → RowsTake (b.rows ctx) ['}'] ['}']
  | .none, _ => by
    rw [ElseBranch.rows]
    exact .nil _
  | .block body, h => by
    rw [ElseBranch.rows]
    exact .row (y := ['}']) (by decide)
      ((Block.closed_rows hctx.deeper body (h.child (.head _))).everywhere _)
  | .elseIf condition thenBlock elseBranch, h => by
    rw [ElseBranch.rows]
    have hcondition := closed_conditionText
      (Expr.closed_script hctx condition (h.child (.head _))) condition
    have hthen := Block.closed_rows hctx.deeper thenBlock (h.child (.tail _ (.head _)))
    have helse := ElseBranch.takes_rows hctx elseBranch (h.child (.tail _ (.tail _ (.head _))))
    exact .row (y := ['}'])
      ((Takes.append_closed (y := []) (by decide) hcondition).append (by decide))
      ((hthen.everywhere ['}']).append helse)

theorem closed_fieldInits {ctx : Context} (hctx : ctx.Calm) : ∀ members : List Member,
    (∀ m ∈ members, (Node.member m).Every Node.Writable) →
    ∀ init ∈ fieldInits ctx members, Closed init
  | [], _ => by simp [fieldInits]
  | .field _ name _ (some init) _ :: rest, h => by
    obtain ⟨hm, hrest⟩ := List.forall_mem_cons.mp h
    rw [fieldInits, List.forall_mem_cons]
    exact ⟨closed_assignment (by decide) (hm.here.1 _ (.head _))
      (Expr.closed_script hctx init (hm.child (.head _))), closed_fieldInits hctx rest hrest⟩
  | .field _ name type? none true :: rest, h => by
    obtain ⟨hm, hrest⟩ := List.forall_mem_cons.mp h
    rw [fieldInits, List.forall_mem_cons]
    exact ⟨closed_assignment (by decide) (hm.here.1 _ (.head _)) (closed_defaultValue type?),
      closed_fieldInits hctx rest hrest⟩
  | .field _ _ _ none false :: rest, h => by
    simp only [fieldInits]
    exact closed_fieldInits hctx rest (List.forall_mem_cons.mp h).2
  | .constructor .. :: rest, h => by
    simp only [fieldInits]
    exact closed_fieldInits hctx rest (List.forall_mem_cons.mp h).2
  | .method .. :: rest, h => by
    simp only [fieldInits]
    exact closed_fieldInits hctx rest (List.forall_mem_cons.mp h).2

theorem takes_constructorRows {ctx : Context} (hctx : ctx.Calm) (hasBase : Bool)
    {inits : List String} (hinits : ∀ init ∈ inits, Closed init) : ∀ members : List Member,
    (∀ m ∈ members, (Node.member m).Every Node.Writable) →
    ∀ rows ∈ constructorRows ctx hasBase inits members, RowsTake rows [] []
  | [], _ => by simp [constructorRows]
  | .constructor span params body :: rest, h => by
    obtain ⟨hm, _⟩ := List.forall_mem_cons.mp h
    intro rows hrows
    rw [constructorRows] at hrows
    obtain rfl := Option.some.inj hrows
    have hhead : Takes ("constructor(" ++ paramList params ++ ") \x7b") [] ['}'] :=
      (Takes.append_closed (y := [')']) (by decide) (closed_paramList hm.here.1)).append (by decide)
    have hsuper : RowsTake (if hasBase then [ctx.deeper.row "super(...arguments);"] else []) []
        [] := by
      cases hasBase with
      | true => exact .row (y := []) (by decide) (.nil [])
      | false => exact .nil []
    have hbody := Block.closed_rows hctx.deeper body (hm.child (.head _))
    exact .rowFrom hhead
      (((hsuper.append (.of_closed_texts hinits)).append hbody).close (by decide))
  | .method .. :: rest, h => by
    simp only [constructorRows]
    exact takes_constructorRows hctx hasBase hinits rest (List.forall_mem_cons.mp h).2
  | .field .. :: rest, h => by
    simp only [constructorRows]
    exact takes_constructorRows hctx hasBase hinits rest (List.forall_mem_cons.mp h).2

theorem takes_methodRows {ctx : Context} (hctx : ctx.Calm) : ∀ members : List Member,
    (∀ m ∈ members, (Node.member m).Every Node.Writable) →
    RowsTake (methodRows ctx members) [] []
  | [], _ => by
    rw [methodRows]
    exact .nil []
  | .method span name params returnType? effect? (some body) :: rest, h => by
    obtain ⟨hm, hrest⟩ := List.forall_mem_cons.mp h
    rw [methodRows]
    have hwritten := List.forall_mem_append.mp hm.here.1
    have hbody := Block.closed_rows hctx.deeper body (hm.child (.head _))
    have hmethod : RowsTake (ctx.rowFrom span (methodHeader name.name params body.awaits)
        :: body.rows ctx.deeper ++ [ctx.row "\x7d"]) [] [] :=
      .rowFrom (takes_methodHeader (hwritten.1 _ (.head _)) hwritten.2 body.awaits)
        (hbody.close (by decide))
    exact hmethod.append (takes_methodRows hctx rest hrest)
  | .method span name params returnType? effect? none :: rest, h => by
    simp only [methodRows]
    exact takes_methodRows hctx rest (List.forall_mem_cons.mp h).2
  | .constructor .. :: rest, h => by
    simp only [methodRows]
    exact takes_methodRows hctx rest (List.forall_mem_cons.mp h).2
  | .field .. :: rest, h => by
    simp only [methodRows]
    exact takes_methodRows hctx rest (List.forall_mem_cons.mp h).2

end

/-! ### Whole scripts -/

/-- A program that was read, with dotted targets, is written as it is. -/
theorem Program.IsRead.writable {program : Program} (h : program.IsRead)
    (htargets : program.TargetsDotted) :
    ∀ s ∈ program.stmts, (Node.stmt s).Every Node.Writable :=
  fun s hs => (h.calm s hs).and (htargets s hs)

theorem Stmt.isCalm_exportName {s : Stmt} (h : (Node.stmt s).Calm) {name : String}
    (hname : s.exportName? = some name) : IsCalm name := by
  cases s with
  | letDecl | function =>
    obtain rfl := Option.some.inj hname
    exact h.emittedName rfl
  | classDecl span decl =>
    obtain rfl := Option.some.inj hname
    exact h.emittedName rfl
  | foreignDecl span decl =>
    dsimp only [exportName?] at hname
    split at hname
    · cases hname
    · obtain rfl := Option.some.inj hname
      exact h.emittedName rfl
  | _ => cases hname

namespace Script

theorem isComment_banner {files : List String} (h : ∀ file ∈ files, '\n' ∉ file.toList) (s : Stmt) :
    IsComment (banner files s).text := by
  have hfile : '\n' ∉ (files.getD s.span.file "<input>").toList := by
    rw [List.getD_eq_getElem?_getD]
    cases hfound : files[s.span.file]? with
    | none => decide
    | some file => exact h file (List.mem_of_getElem? hfound)
  have hline : '\n' ∉ (toString s.span.line).toList := by
    intro hin
    have hdigit := Nat.isDigit_of_mem_toDigits (by decide) (Nat.le_refl 10) (Nat.toList_repr ▸ hin)
    exact absurd hdigit (by decide)
  exact ((IsComment.append (by decide) hfile).append (by decide)).append hline

theorem takes_topLevelRows {options : Options} {files : List String}
    (hfiles : options.debug = true → ∀ file ∈ files, '\n' ∉ file.toList) {ctx : Context}
    (hctx : ctx.Calm) {s : Stmt} (hs : (Node.stmt s).Every Node.Writable) :
    RowsTake (topLevelRows options files ctx s) [] [] := by
  unfold topLevelRows
  split
  · exact .nil []
  · cases hdebug : options.debug with
    | true => exact .comment (isComment_banner (hfiles hdebug) s) (Stmt.closed_rows hctx s hs)
    | false => exact Stmt.closed_rows hctx s hs

theorem takes_exportRows (options : Options) {stmts : List Stmt}
    (h : ∀ s ∈ stmts, (Node.stmt s).Every Node.Writable) :
    RowsTake (exportRows options stmts) [] [] := by
  unfold exportRows
  split
  · rename_i name names _ hnames
    have hclosed : ∀ emitted ∈ name :: names, Closed emitted := by
      intro emitted hin
      rw [← hnames, Ordered.mem_distinct] at hin
      obtain ⟨s, hs, hexport⟩ := List.mem_filterMap.mp hin
      exact (Stmt.isCalm_exportName (h s hs).here.1 hexport).closed
    have hlist : Closed ("export \x7b " ++ Text.joinWith ", " (name :: names) ++ " \x7d;") :=
      (closed_joinWith (by decide) hclosed).enclosed (x := ['}']) (by decide) (by decide)
    exact .cons hlist (.nil [])
  · exact .nil []

theorem takes_programRows {options : Options} {files : List String}
    (hfiles : options.debug = true → ∀ file ∈ files, '\n' ∉ file.toList) {program : Program}
    (h : ∀ s ∈ program.stmts, (Node.stmt s).Every Node.Writable) :
    RowsTake (programRows options files program) [] [] := by
  refine RowsTake.append ?_ (takes_exportRows options h)
  have hctx : Context.Calm ⟨0, none, declaredClasses program.stmts, options.optimize⟩ :=
    fun _ hname => absurd hname (Option.not_mem_none _)
  generalize (⟨0, none, declaredClasses program.stmts, options.optimize⟩ : Context) = ctx at hctx
  generalize program.stmts = stmts at h
  induction stmts with
  | nil => exact .nil []
  | cons s rest ih =>
    obtain ⟨hs, hrest⟩ := List.forall_mem_cons.mp h
    rw [List.flatMap_cons]
    exact (takes_topLevelRows hfiles hctx hs).append (ih hrest)

/-- Whatever program was parsed or linked: if the targets of its foreign functions are dotted paths
    and no file has a line feed in its name or no remarks are asked for, then every bracket of its
    script is closed by its counterpart and every string literal on its line. -/
theorem generate_wellFormed {program : Program} (hread : program.IsRead)
    (htargets : program.TargetsDotted) (options : Options) (files : List String)
    (hfiles : options.debug = true → ∀ file ∈ files, '\n' ∉ file.toList) :
    WellFormed (generate options files program).code := by
  have hrows := takes_programRows hfiles (hread.writable htargets)
  unfold generate
  cases options.mapFile? with
  | none => exact hrows
  | some file => exact hrows

/-- A file with strings, a stroke, a remark and classes, whose script is full of brackets. -/
def bracketedSources : Sources :=
  Sources.empty.insert "a.tn" ("namespace! a; @foreign(\"console.log\") micro log(x); " ++
    "trait T \x7b micro m(self) \x7b return 1 / 2; \x7d \x7d " ++
    "singleton S implements T \x7b f = \x7b \"(\": [\"\\\"\"] \x7d; \x7d " ++
    "until x is? T \x7b log(\"//\") \x7b log(S()); \x7d \x7d")

/-- The brackets of its script, with remarks and a list of exports. -/
theorem generate_bracketedSources :
    ∃ linked findings, link .strict bracketedSources = .ok (linked, findings) ∧
      linked.program.TargetsDotted ∧
      WellFormed (generate ⟨.module, false, true, none⟩ ["a(.tn"] linked.program).code := by
  have htargets : (link .strict bracketedSources).toOption.map (fun result =>
      result.1.program.stmts.all fun s => (Node.stmt s).allWithin Node.hasDottedTarget 9) =
        some true := by
    decide +kernel
  obtain ⟨linked, findings, hlink, hchecked⟩ := exists_link_of_map htargets
  have hdotted : linked.program.TargetsDotted := fun s hs =>
    Node.every_of_allWithin (List.all_eq_true.mp hchecked s hs)
  exact ⟨linked, findings, hlink, hdotted, generate_wellFormed (.linked hlink) hdotted _ _
    fun _ file hfile => List.mem_singleton.mp hfile ▸ by decide⟩

end Script

end ScriptCompiler
