import ScriptCompiler.Proofs.OutputOptions

/-!
# The functions of scripts

A script is a text, but a reader of it sees functions inside each other and the `await` expressions
in them. A passage is a text in which these are told apart from the rest. Every part of a program is
written as a passage, and the text of that passage is what the generator writes for the part.
-/

namespace ScriptCompiler

namespace Script

open Text (spaces joinWith)

/-- What a function of a script has been made of. -/
inductive Origin where
  /-- A function that is declared by a statement. -/
  | declaration (body : Block)
  | method (body : Block)
  | lambda (body : Block)
  /-- A block behind the arguments of a call. -/
  | closure (body : Block)
  /-- The wrapper of a tolerant test or cast. -/
  | guard (operand : Expr)
  /-- The constructor of a class with these members, declared or not. -/
  | constructor (members : List Member)
  /-- The function that hides the class of a singleton. -/
  | singleton

/-- A text in which functions and `await` expressions are told apart from the rest. -/
inductive Passage where
  | text (written : String)
  | append (first second : Passage)
  | await (operand : Passage)
  /-- A tolerant test or cast: its wrapper is called at once, and awaited if it is asynchronous. -/
  | guard (operand : Expr) (isAsync : Bool) (inside : Passage) (fallback : String)
  /-- A function from its mark on, with what stands before and behind its statements. -/
  | function (origin : Origin) (isAsync : Bool) (head : String) (inside : Passage) (tail : String)

namespace Passage

instance : Append Passage := ⟨append⟩

instance : Coe String Passage := ⟨text⟩

def plain : Passage → String
  | .text written => written
  | .append first second => first.plain ++ second.plain
  | .await operand => "(await " ++ operand.plain ++ ")"
  | .guard _ isAsync inside fallback => guardText inside.plain fallback isAsync
  | .function _ isAsync head inside tail => asyncMark isAsync ++ head ++ inside.plain ++ tail

@[simp] theorem plain_text (written : String) : (Passage.text written).plain = written := rfl

@[simp] theorem plain_append (first second : Passage) :
    (first ++ second).plain = first.plain ++ second.plain := rfl

def concat : List Passage → Passage
  | [] => ""
  | first :: rest => first ++ concat rest

def joined : List Passage → Passage
  | [] => ""
  | [last] => last
  | first :: rest => first ++ ", " ++ joined rest

theorem plain_joined (passages : List Passage) :
    (joined passages).plain = joinWith ", " (passages.map plain) := by
  rw [← String.toList_inj, Text.toList_joinWith]
  induction passages with
  | nil => rfl
  | cons first rest ih =>
    cases rest with
    | nil => simp [joined]
    | cons next rest =>
      simp only [joined, plain_append, plain_text, String.toList_append, ih, List.map_cons,
        List.intercalate_cons_cons, List.append_assoc]

def row (ctx : Context) (inside : Passage) : Passage :=
  spaces (2 * ctx.indent) ++ inside ++ "\n"

/-- A function whose statements stand on rows of their own. -/
def rowFunction (ctx : Context) (origin : Origin) (isAsync : Bool) (head : String)
    (inside : Passage) : Passage :=
  .function origin isAsync (head ++ "\n") inside (spaces (2 * ctx.indent) ++ "\x7d")

def anonymous (ctx : Context) (origin : Origin) (params : List Param) (isAsync : Bool)
    (inside : Passage) : Passage :=
  rowFunction ctx origin isAsync ("(" ++ paramList params ++ ") => \x7b") inside

end Passage

open Passage (row rowFunction anonymous)

/-- The test that the value of `subject` belongs to a named type. -/
def namedTestPassage (ctx : Context) (subject : Passage) (name : String) : Passage :=
  if name = "Number" then "(typeof " ++ subject ++ " === \"number\")"
  else if name = "String" then "(typeof " ++ subject ++ " === \"string\")"
  else if name = "Boolean" ∨ name = "Bool" then "(typeof " ++ subject ++ " === \"boolean\")"
  else if name = "Function" then "(typeof " ++ subject ++ " === \"function\")"
  else "(" ++ subject ++ (" instanceof " ++ ctx.nameText name ++ ")")

/-- The test that the value of `subject` belongs to a type, which may repeat the subject. -/
def typeTestPassage (ctx : Context) (subject : Passage) : TypeExpr → Passage
  | .named _ name _ => namedTestPassage ctx subject name.name
  | .array _ _ => "(Array.isArray(" ++ subject ++ "))"
  | .binary _ .arrow _ _ => "(typeof " ++ subject ++ " === \"function\")"
  | .binary _ .intersection left right =>
    "(" ++ typeTestPassage ctx subject left ++ " && " ++ typeTestPassage ctx subject right ++ ")"
  | .binary _ .union left right =>
    "(" ++ typeTestPassage ctx subject left ++ " || " ++ typeTestPassage ctx subject right ++ ")"
  | .binary _ .sum left right =>
    "(" ++ typeTestPassage ctx subject left ++ " || " ++ typeTestPassage ctx subject right ++ ")"
  | .unit _ => "(" ++ subject ++ " === undefined)"

/-- An operand before a call, member access or index. -/
def receiverPassage (inside : Passage) : Expr → Passage
  | .number .. | .object .. | .lambda .. => "(" ++ inside ++ ")"
  | _ => inside

def conditionPassage (inside : Passage) : Expr → Passage
  | .binary .. | .unary .. | .assign .. | .typeTest _ _ _ false => inside
  | _ => "(" ++ inside ++ ")"

def statementPassage (inside : Passage) : Expr → Passage
  | .object .. | .lambda .. => "(" ++ inside ++ ");"
  | _ => inside ++ ";"

/-- Fields of an object literal between braces. -/
def objectPassage : List Passage → Passage
  | [] => "\x7b\x7d"
  | fields => "\x7b " ++ Passage.joined fields ++ " \x7d"

/-- The constructor of a class that declares none. -/
def implicitConstructorPassage (ctx : Context) (hasBase : Bool) (members : List Member) :
    List Passage → Passage
  | [] => ""
  | inits =>
    row ctx (rowFunction ctx (.constructor members) false
      (if hasBase then "constructor(...args) \x7b" else "constructor() \x7b")
      ((if hasBase then row ctx.deeper "super(...args);" else "")
        ++ Passage.concat (inits.map (row ctx.deeper))))

theorem plain_namedTestPassage (ctx : Context) (subject : Passage) (name : String) :
    (namedTestPassage ctx subject name).plain = namedTest ctx subject.plain name := by
  unfold namedTestPassage namedTest typeofTest
  split
  · simp [String.append_assoc]
  split
  · simp [String.append_assoc]
  split
  · simp [String.append_assoc]
  split
  · simp [String.append_assoc]
  · simp [String.append_assoc]

theorem plain_typeTestPassage (ctx : Context) (subject : Passage) (type : TypeExpr) :
    (typeTestPassage ctx subject type).plain = typeTest ctx subject.plain type := by
  fun_induction typeTestPassage ctx subject type with
  | case1 _ name _ => exact plain_namedTestPassage ctx subject name.name
  | case2 | case7 => rfl
  | case3 => simp [typeTest, typeofTest, String.append_assoc]
  | case4 _ left right ihleft ihright => simp [typeTest, ihleft, ihright]
  | case5 _ left right ihleft ihright => simp [typeTest, ihleft, ihright]
  | case6 _ left right ihleft ihright => simp [typeTest, ihleft, ihright]

theorem plain_receiverPassage (inside : Passage) (e : Expr) :
    (receiverPassage inside e).plain = receiverText inside.plain e := by
  cases e <;> rfl

theorem plain_conditionPassage (inside : Passage) (e : Expr) :
    (conditionPassage inside e).plain = conditionText inside.plain e := by
  cases e with
  | typeTest _ _ _ guarded => cases guarded <;> rfl
  | _ => rfl

theorem plain_statementPassage (inside : Passage) (e : Expr) :
    (statementPassage inside e).plain = statementText inside.plain e := by
  cases e <;> rfl

theorem plain_objectPassage (fields : List Passage) :
    (objectPassage fields).plain = objectText (fields.map Passage.plain) := by
  cases fields with
  | nil => rfl
  | cons field rest =>
    simp [objectPassage, objectText, Passage.plain_joined]

@[simp] theorem Row.code_nil : Row.code [] = "" := rfl

@[simp] theorem Row.code_cons (first : Row) (rest : List Row) :
    Row.code (first :: rest) =
      spaces (2 * first.indent) ++ (first.text ++ ("\n" ++ Row.code rest)) := by
  rw [← String.toList_inj, Row.toList_code_cons]
  simp [spaces]

end Script

open Script
open Script.Passage (row rowFunction anonymous)

mutual

def Expr.passage (ctx : Context) : Expr → Passage
  | .number _ digits => digits
  | .string _ value => quote value
  | .bool _ value => Text.Json.boolText value
  | .name _ ident => ctx.nameText ident.name
  | .binary _ op left right =>
    "(" ++ left.passage ctx ++ (" " ++ binaryText op ++ " ") ++ right.passage ctx ++ ")"
  | .unary _ .await operand => .await (operand.passage ctx)
  | .unary _ op operand => ("(" ++ op.text) ++ operand.passage ctx ++ ")"
  | .assign _ target value => "(" ++ target.passage ctx ++ " = " ++ value.passage ctx ++ ")"
  | .typeTest _ operand type guarded =>
    let test := typeTestPassage ctx (operand.passage ctx) type
    if guarded then .guard operand operand.awaits test "false" else test
  | .cast _ operand _ guarded =>
    let value := operand.passage ctx
    if guarded then .guard operand operand.awaits value "null" else value
  | .call _ callee args none =>
    receiverPassage (callee.passage ctx) callee ++ "(" ++ Passage.joined (exprPassages ctx args)
      ++ ")"
  | .call _ callee args (some closure) =>
    receiverPassage (callee.passage ctx) callee ++ "(" ++ Passage.joined (exprPassages ctx args
      ++ [anonymous ctx (.closure closure) [] closure.awaits (closure.passage ctx.deeper)]) ++ ")"
  | .field _ receiver member =>
    receiverPassage (receiver.passage ctx) receiver ++ ("." ++ member.name)
  | .staticMember _ receiver member =>
    receiverPassage (receiver.passage ctx) receiver ++ ("." ++ member.name)
  | .index _ receiver position =>
    receiverPassage (receiver.passage ctx) receiver ++ "[" ++ position.passage ctx ++ "]"
  | .array _ elements => "[" ++ Passage.joined (exprPassages ctx elements) ++ "]"
  | .object _ fields => objectPassage (fieldPassages ctx fields)
  | .lambda _ params body =>
    anonymous ctx (.lambda body) params body.awaits (body.passage ctx.deeper)
  | .new _ className args =>
    ("new " ++ ctx.nameText className.name ++ "(") ++ Passage.joined (exprPassages ctx args) ++ ")"

def exprPassages (ctx : Context) : List Expr → List Passage
  | [] => []
  | e :: rest => e.passage ctx :: exprPassages ctx rest

/-- What is written for the fields of an object literal. -/
def fieldPassages (ctx : Context) : List ObjectField → List Passage
  | [] => []
  | ⟨key, value, _⟩ :: rest =>
    ((objectKey key ++ ": ") ++ value.passage ctx) :: fieldPassages ctx rest

def Block.passage (ctx : Context) : Block → Passage
  | ⟨stmts, _⟩ => stmtsPassage ctx stmts

def stmtsPassage (ctx : Context) : List Stmt → Passage
  | [] => ""
  | s :: rest => s.passage ctx ++ stmtsPassage ctx rest

def Stmt.passage (ctx : Context) : Stmt → Passage
  | .letDecl _ name _ (some init) uniqueName? =>
    row ctx (("let " ++ uniqueName?.getD name.name ++ " = ") ++ init.passage ctx ++ ";")
  | .function _ name params _ _ body uniqueName? =>
    row ctx (rowFunction ctx (.declaration body) body.awaits
      ("function " ++ uniqueName?.getD name.name ++ "(" ++ paramList params ++ ") \x7b")
      (body.passage ctx.deeper))
  | .classDecl _ ⟨.singleton, name, extends?, implements, members, uniqueName?⟩ =>
    let emitted := uniqueName?.getD name.name
    let backing := "__" ++ emitted ++ "_Impl"
    let inside := ctx.deeper.insideClass backing
    let inits := initPassages inside members
    row ctx (("const " ++ emitted ++ " = (") ++ rowFunction ctx .singleton false "() => \x7b"
      (row ctx.deeper (classHeader ctx.deeper backing extends?)
        ++ constructorPassage inside extends?.isSome members inits members
        ++ methodsPassage inside members
        ++ row ctx.deeper "\x7d"
        ++ Row.code (mixinRows ctx.deeper backing implements)
        ++ Row.code (instanceRows ctx.deeper backing)) ++ ")();")
  | .classDecl _ ⟨_, name, extends?, implements, members, uniqueName?⟩ =>
    let emitted := uniqueName?.getD name.name
    let inside := ctx.insideClass emitted
    let inits := initPassages inside members
    row ctx (classHeader ctx emitted extends?)
      ++ constructorPassage inside extends?.isSome members inits members
      ++ methodsPassage inside members
      ++ row ctx "\x7d"
      ++ Row.code (mixinRows ctx emitted implements)
  | .ifElse _ condition thenBlock elseBranch =>
    row ctx ("if " ++ conditionPassage (condition.passage ctx) condition ++ " \x7b")
      ++ thenBlock.passage ctx.deeper ++ elseBranch.passage ctx ++ row ctx "\x7d"
  | .whileLoop _ condition body =>
    row ctx ("while " ++ conditionPassage (condition.passage ctx) condition ++ " \x7b")
      ++ body.passage ctx.deeper ++ row ctx "\x7d"
  | .untilLoop _ condition body =>
    row ctx ("while (!" ++ conditionPassage (condition.passage ctx) condition ++ ") \x7b")
      ++ body.passage ctx.deeper ++ row ctx "\x7d"
  | .ret _ (some value) => row ctx ("return " ++ value.passage ctx ++ ";")
  | .block _ body => row ctx "\x7b" ++ body.passage ctx.deeper ++ row ctx "\x7d"
  | .expr _ value => row ctx (statementPassage (value.passage ctx) value)
  -- All other statements have no parts that could hold a function.
  | s => Row.code (s.rows ctx)

def ElseBranch.passage (ctx : Context) : ElseBranch → Passage
  | .none => ""
  | .block body => row ctx "\x7d else \x7b" ++ body.passage ctx.deeper
  | .elseIf condition thenBlock elseBranch =>
    row ctx ("\x7d else if " ++ conditionPassage (condition.passage ctx) condition ++ " \x7b")
      ++ thenBlock.passage ctx.deeper ++ elseBranch.passage ctx

/-- The assignments that give fields their initial values. -/
def initPassages (ctx : Context) : List Member → List Passage
  | [] => []
  | .field _ name _ (some init) _ :: rest =>
    (("this." ++ name.name ++ " = ") ++ init.passage ctx ++ ";") :: initPassages ctx rest
  | .field _ name type? none true :: rest =>
    ↑("this." ++ name.name ++ " = " ++ defaultValue type? ++ ";") :: initPassages ctx rest
  | _ :: rest => initPassages ctx rest

/-- The constructor of a class with the members `all`: the first declared one, or the one that its
    fields need. -/
def constructorPassage (ctx : Context) (hasBase : Bool) (all : List Member)
    (inits : List Passage) : List Member → Passage
  | [] => implicitConstructorPassage ctx hasBase all inits
  | .constructor _ params body :: _ =>
    row ctx (rowFunction ctx (.constructor all) false
      ("constructor(" ++ paramList params ++ ") \x7b")
      ((if hasBase then row ctx.deeper "super(...arguments);" else "")
        ++ Passage.concat (inits.map (row ctx.deeper)) ++ body.passage ctx.deeper))
  | _ :: rest => constructorPassage ctx hasBase all inits rest

def methodsPassage (ctx : Context) : List Member → Passage
  | [] => ""
  | .method _ name params _ _ (some body) :: rest =>
    row ctx ((if isInstanceParams params then "" else "static ")
      ++ rowFunction ctx (.method body) body.awaits
        (name.name ++ "(" ++ paramList (if isInstanceParams params then params.tail else params)
          ++ ") \x7b")
        (body.passage ctx.deeper))
      ++ methodsPassage ctx rest
  | _ :: rest => methodsPassage ctx rest

end

/-! ### The text of passages -/

namespace Script

@[simp] theorem plain_row (ctx : Context) (inside : Passage) :
    (row ctx inside).plain = Text.spaces (2 * ctx.indent) ++ (inside.plain ++ "\n") := by
  simp [row, String.append_assoc]

@[simp] theorem plain_rowFunction (ctx : Context) (origin : Origin) (isAsync : Bool) (head : String)
    (inside : Passage) :
    (rowFunction ctx origin isAsync head inside).plain =
      asyncMark isAsync ++ (head ++ ("\n" ++ (inside.plain ++
        (Text.spaces (2 * ctx.indent) ++ "\x7d")))) := by
  simp [rowFunction, Passage.plain, String.append_assoc]

theorem plain_anonymous (ctx : Context) (origin : Origin) (params : List Param) (isAsync : Bool)
    {inside : Passage} {body : List Row} (h : inside.plain = Row.code body) :
    (anonymous ctx origin params isAsync inside).plain = lambdaText ctx params isAsync body := by
  simp [← String.toList_inj, anonymous, lambdaText, h]

theorem plain_concat_rows (ctx : Context) (inits : List Passage) :
    (Passage.concat (inits.map (row ctx))).plain =
      Row.code ((inits.map Passage.plain).map ctx.row) := by
  induction inits with
  | nil => rfl
  | cons init rest ih => simp [Passage.concat, ih, Context.row, String.append_assoc]

theorem plain_implicitConstructorPassage (ctx : Context) (hasBase : Bool) (members : List Member)
    (inits : List Passage) :
    (implicitConstructorPassage ctx hasBase members inits).plain =
      Row.code (implicitConstructor ctx hasBase (inits.map Passage.plain)) := by
  cases inits with
  | nil => rfl
  | cons init rest =>
    have hinits := plain_concat_rows ctx.deeper (init :: rest)
    cases hasBase with
    | true =>
      simp only [implicitConstructorPassage, implicitConstructor, List.map_cons, if_true]
        at hinits ⊢
      simp [← String.toList_inj, hinits, asyncMark, code_append, Context.row]
    | false =>
      simp only [implicitConstructorPassage, implicitConstructor, List.map_cons] at hinits ⊢
      simp [← String.toList_inj, hinits, asyncMark, code_append, Context.row]

end Script

mutual

theorem Expr.plain_passage (ctx : Context) : ∀ e : Expr, (e.passage ctx).plain = e.script ctx
  | .number .. | .string .. | .bool .. | .name .. => rfl
  | .binary _ op left right => by
    rw [Expr.passage, Expr.script]
    simp [left.plain_passage ctx, right.plain_passage ctx, String.append_assoc]
  | .unary _ .await operand => by
    rw [Expr.passage, Expr.script, Passage.plain, operand.plain_passage ctx]
    simp [UnaryOp.text]
  | .unary _ .neg operand => by
    rw [Expr.passage, Expr.script]
    · simp [operand.plain_passage ctx]
    · exact UnaryOp.noConfusion
  | .unary _ .not operand => by
    rw [Expr.passage, Expr.script]
    · simp [operand.plain_passage ctx]
    · exact UnaryOp.noConfusion
  | .assign _ target value => by
    rw [Expr.passage, Expr.script]
    simp [target.plain_passage ctx, value.plain_passage ctx]
  | .typeTest _ operand type guarded => by
    have htest := plain_typeTestPassage ctx (operand.passage ctx) type
    rw [operand.plain_passage ctx] at htest
    rw [Expr.passage, Expr.script]
    cases guarded <;> simp [Passage.plain, htest]
  | .cast _ operand type guarded => by
    rw [Expr.passage, Expr.script]
    cases guarded <;> simp [Passage.plain, operand.plain_passage ctx]
  | .call _ callee args none => by
    rw [Expr.passage, Expr.script]
    simp [plain_receiverPassage, Passage.plain_joined, callee.plain_passage ctx,
      plain_exprPassages ctx args]
  | .call _ callee args (some closure) => by
    rw [Expr.passage, Expr.script]
    simp [plain_receiverPassage, Passage.plain_joined, callee.plain_passage ctx,
      plain_exprPassages ctx args, plain_anonymous _ _ _ _ (closure.plain_passage ctx.deeper)]
  | .field _ receiver member => by
    rw [Expr.passage, Expr.script]
    simp [plain_receiverPassage, receiver.plain_passage ctx, String.append_assoc]
  | .staticMember _ receiver member => by
    rw [Expr.passage, Expr.script]
    simp [plain_receiverPassage, receiver.plain_passage ctx, String.append_assoc]
  | .index _ receiver position => by
    rw [Expr.passage, Expr.script]
    simp [plain_receiverPassage, receiver.plain_passage ctx, position.plain_passage ctx]
  | .array _ elements => by
    rw [Expr.passage, Expr.script]
    simp [Passage.plain_joined, plain_exprPassages ctx elements]
  | .object _ fields => by
    rw [Expr.passage, Expr.script, plain_objectPassage, plain_fieldPassages ctx fields]
  | .lambda _ params body => by
    rw [Expr.passage, Expr.script, plain_anonymous _ _ _ _ (body.plain_passage ctx.deeper)]
  | .new _ className args => by
    rw [Expr.passage, Expr.script]
    simp [Passage.plain_joined, plain_exprPassages ctx args]

theorem plain_exprPassages (ctx : Context) : ∀ es : List Expr,
    (exprPassages ctx es).map Passage.plain = scriptExprs ctx es
  | [] => rfl
  | e :: rest => by
    rw [exprPassages, scriptExprs, List.map_cons, e.plain_passage ctx, plain_exprPassages ctx rest]

theorem plain_fieldPassages (ctx : Context) : ∀ fields : List ObjectField,
    (fieldPassages ctx fields).map Passage.plain = scriptFields ctx fields
  | [] => rfl
  | ⟨key, value, _⟩ :: rest => by
    rw [fieldPassages, scriptFields, List.map_cons, plain_fieldPassages ctx rest]
    simp [value.plain_passage ctx]

theorem Block.plain_passage (ctx : Context) : ∀ b : Block,
    (b.passage ctx).plain = Row.code (b.rows ctx)
  | ⟨stmts, _⟩ => by
    rw [Block.passage, Block.rows, plain_stmtsPassage ctx stmts]

theorem plain_stmtsPassage (ctx : Context) : ∀ stmts : List Stmt,
    (stmtsPassage ctx stmts).plain = Row.code (stmtRows ctx stmts)
  | [] => rfl
  | s :: rest => by
    rw [stmtsPassage, stmtRows, Passage.plain_append, s.plain_passage ctx,
      plain_stmtsPassage ctx rest, code_append]

theorem Stmt.plain_passage (ctx : Context) : ∀ s : Stmt,
    (s.passage ctx).plain = Row.code (s.rows ctx)
  | .namespaceDecl .. | .usingDecl .. | .foreignDecl .. => rfl
  | .letDecl _ _ _ none _ | .ret _ none => rfl
  | .letDecl _ name _ (some init) uniqueName? => by
    rw [Stmt.passage, Stmt.rows]
    simp [init.plain_passage ctx, Context.rowFrom, String.append_assoc]
  | .function _ name params _ _ body uniqueName? => by
    rw [Stmt.passage, Stmt.rows]
    simp [← String.toList_inj, body.plain_passage ctx.deeper, Context.rowFrom, Context.row,
      functionHeader, code_append]
  | .classDecl _ ⟨.singleton, name, extends?, implements, members, uniqueName?⟩ => by
    rw [Stmt.passage, Stmt.rows]
    simp [← String.toList_inj, plain_initPassages _ members,
      plain_constructorPassage _ _ _ _ members, plain_methodsPassage _ members, Context.rowFrom,
      Context.row, memberRows, code_append, asyncMark]
  | .classDecl _ ⟨.plain, name, extends?, implements, members, uniqueName?⟩ => by
    rw [Stmt.passage, Stmt.rows]
    · simp [← String.toList_inj, plain_initPassages _ members,
        plain_constructorPassage _ _ _ _ members, plain_methodsPassage _ members, Context.rowFrom,
        Context.row, memberRows, code_append]
    · exact ClassKind.noConfusion
    · exact ClassKind.noConfusion
  | .classDecl _ ⟨.trait, name, extends?, implements, members, uniqueName?⟩ => by
    rw [Stmt.passage, Stmt.rows]
    · simp [← String.toList_inj, plain_initPassages _ members,
        plain_constructorPassage _ _ _ _ members, plain_methodsPassage _ members, Context.rowFrom,
        Context.row, memberRows, code_append]
    · exact ClassKind.noConfusion
    · exact ClassKind.noConfusion
  | .ifElse _ condition thenBlock elseBranch => by
    rw [Stmt.passage, Stmt.rows]
    simp [← String.toList_inj, plain_conditionPassage, condition.plain_passage ctx,
      thenBlock.plain_passage ctx.deeper, elseBranch.plain_passage ctx, Context.rowFrom,
      Context.row, code_append]
  | .whileLoop _ condition body => by
    rw [Stmt.passage, Stmt.rows]
    simp [← String.toList_inj, plain_conditionPassage, condition.plain_passage ctx,
      body.plain_passage ctx.deeper, Context.rowFrom, Context.row, code_append]
  | .untilLoop _ condition body => by
    rw [Stmt.passage, Stmt.rows]
    simp [← String.toList_inj, plain_conditionPassage, condition.plain_passage ctx,
      body.plain_passage ctx.deeper, Context.rowFrom, Context.row, code_append]
  | .ret _ (some value) => by
    rw [Stmt.passage, Stmt.rows]
    simp [value.plain_passage ctx, Context.rowFrom, String.append_assoc]
  | .block _ body => by
    rw [Stmt.passage, Stmt.rows]
    simp [← String.toList_inj, body.plain_passage ctx.deeper, Context.rowFrom, Context.row,
      code_append]
  | .expr _ value => by
    rw [Stmt.passage, Stmt.rows]
    simp [plain_statementPassage, value.plain_passage ctx, Context.rowFrom]

theorem ElseBranch.plain_passage (ctx : Context) : ∀ b : ElseBranch,
    (b.passage ctx).plain = Row.code (b.rows ctx)
  | .none => rfl
  | .block body => by
    rw [ElseBranch.passage, ElseBranch.rows]
    simp [← String.toList_inj, body.plain_passage ctx.deeper, Context.row]
  | .elseIf condition thenBlock elseBranch => by
    rw [ElseBranch.passage, ElseBranch.rows]
    simp [← String.toList_inj, plain_conditionPassage, condition.plain_passage ctx,
      thenBlock.plain_passage ctx.deeper, elseBranch.plain_passage ctx, Context.row, code_append]

theorem plain_initPassages (ctx : Context) : ∀ members : List Member,
    (initPassages ctx members).map Passage.plain = fieldInits ctx members
  | [] => rfl
  | .field _ name _ (some init) _ :: rest => by
    rw [initPassages, fieldInits, List.map_cons, plain_initPassages ctx rest]
    simp [init.plain_passage ctx]
  | .field _ name type? none true :: rest => by
    rw [initPassages, fieldInits, List.map_cons, plain_initPassages ctx rest]
    rfl
  | .field _ name type? none false :: rest => by
    rw [initPassages, fieldInits, plain_initPassages ctx rest] <;> simp
  | .constructor .. :: rest => by
    rw [initPassages, fieldInits, plain_initPassages ctx rest] <;> simp
  | .method .. :: rest => by
    rw [initPassages, fieldInits, plain_initPassages ctx rest] <;> simp

theorem plain_constructorPassage (ctx : Context) (hasBase : Bool) (all : List Member)
    (inits : List Passage) : ∀ members : List Member,
    (constructorPassage ctx hasBase all inits members).plain =
      Row.code ((constructorRows ctx hasBase (inits.map Passage.plain) members).getD
        (implicitConstructor ctx hasBase (inits.map Passage.plain)))
  | [] => plain_implicitConstructorPassage ctx hasBase all inits
  | .constructor _ params body :: _ => by
    rw [constructorPassage, constructorRows]
    cases hasBase <;>
      simp [← String.toList_inj, plain_concat_rows, body.plain_passage ctx.deeper, Context.rowFrom,
        Context.row, code_append, asyncMark]
  | .field .. :: rest => by
    rw [constructorPassage, constructorRows, plain_constructorPassage ctx hasBase all inits rest]
      <;> simp
  | .method .. :: rest => by
    rw [constructorPassage, constructorRows, plain_constructorPassage ctx hasBase all inits rest]
      <;> simp

theorem plain_methodsPassage (ctx : Context) : ∀ members : List Member,
    (methodsPassage ctx members).plain = Row.code (methodRows ctx members)
  | [] => rfl
  | .method _ name params _ _ (some body) :: rest => by
    rw [methodsPassage, methodRows]
    cases hinstance : isInstanceParams params <;>
      simp [← String.toList_inj, body.plain_passage ctx.deeper, plain_methodsPassage ctx rest,
        hinstance, Context.rowFrom, Context.row, code_append, methodHeader]
  | .method _ _ _ _ _ none :: rest => by
    rw [methodsPassage, methodRows, plain_methodsPassage ctx rest] <;> simp
  | .constructor .. :: rest => by
    rw [methodsPassage, methodRows, plain_methodsPassage ctx rest] <;> simp
  | .field .. :: rest => by
    rw [methodsPassage, methodRows, plain_methodsPassage ctx rest] <;> simp

end

namespace Script

/-- What is written for a statement of the program, with the remark before it. -/
def topLevelPassage (options : Options) (files : List String) (ctx : Context) (s : Stmt) :
    Passage :=
  if options.optimize && s.isInert then ""
  else (if options.debug then Row.code [banner files s] else "") ++ s.passage ctx

def programPassage (options : Options) (files : List String) (program : Program) : Passage :=
  let ctx : Context := ⟨0, none, declaredClasses program.stmts, options.optimize⟩
  Passage.concat (program.stmts.map (topLevelPassage options files ctx))
    ++ Row.code (exportRows options program.stmts)

theorem plain_topLevelPassage (options : Options) (files : List String) (ctx : Context) (s : Stmt) :
    (topLevelPassage options files ctx s).plain = Row.code (topLevelRows options files ctx s) := by
  unfold topLevelPassage topLevelRows
  split
  · rfl
  · split <;> simp [s.plain_passage ctx, String.append_assoc]

theorem plain_concat_topLevel (options : Options) (files : List String) (ctx : Context)
    (stmts : List Stmt) :
    (Passage.concat (stmts.map (topLevelPassage options files ctx))).plain =
      Row.code (stmts.flatMap (topLevelRows options files ctx)) := by
  induction stmts with
  | nil => rfl
  | cons s rest ih =>
    rw [List.map_cons, Passage.concat, Passage.plain_append, plain_topLevelPassage, ih,
      List.flatMap_cons, code_append]

/-- The text of the passage of a program is its script. -/
theorem plain_programPassage (options : Options) (files : List String) (program : Program) :
    (programPassage options files program).plain = (generate options files program).code := by
  have hcode : (generate options files program).code =
      Row.code (programRows options files program) := by
    unfold generate
    split <;> rfl
  rw [hcode, programRows, code_append, programPassage, Passage.plain_append, plain_concat_topLevel,
    Passage.plain_text]

end Script

end ScriptCompiler
