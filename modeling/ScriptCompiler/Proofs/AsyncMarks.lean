import ScriptCompiler.Proofs.AwaitSearch
import ScriptCompiler.Proofs.Passages

/-!
# The marks of functions

The generator marks a function as asynchronous if it finds an `await` in what the function is made
of, and it writes `await` expressions where the program has them and around asynchronous wrappers.
Both go together: right inside a function of the script stands an `await` if and only if the search
finds one in what the function has been made of. Only constructors are never marked.
-/

namespace ScriptCompiler

def Member.init? : Member → Option Expr
  | .field _ _ _ init? _ => init?
  | _ => none

def Member.constructorBody? : Member → Option Block
  | .constructor _ _ body => some body
  | _ => none

namespace Script

/-- An `await` belongs to what the function has been made of. A constructor is made of the initial
    values of all fields and of the body of the first declared constructor. -/
def Origin.awaits : Origin → Bool
  | .declaration body | .method body | .lambda body | .closure body => body.awaits
  | .guard operand => operand.awaits
  | .constructor members =>
    (members.filterMap Member.init?).any Expr.awaits
      || (members.findSome? Member.constructorBody?).any Block.awaits
  | .singleton => false

def Origin.isConstructor : Origin → Bool
  | .constructor _ => true
  | _ => false

/-- The mark that a function gets: constructors never have one. -/
def Origin.isAsync (origin : Origin) : Bool :=
  !origin.isConstructor && origin.awaits

namespace Passage

/-- An `await` stands in the passage, and not inside a function of it. A wrapper that is
    asynchronous is awaited in place. -/
def awaitsHere : Passage → Bool
  | .text _ | .function .. => false
  | .append first second => first.awaitsHere || second.awaitsHere
  | .await _ => true
  | .guard _ isAsync _ _ => isAsync

/-- All functions are marked by what they have been made of, and an `await` stands right inside one
    if and only if one belongs to what it has been made of. -/
def Sound : Passage → Prop
  | .text _ => True
  | .append first second => first.Sound ∧ second.Sound
  | .await operand => operand.Sound
  | .guard operand isAsync inside _ =>
    isAsync = operand.awaits ∧ inside.awaitsHere = operand.awaits ∧ inside.Sound
  | .function origin isAsync _ inside _ =>
    isAsync = origin.isAsync ∧ inside.awaitsHere = origin.awaits ∧ inside.Sound

section

variable {ctx : Context} (inside first second : Passage) (passages : List Passage)

@[simp] theorem awaitsHere_text (written : String) :
    (Passage.text written).awaitsHere = false := rfl

@[simp] theorem awaitsHere_append :
    (first ++ second).awaitsHere = (first.awaitsHere || second.awaitsHere) := rfl

@[simp] theorem awaitsHere_row : (row ctx inside).awaitsHere = inside.awaitsHere := by
  simp [row]

@[simp] theorem awaitsHere_rowFunction (origin : Origin) (isAsync : Bool) (head : String) :
    (rowFunction ctx origin isAsync head inside).awaitsHere = false := rfl

@[simp] theorem awaitsHere_anonymous (origin : Origin) (params : List Param) (isAsync : Bool) :
    (anonymous ctx origin params isAsync inside).awaitsHere = false := rfl

theorem awaitsHere_joined : (joined passages).awaitsHere = passages.any awaitsHere := by
  fun_induction joined passages with
  | case1 => rfl
  | case2 last => simp
  | case3 first rest _ ih => simp [ih]

theorem awaitsHere_concat_rows :
    (concat (passages.map (row ctx))).awaitsHere = passages.any awaitsHere := by
  induction passages with
  | nil => rfl
  | cons first rest ih => simp [concat, ih]

@[simp] theorem sound_text (written : String) : (Passage.text written).Sound := trivial

@[simp] theorem sound_append : (first ++ second).Sound ↔ first.Sound ∧ second.Sound := Iff.rfl

@[simp] theorem sound_row : (row ctx inside).Sound ↔ inside.Sound := by
  simp [row]

theorem sound_rowFunction {origin : Origin} (head : String) (hmark : origin.isConstructor = false)
    (hawaits : inside.awaitsHere = origin.awaits) (hinside : inside.Sound) :
    (rowFunction ctx origin origin.awaits head inside).Sound := by
  refine ⟨?_, hawaits, hinside⟩
  rw [Origin.isAsync, hmark, Bool.not_false, Bool.true_and]

theorem sound_joined (h : ∀ p ∈ passages, p.Sound) : (joined passages).Sound := by
  fun_induction joined passages with
  | case1 => trivial
  | case2 last => exact h last List.mem_cons_self
  | case3 first rest _ ih =>
    rw [List.forall_mem_cons] at h
    exact ⟨⟨h.1, trivial⟩, ih h.2⟩

theorem sound_concat (h : ∀ p ∈ passages, p.Sound) : (concat passages).Sound := by
  induction passages with
  | nil => trivial
  | cons first rest ih =>
    rw [List.forall_mem_cons] at h
    exact ⟨h.1, ih h.2⟩

theorem sound_concat_rows (h : ∀ p ∈ passages, p.Sound) :
    (concat (passages.map (row ctx))).Sound :=
  sound_concat _ (List.forall_mem_map.mpr fun p hp => (sound_row p).mpr (h p hp))

end

end Passage

open Passage

section

variable {ctx : Context} (subject inside : Passage) (fields : List Passage)

theorem awaitsHere_namedTestPassage (name : String) :
    (namedTestPassage ctx subject name).awaitsHere = subject.awaitsHere := by
  unfold namedTestPassage
  split
  · simp
  split
  · simp
  split
  · simp
  split
  · simp
  · simp

/-- A test awaits if its subject does, however often that is repeated. -/
theorem awaitsHere_typeTestPassage (type : TypeExpr) :
    (typeTestPassage ctx subject type).awaitsHere = subject.awaitsHere := by
  fun_induction typeTestPassage ctx subject type with
  | case1 _ name _ => exact awaitsHere_namedTestPassage subject name.name
  | case2 | case3 | case7 => simp
  | case4 _ left right ihleft ihright => simp [ihleft, ihright]
  | case5 _ left right ihleft ihright => simp [ihleft, ihright]
  | case6 _ left right ihleft ihright => simp [ihleft, ihright]

@[simp] theorem awaitsHere_receiverPassage (e : Expr) :
    (receiverPassage inside e).awaitsHere = inside.awaitsHere := by
  cases e <;> simp [receiverPassage]

@[simp] theorem awaitsHere_conditionPassage (e : Expr) :
    (conditionPassage inside e).awaitsHere = inside.awaitsHere := by
  unfold conditionPassage
  split <;> simp

@[simp] theorem awaitsHere_statementPassage (e : Expr) :
    (statementPassage inside e).awaitsHere = inside.awaitsHere := by
  unfold statementPassage
  split <;> simp

theorem awaitsHere_objectPassage :
    (objectPassage fields).awaitsHere = fields.any awaitsHere := by
  cases fields with
  | nil => rfl
  | cons field rest => simp [objectPassage, awaitsHere_joined]

end

end Script

open Script

mutual

/-- An `await` is written for an expression if and only if one is found in it. -/
theorem Expr.awaitsHere_passage (ctx : Context) : ∀ e : Expr,
    (e.passage ctx).awaitsHere = e.awaits
  | .number .. | .string .. | .bool .. | .name .. | .lambda .. => rfl
  | .unary _ .await operand => rfl
  | .unary _ .neg operand | .unary _ .not operand => by
    simp [Expr.passage, Expr.awaits, operand.awaitsHere_passage ctx]
  | .binary _ _ left right | .assign _ left right | .index _ left right => by
    simp [Expr.passage, Expr.awaits, left.awaitsHere_passage ctx, right.awaitsHere_passage ctx]
  | .typeTest _ operand type guarded => by
    cases guarded <;>
      simp [Expr.passage, Expr.awaits, Passage.awaitsHere, awaitsHere_typeTestPassage,
        operand.awaitsHere_passage ctx]
  | .cast _ operand type guarded => by
    cases guarded <;>
      simp [Expr.passage, Expr.awaits, Passage.awaitsHere, operand.awaitsHere_passage ctx]
  | .field _ receiver _ | .staticMember _ receiver _ => by
    simp [Expr.passage, Expr.awaits, receiver.awaitsHere_passage ctx]
  | .call _ callee args none => by
    simp [Expr.passage, Expr.awaits, Passage.awaitsHere_joined, callee.awaitsHere_passage ctx,
      awaitsHere_exprPassages ctx args]
  | .call _ callee args (some closure) => by
    simp [Expr.passage, Expr.awaits, Passage.awaitsHere_joined, callee.awaitsHere_passage ctx,
      awaitsHere_exprPassages ctx args]
  | .array _ es | .new _ _ es => by
    simp [Expr.passage, Expr.awaits, Passage.awaitsHere_joined, awaitsHere_exprPassages ctx es]
  | .object _ fields => by
    rw [Expr.passage, Expr.awaits, awaitsHere_objectPassage, awaitsHere_fieldPassages ctx fields]

theorem awaitsHere_exprPassages (ctx : Context) : ∀ es : List Expr,
    (exprPassages ctx es).any Passage.awaitsHere = awaitsAny es
  | [] => rfl
  | e :: rest => by
    simp [exprPassages, awaitsAny, e.awaitsHere_passage ctx, awaitsHere_exprPassages ctx rest]

theorem awaitsHere_fieldPassages (ctx : Context) : ∀ fields : List ObjectField,
    (fieldPassages ctx fields).any Passage.awaitsHere = awaitsAnyField fields
  | [] => rfl
  | ⟨key, value, _⟩ :: rest => by
    simp [fieldPassages, awaitsAnyField, value.awaitsHere_passage ctx,
      awaitsHere_fieldPassages ctx rest]

end

theorem awaitsHere_implicitConstructorPassage (ctx : Context) (hasBase : Bool)
    (members : List Member) (inits : List Passage) :
    (implicitConstructorPassage ctx hasBase members inits).awaitsHere = false := by
  cases inits <;> simp [implicitConstructorPassage]

theorem awaitsHere_constructorPassage (ctx : Context) (hasBase : Bool) (all : List Member)
    (inits : List Passage) (members : List Member) :
    (constructorPassage ctx hasBase all inits members).awaitsHere = false := by
  induction members with
  | nil => exact awaitsHere_implicitConstructorPassage ctx hasBase all inits
  | cons m rest ih =>
    cases m with
    | constructor span params body => simp [constructorPassage]
    | _ => simpa [constructorPassage] using ih

theorem awaitsHere_methodsPassage (ctx : Context) (members : List Member) :
    (methodsPassage ctx members).awaitsHere = false := by
  induction members with
  | nil => rfl
  | cons m rest ih =>
    cases m with
    | method span name params returnType? effect? body? =>
      cases body? with
      | none => simpa [methodsPassage] using ih
      | some body => cases hself : isInstanceParams params <;> simp [methodsPassage, hself, ih]
    | _ => simpa [methodsPassage] using ih

mutual

/-- An `await` is written for a statement if and only if one is found in it. -/
theorem Stmt.awaitsHere_passage (ctx : Context) : ∀ s : Stmt,
    (s.passage ctx).awaitsHere = s.awaits
  | .namespaceDecl .. | .usingDecl .. | .foreignDecl .. | .function .. => rfl
  | .letDecl _ _ _ none _ | .ret _ none => rfl
  | .letDecl _ _ _ (some value) _ | .ret _ (some value) => by
    simp [Stmt.passage, Stmt.awaits, awaitsOption, value.awaitsHere_passage ctx]
  | .classDecl _ ⟨.singleton, _, _, _, members, _⟩ => by
    simp [Stmt.passage, Stmt.awaits]
  | .classDecl _ ⟨.plain, _, _, _, members, _⟩ | .classDecl _ ⟨.trait, _, _, _, members, _⟩ => by
    simp [Stmt.passage, Stmt.awaits, awaitsHere_constructorPassage, awaitsHere_methodsPassage]
  | .ifElse _ condition thenBlock elseBranch => by
    simp [Stmt.passage, Stmt.awaits, condition.awaitsHere_passage ctx,
      thenBlock.awaitsHere_passage ctx.deeper, elseBranch.awaitsHere_passage ctx]
  | .whileLoop _ condition body | .untilLoop _ condition body => by
    simp [Stmt.passage, Stmt.awaits, condition.awaitsHere_passage ctx,
      body.awaitsHere_passage ctx.deeper]
  | .block _ body => by
    simp [Stmt.passage, Stmt.awaits, body.awaitsHere_passage ctx.deeper]
  | .expr _ value => by
    simp [Stmt.passage, Stmt.awaits, value.awaitsHere_passage ctx]

theorem Block.awaitsHere_passage (ctx : Context) : ∀ b : Block,
    (b.passage ctx).awaitsHere = b.awaits
  | ⟨stmts, _⟩ => by
    rw [Block.passage, Block.awaits, awaitsHere_stmtsPassage ctx stmts]

theorem awaitsHere_stmtsPassage (ctx : Context) : ∀ stmts : List Stmt,
    (stmtsPassage ctx stmts).awaitsHere = awaitsAnyStmt stmts
  | [] => rfl
  | s :: rest => by
    simp [stmtsPassage, awaitsAnyStmt, s.awaitsHere_passage ctx, awaitsHere_stmtsPassage ctx rest]

theorem ElseBranch.awaitsHere_passage (ctx : Context) : ∀ b : ElseBranch,
    (b.passage ctx).awaitsHere = b.awaits
  | .none => rfl
  | .block body => by
    simp [ElseBranch.passage, ElseBranch.awaits, body.awaitsHere_passage ctx.deeper]
  | .elseIf condition thenBlock elseBranch => by
    simp [ElseBranch.passage, ElseBranch.awaits, condition.awaitsHere_passage ctx,
      thenBlock.awaitsHere_passage ctx.deeper, elseBranch.awaitsHere_passage ctx]

end

/-- The initial values of fields await in the constructor. -/
theorem awaitsHere_initPassages (ctx : Context) (members : List Member) :
    (initPassages ctx members).any Passage.awaitsHere =
      (members.filterMap Member.init?).any Expr.awaits := by
  induction members with
  | nil => rfl
  | cons m rest ih =>
    cases m with
    | field span name type? init? isDefault =>
      cases init? with
      | some init => simp [initPassages, Member.init?, init.awaitsHere_passage ctx, ih]
      | none => cases isDefault <;> simp [initPassages, Member.init?, ih]
    | _ => simp [initPassages, Member.init?, ih]

/-! ### Sound passages -/

namespace Script

section

variable {ctx : Context} {subject inside : Passage} {fields : List Passage}

theorem sound_namedTestPassage (h : subject.Sound) (name : String) :
    (namedTestPassage ctx subject name).Sound := by
  unfold namedTestPassage
  split
  · simp [h]
  split
  · simp [h]
  split
  · simp [h]
  split
  · simp [h]
  · simp [h]

theorem sound_typeTestPassage (h : subject.Sound) (type : TypeExpr) :
    (typeTestPassage ctx subject type).Sound := by
  fun_induction typeTestPassage ctx subject type with
  | case1 _ name _ => exact sound_namedTestPassage h name.name
  | case2 | case3 | case7 => simp [h]
  | case4 _ left right ihleft ihright => simp [ihleft, ihright]
  | case5 _ left right ihleft ihright => simp [ihleft, ihright]
  | case6 _ left right ihleft ihright => simp [ihleft, ihright]

theorem sound_receiverPassage (h : inside.Sound) (e : Expr) : (receiverPassage inside e).Sound := by
  unfold receiverPassage
  split <;> simp [h]

theorem sound_conditionPassage (h : inside.Sound) (e : Expr) :
    (conditionPassage inside e).Sound := by
  unfold conditionPassage
  split <;> simp [h]

theorem sound_statementPassage (h : inside.Sound) (e : Expr) :
    (statementPassage inside e).Sound := by
  unfold statementPassage
  split <;> simp [h]

theorem sound_objectPassage (h : ∀ p ∈ fields, p.Sound) : (objectPassage fields).Sound := by
  unfold objectPassage
  split
  · trivial
  · simp [Passage.sound_joined _ h]

end

/-- The constructor that a class without a declared one gets for its fields. -/
theorem sound_implicitConstructorPassage (ctx : Context) (hasBase : Bool) {all : List Member}
    {inits : List Passage} (hinits : ∀ p ∈ inits, p.Sound)
    (hawaits : inits.any Passage.awaitsHere = (all.filterMap Member.init?).any Expr.awaits)
    (hnone : all.findSome? Member.constructorBody? = none) :
    (implicitConstructorPassage ctx hasBase all inits).Sound := by
  unfold implicitConstructorPassage
  split
  · trivial
  · refine (Passage.sound_row _).mpr ⟨rfl, ?_, ?_⟩
    · cases hasBase <;> simp [Origin.awaits, Passage.awaitsHere_concat_rows, hnone, ← hawaits]
    · cases hasBase <;> simp [Passage.sound_concat_rows _ hinits]

end Script

mutual

/-- The functions of an expression are marked by what stands in them. -/
theorem Expr.sound_passage (ctx : Context) : ∀ e : Expr, (e.passage ctx).Sound
  | .number .. | .string .. | .bool .. | .name .. => trivial
  | .unary _ .await operand => operand.sound_passage ctx
  | .unary _ .neg operand | .unary _ .not operand => by
    simp [Expr.passage, operand.sound_passage ctx]
  | .binary _ _ left right | .assign _ left right => by
    simp [Expr.passage, left.sound_passage ctx, right.sound_passage ctx]
  | .index _ receiver position => by
    simp [Expr.passage, sound_receiverPassage (receiver.sound_passage ctx),
      position.sound_passage ctx]
  | .typeTest _ operand type guarded => by
    have htest : (typeTestPassage ctx (operand.passage ctx) type).Sound :=
      sound_typeTestPassage (operand.sound_passage ctx) type
    cases guarded <;>
      simp [Expr.passage, Passage.Sound, htest, awaitsHere_typeTestPassage,
        operand.awaitsHere_passage ctx]
  | .cast _ operand type guarded => by
    cases guarded <;>
      simp [Expr.passage, Passage.Sound, operand.sound_passage ctx, operand.awaitsHere_passage ctx]
  | .field _ receiver _ | .staticMember _ receiver _ => by
    simp [Expr.passage, sound_receiverPassage (receiver.sound_passage ctx)]
  | .call _ callee args none => by
    simp [Expr.passage, sound_receiverPassage (callee.sound_passage ctx),
      Passage.sound_joined _ (sound_exprPassages ctx args)]
  | .call _ callee args (some closure) => by
    have hclosure : (Passage.anonymous ctx (.closure closure) [] closure.awaits
        (closure.passage ctx.deeper)).Sound :=
      Passage.sound_rowFunction _ _ rfl (closure.awaitsHere_passage ctx.deeper)
        (closure.sound_passage ctx.deeper)
    have hargs := Passage.sound_joined _ (List.forall_mem_append.mpr
      ⟨sound_exprPassages ctx args, List.forall_mem_singleton.mpr hclosure⟩)
    simp [Expr.passage, sound_receiverPassage (callee.sound_passage ctx), hargs]
  | .array _ es | .new _ _ es => by
    simp [Expr.passage, Passage.sound_joined _ (sound_exprPassages ctx es)]
  | .object _ fields => by
    rw [Expr.passage]
    exact sound_objectPassage (sound_fieldPassages ctx fields)
  | .lambda _ params body => by
    rw [Expr.passage]
    exact Passage.sound_rowFunction _ _ rfl (body.awaitsHere_passage ctx.deeper)
      (body.sound_passage ctx.deeper)

theorem sound_exprPassages (ctx : Context) : ∀ es : List Expr,
    ∀ p ∈ exprPassages ctx es, p.Sound
  | [] => by simp [exprPassages]
  | e :: rest => by
    simp only [exprPassages, List.forall_mem_cons]
    exact ⟨e.sound_passage ctx, sound_exprPassages ctx rest⟩

theorem sound_fieldPassages (ctx : Context) : ∀ fields : List ObjectField,
    ∀ p ∈ fieldPassages ctx fields, p.Sound
  | [] => by simp [fieldPassages]
  | ⟨key, value, _⟩ :: rest => by
    simp only [fieldPassages, List.forall_mem_cons]
    exact ⟨by simp [value.sound_passage ctx], sound_fieldPassages ctx rest⟩

theorem Block.sound_passage (ctx : Context) : ∀ b : Block, (b.passage ctx).Sound
  | ⟨stmts, _⟩ => by
    rw [Block.passage]
    exact sound_stmtsPassage ctx stmts

theorem sound_stmtsPassage (ctx : Context) : ∀ stmts : List Stmt, (stmtsPassage ctx stmts).Sound
  | [] => trivial
  | s :: rest => by
    rw [stmtsPassage]
    exact ⟨s.sound_passage ctx, sound_stmtsPassage ctx rest⟩

theorem Stmt.sound_passage (ctx : Context) : ∀ s : Stmt, (s.passage ctx).Sound
  | .namespaceDecl .. | .usingDecl .. | .foreignDecl .. => trivial
  | .letDecl _ _ _ none _ | .ret _ none => trivial
  | .letDecl _ _ _ (some value) _ | .ret _ (some value) => by
    simp [Stmt.passage, value.sound_passage ctx]
  | .function _ name params _ _ body _ => by
    rw [Stmt.passage, Passage.sound_row]
    exact Passage.sound_rowFunction _ _ rfl (body.awaitsHere_passage ctx.deeper)
      (body.sound_passage ctx.deeper)
  | .classDecl _ ⟨.singleton, _, extends?, _, members, _⟩ => by
    have hconstructor (inside : Context) := sound_constructorPassage inside extends?.isSome
      (sound_initPassages inside members) (awaitsHere_initPassages inside members) members rfl
    have hmethods (inside : Context) := sound_methodsPassage inside members
    rw [Stmt.passage, Passage.sound_row]
    refine ⟨⟨by simp, rfl, ?_, ?_⟩, trivial⟩
    · simp [Origin.awaits, awaitsHere_constructorPassage, awaitsHere_methodsPassage]
    · simp [hconstructor, hmethods]
  | .classDecl _ ⟨.plain, _, extends?, _, members, _⟩
  | .classDecl _ ⟨.trait, _, extends?, _, members, _⟩ => by
    have hconstructor (inside : Context) := sound_constructorPassage inside extends?.isSome
      (sound_initPassages inside members) (awaitsHere_initPassages inside members) members rfl
    have hmethods (inside : Context) := sound_methodsPassage inside members
    simp [Stmt.passage, hconstructor, hmethods]
  | .ifElse _ condition thenBlock elseBranch => by
    simp [Stmt.passage, sound_conditionPassage (condition.sound_passage ctx),
      thenBlock.sound_passage ctx.deeper, elseBranch.sound_passage ctx]
  | .whileLoop _ condition body | .untilLoop _ condition body => by
    simp [Stmt.passage, sound_conditionPassage (condition.sound_passage ctx),
      body.sound_passage ctx.deeper]
  | .block _ body => by
    simp [Stmt.passage, body.sound_passage ctx.deeper]
  | .expr _ value => by
    simp [Stmt.passage, sound_statementPassage (value.sound_passage ctx)]

theorem ElseBranch.sound_passage (ctx : Context) : ∀ b : ElseBranch, (b.passage ctx).Sound
  | .none => trivial
  | .block body => by
    simp [ElseBranch.passage, body.sound_passage ctx.deeper]
  | .elseIf condition thenBlock elseBranch => by
    simp [ElseBranch.passage, sound_conditionPassage (condition.sound_passage ctx),
      thenBlock.sound_passage ctx.deeper, elseBranch.sound_passage ctx]

theorem sound_initPassages (ctx : Context) : ∀ members : List Member,
    ∀ p ∈ initPassages ctx members, p.Sound
  | [] => by simp [initPassages]
  | .field _ _ _ (some init) _ :: rest => by
    simp only [initPassages, List.forall_mem_cons]
    exact ⟨by simp [init.sound_passage ctx], sound_initPassages ctx rest⟩
  | .field _ _ _ none true :: rest => by
    simp only [initPassages, List.forall_mem_cons]
    exact ⟨by simp, sound_initPassages ctx rest⟩
  | .field _ _ _ none false :: rest => by
    simpa [initPassages] using sound_initPassages ctx rest
  | .constructor .. :: rest => by
    simpa [initPassages] using sound_initPassages ctx rest
  | .method .. :: rest => by
    simpa [initPassages] using sound_initPassages ctx rest

-- Members that have been passed over have no constructor among them.
theorem sound_constructorPassage (ctx : Context) (hasBase : Bool) {all : List Member}
    {inits : List Passage} (hinits : ∀ p ∈ inits, p.Sound)
    (hawaits : inits.any Passage.awaitsHere = (all.filterMap Member.init?).any Expr.awaits) :
    ∀ members : List Member,
      all.findSome? Member.constructorBody? = members.findSome? Member.constructorBody? →
      (constructorPassage ctx hasBase all inits members).Sound
  | [], hfirst => sound_implicitConstructorPassage ctx hasBase hinits hawaits hfirst
  | .constructor _ params body :: _, hfirst => by
    have hbody : all.findSome? Member.constructorBody? = some body := hfirst
    refine (Passage.sound_row _).mpr ⟨rfl, ?_, ?_⟩
    · cases hasBase <;> simp [Origin.awaits, Passage.awaitsHere_concat_rows, hbody, ← hawaits,
        body.awaitsHere_passage ctx.deeper]
    · cases hasBase <;> simp [Passage.sound_concat_rows _ hinits, body.sound_passage ctx.deeper]
  | .field .. :: rest, hfirst => by
    rw [constructorPassage]
    · exact sound_constructorPassage ctx hasBase hinits hawaits rest hfirst
    · simp
  | .method .. :: rest, hfirst => by
    rw [constructorPassage]
    · exact sound_constructorPassage ctx hasBase hinits hawaits rest hfirst
    · simp

theorem sound_methodsPassage (ctx : Context) : ∀ members : List Member,
    (methodsPassage ctx members).Sound
  | [] => trivial
  | .method _ name params _ _ (some body) :: rest => by
    have hmethod (head : String) : (Passage.rowFunction ctx (.method body) body.awaits head
        (body.passage ctx.deeper)).Sound :=
      Passage.sound_rowFunction _ _ rfl (body.awaitsHere_passage ctx.deeper)
        (body.sound_passage ctx.deeper)
    cases hself : isInstanceParams params <;>
      simp [methodsPassage, hself, hmethod, sound_methodsPassage ctx rest]
  | .method _ _ _ _ _ none :: rest => by
    simpa [methodsPassage] using sound_methodsPassage ctx rest
  | .constructor .. :: rest => by
    simpa [methodsPassage] using sound_methodsPassage ctx rest
  | .field .. :: rest => by
    simpa [methodsPassage] using sound_methodsPassage ctx rest

end

theorem Script.sound_topLevelPassage (options : Options) (files : List String) (ctx : Context)
    (s : Stmt) : (topLevelPassage options files ctx s).Sound := by
  unfold topLevelPassage
  split
  · trivial
  · split
    · exact ⟨trivial, s.sound_passage ctx⟩
    · exact ⟨trivial, s.sound_passage ctx⟩

/-- The functions of a whole script are sound. -/
theorem Script.sound_programPassage (options : Options) (files : List String) (program : Program) :
    (programPassage options files program).Sound := by
  refine ⟨Passage.sound_concat _ (List.forall_mem_map.mpr fun s _ => ?_), trivial⟩
  exact sound_topLevelPassage options files _ s

end ScriptCompiler
