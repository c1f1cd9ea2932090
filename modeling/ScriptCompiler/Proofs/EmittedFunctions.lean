import ScriptCompiler.Proofs.AsyncMarks

/-!
# Functions of what is written

A passage contains other passages, and of the functions around one of these there is an innermost.
In a sound passage an `await` has that function marked. What is written for a part of a program
contains what is written for the parts inside it, and the functions that those parts are.
-/

namespace ScriptCompiler

namespace Script

/-- The part of the program whose `await` decides about the mark. -/
def Origin.body? : Origin → Option Node
  | .declaration body | .method body | .lambda body | .closure body => some (.block body)
  | .guard operand => some (.expr operand)
  | .constructor _ | .singleton => none

namespace Passage

/-- The function that the passage is, with its mark. -/
def function? : Passage → Option (Origin × Bool)
  | .guard operand isAsync _ _ => some (.guard operand, isAsync)
  | .function origin isAsync _ _ _ => some (origin, isAsync)
  | _ => none

/-- Is the passage an `await` expression? The wrapper of a test or cast is awaited if it is
    asynchronous. -/
def isAwait : Passage → Bool
  | .await _ => true
  | .guard _ isAsync _ _ => isAsync
  | _ => false

/-- The passage `q` stands in the passage `p`; of the functions of `p` that it stands in,
    `enclosing?` is the innermost one. -/
inductive Holds : (p : Passage) → (enclosing? : Option (Origin × Bool)) → (q : Passage) → Prop where
  | here {p : Passage} : Holds p none p
  | first {a b q : Passage} {enclosing? : Option (Origin × Bool)} (h : Holds a enclosing? q) :
      Holds (.append a b) enclosing? q
  | second {a b q : Passage} {enclosing? : Option (Origin × Bool)} (h : Holds b enclosing? q) :
      Holds (.append a b) enclosing? q
  | operand {a q : Passage} {enclosing? : Option (Origin × Bool)} (h : Holds a enclosing? q) :
      Holds (.await a) enclosing? q
  | guarded {operand : Expr} {isAsync : Bool} {inside q : Passage} {fallback : String}
      {enclosing? : Option (Origin × Bool)} (h : Holds inside enclosing? q) :
      Holds (.guard operand isAsync inside fallback)
        (some (enclosing?.getD (.guard operand, isAsync))) q
  | body {origin : Origin} {isAsync : Bool} {head tail : String} {inside q : Passage}
      {enclosing? : Option (Origin × Bool)} (h : Holds inside enclosing? q) :
      Holds (.function origin isAsync head inside tail)
        (some (enclosing?.getD (origin, isAsync))) q

variable {p q r : Passage} {enclosing? : Option (Origin × Bool)}

theorem Sound.of_holds (hp : p.Sound) (h : p.Holds enclosing? q) : q.Sound := by
  induction h with
  | here => exact hp
  | first _ ih => exact ih hp.1
  | second _ ih => exact ih hp.2
  | operand _ ih => exact ih hp
  | guarded _ ih => exact ih hp.2.2
  | body _ ih => exact ih hp.2.2

/-- The function that a sound passage is has the mark that its origin asks for. -/
theorem Sound.mark (hp : p.Sound) {origin : Origin} {isAsync : Bool}
    (h : p.function? = some (origin, isAsync)) : isAsync = origin.isAsync := by
  unfold function? at h
  split at h
  · obtain ⟨rfl, rfl⟩ := Prod.mk.inj (Option.some.inj h)
    rw [hp.1]
    rfl
  · obtain ⟨rfl, rfl⟩ := Prod.mk.inj (Option.some.inj h)
    exact hp.1
  · cases h

/-- Around an `await` of the passage `p` stands no function of `p`, or this one is the innermost:
    it has its proper mark, and an `await` belongs to it. -/
def AwaitPlace (p : Passage) : Option (Origin × Bool) → Prop
  | none => p.awaitsHere = true
  | some (origin, isAsync) => isAsync = origin.isAsync ∧ origin.awaits = true

/-- What stands inside a function stands right in it or in a function inside of it. -/
theorem AwaitPlace.enclose {inside : Passage} (h : inside.AwaitPlace enclosing?) {origin : Origin}
    {isAsync : Bool} (hmark : isAsync = origin.isAsync)
    (hawaits : inside.awaitsHere = origin.awaits) :
    p.AwaitPlace (some (enclosing?.getD (origin, isAsync))) := by
  cases enclosing? with
  | none => exact ⟨hmark, hawaits.symm.trans h⟩
  | some enclosing => exact h

theorem Holds.awaitPlace (h : p.Holds enclosing? q) (hp : p.Sound) (hq : q.isAwait = true) :
    p.AwaitPlace enclosing? := by
  induction h with
  | @here p =>
    cases p with
    | await operand => rfl
    | guard operand isAsync inside fallback => exact hq
    | text | append | function => cases hq
  | @first a b q enclosing? _ ih =>
    cases enclosing? with
    | none => exact Bool.or_eq_true_iff.mpr (.inl (ih hp.1 hq))
    | some enclosing => exact ih hp.1 hq
  | @second a b q enclosing? _ ih =>
    cases enclosing? with
    | none => exact Bool.or_eq_true_iff.mpr (.inr (ih hp.2 hq))
    | some enclosing => exact ih hp.2 hq
  | @operand a q enclosing? _ ih =>
    cases enclosing? with
    | none => rfl
    | some enclosing => exact ih hp hq
  | guarded _ ih =>
    have hmark : _ = (Origin.guard _).isAsync := hp.1
    exact (ih hp.2.2 hq).enclose hmark hp.2.1
  | body _ ih => exact (ih hp.2.2 hq).enclose hp.1 hp.2.1

/-- The passage stands somewhere in another one. -/
def Contains (p q : Passage) : Prop :=
  ∃ enclosing?, p.Holds enclosing? q

namespace Contains

variable {ctx : Context} {passages : List Passage}

theorem refl (p : Passage) : p.Contains p :=
  ⟨none, .here⟩

theorem left (h : p.Contains r) : (p ++ q).Contains r := by
  obtain ⟨enclosing?, h⟩ := h
  exact ⟨enclosing?, .first h⟩

theorem right (h : q.Contains r) : (p ++ q).Contains r := by
  obtain ⟨enclosing?, h⟩ := h
  exact ⟨enclosing?, .second h⟩

theorem await (h : p.Contains q) : (Passage.await p).Contains q := by
  obtain ⟨enclosing?, h⟩ := h
  exact ⟨enclosing?, .operand h⟩

theorem guard (h : p.Contains q) (operand : Expr) (isAsync : Bool) (fallback : String) :
    (Passage.guard operand isAsync p fallback).Contains q := by
  obtain ⟨_, h⟩ := h
  exact ⟨_, .guarded h⟩

theorem rowFunction (h : p.Contains q) (origin : Origin) (isAsync : Bool) (head : String) :
    (rowFunction ctx origin isAsync head p).Contains q := by
  obtain ⟨_, h⟩ := h
  exact ⟨_, .body h⟩

theorem trans (h : p.Contains q) (h' : q.Contains r) : p.Contains r := by
  obtain ⟨enclosing?, h⟩ := h
  induction h with
  | here => exact h'
  | first _ ih => exact (ih h').left
  | second _ ih => exact (ih h').right
  | operand _ ih => exact (ih h').await
  | guarded _ ih => exact (ih h').guard _ _ _
  | body _ ih =>
    obtain ⟨_, h⟩ := ih h'
    exact ⟨_, .body h⟩

theorem row (h : p.Contains q) : (row ctx p).Contains q :=
  h.right.left

theorem joined (hp : p ∈ passages) (h : p.Contains q) : (joined passages).Contains q := by
  fun_induction Passage.joined passages with
  | case1 => exact absurd hp List.not_mem_nil
  | case2 last =>
    rw [List.mem_singleton.mp hp] at h
    exact h
  | case3 first rest _ ih =>
    rcases List.mem_cons.mp hp with rfl | hp
    · exact h.left.left
    · exact (ih hp).right

theorem concat (hp : p ∈ passages) (h : p.Contains q) : (concat passages).Contains q := by
  induction passages with
  | nil => exact absurd hp List.not_mem_nil
  | cons first rest ih =>
    rcases List.mem_cons.mp hp with rfl | hp
    · exact h.left
    · exact (ih hp).right

theorem receiver (h : p.Contains q) (e : Expr) : (receiverPassage p e).Contains q := by
  unfold receiverPassage
  split
  · exact h.right.left
  · exact h.right.left
  · exact h.right.left
  · exact h

theorem condition (h : p.Contains q) (e : Expr) : (conditionPassage p e).Contains q := by
  unfold conditionPassage
  split
  · exact h
  · exact h
  · exact h
  · exact h
  · exact h.right.left

theorem statement (h : p.Contains q) (e : Expr) : (statementPassage p e).Contains q := by
  unfold statementPassage
  split
  · exact h.right.left
  · exact h.right.left
  · exact h.left

theorem object (hp : p ∈ passages) (h : p.Contains q) : (objectPassage passages).Contains q := by
  unfold objectPassage
  split
  · exact absurd hp List.not_mem_nil
  · exact (joined hp h).right.left

/-- A test repeats its subject for each operand of a type, but at least once. -/
theorem typeTest (h : p.Contains q) (type : TypeExpr) :
    (typeTestPassage ctx p type).Contains q := by
  fun_induction typeTestPassage ctx p type with
  | case1 =>
    unfold namedTestPassage
    split
    · exact h.right.left
    split
    · exact h.right.left
    split
    · exact h.right.left
    split
    · exact h.right.left
    · exact h.right.left
  | case2 | case3 | case7 => exact h.right.left
  | case4 _ left right ih _ => exact ih.right.left.left.left
  | case5 _ left right ih _ => exact ih.right.left.left.left
  | case6 _ left right ih _ => exact ih.right.left.left.left

end Contains

end Passage

end Script

/-! ### Written parts -/

def Member.methodBody? : Member → Option Block
  | .method _ _ _ _ _ body? => body?
  | _ => none

/-- Fields with an initial value, be it the default value of their type. -/
def Member.hasInit : Member → Bool
  | .field _ _ _ init? isDefault => init?.isSome || isDefault
  | _ => false

namespace Node

/-- The parts right inside a part for which something is written. Of the constructors of a class
    only the first one counts, and nothing is written for types. -/
def writtenParts : Node → List Node
  | .stmt (.classDecl _ decl) =>
    (decl.members.filterMap Member.init?).map .expr
      ++ (decl.members.findSome? Member.constructorBody?).toList.map .block
      ++ (decl.members.filterMap Member.methodBody?).map .block
  | .expr (.typeTest _ operand _ _) | .expr (.cast _ operand _ _) => [.expr operand]
  | .type _ | .member _ => []
  | n => n.children.map Child.node

/-- Something is written for the part `m` inside what is written for the part `n`. -/
inductive Writes : (n m : Node) → Prop where
  | here {n : Node} : Writes n n
  | inside {n part m : Node} (hpart : part ∈ n.writtenParts) (h : Writes part m) : Writes n m

/-- The context of what stands right inside of a part: the members of a class stand in it. -/
def contextAround (ctx : Script.Context) : Node → Script.Context
  | .stmt (.classDecl _ decl) => Script.classContext ctx decl.emittedName decl.kind
  | _ => ctx

/-- The context of a part right inside of the part `n`: a block stands one level further in. -/
def partContext (ctx : Script.Context) (n : Node) : (part : Node) → Script.Context
  | .block _ => (n.contextAround ctx).deeper
  | _ => n.contextAround ctx

/-- If the part `n` is written in the context `ctx`, then inside of it the part `m` is written in
    the context `inner`. -/
inductive WritesIn : (ctx : Script.Context) → (n : Node) → (inner : Script.Context) → (m : Node) →
    Prop where
  | here {ctx : Script.Context} {n : Node} : WritesIn ctx n ctx n
  | inside {ctx inner : Script.Context} {n part m : Node} (hpart : part ∈ n.writtenParts)
      (h : WritesIn (partContext ctx n part) part inner m) : WritesIn ctx n inner m

/-- Each part that is written is written in some context. -/
theorem Writes.exists_writesIn {n m : Node} (h : n.Writes m) (ctx : Script.Context) :
    ∃ inner, WritesIn ctx n inner m := by
  induction h generalizing ctx with
  | here => exact ⟨ctx, .here⟩
  | inside hpart _ ih =>
    obtain ⟨inner, h⟩ := ih (partContext ctx _ _)
    exact ⟨inner, .inside hpart h⟩

theorem WritesIn.writes {ctx inner : Script.Context} {n m : Node} (h : WritesIn ctx n inner m) :
    n.Writes m := by
  induction h with
  | here => exact .here
  | inside hpart _ ih => exact .inside hpart ih

/-- What is written for a part. -/
def passage (ctx : Script.Context) : Node → Script.Passage
  | .expr e => e.passage ctx
  | .block b => b.passage ctx
  | .stmt s => s.passage ctx
  | .elseBranch b => b.passage ctx
  | .type _ | .member _ => ""

/-- The functions that a part is written as. A class is written as its methods, and as a constructor
    if it declares one or if a field has an initial value. A singleton hides its class in a function
    of its own. -/
def functions : Node → List Script.Origin
  | .expr (.lambda _ _ body) => [.lambda body]
  | .expr (.call _ _ _ (some closure)) => [.closure closure]
  | .expr (.typeTest _ operand _ true) | .expr (.cast _ operand _ true) => [.guard operand]
  | .stmt (.function _ _ _ _ _ body _) => [.declaration body]
  | .stmt (.classDecl _ decl) =>
    (if decl.kind = .singleton then [.singleton] else [])
      ++ (if decl.members.any fun m => m.isConstructor || m.hasInit then [.constructor decl.members]
        else [])
      ++ (decl.members.filterMap Member.methodBody?).map .method
  | _ => []

end Node

open Script Passage

theorem exprPassages_eq (ctx : Context) (es : List Expr) :
    exprPassages ctx es = es.map (Expr.passage ctx) := by
  induction es with
  | nil => rfl
  | cons e rest ih => rw [exprPassages, ih, List.map_cons]

theorem contains_exprPassages {ctx : Context} {es : List Expr} {e : Expr} (he : e ∈ es) :
    (joined (exprPassages ctx es)).Contains (e.passage ctx) := by
  rw [exprPassages_eq]
  exact .joined (List.mem_map_of_mem he) (.refl _)

theorem mem_fieldPassages {ctx : Context} {fields : List ObjectField} {field : ObjectField}
    (h : field ∈ fields) :
    ∃ p ∈ fieldPassages ctx fields, p.Contains (field.value.passage ctx) := by
  induction fields with
  | nil => exact absurd h List.not_mem_nil
  | cons first rest ih =>
    obtain ⟨key, value, span⟩ := first
    rw [fieldPassages]
    rcases List.mem_cons.mp h with rfl | h
    · exact ⟨_, List.mem_cons_self, (Contains.refl _).right⟩
    · obtain ⟨p, hp, hcontains⟩ := ih h
      exact ⟨p, List.mem_cons_of_mem _ hp, hcontains⟩

theorem contains_stmtsPassage {ctx : Context} {stmts : List Stmt} {s : Stmt} (h : s ∈ stmts) :
    (stmtsPassage ctx stmts).Contains (s.passage ctx) := by
  induction stmts with
  | nil => exact absurd h List.not_mem_nil
  | cons first rest ih =>
    rw [stmtsPassage]
    rcases List.mem_cons.mp h with rfl | h
    · exact (Contains.refl _).left
    · exact (ih h).right

/-- What is written for an expression holds what is written for its parts. -/
theorem Expr.contains_part (ctx : Context) {e : Expr} {part : Node}
    (h : part ∈ (Node.expr e).writtenParts) :
    (e.passage ctx).Contains (part.passage (Node.partContext ctx (.expr e) part)) := by
  cases e with
  | number | string | bool | name => exact absurd h List.not_mem_nil
  | binary span op left right =>
    rcases List.mem_cons.mp h with rfl | h
    · exact (Contains.refl _).right.left.left.left
    · rw [List.mem_singleton.mp h]
      exact (Contains.refl _).right.left
  | unary span op operand =>
    rw [List.mem_singleton.mp h]
    cases op with
    | await => exact (Contains.refl _).await
    | neg | not => exact (Contains.refl _).right.left
  | assign span target value =>
    rcases List.mem_cons.mp h with rfl | h
    · exact (Contains.refl _).right.left.left.left
    · rw [List.mem_singleton.mp h]
      exact (Contains.refl _).right.left
  | typeTest span operand type guarded =>
    rw [List.mem_singleton.mp h]
    cases guarded with
    | true => exact ((Contains.refl _).typeTest type).guard _ _ _
    | false => exact (Contains.refl _).typeTest type
  | cast span operand type guarded =>
    rw [List.mem_singleton.mp h]
    cases guarded with
    | true => exact (Contains.refl _).guard _ _ _
    | false => exact .refl _
  | call span callee args closure? =>
    obtain ⟨child, hchild, rfl⟩ := List.mem_map.mp h
    rcases List.mem_append.mp hchild with hchild | hchild
    · rcases List.mem_cons.mp hchild with rfl | hchild
      · cases closure? <;> exact ((Contains.refl _).receiver _).left.left.left
      · obtain ⟨arg, harg, rfl⟩ := List.mem_map.mp hchild
        cases closure? with
        | none => exact (contains_exprPassages harg).right.left
        | some closure =>
          have hin : arg.passage ctx ∈ exprPassages ctx args := by
            rw [exprPassages_eq]
            exact List.mem_map_of_mem harg
          exact (Contains.joined (List.mem_append_left _ hin) (.refl _)).right.left
    · obtain ⟨closure, hclosure, rfl⟩ := List.mem_map.mp hchild
      obtain rfl := Option.mem_toList.mp hclosure
      exact (Contains.joined (List.mem_append_right _ (List.mem_singleton_self _))
        ((Contains.refl _).rowFunction _ _ _)).right.left
  | field span receiver member | staticMember span receiver member =>
    rw [List.mem_singleton.mp h]
    exact ((Contains.refl _).receiver _).left
  | index span receiver position =>
    rcases List.mem_cons.mp h with rfl | h
    · exact ((Contains.refl _).receiver _).left.left.left
    · rw [List.mem_singleton.mp h]
      exact (Contains.refl _).right.left
  | array span elements =>
    obtain ⟨child, hchild, rfl⟩ := List.mem_map.mp h
    obtain ⟨element, helement, rfl⟩ := List.mem_map.mp hchild
    exact (contains_exprPassages helement).right.left
  | object span fields =>
    obtain ⟨child, hchild, rfl⟩ := List.mem_map.mp h
    obtain ⟨field, hfield, rfl⟩ := List.mem_map.mp hchild
    obtain ⟨p, hp, hcontains⟩ := mem_fieldPassages hfield
    exact .object hp hcontains
  | lambda span params body =>
    rw [List.mem_singleton.mp h]
    exact (Contains.refl _).rowFunction _ _ _
  | new span className args =>
    obtain ⟨child, hchild, rfl⟩ := List.mem_map.mp h
    obtain ⟨arg, harg, rfl⟩ := List.mem_map.mp hchild
    exact (contains_exprPassages harg).right.left

theorem Block.contains_part (ctx : Context) {b : Block} {part : Node}
    (h : part ∈ (Node.block b).writtenParts) :
    (b.passage ctx).Contains (part.passage (Node.partContext ctx (.block b) part)) := by
  cases b
  obtain ⟨child, hchild, rfl⟩ := List.mem_map.mp h
  obtain ⟨s, hs, hnode⟩ := mem_stmtChildren hchild
  rw [hnode]
  exact contains_stmtsPassage hs

theorem ElseBranch.contains_part (ctx : Context) {b : ElseBranch} {part : Node}
    (h : part ∈ (Node.elseBranch b).writtenParts) :
    (b.passage ctx).Contains (part.passage (Node.partContext ctx (.elseBranch b) part)) := by
  cases b with
  | none => exact absurd h List.not_mem_nil
  | block body =>
    rw [List.mem_singleton.mp h]
    exact (Contains.refl _).right
  | elseIf condition thenBlock elseBranch =>
    rcases List.mem_cons.mp h with rfl | h
    · exact ((Contains.refl _).condition _).right.left.row.left.left
    · rcases List.mem_cons.mp h with rfl | h
      · exact (Contains.refl _).right.left
      · rw [List.mem_singleton.mp h]
        exact (Contains.refl _).right

/-! ### Written classes -/

theorem contains_initPassages {ctx : Context} {members : List Member} {init : Expr}
    (h : init ∈ members.filterMap Member.init?) :
    ∃ p ∈ initPassages ctx members, p.Contains (init.passage ctx) := by
  induction members with
  | nil => exact absurd h List.not_mem_nil
  | cons m rest ih =>
    cases m with
    | field span name type? init? isDefault =>
      cases init? with
      | some value =>
        rw [initPassages]
        rcases List.mem_cons.mp h with rfl | h
        · exact ⟨_, List.mem_cons_self, (Contains.refl _).right.left⟩
        · obtain ⟨p, hp, hcontains⟩ := ih h
          exact ⟨p, List.mem_cons_of_mem _ hp, hcontains⟩
      | none =>
        obtain ⟨p, hp, hcontains⟩ := ih h
        refine ⟨p, ?_, hcontains⟩
        cases isDefault with
        | true => exact List.mem_cons_of_mem _ hp
        | false => exact hp
    | constructor | method => exact ih h

/-- The constructor of a class holds the initial values of its fields. -/
theorem contains_constructorPassage_init {ctx : Context} {hasBase : Bool} {all : List Member}
    {inits : List Passage} {p q : Passage} (hp : p ∈ inits) (h : p.Contains q)
    (members : List Member) : (constructorPassage ctx hasBase all inits members).Contains q := by
  have hinits : (concat (inits.map (row ctx.deeper))).Contains q :=
    .concat (List.mem_map_of_mem hp) h.row
  induction members with
  | nil =>
    rw [constructorPassage, implicitConstructorPassage]
    · exact (hinits.right.rowFunction _ _ _).row
    · rintro rfl
      exact absurd hp List.not_mem_nil
  | cons m rest ih =>
    cases m with
    | constructor span params body => exact ((hinits.right.left).rowFunction _ _ _).row
    | method | field => exact ih

/-- The constructor of a class holds the body of the first declared one. -/
theorem contains_constructorPassage_body {ctx : Context} {hasBase : Bool} {all : List Member}
    {inits : List Passage} {members : List Member} {body : Block}
    (h : members.findSome? Member.constructorBody? = some body) :
    (constructorPassage ctx hasBase all inits members).Contains (body.passage ctx.deeper) := by
  induction members with
  | nil => cases h
  | cons m rest ih =>
    cases m with
    | constructor span params own =>
      obtain rfl : own = body := Option.some.inj h
      exact ((Contains.refl _).right.rowFunction _ _ _).row
    | method | field => exact ih h

/-- Every method with a body is a function of the script. -/
theorem contains_methodsPassage {ctx : Context} {members : List Member} {body : Block}
    (h : body ∈ members.filterMap Member.methodBody?) :
    ∃ head, (methodsPassage ctx members).Contains
      (rowFunction ctx (.method body) body.awaits head (body.passage ctx.deeper)) := by
  induction members with
  | nil => exact absurd h List.not_mem_nil
  | cons m rest ih =>
    cases m with
    | method span name params returnType? effect? body? =>
      cases body? with
      | none => exact ih h
      | some own =>
        rcases List.mem_cons.mp h with rfl | h
        · exact ⟨_, (Contains.refl _).right.row.left⟩
        · obtain ⟨head, hcontains⟩ := ih h
          exact ⟨head, hcontains.right⟩
    | constructor | field => exact ih h

/-- A class of either kind is written with a constructor and with its methods. -/
theorem contains_class (ctx : Context) (span : Span) (decl : ClassDecl) :
    ∃ hasBase, ((Stmt.classDecl span decl).passage ctx).Contains
        (constructorPassage (classContext ctx decl.emittedName decl.kind) hasBase decl.members
          (initPassages (classContext ctx decl.emittedName decl.kind) decl.members)
          decl.members) ∧
      ((Stmt.classDecl span decl).passage ctx).Contains
        (methodsPassage (classContext ctx decl.emittedName decl.kind) decl.members) := by
  obtain ⟨kind, name, extends?, implements, members, uniqueName?⟩ := decl
  cases kind with
  | singleton =>
    exact ⟨_,
      ((Contains.refl _).right.left.left.left.left.rowFunction _ _ _).right.left.row,
      ((Contains.refl _).right.left.left.left.rowFunction _ _ _).right.left.row⟩
  | plain | trait =>
    exact ⟨_, (Contains.refl _).right.left.left.left, (Contains.refl _).right.left.left⟩

theorem initPassages_ne_nil {ctx : Context} {members : List Member} {m : Member}
    (hm : m ∈ members) (h : m.hasInit = true) : initPassages ctx members ≠ [] := by
  induction members with
  | nil => exact absurd hm List.not_mem_nil
  | cons first rest ih =>
    rcases List.mem_cons.mp hm with rfl | hrest
    · cases m with
      | field span name type? init? isDefault =>
        cases init? with
        | some init => exact List.cons_ne_nil _ _
        | none =>
          obtain rfl : isDefault = true := h
          exact List.cons_ne_nil _ _
      | constructor | method => cases h
    · have hinits := ih hrest
      cases first with
      | field span name type? init? isDefault =>
        cases init? with
        | some init => exact List.cons_ne_nil _ _
        | none =>
          cases isDefault with
          | true => exact List.cons_ne_nil _ _
          | false => exact hinits
      | constructor | method => exact hinits

/-- A constructor is written if one is declared or if there are initial values. -/
theorem contains_constructor {ctx : Context} {hasBase : Bool} {all members : List Member}
    {inits : List Passage} (h : (∃ m ∈ members, m.isConstructor = true) ∨ inits ≠ []) :
    ∃ head inside, (constructorPassage ctx hasBase all inits members).Contains
      (rowFunction ctx (.constructor all) false head inside) := by
  induction members with
  | nil =>
    have hinits : inits ≠ [] := by simpa using h
    rw [constructorPassage, implicitConstructorPassage]
    · exact ⟨_, _, (Contains.refl _).row⟩
    · exact hinits
  | cons m rest ih =>
    cases m with
    | constructor span params body => exact ⟨_, _, (Contains.refl _).row⟩
    | method | field => exact ih (by simpa [Member.isConstructor] using h)

/-- What is written for a statement holds what is written for its parts. -/
theorem Stmt.contains_part (ctx : Context) {s : Stmt} {part : Node}
    (h : part ∈ (Node.stmt s).writtenParts) :
    (s.passage ctx).Contains (part.passage (Node.partContext ctx (.stmt s) part)) := by
  cases s with
  | namespaceDecl | usingDecl | foreignDecl => exact absurd h List.not_mem_nil
  | letDecl span name type? init? uniqueName? =>
    obtain ⟨child, hchild, rfl⟩ := List.mem_map.mp h
    obtain ⟨init, hinit, rfl⟩ := List.mem_map.mp hchild
    obtain rfl := Option.mem_toList.mp hinit
    exact (Contains.refl _).right.left.row
  | ret span value? =>
    obtain ⟨child, hchild, rfl⟩ := List.mem_map.mp h
    obtain ⟨value, hvalue, rfl⟩ := List.mem_map.mp hchild
    obtain rfl := Option.mem_toList.mp hvalue
    exact (Contains.refl _).right.left.row
  | function span name params returnType? effect? body uniqueName? =>
    rw [List.mem_singleton.mp h]
    exact ((Contains.refl _).rowFunction _ _ _).row
  | classDecl span decl =>
    obtain ⟨hasBase, hconstructor, hmethods⟩ := contains_class ctx span decl
    rcases List.mem_append.mp h with h | h
    · rcases List.mem_append.mp h with h | h
      · obtain ⟨init, hinit, rfl⟩ := List.mem_map.mp h
        obtain ⟨p, hp, hcontains⟩ := contains_initPassages hinit
        exact hconstructor.trans (contains_constructorPassage_init hp hcontains _)
      · obtain ⟨body, hbody, rfl⟩ := List.mem_map.mp h
        exact hconstructor.trans
          (contains_constructorPassage_body (Option.mem_toList.mp hbody))
    · obtain ⟨body, hbody, rfl⟩ := List.mem_map.mp h
      obtain ⟨head, hcontains⟩ := contains_methodsPassage hbody
      exact hmethods.trans (hcontains.trans ((Contains.refl _).rowFunction _ _ _))
  | ifElse span condition thenBlock elseBranch =>
    rcases List.mem_cons.mp h with rfl | h
    · exact ((Contains.refl _).condition _).right.left.row.left.left.left
    · rcases List.mem_cons.mp h with rfl | h
      · exact (Contains.refl _).right.left.left
      · rw [List.mem_singleton.mp h]
        exact (Contains.refl _).right.left
  | whileLoop span condition body | untilLoop span condition body =>
    rcases List.mem_cons.mp h with rfl | h
    · exact ((Contains.refl _).condition _).right.left.row.left.left
    · rw [List.mem_singleton.mp h]
      exact (Contains.refl _).right.left
  | block span body =>
    rw [List.mem_singleton.mp h]
    exact (Contains.refl _).right.left
  | expr span value =>
    rw [List.mem_singleton.mp h]
    exact ((Contains.refl _).statement _).row

theorem Node.contains_part (ctx : Context) {n part : Node} (h : part ∈ n.writtenParts) :
    (n.passage ctx).Contains (part.passage (partContext ctx n part)) := by
  cases n with
  | expr e => exact e.contains_part ctx h
  | block b => exact b.contains_part ctx h
  | stmt s => exact s.contains_part ctx h
  | elseBranch b => exact b.contains_part ctx h
  | type | member => exact absurd h List.not_mem_nil

/-- What is written for a part holds what is written for the parts at any depth. -/
theorem Node.WritesIn.contains {ctx inner : Context} {n m : Node} (h : WritesIn ctx n inner m) :
    (n.passage ctx).Contains (m.passage inner) := by
  induction h with
  | here => exact .refl _
  | inside hpart _ ih => exact (Node.contains_part _ hpart).trans ih

/-- The functions that a part is written as stand in what is written for it. -/
theorem Node.contains_function (ctx : Context) {n : Node} {origin : Origin}
    (h : origin ∈ n.functions) :
    ∃ q isAsync, (n.passage ctx).Contains q ∧ q.function? = some (origin, isAsync) := by
  unfold functions at h
  split at h
  · obtain rfl := List.mem_singleton.mp h
    exact ⟨_, _, .refl _, rfl⟩
  · obtain rfl := List.mem_singleton.mp h
    exact ⟨_, _, (Contains.joined (List.mem_append_right _ (List.mem_singleton_self _))
      (.refl _)).right.left, rfl⟩
  · obtain rfl := List.mem_singleton.mp h
    exact ⟨_, _, .refl _, rfl⟩
  · obtain rfl := List.mem_singleton.mp h
    exact ⟨_, _, .refl _, rfl⟩
  · obtain rfl := List.mem_singleton.mp h
    exact ⟨_, _, (Contains.refl _).row, rfl⟩
  · rename_i span decl
    obtain ⟨hasBase, hconstructor, hmethods⟩ := contains_class ctx span decl
    rcases List.mem_append.mp h with h | h
    · rcases List.mem_append.mp h with h | h
      · split at h
        · rename_i hsingleton
          obtain rfl := List.mem_singleton.mp h
          obtain ⟨kind, name, extends?, implements, members, uniqueName?⟩ := decl
          obtain rfl : kind = .singleton := hsingleton
          exact ⟨_, _, (Contains.refl _).right.left.row, rfl⟩
        · exact absurd h List.not_mem_nil
      split at h
      · rename_i hdeclared
        obtain rfl := List.mem_singleton.mp h
        obtain ⟨m, hm, hmember⟩ := List.any_eq_true.mp hdeclared
        have hwritten : (∃ m ∈ decl.members, m.isConstructor = true) ∨
            initPassages (classContext ctx decl.emittedName decl.kind) decl.members ≠ [] := by
          rcases Bool.or_eq_true_iff.mp hmember with hmember | hmember
          · exact .inl ⟨m, hm, hmember⟩
          · exact .inr (initPassages_ne_nil hm hmember)
        obtain ⟨head, body, hcontains⟩ := contains_constructor hwritten
        exact ⟨_, _, hconstructor.trans hcontains, rfl⟩
      · exact absurd h List.not_mem_nil
    · obtain ⟨body, hbody, rfl⟩ := List.mem_map.mp h
      obtain ⟨head, hcontains⟩ := contains_methodsPassage hbody
      exact ⟨_, _, hmethods.trans hcontains, rfl⟩
  · exact absurd h List.not_mem_nil

end ScriptCompiler
