import ScriptCompiler.Proofs.EmittedFunctions

/-!
# The origins of functions

Every function, method, lambda and trailing closure of a program that is written at all is a
function of the script, and so is the wrapper of every tolerant test and cast. Nothing else is one:
each function of the script is what some part of the program is written as. A function is
asynchronous if and only if an `await` belongs to it. So the innermost function around an `await` of
the script is asynchronous, unless it is a constructor, which cannot be.
-/

namespace ScriptCompiler

namespace Script.Passage

/-- What the functions of a passage have been made of. -/
def origins : Passage → List Origin
  | .text _ => []
  | .append first second => first.origins ++ second.origins
  | .await operand => operand.origins
  | .guard operand _ inside _ => .guard operand :: inside.origins
  | .function origin _ _ inside _ => origin :: inside.origins

variable {ctx : Context} {origin : Origin} {p q : Passage} {passages : List Passage}

@[simp] theorem origins_text (written : String) : (Passage.text written).origins = [] := rfl

@[simp] theorem origins_append (p q : Passage) : (p ++ q).origins = p.origins ++ q.origins := rfl

@[simp] theorem origins_row (ctx : Context) (p : Passage) : (row ctx p).origins = p.origins := by
  simp [row]

@[simp] theorem origins_rowFunction (ctx : Context) (origin : Origin) (isAsync : Bool)
    (head : String) (p : Passage) :
    (rowFunction ctx origin isAsync head p).origins = origin :: p.origins := rfl

@[simp] theorem origins_receiverPassage (p : Passage) (e : Expr) :
    (receiverPassage p e).origins = p.origins := by
  unfold receiverPassage
  split <;> simp

@[simp] theorem origins_conditionPassage (p : Passage) (e : Expr) :
    (conditionPassage p e).origins = p.origins := by
  unfold conditionPassage
  split <;> simp

@[simp] theorem origins_statementPassage (p : Passage) (e : Expr) :
    (statementPassage p e).origins = p.origins := by
  unfold statementPassage
  split <;> simp

theorem mem_origins_joined :
    origin ∈ (joined passages).origins ↔ ∃ p ∈ passages, origin ∈ p.origins := by
  fun_induction joined passages with
  | case1 => simp
  | case2 last => simp
  | case3 first rest _ ih => simp [ih]

theorem mem_origins_concat :
    origin ∈ (concat passages).origins ↔ ∃ p ∈ passages, origin ∈ p.origins := by
  induction passages with
  | nil => simp [concat]
  | cons first rest ih => simp [concat, ih]

theorem mem_origins_objectPassage :
    origin ∈ (objectPassage passages).origins ↔ ∃ p ∈ passages, origin ∈ p.origins := by
  unfold objectPassage
  split
  · simp
  · simp [mem_origins_joined]

/-- A test has no functions but those of its subject. -/
theorem mem_origins_of_typeTest {type : TypeExpr}
    (h : origin ∈ (typeTestPassage ctx p type).origins) : origin ∈ p.origins := by
  fun_induction typeTestPassage ctx p type with
  | case1 =>
    unfold namedTestPassage at h
    split_ifs at h <;> simpa using h
  | case2 | case3 | case7 => simpa using h
  | case4 _ left right ihleft ihright | case5 _ left right ihleft ihright
  | case6 _ left right ihleft ihright =>
    simp only [origins_append, origins_text, List.nil_append, List.append_nil,
      List.mem_append] at h
    exact h.elim ihleft ihright

/-- The functions that stand in a passage. -/
theorem Contains.mem_origins {isAsync : Bool} (h : p.Contains q)
    (hq : q.function? = some (origin, isAsync)) : origin ∈ p.origins := by
  obtain ⟨_, h⟩ := h
  induction h with
  | here =>
    unfold function? at hq
    split at hq
    · cases hq
      exact List.mem_cons_self
    · cases hq
      exact List.mem_cons_self
    · cases hq
  | first _ ih => exact List.mem_append_left _ (ih hq)
  | second _ ih => exact List.mem_append_right _ (ih hq)
  | operand _ ih => exact ih hq
  | guarded _ ih | body _ ih => exact List.mem_cons_of_mem _ (ih hq)

end Script.Passage

/-! ### Where the functions of a part come from -/

namespace Node

/-- What is written for a part is written for its children, or for the children of a member. -/
theorem exists_child_of_written {n part : Node} (h : part ∈ n.writtenParts) :
    ∃ child ∈ n.children, part = child.node ∨ ∃ inner ∈ child.node.children, part = inner.node := by
  have hmember : ∀ {span decl} {m : Member}, m ∈ decl.members →
      ∀ inner ∈ m.children, ∃ child ∈ (Node.stmt (.classDecl span decl)).children,
        inner.node = child.node ∨ ∃ own ∈ child.node.children, inner.node = own.node := by
    intro span decl m hm inner hinner
    obtain ⟨kind, name, extends?, implements, members, uniqueName?⟩ := decl
    exact ⟨_, List.mem_append_right _ (List.mem_map_of_mem hm), .inr ⟨inner, hinner, rfl⟩⟩
  unfold writtenParts at h
  split at h
  · rcases List.mem_append.mp h with h | h
    · rcases List.mem_append.mp h with h | h
      · obtain ⟨init, hinit, rfl⟩ := List.mem_map.mp h
        obtain ⟨m, hm, hm'⟩ := List.mem_filterMap.mp hinit
        cases m with
        | field span name type? init? isDefault =>
          obtain rfl : init? = some init := hm'
          exact hmember hm (.plain (.expr init)) List.mem_cons_self
        | constructor | method => cases hm'
      · obtain ⟨body, hbody, rfl⟩ := List.mem_map.mp h
        obtain ⟨m, hm, hm'⟩ := List.exists_of_findSome?_eq_some (Option.mem_toList.mp hbody)
        cases m with
        | constructor span params own =>
          obtain rfl : own = body := Option.some.inj hm'
          exact hmember hm (.body params own) List.mem_cons_self
        | field | method => cases hm'
    · obtain ⟨body, hbody, rfl⟩ := List.mem_map.mp h
      obtain ⟨m, hm, hm'⟩ := List.mem_filterMap.mp hbody
      cases m with
      | method span name params returnType? effect? body? =>
        obtain rfl : body? = some body := hm'
        exact hmember hm (.body params body) List.mem_cons_self
      | field | constructor => cases hm'
  · exact ⟨_, List.mem_cons_self, .inl (List.mem_singleton.mp h)⟩
  · exact ⟨_, List.mem_cons_self, .inl (List.mem_singleton.mp h)⟩
  · exact absurd h List.not_mem_nil
  · exact absurd h List.not_mem_nil
  · obtain ⟨child, hchild, rfl⟩ := List.mem_map.mp h
    exact ⟨child, hchild, .inl rfl⟩

/-- Induction over what is written. -/
theorem written_induction {motive : Node → Prop} (n : Node)
    (h : ∀ n : Node, (∀ part ∈ n.writtenParts, motive part) → motive n) : motive n :=
  h n fun part _hpart => written_induction part h
termination_by sizeOf n
decreasing_by
  obtain ⟨child, hchild, rfl | ⟨inner, hinner, rfl⟩⟩ := exists_child_of_written _hpart
  · exact sizeOf_child hchild
  · exact Nat.lt_trans (sizeOf_child hinner) (sizeOf_child hchild)

/-- What holds of all parts of a part holds of all parts of what is written for it. -/
theorem Every.writes {P : Node → Prop} {n m : Node} (h : n.Every P) (hm : n.Writes m) :
    m.Every P := by
  induction hm with
  | here => exact h
  | inside hpart _ ih =>
    obtain ⟨child, hchild, rfl | ⟨inner, hinner, rfl⟩⟩ := exists_child_of_written hpart
    · exact ih (h.child hchild)
    · exact ih ((h.child hchild).child hinner)

/-- The function is one that the part is written as, or stands in what is written for a part right
    inside. -/
def Accounts (n : Node) (origin : Script.Origin) : Prop :=
  origin ∈ n.functions ∨ ∃ part ∈ n.writtenParts, ∃ ctx, origin ∈ (part.passage ctx).origins

theorem Accounts.ofPart {n part : Node} {origin : Script.Origin} {ctx : Script.Context}
    (hpart : part ∈ n.writtenParts) (h : origin ∈ (part.passage ctx).origins) :
    n.Accounts origin :=
  .inr ⟨part, hpart, ctx, h⟩

end Node

open Script Passage
open Node (Accounts)

variable {ctx : Context} {origin : Origin}

theorem mem_origins_exprPassages {es : List Expr} :
    (∃ p ∈ exprPassages ctx es, origin ∈ p.origins) ↔
      ∃ e ∈ es, origin ∈ (e.passage ctx).origins := by
  simp [exprPassages_eq]

theorem mem_origins_fieldPassages {fields : List ObjectField} :
    (∃ p ∈ fieldPassages ctx fields, origin ∈ p.origins) ↔
      ∃ field ∈ fields, origin ∈ (field.value.passage ctx).origins := by
  induction fields with
  | nil => simp [fieldPassages]
  | cons first rest ih =>
    obtain ⟨key, value, span⟩ := first
    simp [fieldPassages, ih]

theorem mem_origins_stmtsPassage {stmts : List Stmt} :
    origin ∈ (stmtsPassage ctx stmts).origins ↔ ∃ s ∈ stmts, origin ∈ (s.passage ctx).origins := by
  induction stmts with
  | nil => simp [stmtsPassage]
  | cons s rest ih => simp [stmtsPassage, ih]

theorem Expr.accounts {e : Expr} (h : origin ∈ (e.passage ctx).origins) :
    (Node.expr e).Accounts origin := by
  have hargs : ∀ {args : List Expr}, origin ∈ (joined (exprPassages ctx args)).origins →
      ∃ arg ∈ args, origin ∈ (arg.passage ctx).origins := fun h =>
    mem_origins_exprPassages.mp (mem_origins_joined.mp h)
  cases e with
  | number | string | bool | name => exact absurd h List.not_mem_nil
  | binary span op left right | assign span left right =>
    simp only [passage, origins_append, origins_text, List.nil_append, List.append_nil,
      List.mem_append] at h
    rcases h with h | h
    · exact .ofPart List.mem_cons_self h
    · exact .ofPart (List.mem_cons_of_mem _ List.mem_cons_self) h
  | unary span op operand =>
    cases op with
    | await => exact .ofPart List.mem_cons_self h
    | neg | not =>
      have hoperand : origin ∈ (operand.passage ctx).origins := by simpa [passage] using h
      exact .ofPart List.mem_cons_self hoperand
  | typeTest span operand type guarded =>
    cases guarded with
    | true =>
      rcases List.mem_cons.mp h with rfl | h
      · exact .inl List.mem_cons_self
      · exact .ofPart List.mem_cons_self (mem_origins_of_typeTest h)
    | false => exact .ofPart List.mem_cons_self (mem_origins_of_typeTest h)
  | cast span operand type guarded =>
    cases guarded with
    | true =>
      rcases List.mem_cons.mp h with rfl | h
      · exact .inl List.mem_cons_self
      · exact .ofPart List.mem_cons_self h
    | false => exact .ofPart List.mem_cons_self h
  | call span callee args closure? =>
    have hcallee : Node.expr callee ∈ (Node.expr (.call span callee args closure?)).writtenParts :=
      List.mem_map_of_mem (List.mem_append_left _ List.mem_cons_self)
    have harg : ∀ arg ∈ args,
        Node.expr arg ∈ (Node.expr (.call span callee args closure?)).writtenParts :=
      fun arg harg => List.mem_map_of_mem (List.mem_append_left _
        (List.mem_cons_of_mem _ (List.mem_map_of_mem harg)))
    cases closure? with
    | none =>
      simp only [passage, origins_append, origins_text, origins_receiverPassage, List.append_nil,
        List.mem_append] at h
      rcases h with h | h
      · exact .ofPart hcallee h
      · obtain ⟨arg, hmem, h⟩ := hargs h
        exact .ofPart (harg arg hmem) h
    | some closure =>
      simp only [passage, origins_append, origins_text, origins_receiverPassage, List.append_nil,
        List.mem_append] at h
      rcases h with h | h
      · exact .ofPart hcallee h
      · obtain ⟨p, hp, h⟩ := mem_origins_joined.mp h
        rcases List.mem_append.mp hp with hp | hp
        · obtain ⟨arg, hmem, h⟩ := mem_origins_exprPassages.mp ⟨p, hp, h⟩
          exact .ofPart (harg arg hmem) h
        · rw [List.mem_singleton.mp hp] at h
          rcases List.mem_cons.mp h with rfl | h
          · exact .inl List.mem_cons_self
          · exact .ofPart (List.mem_map_of_mem (List.mem_append_right _ List.mem_cons_self)) h
  | field span receiver member | staticMember span receiver member =>
    have hreceiver : origin ∈ (receiver.passage ctx).origins := by simpa [passage] using h
    exact .ofPart List.mem_cons_self hreceiver
  | index span receiver position =>
    simp only [passage, origins_append, origins_text, origins_receiverPassage, List.append_nil,
      List.mem_append] at h
    rcases h with h | h
    · exact .ofPart List.mem_cons_self h
    · exact .ofPart (List.mem_cons_of_mem _ List.mem_cons_self) h
  | array span elements =>
    obtain ⟨element, hmem, h⟩ := hargs (by simpa [passage] using h)
    exact .ofPart (List.mem_map_of_mem (List.mem_map_of_mem hmem)) h
  | object span fields =>
    obtain ⟨field, hmem, h⟩ := mem_origins_fieldPassages.mp (mem_origins_objectPassage.mp h)
    exact .ofPart (List.mem_map_of_mem (List.mem_map_of_mem hmem)) h
  | lambda span params body =>
    rcases List.mem_cons.mp h with rfl | h
    · exact .inl List.mem_cons_self
    · exact .ofPart List.mem_cons_self h
  | new span className args =>
    obtain ⟨arg, hmem, h⟩ := hargs (by simpa [passage] using h)
    exact .ofPart (List.mem_map_of_mem (List.mem_map_of_mem hmem)) h

theorem Block.accounts {b : Block} (h : origin ∈ (b.passage ctx).origins) :
    (Node.block b).Accounts origin := by
  obtain ⟨stmts, span⟩ := b
  obtain ⟨s, hs, h⟩ := mem_origins_stmtsPassage.mp h
  obtain ⟨child, hchild, hnode⟩ := exists_mem_stmtChildren [] hs
  refine .ofPart (List.mem_map_of_mem hchild) (?_ : origin ∈ (child.node.passage ctx).origins)
  rw [hnode]
  exact h

theorem ElseBranch.accounts {b : ElseBranch} (h : origin ∈ (b.passage ctx).origins) :
    (Node.elseBranch b).Accounts origin := by
  cases b with
  | none => exact absurd h List.not_mem_nil
  | block body =>
    have hbody : origin ∈ (body.passage ctx.deeper).origins := by simpa [passage] using h
    exact .ofPart List.mem_cons_self hbody
  | elseIf condition thenBlock elseBranch =>
    simp only [passage, origins_append, origins_row, origins_text, origins_conditionPassage,
      List.nil_append, List.append_nil, List.mem_append] at h
    rcases h with (h | h) | h
    · exact .ofPart List.mem_cons_self h
    · exact .ofPart (List.mem_cons_of_mem _ List.mem_cons_self) h
    · exact .ofPart (List.mem_cons_of_mem _ (List.mem_cons_of_mem _ List.mem_cons_self)) h

/-! ### Classes -/

theorem mem_origins_initPassages {members : List Member} {p : Passage}
    (hp : p ∈ initPassages ctx members) (h : origin ∈ p.origins) :
    ∃ init ∈ members.filterMap Member.init?, origin ∈ (init.passage ctx).origins := by
  induction members with
  | nil => exact absurd hp List.not_mem_nil
  | cons m rest ih =>
    cases m with
    | field span name type? init? isDefault =>
      cases init? with
      | some init =>
        rcases List.mem_cons.mp hp with rfl | hp
        · exact ⟨init, List.mem_cons_self, by simpa using h⟩
        · obtain ⟨later, hlater, h⟩ := ih hp
          exact ⟨later, List.mem_cons_of_mem _ hlater, h⟩
      | none =>
        cases isDefault with
        | true =>
          rcases List.mem_cons.mp hp with rfl | hp
          · exact absurd h List.not_mem_nil
          · exact ih hp
        | false => exact ih hp
    | constructor | method => exact ih hp

theorem exists_hasInit_of_initPassages {members : List Member} (h : initPassages ctx members ≠ []) :
    ∃ m ∈ members, m.hasInit = true := by
  induction members with
  | nil => exact absurd rfl h
  | cons m rest ih =>
    by_cases hinit : m.hasInit = true
    · exact ⟨m, List.mem_cons_self, hinit⟩
    · have hrest : initPassages ctx rest ≠ [] := by
        cases m with
        | field span name type? init? isDefault =>
          cases init? with
          | some init => exact absurd rfl hinit
          | none =>
            cases isDefault with
            | true => exact absurd rfl hinit
            | false => exact h
        | constructor | method => exact h
      obtain ⟨later, hlater, h⟩ := ih hrest
      exact ⟨later, List.mem_cons_of_mem _ hlater, h⟩

/-- The functions of a constructor are the constructor itself, which is written only if one is
    declared or if there are initial values, and those of its parts. -/
theorem mem_origins_constructorPassage {hasBase : Bool} {all members : List Member}
    {inits : List Passage}
    (h : origin ∈ (constructorPassage ctx hasBase all inits members).origins) :
    (origin = .constructor all ∧ ((∃ m ∈ members, m.isConstructor = true) ∨ inits ≠ [])) ∨
      (∃ p ∈ inits, origin ∈ p.origins) ∨
      ∃ body ∈ members.findSome? Member.constructorBody?,
        origin ∈ (body.passage ctx.deeper).origins := by
  have hinits : ∀ {call : String}, origin ∈ ((if hasBase then row ctx.deeper call else "") ++
      concat (inits.map (row ctx.deeper))).origins → ∃ p ∈ inits, origin ∈ p.origins := by
    intro call h
    cases hasBase <;> simpa [mem_origins_concat] using h
  induction members with
  | nil =>
    unfold constructorPassage implicitConstructorPassage at h
    split at h
    · exact absurd h List.not_mem_nil
    · rename_i hne
      rw [origins_row, origins_rowFunction] at h
      rcases List.mem_cons.mp h with rfl | h
      · exact .inl ⟨rfl, .inr hne⟩
      · exact .inr (.inl (hinits h))
  | cons m rest ih =>
    cases m with
    | constructor span params body =>
      rw [constructorPassage, origins_row, origins_rowFunction] at h
      rcases List.mem_cons.mp h with rfl | h
      · exact .inl ⟨rfl, .inl ⟨_, List.mem_cons_self, rfl⟩⟩
      · rcases List.mem_append.mp h with h | h
        · exact .inr (.inl (hinits h))
        · exact .inr (.inr ⟨body, rfl, h⟩)
    | method | field =>
      rcases ih h with ⟨rfl, hwritten⟩ | h
      · exact .inl ⟨rfl, by simpa [Member.isConstructor] using hwritten⟩
      · exact .inr h

theorem mem_origins_methodsPassage {members : List Member}
    (h : origin ∈ (methodsPassage ctx members).origins) :
    ∃ body ∈ members.filterMap Member.methodBody?,
      origin = .method body ∨ origin ∈ (body.passage ctx.deeper).origins := by
  induction members with
  | nil => exact absurd h List.not_mem_nil
  | cons m rest ih =>
    cases m with
    | method span name params returnType? effect? body? =>
      cases body? with
      | none => exact ih h
      | some body =>
        rw [methodsPassage, origins_append, origins_row, origins_append, origins_rowFunction] at h
        rcases List.mem_append.mp h with h | h
        · refine ⟨body, List.mem_cons_self, ?_⟩
          simpa using h
        · obtain ⟨later, hlater, h⟩ := ih h
          exact ⟨later, List.mem_cons_of_mem _ hlater, h⟩
    | constructor | field => exact ih h

/-- What a class is written as, whatever its kind: a constructor and methods, in a function of their
    own if the class is a singleton. -/
theorem mem_origins_class {span : Span} {decl : ClassDecl}
    (h : origin ∈ ((Stmt.classDecl span decl).passage ctx).origins) :
    (origin = .singleton ∧ decl.kind = .singleton) ∨ ∃ inside hasBase,
      origin ∈ (constructorPassage inside hasBase decl.members (initPassages inside decl.members)
        decl.members).origins ∨
      origin ∈ (methodsPassage inside decl.members).origins := by
  obtain ⟨kind, name, extends?, implements, members, uniqueName?⟩ := decl
  cases kind with
  | singleton =>
    simp only [Stmt.passage, origins_append, origins_row, origins_rowFunction, origins_text,
      List.nil_append, List.append_nil, List.mem_cons, List.mem_append] at h
    rcases h with rfl | h
    · exact .inl ⟨rfl, rfl⟩
    · exact .inr ⟨_, _, h⟩
  | plain | trait =>
    simp only [Stmt.passage, origins_append, origins_row, origins_text, List.nil_append,
      List.append_nil, List.mem_append] at h
    exact .inr ⟨_, _, h⟩

theorem ClassDecl.accounts {span : Span} {decl : ClassDecl}
    (h : origin ∈ ((Stmt.classDecl span decl).passage ctx).origins) :
    (Node.stmt (.classDecl span decl)).Accounts origin := by
  rcases mem_origins_class h with ⟨rfl, hkind⟩ | ⟨inside, hasBase, h | h⟩
  · refine .inl (List.mem_append_left _ (List.mem_append_left _ ?_))
    rw [if_pos hkind]
    exact List.mem_cons_self
  · rcases mem_origins_constructorPassage h with ⟨rfl, hwritten⟩ | ⟨p, hp, h⟩ | ⟨body, hbody, h⟩
    · have hany : (decl.members.any fun m => m.isConstructor || m.hasInit) = true := by
        rw [List.any_eq_true]
        rcases hwritten with ⟨m, hm, hconstructor⟩ | hinits
        · exact ⟨m, hm, Bool.or_eq_true_iff.mpr (.inl hconstructor)⟩
        · obtain ⟨m, hm, hinit⟩ := exists_hasInit_of_initPassages hinits
          exact ⟨m, hm, Bool.or_eq_true_iff.mpr (.inr hinit)⟩
      refine .inl (List.mem_append_left _ (List.mem_append_right _ ?_))
      rw [if_pos hany]
      exact List.mem_cons_self
    · obtain ⟨init, hinit, h⟩ := mem_origins_initPassages hp h
      exact .ofPart (List.mem_append_left _ (List.mem_append_left _ (List.mem_map_of_mem hinit))) h
    · exact .ofPart (List.mem_append_left _ (List.mem_append_right _
        (List.mem_map_of_mem (Option.mem_toList.mpr hbody)))) h
  · obtain ⟨body, hbody, rfl | h⟩ := mem_origins_methodsPassage h
    · exact .inl (List.mem_append_right _ (List.mem_map_of_mem hbody))
    · exact .ofPart (List.mem_append_right _ (List.mem_map_of_mem hbody)) h

/-! ### Statements and whole programs -/

theorem Stmt.accounts {s : Stmt} (h : origin ∈ (s.passage ctx).origins) :
    (Node.stmt s).Accounts origin := by
  cases s with
  | namespaceDecl | usingDecl | foreignDecl => exact absurd h List.not_mem_nil
  | letDecl span name type? init? uniqueName? =>
    cases init? with
    | none => exact absurd h List.not_mem_nil
    | some init =>
      have hinit : origin ∈ (init.passage ctx).origins := by simpa [passage] using h
      exact .ofPart List.mem_cons_self hinit
  | ret span value? =>
    cases value? with
    | none => exact absurd h List.not_mem_nil
    | some value =>
      have hvalue : origin ∈ (value.passage ctx).origins := by simpa [passage] using h
      exact .ofPart List.mem_cons_self hvalue
  | function span name params returnType? effect? body uniqueName? =>
    rw [passage, origins_row, origins_rowFunction] at h
    rcases List.mem_cons.mp h with rfl | h
    · exact .inl List.mem_cons_self
    · exact .ofPart List.mem_cons_self h
  | classDecl span decl => exact ClassDecl.accounts h
  | ifElse span condition thenBlock elseBranch =>
    simp only [passage, origins_append, origins_row, origins_text, origins_conditionPassage,
      List.nil_append, List.append_nil, List.mem_append] at h
    rcases h with (h | h) | h
    · exact .ofPart List.mem_cons_self h
    · exact .ofPart (List.mem_cons_of_mem _ List.mem_cons_self) h
    · exact .ofPart (List.mem_cons_of_mem _ (List.mem_cons_of_mem _ List.mem_cons_self)) h
  | whileLoop span condition body | untilLoop span condition body =>
    simp only [passage, origins_append, origins_row, origins_text, origins_conditionPassage,
      List.nil_append, List.append_nil, List.mem_append] at h
    rcases h with h | h
    · exact .ofPart List.mem_cons_self h
    · exact .ofPart (List.mem_cons_of_mem _ List.mem_cons_self) h
  | block span body =>
    have hbody : origin ∈ (body.passage ctx.deeper).origins := by simpa [passage] using h
    exact .ofPart List.mem_cons_self hbody
  | expr span value =>
    have hvalue : origin ∈ (value.passage ctx).origins := by simpa [passage] using h
    exact .ofPart List.mem_cons_self hvalue

theorem Node.accounts {n : Node} (h : origin ∈ (n.passage ctx).origins) : n.Accounts origin := by
  cases n with
  | expr e => exact e.accounts h
  | block b => exact b.accounts h
  | stmt s => exact s.accounts h
  | elseBranch b => exact b.accounts h
  | type | member => exact absurd h List.not_mem_nil

/-- Every function that is written for a part is what some part is written as. -/
theorem Node.exists_writes_of_mem_origins {n : Node} (h : origin ∈ (n.passage ctx).origins) :
    ∃ m, n.Writes m ∧ origin ∈ m.functions := by
  induction n using Node.written_induction generalizing ctx with
  | h n ih =>
    rcases Node.accounts h with hfunction | ⟨part, hpart, inner, h⟩
    · exact ⟨n, .here, hfunction⟩
    · obtain ⟨m, hm, hfunction⟩ := ih part hpart h
      exact ⟨m, .inside hpart hm, hfunction⟩

namespace Script

/-- The context that the statements of a program are written in. -/
def topContext (options : Options) (program : Program) : Context :=
  ⟨0, none, declaredClasses program.stmts, options.optimize⟩

/-- What is written for a part of a program in its context stands in the script. -/
theorem contains_writtenPart (options : Options) (files : List String) {program : Program}
    {s : Stmt} (hs : s ∈ program.stmts) {ctx : Context} {part : Node}
    (h : Node.WritesIn (topContext options program) (.stmt s) ctx part) :
    (programPassage options files program).Contains (part.passage ctx) := by
  refine Contains.left (.concat (List.mem_map_of_mem hs) (.trans ?_ h.contains))
  unfold topLevelPassage
  split
  · rename_i hskipped
    -- For a statement that is left out nothing would be written anyway.
    obtain ⟨hoptimize, hinert⟩ := Bool.and_eq_true_iff.mp hskipped
    unfold Stmt.isInert at hinert
    split at hinert
    · simp [topContext, Node.passage, Stmt.passage, Stmt.rows, hoptimize, Contains.refl]
    · simp [topContext, Node.passage, Stmt.passage, Stmt.rows, hoptimize, Contains.refl]
    · cases hinert
  · exact (Contains.refl _).right

/-- What is written for a part of a program stands in its script. -/
theorem contains_programPassage (options : Options) (files : List String) {program : Program}
    {s : Stmt} (hs : s ∈ program.stmts) {part : Node} (h : (Node.stmt s).Writes part) :
    ∃ ctx, (programPassage options files program).Contains (part.passage ctx) := by
  obtain ⟨ctx, hpart⟩ := h.exists_writesIn (topContext options program)
  exact ⟨ctx, contains_writtenPart options files hs hpart⟩

/-- The functions that a part of a program is written as stand in its script. -/
theorem contains_function (options : Options) (files : List String) {program : Program}
    {s : Stmt} (hs : s ∈ program.stmts) {part : Node} (h : (Node.stmt s).Writes part)
    (horigin : origin ∈ part.functions) :
    ∃ q isAsync, (programPassage options files program).Contains q ∧
      q.function? = some (origin, isAsync) := by
  obtain ⟨ctx, hpart⟩ := contains_programPassage options files hs h
  obtain ⟨q, isAsync, hq, hfunction⟩ := Node.contains_function ctx horigin
  exact ⟨q, isAsync, hpart.trans hq, hfunction⟩

/-- Every function of a script is what some part of the program is written as. -/
theorem exists_writes_of_contains {options : Options} {files : List String} {program : Program}
    {q : Passage} {isAsync : Bool} (h : (programPassage options files program).Contains q)
    (hq : q.function? = some (origin, isAsync)) :
    ∃ s ∈ program.stmts, ∃ part, (Node.stmt s).Writes part ∧ origin ∈ part.functions := by
  have horigin := h.mem_origins hq
  rw [programPassage, origins_append, origins_text, List.append_nil, mem_origins_concat] at horigin
  obtain ⟨p, hp, horigin⟩ := horigin
  obtain ⟨s, hs, rfl⟩ := List.mem_map.mp hp
  unfold topLevelPassage at horigin
  split at horigin
  · exact absurd horigin List.not_mem_nil
  · rcases List.mem_append.mp horigin with horigin | horigin
    · split at horigin <;> exact absurd horigin List.not_mem_nil
    · exact ⟨s, hs, Node.exists_writes_of_mem_origins horigin⟩

/-- The marks of the functions of a script. All that is written for parts of the program stands in
    it, and its functions are exactly those that these parts are; a function or wrapper is
    asynchronous if and only if an `await` belongs to its body or operand; and every `await` stands
    outside all functions, or the innermost one around it is asynchronous or a constructor. -/
structure MarksAsync (program : Program) (script : Passage) : Prop where
  written : ∀ s ∈ program.stmts, ∀ part, (Node.stmt s).Writes part →
    ∃ ctx, script.Contains (part.passage ctx)
  functions : ∀ origin, (∃ q isAsync, script.Contains q ∧ q.function? = some (origin, isAsync)) ↔
    ∃ s ∈ program.stmts, ∃ part, (Node.stmt s).Writes part ∧ origin ∈ part.functions
  marks : ∀ q origin isAsync, script.Contains q → q.function? = some (origin, isAsync) →
    ∀ body ∈ origin.body?, isAsync = true ↔ body.OwnAwait
  enclosed : ∀ enclosing? q, script.Holds enclosing? q → q.isAwait = true →
    ∀ origin isAsync, enclosing? = some (origin, isAsync) →
      isAsync = true ∨ origin.isConstructor = true

/-- The mark of a function with a body or operand says whether an `await` belongs to that. -/
theorem Origin.isAsync_iff {origin : Origin} {body : Node} (h : origin.body? = some body) :
    origin.isAsync = true ↔ body.OwnAwait := by
  cases origin with
  | declaration b | method b | lambda b | closure b =>
    obtain rfl : Node.block b = body := Option.some.inj h
    exact b.awaits_iff
  | guard operand =>
    obtain rfl : Node.expr operand = body := Option.some.inj h
    exact operand.awaits_iff
  | constructor | singleton => cases h

/-- The generator writes a script whose functions are asynchronous exactly if an `await` belongs to
    them. -/
theorem generate_marksAsync (options : Options) (files : List String) (program : Program) :
    (programPassage options files program).plain = (generate options files program).code ∧
      MarksAsync program (programPassage options files program) := by
  have hsound := sound_programPassage options files program
  refine ⟨plain_programPassage options files program, ⟨?_, ?_, ?_, ?_⟩⟩
  · exact fun s hs part h => contains_programPassage options files hs h
  · intro origin
    constructor
    · rintro ⟨q, isAsync, hq, hfunction⟩
      exact exists_writes_of_contains hq hfunction
    · rintro ⟨s, hs, part, h, horigin⟩
      exact contains_function options files hs h horigin
  · rintro q origin isAsync ⟨_, hq⟩ hfunction body hbody
    rw [(hsound.of_holds hq).mark hfunction]
    exact Origin.isAsync_iff hbody
  · rintro _ q hholds hawait origin isAsync rfl
    obtain ⟨hmark, hawaits⟩ : isAsync = origin.isAsync ∧ origin.awaits = true :=
      hholds.awaitPlace hsound hawait
    rw [hmark, Origin.isAsync, hawaits, Bool.and_true]
    cases origin.isConstructor with
    | true => exact .inr rfl
    | false => exact .inl rfl

end Script

end ScriptCompiler
