import ScriptCompiler.Link.Rewrite

/-!
# The parts of a program and what they see

Every part of a statement has children: the parts right inside it that run or that leave a trace in
the script. The types of parameters, variables and results are none. A child may see locals that its
parent does not see, and the members of a class stand inside the class. A position is a way down
from child to child.
-/

namespace ScriptCompiler

/-- A part of a program. -/
inductive Node where
  | type (t : TypeExpr)
  | expr (e : Expr)
  | block (b : Block)
  | stmt (s : Stmt)
  | elseBranch (b : ElseBranch)
  | member (m : Member)

/-- A part right inside another one, with the locals that only it sees and the class that it is a
    member of. -/
structure Child where
  binds : List String
  class? : Option ClassScope
  node : Node

/-- A child that sees what its parent sees. -/
def Child.plain (node : Node) : Child :=
  ⟨[], none, node⟩

def Child.body (params : List Param) (body : Block) : Child :=
  ⟨paramNames params, none, .block body⟩

/-- The statements of a block after those that bring the locals `bound`. A named function or class
    sees itself; what follows a statement sees what it declares. -/
def stmtChildren (bound : List String) : List Stmt → List Child
  | [] => []
  | s :: rest =>
    ⟨s.boundBefore ++ bound, none, .stmt s⟩ :: stmtChildren (s.boundAfter ++ bound) rest

def TypeExpr.children : TypeExpr → List Child
  | .named _ _ args => args.map fun t => .plain (.type t)
  | .binary _ _ left right => [.plain (.type left), .plain (.type right)]
  | .array _ element => [.plain (.type element)]
  | .unit _ => []

def Expr.children : Expr → List Child
  | .number .. | .string .. | .bool .. | .name .. => []
  | .binary _ _ left right => [.plain (.expr left), .plain (.expr right)]
  | .assign _ target value => [.plain (.expr target), .plain (.expr value)]
  | .index _ receiver position => [.plain (.expr receiver), .plain (.expr position)]
  | .unary _ _ operand => [.plain (.expr operand)]
  | .typeTest _ operand type _ => [.plain (.expr operand), .plain (.type type)]
  | .cast _ operand type _ => [.plain (.expr operand), .plain (.type type)]
  | .call _ callee args closure? =>
    .plain (.expr callee) :: (args.map fun e => .plain (.expr e))
      ++ closure?.toList.map fun body => .plain (.block body)
  | .field _ receiver _ => [.plain (.expr receiver)]
  | .staticMember _ receiver _ => [.plain (.expr receiver)]
  | .array _ elements => elements.map fun e => .plain (.expr e)
  | .object _ fields => fields.map fun field => .plain (.expr field.value)
  | .lambda _ params body => [.body params body]
  | .new _ _ args => args.map fun e => .plain (.expr e)

def Stmt.children : Stmt → List Child
  | .namespaceDecl .. | .usingDecl .. | .foreignDecl .. => []
  | .letDecl _ _ _ init? _ => init?.toList.map fun e => .plain (.expr e)
  | .function _ _ params _ _ body _ => [.body params body]
  | .classDecl _ decl =>
    ((decl.extends?.toList ++ decl.implements).map fun t => .plain (.type t))
      ++ decl.members.map fun m =>
        ⟨[], some ⟨decl.name.name, decl.members.filterMap Member.name?⟩, .member m⟩
  | .ifElse _ condition thenBlock elseBranch =>
    [.plain (.expr condition), .plain (.block thenBlock), .plain (.elseBranch elseBranch)]
  | .whileLoop _ condition body => [.plain (.expr condition), .plain (.block body)]
  | .untilLoop _ condition body => [.plain (.expr condition), .plain (.block body)]
  | .ret _ value? => value?.toList.map fun e => .plain (.expr e)
  | .block _ body => [.plain (.block body)]
  | .expr _ value => [.plain (.expr value)]

def ElseBranch.children : ElseBranch → List Child
  | .none => []
  | .block body => [.plain (.block body)]
  | .elseIf condition thenBlock elseBranch =>
    [.plain (.expr condition), .plain (.block thenBlock), .plain (.elseBranch elseBranch)]

def Member.children : Member → List Child
  | .constructor _ params body => [.body params body]
  | .method _ _ params _ _ body? => body?.toList.map (.body params)
  | .field _ _ _ init? _ => init?.toList.map fun e => .plain (.expr e)

/-- The parts right inside a part, in the order of the text. -/
def Node.children : Node → List Child
  | .type t => t.children
  | .expr e => e.children
  | .block b => stmtChildren [] b.stmts
  | .stmt s => s.children
  | .elseBranch b => b.children
  | .member m => m.children

/-- The nodes of the children of a block are its statements. -/
theorem mem_stmtChildren {bound : List String} {stmts : List Stmt} {child : Child}
    (h : child ∈ stmtChildren bound stmts) : ∃ s ∈ stmts, child.node = .stmt s := by
  induction stmts generalizing bound with
  | nil => simp [stmtChildren] at h
  | cons s rest ih =>
    rcases List.mem_cons.mp h with rfl | h
    · exact ⟨s, List.mem_cons_self, rfl⟩
    · obtain ⟨t, ht, hnode⟩ := ih h
      exact ⟨t, List.mem_cons_of_mem _ ht, hnode⟩

theorem exists_mem_stmtChildren (bound : List String) {stmts : List Stmt} {s : Stmt}
    (h : s ∈ stmts) : ∃ child ∈ stmtChildren bound stmts, child.node = .stmt s := by
  induction stmts generalizing bound with
  | nil => exact absurd h List.not_mem_nil
  | cons first rest ih =>
    rcases List.mem_cons.mp h with rfl | h
    · exact ⟨_, List.mem_cons_self, rfl⟩
    · obtain ⟨child, hchild, hnode⟩ := ih (first.boundAfter ++ bound) h
      exact ⟨child, List.mem_cons_of_mem _ hchild, hnode⟩

theorem sizeOf_plain_of_mem {α : Type} [SizeOf α] {build : α → Node} {list : List α}
    (hbuild : ∀ a, sizeOf (build a) = 1 + sizeOf a) {child : Child}
    (h : child ∈ list.map fun a => .plain (build a)) : sizeOf child.node < 1 + sizeOf list := by
  obtain ⟨a, ha, rfl⟩ := List.mem_map.mp h
  have hlt := List.sizeOf_lt_of_mem ha
  simp only [Child.plain, hbuild]
  omega

theorem sizeOf_lt_of_mem_toList {α : Type} [SizeOf α] {option : Option α} {a : α}
    (h : a ∈ option.toList) : sizeOf a < sizeOf option := by
  obtain rfl := Option.mem_toList.mp h
  simp

theorem TypeExpr.sizeOf_child {t : TypeExpr} {child : Child} (h : child ∈ t.children) :
    sizeOf child.node < sizeOf (Node.type t) := by
  cases t with
  | named span name args =>
    have hlt := sizeOf_plain_of_mem (fun _ => Node.type.sizeOf_spec _) h
    simp only [Node.type.sizeOf_spec, named.sizeOf_spec]
    omega
  | binary span op left right =>
    rcases List.mem_cons.mp h with rfl | h
    · simp only [Child.plain, Node.type.sizeOf_spec, binary.sizeOf_spec]
      omega
    · obtain rfl := List.mem_singleton.mp h
      simp only [Child.plain, Node.type.sizeOf_spec, binary.sizeOf_spec]
      omega
  | array span element =>
    obtain rfl := List.mem_singleton.mp h
    simp only [Child.plain, Node.type.sizeOf_spec, array.sizeOf_spec]
    omega
  | unit span => exact absurd h List.not_mem_nil

theorem Expr.sizeOf_child {e : Expr} {child : Child} (h : child ∈ e.children) :
    sizeOf child.node < sizeOf (Node.expr e) := by
  cases e with
  | number | string | bool | name => exact absurd h List.not_mem_nil
  | binary | assign | index | typeTest | cast =>
    rcases List.mem_cons.mp h with rfl | h
    · simp only [Child.plain, Node.expr.sizeOf_spec, binary.sizeOf_spec, assign.sizeOf_spec,
        index.sizeOf_spec, typeTest.sizeOf_spec, cast.sizeOf_spec]
      omega
    · obtain rfl := List.mem_singleton.mp h
      simp only [Child.plain, Node.expr.sizeOf_spec, Node.type.sizeOf_spec, binary.sizeOf_spec,
        assign.sizeOf_spec, index.sizeOf_spec, typeTest.sizeOf_spec, cast.sizeOf_spec]
      omega
  | unary | field | staticMember =>
    obtain rfl := List.mem_singleton.mp h
    simp only [Child.plain, Node.expr.sizeOf_spec, unary.sizeOf_spec, field.sizeOf_spec,
      staticMember.sizeOf_spec]
    omega
  | call span callee args closure? =>
    rcases List.mem_append.mp h with h | h
    · rcases List.mem_cons.mp h with rfl | h
      · simp only [Child.plain, Node.expr.sizeOf_spec, call.sizeOf_spec]
        omega
      · have hlt := sizeOf_plain_of_mem (fun _ => Node.expr.sizeOf_spec _) h
        simp only [Node.expr.sizeOf_spec, call.sizeOf_spec]
        omega
    · obtain ⟨body, hbody, rfl⟩ := List.mem_map.mp h
      have hlt := sizeOf_lt_of_mem_toList hbody
      simp only [Child.plain, Node.block.sizeOf_spec, Node.expr.sizeOf_spec, call.sizeOf_spec]
      omega
  | array | new =>
    have hlt := sizeOf_plain_of_mem (fun _ => Node.expr.sizeOf_spec _) h
    simp only [Node.expr.sizeOf_spec, array.sizeOf_spec, new.sizeOf_spec]
    omega
  | object span fields =>
    obtain ⟨field, hfield, rfl⟩ := List.mem_map.mp h
    have hlt := List.sizeOf_lt_of_mem hfield
    cases field
    simp only [Child.plain, Node.expr.sizeOf_spec, ObjectField.mk.sizeOf_spec,
      object.sizeOf_spec] at hlt ⊢
    omega
  | lambda span params body =>
    obtain rfl := List.mem_singleton.mp h
    simp only [Child.body, Node.block.sizeOf_spec, Node.expr.sizeOf_spec, lambda.sizeOf_spec]
    omega

theorem Stmt.sizeOf_child {s : Stmt} {child : Child} (h : child ∈ s.children) :
    sizeOf child.node < sizeOf (Node.stmt s) := by
  cases s with
  | namespaceDecl | usingDecl | foreignDecl => exact absurd h List.not_mem_nil
  | letDecl | ret =>
    obtain ⟨e, he, rfl⟩ := List.mem_map.mp h
    have hlt := sizeOf_lt_of_mem_toList he
    simp only [Child.plain, Node.expr.sizeOf_spec, Node.stmt.sizeOf_spec, letDecl.sizeOf_spec,
      ret.sizeOf_spec]
    omega
  | function | block | expr =>
    obtain rfl := List.mem_singleton.mp h
    simp only [Child.body, Child.plain, Node.block.sizeOf_spec, Node.expr.sizeOf_spec,
      Node.stmt.sizeOf_spec, function.sizeOf_spec, block.sizeOf_spec, expr.sizeOf_spec]
    omega
  | classDecl span decl =>
    obtain ⟨kind, name, extends?, implements, members, unique?⟩ := decl
    rcases List.mem_append.mp h with h | h
    · rw [List.map_append] at h
      rcases List.mem_append.mp h with h | h
      · obtain ⟨t, ht, rfl⟩ := List.mem_map.mp h
        have hlt := sizeOf_lt_of_mem_toList ht
        simp only [Child.plain, Node.type.sizeOf_spec, Node.stmt.sizeOf_spec,
          classDecl.sizeOf_spec, ClassDecl.mk.sizeOf_spec] at hlt ⊢
        omega
      · have hlt := sizeOf_plain_of_mem (fun _ => Node.type.sizeOf_spec _) h
        simp only [Node.stmt.sizeOf_spec, classDecl.sizeOf_spec, ClassDecl.mk.sizeOf_spec]
          at hlt ⊢
        omega
    · obtain ⟨m, hm, rfl⟩ := List.mem_map.mp h
      have hlt := List.sizeOf_lt_of_mem hm
      simp only [Node.member.sizeOf_spec, Node.stmt.sizeOf_spec, classDecl.sizeOf_spec,
        ClassDecl.mk.sizeOf_spec] at hlt ⊢
      omega
  | ifElse span condition thenBlock elseBranch =>
    rcases List.mem_cons.mp h with rfl | h
    · simp only [Child.plain, Node.expr.sizeOf_spec, Node.stmt.sizeOf_spec, ifElse.sizeOf_spec]
      omega
    · rcases List.mem_cons.mp h with rfl | h
      · simp only [Child.plain, Node.block.sizeOf_spec, Node.stmt.sizeOf_spec, ifElse.sizeOf_spec]
        omega
      · obtain rfl := List.mem_singleton.mp h
        simp only [Child.plain, Node.elseBranch.sizeOf_spec, Node.stmt.sizeOf_spec,
          ifElse.sizeOf_spec]
        omega
  | whileLoop | untilLoop =>
    rcases List.mem_cons.mp h with rfl | h
    · simp only [Child.plain, Node.expr.sizeOf_spec, Node.stmt.sizeOf_spec, whileLoop.sizeOf_spec,
        untilLoop.sizeOf_spec]
      omega
    · obtain rfl := List.mem_singleton.mp h
      simp only [Child.plain, Node.block.sizeOf_spec, Node.stmt.sizeOf_spec, whileLoop.sizeOf_spec,
        untilLoop.sizeOf_spec]
      omega

theorem ElseBranch.sizeOf_child {b : ElseBranch} {child : Child} (h : child ∈ b.children) :
    sizeOf child.node < sizeOf (Node.elseBranch b) := by
  cases b with
  | none => exact absurd h List.not_mem_nil
  | block body =>
    obtain rfl := List.mem_singleton.mp h
    simp only [Child.plain, Node.block.sizeOf_spec, Node.elseBranch.sizeOf_spec,
      block.sizeOf_spec]
    omega
  | elseIf condition thenBlock rest =>
    rcases List.mem_cons.mp h with rfl | h
    · simp only [Child.plain, Node.expr.sizeOf_spec, Node.elseBranch.sizeOf_spec,
        elseIf.sizeOf_spec]
      omega
    · rcases List.mem_cons.mp h with rfl | h
      · simp only [Child.plain, Node.block.sizeOf_spec, Node.elseBranch.sizeOf_spec,
          elseIf.sizeOf_spec]
        omega
      · obtain rfl := List.mem_singleton.mp h
        simp only [Child.plain, Node.elseBranch.sizeOf_spec, elseIf.sizeOf_spec]
        omega

theorem Member.sizeOf_child {m : Member} {child : Child} (h : child ∈ m.children) :
    sizeOf child.node < sizeOf (Node.member m) := by
  cases m with
  | constructor span params body =>
    obtain rfl := List.mem_singleton.mp h
    simp only [Child.body, Node.block.sizeOf_spec, Node.member.sizeOf_spec,
      constructor.sizeOf_spec]
    omega
  | method span name params returnType? effect? body? =>
    obtain ⟨body, hbody, rfl⟩ := List.mem_map.mp h
    have hlt := sizeOf_lt_of_mem_toList hbody
    simp only [Child.body, Node.block.sizeOf_spec, Node.member.sizeOf_spec, method.sizeOf_spec]
    omega
  | field span name type? init? isDefault =>
    obtain ⟨e, he, rfl⟩ := List.mem_map.mp h
    have hlt := sizeOf_lt_of_mem_toList he
    simp only [Child.plain, Node.expr.sizeOf_spec, Node.member.sizeOf_spec, field.sizeOf_spec]
    omega

/-- Children are smaller than their parents. -/
theorem Node.sizeOf_child {n : Node} {child : Child} (h : child ∈ n.children) :
    sizeOf child.node < sizeOf n := by
  cases n with
  | type t => exact t.sizeOf_child h
  | expr e => exact e.sizeOf_child h
  | block b =>
    obtain ⟨s, hs, hnode⟩ := mem_stmtChildren h
    have hlt := List.sizeOf_lt_of_mem hs
    cases b
    rw [hnode]
    simp only [stmt.sizeOf_spec, block.sizeOf_spec, Block.mk.sizeOf_spec] at hlt ⊢
    omega
  | stmt s => exact s.sizeOf_child h
  | elseBranch b => exact b.sizeOf_child h
  | member m => exact m.sizeOf_child h

/-- What holds of a part as soon as it holds of the parts inside it holds of every part. -/
theorem Node.induction_on {motive : Node → Prop} (n : Node)
    (h : ∀ n : Node, (∀ child ∈ n.children, motive child.node) → motive n) : motive n :=
  -- The kinds of parts are mutually recursive, but every child is smaller than its parent.
  h n fun child _hchild => Node.induction_on child.node h
termination_by sizeOf n
decreasing_by exact sizeOf_child _hchild

/-- A property of a part and of all parts inside it. -/
inductive Node.Every (P : Node → Prop) : Node → Prop where
  | intro {n : Node} (here : P n) (inside : ∀ child ∈ n.children, Every P child.node) : Every P n

namespace Node.Every

variable {P : Node → Prop} {n : Node}

theorem here (h : Every P n) : P n := by
  cases h with
  | intro here _ => exact here

theorem child (h : Every P n) {child : Child} (hchild : child ∈ n.children) :
    Every P child.node := by
  cases h with
  | intro _ inside => exact inside child hchild

theorem mono {Q : Node → Prop} (h : Every P n) (himp : ∀ n, P n → Q n) : Every Q n := by
  induction h with
  | intro here _ ih => exact ⟨himp _ here, ih⟩

theorem and {Q : Node → Prop} (h : Every P n) (h' : Every Q n) : Every (fun n => P n ∧ Q n) n := by
  induction h with
  | intro here _ ih =>
    exact ⟨⟨here, h'.here⟩, fun child hchild => ih child hchild (h'.child hchild)⟩

end Node.Every

/-- The check succeeds on a part and on all parts inside it, which are nested less than `depth`
    levels deep. -/
def Node.allWithin (check : Node → Bool) : (depth : Nat) → Node → Bool
  | 0, _ => false
  | depth + 1, n => check n && n.children.all fun child => allWithin check depth child.node

theorem Node.every_of_allWithin {check : Node → Bool} {depth : Nat} {n : Node}
    (h : allWithin check depth n) : n.Every fun n => check n := by
  induction depth generalizing n with
  | zero => cases h
  | succ depth ih =>
    obtain ⟨hhere, hinside⟩ := (Bool.and_eq_true _ _).mp h
    exact ⟨hhere, fun child hchild => ih (List.all_eq_true.mp hinside child hchild)⟩

/-- A part of a program with the locals that it sees and the class that it stands in. -/
structure Occurrence where
  locals : List String
  class? : Option ClassScope
  node : Node

namespace Occurrence

/-- A statement outside of all others. -/
def top (s : Stmt) : Occurrence :=
  ⟨[], none, .stmt s⟩

/-- A child of the part, with what it sees. -/
def enter (o : Occurrence) (child : Child) : Occurrence :=
  ⟨child.binds ++ o.locals, child.class?.or o.class?, child.node⟩

def parts (o : Occurrence) : List Occurrence :=
  o.node.children.map o.enter

/-- The part at a position, which tells for each step down which child to take. -/
def part? : (position : List Nat) → Occurrence → Option Occurrence
  | [], o => some o
  | i :: rest, o => (o.parts[i]?).bind (part? rest)

/-- The part stands in `whole`, at any depth. -/
def Within (whole part : Occurrence) : Prop :=
  ∃ position, whole.part? position = some part

theorem mem_parts {o part : Occurrence} :
    part ∈ o.parts ↔ ∃ child ∈ o.node.children, o.enter child = part :=
  List.mem_map

theorem part?_cons {i : Nat} {rest : List Nat} {o part : Occurrence} :
    o.part? (i :: rest) = some part ↔ ∃ next, o.parts[i]? = some next ∧ next.part? rest = some part :=
  Option.bind_eq_some_iff

theorem part?_append {above below : List Nat} {whole part : Occurrence} :
    whole.part? (above ++ below) = some part ↔
      ∃ o, whole.part? above = some o ∧ o.part? below = some part := by
  induction above generalizing whole with
  | nil => exact ⟨fun h => ⟨whole, rfl, h⟩, fun ⟨_, ho, h⟩ => Option.some.inj ho ▸ h⟩
  | cons i rest ih =>
    simp only [List.cons_append, part?_cons, ih]
    constructor
    · rintro ⟨next, hnext, o, ho, hpart⟩
      exact ⟨o, ⟨next, hnext, ho⟩, hpart⟩
    · rintro ⟨o, ⟨next, hnext, ho⟩, hpart⟩
      exact ⟨next, hnext, o, ho, hpart⟩

theorem Within.refl (o : Occurrence) : o.Within o :=
  ⟨[], rfl⟩

/-- Parts inside a part right inside. -/
theorem Within.head {whole next part : Occurrence} (hnext : next ∈ whole.parts)
    (h : next.Within part) : whole.Within part := by
  obtain ⟨i, hi⟩ := List.mem_iff_getElem?.mp hnext
  obtain ⟨position, hpart⟩ := h
  exact ⟨i :: position, part?_cons.mpr ⟨next, hi, hpart⟩⟩

/-- A part at some depth is the whole or inside a part right inside. -/
theorem within_iff {whole part : Occurrence} :
    whole.Within part ↔ part = whole ∨ ∃ next ∈ whole.parts, next.Within part := by
  constructor
  · rintro ⟨position, hpart⟩
    cases position with
    | nil => exact .inl (Option.some.inj hpart).symm
    | cons i rest =>
      obtain ⟨next, hi, hrest⟩ := part?_cons.mp hpart
      exact .inr ⟨next, List.mem_of_getElem? hi, rest, hrest⟩
  · rintro (rfl | ⟨next, hnext, h⟩)
    · exact Within.refl _
    · exact h.head hnext

end Occurrence

/-- What holds of every part of a whole holds at any depth. -/
theorem Node.Every.of_within {P : Node → Prop} {whole part : Occurrence}
    (h : Every P whole.node) (hpart : whole.Within part) : Every P part.node := by
  obtain ⟨position, hpart⟩ := hpart
  induction position generalizing whole with
  | nil =>
    obtain rfl := Option.some.inj hpart
    exact h
  | cons i rest ih =>
    obtain ⟨next, hi, hrest⟩ := Occurrence.part?_cons.mp hpart
    obtain ⟨child, hchild, rfl⟩ := Occurrence.mem_parts.mp (List.mem_of_getElem? hi)
    exact ih (h.child hchild) hrest

end ScriptCompiler
