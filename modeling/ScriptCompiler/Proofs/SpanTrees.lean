import ScriptCompiler.Proofs.Consumption
import ScriptCompiler.Source.Lines

/-!
# The spans inside a tree

Every statement, block, member, parameter, expression, field of an object literal, type and name has
a span. What has none, such as the rest of a conditional, hands its parts to the next part around it
that has one. So the spans of a tree make a tree of their own. A parser lays spans: the trees of
what it finds stand one after the other on the lexemes that it has consumed.
-/

namespace ScriptCompiler

/-- A part of a program that has a span, and the parts right inside it that have one, in the order
    in which its syntax tree names them. -/
inductive SpanTree where
  | node (span : Span) (inside : List SpanTree)

namespace SpanTree

def span : SpanTree → Span
  | .node span _ => span

@[simp] theorem span_node (span : Span) (inside : List SpanTree) :
    (node span inside).span = span := rfl

end SpanTree

/-! ### Spans of syntax trees -/

def Ident.spanTree (ident : Ident) : SpanTree :=
  .node ident.span []

mutual

def TypeExpr.spanTree : TypeExpr → SpanTree
  | .named span name args => .node span (name.spanTree :: typeTrees args)
  | .binary span _ left right => .node span [left.spanTree, right.spanTree]
  | .array span element => .node span [element.spanTree]
  | .unit span => .node span []

def typeTrees : List TypeExpr → List SpanTree
  | [] => []
  | t :: rest => t.spanTree :: typeTrees rest

end

def Param.spanTree (param : Param) : SpanTree :=
  .node param.span (param.name.spanTree :: param.type?.toList.map TypeExpr.spanTree)

def ForeignDecl.spanTrees (decl : ForeignDecl) : List SpanTree :=
  decl.marker.spanTree :: decl.name.spanTree :: decl.params.map Param.spanTree
    ++ decl.returnType?.toList.map TypeExpr.spanTree

/-- The spans of parameters, and of the return type and effect behind them. -/
def signatureTrees (params : List Param) (returnType? effect? : Option TypeExpr) : List SpanTree :=
  params.map Param.spanTree
    ++ (returnType?.toList.map TypeExpr.spanTree ++ effect?.toList.map TypeExpr.spanTree)

mutual

def Expr.spanTree : Expr → SpanTree
  | .number span _ => .node span []
  | .string span _ => .node span []
  | .bool span _ => .node span []
  | .name span ident => .node span [ident.spanTree]
  | .binary span _ left right => .node span [left.spanTree, right.spanTree]
  | .unary span _ operand => .node span [operand.spanTree]
  | .assign span target value => .node span [target.spanTree, value.spanTree]
  | .typeTest span operand type _ => .node span [operand.spanTree, type.spanTree]
  | .cast span operand type _ => .node span [operand.spanTree, type.spanTree]
  | .call span callee args closure? =>
    .node span (callee.spanTree :: (exprTrees args ++ blockTrees closure?))
  | .field span receiver member => .node span [receiver.spanTree, member.spanTree]
  | .staticMember span receiver member => .node span [receiver.spanTree, member.spanTree]
  | .index span receiver position => .node span [receiver.spanTree, position.spanTree]
  | .array span elements => .node span (exprTrees elements)
  | .object span fields => .node span (fieldTrees fields)
  | .lambda span params body => .node span (params.map Param.spanTree ++ [body.spanTree])
  | .new span className args => .node span (className.spanTree :: exprTrees args)

def exprTrees : List Expr → List SpanTree
  | [] => []
  | e :: rest => e.spanTree :: exprTrees rest

def fieldTrees : List ObjectField → List SpanTree
  | [] => []
  | ⟨_, value, span⟩ :: rest => .node span [value.spanTree] :: fieldTrees rest

def valueTrees : Option Expr → List SpanTree
  | none => []
  | some e => [e.spanTree]

def blockTrees : Option Block → List SpanTree
  | none => []
  | some body => [body.spanTree]

def Block.spanTree : Block → SpanTree
  | ⟨stmts, span⟩ => .node span (stmtTrees stmts)

def stmtTrees : List Stmt → List SpanTree
  | [] => []
  | s :: rest => s.spanTree :: stmtTrees rest

def Stmt.spanTree : Stmt → SpanTree
  | .namespaceDecl span decl => .node span (decl.path.map Ident.spanTree)
  | .usingDecl span decl => .node span (decl.path.map Ident.spanTree)
  | .foreignDecl span decl => .node span decl.spanTrees
  | .letDecl span name type? init? _ =>
    .node span (name.spanTree :: (type?.toList.map TypeExpr.spanTree ++ valueTrees init?))
  | .function span name params returnType? effect? body _ =>
    .node span (name.spanTree :: (signatureTrees params returnType? effect? ++ [body.spanTree]))
  | .classDecl span ⟨_, name, extends?, implements, members, _⟩ =>
    .node span (name.spanTree :: (extends?.toList.map TypeExpr.spanTree
      ++ (implements.map TypeExpr.spanTree ++ memberTrees members)))
  | .ifElse span condition thenBlock elseBranch =>
    .node span (condition.spanTree :: thenBlock.spanTree :: elseBranch.spanTrees)
  | .whileLoop span condition body => .node span [condition.spanTree, body.spanTree]
  | .untilLoop span condition body => .node span [condition.spanTree, body.spanTree]
  | .ret span value? => .node span (valueTrees value?)
  | .block span body => .node span [body.spanTree]
  | .expr span value => .node span [value.spanTree]

/-- The spans in the rest of a conditional, which has none itself. -/
def ElseBranch.spanTrees : ElseBranch → List SpanTree
  | .none => []
  | .block body => [body.spanTree]
  | .elseIf condition thenBlock elseBranch =>
    condition.spanTree :: thenBlock.spanTree :: elseBranch.spanTrees

def Member.spanTree : Member → SpanTree
  | .constructor span params body => .node span (params.map Param.spanTree ++ [body.spanTree])
  | .method span name params returnType? effect? body? =>
    .node span (name.spanTree :: (signatureTrees params returnType? effect? ++ blockTrees body?))
  | .field span name type? init? _ =>
    .node span (name.spanTree :: (type?.toList.map TypeExpr.spanTree ++ valueTrees init?))

def memberTrees : List Member → List SpanTree
  | [] => []
  | m :: rest => m.spanTree :: memberTrees rest

end

def ObjectField.spanTree (field : ObjectField) : SpanTree :=
  .node field.span [field.value.spanTree]

theorem typeTrees_eq (types : List TypeExpr) : typeTrees types = types.map TypeExpr.spanTree := by
  induction types with
  | nil => rfl
  | cons t rest ih => rw [typeTrees, ih, List.map_cons]

theorem exprTrees_eq (es : List Expr) : exprTrees es = es.map Expr.spanTree := by
  induction es with
  | nil => rfl
  | cons e rest ih => rw [exprTrees, ih, List.map_cons]

theorem fieldTrees_eq (fields : List ObjectField) :
    fieldTrees fields = fields.map ObjectField.spanTree := by
  induction fields with
  | nil => rfl
  | cons field rest ih =>
    obtain ⟨key, value, span⟩ := field
    rw [fieldTrees, ih, List.map_cons, ObjectField.spanTree]

theorem stmtTrees_eq (stmts : List Stmt) : stmtTrees stmts = stmts.map Stmt.spanTree := by
  induction stmts with
  | nil => rfl
  | cons s rest ih => rw [stmtTrees, ih, List.map_cons]

theorem memberTrees_eq (members : List Member) :
    memberTrees members = members.map Member.spanTree := by
  induction members with
  | nil => rfl
  | cons m rest ih => rw [memberTrees, ih, List.map_cons]

theorem valueTrees_eq (value? : Option Expr) :
    valueTrees value? = value?.toList.map Expr.spanTree := by
  cases value? <;> rfl

@[simp] theorem Expr.span_spanTree (e : Expr) : e.spanTree.span = e.span := by
  cases e <;> rfl

@[simp] theorem TypeExpr.span_spanTree (t : TypeExpr) : t.spanTree.span = t.span := by
  cases t <;> rfl

@[simp] theorem Ident.span_spanTree (ident : Ident) : ident.spanTree.span = ident.span := rfl

@[simp] theorem Stmt.span_spanTree (s : Stmt) : s.spanTree.span = s.span := by
  cases s with
  | classDecl span decl =>
    cases decl
    rfl
  | _ => rfl

/-! ### Nested spans -/

/-- The second of two trees starts where the first one ends, or later. -/
def SpanTree.Before (a b : SpanTree) : Prop :=
  a.span.stop ≤ b.span.start

/-- Every span satisfies `P`, and the parts of a part lie inside of it, one after the other. -/
inductive SpanTree.WellNested (P : Span → Prop) : SpanTree → Prop where
  | node {span : Span} {inside : List SpanTree} (here : P span)
      (within : ∀ t ∈ inside, span.start ≤ t.span.start ∧ t.span.stop ≤ span.stop)
      (ordered : inside.Pairwise Before) (nested : ∀ t ∈ inside, WellNested P t) :
      WellNested P (.node span inside)

theorem SpanTree.WellNested.here {P : Span → Prop} {t : SpanTree} (h : t.WellNested P) :
    P t.span := by
  cases h with
  | node here _ _ _ => exact here

/-- What satisfies `P` is not empty, and a span from the start of one of them to the end of another
    one satisfies it, too, if it is not empty. -/
structure Span.Joins (P : Span → Prop) : Prop where
  nonempty : ∀ {a : Span}, P a → a.start < a.stop
  through : ∀ {a b : Span}, P a → P b → a.start < b.stop → P (a.through b)

/-- The first lexeme ends where the second one starts, or earlier. -/
def Lexeme.Before (a b : Lexeme) : Prop :=
  a.span.stop ≤ b.span.start

/-- Tokens in the order of the text, whose spans satisfy `P`. -/
structure TokenRun (P : Span → Prop) (tokens : List Lexeme) : Prop where
  joins : Span.Joins P
  spans : ∀ l ∈ tokens, P l.span
  ordered : tokens.Pairwise Lexeme.Before

/-- The trees are well nested and stand one after the other on the lexemes: none of them starts
    before all the lexemes or ends behind all of them. -/
structure Laid (P : Span → Prop) (lexemes : List Lexeme) (trees : List SpanTree) : Prop where
  nested : ∀ t ∈ trees, t.WellNested P
  starts : ∀ t ∈ trees, ∃ l ∈ lexemes, l.span.start ≤ t.span.start
  stops : ∀ t ∈ trees, ∃ l ∈ lexemes, t.span.stop ≤ l.span.stop
  ordered : trees.Pairwise SpanTree.Before

variable {P : Span → Prop}

namespace TokenRun

variable {first second tokens : List Lexeme}

theorem before (h : TokenRun P (first ++ second)) {a b : Lexeme} (ha : a ∈ first)
    (hb : b ∈ second) : a.span.stop ≤ b.span.start :=
  (List.pairwise_append.mp h.ordered).2.2 a ha b hb

theorem start_le {l : Lexeme} (h : TokenRun P (l :: tokens)) :
    ∀ other ∈ l :: tokens, l.span.start ≤ other.span.start := by
  intro other hother
  rcases List.mem_cons.mp hother with rfl | hother
  · exact Nat.le_refl _
  · have hlt := h.joins.nonempty (h.spans l List.mem_cons_self)
    have hbefore : l.span.stop ≤ other.span.start := List.rel_of_pairwise_cons h.ordered hother
    omega

theorem le_stop {l : Lexeme} (h : TokenRun P (tokens ++ [l])) :
    ∀ other ∈ tokens ++ [l], other.span.stop ≤ l.span.stop := by
  intro other hother
  rcases List.mem_append.mp hother with hother | hother
  · have hlt := h.joins.nonempty (h.spans l (by simp))
    have hbefore := h.before hother (List.mem_singleton_self l)
    omega
  · exact Nat.le_of_eq (by rw [List.mem_singleton.mp hother])

end TokenRun

namespace Laid

variable {first second lexemes : List Lexeme} {trees others : List SpanTree}

theorem nil (P : Span → Prop) (lexemes : List Lexeme) : Laid P lexemes [] :=
  ⟨by simp, by simp, by simp, .nil⟩

/-- Trees on the lexemes of two moves, the first of which comes before the second. -/
theorem append (hrun : TokenRun P (first ++ second)) (h : Laid P first trees)
    (h' : Laid P second others) : Laid P (first ++ second) (trees ++ others) := by
  refine ⟨List.forall_mem_append.mpr ⟨h.nested, h'.nested⟩,
    List.forall_mem_append.mpr ⟨fun t ht => ?_, fun t ht => ?_⟩,
    List.forall_mem_append.mpr ⟨fun t ht => ?_, fun t ht => ?_⟩,
    List.pairwise_append.mpr ⟨h.ordered, h'.ordered, fun a ha b hb => ?_⟩⟩
  · obtain ⟨l, hl, hle⟩ := h.starts t ht
    exact ⟨l, List.mem_append_left _ hl, hle⟩
  · obtain ⟨l, hl, hle⟩ := h'.starts t ht
    exact ⟨l, List.mem_append_right _ hl, hle⟩
  · obtain ⟨l, hl, hle⟩ := h.stops t ht
    exact ⟨l, List.mem_append_left _ hl, hle⟩
  · obtain ⟨l, hl, hle⟩ := h'.stops t ht
    exact ⟨l, List.mem_append_right _ hl, hle⟩
  · obtain ⟨l, hl, hstop⟩ := h.stops a ha
    obtain ⟨l', hl', hstart⟩ := h'.starts b hb
    have hbefore := hrun.before hl hl'
    show a.span.stop ≤ b.span.start
    omega

/-- A span that starts no later than the trees and ends no earlier, around these trees. -/
theorem group (hjoins : Span.Joins P) (h : Laid P lexemes trees) {a b : Span} (ha : P a) (hb : P b)
    (hlt : a.start < b.stop) (hfrom : ∃ l ∈ lexemes, l.span.start ≤ a.start)
    (hto : ∃ l ∈ lexemes, b.stop ≤ l.span.stop) (hstart : ∀ t ∈ trees, a.start ≤ t.span.start)
    (hstop : ∀ t ∈ trees, t.span.stop ≤ b.stop) :
    Laid P lexemes [.node (a.through b) trees] := by
  have hend : (a.through b).stop = b.stop := Nat.max_eq_left (Nat.le_of_lt hlt)
  refine ⟨?_, ?_, ?_, List.pairwise_singleton _ _⟩ <;> rw [List.forall_mem_singleton]
  · refine .node (hjoins.through ha hb hlt) (fun t ht => ⟨hstart t ht, ?_⟩) h.ordered h.nested
    rw [hend]
    exact hstop t ht
  · exact hfrom
  · rw [SpanTree.span_node, hend]
    exact hto

theorem start_le (hjoins : Span.Joins P) {t : SpanTree} (h : Laid P lexemes (t :: trees)) :
    ∀ other ∈ t :: trees, t.span.start ≤ other.span.start := by
  intro other hother
  rcases List.mem_cons.mp hother with rfl | hother
  · exact Nat.le_refl _
  · have hlt := hjoins.nonempty (h.nested t List.mem_cons_self).here
    have hbefore : t.span.stop ≤ other.span.start := List.rel_of_pairwise_cons h.ordered hother
    omega

theorem le_stop (hjoins : Span.Joins P) {t : SpanTree} (h : Laid P lexemes (trees ++ [t])) :
    ∀ other ∈ trees ++ [t], other.span.stop ≤ t.span.stop := by
  intro other hother
  rcases List.mem_append.mp hother with hother | hother
  · have hlt := hjoins.nonempty (h.nested t (by simp)).here
    have hbefore : other.span.stop ≤ t.span.start :=
      (List.pairwise_append.mp h.ordered).2.2 other hother t (List.mem_singleton_self t)
    omega
  · exact Nat.le_of_eq (by rw [List.mem_singleton.mp hother])

end Laid

/-! ### Cursors that lay spans -/

namespace Cursor

/-- The lexemes from the cursor on are in the order of the text, an end token is among them, and the
    spans of all other ones satisfy `P`. -/
structure Orderly (P : Span → Prop) (c : Cursor) : Prop where
  joins : Span.Joins P
  ends : c.EndsAhead
  spans : ∀ l ∈ c.rest, l.token ≠ .eof → P l.span
  ordered : c.rest.Pairwise Lexeme.Before

/-- From the cursor `c` to the cursor `d` lexemes are consumed, at least one if the mark is set, and
    the trees are laid on them. -/
structure Lays (P : Span → Prop) (moved : Bool) (c : Cursor) (trees : List SpanTree) (d : Cursor) :
    Prop where
  opens : c.Orderly P
  laid : ∃ consumed, c.Consumes consumed d ∧ Laid P consumed trees ∧ (moved = true → consumed ≠ [])

variable {c d e : Cursor} {moved moved' : Bool} {trees others : List SpanTree}

theorem Orderly.run (h : c.Orderly P) {consumed : List Lexeme} (hd : c.Consumes consumed d) :
    TokenRun P consumed := by
  refine ⟨h.joins, fun l hl => h.spans l ?_ (hd.noEnd l hl), ?_⟩
  · rw [hd.rest_eq]
    exact List.mem_append_left _ hl
  · have hordered := h.ordered
    rw [hd.rest_eq] at hordered
    exact (List.pairwise_append.mp hordered).1

theorem Orderly.consumes (h : c.Orderly P) {consumed : List Lexeme} (hd : c.Consumes consumed d) :
    d.Orderly P := by
  refine ⟨h.joins, hd.endsAhead h.ends, fun l hl => h.spans l ?_, ?_⟩
  · rw [hd.rest_eq]
    exact List.mem_append_right _ hl
  · have hordered := h.ordered
    rw [hd.rest_eq] at hordered
    exact (List.pairwise_append.mp hordered).2.1

/-- The first lexeme that is consumed is the one at the cursor. -/
theorem Consumes.head_eq {consumed : List Lexeme} (h : c.Consumes consumed d)
    (hne : consumed ≠ []) : ∃ rest, consumed = c.current :: rest := by
  obtain ⟨first, rest, rfl⟩ := List.exists_cons_of_ne_nil hne
  have hrest := h.rest_eq
  rw [Cursor.rest, List.cons_append] at hrest
  rw [(List.cons.inj hrest).1]
  exact ⟨rest, rfl⟩

/-- The last lexeme that is consumed is the one before the cursor. -/
theorem Consumes.last_eq {consumed : List Lexeme} (h : c.Consumes consumed d)
    (hne : consumed ≠ []) :
    ∃ front last, consumed = front ++ [last] ∧ d.previousSpan = last.span := by
  refine ⟨consumed.dropLast, consumed.getLast hne, (List.dropLast_concat_getLast hne).symm, ?_⟩
  have hbefore := h.before_eq
  rw [← List.dropLast_concat_getLast hne, List.reverse_append, List.reverse_singleton,
    List.singleton_append, List.cons_append] at hbefore
  rw [previousSpan, hbefore]

namespace Lays

theorem refl (h : c.Orderly P) : c.Lays P false [] c :=
  ⟨h, [], .refl c, .nil P [], nofun⟩

theorem orderly (h : c.Lays P moved trees d) : d.Orderly P := by
  obtain ⟨hc, consumed, hconsumed, _⟩ := h
  exact hc.consumes hconsumed

theorem trans (h : c.Lays P moved trees d) (h' : d.Lays P moved' others e) :
    c.Lays P (moved || moved') (trees ++ others) e := by
  obtain ⟨hc, first, hfirst, hlaid, hmoved⟩ := h
  obtain ⟨_, second, hsecond, hlaid', hmoved'⟩ := h'
  have hboth := hfirst.trans hsecond
  refine ⟨hc, first ++ second, hboth, hlaid.append (hc.run hboth) hlaid', fun hm => ?_⟩
  rcases Bool.or_eq_true_iff.mp hm with hm | hm
  · simp [hmoved hm]
  · simp [hmoved' hm]

theorem unmarked (h : c.Lays P moved trees d) : c.Lays P false trees d := by
  obtain ⟨hc, consumed, hconsumed, hlaid, _⟩ := h
  exact ⟨hc, consumed, hconsumed, hlaid, nofun⟩

theorem bare (h : c.Lays P moved trees d) : c.Lays P moved [] d := by
  obtain ⟨hc, consumed, hconsumed, _, hmoved⟩ := h
  exact ⟨hc, consumed, hconsumed, .nil P consumed, hmoved⟩

theorem past (h : c.Lays P moved trees d) (h' : d.Lays P moved' others e) :
    c.Lays P (moved || moved') trees e := by
  have hboth := h.trans h'.bare
  rwa [List.append_nil] at hboth

/-- A span from the first consumed lexeme to the last one, around all trees. -/
theorem enclose (h : c.Lays P true trees d) :
    c.Lays P true [.node (c.current.span.through d.previousSpan) trees] d := by
  obtain ⟨hc, consumed, hconsumed, hlaid, hmoved⟩ := h
  have hrun := hc.run hconsumed
  have hne := hmoved rfl
  obtain ⟨rest, hhead⟩ := hconsumed.head_eq hne
  obtain ⟨front, last, hlast, hprevious⟩ := hconsumed.last_eq hne
  have hfirstIn : c.current ∈ consumed := hhead ▸ List.mem_cons_self
  have hlastIn : last ∈ consumed := by simp [hlast]
  have hstart : ∀ l ∈ consumed, c.current.span.start ≤ l.span.start :=
    hhead ▸ (hhead ▸ hrun).start_le
  have hstop : ∀ l ∈ consumed, l.span.stop ≤ last.span.stop := hlast ▸ (hlast ▸ hrun).le_stop
  have hlt : c.current.span.start < last.span.stop :=
    Nat.lt_of_lt_of_le (hc.joins.nonempty (hrun.spans _ hfirstIn)) (hstop _ hfirstIn)
  rw [hprevious]
  refine ⟨hc, consumed, hconsumed, hlaid.group hc.joins (hrun.spans _ hfirstIn)
    (hrun.spans _ hlastIn) hlt ⟨_, hfirstIn, Nat.le_refl _⟩ ⟨_, hlastIn, Nat.le_refl _⟩
    (fun t ht => ?_) (fun t ht => ?_), hmoved⟩
  · obtain ⟨l, hl, hle⟩ := hlaid.starts t ht
    exact Nat.le_trans (hstart l hl) hle
  · obtain ⟨l, hl, hle⟩ := hlaid.stops t ht
    exact Nat.le_trans hle (hstop l hl)

/-- A span from the first consumed lexeme to the end of the last tree. -/
theorem encloseTo {last : SpanTree} (h : c.Lays P true (trees ++ [last]) d) :
    c.Lays P true [.node (c.current.span.through last.span) (trees ++ [last])] d := by
  obtain ⟨hc, consumed, hconsumed, hlaid, hmoved⟩ := h
  have hrun := hc.run hconsumed
  obtain ⟨rest, hhead⟩ := hconsumed.head_eq (hmoved rfl)
  have hfirstIn : c.current ∈ consumed := hhead ▸ List.mem_cons_self
  have hlastIn : last ∈ trees ++ [last] := by simp
  have hstart : ∀ t ∈ trees ++ [last], c.current.span.start ≤ t.span.start := by
    intro t ht
    obtain ⟨l, hl, hle⟩ := hlaid.starts t ht
    have hfirst : ∀ l ∈ consumed, c.current.span.start ≤ l.span.start :=
      hhead ▸ (hhead ▸ hrun).start_le
    exact Nat.le_trans (hfirst l hl) hle
  have hlast := (hlaid.nested last hlastIn).here
  have hlt : c.current.span.start < last.span.stop :=
    Nat.lt_of_le_of_lt (hstart last hlastIn) (hc.joins.nonempty hlast)
  exact ⟨hc, consumed, hconsumed, hlaid.group hc.joins (hrun.spans _ hfirstIn) hlast hlt
    ⟨_, hfirstIn, Nat.le_refl _⟩ (hlaid.stops last hlastIn) hstart (hlaid.le_stop hc.joins), hmoved⟩

/-- A span from the start of the first tree to the last consumed lexeme. -/
theorem encloseFrom {first : SpanTree} (h : c.Lays P true (first :: trees) d) :
    c.Lays P true [.node (first.span.through d.previousSpan) (first :: trees)] d := by
  obtain ⟨hc, consumed, hconsumed, hlaid, hmoved⟩ := h
  have hrun := hc.run hconsumed
  obtain ⟨front, last, hlast, hprevious⟩ := hconsumed.last_eq (hmoved rfl)
  have hlastIn : last ∈ consumed := by simp [hlast]
  have hfirstIn : first ∈ first :: trees := List.mem_cons_self
  have hstop : ∀ t ∈ first :: trees, t.span.stop ≤ last.span.stop := by
    intro t ht
    obtain ⟨l, hl, hle⟩ := hlaid.stops t ht
    have hfinal : ∀ l ∈ consumed, l.span.stop ≤ last.span.stop := hlast ▸ (hlast ▸ hrun).le_stop
    exact Nat.le_trans hle (hfinal l hl)
  have hfirst := (hlaid.nested first hfirstIn).here
  have hlt : first.span.start < last.span.stop :=
    Nat.lt_of_lt_of_le (hc.joins.nonempty hfirst) (hstop first hfirstIn)
  rw [hprevious]
  exact ⟨hc, consumed, hconsumed, hlaid.group hc.joins hfirst (hrun.spans _ hlastIn) hlt
    (hlaid.starts first hfirstIn) ⟨_, hlastIn, Nat.le_refl _⟩ (hlaid.start_le hc.joins) hstop,
    hmoved⟩

/-- A span from the start of one tree to the end of another one. -/
theorem join {left right : SpanTree} (h : c.Lays P moved [left, right] d) :
    c.Lays P moved [.node (left.span.through right.span) [left, right]] d := by
  obtain ⟨hc, consumed, hconsumed, hlaid, hmoved⟩ := h
  have hleftIn : left ∈ [left, right] := by simp
  have hrightIn : right ∈ [left, right] := by simp
  have hstart := hlaid.start_le hc.joins
  have hstop : ∀ t ∈ [left, right], t.span.stop ≤ right.span.stop :=
    Laid.le_stop hc.joins (show Laid P consumed ([left] ++ [right]) from hlaid)
  have hleft := (hlaid.nested left hleftIn).here
  have hright := (hlaid.nested right hrightIn).here
  have hlt : left.span.start < right.span.stop :=
    Nat.lt_of_lt_of_le (hc.joins.nonempty hleft) (hstop left hleftIn)
  exact ⟨hc, consumed, hconsumed, hlaid.group hc.joins hleft hright hlt
    (hlaid.starts left hleftIn) (hlaid.stops right hrightIn) hstart hstop, hmoved⟩

-- The modes of a cursor take no part in what it lays.
theorem inCondition {mode : Bool} (h : Lays P moved { c with inCondition := mode } trees d) :
    c.Lays P moved trees { d with inCondition := c.inCondition } := by
  obtain ⟨hc, consumed, hconsumed, hlaid, hmoved⟩ := h
  exact ⟨⟨hc.joins, hc.ends, hc.spans, hc.ordered⟩, consumed,
    ⟨hconsumed.noEnd, hconsumed.before_eq, hconsumed.rest_eq, rfl, hconsumed.inTypeOperand_eq⟩,
    hlaid, hmoved⟩

theorem inTypeOperand {mode : Bool} (h : Lays P moved { c with inTypeOperand := mode } trees d) :
    c.Lays P moved trees { d with inTypeOperand := c.inTypeOperand } := by
  obtain ⟨hc, consumed, hconsumed, hlaid, hmoved⟩ := h
  exact ⟨⟨hc.joins, hc.ends, hc.spans, hc.ordered⟩, consumed,
    ⟨hconsumed.noEnd, hconsumed.before_eq, hconsumed.rest_eq, hconsumed.inCondition_eq, rfl⟩,
    hlaid, hmoved⟩

end Lays

/-- Consuming the lexeme at the cursor, which is a tree without parts. -/
theorem Orderly.leaf (h : c.Orderly P) (htoken : c.token ≠ .eof) :
    c.Lays P true [.node c.current.span []] c.advance := by
  have hconsumed := Consumes.advance h.ends htoken
  have hspan := (h.run hconsumed).spans c.current (List.mem_singleton_self _)
  refine ⟨h, [c.current], hconsumed, ⟨?_, ?_, ?_, ?_⟩, fun _ => List.cons_ne_nil _ _⟩
  · rw [List.forall_mem_singleton]
    exact .node hspan (by simp) .nil (by simp)
  · rw [List.forall_mem_singleton]
    exact ⟨_, List.mem_singleton_self _, Nat.le_refl _⟩
  · rw [List.forall_mem_singleton]
    exact ⟨_, List.mem_singleton_self _, Nat.le_refl _⟩
  · exact List.pairwise_singleton _ _

theorem previousSpan_advance (c : Cursor) : c.advance.previousSpan = c.current.span := by
  unfold advance
  split <;> rfl

/-- A name of a single lexeme inside a part that is nothing but this name. -/
theorem Orderly.nameLeaf (h : c.Orderly P) (htoken : c.token ≠ .eof) :
    c.Lays P true [.node c.current.span [.node c.current.span []]] c.advance := by
  have hleaf := h.leaf htoken
  have hspan : P c.current.span := h.spans c.current List.mem_cons_self htoken
  have hself : c.current.span.through c.current.span = c.current.span := by
    rw [Span.through, Nat.max_eq_left (Nat.le_of_lt (h.joins.nonempty hspan))]
  have hname := hleaf.enclose
  rwa [previousSpan_advance, hself] at hname

end Cursor

end ScriptCompiler
