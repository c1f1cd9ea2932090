import Mathlib.Data.List.Infix
import ScriptCompiler.Proofs.Occurrence
import ScriptCompiler.Script.Generate

/-!
# Nodes and their rows

The nodes that a source map can name are the statements, the first constructor of a class and the
methods with a body, as long as no lambda and no block of a call lies around them. Each of them
starts one row of the script, in the order of the listing, and no other row remembers a place.
-/

namespace ScriptCompiler

namespace Script

/-- A node that rows of the script belong to: its place and its rows. -/
structure Landmark where
  span : Span
  rows : List Row

/-- The text of the node, which starts behind the indentation of its first row. -/
def Landmark.text (mark : Landmark) : List Char :=
  match mark.rows with
  | [] => []
  | first :: rest => first.text.toList ++ '\n' :: (Row.code rest).toList

/-- What the members of a class depend on. The class of a singleton stands inside a function. -/
def classContext (ctx : Context) (name : String) : ClassKind → Context
  | .singleton => ctx.deeper.insideClass ("__" ++ name ++ "_Impl")
  | _ => ctx.insideClass name

end Script

open Script

/-- The statement itself, unless it is left out of the script. -/
def Stmt.ownLandmarks (ctx : Context) (s : Stmt) : List Landmark :=
  if ctx.optimize && s.isInert then [] else [⟨s.span, s.rows ctx⟩]

mutual

def Stmt.innerLandmarks (ctx : Context) : Stmt → List Landmark
  | .function _ _ _ _ _ body _ => body.landmarks ctx.deeper
  | .classDecl _ ⟨kind, name, extends?, _, members, uniqueName?⟩ =>
    let inside := classContext ctx (uniqueName?.getD name.name) kind
    constructorLandmarks inside extends?.isSome (fieldInits inside members) members
      ++ methodLandmarks inside members
  | .ifElse _ _ thenBlock elseBranch =>
    thenBlock.landmarks ctx.deeper ++ elseBranch.landmarks ctx
  | .whileLoop _ _ body => body.landmarks ctx.deeper
  | .untilLoop _ _ body => body.landmarks ctx.deeper
  | .block _ body => body.landmarks ctx.deeper
  | _ => []

def Block.landmarks (ctx : Context) : Block → List Landmark
  | ⟨stmts, _⟩ => stmtLandmarks ctx stmts

/-- The nodes of statements: each statement and then what is inside it. -/
def stmtLandmarks (ctx : Context) : List Stmt → List Landmark
  | [] => []
  | s :: rest => s.ownLandmarks ctx ++ s.innerLandmarks ctx ++ stmtLandmarks ctx rest

def ElseBranch.landmarks (ctx : Context) : ElseBranch → List Landmark
  | .none => []
  | .block body => body.landmarks ctx.deeper
  | .elseIf _ thenBlock elseBranch => thenBlock.landmarks ctx.deeper ++ elseBranch.landmarks ctx

/-- The first constructor and the nodes inside it. -/
def constructorLandmarks (ctx : Context) (hasBase : Bool) (inits : List String) :
    List Member → List Landmark
  | [] => []
  | .constructor span params body :: _ =>
    ⟨span, (constructorRows ctx hasBase inits [.constructor span params body]).getD []⟩
      :: body.landmarks ctx.deeper
  | _ :: rest => constructorLandmarks ctx hasBase inits rest

/-- The methods that have a body, each with the nodes inside it. -/
def methodLandmarks (ctx : Context) : List Member → List Landmark
  | [] => []
  | .method span name params returnType? effect? (some body) :: rest =>
    ⟨span, methodRows ctx [.method span name params returnType? effect? (some body)]⟩
      :: body.landmarks ctx.deeper ++ methodLandmarks ctx rest
  | _ :: rest => methodLandmarks ctx rest

end

def Program.landmarks (options : Options) (program : Program) : List Landmark :=
  stmtLandmarks ⟨0, none, declaredClasses program.stmts, options.optimize⟩ program.stmts

namespace Script

/-! ### Rows that remember a place -/

/-- The rows that remember a place are, in their order, the first rows of the nodes, and the other
    rows of each node follow there. -/
inductive Marked : List Row → List Landmark → Prop where
  | nil : Marked [] []
  | plain {row : Row} {rows : List Row} {marks : List Landmark} (hrow : row.origin? = none)
      (h : Marked rows marks) : Marked (row :: rows) marks
  | mark {row : Row} {rows : List Row} {marks : List Landmark} {span : Span} {own : List Row}
      (hrow : row.origin? = some span) (hown : row :: own <+: row :: rows) (h : Marked rows marks) :
      Marked (row :: rows) (⟨span, row :: own⟩ :: marks)

namespace Marked

theorem append {rows rows' : List Row} {marks marks' : List Landmark} (h : Marked rows marks)
    (h' : Marked rows' marks') : Marked (rows ++ rows') (marks ++ marks') := by
  induction h with
  | nil => exact h'
  | plain hrow _ ih => exact .plain hrow ih
  | mark hrow hown _ ih => exact .mark hrow (hown.trans (List.prefix_append _ _)) ih

theorem of_plain {rows : List Row} (h : ∀ row ∈ rows, row.origin? = none) : Marked rows [] := by
  induction rows with
  | nil => exact .nil
  | cons row rest ih =>
    obtain ⟨hrow, hrest⟩ := List.forall_mem_cons.mp h
    exact .plain hrow (ih hrest)

/-- Rows behind those of nodes that remember no place. -/
theorem append_plain {rows rows' : List Row} {marks : List Landmark} (h : Marked rows marks)
    (h' : ∀ row ∈ rows', row.origin? = none) : Marked (rows ++ rows') marks := by
  have happend := h.append (of_plain h')
  rwa [List.append_nil] at happend

/-- A node of its own: its first row remembers its place. -/
theorem node {ctx : Context} {span : Span} {text : String} {rows : List Row}
    {marks : List Landmark} (h : Marked rows marks) :
    Marked (ctx.rowFrom span text :: rows) (⟨span, ctx.rowFrom span text :: rows⟩ :: marks) :=
  .mark rfl (List.prefix_refl _) h

end Marked

@[simp] theorem Context.origin?_row (ctx : Context) (text : String) :
    (ctx.row text).origin? = none :=
  rfl

@[simp] theorem Context.indent_row (ctx : Context) (text : String) :
    (ctx.row text).indent = ctx.indent :=
  rfl

@[simp] theorem Context.indent_rowFrom (ctx : Context) (span : Span) (text : String) :
    (ctx.rowFrom span text).indent = ctx.indent :=
  rfl

@[simp] theorem Context.indent_deeper (ctx : Context) : ctx.deeper.indent = ctx.indent + 1 :=
  rfl

theorem origin?_map_row (ctx : Context) (texts : List String) :
    ∀ row ∈ texts.map ctx.row, row.origin? = none :=
  List.forall_mem_map.mpr fun text _ => ctx.origin?_row text

theorem origin?_mixinRows (ctx : Context) (name : String) (implements : List TypeExpr) :
    ∀ row ∈ mixinRows ctx name implements, row.origin? = none := by
  unfold mixinRows
  split <;> simp

theorem origin?_implicitConstructor (ctx : Context) (hasBase : Bool) (inits : List String) :
    ∀ row ∈ implicitConstructor ctx hasBase inits, row.origin? = none := by
  unfold implicitConstructor
  split
  · simp
  · rw [List.forall_mem_append, List.forall_mem_append]
    refine ⟨⟨?_, origin?_map_row _ _⟩, by simp⟩
    cases hasBase <;> simp

end Script

theorem Stmt.ownLandmarks_of_not_inert {s : Stmt} (h : s.isInert = false) (ctx : Context) :
    s.ownLandmarks ctx = [⟨s.span, s.rows ctx⟩] := by
  rw [ownLandmarks, h, Bool.and_false]
  rfl

mutual

/-- The rows of a statement are marked by the statement and the nodes inside it. -/
theorem Stmt.marked (ctx : Context) : ∀ s : Stmt,
    Marked (s.rows ctx) (s.ownLandmarks ctx ++ s.innerLandmarks ctx)
  | .namespaceDecl span decl => by
    unfold Stmt.ownLandmarks Stmt.innerLandmarks Stmt.rows
    cases ctx.optimize
    · exact Marked.nil.node
    · exact .nil
  | .usingDecl span decl => by
    unfold Stmt.ownLandmarks Stmt.innerLandmarks Stmt.rows
    cases ctx.optimize
    · exact Marked.nil.node
    · exact .nil
  | .foreignDecl span decl => by
    rw [Stmt.ownLandmarks_of_not_inert rfl, Stmt.rows]
    exact Marked.nil.node
  | .letDecl span name type? none unique? => by
    rw [Stmt.ownLandmarks_of_not_inert rfl, Stmt.rows]
    exact Marked.nil.node
  | .letDecl span name type? (some init) unique? => by
    rw [Stmt.ownLandmarks_of_not_inert rfl, Stmt.rows]
    exact Marked.nil.node
  | .function span name params returnType? effect? body unique? => by
    rw [Stmt.ownLandmarks_of_not_inert rfl, Stmt.rows, Stmt.innerLandmarks]
    exact ((Block.marked ctx.deeper body).append_plain (by simp)).node
  | .classDecl span ⟨kind, name, extends?, implements, members, unique?⟩ => by
    rw [Stmt.ownLandmarks_of_not_inert rfl, Stmt.innerLandmarks]
    have hmembers :=
      (constructorRows_marked (classContext ctx (unique?.getD name.name) kind) extends?.isSome
        (fieldInits (classContext ctx (unique?.getD name.name) kind) members) members).append
        (methodRows_marked (classContext ctx (unique?.getD name.name) kind) members)
    cases kind with
    | singleton =>
      rw [Stmt.rows]
      exact .node (.plain rfl ((((hmembers.append_plain (by simp)).append_plain
        (origin?_mixinRows _ _ _)).append_plain (by simp [instanceRows])).append_plain (by simp)))
    | plain | trait =>
      rw [Stmt.rows]
      · exact .node ((hmembers.append_plain (by simp)).append_plain (origin?_mixinRows _ _ _))
      · nofun
  | .ifElse span condition thenBlock elseBranch => by
    rw [Stmt.ownLandmarks_of_not_inert rfl, Stmt.rows, Stmt.innerLandmarks]
    have hbranches :=
      (Block.marked ctx.deeper thenBlock).append (ElseBranch.marked ctx elseBranch)
    exact (hbranches.append_plain (by simp)).node
  | .whileLoop span condition body => by
    rw [Stmt.ownLandmarks_of_not_inert rfl, Stmt.rows, Stmt.innerLandmarks]
    exact ((Block.marked ctx.deeper body).append_plain (by simp)).node
  | .untilLoop span condition body => by
    rw [Stmt.ownLandmarks_of_not_inert rfl, Stmt.rows, Stmt.innerLandmarks]
    exact ((Block.marked ctx.deeper body).append_plain (by simp)).node
  | .ret span none => by
    rw [Stmt.ownLandmarks_of_not_inert rfl, Stmt.rows]
    exact Marked.nil.node
  | .ret span (some value) => by
    rw [Stmt.ownLandmarks_of_not_inert rfl, Stmt.rows]
    exact Marked.nil.node
  | .block span body => by
    rw [Stmt.ownLandmarks_of_not_inert rfl, Stmt.rows, Stmt.innerLandmarks]
    exact ((Block.marked ctx.deeper body).append_plain (by simp)).node
  | .expr span value => by
    rw [Stmt.ownLandmarks_of_not_inert rfl, Stmt.rows]
    exact Marked.nil.node

theorem Block.marked (ctx : Context) : ∀ b : Block, Marked (b.rows ctx) (b.landmarks ctx)
  | ⟨stmts, _⟩ => by
    rw [Block.rows, Block.landmarks]
    exact stmtRows_marked ctx stmts

theorem stmtRows_marked (ctx : Context) : ∀ stmts : List Stmt,
    Marked (stmtRows ctx stmts) (stmtLandmarks ctx stmts)
  | [] => by
    rw [stmtRows, stmtLandmarks]
    exact .nil
  | s :: rest => by
    rw [stmtRows, stmtLandmarks]
    exact (Stmt.marked ctx s).append (stmtRows_marked ctx rest)

theorem ElseBranch.marked (ctx : Context) : ∀ b : ElseBranch,
    Marked (b.rows ctx) (b.landmarks ctx)
  | .none => by
    rw [ElseBranch.rows, ElseBranch.landmarks]
    exact .nil
  | .block body => by
    rw [ElseBranch.rows, ElseBranch.landmarks]
    exact .plain rfl (Block.marked ctx.deeper body)
  | .elseIf condition thenBlock elseBranch => by
    rw [ElseBranch.rows, ElseBranch.landmarks]
    exact .plain rfl
      ((Block.marked ctx.deeper thenBlock).append (ElseBranch.marked ctx elseBranch))

theorem constructorRows_marked (ctx : Context) (hasBase : Bool) (inits : List String) :
    ∀ members : List Member,
      Marked ((constructorRows ctx hasBase inits members).getD
        (implicitConstructor ctx hasBase inits)) (constructorLandmarks ctx hasBase inits members)
  | [] => by
    rw [constructorRows, constructorLandmarks]
    exact .of_plain (origin?_implicitConstructor ctx hasBase inits)
  | .constructor span params body :: rest => by
    rw [constructorRows, constructorLandmarks, constructorRows]
    have hsuper : ∀ row ∈ if hasBase then [ctx.deeper.row "super(...arguments);"] else [],
        row.origin? = none := by
      cases hasBase <;> simp
    have hbefore := (Marked.of_plain hsuper).append_plain (origin?_map_row ctx.deeper inits)
    exact ((hbefore.append (Block.marked ctx.deeper body)).append_plain (by simp)).node
  | .method .. :: rest => by
    simp only [constructorRows, constructorLandmarks]
    exact constructorRows_marked ctx hasBase inits rest
  | .field .. :: rest => by
    simp only [constructorRows, constructorLandmarks]
    exact constructorRows_marked ctx hasBase inits rest

theorem methodRows_marked (ctx : Context) : ∀ members : List Member,
    Marked (methodRows ctx members) (methodLandmarks ctx members)
  | [] => by
    rw [methodRows, methodLandmarks]
    exact .nil
  | .method span name params returnType? effect? (some body) :: rest => by
    rw [methodRows, methodLandmarks, methodRows, methodRows, List.append_nil]
    have hbody : Marked (body.rows ctx.deeper ++ [ctx.row "\x7d"]) (body.landmarks ctx.deeper) :=
      (Block.marked ctx.deeper body).append_plain (by simp)
    exact .mark rfl (List.prefix_append (_ :: _) _) (hbody.append (methodRows_marked ctx rest))
  | .method span name params returnType? effect? none :: rest => by
    simp only [methodRows, methodLandmarks]
    exact methodRows_marked ctx rest
  | .constructor .. :: rest => by
    simp only [methodRows, methodLandmarks]
    exact methodRows_marked ctx rest
  | .field .. :: rest => by
    simp only [methodRows, methodLandmarks]
    exact methodRows_marked ctx rest

end

namespace Script

/-- The rows are indented at least to `base`, and beyond it only as far as there are rows around
    them, where `slack` of those are not listed. -/
def Nests (base slack : Nat) (rows : List Row) : Prop :=
  ∀ row ∈ rows, base ≤ row.indent ∧ 2 * (row.indent - base) < rows.length + slack

namespace Nests

variable {base slack : Nat} {rows rows' : List Row}

theorem nil : Nests base slack [] :=
  fun _ h => absurd h List.not_mem_nil

theorem mono (h : Nests base slack rows) {slack' : Nat} (hle : slack ≤ slack') :
    Nests base slack' rows := by
  intro row hrow
  obtain ⟨hbase, hlt⟩ := h row hrow
  exact ⟨hbase, by omega⟩

theorem append (h : Nests base slack rows) (h' : Nests base slack rows') :
    Nests base slack (rows ++ rows') := by
  intro row hrow
  rw [List.length_append]
  rcases List.mem_append.mp hrow with hrow | hrow
  · obtain ⟨hbase, hlt⟩ := h row hrow
    exact ⟨hbase, by omega⟩
  · obtain ⟨hbase, hlt⟩ := h' row hrow
    exact ⟨hbase, by omega⟩

theorem of_level (h : ∀ row ∈ rows, row.indent = base) : Nests base slack rows := by
  intro row hrow
  have hlength := List.length_pos_of_mem hrow
  rw [h row hrow]
  omega

theorem cons {row : Row} (hrow : row.indent = base) (h : Nests base (slack + 1) rows) :
    Nests base slack (row :: rows) := by
  rintro other (_ | ⟨_, hother⟩)
  · rw [hrow, List.length_cons]
    omega
  · obtain ⟨hbase, hlt⟩ := h other hother
    rw [List.length_cons]
    exact ⟨hbase, by omega⟩

/-- One level further in needs two more rows around. -/
theorem deeper (h : Nests (base + 1) slack rows) : Nests base (slack + 2) rows := by
  intro row hrow
  obtain ⟨hbase, hlt⟩ := h row hrow
  omega

/-- The two rows may be those of an opening and a closing brace. -/
theorem wrap {first last : Row} (h : Nests base 2 rows)
    (hfirst : first.indent = base := by rfl) (hlast : last.indent = base := by rfl) :
    Nests base 0 (first :: rows ++ [last]) := by
  intro row hrow
  have hlength : (first :: rows ++ [last]).length = rows.length + 2 := by simp
  rw [hlength]
  simp only [List.cons_append, List.mem_cons, List.mem_append, List.not_mem_nil, or_false] at hrow
  rcases hrow with rfl | hrow | rfl
  · omega
  · obtain ⟨hbase, hlt⟩ := h row hrow
    exact ⟨hbase, by omega⟩
  · omega

end Nests

theorem nests_row (ctx : Context) (slack : Nat) (text : String) :
    Nests ctx.indent slack [ctx.row text] :=
  .of_level (by simp)

theorem nests_rowFrom (ctx : Context) (slack : Nat) (span : Span) (text : String) :
    Nests ctx.indent slack [ctx.rowFrom span text] :=
  .of_level (by simp)

theorem nests_map_row (ctx : Context) (slack : Nat) (texts : List String) :
    Nests ctx.indent slack (texts.map ctx.row) :=
  .of_level (List.forall_mem_map.mpr fun text _ => ctx.indent_row text)

theorem nests_mixinRows (ctx : Context) (name : String) (implements : List TypeExpr) :
    Nests ctx.indent 0 (mixinRows ctx name implements) := by
  unfold mixinRows
  split
  · exact .nil
  · simp only [Nests, List.forall_mem_cons, Context.indent_row, Context.indent_deeper,
      List.length_cons]
    refine ⟨?_, ?_, ?_, ?_, ?_, ?_, ?_, nofun⟩ <;> omega

theorem nests_instanceRows (ctx : Context) (name : String) :
    Nests ctx.indent 0 (instanceRows ctx name) := by
  simp only [instanceRows, Nests, List.forall_mem_cons, Context.indent_row, Context.indent_deeper,
    List.length_cons]
  refine ⟨?_, ?_, ?_, ?_, ?_, ?_, ?_, nofun⟩ <;> omega

theorem nests_implicitConstructor (ctx : Context) (hasBase : Bool) (inits : List String) :
    Nests ctx.indent 0 (implicitConstructor ctx hasBase inits) := by
  unfold implicitConstructor
  split
  · exact .nil
  · have hinits := nests_map_row ctx.deeper 0 inits
    cases hasBase
    · exact .wrap hinits.deeper
    · exact .wrap ((nests_row ctx.deeper 0 _).append hinits).deeper

end Script

mutual

/-- The rows of a statement are indented as far as there are rows. -/
theorem Stmt.nests (ctx : Context) : ∀ s : Stmt, Nests ctx.indent 0 (s.rows ctx)
  | .namespaceDecl span decl => by
    rw [Stmt.rows]
    split
    · exact .nil
    · exact nests_rowFrom ctx 0 span _
  | .usingDecl span decl => by
    rw [Stmt.rows]
    split
    · exact .nil
    · exact nests_rowFrom ctx 0 span _
  | .foreignDecl span decl => by
    rw [Stmt.rows]
    exact nests_rowFrom ctx 0 span _
  | .letDecl span name type? none unique? => by
    rw [Stmt.rows]
    exact nests_rowFrom ctx 0 span _
  | .letDecl span name type? (some init) unique? => by
    rw [Stmt.rows]
    exact nests_rowFrom ctx 0 span _
  | .function span name params returnType? effect? body unique? => by
    rw [Stmt.rows]
    exact .wrap (Block.nests ctx.deeper body).deeper
  | .classDecl span ⟨kind, name, extends?, implements, members, unique?⟩ => by
    have hmembers :=
      (constructorRows_nests (classContext ctx (unique?.getD name.name) kind) extends?.isSome
        (fieldInits (classContext ctx (unique?.getD name.name) kind) members) members).append
        (methodRows_nests (classContext ctx (unique?.getD name.name) kind) members)
    cases kind with
    | singleton =>
      rw [Stmt.rows]
      exact .wrap (Nests.deeper (((Nests.wrap hmembers.deeper).append
        (nests_mixinRows _ _ _)).append (nests_instanceRows _ _)))
    | plain | trait =>
      rw [Stmt.rows]
      · exact (Nests.wrap hmembers.deeper).append (nests_mixinRows _ _ _)
      · nofun
  | .ifElse span condition thenBlock elseBranch => by
    rw [Stmt.rows]
    exact .wrap
      ((Block.nests ctx.deeper thenBlock).deeper.append (ElseBranch.nests ctx elseBranch))
  | .whileLoop span condition body => by
    rw [Stmt.rows]
    exact .wrap (Block.nests ctx.deeper body).deeper
  | .untilLoop span condition body => by
    rw [Stmt.rows]
    exact .wrap (Block.nests ctx.deeper body).deeper
  | .ret span none => by
    rw [Stmt.rows]
    exact nests_rowFrom ctx 0 span _
  | .ret span (some value) => by
    rw [Stmt.rows]
    exact nests_rowFrom ctx 0 span _
  | .block span body => by
    rw [Stmt.rows]
    exact .wrap (Block.nests ctx.deeper body).deeper
  | .expr span value => by
    rw [Stmt.rows]
    exact nests_rowFrom ctx 0 span _

theorem Block.nests (ctx : Context) : ∀ b : Block, Nests ctx.indent 0 (b.rows ctx)
  | ⟨stmts, _⟩ => by
    rw [Block.rows]
    exact stmtRows_nests ctx stmts

theorem stmtRows_nests (ctx : Context) : ∀ stmts : List Stmt,
    Nests ctx.indent 0 (stmtRows ctx stmts)
  | [] => by
    rw [stmtRows]
    exact .nil
  | s :: rest => by
    rw [stmtRows]
    exact (Stmt.nests ctx s).append (stmtRows_nests ctx rest)

/-- The brace that closes the last branch comes after these rows. -/
theorem ElseBranch.nests (ctx : Context) : ∀ b : ElseBranch, Nests ctx.indent 2 (b.rows ctx)
  | .none => by
    rw [ElseBranch.rows]
    exact .nil
  | .block body => by
    rw [ElseBranch.rows]
    exact .cons rfl ((Block.nests ctx.deeper body).deeper.mono (by omega))
  | .elseIf condition thenBlock elseBranch => by
    rw [ElseBranch.rows]
    have hbranches :=
      (Block.nests ctx.deeper thenBlock).deeper.append (ElseBranch.nests ctx elseBranch)
    exact .cons rfl (hbranches.mono (by omega))

theorem constructorRows_nests (ctx : Context) (hasBase : Bool) (inits : List String) :
    ∀ members : List Member,
      Nests ctx.indent 0 ((constructorRows ctx hasBase inits members).getD
        (implicitConstructor ctx hasBase inits))
  | [] => by
    rw [constructorRows]
    exact nests_implicitConstructor ctx hasBase inits
  | .constructor span params body :: rest => by
    rw [constructorRows]
    have hsuper : Nests (ctx.indent + 1) 0
        (if hasBase then [ctx.deeper.row "super(...arguments);"] else []) := by
      cases hasBase
      · exact .nil
      · exact nests_row ctx.deeper 0 _
    exact .wrap ((hsuper.append (nests_map_row ctx.deeper 0 inits)).append
      (Block.nests ctx.deeper body)).deeper
  | .method .. :: rest => by
    simp only [constructorRows]
    exact constructorRows_nests ctx hasBase inits rest
  | .field .. :: rest => by
    simp only [constructorRows]
    exact constructorRows_nests ctx hasBase inits rest

theorem methodRows_nests (ctx : Context) : ∀ members : List Member,
    Nests ctx.indent 0 (methodRows ctx members)
  | [] => by
    rw [methodRows]
    exact .nil
  | .method span name params returnType? effect? (some body) :: rest => by
    rw [methodRows]
    exact (Nests.wrap (Block.nests ctx.deeper body).deeper).append
      (methodRows_nests ctx rest)
  | .method span name params returnType? effect? none :: rest => by
    simp only [methodRows]
    exact methodRows_nests ctx rest
  | .constructor .. :: rest => by
    simp only [methodRows]
    exact methodRows_nests ctx rest
  | .field .. :: rest => by
    simp only [methodRows]
    exact methodRows_nests ctx rest

end

namespace Script

end Script

end ScriptCompiler
