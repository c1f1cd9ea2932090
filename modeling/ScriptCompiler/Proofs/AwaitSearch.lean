import Mathlib.Logic.Basic
import ScriptCompiler.Proofs.Occurrence
import ScriptCompiler.Syntax.Await

/-!
# The search for `await`

An `await` belongs to a part of a program if it can be reached from there without entering another
function, a lambda, a trailing closure or a class. The search of the compiler finds one if and only
if there is one.
-/

namespace ScriptCompiler

namespace Node

/-- The parts of a part that belong to no other function and to no class inside it. -/
def ownParts : Node → List Node
  | .expr (.lambda ..) => []
  | .expr (.call _ callee args _) => .expr callee :: args.map .expr
  | .stmt (.function ..) | .stmt (.classDecl ..) => []
  | n => n.children.map Child.node

/-- An `await` belongs to the part itself. -/
inductive OwnAwait : Node → Prop where
  | here (span : Span) (operand : Expr) : OwnAwait (.expr (.unary span .await operand))
  | inside {n part : Node} (hpart : part ∈ n.ownParts) (h : OwnAwait part) : OwnAwait n

def isAwait : Node → Bool
  | .expr (.unary _ .await _) => true
  | _ => false

theorem ownAwait_iff {n : Node} :
    n.OwnAwait ↔ n.isAwait = true ∨ ∃ part ∈ n.ownParts, part.OwnAwait := by
  constructor
  · intro h
    cases h with
    | here span operand => exact .inl rfl
    | inside hpart h => exact .inr ⟨_, hpart, h⟩
  · rintro (h | ⟨part, hpart, h⟩)
    · unfold isAwait at h
      split at h
      · exact .here _ _
      · cases h
    · exact .inside hpart h

/-- Types do not run. -/
theorem not_ownAwait_type (t : TypeExpr) : ¬ (Node.type t).OwnAwait := by
  intro h
  generalize hn : Node.type t = n at h
  induction h generalizing t with
  | here span operand => cases hn
  | inside hpart h ih =>
    subst hn
    obtain ⟨child, hchild, rfl⟩ := List.mem_map.mp hpart
    have htype : ∃ inner, child.node = .type inner := by
      cases t <;> simp [Node.children, TypeExpr.children, Child.plain] at hchild
      · obtain ⟨inner, _, rfl⟩ := hchild
        exact ⟨inner, rfl⟩
      · rcases hchild with rfl | rfl
        · exact ⟨_, rfl⟩
        · exact ⟨_, rfl⟩
      · subst hchild
        exact ⟨_, rfl⟩
    obtain ⟨inner, hinner⟩ := htype
    exact ih inner hinner.symm

end Node

mutual

/-- An `await` is found in an expression if and only if one belongs to it. -/
theorem Expr.awaits_iff : ∀ e : Expr, e.awaits = true ↔ (Node.expr e).OwnAwait
  | .number .. | .string .. | .bool .. | .name .. | .lambda .. => by
    rw [Node.ownAwait_iff]
    simp [Expr.awaits, Node.isAwait, Node.ownParts, Node.children, Expr.children]
  | .unary _ op operand => by
    rw [Node.ownAwait_iff]
    cases op <;>
      simp [Expr.awaits, Node.isAwait, Node.ownParts, Node.children, Expr.children, Child.plain,
        operand.awaits_iff]
  | .binary _ _ left right | .assign _ left right | .index _ left right => by
    rw [Node.ownAwait_iff]
    simp [Expr.awaits, Node.isAwait, Node.ownParts, Node.children, Expr.children, Child.plain,
      left.awaits_iff, right.awaits_iff]
  | .typeTest _ operand .. | .cast _ operand .. => by
    rw [Node.ownAwait_iff]
    simp [Expr.awaits, Node.isAwait, Node.ownParts, Node.children, Expr.children, Child.plain,
      operand.awaits_iff, Node.not_ownAwait_type]
  | .field _ receiver _ | .staticMember _ receiver _ => by
    rw [Node.ownAwait_iff]
    simp [Expr.awaits, Node.isAwait, Node.ownParts, Node.children, Expr.children, Child.plain,
      receiver.awaits_iff]
  | .call _ callee args _ => by
    rw [Node.ownAwait_iff]
    simp [Expr.awaits, Node.isAwait, Node.ownParts, callee.awaits_iff, awaitsAny_iff args]
  | .array _ es | .new _ _ es => by
    rw [Node.ownAwait_iff]
    simp [Expr.awaits, Node.isAwait, Node.ownParts, Node.children, Expr.children, Child.plain,
      awaitsAny_iff es]
  | .object _ fields => by
    rw [Node.ownAwait_iff]
    simp [Expr.awaits, Node.isAwait, Node.ownParts, Node.children, Expr.children, Child.plain,
      awaitsAnyField_iff fields]

theorem awaitsAny_iff : ∀ es : List Expr,
    awaitsAny es = true ↔ ∃ e ∈ es, (Node.expr e).OwnAwait
  | [] => by simp [awaitsAny]
  | e :: rest => by simp [awaitsAny, e.awaits_iff, awaitsAny_iff rest]

theorem awaitsAnyField_iff : ∀ fields : List ObjectField,
    awaitsAnyField fields = true ↔ ∃ field ∈ fields, (Node.expr field.value).OwnAwait
  | [] => by simp [awaitsAnyField]
  | ⟨key, value, span⟩ :: rest => by
    simp [awaitsAnyField, value.awaits_iff, awaitsAnyField_iff rest]

end

theorem awaitsOption_iff (init? : Option Expr) :
    awaitsOption init? = true ↔ ∃ e ∈ init?, (Node.expr e).OwnAwait := by
  cases init? with
  | none => simp [awaitsOption]
  | some e => simp [awaitsOption, e.awaits_iff]

/-- The parts of a block are its statements. -/
theorem Node.exists_part_block {P : Node → Prop} (b : Block) :
    (∃ part ∈ (Node.block b).ownParts, P part) ↔ ∃ s ∈ b.stmts, P (.stmt s) := by
  constructor
  · rintro ⟨part, hpart, h⟩
    obtain ⟨child, hchild, rfl⟩ := List.mem_map.mp hpart
    obtain ⟨s, hs, hnode⟩ := mem_stmtChildren hchild
    exact ⟨s, hs, hnode ▸ h⟩
  · rintro ⟨s, hs, h⟩
    obtain ⟨child, hchild, hnode⟩ := exists_mem_stmtChildren [] hs
    exact ⟨child.node, List.mem_map_of_mem hchild, hnode ▸ h⟩

mutual

/-- An `await` is found in a statement if and only if one belongs to it. -/
theorem Stmt.awaits_iff : ∀ s : Stmt, s.awaits = true ↔ (Node.stmt s).OwnAwait
  | .namespaceDecl .. | .usingDecl .. | .foreignDecl .. | .function .. | .classDecl .. => by
    rw [Node.ownAwait_iff]
    simp [Stmt.awaits, Node.isAwait, Node.ownParts, Node.children, Stmt.children]
  | .letDecl _ _ _ value? _ | .ret _ value? => by
    rw [Node.ownAwait_iff]
    simp [Stmt.awaits, Node.isAwait, Node.ownParts, Node.children, Stmt.children, Child.plain,
      awaitsOption_iff]
  | .ifElse _ condition thenBlock elseBranch => by
    rw [Node.ownAwait_iff]
    simp [Stmt.awaits, Node.isAwait, Node.ownParts, Node.children, Stmt.children, Child.plain,
      condition.awaits_iff, thenBlock.awaits_iff, elseBranch.awaits_iff, or_assoc]
  | .whileLoop _ condition body | .untilLoop _ condition body => by
    rw [Node.ownAwait_iff]
    simp [Stmt.awaits, Node.isAwait, Node.ownParts, Node.children, Stmt.children, Child.plain,
      condition.awaits_iff, body.awaits_iff]
  | .block _ body => by
    rw [Node.ownAwait_iff]
    simp [Stmt.awaits, Node.isAwait, Node.ownParts, Node.children, Stmt.children, Child.plain,
      body.awaits_iff]
  | .expr _ value => by
    rw [Node.ownAwait_iff]
    simp [Stmt.awaits, Node.isAwait, Node.ownParts, Node.children, Stmt.children, Child.plain,
      value.awaits_iff]

/-- An `await` is found in a block if and only if one belongs to it. -/
theorem Block.awaits_iff : ∀ b : Block, b.awaits = true ↔ (Node.block b).OwnAwait
  | ⟨stmts, span⟩ => by
    rw [Node.ownAwait_iff, Node.exists_part_block, Block.awaits, awaitsAnyStmt_iff stmts]
    simp [Node.isAwait]

theorem awaitsAnyStmt_iff : ∀ stmts : List Stmt,
    awaitsAnyStmt stmts = true ↔ ∃ s ∈ stmts, (Node.stmt s).OwnAwait
  | [] => by simp [awaitsAnyStmt]
  | s :: rest => by simp [awaitsAnyStmt, s.awaits_iff, awaitsAnyStmt_iff rest]

theorem ElseBranch.awaits_iff : ∀ b : ElseBranch,
    b.awaits = true ↔ (Node.elseBranch b).OwnAwait
  | .none => by
    rw [Node.ownAwait_iff]
    simp [ElseBranch.awaits, Node.isAwait, Node.ownParts, Node.children, ElseBranch.children]
  | .block body => by
    rw [Node.ownAwait_iff]
    simp [ElseBranch.awaits, Node.isAwait, Node.ownParts, Node.children, ElseBranch.children,
      Child.plain, body.awaits_iff]
  | .elseIf condition thenBlock elseBranch => by
    rw [Node.ownAwait_iff]
    simp [ElseBranch.awaits, Node.isAwait, Node.ownParts, Node.children, ElseBranch.children,
      Child.plain, condition.awaits_iff, thenBlock.awaits_iff, elseBranch.awaits_iff, or_assoc]

end

end ScriptCompiler
