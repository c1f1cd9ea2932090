import ScriptCompiler.Proofs.DiagnosticPlaces
import ScriptCompiler.Proofs.ReadBack
import ScriptCompiler.Proofs.SpanTrees

/-!
# Spans of parsed programs

Every production of the grammar lays the spans of what it finds on the lexemes that it consumes.
Each proof follows its production step by step, with the cursor that each step leads to, and puts
the span of the whole around the trees of the parts.
-/

namespace ScriptCompiler

variable {P : Span → Prop}

namespace TokenParser

/-- Where the parser succeeds at the cursor `c`, its result and the next cursor satisfy `Q`. -/
def Leads {α : Type} (p : TokenParser α) (c : Cursor) (Q : α → Cursor → Prop) : Prop :=
  ∀ a d, p c = .ok a d → Q a d

/-- The parser lays the trees of its result, and consumes a lexeme where its result says so. -/
def Lays {α : Type} (P : Span → Prop) (moved : α → Bool) (trees : α → List SpanTree)
    (p : TokenParser α) : Prop :=
  ∀ c : Cursor, c.Orderly P → Leads p c fun a d => c.Lays P (moved a) (trees a) d

/-- The parser consumes a lexeme and lays a single tree. -/
abbrev LaysOne {α : Type} (P : Span → Prop) (tree : α → SpanTree) (p : TokenParser α) : Prop :=
  Lays P (fun _ => true) (fun a => [tree a]) p

/-- At any token but the end token the parser consumes a lexeme and lays a single tree. -/
abbrev LaysAtToken {α : Type} (P : Span → Prop) (tree : α → SpanTree) (p : TokenParser α) : Prop :=
  ∀ c : Cursor, c.Orderly P → c.token ≠ .eof → Leads p c fun a d => c.Lays P true [tree a] d

namespace Leads

variable {α β : Type} {p : TokenParser α} {f : α → TokenParser β} {c d : Cursor}
  {Q : α → Cursor → Prop} {R : β → Cursor → Prop}

theorem pure {a : α} (h : Q a c) : Leads (pure a) c Q := by
  intro b d hrun
  obtain ⟨rfl, rfl⟩ := EStateM.Result.ok.inj hrun
  exact h

/-- A parser after another one goes on where that one has led to. -/
theorem bind (hp : Leads p c Q) (hf : ∀ a d, Q a d → Leads (f a) d R) : Leads (p >>= f) c R := by
  intro b e hrun
  change EStateM.bind p f c = .ok b e at hrun
  unfold EStateM.bind at hrun
  split at hrun
  · rename_i a d hfirst
    exact hf a d (hp a d hfirst) b e hrun
  · cases hrun

theorem run {a : α} (hrun : p c = .ok a d) (h : Leads (f a) d R) : Leads (p >>= f) c R := by
  refine bind (Q := fun b e => b = a ∧ e = d) (fun b e hb => ?_) ?_
  · obtain ⟨rfl, rfl⟩ := EStateM.Result.ok.inj (hrun.symm.trans hb)
    exact ⟨rfl, rfl⟩
  · rintro _ _ ⟨rfl, rfl⟩
    exact h

theorem map {g : α → β} (hp : Leads p c fun a d => R (g a) d) : Leads (g <$> p) c R := by
  intro b e hrun
  change EStateM.map g p c = .ok b e at hrun
  unfold EStateM.map at hrun
  split at hrun
  · rename_i a d hfirst
    obtain ⟨rfl, rfl⟩ := EStateM.Result.ok.inj hrun
    exact hp a d hfirst
  · cases hrun

theorem failAt {span : Span} {cause : ParseCause} : Leads (failAt span cause) c Q := by
  intro a d hrun
  cases hrun

theorem failHere {cause : Token → ParseCause} : Leads (failHere cause) c Q := by
  intro a d hrun
  cases hrun

/-- What each step keeps, with the cursor that it leads to, all of them keep. -/
theorem iterateWithin {step : α → TokenParser (Option α)}
    (hstep : ∀ a c, Q a c → Leads (step a) c fun next d => Q (next.getD a) d)
    (bound : List Lexeme) {a : α} (ha : Q a c) : Leads (iterateWithin step bound a) c Q := by
  induction bound generalizing a c with
  | nil => exact pure ha
  | cons _ bound ih =>
    refine (hstep a c ha).bind fun next d hnext => ?_
    cases next with
    | some b => exact ih hnext
    | none => exact pure hnext

theorem iterate {step : α → TokenParser (Option α)}
    (hstep : ∀ a c, Q a c → Leads (step a) c fun next d => Q (next.getD a) d) {a : α}
    (ha : Q a c) : Leads (iterate step a) c Q :=
  iterateWithin hstep c.after ha

/-- The token is consumed and is the latest one then. -/
theorem expect {token : Token} (htoken : token ≠ .eof) (hc : c.Orderly P) :
    Leads (expect token) c fun l d => c.Lays P true [] d ∧ l.span = d.previousSpan := by
  intro l d hrun
  unfold TokenParser.expect at hrun
  split at hrun
  · rename_i hseen
    obtain ⟨rfl, rfl⟩ := EStateM.Result.ok.inj hrun
    exact ⟨(hc.leaf (hseen ▸ htoken)).bare, c.previousSpan_advance.symm⟩
  · cases hrun

end Leads

namespace Lays

variable {α : Type} {p : TokenParser α} {moved : α → Bool} {trees : α → List SpanTree}
  {tree : α → SpanTree}

theorem eat {token : Token} (htoken : token ≠ .eof) : Lays P id (fun _ => []) (eat token) := by
  intro c hc eaten d hrun
  unfold TokenParser.eat at hrun
  split at hrun
  · rename_i hseen
    obtain ⟨rfl, rfl⟩ := EStateM.Result.ok.inj hrun
    exact (hc.leaf (hseen ▸ htoken)).bare
  · obtain ⟨rfl, rfl⟩ := EStateM.Result.ok.inj hrun
    exact .refl hc

theorem ident : LaysOne P Ident.spanTree TokenParser.ident := by
  intro c hc name d hrun
  unfold TokenParser.ident at hrun
  split at hrun
  · rename_i htoken
    obtain ⟨rfl, rfl⟩ := EStateM.Result.ok.inj hrun
    exact hc.leaf (htoken ▸ Token.noConfusion)
  · cases hrun

theorem memberName : LaysOne P Ident.spanTree memberName := by
  intro c hc name d hrun
  unfold TokenParser.memberName at hrun
  split at hrun
  · rename_i htoken
    obtain ⟨rfl, rfl⟩ := EStateM.Result.ok.inj hrun
    exact hc.leaf (htoken ▸ Token.noConfusion)
  · rename_i htoken
    obtain ⟨rfl, rfl⟩ := EStateM.Result.ok.inj hrun
    exact hc.leaf (htoken ▸ Token.noConfusion)
  · cases hrun

theorem withCondition {mode : Bool} (hp : Lays P moved trees p) :
    Lays P moved trees (withCondition mode p) := by
  intro c hc a d hrun
  have hmode : Cursor.Orderly P { c with inCondition := mode } :=
    ⟨hc.joins, hc.ends, hc.spans, hc.ordered⟩
  unfold TokenParser.withCondition at hrun
  split at hrun
  · rename_i b e hinner
    obtain ⟨rfl, rfl⟩ := EStateM.Result.ok.inj hrun
    exact (hp _ hmode _ e hinner).inCondition
  · cases hrun

theorem withTypeOperand (hp : Lays P moved trees p) : Lays P moved trees (withTypeOperand p) := by
  intro c hc a d hrun
  have hmode : Cursor.Orderly P { c with inTypeOperand := true } :=
    ⟨hc.joins, hc.ends, hc.spans, hc.ordered⟩
  unfold TokenParser.withTypeOperand at hrun
  split at hrun
  · rename_i b e hinner
    obtain ⟨rfl, rfl⟩ := EStateM.Result.ok.inj hrun
    exact (hp _ hmode _ e hinner).inTypeOperand
  · cases hrun

theorem manyWithin {done : Token → Bool} (hp : LaysOne P tree p) (bound : List Lexeme) :
    Lays P (fun _ => false) (List.map tree) (manyWithin done p bound) := by
  induction bound with
  | nil => exact fun c hc => .pure (.refl hc)
  | cons _ bound ih =>
    intro c hc
    refine .run rfl ?_
    split
    · exact .pure (.refl hc)
    · refine (hp c hc).bind fun first c₁ h₁ => ?_
      refine (ih c₁ h₁.orderly).bind fun rest c₂ h₂ => ?_
      exact .pure (h₁.trans h₂).unmarked

theorem many {done : Token → Bool} (hp : LaysOne P tree p) :
    Lays P (fun _ => false) (List.map tree) (many done p) :=
  fun c => manyWithin hp c.after c

theorem itemsWithin {close : Token} (hp : LaysOne P tree p) (bound : List Lexeme) :
    Lays P (fun _ => false) (List.map tree) (itemsWithin close p bound) := by
  induction bound with
  | nil => exact fun c hc => .pure (.refl hc)
  | cons _ bound ih =>
    intro c hc
    refine (eat Token.noConfusion c hc).bind fun comma c₁ h₁ => ?_
    split
    · refine .run rfl ?_
      split
      · exact .pure h₁.unmarked
      · refine (hp c₁ h₁.orderly).bind fun first c₂ h₂ => ?_
        refine (ih c₂ h₂.orderly).bind fun rest c₃ h₃ => ?_
        exact .pure (h₁.trans (h₂.trans h₃)).unmarked
    · exact .pure h₁.unmarked

theorem items {close : Token} (hp : LaysOne P tree p) :
    Lays P (fun _ => false) (List.map tree) (items close p) :=
  fun c => itemsWithin hp c.after c

theorem delimited {close : Token} (hclose : close ≠ .eof) (hp : LaysOne P tree p) :
    Lays P (fun _ => true) (List.map tree) (delimited close p) := by
  refine withCondition fun c hc => ?_
  refine Leads.bind (Q := fun items d => c.Lays P false (items.map tree) d) ?_
    fun contents c₁ h₁ => ?_
  · refine .run rfl ?_
    split
    · exact .pure (.refl hc)
    · refine (hp c hc).bind fun first c₁ h₁ => ?_
      refine (items hp c₁ h₁.orderly).bind fun rest c₂ h₂ => ?_
      exact .pure (h₁.trans h₂).unmarked
  · refine (Leads.expect hclose h₁.orderly).bind fun _ c₂ h₂ => ?_
    exact .pure (h₁.past h₂.1)

theorem optionally {token : Token} (htoken : token ≠ .eof) (hp : LaysOne P tree p) :
    Lays P (fun _ => false) (fun value? => value?.toList.map tree) (optionally token p) := by
  intro c hc
  refine (eat htoken c hc).bind fun eaten c₁ h₁ => ?_
  split
  · refine (hp c₁ h₁.orderly).bind fun value c₂ h₂ => ?_
    exact .pure (h₁.trans h₂).unmarked
  · exact .pure h₁.unmarked

end Lays

end TokenParser

namespace Grammar

open TokenParser

/-- The nested parts of the grammar lay the spans of what they read. -/
structure LaysSpans (P : Span → Prop) (g : Grammar) : Prop where
  type : ∀ least, LaysOne P TypeExpr.spanTree (g.nestedType least)
  expr : ∀ least, LaysOne P Expr.spanTree (g.nestedExpr least)
  operand : LaysOne P Expr.spanTree g.nestedOperand
  rest : Lays P (fun _ => false) ElseBranch.spanTrees g.nestedElse
  stmt : LaysOne P Stmt.spanTree g.nestedStmt

variable {g : Grammar}

/-! ### Types -/

theorem lays_path : Lays P (fun _ => true) (List.map Ident.spanTree) path := by
  intro c hc
  refine (Lays.ident c hc).bind fun first c₁ h₁ => ?_
  refine Leads.iterate (Q := fun segments d => c.Lays P true (List.map Ident.spanTree segments) d)
    (fun segments c₂ h₂ => ?_) h₁
  refine .run rfl (.run rfl ?_)
  split
  · rename_i htoken _
    have h₃ := (h₂.orderly.leaf (htoken ▸ Token.noConfusion)).bare
    refine .run rfl ?_
    refine (Lays.ident _ h₃.orderly).bind fun segment c₄ h₄ => ?_
    refine .pure ?_
    rw [Option.getD_some, List.map_append]
    exact h₂.trans (h₃.trans h₄)
  · exact .pure h₂

/-- A path as a single name, which covers all its segments. -/
theorem leads_pathName {c : Cursor} (hc : c.Orderly P) :
    Leads path c fun segments d =>
      c.Lays P true [Ident.spanTree ⟨joinPath segments, c.current.span.through d.previousSpan⟩] d :=
  fun segments d hrun => (lays_path c hc segments d hrun).bare.enclose

theorem lays_typeArgs (hg : g.LaysSpans P) : Lays P (fun _ => false) typeTrees g.typeArgs := by
  rw [funext typeTrees_eq]
  intro c hc
  refine .run rfl ?_
  split
  · rename_i hopens
    have htoken : c.token = .symbol .lt := of_decide_eq_true (Bool.and_eq_true_iff.mp hopens).1
    have h₁ := (hc.leaf (htoken ▸ Token.noConfusion)).bare
    refine .run rfl fun args c₂ hrun => ?_
    have h₂ := Lays.delimited Token.noConfusion (hg.type _) _ h₁.orderly args c₂ hrun
    exact (h₁.trans h₂).unmarked
  · exact .pure (.refl hc)

theorem lays_namedType (hg : g.LaysSpans P) : LaysOne P TypeExpr.spanTree g.namedType := by
  intro c hc
  refine .run rfl ?_
  refine (leads_pathName hc).bind fun segments c₁ h₁ => ?_
  refine .run rfl ?_
  refine (lays_typeArgs hg c₁ h₁.orderly).bind fun args c₂ h₂ => ?_
  exact .run rfl (.pure (h₁.trans h₂).enclose)

theorem lays_arrayType (hg : g.LaysSpans P) : LaysAtToken P TypeExpr.spanTree g.arrayType := by
  intro c hc htoken
  have h₁ := (hc.leaf htoken).bare
  refine .run rfl (.run rfl ?_)
  refine (hg.type _ _ h₁.orderly).bind fun element c₂ h₂ => ?_
  refine (Leads.expect Token.noConfusion h₂.orderly).bind fun close c₃ h₃ => .pure ?_
  rw [h₃.2]
  exact ((h₁.trans h₂).past h₃.1).enclose

-- Parentheses are consumed, but the span of what they hold does not cover them.
theorem lays_groupedType (hg : g.LaysSpans P) :
    LaysAtToken P TypeExpr.spanTree g.groupedType := by
  intro c hc htoken
  have h₁ := (hc.leaf htoken).bare
  refine .run rfl (.run rfl (.run rfl ?_))
  split
  · rename_i hseen
    have hclose : c.advance.token = .symbol .rparen := of_decide_eq_true hseen
    have h₂ := (h₁.orderly.leaf (hclose ▸ Token.noConfusion)).bare
    refine .run rfl (.pure ?_)
    rw [← Cursor.previousSpan_advance c.advance]
    exact (h₁.trans h₂).enclose
  · refine (hg.type _ _ h₁.orderly).bind fun inner c₂ h₂ => ?_
    refine (Leads.expect Token.noConfusion h₂.orderly).bind fun _ c₃ h₃ => ?_
    exact .pure ((h₁.trans h₂).past h₃.1)

theorem lays_primaryType (hg : g.LaysSpans P) : LaysOne P TypeExpr.spanTree g.primaryType := by
  intro c hc
  refine .run rfl ?_
  split
  · exact lays_namedType hg c hc
  · rename_i htoken
    exact .run rfl (.pure (hc.nameLeaf (htoken ▸ Token.noConfusion)))
  · rename_i htoken
    exact lays_arrayType hg c hc (htoken ▸ Token.noConfusion)
  · rename_i htoken
    exact lays_groupedType hg c hc (htoken ▸ Token.noConfusion)
  · exact .failHere

theorem lays_typeAt (hg : g.LaysSpans P) (least : Nat) :
    LaysOne P TypeExpr.spanTree (g.typeAt least) := by
  intro c hc
  refine (lays_primaryType hg c hc).bind fun first c₁ h₁ => ?_
  refine Leads.iterate (Q := fun t d => c.Lays P true [TypeExpr.spanTree t] d)
    (fun left c₂ h₂ => ?_) h₁
  refine .run rfl ?_
  split
  · exact .pure h₂
  · rename_i op hop
    split
    · exact .pure h₂
    · have htoken : c₂.token ≠ .eof := by
        intro hend
        rw [hend] at hop
        cases hop
      have h₃ := (h₂.orderly.leaf htoken).bare
      refine .run rfl ?_
      refine (hg.type _ _ h₃.orderly).bind fun right c₄ h₄ => .pure ?_
      have hjoin := (h₂.trans (h₃.trans h₄)).join
      rwa [TypeExpr.span_spanTree, TypeExpr.span_spanTree] at hjoin

theorem lays_param (hg : g.LaysSpans P) : LaysOne P Param.spanTree g.param := by
  intro c hc
  refine .run rfl ?_
  refine Leads.bind (Q := fun name d => c.Lays P true [Ident.spanTree name] d) ?_
    fun name c₁ h₁ => ?_
  · by_cases hself : c.token = .keyword .selfKw
    · have hleaf := hc.leaf (hself ▸ Token.noConfusion)
      exact .run (if_pos hself) (.pure hleaf)
    · exact .run (if_neg hself) (Lays.ident c hc)
  · refine (Lays.optionally Token.noConfusion (hg.type _) c₁ h₁.orderly).bind fun type? c₂ h₂ => ?_
    exact .run rfl (.pure (h₁.trans h₂).enclose)

theorem lays_params (hg : g.LaysSpans P) :
    Lays P (fun _ => true) (List.map Param.spanTree) g.params :=
  Lays.delimited Token.noConfusion (lays_param hg)

theorem lays_signatureTail (hg : g.LaysSpans P) :
    Lays P (fun _ => false) (fun tail => tail.1.toList.map TypeExpr.spanTree
      ++ tail.2.toList.map TypeExpr.spanTree) g.signatureTail := by
  intro c hc
  refine (Lays.optionally Token.noConfusion (hg.type _) c hc).bind fun returnType? c₁ h₁ => ?_
  refine (Lays.optionally Token.noConfusion (hg.type _) c₁ h₁.orderly).bind fun effect? c₂ h₂ => ?_
  exact .pure (h₁.trans h₂)

/-! ### Expressions -/

theorem lays_block (hg : g.LaysSpans P) : LaysOne P Block.spanTree g.block := by
  intro c hc
  refine .run rfl ?_
  refine (Leads.expect Token.noConfusion hc).bind fun _ c₁ h₁ => ?_
  refine ((Lays.many hg.stmt).withCondition c₁ h₁.1.orderly).bind fun stmts c₂ h₂ => ?_
  refine (Leads.expect Token.noConfusion h₂.orderly).bind fun close c₃ h₃ => .pure ?_
  rw [← stmtTrees_eq] at h₂
  rw [h₃.2]
  exact ((h₁.1.trans h₂).past h₃.1).enclose

theorem lays_args (hg : g.LaysSpans P) : Lays P (fun _ => true) exprTrees g.args := by
  rw [funext exprTrees_eq]
  exact Lays.delimited Token.noConfusion (hg.expr _)

theorem lays_objectField (hg : g.LaysSpans P) : LaysOne P ObjectField.spanTree g.objectField := by
  intro c hc
  refine .run rfl ?_
  refine Leads.bind (Q := fun _ d => c.Lays P true [] d) ?_ fun key c₁ h₁ => ?_
  · refine .run rfl ?_
    split
    · rename_i htoken
      exact .run rfl (.pure (hc.leaf (htoken ▸ Token.noConfusion)).bare)
    · exact (Lays.memberName c hc).bind fun name c₁ h₁ => .pure h₁.bare
  · refine (Leads.expect Token.noConfusion h₁.orderly).bind fun _ c₂ h₂ => ?_
    refine (hg.expr _ c₂ h₂.1.orderly).bind fun value c₃ h₃ => .pure ?_
    have hparts : c.Lays P true ([] ++ [value.spanTree]) c₃ := (h₁.trans h₂.1).trans h₃
    have hfield := hparts.encloseTo
    rwa [Expr.span_spanTree] at hfield

theorem lays_lambda (hg : g.LaysSpans P) : LaysAtToken P Expr.spanTree g.lambda := by
  intro c hc htoken
  have h₁ := (hc.leaf htoken).bare
  refine .run rfl (.run rfl ?_)
  refine (Leads.expect Token.noConfusion h₁.orderly).bind fun _ c₂ h₂ => ?_
  refine (lays_params hg c₂ h₂.1.orderly).bind fun params c₃ h₃ => ?_
  refine (lays_signatureTail hg c₃ h₃.orderly).bind fun _ c₄ h₄ => ?_
  refine (lays_block hg c₄ h₄.orderly).bind fun body c₅ h₅ => ?_
  exact .run rfl (.pure (((h₁.trans h₂.1).trans (h₃.past h₄)).trans h₅).enclose)

theorem lays_className : LaysOne P Ident.spanTree className := by
  intro c hc
  refine .run rfl ?_
  split
  · rename_i hseen
    have hself : c.token = .keyword .selfTypeKw := of_decide_eq_true hseen
    exact .run rfl (.pure (hc.leaf (hself ▸ Token.noConfusion)))
  · refine .run rfl ?_
    exact (leads_pathName hc).bind fun segments c₁ h₁ => .run rfl (.pure h₁)

theorem lays_instantiation (hg : g.LaysSpans P) : LaysAtToken P Expr.spanTree g.instantiation := by
  intro c hc htoken
  have h₁ := (hc.leaf htoken).bare
  refine .run rfl (.run rfl ?_)
  refine (lays_className _ h₁.orderly).bind fun name c₂ h₂ => ?_
  refine Leads.bind (Q := fun args d => c₂.Lays P false (exprTrees args) d) ?_ fun args c₃ h₃ => ?_
  · refine (Lays.eat Token.noConfusion c₂ h₂.orderly).bind fun eaten c₃ h₃ => ?_
    split
    · exact fun args c₄ hrun => (h₃.trans (lays_args hg c₃ h₃.orderly args c₄ hrun)).unmarked
    · exact .pure h₃.unmarked
  · exact .run rfl (.pure ((h₁.trans h₂).trans h₃).enclose)

theorem lays_grouped (hg : g.LaysSpans P) : LaysAtToken P Expr.spanTree g.grouped := by
  intro c hc htoken
  have h₁ := (hc.leaf htoken).bare
  refine .run rfl ?_
  refine ((hg.expr _).withCondition _ h₁.orderly).bind fun inner c₂ h₂ => ?_
  refine (Leads.expect Token.noConfusion h₂.orderly).bind fun _ c₃ h₃ => ?_
  exact .pure ((h₁.trans h₂).past h₃.1)

theorem lays_arrayLiteral (hg : g.LaysSpans P) : LaysAtToken P Expr.spanTree g.arrayLiteral := by
  intro c hc htoken
  have h₁ := (hc.leaf htoken).bare
  refine .run rfl (.run rfl ?_)
  refine (Lays.delimited Token.noConfusion (hg.expr _) _ h₁.orderly).bind fun elements c₂ h₂ => ?_
  rw [← exprTrees_eq] at h₂
  exact .run rfl (.pure (h₁.trans h₂).enclose)

theorem lays_objectLiteral (hg : g.LaysSpans P) : LaysAtToken P Expr.spanTree g.objectLiteral := by
  intro c hc htoken
  have h₁ := (hc.leaf htoken).bare
  refine .run rfl (.run rfl ?_)
  refine (Lays.delimited Token.noConfusion (lays_objectField hg) _ h₁.orderly).bind
    fun fields c₂ h₂ => ?_
  rw [← fieldTrees_eq] at h₂
  exact .run rfl (.pure (h₁.trans h₂).enclose)

theorem lays_atom {build : Span → Expr} (hbuild : ∀ span, (build span).spanTree = .node span []) :
    LaysAtToken P Expr.spanTree (atom build) := by
  intro c hc htoken
  refine .run rfl (.pure ?_)
  rw [hbuild]
  exact hc.leaf htoken

theorem lays_nameAtom (name : String) : LaysAtToken P Expr.spanTree (nameAtom name) := by
  intro c hc htoken
  exact .run rfl (.pure (hc.nameLeaf htoken))

theorem lays_primary (hg : g.LaysSpans P) : LaysOne P Expr.spanTree g.primary := by
  intro c hc
  refine .run rfl ?_
  split <;> try rename_i htoken
  · exact lays_atom (fun _ => rfl) c hc (htoken ▸ Token.noConfusion)
  · exact lays_atom (fun _ => rfl) c hc (htoken ▸ Token.noConfusion)
  · exact lays_atom (fun _ => rfl) c hc (htoken ▸ Token.noConfusion)
  · exact lays_nameAtom _ c hc (htoken ▸ Token.noConfusion)
  · exact lays_nameAtom _ c hc (htoken ▸ Token.noConfusion)
  · exact lays_nameAtom _ c hc (htoken ▸ Token.noConfusion)
  · exact lays_grouped hg c hc (htoken ▸ Token.noConfusion)
  · exact lays_arrayLiteral hg c hc (htoken ▸ Token.noConfusion)
  · exact lays_objectLiteral hg c hc (htoken ▸ Token.noConfusion)
  · exact lays_lambda hg c hc (htoken ▸ Token.noConfusion)
  · exact lays_instantiation hg c hc (htoken ▸ Token.noConfusion)
  · exact .failHere

theorem lays_trailingClosure (hg : g.LaysSpans P) :
    Lays P (fun _ => false) blockTrees g.trailingClosure := by
  intro c hc closure? d hrun
  unfold trailingClosure at hrun
  split at hrun
  · have hblock : Leads (some <$> g.block) c fun closure? e =>
        c.Lays P false (blockTrees closure?) e :=
      .map fun body e hbody => (lays_block hg c hc body e hbody).unmarked
    exact hblock closure? d hrun
  · obtain ⟨rfl, rfl⟩ := EStateM.Result.ok.inj hrun
    exact .refl hc

/-- One more call, access or index goes from the start of the expression on. -/
theorem leads_postfixStep (hg : g.LaysSpans P) {c d : Cursor} {e : Expr}
    (h : c.Lays P true [e.spanTree] d) :
    Leads (g.postfixStep e) d fun next d' => c.Lays P true [(next.getD e).spanTree] d' := by
  refine .run rfl ?_
  split <;> try rename_i htoken
  · have h₁ := (h.orderly.leaf (htoken ▸ Token.noConfusion)).bare
    refine .run rfl ?_
    refine (lays_args hg _ h₁.orderly).bind fun args c₂ h₂ => ?_
    refine (lays_trailingClosure hg c₂ h₂.orderly).bind fun closure? c₃ h₃ => ?_
    refine .run rfl (.pure ?_)
    have hcall := (h.trans (h₁.trans (h₂.trans h₃))).encloseFrom
    rwa [Expr.span_spanTree] at hcall
  · have h₁ := (h.orderly.leaf (htoken ▸ Token.noConfusion)).bare
    refine .run rfl ?_
    refine (Lays.memberName _ h₁.orderly).bind fun member c₂ h₂ => .pure ?_
    have hfield := (h.trans (h₁.trans h₂)).join
    rwa [Expr.span_spanTree] at hfield
  · have h₁ := (h.orderly.leaf (htoken ▸ Token.noConfusion)).bare
    refine .run rfl ?_
    refine (Lays.memberName _ h₁.orderly).bind fun member c₂ h₂ => .pure ?_
    have hmember := (h.trans (h₁.trans h₂)).join
    rwa [Expr.span_spanTree] at hmember
  · have h₁ := (h.orderly.leaf (htoken ▸ Token.noConfusion)).bare
    refine .run rfl ?_
    refine ((hg.expr _).withCondition _ h₁.orderly).bind fun position c₂ h₂ => ?_
    refine (Leads.expect Token.noConfusion h₂.orderly).bind fun close c₃ h₃ => .pure ?_
    have hindex := ((h.trans (h₁.trans h₂)).past h₃.1).encloseFrom
    rw [Expr.span_spanTree, ← h₃.2] at hindex
    exact hindex
  · exact .pure h

theorem lays_operand (hg : g.LaysSpans P) : LaysOne P Expr.spanTree g.operand := by
  intro c hc
  refine .run rfl ?_
  split
  · rename_i op hop
    have htoken : c.token ≠ .eof := by
      intro hend
      rw [hend] at hop
      cases hop
    have h₁ := (hc.leaf htoken).bare
    refine .run rfl (.run rfl ?_)
    refine (hg.operand _ h₁.orderly).bind fun inner c₂ h₂ => .pure ?_
    have hparts : c.Lays P true ([] ++ [inner.spanTree]) c₂ := h₁.trans h₂
    have hunary := hparts.encloseTo
    rwa [Expr.span_spanTree] at hunary
  · refine (lays_primary hg c hc).bind fun first c₁ h₁ => ?_
    exact Leads.iterate (Q := fun e d => c.Lays P true [Expr.spanTree e] d)
      (fun _ _ h => leads_postfixStep hg h) h₁

theorem lays_typeOperand (hg : g.LaysSpans P) :
    LaysOne P (fun operand => operand.2.spanTree) g.typeOperand := by
  intro c hc
  refine (Lays.eat Token.noConfusion c hc).bind fun guarded c₁ h₁ => ?_
  refine ((hg.type _).withTypeOperand c₁ h₁.orderly).bind fun type c₂ h₂ => .pure ?_
  have hboth := h₁.trans h₂
  rwa [Bool.or_true] at hboth

/-- An operator joins the spans of both its operands. -/
theorem leads_infixRest (hg : g.LaysSpans P) {c d : Cursor} {left : Expr}
    (h : c.Lays P true [left.spanTree] d) (op : InfixOp) :
    Leads (g.infixRest left op) d fun e d' => c.Lays P true [e.spanTree] d' := by
  cases op with
  | typeTest | cast =>
    refine (lays_typeOperand hg d h.orderly).bind fun operand c₁ h₁ => .pure ?_
    have hjoin := (h.trans h₁).join
    rwa [Expr.span_spanTree, TypeExpr.span_spanTree] at hjoin
  | assign =>
    dsimp only [infixRest]
    split
    · refine (hg.expr _ d h.orderly).bind fun right c₁ h₁ => .pure ?_
      have hjoin := (h.trans h₁).join
      rwa [Expr.span_spanTree, Expr.span_spanTree] at hjoin
    · exact .failAt
  | binary op =>
    refine (hg.expr _ d h.orderly).bind fun right c₁ h₁ => .pure ?_
    have hjoin := (h.trans h₁).join
    rwa [Expr.span_spanTree, Expr.span_spanTree] at hjoin

theorem lays_exprAt (hg : g.LaysSpans P) (least : Nat) :
    LaysOne P Expr.spanTree (g.exprAt least) := by
  intro c hc
  refine (lays_operand hg c hc).bind fun first c₁ h₁ => ?_
  refine Leads.iterate (Q := fun e d => c.Lays P true [Expr.spanTree e] d)
    (fun left c₂ h₂ => ?_) h₁
  refine .run rfl ?_
  split
  · exact .pure h₂
  · rename_i op hop
    split
    · exact .pure h₂
    · have htoken : c₂.token ≠ .eof := by
        intro hend
        rw [hend] at hop
        cases hop
      have h₃ := h₂.past (h₂.orderly.leaf htoken)
      exact .run rfl (.map (leads_infixRest hg h₃ op))

/-! ### Statements -/

theorem lays_namespaceDecl {c : Cursor} (hc : c.Orderly P) (htoken : c.token ≠ .eof) :
    Leads namespaceDecl c fun decl d => c.Lays P true (decl.path.map Ident.spanTree) d := by
  have h₁ := (hc.leaf htoken).bare
  refine .run rfl ?_
  refine (Lays.eat Token.noConfusion _ h₁.orderly).bind fun _ c₂ h₂ => ?_
  refine (lays_path c₂ h₂.orderly).bind fun segments c₃ h₃ => ?_
  refine (Lays.eat Token.noConfusion c₃ h₃.orderly).bind fun _ c₄ h₄ => ?_
  exact .pure ((h₁.trans (h₂.trans h₃)).past h₄)

theorem lays_usingDecl {c : Cursor} (hc : c.Orderly P) (htoken : c.token ≠ .eof) :
    Leads usingDecl c fun decl d => c.Lays P true (decl.path.map Ident.spanTree) d := by
  have h₁ := (hc.leaf htoken).bare
  refine .run rfl ?_
  refine (Lays.eat Token.noConfusion _ h₁.orderly).bind fun _ c₂ h₂ => ?_
  refine (lays_path c₂ h₂.orderly).bind fun segments c₃ h₃ => ?_
  exact .pure (h₁.trans (h₂.trans h₃))

theorem lays_foreignTarget (marker : Ident) :
    Lays P (fun _ => false) (fun _ => []) (foreignTarget marker) := by
  intro c hc
  refine (Lays.eat Token.noConfusion c hc).bind fun eaten c₁ h₁ => ?_
  split
  · refine .run rfl ?_
    split
    · rename_i htoken
      have h₂ := (h₁.orderly.leaf (htoken ▸ Token.noConfusion)).bare
      refine .run rfl ?_
      refine (Leads.expect Token.noConfusion h₂.orderly).bind fun _ c₃ h₃ => ?_
      exact .pure (h₁.trans (h₂.trans h₃.1)).unmarked
    · exact .failHere
  · exact .pure h₁.unmarked

theorem lays_foreignDecl (hg : g.LaysSpans P) {c : Cursor} (hc : c.Orderly P)
    (htoken : c.token ≠ .eof) :
    Leads g.foreignDecl c fun decl d => c.Lays P true decl.spanTrees d := by
  have h₁ := (hc.leaf htoken).bare
  refine .run rfl ?_
  refine (Lays.ident _ h₁.orderly).bind fun marker c₂ h₂ => ?_
  split
  · refine (lays_foreignTarget marker c₂ h₂.orderly).bind fun target? c₃ h₃ => ?_
    refine (Leads.expect Token.noConfusion h₃.orderly).bind fun _ c₄ h₄ => ?_
    refine (Lays.ident c₄ h₄.1.orderly).bind fun name c₅ h₅ => ?_
    refine (Leads.expect Token.noConfusion h₅.orderly).bind fun _ c₆ h₆ => ?_
    refine (lays_params hg c₆ h₆.1.orderly).bind fun params c₇ h₇ => ?_
    refine (Lays.optionally Token.noConfusion (hg.type _) c₇ h₇.orderly).bind
      fun returnType? c₈ h₈ => .pure ?_
    have hmarker := ((h₁.trans h₂).past h₃).past h₄.1
    exact hmarker.trans ((h₅.past h₆.1).trans (h₇.trans h₈))
  · exact .failAt

theorem lays_init (hg : g.LaysSpans P) {token : Token} (htoken : token ≠ .eof) :
    Lays P (fun _ => false) valueTrees (optionally token (g.nestedExpr Expr.loosest)) := by
  rw [funext valueTrees_eq]
  exact Lays.optionally htoken (hg.expr _)

theorem lays_constructorMember (hg : g.LaysSpans P) :
    LaysAtToken P Member.spanTree g.constructorMember := by
  intro c hc htoken
  have h₁ := (hc.leaf htoken).bare
  refine .run rfl (.run rfl ?_)
  refine (Leads.expect Token.noConfusion h₁.orderly).bind fun _ c₂ h₂ => ?_
  refine (lays_params hg c₂ h₂.1.orderly).bind fun params c₃ h₃ => ?_
  refine (lays_block hg c₃ h₃.orderly).bind fun body c₄ h₄ => ?_
  exact .run rfl (.pure ((h₁.trans h₂.1).trans (h₃.trans h₄)).enclose)

theorem lays_methodBody (hg : g.LaysSpans P) :
    Lays P (fun _ => false) blockTrees g.methodBody := by
  intro c hc
  refine .run rfl ?_
  split
  · exact .map fun body d hrun => (lays_block hg c hc body d hrun).unmarked
  · exact (Lays.eat Token.noConfusion c hc).bind fun _ c₁ h₁ => .pure h₁.unmarked

/-- A method whose span starts at the cursor `c`, which may stand before its name. -/
theorem leads_methodMember (hg : g.LaysSpans P) {moved : Bool} {c d : Cursor}
    (h : c.Lays P moved [] d) :
    Leads (g.methodMember c.current.span) d fun m d' => c.Lays P true [m.spanTree] d' := by
  refine (Lays.ident d h.orderly).bind fun name c₁ h₁ => ?_
  refine (Leads.expect Token.noConfusion h₁.orderly).bind fun _ c₂ h₂ => ?_
  refine (lays_params hg c₂ h₂.1.orderly).bind fun params c₃ h₃ => ?_
  refine (lays_signatureTail hg c₃ h₃.orderly).bind fun tail c₄ h₄ => ?_
  refine (lays_methodBody hg c₄ h₄.orderly).bind fun body? c₅ h₅ => ?_
  refine .run rfl (.pure ?_)
  have hparts : c.Lays P (moved || true) _ c₅ :=
    h.trans ((h₁.past h₂.1).trans ((h₃.trans h₄).trans h₅))
  rw [Bool.or_true] at hparts
  exact hparts.enclose

theorem lays_fieldMember (hg : g.LaysSpans P) : LaysOne P Member.spanTree g.fieldMember := by
  intro c hc
  refine .run rfl ?_
  refine (Lays.ident c hc).bind fun name c₁ h₁ => ?_
  refine (Lays.optionally Token.noConfusion (hg.type _) c₁ h₁.orderly).bind fun type? c₂ h₂ => ?_
  refine (lays_init hg Token.noConfusion c₂ h₂.orderly).bind fun init? c₃ h₃ => ?_
  refine Leads.bind (Q := fun _ d => c₃.Lays P false [] d) ?_ fun isDefault c₄ h₄ => ?_
  · split
    · exact fun eaten d hrun => (Lays.eat Token.noConfusion c₃ h₃.orderly eaten d hrun).unmarked
    · exact .pure (.refl h₃.orderly)
  · refine (Lays.eat Token.noConfusion c₄ h₄.orderly).bind fun _ c₅ h₅ => ?_
    exact .run rfl (.pure (((h₁.trans (h₂.trans h₃)).past h₄).past h₅).enclose)

theorem lays_member (hg : g.LaysSpans P) : LaysOne P Member.spanTree g.member := by
  intro c hc
  refine .run rfl ?_
  split
  · rename_i htoken
    exact lays_constructorMember hg c hc (htoken ▸ Token.noConfusion)
  · rename_i htoken
    exact .run rfl (leads_methodMember hg (hc.leaf (htoken ▸ Token.noConfusion)).bare)
  · refine .run rfl ?_
    split
    · exact .run rfl (leads_methodMember hg (.refl hc))
    · exact lays_fieldMember hg c hc
    · exact lays_fieldMember hg c hc
    · exact lays_fieldMember hg c hc
    · exact .run rfl .failHere
  · exact .failHere

theorem lays_implementsList (hg : g.LaysSpans P) :
    Lays P (fun _ => false) (List.map TypeExpr.spanTree) g.implementsList := by
  intro c hc
  refine (Lays.eat Token.noConfusion c hc).bind fun eaten c₁ h₁ => ?_
  split
  · refine (hg.type _ c₁ h₁.orderly).bind fun first c₂ h₂ => ?_
    refine Leads.iterate (Q := fun types d => c.Lays P false (List.map TypeExpr.spanTree types) d)
      (fun types c₃ h₃ => ?_) (h₁.trans h₂).unmarked
    refine (Lays.eat Token.noConfusion c₃ h₃.orderly).bind fun comma c₄ h₄ => ?_
    split
    · refine (hg.type _ c₄ h₄.orderly).bind fun type c₅ h₅ => .pure ?_
      rw [Option.getD_some, List.map_append]
      exact (h₃.trans (h₄.trans h₅)).unmarked
    · exact .pure (h₃.past h₄).unmarked
  · exact .pure h₁.unmarked

/-- A statement without its span lays the trees of its parts, whatever the span will be. -/
def LaysParts (P : Span → Prop) (c : Cursor) (build : Span → Stmt) (d : Cursor) : Prop :=
  ∃ trees, c.Lays P true trees d ∧ ∀ span, (build span).spanTree = .node span trees

theorem leads_classBody (hg : g.LaysSpans P) (kind : ClassKind) {c : Cursor} (hc : c.Orderly P)
    (htoken : c.token ≠ .eof) :
    Leads (g.classBody kind) c fun decl d =>
      LaysParts P c (fun span => .classDecl span decl) d := by
  have h₁ := (hc.leaf htoken).bare
  refine .run rfl ?_
  refine (Lays.ident _ h₁.orderly).bind fun name c₂ h₂ => ?_
  refine (Lays.optionally Token.noConfusion (hg.type _) c₂ h₂.orderly).bind fun extends? c₃ h₃ => ?_
  refine (lays_implementsList hg c₃ h₃.orderly).bind fun implements c₄ h₄ => ?_
  refine (Leads.expect Token.noConfusion h₄.orderly).bind fun _ c₅ h₅ => ?_
  refine (Lays.many (lays_member hg) c₅ h₅.1.orderly).bind fun members c₆ h₆ => ?_
  refine (Leads.expect Token.noConfusion h₆.orderly).bind fun _ c₇ h₇ => .pure ?_
  rw [← memberTrees_eq] at h₆
  have hparts := (h₁.trans h₂).trans (h₃.trans ((h₄.past h₅.1).trans (h₆.past h₇.1)))
  exact ⟨_, hparts, fun span => rfl⟩

theorem lays_condition (hg : g.LaysSpans P) : LaysOne P Expr.spanTree g.condition :=
  (hg.expr _).withCondition

theorem lays_elseBranch (hg : g.LaysSpans P) :
    Lays P (fun _ => false) ElseBranch.spanTrees g.elseBranch := by
  intro c hc
  refine (Lays.eat Token.noConfusion c hc).bind fun hasElse c₁ h₁ => ?_
  split
  · refine (Lays.eat Token.noConfusion c₁ h₁.orderly).bind fun hasIf c₂ h₂ => ?_
    split
    · refine (lays_condition hg c₂ h₂.orderly).bind fun condition c₃ h₃ => ?_
      refine (lays_block hg c₃ h₃.orderly).bind fun thenBlock c₄ h₄ => ?_
      refine (hg.rest c₄ h₄.orderly).bind fun rest c₅ h₅ => ?_
      exact .pure ((h₁.trans h₂).trans (h₃.trans (h₄.trans h₅))).unmarked
    · refine (lays_block hg c₂ h₂.orderly).bind fun body c₃ h₃ => ?_
      exact .pure ((h₁.trans h₂).trans h₃).unmarked
  · exact .pure h₁.unmarked

theorem leads_letStmt (hg : g.LaysSpans P) {c : Cursor} (hc : c.Orderly P)
    (htoken : c.token ≠ .eof) : Leads g.letStmt c (LaysParts P c) := by
  have h₁ := (hc.leaf htoken).bare
  refine .run rfl ?_
  refine (Lays.ident _ h₁.orderly).bind fun name c₂ h₂ => ?_
  refine (Lays.optionally Token.noConfusion (hg.type _) c₂ h₂.orderly).bind fun type? c₃ h₃ => ?_
  refine (lays_init hg Token.noConfusion c₃ h₃.orderly).bind fun init? c₄ h₄ => ?_
  exact .pure ⟨_, h₁.trans (h₂.trans (h₃.trans h₄)), fun span => rfl⟩

theorem leads_functionStmt (hg : g.LaysSpans P) {c : Cursor} (hc : c.Orderly P)
    (htoken : c.token ≠ .eof) : Leads g.functionStmt c (LaysParts P c) := by
  have h₁ := (hc.leaf htoken).bare
  refine .run rfl ?_
  refine (Lays.ident _ h₁.orderly).bind fun name c₂ h₂ => ?_
  refine (Leads.expect Token.noConfusion h₂.orderly).bind fun _ c₃ h₃ => ?_
  refine (lays_params hg c₃ h₃.1.orderly).bind fun params c₄ h₄ => ?_
  refine (lays_signatureTail hg c₄ h₄.orderly).bind fun tail c₅ h₅ => ?_
  refine (lays_block hg c₅ h₅.orderly).bind fun body c₆ h₆ => ?_
  have hparts := h₁.trans ((h₂.past h₃.1).trans ((h₄.trans h₅).trans h₆))
  exact .pure ⟨_, hparts, fun span => rfl⟩

theorem leads_ifStmt (hg : g.LaysSpans P) {c : Cursor} (hc : c.Orderly P)
    (htoken : c.token ≠ .eof) : Leads g.ifStmt c (LaysParts P c) := by
  have h₁ := (hc.leaf htoken).bare
  refine .run rfl ?_
  refine (lays_condition hg _ h₁.orderly).bind fun condition c₂ h₂ => ?_
  refine (lays_block hg c₂ h₂.orderly).bind fun thenBlock c₃ h₃ => ?_
  refine (lays_elseBranch hg c₃ h₃.orderly).bind fun rest c₄ h₄ => ?_
  exact .pure ⟨_, h₁.trans (h₂.trans (h₃.trans h₄)), fun span => rfl⟩

theorem leads_loopStmt (hg : g.LaysSpans P) {build : Span → Expr → Block → Stmt}
    (hbuild : ∀ span condition body,
      (build span condition body).spanTree = .node span [condition.spanTree, body.spanTree])
    {c : Cursor} (hc : c.Orderly P) (htoken : c.token ≠ .eof) :
    Leads (g.loopStmt build) c (LaysParts P c) := by
  have h₁ := (hc.leaf htoken).bare
  refine .run rfl ?_
  refine (lays_condition hg _ h₁.orderly).bind fun condition c₂ h₂ => ?_
  refine (lays_block hg c₂ h₂.orderly).bind fun body c₃ h₃ => ?_
  exact .pure ⟨_, h₁.trans (h₂.trans h₃), fun span => hbuild span condition body⟩

theorem leads_returnStmt (hg : g.LaysSpans P) {c : Cursor} (hc : c.Orderly P)
    (htoken : c.token ≠ .eof) : Leads g.returnStmt c (LaysParts P c) := by
  have h₁ := (hc.leaf htoken).bare
  refine .run rfl (.run rfl ?_)
  split
  · exact .pure ⟨_, h₁, fun span => rfl⟩
  · refine (hg.expr _ _ h₁.orderly).bind fun value c₂ h₂ => ?_
    exact .pure ⟨_, h₁.trans h₂, fun span => rfl⟩

theorem leads_exprStmt (hg : g.LaysSpans P) {c : Cursor} (hc : c.Orderly P) :
    Leads g.exprStmt c (LaysParts P c) := by
  refine (lays_exprAt hg _ c hc).bind fun value c₁ h₁ => ?_
  exact .pure ⟨_, h₁, fun span => rfl⟩

theorem leads_stmtBody (hg : g.LaysSpans P) {c : Cursor} (hc : c.Orderly P) :
    Leads g.stmtBody c (LaysParts P c) := by
  refine .run rfl ?_
  split <;> try rename_i htoken
  · refine (lays_namespaceDecl hc (htoken ▸ Token.noConfusion)).bind fun decl c₁ h₁ => ?_
    exact .pure ⟨_, h₁, fun span => rfl⟩
  · refine (lays_usingDecl hc (htoken ▸ Token.noConfusion)).bind fun decl c₁ h₁ => ?_
    exact .pure ⟨_, h₁, fun span => rfl⟩
  · refine (lays_foreignDecl hg hc (htoken ▸ Token.noConfusion)).bind fun decl c₁ h₁ => ?_
    exact .pure ⟨_, h₁, fun span => rfl⟩
  · exact leads_letStmt hg hc (htoken ▸ Token.noConfusion)
  · exact leads_ifStmt hg hc (htoken ▸ Token.noConfusion)
  · exact leads_loopStmt hg (fun _ _ _ => rfl) hc (htoken ▸ Token.noConfusion)
  · exact leads_loopStmt hg (fun _ _ _ => rfl) hc (htoken ▸ Token.noConfusion)
  · exact leads_returnStmt hg hc (htoken ▸ Token.noConfusion)
  · refine (lays_block hg c hc).bind fun body c₁ h₁ => ?_
    exact .pure ⟨_, h₁, fun span => rfl⟩
  · refine .run rfl ?_
    split
    · exact leads_functionStmt hg hc (htoken ▸ Token.noConfusion)
    · exact leads_exprStmt hg hc
  · split
    · rename_i kind hkind
      have hnotEnd : c.token ≠ .eof := by
        intro hend
        rw [hend] at hkind
        cases hkind
      exact (leads_classBody hg kind hc hnotEnd).bind fun decl c₁ h₁ => .pure h₁
    · exact leads_exprStmt hg hc

theorem lays_stmt (hg : g.LaysSpans P) : LaysOne P Stmt.spanTree g.stmt := by
  intro c hc
  refine .run rfl ?_
  refine (leads_stmtBody hg hc).bind fun build c₁ ⟨trees, h₁, hbuild⟩ => ?_
  refine (Lays.eat Token.noConfusion c₁ h₁.orderly).bind fun _ c₂ h₂ => ?_
  refine .run rfl (.pure ?_)
  show c.Lays P true [(build _).spanTree] c₂
  rw [hbuild]
  exact (h₁.past h₂).enclose

/-! ### Whole programs -/

theorem laysSpans_atEnd : atEnd.LaysSpans P where
  type _ _ _ := .failHere
  expr _ _ _ := .failHere
  operand _ _ := .failHere
  rest _ hc := .pure (.refl hc)
  stmt _ _ := .failHere

theorem LaysSpans.deeper (hg : g.LaysSpans P) : g.deeper.LaysSpans P where
  type := lays_typeAt hg
  expr := lays_exprAt hg
  operand := lays_operand hg
  rest := lays_elseBranch hg
  stmt := lays_stmt hg

theorem laysSpans_level (n : Nat) : (level n).LaysSpans P := by
  induction n with
  | zero => exact laysSpans_atEnd
  | succ n ih => exact ih.deeper

theorem lays_program (hg : g.LaysSpans P) :
    Lays P (fun _ => false) (fun program => program.stmts.map Stmt.spanTree) g.program := by
  intro c hc
  exact (Lays.many hg.stmt c hc).bind fun stmts c₁ h₁ => .pure h₁

end Grammar

/-- The span goes from the start of one token to the end of one, is not empty, and has the number of
    the file and the line and column of its first byte. -/
structure Span.IsStretch (file : Nat) (source : String) (lexemes : List Lexeme) (span : Span) :
    Prop where
  inFile : span.file = file
  nonempty : span.start < span.stop
  starts : ∃ l ∈ lexemes, l.token ≠ .eof ∧ l.span.start = span.start
  stops : ∃ l ∈ lexemes, l.token ≠ .eof ∧ l.span.stop = span.stop
  located : Lines.locate source.toList span.start = (span.line, span.column)

theorem Span.joins_isStretch (file : Nat) (source : String) (lexemes : List Lexeme) :
    Joins (IsStretch file source lexemes) where
  nonempty h := h.nonempty
  through {a b} ha hb hlt := by
    have hstop : (a.through b).stop = b.stop := Nat.max_eq_left (Nat.le_of_lt hlt)
    refine ⟨ha.inFile, ?_, ha.starts, ?_, ha.located⟩
    · rw [hstop]
      exact hlt
    · rw [hstop]
      exact hb.stops

/-- A cursor on the first lexeme of a source stands before tokens in the order of the text. -/
theorem Cursor.orderly_ofLexemes {file : Nat} {source : String} {lexemes : List Lexeme}
    (h : tokenizeFile file source = .ok lexemes) :
    (ofLexemes lexemes).Orderly (Span.IsStretch file source lexemes) := by
  have hstands : (Scanner.ofSource file source).StandsIn file source.toList [] := ⟨rfl, rfl, rfl⟩
  have hscanned : Scanned file source.toList 0 (tokenizeFile file source) :=
    Scanner.scanned_lexemesWithin hstands (Nat.le_refl _)
  have hlocate := locate_of_tokenizeFile h
  rw [h] at hscanned
  obtain ⟨tokens, last, rfl, htiles, _, hlast, _, _, hstart, _⟩ := hscanned
  refine ⟨Span.joins_isStretch .., (endsLast_ofLexemes tokens hlast).endsAhead, ?_, ?_⟩
  · rw [rest_ofLexemes hlast]
    intro l hl htoken
    have hin : l ∈ tokens := by
      rcases List.mem_append.mp hl with hin | hin
      · exact hin
      · rw [List.mem_singleton.mp hin] at htoken
        exact absurd hlast htoken
    exact ⟨htiles.inFile l hin, htiles.nonempty l hin, ⟨l, hl, htoken, rfl⟩, ⟨l, hl, htoken, rfl⟩,
      hlocate l hl⟩
  · rw [rest_ofLexemes hlast]
    refine List.pairwise_append.mpr
      ⟨htiles.ordered, List.pairwise_singleton _ _, fun a ha b hb => ?_⟩
    -- The end token stands behind the last byte of the source, and no token goes further.
    obtain ⟨before, rest, hsource, _, hstop, _⟩ := htiles.read a ha
    rw [List.mem_singleton.mp hb]
    show a.span.stop ≤ last.span.start
    rw [hstart, ← hstop, hsource, ← List.append_assoc, Lines.byteLength_append (before ++ _) rest]
    exact Nat.le_add_right _ _

/-- What a parser lays on the lexemes of a whole source. -/
theorem laid_of_runParser {α : Type} {file : Nat} {source : String} {lexemes : List Lexeme}
    {p : Grammar → TokenParser α} {moved : α → Bool} {trees : α → List SpanTree} {a : α}
    (htokens : tokenizeFile file source = .ok lexemes) (hrun : runParser p lexemes = .ok a)
    (hp : ∀ {P g}, Grammar.LaysSpans P g → TokenParser.Lays P moved trees (p g)) :
    (trees a).Pairwise SpanTree.Before ∧
      ∀ t ∈ trees a, t.WellNested (Span.IsStretch file source lexemes) := by
  unfold runParser at hrun
  split at hrun
  · rename_i b d hok
    obtain rfl := Except.ok.inj hrun
    have hlays := hp (Grammar.laysSpans_level _) _ (Cursor.orderly_ofLexemes htokens) _ d hok
    obtain ⟨_, consumed, _, hlaid, _⟩ := hlays
    exact ⟨hlaid.ordered, hlaid.nested⟩
  · cases hrun

/-- The spans of a parsed program, expression or type are well nested, and the statements of a
    program stand one after the other. -/
theorem parse_wellNested {file : Nat} {source : String} {lexemes : List Lexeme}
    (htokens : tokenizeFile file source = .ok lexemes) :
    (∀ program, parseProgram lexemes = .ok program →
      program.stmts.Pairwise (fun a b => a.span.stop ≤ b.span.start) ∧
      ∀ s ∈ program.stmts, s.spanTree.WellNested (Span.IsStretch file source lexemes)) ∧
    (∀ e, parseExpr lexemes = .ok e →
      e.spanTree.WellNested (Span.IsStretch file source lexemes)) ∧
    ∀ t, parseType lexemes = .ok t →
      t.spanTree.WellNested (Span.IsStretch file source lexemes) := by
  refine ⟨fun program hparse => ?_, fun e hparse => ?_, fun t hparse => ?_⟩
  · obtain ⟨hordered, hnested⟩ := laid_of_runParser htokens hparse Grammar.lays_program
    refine ⟨?_, fun s hs => hnested _ (List.mem_map_of_mem hs)⟩
    simpa [List.pairwise_map, SpanTree.Before] using hordered
  · exact (laid_of_runParser htokens hparse fun hg => hg.expr _).2 _ (List.mem_singleton_self _)
  · exact (laid_of_runParser htokens hparse fun hg => hg.type _).2 _ (List.mem_singleton_self _)

/-- A source with blocks and types inside each other, a chain of conditions and parentheses. -/
def nestedSource : String :=
  "class K \x7b\n  run(x: [A + B]) \x7b if (x) == 1 \x7b y = -(x.z); \x7d else if f() \x7b\x7d \x7d\n\x7d\n" ++
    "let p = (new a::K(1)).q[0];"

theorem parse_wellNested_nestedSource :
    ∃ lexemes program, tokenizeFile 3 nestedSource = .ok lexemes ∧
      parseProgram lexemes = .ok program ∧
      program.stmts.map (fun s => (s.span.start, s.span.stop, s.span.line)) =
        [(0, 76, 1), (77, 104, 4)] ∧
      program.stmts.Pairwise (fun a b => a.span.stop ≤ b.span.start) ∧
      ∀ s ∈ program.stmts, s.spanTree.WellNested (Span.IsStretch 3 nestedSource lexemes) := by
  have hview : ((tokenizeFile 3 nestedSource).toOption.bind fun lexemes =>
      (parseProgram lexemes).toOption.map fun program =>
        program.stmts.map fun s => (s.span.start, s.span.stop, s.span.line)) =
      some [(0, 76, 1), (77, 104, 4)] := by
    decide +kernel
  obtain ⟨lexemes, program, hscan, hparse, hplaces⟩ := exists_parse_of_map hview
  exact ⟨lexemes, program, hscan, hparse, hplaces, (parse_wellNested hscan).1 program hparse⟩

end ScriptCompiler
