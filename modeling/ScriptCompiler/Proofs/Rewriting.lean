import Mathlib.Data.List.Basic
import ScriptCompiler.Link.Program

/-!
# Rewriting resolves and checks

Rewriting a tree does two things in one pass. Each of them is also a function of its own: resolving
the names of a tree, and checking it under the strictest rules. Whatever the rules are, the
rewritten tree is the resolved one, and what is found is what the strictest rules find, as far as
the rules ask for it. The same is so for collecting declarations, and therefore for linking.
-/

namespace ScriptCompiler

/-! ### Resolving -/

mutual

/-- The expression with its names resolved. A chain that refers to a declaration as a whole becomes
    one name. -/
def Expr.resolve (env : Environment) (locals : List String) : Expr → Expr
  | .number span digits => .number span digits
  | .string span value => .string span value
  | .bool span value => .bool span value
  | .name span ident => .name span (env.resolveIdent locals ident)
  | .binary span op left right =>
    .binary span op (left.resolve env locals) (right.resolve env locals)
  | .unary span op operand => .unary span op (operand.resolve env locals)
  | .assign span target value => .assign span (target.resolve env locals) (value.resolve env locals)
  | .typeTest span operand type guarded =>
    .typeTest span (operand.resolve env locals) (type.resolve env locals) guarded
  | .cast span operand type guarded =>
    .cast span (operand.resolve env locals) (type.resolve env locals) guarded
  | .call span callee args closure? =>
    .call span (callee.resolve env locals) (resolveExprs env locals args)
      (resolveClosure env locals closure?)
  | .field span receiver member => .field span (receiver.resolve env locals) member
  | .staticMember span receiver member =>
    match env.resolveStatic? locals receiver member with
    | some unique => .name span ⟨unique, span⟩
    | none => .staticMember span (receiver.resolve env locals) member
  | .index span receiver position =>
    .index span (receiver.resolve env locals) (position.resolve env locals)
  | .array span elements => .array span (resolveExprs env locals elements)
  | .object span fields => .object span (resolveFields env locals fields)
  | .lambda span params body => .lambda span params (body.resolve env (paramNames params ++ locals))
  | .new span className args =>
    .new span (env.resolveIdent locals className) (resolveExprs env locals args)

def resolveExprs (env : Environment) (locals : List String) : List Expr → List Expr
  | [] => []
  | e :: rest => e.resolve env locals :: resolveExprs env locals rest

/-- The fields with the names of their values resolved. -/
def resolveFields (env : Environment) (locals : List String) : List ObjectField → List ObjectField
  | [] => []
  | ⟨key, value, span⟩ :: rest =>
    ⟨key, value.resolve env locals, span⟩ :: resolveFields env locals rest

def resolveClosure (env : Environment) (locals : List String) : Option Block → Option Block
  | none => none
  | some body => some (body.resolve env locals)

def Block.resolve (env : Environment) (locals : List String) : Block → Block
  | ⟨stmts, span⟩ => ⟨resolveStmts env locals stmts, span⟩

/-- The statements of a block with their names resolved; each brings its locals for the rest. -/
def resolveStmts (env : Environment) (locals : List String) : List Stmt → List Stmt
  | [] => []
  | s :: rest =>
    s.resolve env (s.boundBefore ++ locals) :: resolveStmts env (s.boundAfter ++ locals) rest

def Stmt.resolve (env : Environment) (locals : List String) : Stmt → Stmt
  | .namespaceDecl span decl => .namespaceDecl span decl
  | .usingDecl span decl => .usingDecl span decl
  | .foreignDecl span decl => .foreignDecl span decl
  | .letDecl span name type? init? unique? =>
    .letDecl span name type? (resolveOption env locals init?) unique?
  | .function span name params returnType? effect? body unique? =>
    .function span name params returnType? effect? (body.resolve env (paramNames params ++ locals))
      unique?
  | .classDecl span decl => .classDecl span (decl.resolve env locals)
  | .ifElse span condition thenBlock elseBranch =>
    .ifElse span (condition.resolve env locals) (thenBlock.resolve env locals)
      (elseBranch.resolve env locals)
  | .whileLoop span condition body =>
    .whileLoop span (condition.resolve env locals) (body.resolve env locals)
  | .untilLoop span condition body =>
    .untilLoop span (condition.resolve env locals) (body.resolve env locals)
  | .ret span value? => .ret span (resolveOption env locals value?)
  | .block span body => .block span (body.resolve env locals)
  | .expr span value => .expr span (value.resolve env locals)

/-- The expression, if there is one, with its names resolved. -/
def resolveOption (env : Environment) (locals : List String) : Option Expr → Option Expr
  | none => none
  | some e => some (e.resolve env locals)

def ElseBranch.resolve (env : Environment) (locals : List String) : ElseBranch → ElseBranch
  | .none => .none
  | .block body => .block (body.resolve env locals)
  | .elseIf condition thenBlock elseBranch =>
    .elseIf (condition.resolve env locals) (thenBlock.resolve env locals)
      (elseBranch.resolve env locals)

def ClassDecl.resolve (env : Environment) (locals : List String) : ClassDecl → ClassDecl
  | ⟨kind, name, extends?, implements, members, unique?⟩ =>
    ⟨kind, name, extends?.map (TypeExpr.resolve env locals), resolveTypes env locals implements,
      resolveMembers env locals members, unique?⟩

def resolveMembers (env : Environment) (locals : List String) : List Member → List Member
  | [] => []
  | member :: rest => member.resolve env locals :: resolveMembers env locals rest

def Member.resolve (env : Environment) (locals : List String) : Member → Member
  | .constructor span params body =>
    .constructor span params (body.resolve env (paramNames params ++ locals))
  | .method span name params returnType? effect? body? =>
    .method span name params returnType? effect?
      (resolveClosure env (paramNames params ++ locals) body?)
  | .field span name type? init? isDefault =>
    .field span name type? (resolveOption env locals init?) isDefault

end

/-! ### Checking -/

/-- What the strictest policy makes of the function of a call. -/
def Site.calleeFindings (site : Site) (locals : List String) : Expr → List Finding
  | .name _ ident => (site.callFinding? .error locals ident).toList
  | _ => []

mutual

def Expr.check (site : Site) (locals : List String) : Expr → List Finding
  | .number .. | .string .. | .bool .. | .name .. => []
  | .binary _ _ left right => left.check site locals ++ right.check site locals
  | .assign _ target value => target.check site locals ++ value.check site locals
  | .index _ receiver position => receiver.check site locals ++ position.check site locals
  | .unary _ _ operand => operand.check site locals
  | .typeTest _ operand _ _ => operand.check site locals
  | .cast _ operand _ _ => operand.check site locals
  | .call _ callee args closure? =>
    site.calleeFindings locals callee ++ callee.check site locals ++ checkExprs site locals args
      ++ checkClosure site locals closure?
  | .field _ receiver _ => receiver.check site locals
  | .staticMember _ receiver member =>
    match site.env.resolveStatic? locals receiver member with
    | some unique => [.qualifiedReference site.file unique]
    | none => receiver.check site locals
  | .array _ elements => checkExprs site locals elements
  | .object _ fields => checkFields site locals fields
  | .lambda _ params body => body.check site (paramNames params ++ locals)
  | .new _ _ args => checkExprs site locals args

def checkExprs (site : Site) (locals : List String) : List Expr → List Finding
  | [] => []
  | e :: rest => e.check site locals ++ checkExprs site locals rest

def checkFields (site : Site) (locals : List String) : List ObjectField → List Finding
  | [] => []
  | ⟨_, value, _⟩ :: rest => value.check site locals ++ checkFields site locals rest

def checkClosure (site : Site) (locals : List String) : Option Block → List Finding
  | none => []
  | some body => body.check site locals

def Block.check (site : Site) (locals : List String) : Block → List Finding
  | ⟨stmts, _⟩ => checkStmts site locals stmts

/-- The findings of the statements of a block; each brings its locals for the rest. -/
def checkStmts (site : Site) (locals : List String) : List Stmt → List Finding
  | [] => []
  | s :: rest =>
    s.check site (s.boundBefore ++ locals) ++ checkStmts site (s.boundAfter ++ locals) rest

def Stmt.check (site : Site) (locals : List String) : Stmt → List Finding
  | .namespaceDecl .. | .usingDecl .. | .foreignDecl .. => []
  | .letDecl _ _ _ init? _ => checkOption site locals init?
  | .function _ _ params _ _ body _ => body.check site (paramNames params ++ locals)
  | .classDecl _ decl => decl.check site locals
  | .ifElse _ condition thenBlock elseBranch =>
    condition.check site locals ++ thenBlock.check site locals ++ elseBranch.check site locals
  | .whileLoop _ condition body => condition.check site locals ++ body.check site locals
  | .untilLoop _ condition body => condition.check site locals ++ body.check site locals
  | .ret _ value? => checkOption site locals value?
  | .block _ body => body.check site locals
  | .expr _ value => value.check site locals

def checkOption (site : Site) (locals : List String) : Option Expr → List Finding
  | none => []
  | some e => e.check site locals

def ElseBranch.check (site : Site) (locals : List String) : ElseBranch → List Finding
  | .none => []
  | .block body => body.check site locals
  | .elseIf condition thenBlock elseBranch =>
    condition.check site locals ++ thenBlock.check site locals ++ elseBranch.check site locals

/-- The findings of a class. Its members are checked inside it. -/
def ClassDecl.check (site : Site) (locals : List String) : ClassDecl → List Finding
  | ⟨_, name, _, _, members, _⟩ =>
    checkMembers { site with class? := some ⟨name.name, members.filterMap Member.name?⟩ } name.name
      locals members

/-- The findings of the members of the class `className`. -/
def checkMembers (site : Site) (className : String) (locals : List String) :
    List Member → List Finding
  | [] => []
  | member :: rest =>
    member.check site className locals ++ checkMembers site className locals rest

/-- The findings of a member of the class `className`. A constructor that awaits is found before
    what its body holds. -/
def Member.check (site : Site) (className : String) (locals : List String) : Member → List Finding
  | .constructor span params body =>
    (if body.awaits then [.awaitingConstructor site.file span className] else [])
      ++ body.check site (paramNames params ++ locals)
  | .method _ _ params _ _ body? => checkClosure site (paramNames params ++ locals) body?
  | .field _ _ _ init? _ => checkOption site locals init?

end

/-! ### Rules -/

/-- The strictest rules: everything is noticed, and taken for as serious as it can be. -/
def Rules.strict : Rules := ⟨.standard, .error⟩

/-- Is this about the main namespaces of the files? -/
def Finding.isMainRule : Finding → Bool
  | .duplicateMain .. | .namespaceMissing .. | .mainMissing .. | .manyMains .. => true
  | _ => false

/-- How serious a bare call that names a member of its class is taken. -/
def MemberCallPolicy.severity? : MemberCallPolicy → Option Severity
  | .warn => some .warning
  | .ignore => none
  | .error => some .error

/-- What the rules make of a finding of the strictest ones. -/
def Finding.under (rules : Rules) : Finding → Option Finding
  | .implicitMemberCall file span callee className _ =>
    rules.memberCalls.severity?.map (.implicitMemberCall file span callee className)
  | f => if f.isMainRule && rules.mode == .repl then none else some f

/-- The rules decide on the severity of calls of members, and else only what is dropped. -/
theorem Finding.under_cases {rules : Rules} {f g : Finding} (h : f.under rules = some g) :
    g = f ∨ ∃ file span callee className severity severity',
      f = .implicitMemberCall file span callee className severity ∧
        g = .implicitMemberCall file span callee className severity' := by
  unfold under at h
  split at h
  · obtain ⟨severity', _, rfl⟩ := Option.map_eq_some_iff.mp h
    exact .inr ⟨_, _, _, _, _, severity', rfl, rfl⟩
  · split at h
    · cases h
    · exact .inl (Option.some.inj h).symm

/-- How serious the rules take what the strictest ones find. -/
def Finding.severityUnder (rules : Rules) (f : Finding) : Option Severity :=
  (f.under rules).bind Finding.severity?

namespace Rewritten

variable {α β γ δ : Type} {rules : Rules}

/-- A rewritten tree and, of what the strictest rules find in it, what the rules ask for. -/
def under (rules : Rules) (tree : α) (findings : List Finding) : Rewritten α :=
  ⟨tree, findings.filterMap (Finding.under rules)⟩

@[simp] theorem map_under (f : α → β) (tree : α) (findings : List Finding) :
    map f (under rules tree findings) = under rules (f tree) findings := rfl

@[simp] theorem map₂_under (f : α → β → γ) (a : α) (b : β) (first second : List Finding) :
    map₂ f (under rules a first) (under rules b second) =
      under rules (f a b) (first ++ second) := by
  simp [map₂, under]

@[simp] theorem map₃_under (f : α → β → γ → δ) (a : α) (b : β) (c : γ)
    (first second third : List Finding) :
    map₃ f (under rules a first) (under rules b second) (under rules c third) =
      under rules (f a b c) (first ++ second ++ third) := by
  simp [map₃, under]

end Rewritten

theorem Rewriter.calleeFindings_eq (rules : Rules) (site : Site) (locals : List String) (e : Expr) :
    Rewriter.calleeFindings ⟨site, rules.memberCalls⟩ locals e =
      (site.calleeFindings locals e).filterMap (Finding.under rules) := by
  cases e with
  | name span ident =>
    unfold Rewriter.calleeFindings Site.calleeFindings Site.callFinding?
    dsimp only
    cases site.class? with
    | none => cases rules.memberCalls <;> rfl
    | some scope =>
      simp only [Option.bind_some]
      by_cases hfound : ident.name ∈ scope.members ∧ ident.name ∉ locals ∧
          site.env.resolve? locals ident.name = none
      · rw [if_pos hfound, if_pos hfound]
        cases hpolicy : rules.memberCalls <;>
          simp [Finding.under, hpolicy, MemberCallPolicy.severity?]
      · rw [if_neg hfound, if_neg hfound]
        cases rules.memberCalls <;> rfl
  | _ => rfl

/-! ### Rewriting -/

open Rewritten

mutual

theorem Expr.rewrite_eq (rules : Rules) (site : Site) (locals : List String) : ∀ e : Expr,
    e.rewrite ⟨site, rules.memberCalls⟩ locals =
      under rules (e.resolve site.env locals) (e.check site locals)
  | .number .. | .string .. | .bool .. | .name .. => by
    rw [Expr.rewrite, Expr.resolve, Expr.check]
    rfl
  | .binary _ _ left right | .assign _ left right | .index _ left right => by
    rw [Expr.rewrite, left.rewrite_eq, right.rewrite_eq, map₂_under, Expr.resolve, Expr.check]
  | .unary _ _ operand | .typeTest _ operand _ _ | .cast _ operand _ _ | .field _ operand _ => by
    rw [Expr.rewrite, operand.rewrite_eq, map_under, Expr.resolve, Expr.check]
  | .call _ callee args closure? => by
    -- Only here the policy is asked.
    rw [Expr.rewrite, callee.rewrite_eq, rewriteExprs_eq, rewriteClosure_eq, map₃_under,
      Expr.resolve, Expr.check, Rewriter.calleeFindings_eq]
    simp [after, under]
  | .staticMember _ receiver member => by
    rw [Expr.rewrite, Expr.resolve, Expr.check]
    cases site.env.resolveStatic? locals receiver member with
    | none => rw [receiver.rewrite_eq, map_under]
    | some unique => rfl
  | .array _ elements => by
    rw [Expr.rewrite, rewriteExprs_eq, map_under, Expr.resolve, Expr.check]
  | .object _ fields => by
    rw [Expr.rewrite, rewriteFields_eq, map_under, Expr.resolve, Expr.check]
  | .lambda _ params body => by
    rw [Expr.rewrite, body.rewrite_eq, map_under, Expr.resolve, Expr.check]
  | .new _ _ args => by
    rw [Expr.rewrite, rewriteExprs_eq, map_under, Expr.resolve, Expr.check]

theorem rewriteExprs_eq (rules : Rules) (site : Site) (locals : List String) : ∀ es : List Expr,
    rewriteExprs ⟨site, rules.memberCalls⟩ locals es =
      under rules (resolveExprs site.env locals es) (checkExprs site locals es)
  | [] => rfl
  | e :: rest => by
    rw [rewriteExprs, e.rewrite_eq, rewriteExprs_eq, map₂_under, resolveExprs, checkExprs]

theorem rewriteFields_eq (rules : Rules) (site : Site) (locals : List String) :
    ∀ fields : List ObjectField, rewriteFields ⟨site, rules.memberCalls⟩ locals fields =
      under rules (resolveFields site.env locals fields) (checkFields site locals fields)
  | [] => rfl
  | ⟨_, value, _⟩ :: rest => by
    rw [rewriteFields, value.rewrite_eq, rewriteFields_eq, map₂_under, resolveFields, checkFields]

theorem rewriteClosure_eq (rules : Rules) (site : Site) (locals : List String) :
    ∀ closure? : Option Block, rewriteClosure ⟨site, rules.memberCalls⟩ locals closure? =
      under rules (resolveClosure site.env locals closure?) (checkClosure site locals closure?)
  | none => rfl
  | some body => by
    rw [rewriteClosure, body.rewrite_eq, map_under, resolveClosure, checkClosure]

theorem Block.rewrite_eq (rules : Rules) (site : Site) (locals : List String) : ∀ b : Block,
    b.rewrite ⟨site, rules.memberCalls⟩ locals =
      under rules (b.resolve site.env locals) (b.check site locals)
  | ⟨stmts, _⟩ => by
    rw [Block.rewrite, rewriteStmts_eq, map_under, Block.resolve, Block.check]

theorem rewriteStmts_eq (rules : Rules) (site : Site) (locals : List String) :
    ∀ stmts : List Stmt, rewriteStmts ⟨site, rules.memberCalls⟩ locals stmts =
      under rules (resolveStmts site.env locals stmts) (checkStmts site locals stmts)
  | [] => rfl
  | s :: rest => by
    rw [rewriteStmts, s.rewrite_eq, rewriteStmts_eq, map₂_under, resolveStmts, checkStmts]

theorem Stmt.rewrite_eq (rules : Rules) (site : Site) (locals : List String) : ∀ s : Stmt,
    s.rewrite ⟨site, rules.memberCalls⟩ locals =
      under rules (s.resolve site.env locals) (s.check site locals)
  | .namespaceDecl .. | .usingDecl .. | .foreignDecl .. => by
    rw [Stmt.rewrite, Stmt.resolve, Stmt.check]
    rfl
  | .letDecl _ _ _ init? _ | .ret _ init? => by
    rw [Stmt.rewrite, rewriteOption_eq, map_under, Stmt.resolve, Stmt.check]
  | .function _ _ _ _ _ body _ | .block _ body => by
    rw [Stmt.rewrite, body.rewrite_eq, map_under, Stmt.resolve, Stmt.check]
  | .classDecl _ decl => by
    rw [Stmt.rewrite, decl.rewrite_eq, map_under, Stmt.resolve, Stmt.check]
  | .ifElse _ condition thenBlock elseBranch => by
    rw [Stmt.rewrite, condition.rewrite_eq, thenBlock.rewrite_eq, elseBranch.rewrite_eq, map₃_under,
      Stmt.resolve, Stmt.check]
  | .whileLoop _ condition body | .untilLoop _ condition body => by
    rw [Stmt.rewrite, condition.rewrite_eq, body.rewrite_eq, map₂_under, Stmt.resolve, Stmt.check]
  | .expr _ value => by
    rw [Stmt.rewrite, value.rewrite_eq, map_under, Stmt.resolve, Stmt.check]

theorem rewriteOption_eq (rules : Rules) (site : Site) (locals : List String) :
    ∀ value? : Option Expr, rewriteOption ⟨site, rules.memberCalls⟩ locals value? =
      under rules (resolveOption site.env locals value?) (checkOption site locals value?)
  | none => rfl
  | some e => by rw [rewriteOption, e.rewrite_eq, map_under, resolveOption, checkOption]

theorem ElseBranch.rewrite_eq (rules : Rules) (site : Site) (locals : List String) :
    ∀ b : ElseBranch, b.rewrite ⟨site, rules.memberCalls⟩ locals =
      under rules (b.resolve site.env locals) (b.check site locals)
  | .none => rfl
  | .block body => by
    rw [ElseBranch.rewrite, body.rewrite_eq, map_under, ElseBranch.resolve, ElseBranch.check]
  | .elseIf condition thenBlock elseBranch => by
    rw [ElseBranch.rewrite, condition.rewrite_eq, thenBlock.rewrite_eq, elseBranch.rewrite_eq,
      map₃_under, ElseBranch.resolve, ElseBranch.check]

theorem ClassDecl.rewrite_eq (rules : Rules) (site : Site) (locals : List String) :
    ∀ decl : ClassDecl, decl.rewrite ⟨site, rules.memberCalls⟩ locals =
      under rules (decl.resolve site.env locals) (decl.check site locals)
  | ⟨_, _, _, _, members, _⟩ => by
    rw [ClassDecl.rewrite, rewriteMembers_eq, map_under, ClassDecl.resolve, ClassDecl.check]

theorem rewriteMembers_eq (rules : Rules) (site : Site) (className : String)
    (locals : List String) : ∀ members : List Member,
    rewriteMembers ⟨site, rules.memberCalls⟩ className locals members =
      under rules (resolveMembers site.env locals members)
        (checkMembers site className locals members)
  | [] => rfl
  | member :: rest => by
    rw [rewriteMembers, member.rewrite_eq, rewriteMembers_eq, map₂_under, resolveMembers,
      checkMembers]

theorem Member.rewrite_eq (rules : Rules) (site : Site) (className : String)
    (locals : List String) : ∀ m : Member,
    m.rewrite ⟨site, rules.memberCalls⟩ className locals =
      under rules (m.resolve site.env locals) (m.check site className locals)
  | .constructor span params body => by
    rw [Member.rewrite, body.rewrite_eq, map_under, Member.resolve, Member.check]
    cases body.awaits <;> rfl
  | .method _ _ params _ _ body? => by
    rw [Member.rewrite, rewriteClosure_eq, map_under, Member.resolve, Member.check]
  | .field _ _ _ init? _ => by
    rw [Member.rewrite, rewriteOption_eq, map_under, Member.resolve, Member.check]

end

/-! ### Collecting -/

/-- In each mode, what breaks the rules on main namespaces is noticed as far as it is asked for. -/
theorem Mode.enforce_eq (rules : Rules) {findings : List Finding}
    (h : ∀ f ∈ findings, f.isMainRule = true) :
    rules.mode.enforce findings = findings.filterMap (Finding.under rules) := by
  have hunder : ∀ f ∈ findings, f.under rules = if rules.mode = .repl then none else some f := by
    intro f hf
    have hmain := h f hf
    cases f with
    | duplicateMain | namespaceMissing | mainMissing | manyMains =>
      cases hmode : rules.mode <;> simp [Finding.under, Finding.isMainRule, hmode]
    | _ => cases hmain
  rw [List.filterMap_congr hunder]
  cases rules.mode <;> simp [Mode.enforce]

theorem isMainRule_of_mainFinding? {file : String} {stmts : List Stmt} {f : Finding}
    (h : mainFinding? file stmts = some f) : f.isMainRule = true := by
  unfold mainFinding? at h
  split at h
  · cases h
    rfl
  · split at h <;> cases h <;> rfl

namespace Collected

/-- The same tables with, of what the strictest rules find, what the rules ask for. -/
def under (rules : Rules) (c : Collected) : Collected :=
  { c with findings := c.findings.filterMap (Finding.under rules) }

theorem enter_under (rules : Rules) (c : Collected) (file : String) (span : Span)
    (decl : NamespaceDecl) :
    (c.under rules).enter rules.mode file span decl =
      (c.enter .standard file span decl).under rules := by
  unfold enter
  dsimp only
  split
  · have hmain : ∀ f ∈ ((c.table.mainFile? decl.cleanName).map
        (Finding.duplicateMain file span decl.cleanName)).toList, f.isMainRule = true := by
      cases c.table.mainFile? decl.cleanName <;> simp [Finding.isMainRule]
    unfold under
    dsimp only
    rw [Mode.enforce_eq rules hmain, ← List.filterMap_append]
    rfl
  · rfl

theorem register_under (rules : Rules) (c : Collected) (file path : String) (kind : EntryKind)
    (name : Ident) :
    (c.under rules).register file path kind name =
      (c.register file path kind name).under rules := by
  have hkept (previous : Entry) :
      (Finding.redeclared file name.span kind name.name previous).under rules =
        some (.redeclared file name.span kind name.name previous) := rfl
  cases hfound : c.table.lookup path name.name <;> simp [register, under, hfound, hkept]

theorem add_under (rules : Rules) (c : Collected) (p : Placed) :
    (c.under rules).add rules.mode p = (c.add .standard p).under rules := by
  unfold add
  cases p.stmt with
  | namespaceDecl span decl => exact enter_under rules c p.file span decl
  | usingDecl span decl => rfl
  | function | classDecl | letDecl | foreignDecl => exact register_under rules c ..
  | _ => rfl

theorem addFile_under (rules : Rules) (c : Collected) (file : String) (stmts : List Stmt) :
    (c.under rules).addFile rules.mode file stmts =
      (c.addFile .standard file stmts).under rules := by
  have hmain : ∀ f ∈ (mainFinding? file stmts).toList, f.isMainRule = true := fun f hf =>
    isMainRule_of_mainFinding? (Option.mem_toList.mp hf)
  unfold addFile
  dsimp only
  rw [List.foldl_hom (under rules) (add_under rules)]
  rw [Mode.enforce_eq rules hmain]
  simp [under, Mode.enforce]

def resolve (c : Collected) (p : Placed) : Stmt :=
  p.stmt.resolve (c.environment p) []

/-- What the strictest rules find in a statement. -/
def check (c : Collected) (p : Placed) : List Finding :=
  p.stmt.check ⟨p.file, c.environment p, none⟩ []

end Collected

/-- The mode decides on the findings only. -/
theorem collect_eq (rules : Rules) (files : List ParsedFile) :
    collect rules.mode files = (collect .standard files).under rules := by
  have hempty : Collected.empty = Collected.empty.under rules := rfl
  unfold collect
  nth_rewrite 1 [hempty]
  exact List.foldl_hom _ fun c file => c.addFile_under rules file.name file.program.stmts

/-! ### Linking -/

/-- The linked program of parsed files, and what the strictest rules find. -/
def survey (names : List String) (parsed : List ParsedFile) : Linked × List Finding :=
  let walk := (Graph.ofFiles parsed).order
  let files := inOrder walk.order parsed
  let collected := collect .standard files
  let placed := placeFiles files
  (⟨⟨placed.map collected.resolve⟩, names, walk.order, collected.table, collected.imports⟩,
    walk.cycles.map .cycle ++ collected.findings ++ placed.flatMap collected.check)

/-- Linking under rules is surveying, and then asking the rules. -/
theorem linkParsed_eq (rules : Rules) (names : List String) (parsed : List ParsedFile) :
    linkParsed rules names parsed =
      ((survey names parsed).1, (survey names parsed).2.filterMap (Finding.under rules)) := by
  have hrewrite (c : Collected) (p : Placed) : (c.under rules).rewrite rules.memberCalls p =
      under rules (c.resolve p) (c.check p) :=
    p.stmt.rewrite_eq rules ⟨p.file, c.environment p, none⟩ []
  have hcycle (path : List String) : (Finding.cycle path).under rules = some (.cycle path) := rfl
  unfold linkParsed survey
  simp only [collect_eq, hrewrite, List.map_map, List.flatMap_map, List.filterMap_append,
    List.filterMap_map, List.filterMap_flatMap, Function.comp_def]
  simp [Collected.under, under, hcycle]

end ScriptCompiler
