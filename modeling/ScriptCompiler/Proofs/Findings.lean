import ScriptCompiler.Proofs.Occurrence
import ScriptCompiler.Proofs.Rewriting

/-!
# Where findings come from

The findings of a tree are those of its parts at any depth: calls that name a member of their class
and constructors that await are found wherever they stand. The only parts that are passed over are
the insides of a chain that refers to a declaration as a whole, where neither can stand.
-/

namespace ScriptCompiler

/-- The finding only records a reference and is never reported. -/
def Finding.IsReference : Finding → Prop
  | .qualifiedReference .. => True
  | _ => False

namespace Occurrence

/-- The name of the class that the part stands in. -/
def className (o : Occurrence) : String :=
  (o.class?.map ClassScope.name).getD ""

/-- The findings of a part in the file `file`. -/
def check (file : String) (env : Environment) (o : Occurrence) : List Finding :=
  match o.node with
  | .type _ => []
  | .expr e => e.check ⟨file, env, o.class?⟩ o.locals
  | .block b => b.check ⟨file, env, o.class?⟩ o.locals
  | .stmt s => s.check ⟨file, env, o.class?⟩ o.locals
  | .elseBranch b => b.check ⟨file, env, o.class?⟩ o.locals
  | .member m => m.check ⟨file, env, o.class?⟩ o.className o.locals

/-- The chain that refers to a declaration as a whole, and the unique name of the declaration. -/
def collapsed? (env : Environment) (o : Occurrence) : Option String :=
  match o.node with
  | .expr (.staticMember _ receiver member) => env.resolveStatic? o.locals receiver member
  | _ => none

/-- The findings that are about the part itself, not about parts inside it. -/
def ownFindings (file : String) (env : Environment) (o : Occurrence) : List Finding :=
  match o.node with
  | .expr (.call _ callee _ _) => Site.calleeFindings ⟨file, env, o.class?⟩ o.locals callee
  | .member (.constructor span _ body) =>
    if body.awaits then [.awaitingConstructor file span o.className] else []
  | _ => []

end Occurrence

section Lists

variable (site : Site) (locals : List String)

theorem checkExprs_eq (es : List Expr) :
    checkExprs site locals es = es.flatMap fun e => e.check site locals := by
  induction es with
  | nil => simp [checkExprs]
  | cons e rest ih => simp [checkExprs, ih]

theorem checkFields_eq (fields : List ObjectField) :
    checkFields site locals fields = fields.flatMap fun field => field.value.check site locals := by
  induction fields with
  | nil => simp [checkFields]
  | cons field rest ih =>
    obtain ⟨key, value, span⟩ := field
    simp [checkFields, ih]

theorem checkClosure_eq (closure? : Option Block) :
    checkClosure site locals closure? =
      closure?.toList.flatMap fun body => body.check site locals := by
  cases closure? <;> simp [checkClosure]

theorem checkOption_eq (value? : Option Expr) :
    checkOption site locals value? = value?.toList.flatMap fun e => e.check site locals := by
  cases value? <;> simp [checkOption]

theorem checkMembers_eq (className : String) (members : List Member) :
    checkMembers site className locals members =
      members.flatMap fun m => m.check site className locals := by
  induction members with
  | nil => simp [checkMembers]
  | cons m rest ih => simp [checkMembers, ih]

/-- The statements of a block are checked with the locals that they see. -/
theorem checkStmts_eq (node : Node) (bound : List String) (stmts : List Stmt) :
    checkStmts site (bound ++ locals) stmts = (stmtChildren bound stmts).flatMap fun child =>
      Occurrence.check site.file site.env (Occurrence.enter ⟨locals, site.class?, node⟩ child) := by
  induction stmts generalizing bound with
  | nil => simp [checkStmts, stmtChildren]
  | cons s rest ih =>
    rw [checkStmts, ← List.append_assoc s.boundAfter, ih]
    simp [stmtChildren, Occurrence.check, Occurrence.enter]

end Lists

namespace Occurrence

variable {file : String} {env : Environment}

theorem flatMap_parts (o : Occurrence) :
    o.parts.flatMap (check file env) =
      o.node.children.flatMap fun child => check file env (o.enter child) := by
  rw [parts, List.flatMap_map]

/-- The findings of a part are its own and those of the parts right inside it, unless it is a chain
    that refers to a declaration as a whole. -/
theorem check_eq {o : Occurrence} (h : o.collapsed? env = none) :
    o.check file env = o.ownFindings file env ++ o.parts.flatMap (check file env) := by
  rw [flatMap_parts]
  obtain ⟨locals, class?, node⟩ := o
  cases node with
  | type t =>
    cases t <;> simp [check, ownFindings, Node.children, TypeExpr.children, Child.plain, enter]
  | expr e =>
    cases e with
    | staticMember span receiver member =>
      simp only [collapsed?] at h
      simp [check, ownFindings, Node.children, Expr.children, Child.plain, enter, Expr.check, h]
    | _ =>
      simp [check, ownFindings, Node.children, Expr.children, Child.plain, Child.body, enter,
        Expr.check, checkExprs_eq, checkFields_eq, checkClosure_eq, List.flatMap_map]
  | block b =>
    obtain ⟨stmts, span⟩ := b
    exact checkStmts_eq ⟨file, env, class?⟩ locals (.block ⟨stmts, span⟩) [] stmts
  | stmt s =>
    cases s with
    | classDecl span decl =>
      obtain ⟨kind, name, extends?, implements, members, unique?⟩ := decl
      have htypes : ∀ types : List TypeExpr, types.flatMap (fun _ => ([] : List Finding)) = [] :=
        fun types => by simp [List.flatMap_eq_nil_iff]
      simp [htypes, check, ownFindings, Node.children, Stmt.children, Child.plain, enter, Stmt.check,
        ClassDecl.check, checkMembers_eq, className, List.flatMap_map]
    | _ =>
      simp [check, ownFindings, Node.children, Stmt.children, Child.plain, Child.body, enter,
        Stmt.check, checkOption_eq, List.flatMap_map]
  | elseBranch b =>
    cases b <;>
      simp [check, ownFindings, Node.children, ElseBranch.children, Child.plain, enter,
        ElseBranch.check]
  | member m =>
    cases m <;>
      simp [check, ownFindings, Node.children, Member.children, Child.plain, Child.body, enter,
        Member.check, checkOption_eq, checkClosure_eq, className, List.flatMap_map]

end Occurrence

def Node.IsChain : Node → Prop
  | .expr e => e.staticPath?.isSome
  | _ => False

/-- All parts of a chain of names belong to it. -/
theorem Node.every_isChain {n : Node} (h : n.IsChain) : n.Every IsChain := by
  induction n using Node.induction_on with
  | h n ih =>
    refine ⟨h, fun child hchild => ih child hchild ?_⟩
    cases n with
    | expr e =>
      cases e with
      | name span ident => exact absurd hchild List.not_mem_nil
      | staticMember span receiver member =>
        obtain rfl := List.mem_singleton.mp hchild
        simpa [IsChain, Expr.staticPath?, Child.plain] using h
      | _ => simp [IsChain, Expr.staticPath?] at h
    | _ => exact h.elim

namespace Occurrence

variable {file : String} {env : Environment}

theorem ownFindings_of_isChain {o : Occurrence} (h : o.node.IsChain) :
    o.ownFindings file env = [] := by
  unfold ownFindings
  cases hnode : o.node with
  | expr e =>
    rw [hnode] at h
    cases e with
    | call => simp [Node.IsChain, Expr.staticPath?] at h
    | _ => rfl
  | _ => simp [hnode, Node.IsChain] at h

/-- A chain that refers to a declaration as a whole has nothing to report in it. -/
theorem collapsed_cases {o : Occurrence} {unique : String} (h : o.collapsed? env = some unique) :
    o.node.IsChain ∧ o.check file env = [.qualifiedReference file unique] := by
  obtain ⟨locals, class?, node⟩ := o
  cases node with
  | expr e =>
    cases e with
    | staticMember span receiver member =>
      simp only [collapsed?, Environment.resolveStatic?] at h
      obtain ⟨path, hpath, _⟩ := Option.bind_eq_some_iff.mp h
      refine ⟨by simp [Node.IsChain, Expr.staticPath?, hpath], ?_⟩
      simp only [check, Expr.check, Environment.resolveStatic?, h]
    | _ => simp [collapsed?] at h
  | _ => simp [collapsed?] at h

/-- What is reported for a part is reported for a part inside it at some depth, and the other way
    round. -/
theorem mem_check_iff {o : Occurrence} {f : Finding} (hf : ¬ f.IsReference) :
    f ∈ o.check file env ↔ ∃ part, o.Within part ∧ f ∈ part.ownFindings file env := by
  obtain ⟨locals, class?, node⟩ := o
  induction node using Node.induction_on generalizing locals class? with
  | h node ih =>
    cases hcollapsed : collapsed? env ⟨locals, class?, node⟩ with
    | some unique =>
      -- The parts of a chain are not looked at, but none of them could be reported.
      obtain ⟨hchain, hcheck⟩ := collapsed_cases hcollapsed
      rw [hcheck]
      constructor
      · intro hmem
        rw [List.mem_singleton.mp hmem] at hf
        exact absurd trivial hf
      · rintro ⟨part, hpart, hmem⟩
        have hpartChain := ((Node.every_isChain hchain).of_within hpart).here
        rw [ownFindings_of_isChain hpartChain] at hmem
        exact absurd hmem List.not_mem_nil
    | none =>
      rw [check_eq hcollapsed, List.mem_append, List.mem_flatMap]
      constructor
      · rintro (hown | ⟨next, hnext, hmem⟩)
        · exact ⟨_, Within.refl _, hown⟩
        · obtain ⟨child, hchild, rfl⟩ := mem_parts.mp hnext
          obtain ⟨part, hpart, hown⟩ := (ih child hchild _ _).mp hmem
          exact ⟨part, hpart.head hnext, hown⟩
      · rintro ⟨part, hpart, hown⟩
        rcases within_iff.mp hpart with rfl | ⟨next, hnext, hrest⟩
        · exact .inl hown
        · obtain ⟨child, hchild, rfl⟩ := mem_parts.mp hnext
          exact .inr ⟨_, hnext, (ih child hchild _ _).mpr ⟨part, hrest, hown⟩⟩

/-- What is about a part itself is a constructor that awaits or a call of a member. -/
theorem ownFindings_cases {o : Occurrence} {f : Finding} (hf : f ∈ o.ownFindings file env) :
    (∃ span name, f = .awaitingConstructor file span name) ∨
      ∃ span callee name, f = .implicitMemberCall file span callee name .error := by
  obtain ⟨locals, class?, node⟩ := o
  cases node with
  | expr e =>
    cases e with
    | call span callee args closure? =>
      cases callee with
      | name span ident =>
        obtain ⟨scope, _, hfound⟩ := Option.bind_eq_some_iff.mp (Option.mem_toList.mp hf)
        split at hfound
        · exact .inr ⟨_, _, _, (Option.some.inj hfound).symm⟩
        · cases hfound
      | _ => cases hf
    | _ => cases hf
  | member m =>
    cases m with
    | constructor span params body =>
      simp only [ownFindings] at hf
      split at hf
      · exact .inl ⟨_, _, List.mem_singleton.mp hf⟩
      · cases hf
    | _ => cases hf
  | _ => cases hf

end Occurrence

end ScriptCompiler
