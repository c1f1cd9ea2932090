import ScriptCompiler.Proofs.Findings
import ScriptCompiler.Proofs.Linking
import ScriptCompiler.Proofs.Locals

/-!
# What resolved names are

Resolving the names of a statement keeps its shape: at each position stands the resolved part, with
the locals that it saw before, unless a chain of names on the way down has become one name. What is
written for a name is therefore determined by the part that holds it and by the namespaces of its
statement.
-/

namespace ScriptCompiler

/-! ### Resolved parts -/

def Node.resolve (env : Environment) (locals : List String) : Node → Node
  | .type t => .type (t.resolve env locals)
  | .expr e => .expr (e.resolve env locals)
  | .block b => .block (b.resolve env locals)
  | .stmt s => .stmt (s.resolve env locals)
  | .elseBranch b => .elseBranch (b.resolve env locals)
  | .member m => .member (m.resolve env locals)

/-- The child with its names resolved, inside a part that sees `locals`. -/
def Child.resolve (env : Environment) (locals : List String) (child : Child) : Child :=
  { child with node := child.node.resolve env (child.binds ++ locals) }

@[simp] theorem Child.resolve_plain (env : Environment) (locals : List String) (n : Node) :
    (plain n).resolve env locals = plain (n.resolve env locals) :=
  rfl

@[simp] theorem Child.resolve_body (env : Environment) (locals : List String) (params : List Param)
    (b : Block) : (body params b).resolve env locals =
      body params (b.resolve env (paramNames params ++ locals)) :=
  rfl

@[simp] theorem Child.resolve_member (env : Environment) (locals : List String)
    (class? : Option ClassScope) (m : Member) :
    Child.resolve env locals ⟨[], class?, .member m⟩ =
      ⟨[], class?, .member (m.resolve env locals)⟩ :=
  rfl

def Occurrence.resolve (env : Environment) (o : Occurrence) : Occurrence :=
  { o with node := o.node.resolve env o.locals }

section Lists

variable (env : Environment) (locals : List String)

theorem resolveTypes_eq (types : List TypeExpr) :
    resolveTypes env locals types = types.map (TypeExpr.resolve env locals) := by
  induction types with
  | nil => simp [resolveTypes]
  | cons t rest ih => simp [resolveTypes, ih]

theorem resolveExprs_eq (es : List Expr) :
    resolveExprs env locals es = es.map (Expr.resolve env locals) := by
  induction es with
  | nil => simp [resolveExprs]
  | cons e rest ih => simp [resolveExprs, ih]

theorem resolveFields_eq (fields : List ObjectField) :
    resolveFields env locals fields =
      fields.map fun field => { field with value := field.value.resolve env locals } := by
  induction fields with
  | nil => simp [resolveFields]
  | cons field rest ih =>
    obtain ⟨key, value, span⟩ := field
    simp [resolveFields, ih]

theorem resolveClosure_eq (closure? : Option Block) :
    resolveClosure env locals closure? = closure?.map (Block.resolve env locals) := by
  cases closure? <;> simp [resolveClosure]

theorem resolveOption_eq (value? : Option Expr) :
    resolveOption env locals value? = value?.map (Expr.resolve env locals) := by
  cases value? <;> simp [resolveOption]

theorem resolveMembers_eq (members : List Member) :
    resolveMembers env locals members = members.map (Member.resolve env locals) := by
  induction members with
  | nil => simp [resolveMembers]
  | cons m rest ih => simp [resolveMembers, ih]

theorem Member.name?_resolve (m : Member) : (m.resolve env locals).name? = m.name? := by
  cases m <;> simp [Member.resolve, Member.name?]

theorem Stmt.boundBefore_resolve (s : Stmt) :
    (s.resolve env locals).boundBefore = s.boundBefore := by
  cases s with
  | classDecl span decl =>
    cases decl
    simp [Stmt.resolve, ClassDecl.resolve, Stmt.boundBefore]
  | _ => simp [Stmt.resolve, Stmt.boundBefore]

theorem Stmt.boundAfter_resolve (s : Stmt) :
    (s.resolve env locals).boundAfter = s.boundAfter := by
  cases s with
  | classDecl span decl =>
    cases decl
    simp [Stmt.resolve, ClassDecl.resolve, Stmt.boundAfter]
  | _ => simp [Stmt.resolve, Stmt.boundAfter]

theorem stmtChildren_resolveStmts (bound : List String) (stmts : List Stmt) :
    stmtChildren bound (resolveStmts env (bound ++ locals) stmts) =
      (stmtChildren bound stmts).map (Child.resolve env locals) := by
  induction stmts generalizing bound with
  | nil => simp [resolveStmts, stmtChildren]
  | cons s rest ih =>
    rw [resolveStmts, stmtChildren, stmtChildren, Stmt.boundBefore_resolve,
      Stmt.boundAfter_resolve, ← List.append_assoc s.boundAfter, ih]
    simp [Child.resolve, Node.resolve]

end Lists

/-- The children of a resolved part are the resolved children, unless the part is a chain that
    refers to a declaration as a whole. -/
theorem Node.children_resolve {env : Environment} {locals : List String} {n : Node}
    (h : ∀ span receiver ident, n = .expr (.staticMember span receiver ident) →
      env.resolveStatic? locals receiver ident = none) :
    (n.resolve env locals).children = n.children.map (Child.resolve env locals) := by
  cases n with
  | type t =>
    cases t <;>
      simp [resolve, TypeExpr.resolve, children, TypeExpr.children, resolveTypes_eq,
        Function.comp_def]
  | expr e =>
    cases e with
    | staticMember span receiver ident =>
      have hnone := h span receiver ident rfl
      simp [resolve, Expr.resolve, hnone, children, Expr.children]
    | _ =>
      simp [resolve, Expr.resolve, children, Expr.children, resolveExprs_eq, resolveFields_eq,
        resolveClosure_eq, Option.toList_map, Function.comp_def]
  | block b =>
    obtain ⟨stmts, span⟩ := b
    simpa [resolve, Block.resolve, children] using stmtChildren_resolveStmts env locals [] stmts
  | stmt s =>
    cases s with
    | classDecl span decl =>
      obtain ⟨kind, name, extends?, implements, members, unique?⟩ := decl
      simp [resolve, Stmt.resolve, ClassDecl.resolve, children, Stmt.children, resolveTypes_eq,
        resolveMembers_eq, Option.toList_map, Function.comp_def, Member.name?_resolve]
    | _ =>
      simp [resolve, Stmt.resolve, children, Stmt.children, resolveOption_eq, Option.toList_map,
        Function.comp_def]
  | elseBranch b =>
    cases b <;> simp [resolve, ElseBranch.resolve, children, ElseBranch.children]
  | member m =>
    cases m <;>
      simp [resolve, Member.resolve, children, Member.children, resolveOption_eq, resolveClosure_eq,
        Option.toList_map, Function.comp_def]

/-- What resolving keeps of each part, it keeps of every part. -/
theorem Node.Every.resolve {P : Node → Prop} {env : Environment}
    (hkeep : ∀ n locals, P n → P (n.resolve env locals)) {n : Node} (h : n.Every P)
    (locals : List String) : (n.resolve env locals).Every P := by
  induction n using Node.induction_on generalizing locals with
  | h n ih =>
    refine ⟨hkeep n locals h.here, fun child hchild => ?_⟩
    by_cases hcollapsed : ∃ span receiver ident, n = .expr (.staticMember span receiver ident) ∧
        env.resolveStatic? locals receiver ident ≠ none
    · -- A chain that refers to a declaration as a whole becomes a name.
      obtain ⟨span, receiver, ident, rfl, hsome⟩ := hcollapsed
      obtain ⟨name, hname⟩ := Option.ne_none_iff_exists'.mp hsome
      rw [Node.resolve, Expr.resolve, hname] at hchild
      cases hchild
    · rw [Node.children_resolve fun span receiver ident hn => by
        by_contra hsome
        exact hcollapsed ⟨span, receiver, ident, hn, hsome⟩] at hchild
      obtain ⟨original, horiginal, rfl⟩ := List.mem_map.mp hchild
      exact ih original horiginal (h.child horiginal) (original.binds ++ locals)

namespace Occurrence

theorem parts_resolve {env : Environment} {o : Occurrence} (h : o.collapsed? env = none) :
    (o.resolve env).parts = o.parts.map (resolve env) := by
  have hchildren : (o.node.resolve env o.locals).children =
      o.node.children.map (Child.resolve env o.locals) := by
    refine Node.children_resolve fun span receiver ident hnode => ?_
    simpa [collapsed?, hnode] using h
  unfold parts
  rw [show (o.resolve env).node = o.node.resolve env o.locals from rfl, hchildren, List.map_map,
    List.map_map]
  rfl

/-- No part above the position is a chain that refers to a declaration as a whole. -/
def Clear (env : Environment) (whole : Occurrence) (position : List Nat) : Prop :=
  ∀ above below o, position = above ++ below → below ≠ [] → whole.part? above = some o →
    o.collapsed? env = none

theorem Clear.here {env : Environment} {whole : Occurrence} {i : Nat} {rest : List Nat}
    (h : Clear env whole (i :: rest)) : whole.collapsed? env = none :=
  h [] (i :: rest) whole rfl (List.cons_ne_nil i rest) rfl

theorem Clear.tail {env : Environment} {whole next : Occurrence} {i : Nat} {rest : List Nat}
    (h : Clear env whole (i :: rest)) (hnext : whole.parts[i]? = some next) :
    Clear env next rest := by
  intro above below o hposition hbelow ho
  exact h (i :: above) below o (by rw [hposition, List.cons_append]) hbelow
    (part?_cons.mpr ⟨next, hnext, ho⟩)

/-- At a clear position of a resolved part stands the resolved part of that position. -/
theorem part?_resolve {env : Environment} {whole part : Occurrence} {position : List Nat}
    (hclear : Clear env whole position) (h : whole.part? position = some part) :
    (whole.resolve env).part? position = some (part.resolve env) := by
  induction position generalizing whole with
  | nil =>
    obtain rfl := Option.some.inj h
    rfl
  | cons i rest ih =>
    -- The whole is no collapsed chain, so its resolved parts still stand in their places.
    obtain ⟨next, hnext, hpart⟩ := part?_cons.mp h
    refine part?_cons.mpr ⟨next.resolve env, ?_, ih (hclear.tail hnext) hpart⟩
    rw [parts_resolve hclear.here, List.getElem?_map, hnext]
    rfl

end Occurrence

/-! ### References -/

/-- How a part refers to something by a name: to a value, to the class of a new instance, or to a
    type. -/
inductive ReferenceKind where
  | value | instantiated | type
deriving DecidableEq

/-- The name by which a part refers to something. -/
def Node.reference? : Node → Option (ReferenceKind × Ident)
  | .expr (.name _ ident) => some (.value, ident)
  | .expr (.new _ ident _) => some (.instantiated, ident)
  | .type (.named _ ident _) => some (.type, ident)
  | _ => none

/-- A part that refers to something by a name still does so when its names are resolved. -/
theorem Node.reference?_resolve {env : Environment} {locals : List String} {n : Node}
    {kind : ReferenceKind} {ident : Ident} (h : n.reference? = some (kind, ident)) :
    (n.resolve env locals).reference? = some (kind, env.resolveIdent locals ident) := by
  unfold reference? at h
  split at h
  · obtain ⟨rfl, rfl⟩ := Prod.mk.inj (Option.some.inj h)
    simp [resolve, Expr.resolve, reference?]
  · obtain ⟨rfl, rfl⟩ := Prod.mk.inj (Option.some.inj h)
    simp [resolve, Expr.resolve, reference?]
  · obtain ⟨rfl, rfl⟩ := Prod.mk.inj (Option.some.inj h)
    simp [resolve, TypeExpr.resolve, reference?]
  · cases h

/-! ### Chains that refer to a declaration as a whole -/

theorem IsReference.notMem_colon {name : String} (h : IsReference name) : ':' ∉ name.toList := by
  rcases h with hident | rfl | rfl
  · exact hident.word.notMem (by decide)
  · decide
  · decide

theorem splitLastPair_cons {c : Char} {text before after : List Char}
    (h : Text.splitLastPair text = some (before, after)) :
    Text.splitLastPair (c :: text) = some (c :: before, after) := by
  cases text with
  | nil => cases h
  | cons d rest => rw [Text.splitLastPair, h]

/-- The last `::` parts a path from a member. -/
theorem splitLastPair_append {member : List Char} (h : ':' ∉ member) (path : List Char) :
    Text.splitLastPair (path ++ ':' :: ':' :: member) = some (path, member) := by
  induction path with
  | nil =>
    have hmember : Text.splitLastPair (':' :: member) = none := by
      rw [splitLastPair_eq_none_iff, List.infix_cons_iff, List.cons_prefix_cons]
      rintro (⟨_, hhead⟩ | hinside)
      · exact h (hhead.subset List.mem_cons_self)
      · exact h (hinside.subset List.mem_cons_self)
    rw [List.nil_append, Text.splitLastPair, hmember]
    simp
  | cons c rest ih => exact splitLastPair_cons ih

theorem splitQualified_append {path member : String} (h : IsWord member) :
    splitQualified (path ++ "::" ++ member) = some (path, member) := by
  have hcolon : ':' ∉ member.toList := h.notMem (by decide)
  have hchars : (path ++ "::" ++ member).toList = path.toList ++ ':' :: ':' :: member.toList := by
    simp [String.toList_append]
  rw [splitQualified, hchars, splitLastPair_append hcolon]
  simp

/-- The part is a chain of names that refers to a declaration as a whole: the namespace that its
    front spells declares its last name. -/
def Occurrence.RefersAsWhole (table : NamespaceTable) (o : Occurrence) : Prop :=
  ∃ span receiver member path, o.node = .expr (.staticMember span receiver member) ∧
    receiver.staticPath? = some path ∧ (table.lookup path member.name).isSome

theorem colon_mem_append (path member : String) : ':' ∈ (path ++ "::" ++ member).toList := by
  simp [String.toList_append]

/-- Among locals with names of references a qualified name is looked up in the namespace that it
    spells. -/
theorem Environment.resolve?_qualified {env : Environment} {locals : List String}
    (hlocals : ∀ name ∈ locals, IsReference name) {path member : String} (hmember : IsWord member) :
    env.resolve? locals (path ++ "::" ++ member) =
      (env.table.lookup path member).map Entry.uniqueName := by
  have hcolon := colon_mem_append path member
  -- No local can be spelled like a qualified name.
  have hfree : ¬ (path ++ "::" ++ member = "self" ∨ path ++ "::" ++ member = "Self" ∨
      path ++ "::" ++ member ∈ locals) := by
    rintro (heq | heq | hin)
    · exact IsReference.notMem_colon (.inr (.inl heq)) hcolon
    · exact IsReference.notMem_colon (.inr (.inr heq)) hcolon
    · exact (hlocals _ hin).notMem_colon hcolon
  rw [resolve?, if_neg hfree, entry?, splitQualified_append hmember]

/-- A part of a parsed statement becomes one name exactly if it refers to a declaration as a
    whole. -/
theorem Occurrence.collapsed?_eq_none_iff {env : Environment} {o : Occurrence}
    (hnamed : o.node.Named) (hlocals : ∀ name ∈ o.locals, IsReference name) :
    o.collapsed? env = none ↔ ¬ o.RefersAsWhole env.table := by
  have hown := hnamed.here
  unfold collapsed? RefersAsWhole
  split
  · rename_i span receiver member hnode
    rw [hnode] at hown ⊢
    rw [Environment.resolveStatic?]
    cases hpath : receiver.staticPath? with
    | none =>
      refine ⟨fun _ => ?_, fun _ => rfl⟩
      rintro ⟨_, _, _, path, heq, hsome, _⟩
      cases heq
      rw [hpath] at hsome
      cases hsome
    | some path =>
      rw [Option.bind_some, Environment.resolve?_qualified hlocals (IsMemberName.word hown),
        Option.map_eq_none_iff]
      constructor
      · rintro hnone ⟨_, _, _, other, heq, hother, hfound⟩
        cases heq
        obtain rfl := Option.some.inj (hpath.symm.trans hother)
        rw [hnone] at hfound
        cases hfound
      · intro hnot
        refine Option.not_isSome_iff_eq_none.mp fun hfound => ?_
        exact hnot ⟨span, receiver, member, path, rfl, hpath, hfound⟩
  · rename_i hnode
    refine ⟨fun _ => ?_, fun _ => rfl⟩
    rintro ⟨span, receiver, member, _, heq, _⟩
    exact hnode span receiver member heq

/-! ### Unique names and their declarations -/

theorem Stmt.uniqueName?_resolve (env : Environment) (locals : List String) (s : Stmt) :
    (s.resolve env locals).uniqueName? = s.uniqueName? := by
  cases s with
  | classDecl span decl =>
    cases decl
    simp [Stmt.resolve, ClassDecl.resolve, uniqueName?]
  | _ => simp [Stmt.resolve, uniqueName?]

theorem Stmt.span_resolve (env : Environment) (locals : List String) (s : Stmt) :
    (s.resolve env locals).span = s.span := by
  cases s <;> simp [Stmt.resolve, Stmt.span]

theorem Stmt.uniqueName?_withUniqueName {s : Stmt} {kind : EntryKind} {ident : Ident}
    (h : s.declared? = some (kind, ident)) (path : String) :
    (s.withUniqueName path).uniqueName? = some (uniqueName path ident.name) := by
  cases s with
  | foreignDecl | letDecl | function | classDecl =>
    obtain ⟨_, rfl⟩ := Prod.mk.inj (Option.some.inj h)
    rfl
  | _ => cases h

theorem Stmt.declared?_resolve (env : Environment) (locals : List String) (s : Stmt) :
    (s.resolve env locals).declared? = s.declared? := by
  cases s with
  | classDecl span decl =>
    cases decl
    simp [Stmt.resolve, ClassDecl.resolve, declared?]
  | _ => simp [Stmt.resolve, declared?]

/-- The statement is the declaration of the entry, with its unique name. -/
def Stmt.IsDeclarationOf (entry : Entry) (s : Stmt) : Prop :=
  ∃ ident, s.declared? = some (entry.kind, ident) ∧ ident.name = entry.name ∧
    s.uniqueName? = some entry.uniqueName

theorem Stmt.IsDeclarationOf.resolve {entry : Entry} {s : Stmt} (h : s.IsDeclarationOf entry)
    (env : Environment) (locals : List String) :
    (s.resolve env locals).IsDeclarationOf entry := by
  obtain ⟨ident, hdeclared, hname, hunique⟩ := h
  refine ⟨ident, ?_, hname, ?_⟩
  · rw [declared?_resolve, hdeclared]
  · rw [uniqueName?_resolve, hunique]

theorem exists_declaration_of_lookup {files : List ParsedFile} {path name : String} {entry : Entry}
    (h : (collect .standard files).table.lookup path name = some entry) :
    ∃ p ∈ placedOf files, p.stmt.IsDeclarationOf entry := by
  obtain ⟨p, hp, hregistered⟩ := exists_registered_of_lookup h
  obtain ⟨hpath, kind, ident, hdeclared, hname, rfl⟩ :=
    Placed.registered?_eq_some_iff.mp hregistered
  refine ⟨p, hp, ident, hdeclared, hname, ?_⟩
  obtain ⟨file, _, i, s, _, rfl⟩ := mem_placedOf.mp hp
  rw [Stmt.declared?_withUniqueName] at hdeclared
  rw [Stmt.uniqueName?_withUniqueName hdeclared, ← hpath, ← hname]

/-! ### What is written for a name -/

/-- What has to be written for an unqualified name that is searched in the namespaces `spaces`
    unless it is a local. -/
inductive ReadsAs (linked : Linked) (spaces : List String) (isLocal : Prop) (name : String) :
    String → Prop where
  /-- Locals, `self` and `Self` keep their names. -/
  | kept (h : name = "self" ∨ name = "Self" ∨ isLocal) : ReadsAs linked spaces isLocal name name
  /-- The first namespace that has the name counts; the program holds its declaration. -/
  | found {before after : List String} {space : String} {entry : Entry}
      (hfree : ¬ (name = "self" ∨ name = "Self" ∨ isLocal))
      (hspaces : spaces = before ++ space :: after)
      (hbefore : ∀ other ∈ before, linked.table.lookup other name = none)
      (hentry : linked.table.lookup space name = some entry)
      (hdeclared : ∃ s ∈ linked.program.stmts, s.IsDeclarationOf entry) :
      ReadsAs linked spaces isLocal name entry.uniqueName
  /-- A name that no namespace has is kept. -/
  | unknown (hfree : ¬ (name = "self" ∨ name = "Self" ∨ isLocal))
      (hnone : ∀ space ∈ spaces, linked.table.lookup space name = none) :
      ReadsAs linked spaces isLocal name name

/-- Unqualified names are written as they have to be. -/
theorem LinkedFrom.readsAs {linked : Linked} {files : List ParsedFile} (h : LinkedFrom linked files)
    {file : ParsedFile} (hfile : file ∈ files) {p : Placed} (hp : p.file = file.name)
    (locals : List String) {name : String} (hname : Unqualified name) :
    ReadsAs linked (searchOrder files file p.path) (name ∈ locals) name
      (((collect .standard files).environment p).resolve locals name) := by
  unfold Environment.resolve Environment.resolve?
  by_cases hkept : name = "self" ∨ name = "Self" ∨ name ∈ locals
  · rw [if_pos hkept]
    exact .kept hkept
  · rw [if_neg hkept, entry?_environment h.nodup hfile hp hname, ← h.table]
    cases hfound : (searchOrder files file p.path).findSome?
        fun space => linked.table.lookup space name with
    | none => exact .unknown hkept (List.findSome?_eq_none_iff.mp hfound)
    | some entry =>
      obtain ⟨before, space, after, hspaces, hentry, hbefore⟩ :=
        List.findSome?_eq_some_iff.mp hfound
      refine .found hkept hspaces hbefore hentry ?_
      -- Resolving the names of the declaration does not change its own name.
      rw [h.table] at hentry
      obtain ⟨q, hq, hdeclaration⟩ := exists_declaration_of_lookup hentry
      refine ⟨(collect .standard files).resolve q, ?_, hdeclaration.resolve _ _⟩
      rw [h.stmts]
      exact List.mem_map_of_mem ((placeFiles_perm files).mem_iff.mpr hq)

/-! ### The names of a linked program -/

theorem Stmt.children_withUniqueName (path : String) (s : Stmt) :
    (s.withUniqueName path).children = s.children := by
  cases s <;> rfl

theorem Node.Named.withUniqueName {s : Stmt} (h : (Node.stmt s).Named) (path : String) :
    (Node.stmt (s.withUniqueName path)).Named := by
  refine ⟨?_, fun child hchild => ?_⟩
  · have hown : s.WellNamed := h.here
    cases s <;> exact ⟨hown.line, hown.declared, hown.params, hown.path⟩
  · rw [children, Stmt.children_withUniqueName] at hchild
    exact h.child hchild

/-- No part above the position is a chain of names that refers to a declaration as a whole. -/
def Stmt.SpeltAlone (table : NamespaceTable) (s : Stmt) (position : List Nat) : Prop :=
  ∀ above below o, position = above ++ below → below ≠ [] →
    (Occurrence.top s).part? above = some o → ¬ o.RefersAsWhole table

theorem Stmt.SpeltAlone.clear {env : Environment} {s : Stmt} (hnamed : (Node.stmt s).Named)
    {position : List Nat} (h : s.SpeltAlone env.table position) :
    Occurrence.Clear env (Occurrence.top s) position := by
  intro above below o hposition hbelow ho
  have hwithin : (Occurrence.top s).Within o := ⟨above, ho⟩
  have hlocals := Occurrence.isReference_of_mem_locals hnamed ho
  rw [Occurrence.collapsed?_eq_none_iff (Node.Every.of_within hnamed hwithin) hlocals]
  exact h above below o hposition hbelow ho

theorem Occurrence.RefersAsWhole.isChain {table : NamespaceTable} {o : Occurrence}
    (h : o.RefersAsWhole table) : o.node.IsChain := by
  obtain ⟨span, receiver, member, path, hnode, hpath, _⟩ := h
  rw [hnode]
  simp [Node.IsChain, Expr.staticPath?, hpath]

/-- Inside a chain of names that refers to a declaration as a whole there are only its fronts. -/
theorem Occurrence.RefersAsWhole.isChain_of_part? {table : NamespaceTable} {o part : Occurrence}
    (h : o.RefersAsWhole table) {position : List Nat} (hpart : o.part? position = some part) :
    part.node.IsChain :=
  ((Node.every_isChain h.isChain).of_within ⟨position, hpart⟩).here

theorem Node.IsChain.kind_eq_value {n : Node} (h : n.IsChain) {kind : ReferenceKind} {ident : Ident}
    (href : n.reference? = some (kind, ident)) : kind = .value := by
  cases n with
  | expr e =>
    cases e with
    | name => exact (Prod.mk.inj (Option.some.inj href)).1.symm
    | new => cases h
    | _ => cases href
  | _ => exact h.elim

/-- Only values stand inside chains of names: the classes of new instances and types do not. -/
theorem Stmt.speltAlone_of_ne_value {table : NamespaceTable} {s : Stmt} {position : List Nat}
    {part : Occurrence} (hpart : (Occurrence.top s).part? position = some part)
    {kind : ReferenceKind} {ident : Ident} (href : part.node.reference? = some (kind, ident))
    (hkind : kind ≠ .value) : s.SpeltAlone table position := by
  intro above below o hposition _ ho hwhole
  rw [hposition] at hpart
  obtain ⟨o', ho', hbelow⟩ := Occurrence.part?_append.mp hpart
  obtain rfl := Option.some.inj (ho.symm.trans ho')
  exact hkind ((hwhole.isChain_of_part? hbelow).kind_eq_value href)

/-- The collected statement `p` and the statement `resolved` of the linked program: each unqualified
    name of `p` is written in its place in `resolved` as it has to be for the file and the namespace
    of `p`. The first name of a chain counts only if no front of the chain refers to a
    declaration. -/
def ResolvesNames (linked : Linked) (files : List ParsedFile) (p : Placed) (resolved : Stmt) :
    Prop :=
  ∃ file ∈ files, ∃ i s, file.program.stmts[i]? = some s ∧
    p.path = activeNamespace (file.program.stmts.take (i + 1)) ∧
    p = ⟨s.withUniqueName p.path, file.name, p.path⟩ ∧
    ∀ position part kind ident, (Occurrence.top p.stmt).part? position = some part →
      part.node.reference? = some (kind, ident) → Unqualified ident.name →
      (kind = .value → p.stmt.SpeltAlone linked.table position) →
      ∃ part' written, (Occurrence.top resolved).part? position = some part' ∧
        part'.node.reference? = some (kind, ⟨written, ident.span⟩) ∧
        ReadsAs linked (searchOrder files file p.path) (p.stmt.BindsAt position ident.name)
          ident.name written

theorem LinkedFrom.resolvesNames {linked : Linked} {files : List ParsedFile}
    (h : LinkedFrom linked files) {p : Placed} (hp : p ∈ placedOf files) :
    ResolvesNames linked files p ((collect .standard files).resolve p) := by
  obtain ⟨file, hfile, i, s, hs, rfl⟩ := mem_placedOf.mp hp
  refine ⟨file, hfile, i, s, hs, rfl, rfl, ?_⟩
  intro position part kind ident hpart href hname hvalue
  generalize activeNamespace (file.program.stmts.take (i + 1)) = path at hpart hvalue ⊢
  have hclear : (s.withUniqueName path).SpeltAlone linked.table position := by
    by_cases hkind : kind = .value
    · exact hvalue hkind
    · exact Stmt.speltAlone_of_ne_value hpart href hkind
  have hnamed : (Node.stmt (s.withUniqueName path)).Named :=
    (h.named file hfile s (List.mem_of_getElem? hs)).withUniqueName path
  have htable : linked.table =
      ((collect .standard files).environment ⟨s.withUniqueName path, file.name, path⟩).table :=
    h.table
  rw [htable] at hclear
  refine ⟨part.resolve _, _, Occurrence.part?_resolve (hclear.clear hnamed) hpart,
    Node.reference?_resolve href, ?_⟩
  rw [← propext (Occurrence.mem_locals_top hpart)]
  exact h.readsAs hfile rfl part.locals hname

/-- Whatever sources are linked: the linked program holds the collected statements one by one, and
    each unqualified name in them is kept if it is `self`, `Self` or a local, and otherwise it becomes
    the unique name of the first declaration that is found in the active namespace, the own imports of
    the file, the global imports and outside every namespace, if there is one. -/
theorem link_resolves_names {rules : Rules} {sources : Sources} {linked : Linked}
    {findings : List Finding} (h : link rules sources = .ok (linked, findings)) :
    ∃ parsed failures, parseFiles sources = .ok (parsed, failures) ∧
      List.Forall₂ (ResolvesNames linked (inOrder linked.order parsed))
        (placeFiles (inOrder linked.order parsed)) linked.program.stmts := by
  obtain ⟨parsed, failures, hparse, hfrom⟩ := link_cases h
  refine ⟨parsed, failures, hparse, ?_⟩
  rw [hfrom.stmts, List.forall₂_map_right_iff, List.forall₂_same]
  intro p hp
  exact hfrom.resolvesNames ((placeFiles_perm _).mem_iff.mp hp)

/-- The names by which parts at a position of some statement of the program refer to something. -/
def Linked.namesAt (linked : Linked) (position : List Nat) : List String :=
  linked.program.stmts.filterMap fun s => ((Occurrence.top s).part? position).bind
    fun part => part.node.reference?.map fun found => found.2.name

/-- A file that imports the namespace of another one and uses its function. -/
def sampleSources : Sources :=
  (Sources.empty.insert "app.tn" "namespace! app; using lib; micro run(x) { help(x); }").insert
    "lib.tn" "namespace! lib; micro help(x) {}"

/-- In the sample the imported function is called by its unique name, with the parameter. -/
theorem link_sampleSources :
    ∃ linked findings, link .strict sampleSources = .ok (linked, findings) ∧
      linked.namesAt [0, 0, 0, 0] = ["lib_help"] ∧ linked.namesAt [0, 0, 0, 1] = ["x"] ∧
      ∃ parsed failures, parseFiles sampleSources = .ok (parsed, failures) ∧
        List.Forall₂ (ResolvesNames linked (inOrder linked.order parsed))
          (placeFiles (inOrder linked.order parsed)) linked.program.stmts := by
  have hnames : (link .strict sampleSources).toOption.map (fun result =>
      (result.1.namesAt [0, 0, 0, 0], result.1.namesAt [0, 0, 0, 1])) =
        some (["lib_help"], ["x"]) := by
    decide +kernel
  obtain ⟨linked, findings, hlink, hvalue⟩ := exists_link_of_map hnames
  obtain ⟨hcallee, hargument⟩ := Prod.mk.inj hvalue
  exact ⟨linked, findings, hlink, hcallee, hargument, link_resolves_names hlink⟩

end ScriptCompiler
