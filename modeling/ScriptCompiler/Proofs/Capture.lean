import ScriptCompiler.Proofs.References

/-!
# Captured references

A reference that is replaced by the unique name of a declaration is captured if a local of that name
holds at its place. Locals are looked up only for the name that was written, so this happens exactly
if the words of a local are those of the declaration: its namespace and its name, parted at the
underscores.
-/

namespace ScriptCompiler

/-! ### Locals around a position -/

/-- The part declares the local `name` for all that is inside it: as a parameter, or anywhere among
    the statements of a block. -/
inductive Node.Scopes : Node → String → Prop where
  | param {n : Node} {param : Param} (h : param ∈ n.params) : Scopes n param.name.name
  | declared {b : Block} {s : Stmt} {kind : EntryKind} {ident : Ident} (hs : s ∈ b.stmts)
      (hdeclared : s.declared? = some (kind, ident)) (hkind : kind ≠ .foreign) :
      Scopes (.block b) ident.name

/-- Some part above the position declares the local `name` for all that is inside it. -/
def Stmt.ScopesAt (s : Stmt) (position : List Nat) (name : String) : Prop :=
  ∃ above i below o, position = above ++ i :: below ∧ (Occurrence.top s).part? above = some o ∧
    o.node.Scopes name

theorem Node.params_resolve (env : Environment) (locals : List String) (n : Node) :
    (n.resolve env locals).params = n.params := by
  cases n with
  | expr e =>
    cases e with
    | staticMember span receiver ident =>
      simp only [resolve, Expr.resolve]
      cases env.resolveStatic? locals receiver ident <;> rfl
    | _ => simp [resolve, Expr.resolve, params]
  | stmt s => cases s <;> simp [resolve, Stmt.resolve, params, Stmt.params]
  | member m => cases m <;> simp [resolve, Member.resolve, params]
  | _ => rfl

theorem map_declared?_resolveStmts (env : Environment) (locals : List String) (stmts : List Stmt) :
    (resolveStmts env locals stmts).map Stmt.declared? = stmts.map Stmt.declared? := by
  induction stmts generalizing locals with
  | nil => rw [resolveStmts]
  | cons s rest ih => rw [resolveStmts, List.map_cons, List.map_cons, Stmt.declared?_resolve, ih]

theorem Node.scopes_iff {n : Node} {name : String} :
    n.Scopes name ↔ name ∈ paramNames n.params ∨ ∃ b kind ident, n = .block b ∧
      some (kind, ident) ∈ b.stmts.map Stmt.declared? ∧ kind ≠ .foreign ∧ ident.name = name := by
  constructor
  · intro h
    cases h with
    | param hparam => exact .inl (List.mem_map_of_mem hparam)
    | declared hs hdeclared hkind =>
      exact .inr ⟨_, _, _, rfl, List.mem_map.mpr ⟨_, hs, hdeclared⟩, hkind, rfl⟩
  · rintro (hparam | ⟨b, kind, ident, rfl, hin, hkind, rfl⟩)
    · obtain ⟨param, hin, rfl⟩ := List.mem_map.mp hparam
      exact .param hin
    · obtain ⟨s, hs, hdeclared⟩ := List.mem_map.mp hin
      exact .declared hs hdeclared hkind

/-- Resolving names does not change the locals that a part declares. -/
theorem Node.scopes_resolve {env : Environment} {locals : List String} {n : Node} {name : String} :
    (n.resolve env locals).Scopes name ↔ n.Scopes name := by
  rw [scopes_iff, scopes_iff, params_resolve]
  refine or_congr_right ?_
  cases n with
  | block b =>
    obtain ⟨stmts, span⟩ := b
    simp only [resolve, Block.resolve, block.injEq, exists_eq_left', exists_and_left,
      map_declared?_resolveStmts]
  | _ =>
    constructor <;>
    · rintro ⟨_, _, _, hblock, _⟩
      cases hblock

section References

variable {linked : Linked} {files : List ParsedFile} {p : Placed} {position : List Nat}
  {name space : String} {entry : Entry}

/-- Resolving the names of a statement does not change which locals are declared around its
    references. -/
theorem Stmt.scopesAt_resolve (h : LinkedFrom linked files) (hp : p ∈ placedOf files)
    (hrefers : RefersAt linked files p position name space entry) {other : String} :
    ((collect .standard files).resolve p).ScopesAt position other ↔
      p.stmt.ScopesAt position other := by
  obtain ⟨part, hpart, _⟩ := hrefers.spelt
  -- Every part above the reference stands where its resolved part stands.
  have habove : ∀ above i below, position = above ++ i :: below → ∃ o,
      (Occurrence.top p.stmt).part? above = some o ∧
      (Occurrence.top ((collect .standard files).resolve p)).part? above =
        some (o.resolve ((collect .standard files).environment p)) := by
    rintro above i below rfl
    obtain ⟨o, ho, _⟩ := Occurrence.part?_append.mp hpart
    refine ⟨o, ho, h.part?_resolve hp (fun front back o' hposition hback => ?_) ho⟩
    exact hrefers.alone front (back ++ i :: below) o'
      (by rw [hposition, List.append_assoc]) (List.append_ne_nil_of_left_ne_nil hback _)
  constructor
  · rintro ⟨above, i, below, o', hposition, ho', hscopes⟩
    obtain ⟨o, ho, hresolved⟩ := habove above i below hposition
    obtain rfl := Option.some.inj (ho'.symm.trans hresolved)
    exact ⟨above, i, below, o, hposition, ho, Node.scopes_resolve.mp hscopes⟩
  · rintro ⟨above, i, below, o, hposition, ho, hscopes⟩
    obtain ⟨o', ho', hresolved⟩ := habove above i below hposition
    obtain rfl := Option.some.inj (ho.symm.trans ho')
    exact ⟨above, i, below, _, hposition, hresolved, Node.scopes_resolve.mpr hscopes⟩

/-! ### Words of locals -/

theorem uniqueName_empty (name : String) : uniqueName "" name = name :=
  rfl

theorem LinkedFrom.name_of_lookup (h : LinkedFrom linked files)
    (hentry : linked.table.lookup space name = some entry) : entry.name = name := by
  rw [h.table] at hentry
  obtain ⟨p, _, hregistered⟩ := exists_registered_of_lookup hentry
  obtain ⟨_, _, _, _, _, rfl⟩ := Placed.registered?_eq_some_iff.mp hregistered
  rfl

/-- A local has the unique name of a declaration exactly if it has its words. -/
theorem RefersAt.uniqueName_eq_iff (h : LinkedFrom linked files)
    (hrefers : RefersAt linked files p position name space entry) (other : String) :
    entry.uniqueName = other ↔ nameWords "" other = nameWords space entry.name := by
  obtain ⟨_, _, _, hfinds⟩ := hrefers.found
  obtain ⟨last, hlast⟩ := hfinds.lookup
  obtain ⟨hspace, hunique⟩ := h.lookup_cases hlast
  have hempty : IsNamespace "" := ⟨[], rfl, fun _ hin => absurd hin List.not_mem_nil⟩
  rw [h.name_of_lookup hlast, hunique, ← ScriptCompiler.uniqueName_eq_iff hempty hspace,
    uniqueName_empty]
  exact eq_comm

/-- The unique name of a declaration in a namespace has an underscore. -/
theorem underscore_mem_uniqueName (hspace : IsNamespace space) (hne : space ≠ "") (name : String) :
    '_' ∈ (uniqueName space name).toList := by
  obtain ⟨segments, rfl, hsegments⟩ := hspace
  have hsegments' : segments.map String.toList ≠ [] := by
    intro hnil
    obtain rfl := List.map_eq_nil_iff.mp hnil
    exact hne rfl
  rw [toList_uniqueName hsegments, Text.intercalate_concat hsegments']
  simp

/-- A reference outside every namespace is unqualified, so no local at its place has its name. -/
theorem RefersAt.underscore_mem_of_bindsAt (h : LinkedFrom linked files)
    (hrefers : RefersAt linked files p position name space entry)
    (hbinds : p.stmt.BindsAt position entry.uniqueName) : '_' ∈ entry.uniqueName.toList := by
  obtain ⟨_, _, _, hfinds⟩ := hrefers.found
  obtain ⟨last, hlast⟩ := hfinds.lookup
  obtain ⟨hspace, hunique⟩ := h.lookup_cases hlast
  rw [hunique]
  refine underscore_mem_uniqueName hspace ?_ last
  rintro rfl
  cases hfinds with
  | searched _ _ _ hentry =>
    rw [(h.lookup_cases hentry).2, uniqueName_empty] at hbinds
    exact hrefers.free (.inr (.inr hbinds))
  | spelled hne => exact hne rfl

end References

/-! ### Captured references of linked programs -/

namespace Linked

/-- No reference that is replaced by a unique name sees a local of that name in the program. -/
def CaptureFree (linked : Linked) (files : List ParsedFile)
    (Sees : Stmt → List Nat → String → Prop) : Prop :=
  List.Forall₂ (fun p resolved => ∀ position name space entry,
    RefersAt linked files p position name space entry → ¬ Sees resolved position entry.uniqueName)
    (placeFiles files) linked.program.stmts

/-- No local that a reference sees has the words of the namespace and the name of what is referred
    to. -/
def WordsFree (linked : Linked) (files : List ParsedFile)
    (Sees : Stmt → List Nat → String → Prop) : Prop :=
  ∀ p ∈ placeFiles files, ∀ position name space entry,
    RefersAt linked files p position name space entry → ∀ other, Sees p.stmt position other →
      nameWords "" other ≠ nameWords space entry.name

end Linked

/-- Whatever locals count as seen: if resolving keeps them, captures are a matter of words. -/
theorem LinkedFrom.captureFree_iff {linked : Linked} {files : List ParsedFile}
    (h : LinkedFrom linked files) {Sees : Stmt → List Nat → String → Prop}
    (hsees : ∀ p ∈ placedOf files, ∀ position name space entry,
      RefersAt linked files p position name space entry → ∀ other,
      (Sees ((collect .standard files).resolve p) position other ↔ Sees p.stmt position other)) :
    linked.CaptureFree files Sees ↔ linked.WordsFree files Sees := by
  unfold Linked.CaptureFree Linked.WordsFree
  rw [h.stmts, List.forall₂_map_right_iff, List.forall₂_same]
  refine forall₂_congr fun p hp => ?_
  have hp' := (placeFiles_perm files).mem_iff.mp hp
  constructor
  · intro hfree position name space entry hrefers other hother hwords
    refine hfree position name space entry hrefers ?_
    rw [hsees p hp' position name space entry hrefers,
      (hrefers.uniqueName_eq_iff h other).mpr hwords]
    exact hother
  · intro hfree position name space entry hrefers hcaptured
    rw [hsees p hp' position name space entry hrefers] at hcaptured
    exact hfree position name space entry hrefers _ hcaptured
      ((hrefers.uniqueName_eq_iff h _).mp rfl)

/-- Whatever sources are linked: the references of the program are written as the unique names of
    what they refer to, and none of them is captured exactly if no local has the words of what is
    referred to. This is so for the locals that hold at a reference, and for all locals that are
    declared around it. Locals that hold at a reference and have no underscores never capture it. -/
theorem link_captureFree_iff {rules : Rules} {sources : Sources} {linked : Linked}
    {findings : List Finding} (h : link rules sources = .ok (linked, findings)) :
    ∃ parsed failures, parseFiles sources = .ok (parsed, failures) ∧
      let files := inOrder linked.order parsed
      List.Forall₂ (RewritesReferences linked files) (placeFiles files) linked.program.stmts ∧
      (linked.CaptureFree files Stmt.BindsAt ↔ linked.WordsFree files Stmt.BindsAt) ∧
      (linked.CaptureFree files Stmt.ScopesAt ↔ linked.WordsFree files Stmt.ScopesAt) ∧
      ((∀ p ∈ placeFiles files, ∀ position other, p.stmt.BindsAt position other →
        '_' ∉ other.toList) → linked.CaptureFree files Stmt.BindsAt) := by
  obtain ⟨parsed, failures, hparse, hfrom⟩ := link_cases h
  have hbinds : linked.CaptureFree (inOrder linked.order parsed) Stmt.BindsAt ↔
      linked.WordsFree (inOrder linked.order parsed) Stmt.BindsAt :=
    hfrom.captureFree_iff fun p hp _ _ _ _ hrefers _ => Stmt.bindsAt_resolve hfrom hp hrefers
  refine ⟨parsed, failures, hparse, ?_, hbinds, ?_, fun hplain => hbinds.mpr ?_⟩
  · rw [hfrom.stmts, List.forall₂_map_right_iff, List.forall₂_same]
    exact fun p hp => hfrom.rewritesReferences ((placeFiles_perm _).mem_iff.mp hp)
  · exact hfrom.captureFree_iff fun p hp _ _ _ _ hrefers _ => Stmt.scopesAt_resolve hfrom hp hrefers
  · intro p hp position name space entry hrefers other hother hwords
    obtain rfl := (hrefers.uniqueName_eq_iff hfrom other).mpr hwords
    exact hplain p hp position _ hother (hrefers.underscore_mem_of_bindsAt hfrom hother)

/-- A function with a parameter that has other words than the function that it calls. -/
def distinctWordsSources : Sources :=
  Sources.empty.insert "x.tn" "namespace! a; micro f() {} micro g(b_f) { f(); }"

/-- The reference in the sample is rewritten, and the parameter at its place is another name. -/
theorem link_distinctWordsSources :
    ∃ linked findings, link .strict distinctWordsSources = .ok (linked, findings) ∧
      linked.namesAt [0, 0, 0, 0] = ["a_f"] ∧
      ∃ parsed failures, parseFiles distinctWordsSources = .ok (parsed, failures) ∧
        let files := inOrder linked.order parsed
        List.Forall₂ (RewritesReferences linked files) (placeFiles files) linked.program.stmts ∧
        (linked.CaptureFree files Stmt.BindsAt ↔ linked.WordsFree files Stmt.BindsAt) := by
  have hnames : (link .strict distinctWordsSources).toOption.map (fun result =>
      result.1.namesAt [0, 0, 0, 0]) = some ["a_f"] := by
    decide +kernel
  obtain ⟨linked, findings, hlink, hcallee⟩ := exists_link_of_map hnames
  obtain ⟨parsed, failures, hparse, hrewrites, hfree, _⟩ := link_captureFree_iff hlink
  exact ⟨linked, findings, hlink, hcallee, parsed, failures, hparse, hrewrites, hfree⟩

/-- A function `g` with a parameter `a_f` that calls the function `f` of the namespace `a`. -/
def capturingSources : Sources :=
  Sources.empty.insert "x.tn" "namespace! a; micro f() {} micro g(a_f) { f(); }"

/-- A reference that was replaced is captured if its new name is a local at its place. -/
theorem LinkedFrom.not_captureFree {linked : Linked} {files : List ParsedFile}
    (h : LinkedFrom linked files) {k : Nat} {position : List Nat} {name unique : String}
    {locals locals' : List String}
    (hplaced : ((placeFiles files)[k]?).bind (fun p => p.stmt.referenceAt position) =
      some (name, locals))
    (hwritten : (linked.program.stmts[k]?).bind (fun s => s.referenceAt position) =
      some (unique, locals')) (hne : unique ≠ name) (hlocal : unique ∈ locals') :
    ¬ linked.CaptureFree files Stmt.BindsAt := by
  intro hfree
  obtain ⟨p, hp, hreference⟩ := Option.bind_eq_some_iff.mp hplaced
  obtain ⟨resolved, hresolved, hunique⟩ := Option.bind_eq_some_iff.mp hwritten
  rw [Linked.CaptureFree, h.stmts, List.forall₂_map_right_iff, List.forall₂_same] at hfree
  rw [h.stmts, List.getElem?_map, hp] at hresolved
  obtain rfl := Option.some.inj hresolved
  obtain ⟨halone, part, kind, ident, hpart, href, rfl, _⟩ := Stmt.referenceAt_eq_some hreference
  obtain ⟨_, part', kind', ident', hpart', href', rfl, rfl⟩ := Stmt.referenceAt_eq_some hunique
  have hin := List.mem_of_getElem? hp
  obtain ⟨other, hother, hcases⟩ := h.rewritesReferences ((placeFiles_perm files).mem_iff.mp hin)
    position part ident.name hpart (Node.spelling?_of_reference href) (halone _)
  obtain rfl := Option.some.inj (hpart'.symm.trans hother)
  rw [href, href'] at hcases
  rcases hcases with ⟨space, entry, hrefers, hentry⟩ | ⟨_, hkept⟩
  · refine hfree p hin position _ space entry hrefers ?_
    rw [← Option.some.inj hentry]
    exact (Occurrence.mem_locals_top hpart').mp hlocal
  · exact hne (Option.some.inj hkept)

/-- Nothing is found wrong with these functions, but the call is captured by the parameter. -/
theorem link_capturingSources :
    ∃ linked parsed failures, link .strict capturingSources = .ok (linked, []) ∧
      parseFiles capturingSources = .ok (parsed, failures) ∧
      ¬ linked.CaptureFree (inOrder linked.order parsed) Stmt.BindsAt := by
  obtain ⟨linked, findings, parsed, failures, hlink, hparse, hfrom, hvalue⟩ :=
    exists_linked_of_map capturingSources (fun linked files findings => (findings.isEmpty,
      ((placeFiles files)[2]?).bind fun p => p.stmt.referenceAt [0, 0, 0, 0],
      (linked.program.stmts[2]?).bind fun s => s.referenceAt [0, 0, 0, 0]))
      (true, some ("f", ["a_f"]), some ("a_f", ["a_f"])) (by decide +kernel)
  obtain ⟨hempty, hvalue⟩ := Prod.mk.inj hvalue
  obtain ⟨hplaced, hwritten⟩ := Prod.mk.inj hvalue
  obtain rfl : findings = [] := List.isEmpty_iff.mp hempty
  exact ⟨linked, parsed, failures, hlink, hparse,
    hfrom.not_captureFree hplaced hwritten (by decide) List.mem_cons_self⟩

end ScriptCompiler
