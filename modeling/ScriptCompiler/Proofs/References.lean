import ScriptCompiler.Proofs.Resolution
import ScriptCompiler.Proofs.UniqueNames

/-!
# What the references of a linked program refer to

A part that spells a name refers to the declaration that is found for the name: an unqualified name
is searched in the namespaces of its statement, a qualified one in the namespace that it spells. The
linked program writes the unique name of that declaration in its place and leaves all other
references as they are.
-/

namespace ScriptCompiler

/-! ### Spelled names -/

/-- The name that a part spells as a whole: that of its reference, or that of a chain of names. -/
def Node.spelling? : Node → Option String
  | .expr (.staticMember span receiver ident) =>
    (Expr.staticMember span receiver ident).staticPath?
  | n => n.reference?.map fun found => found.2.name

/-- A name that can be looked up: it is unqualified, or its last `::` parts a path from a word. -/
inductive Searchable (name : String) : Prop where
  | plain (h : Unqualified name)
  | path {space last : String} (hspace : space ≠ "") (hlast : IsWord last)
      (h : name = space ++ "::" ++ last)

theorem IsReference.searchable {name : String} (h : IsReference name) : Searchable name := by
  refine .plain fun hpair => h.notMem_colon ?_
  exact hpair.subset List.mem_cons_self

theorem joinPath_singleton (ident : Ident) : joinPath [ident] = ident.name := by
  refine String.toList_inj.mp ?_
  simp [joinPath, Text.toList_joinWith]

theorem joinPath_concat {path : List Ident} (h : path ≠ []) (last : Ident) :
    joinPath (path ++ [last]) = joinPath path ++ "::" ++ last.name := by
  refine String.toList_inj.mp ?_
  have hne : (path.map Ident.name).map String.toList ≠ [] := by simpa using h
  simp only [joinPath, String.toList_append, Text.toList_joinWith, List.map_append, List.map_cons,
    List.map_nil]
  rw [Text.intercalate_concat hne]

theorem joinPath_ne_empty {path : List Ident} (h : IsPath path) : joinPath path ≠ "" := by
  obtain ⟨first, rest, rfl⟩ := List.exists_cons_of_ne_nil h.nonempty
  intro hempty
  have hchars := congrArg String.toList hempty
  rw [joinPath, Text.toList_joinWith, List.map_cons, List.map_cons, Text.intercalate_cons] at hchars
  have hfirst := (h.segments first List.mem_cons_self).nonempty
  simp [hfirst] at hchars

/-- A path has one segment only, or the last `::` parts its front from a word. -/
theorem IsPathName.cases {name : String} (h : IsPathName name) :
    IsIdentifier name ∨
      ∃ space last, space ≠ "" ∧ IsWord last ∧ name = space ++ "::" ++ last := by
  obtain ⟨path, hpath, rfl⟩ := h
  obtain ⟨front, last, rfl⟩ := List.eq_nil_or_concat path |>.resolve_left hpath.nonempty
  have hlast : IsIdentifier last.name := hpath.segments last (by simp)
  rw [List.concat_eq_append] at hpath ⊢
  by_cases hfront : front = []
  · subst hfront
    rw [List.nil_append, joinPath_singleton]
    exact .inl hlast
  · have hpath' : IsPath front :=
      ⟨hfront, fun segment hin => hpath.segments segment (by simp [hin])⟩
    exact .inr ⟨_, _, joinPath_ne_empty hpath', hlast.word, joinPath_concat hfront last⟩

theorem IsPathName.ne_text {name : String} (h : IsPathName name) (k : Keyword) :
    name ≠ k.text := by
  rcases h.cases with hident | ⟨space, last, _, _, rfl⟩
  · exact hident.ne_text k
  · intro hname
    have hcolon : ':' ∈ k.text.toList := by simp [← hname]
    revert hcolon
    cases k <;> decide

theorem IsPathName.searchable {name : String} (h : IsPathName name) : Searchable name := by
  rcases h.cases with hident | ⟨space, last, hspace, hlast, rfl⟩
  · exact .plain hident.unqualified
  · exact .path hspace hlast rfl

theorem Expr.staticPath?_ne_empty {e : Expr} (h : (Node.expr e).Named) {path : String}
    (hpath : e.staticPath? = some path) : path ≠ "" := by
  cases e with
  | name span ident =>
    have hident : IsReference ident.name := h.here
    obtain ⟨hfree, hname⟩ := Option.ite_none_left_eq_some.mp hpath
    obtain rfl := Option.some.inj hname
    rcases hident with hident | hself | hself
    · exact hident.nonempty
    · exact absurd (.inl hself) hfree
    · exact absurd (.inr hself) hfree
  | staticMember span receiver member =>
    obtain ⟨front, _, rfl⟩ := Option.map_eq_some_iff.mp hpath
    intro hempty
    have hchars := congrArg String.toList hempty
    simp [String.toList_append] at hchars
  | _ => cases hpath

/-- Parsed programs spell only names that can be looked up. -/
theorem Node.Named.searchable {n : Node} (h : n.Named) {name : String}
    (hname : n.spelling? = some name) : Searchable name := by
  cases n with
  | expr e =>
    cases e with
    | name span ident =>
      obtain rfl := Option.some.inj hname
      exact IsReference.searchable h.here
    | new span ident args =>
      obtain rfl := Option.some.inj hname
      rcases h.here with hpath | hself
      · exact hpath.searchable
      · exact IsReference.searchable (.inr (.inr hself))
    | staticMember span receiver member =>
      obtain ⟨front, hfront, rfl⟩ := Option.map_eq_some_iff.mp hname
      have hreceiver : (Node.expr receiver).Named := h.child List.mem_cons_self
      have hmember : IsMemberName member.name := h.here
      exact .path (Expr.staticPath?_ne_empty hreceiver hfront) hmember.word rfl
    | _ => cases hname
  | type t =>
    cases t with
    | named span ident args =>
      obtain rfl := Option.some.inj hname
      rcases h.here with hpath | ⟨hself, _⟩
      · exact hpath.searchable
      · exact IsReference.searchable (.inr (.inr hself))
    | _ => cases hname
  | _ => cases hname

/-! ### The declaration of a name -/

/-- The declaration `entry` of the namespace `space` is found for the name: in the first of the
    namespaces `spaces` that has an unqualified name, or in the namespace that the name spells. -/
inductive Finds (table : NamespaceTable) (spaces : List String) (name : String) :
    String → Entry → Prop where
  | searched {before after : List String} {space : String} {entry : Entry}
      (hname : Unqualified name) (hspaces : spaces = before ++ space :: after)
      (hbefore : ∀ other ∈ before, table.lookup other name = none)
      (hentry : table.lookup space name = some entry) : Finds table spaces name space entry
  | spelled {space last : String} {entry : Entry} (hspace : space ≠ "") (hlast : IsWord last)
      (hname : name = space ++ "::" ++ last) (hentry : table.lookup space last = some entry) :
      Finds table spaces name space entry

theorem Finds.lookup {table : NamespaceTable} {spaces : List String} {name space : String}
    {entry : Entry} (h : Finds table spaces name space entry) :
    ∃ last, table.lookup space last = some entry := by
  cases h with
  | searched _ _ _ hentry => exact ⟨_, hentry⟩
  | spelled _ _ _ hentry => exact ⟨_, hentry⟩

section Found

variable {linked : Linked} {files : List ParsedFile} {file : ParsedFile} {p : Placed}

/-- The declaration that a name refers to is the one that is found for it. -/
theorem LinkedFrom.entry?_eq_some_iff (h : LinkedFrom linked files) (hfile : file ∈ files)
    (hp : p.file = file.name) {name : String} (hname : Searchable name) {entry : Entry} :
    Environment.entry? ((collect .standard files).environment p) name = some entry ↔
      ∃ space, Finds linked.table (searchOrder files file p.path) name space entry := by
  have htable : ((collect .standard files).environment p).table = linked.table := h.table.symm
  constructor
  · intro hentry
    cases hname with
    | plain hplain =>
      rw [entry?_environment h.nodup hfile hp hplain, ← h.table] at hentry
      obtain ⟨before, space, after, hspaces, hlookup, hbefore⟩ :=
        List.findSome?_eq_some_iff.mp hentry
      exact ⟨space, .searched hplain hspaces hbefore hlookup⟩
    | path hspace hlast heq =>
      subst heq
      rw [Environment.entry?, splitQualified_append hlast, htable] at hentry
      exact ⟨_, .spelled hspace hlast rfl hentry⟩
  · rintro ⟨space, hfinds⟩
    cases hfinds with
    | searched hplain hspaces hbefore hlookup =>
      rw [entry?_environment h.nodup hfile hp hplain, ← h.table]
      exact List.findSome?_eq_some_iff.mpr ⟨_, space, _, hspaces, hlookup, hbefore⟩
    | spelled _ hlast heq hlookup =>
      subst heq
      rw [Environment.entry?, splitQualified_append hlast, htable]
      exact hlookup

/-- The unique name of a reference is that of the declaration that is found for it, unless it is a
    local. -/
theorem LinkedFrom.resolve?_eq_some_iff (h : LinkedFrom linked files) (hfile : file ∈ files)
    (hp : p.file = file.name) (locals : List String) {name : String} (hname : Searchable name)
    {unique : String} :
    ((collect .standard files).environment p).resolve? locals name = some unique ↔
      ¬ (name = "self" ∨ name = "Self" ∨ name ∈ locals) ∧ ∃ space entry,
        Finds linked.table (searchOrder files file p.path) name space entry ∧
        entry.uniqueName = unique := by
  unfold Environment.resolve?
  rw [Option.ite_none_left_eq_some, Option.map_eq_some_iff]
  refine and_congr_right fun _ => ⟨?_, ?_⟩
  · rintro ⟨entry, hentry, hunique⟩
    obtain ⟨space, hfinds⟩ := (h.entry?_eq_some_iff hfile hp hname).mp hentry
    exact ⟨space, entry, hfinds, hunique⟩
  · rintro ⟨space, entry, hfinds, hunique⟩
    exact ⟨entry, (h.entry?_eq_some_iff hfile hp hname).mpr ⟨space, hfinds⟩, hunique⟩

end Found

/-! ### What is written for a reference -/

/-- What is written for a part that spells a name: the unique name of the declaration that it refers
    to, if there is one, and otherwise the name of its own reference, if it has one. -/
theorem Node.reference?_resolve_of_spelling {env : Environment} {locals : List String} {n : Node}
    {name : String} (h : n.spelling? = some name) :
    (n.resolve env locals).reference?.map (fun found => found.2.name) =
      (env.resolve? locals name).or (n.reference?.map fun found => found.2.name) := by
  cases n with
  | expr e =>
    cases e with
    | staticMember span receiver member =>
      obtain ⟨front, hfront, rfl⟩ := Option.map_eq_some_iff.mp h
      have hstatic : env.resolveStatic? locals receiver member =
          env.resolve? locals (front ++ "::" ++ member.name) := by
        rw [Environment.resolveStatic?, hfront]
        rfl
      rw [resolve, Expr.resolve, hstatic]
      cases env.resolve? locals (front ++ "::" ++ member.name) <;> rfl
    | name span ident =>
      obtain rfl := Option.some.inj h
      simp only [resolve, Expr.resolve, reference?, Environment.resolveIdent, Environment.resolve,
        Option.map_some]
      cases env.resolve? locals ident.name <;> rfl
    | new span ident args =>
      obtain rfl := Option.some.inj h
      simp only [resolve, Expr.resolve, reference?, Environment.resolveIdent, Environment.resolve,
        Option.map_some]
      cases env.resolve? locals ident.name <;> rfl
    | _ => cases h
  | type t =>
    cases t with
    | named span ident args =>
      obtain rfl := Option.some.inj h
      simp only [resolve, TypeExpr.resolve, reference?, Environment.resolveIdent,
        Environment.resolve, Option.map_some]
      cases env.resolve? locals ident.name <;> rfl
    | _ => cases h
  | _ => cases h

/-- The part at a position of the collected statement `p` refers by `name` to the declaration
    `entry` of the namespace `space`. -/
structure RefersAt (linked : Linked) (files : List ParsedFile) (p : Placed) (position : List Nat)
    (name space : String) (entry : Entry) : Prop where
  spelt : ∃ part, (Occurrence.top p.stmt).part? position = some part ∧
    part.node.spelling? = some name
  alone : p.stmt.SpeltAlone linked.table position
  free : ¬ (name = "self" ∨ name = "Self" ∨ p.stmt.BindsAt position name)
  found : ∃ file ∈ files, p.file = file.name ∧
    Finds linked.table (searchOrder files file p.path) name space entry

/-- The collected statement `p` and the statement `resolved` of the linked program: where a part of
    `p` refers to a declaration, `resolved` has the unique name of the declaration, and every other
    reference is kept. -/
def RewritesReferences (linked : Linked) (files : List ParsedFile) (p : Placed) (resolved : Stmt) :
    Prop :=
  ∀ position part name, (Occurrence.top p.stmt).part? position = some part →
    part.node.spelling? = some name → p.stmt.SpeltAlone linked.table position →
    ∃ part', (Occurrence.top resolved).part? position = some part' ∧
      ((∃ space entry, RefersAt linked files p position name space entry ∧
          part'.node.reference?.map (fun found => found.2.name) = some entry.uniqueName) ∨
        (∀ space entry, ¬ RefersAt linked files p position name space entry) ∧
          part'.node.reference?.map (fun found => found.2.name) =
            part.node.reference?.map fun found => found.2.name)

theorem exists_file_of_mem_placedOf {files : List ParsedFile} {p : Placed} (hp : p ∈ placedOf files) :
    ∃ file ∈ files, p.file = file.name := by
  obtain ⟨file, hfile, _, _, _, rfl⟩ := mem_placedOf.mp hp
  exact ⟨file, hfile, rfl⟩

namespace LinkedFrom

variable {linked : Linked} {files : List ParsedFile} {p : Placed} {position : List Nat}

/-- Collected statements are well named. -/
theorem named_placed (h : LinkedFrom linked files) (hp : p ∈ placedOf files) :
    (Node.stmt p.stmt).Named := by
  obtain ⟨file, hfile, i, s, hs, rfl⟩ := mem_placedOf.mp hp
  exact (h.named file hfile s (List.mem_of_getElem? hs)).withUniqueName _

theorem clear (h : LinkedFrom linked files) (hp : p ∈ placedOf files)
    (halone : p.stmt.SpeltAlone linked.table position) :
    Occurrence.Clear ((collect .standard files).environment p) (Occurrence.top p.stmt)
      position := by
  rw [h.table] at halone
  exact Stmt.SpeltAlone.clear (h.named_placed hp) halone

/-- At the place of a reference stands what it was resolved to. -/
theorem part?_resolve (h : LinkedFrom linked files) (hp : p ∈ placedOf files)
    (halone : p.stmt.SpeltAlone linked.table position) {part : Occurrence}
    (hpart : (Occurrence.top p.stmt).part? position = some part) :
    (Occurrence.top ((collect .standard files).resolve p)).part? position =
      some (part.resolve ((collect .standard files).environment p)) :=
  Occurrence.part?_resolve (h.clear hp halone) hpart

/-- Where a reference refers to nothing that was found, nothing is resolved. -/
theorem resolve?_eq_some_iff_refersAt (h : LinkedFrom linked files) (hp : p ∈ placedOf files)
    {part : Occurrence} (hpart : (Occurrence.top p.stmt).part? position = some part) {name : String}
    (hname : part.node.spelling? = some name) (halone : p.stmt.SpeltAlone linked.table position)
    {unique : String} :
    ((collect .standard files).environment p).resolve? part.locals name = some unique ↔
      ∃ space entry, RefersAt linked files p position name space entry ∧
        entry.uniqueName = unique := by
  obtain ⟨file, hfile, hpfile⟩ := exists_file_of_mem_placedOf hp
  have hwithin : (Occurrence.top p.stmt).Within part := ⟨position, hpart⟩
  have hnamed : part.node.Named := Node.Every.of_within (h.named_placed hp) hwithin
  rw [h.resolve?_eq_some_iff hfile hpfile part.locals (hnamed.searchable hname),
    propext (Occurrence.mem_locals_top hpart)]
  constructor
  · rintro ⟨hfree, space, entry, hfinds, hunique⟩
    exact ⟨space, entry, ⟨⟨part, hpart, hname⟩, halone, hfree, file, hfile, hpfile, hfinds⟩,
      hunique⟩
  · rintro ⟨space, entry, hrefers, hunique⟩
    obtain ⟨other, hother, hfile', hfinds⟩ := hrefers.found
    -- No two files share their name.
    obtain rfl := List.inj_on_of_nodup_map h.nodup hother hfile (hfile'.symm.trans hpfile)
    exact ⟨hrefers.free, space, entry, hfinds, hunique⟩

/-- References are written as the unique names of what they refer to, and nothing else changes
    them. -/
theorem rewritesReferences (h : LinkedFrom linked files) (hp : p ∈ placedOf files) :
    RewritesReferences linked files p ((collect .standard files).resolve p) := by
  intro position part name hpart hname halone
  refine ⟨_, h.part?_resolve hp halone hpart, ?_⟩
  rw [Occurrence.resolve, Node.reference?_resolve_of_spelling hname]
  cases hresolve : ((collect .standard files).environment p).resolve? part.locals name with
  | some unique =>
    obtain ⟨space, entry, hrefers, rfl⟩ :=
      (h.resolve?_eq_some_iff_refersAt hp hpart hname halone).mp hresolve
    exact .inl ⟨space, entry, hrefers, rfl⟩
  | none =>
    refine .inr ⟨fun space entry hrefers => ?_, rfl⟩
    have hsome := (h.resolve?_eq_some_iff_refersAt hp hpart hname halone).mpr
      ⟨space, entry, hrefers, rfl⟩
    rw [hsome] at hresolve
    cases hresolve

end LinkedFrom

/-- Resolving the names of a statement does not change which locals hold at its references. -/
theorem Stmt.bindsAt_resolve {linked : Linked} {files : List ParsedFile}
    (h : LinkedFrom linked files) {p : Placed} (hp : p ∈ placedOf files) {position : List Nat}
    {name space : String} {entry : Entry}
    (hrefers : RefersAt linked files p position name space entry) {other : String} :
    ((collect .standard files).resolve p).BindsAt position other ↔
      p.stmt.BindsAt position other := by
  obtain ⟨part, hpart, _⟩ := hrefers.spelt
  rw [← Occurrence.mem_locals_top hpart,
    ← Occurrence.mem_locals_top (h.part?_resolve hp hrefers.alone hpart)]
  rfl

/-! ### References of linked sources -/

theorem Node.spelling?_of_reference {n : Node} {kind : ReferenceKind} {ident : Ident}
    (h : n.reference? = some (kind, ident)) : n.spelling? = some ident.name := by
  cases n with
  | expr e =>
    cases e with
    | staticMember => cases h
    | _ => exact congrArg (Option.map fun found => found.2.name) h
  | _ => exact congrArg (Option.map fun found => found.2.name) h

/-- The name by which a part at the position refers to something, and its locals. Parts inside
    chains of names do not count. -/
def Stmt.referenceAt (s : Stmt) (position : List Nat) : Option (String × List String) :=
  if (List.range position.length).all fun n =>
      ((Occurrence.top s).part? (position.take n)).all fun o =>
        !(o.node matches .expr (.staticMember ..))
  then
    ((Occurrence.top s).part? position).bind fun part =>
      part.node.reference?.map fun found => (found.2.name, part.locals)
  else none

theorem Stmt.referenceAt_eq_some {s : Stmt} {position : List Nat} {name : String}
    {locals : List String} (h : s.referenceAt position = some (name, locals)) :
    (∀ table, s.SpeltAlone table position) ∧ ∃ part kind ident,
      (Occurrence.top s).part? position = some part ∧ part.node.reference? = some (kind, ident) ∧
      ident.name = name ∧ part.locals = locals := by
  obtain ⟨halone, hsome⟩ := Option.ite_none_right_eq_some.mp h
  obtain ⟨part, hpart, hname⟩ := Option.bind_eq_some_iff.mp hsome
  obtain ⟨⟨kind, ident⟩, href, heq⟩ := Option.map_eq_some_iff.mp hname
  obtain ⟨hident, hlocals⟩ := Prod.mk.inj heq
  refine ⟨fun table => ?_, part, kind, ident, hpart, href, hident, hlocals⟩
  rintro above below o rfl hbelow ho ⟨span, receiver, member, path, hnode, _⟩
  have hlength : above.length < (above ++ below).length := by
    have := List.length_pos_iff.mpr hbelow
    rw [List.length_append]
    omega
  have hfront := List.all_eq_true.mp halone above.length (List.mem_range.mpr hlength)
  rw [List.take_left, ho] at hfront
  simp [hnode] at hfront

/-- What is computed from the files of some sources holds of their linked program. -/
theorem exists_linked_of_map {α : Type} (sources : Sources)
    (view : Linked → List ParsedFile → List Finding → α) (value : α)
    (h : (parseFiles sources).toOption.map (fun read =>
      let result := linkParsed .strict sources.names read.1
      view result.1 (inOrder result.1.order read.1) (read.2 ++ result.2)) = some value) :
    ∃ linked findings parsed failures, link .strict sources = .ok (linked, findings) ∧
      parseFiles sources = .ok (parsed, failures) ∧
      LinkedFrom linked (inOrder linked.order parsed) ∧
      view linked (inOrder linked.order parsed) findings = value := by
  cases hparse : parseFiles sources with
  | error e =>
    rw [hparse] at h
    cases h
  | ok read =>
    rw [hparse] at h
    have hlink : link .strict sources =
        .ok ((linkParsed .strict sources.names read.1).1,
          read.2 ++ (linkParsed .strict sources.names read.1).2) := by
      rw [link, hparse]
    obtain ⟨parsed, failures, hparse', hfrom⟩ := link_cases hlink
    obtain rfl : read = (parsed, failures) := Except.ok.inj (hparse.symm.trans hparse')
    exact ⟨_, _, parsed, failures, hlink, rfl, hfrom, Option.some.inj h⟩

end ScriptCompiler
