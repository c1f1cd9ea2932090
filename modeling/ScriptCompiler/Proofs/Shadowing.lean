import Mathlib.Data.List.TakeWhile
import ScriptCompiler.Proofs.References

/-!
# Which references a local keeps

A reference is a name, a chain of names, the class of a new instance or a named type. Whether the
linked program keeps it is a matter of the names that it spells: its own name and, in a chain, the
names of its fronts. Each of them is asked for among the locals as it is spelled, so a local keeps
the references that are its name alone. A longer path that starts with the local is still looked up
in the namespace that it spells. The foreign functions of a block are locals of the script, but
nothing is asked for among them.
-/

namespace ScriptCompiler

/-! ### References as they are written -/

def Expr.chainStart? : Expr → Option String
  | .name _ ident => some ident.name
  | .staticMember _ receiver _ => receiver.chainStart?
  | _ => none

/-- The names that a chain of names and its fronts spell. -/
def Expr.chainNames : Expr → List String
  | .name _ ident => [ident.name]
  | .staticMember span receiver member =>
    (Expr.staticMember span receiver member).staticPath?.toList ++ receiver.chainNames
  | _ => []

/-- The first segment of a name that may be qualified. -/
def firstSegment (name : String) : String :=
  String.ofList (name.toList.takeWhile (· ≠ ':'))

/-- A reference as it is written: a name or chain of names, the class of a new instance, or a named
    type. -/
inductive Mention where
  | value (e : Expr)
  | instantiated (ident : Ident)
  | type (ident : Ident)

namespace Mention

def start? : Mention → Option String
  | .value e => e.chainStart?
  | .instantiated ident | .type ident => some (firstSegment ident.name)

/-- The names that are looked up for a reference. -/
def names : Mention → List String
  | .value e => e.chainNames
  | .instantiated ident | .type ident => [ident.name]

end Mention

def Node.mention? : Node → Option Mention
  | .expr (.name span ident) => some (.value (.name span ident))
  | .expr (.staticMember span receiver ident) =>
    receiver.chainStart?.map fun _ => .value (.staticMember span receiver ident)
  | .expr (.new _ ident _) => some (.instantiated ident)
  | .type (.named _ ident _) => some (.type ident)
  | _ => none

namespace Stmt

/-- The reference stands at the position of the statement. -/
def Mentions (s : Stmt) (position : List Nat) (m : Mention) : Prop :=
  ∃ part, (Occurrence.top s).part? position = some part ∧ part.node.mention? = some m

/-- What stands at the position is not the front of a longer chain of names. -/
def WholeAt (s : Stmt) (position : List Nat) : Prop :=
  ∀ above i e, position = above ++ [i] → ¬ s.Mentions above (.value e)

end Stmt

/-- A part has the local `name` for the part at index `i` right inside it. Foreign functions that a
    block declares are locals of the script, too. -/
inductive Node.Holds : Node → Nat → String → Prop where
  | brought {n : Node} {i : Nat} {name : String} (h : n.Brings i name) : Holds n i name
  | foreign {b : Block} {i j : Nat} {s : Stmt} {ident : Ident} (hj : j < i)
      (hs : b.stmts[j]? = some s) (hdeclared : s.declared? = some (.foreign, ident)) :
      Holds (.block b) i ident.name

/-- At a position of a statement some part above has the local `name`. -/
def Stmt.LocalAt (s : Stmt) (position : List Nat) (name : String) : Prop :=
  ∃ above i below o, position = above ++ i :: below ∧ (Occurrence.top s).part? above = some o ∧
    o.node.Holds i name

/-- The reference `m` stands at the position and starts with the local `name`. -/
structure Stmt.MentionsLocal (s : Stmt) (position : List Nat) (m : Mention) (name : String) :
    Prop where
  mentions : s.Mentions position m
  whole : s.WholeAt position
  starts : m.start? = some name
  held : s.LocalAt position name

theorem Stmt.BindsAt.localAt {s : Stmt} {position : List Nat} {name : String}
    (h : s.BindsAt position name) : s.LocalAt position name := by
  obtain ⟨above, i, below, o, hposition, ho, hbrings⟩ := h
  exact ⟨above, i, below, o, hposition, ho, .brought hbrings⟩

/-! ### The names of references -/

theorem firstSegment_of_notMem {name : String} (h : ':' ∉ name.toList) :
    firstSegment name = name := by
  have hall : name.toList.takeWhile (· ≠ ':') = name.toList := by
    rw [List.takeWhile_eq_self_iff]
    intro c hc
    exact decide_eq_true fun heq => h (heq ▸ hc)
  rw [firstSegment, hall, String.ofList_toList]

/-- The expression is a chain of names with the first name `start`. -/
inductive Expr.ChainFrom (start : String) : Expr → Prop where
  | name {span : Span} {ident : Ident} (h : ident.name = start) : ChainFrom start (.name span ident)
  | member {span : Span} {receiver : Expr} {member : Ident} (h : ChainFrom start receiver) :
      ChainFrom start (.staticMember span receiver member)

theorem Expr.chainStart?_eq_some_iff {e : Expr} {start : String} :
    e.chainStart? = some start ↔ e.ChainFrom start := by
  constructor
  · intro h
    fun_induction chainStart? e with
    | case1 => exact .name (Option.some.inj h)
    | case2 _ _ _ ih => exact .member (ih h)
    | case3 => cases h
  · intro h
    induction h with
    | name h => exact congrArg some h
    | member _ ih => exact ih

theorem Expr.exists_chainFrom {e : Expr} {path : String} (h : e.staticPath? = some path) :
    ∃ start, e.ChainFrom start := by
  fun_induction staticPath? e generalizing path with
  | case1 => cases h
  | case2 => exact ⟨_, .name rfl⟩
  | case3 _ _ _ ih =>
    obtain ⟨front, hfront, _⟩ := Option.map_eq_some_iff.mp h
    obtain ⟨start, hstart⟩ := ih hfront
    exact ⟨start, .member hstart⟩
  | case4 => cases h

theorem Expr.ChainFrom.mention?_eq {e : Expr} {start : String} (h : e.ChainFrom start) :
    (Node.expr e).mention? = some (.value e) := by
  cases h with
  | name => rfl
  | member h => rw [Node.mention?, chainStart?_eq_some_iff.mpr h, Option.map_some]

/-- The three kinds of parts that are references. -/
theorem Node.mention?_cases {n : Node} {m : Mention} (h : n.mention? = some m) :
    (∃ e start, n = .expr e ∧ m = .value e ∧ e.ChainFrom start) ∨
      (∃ span ident args, n = .expr (.new span ident args) ∧ m = .instantiated ident) ∨
      ∃ span ident args, n = .type (.named span ident args) ∧ m = .type ident := by
  unfold mention? at h
  split at h
  · obtain rfl := Option.some.inj h
    exact .inl ⟨_, _, rfl, rfl, .name rfl⟩
  · obtain ⟨start, hstart, rfl⟩ := Option.map_eq_some_iff.mp h
    exact .inl ⟨_, start, rfl, rfl, .member (Expr.chainStart?_eq_some_iff.mp hstart)⟩
  · obtain rfl := Option.some.inj h
    exact .inr (.inl ⟨_, _, _, rfl, rfl⟩)
  · obtain rfl := Option.some.inj h
    exact .inr (.inr ⟨_, _, _, rfl, rfl⟩)
  · cases h

theorem Node.IsChain.exists_mention {n : Node} (h : n.IsChain) :
    ∃ e, n.mention? = some (.value e) := by
  cases n with
  | expr e =>
    obtain ⟨path, hpath⟩ := Option.isSome_iff_exists.mp h
    obtain ⟨start, hstart⟩ := Expr.exists_chainFrom hpath
    exact ⟨e, hstart.mention?_eq⟩
  | _ => exact h.elim

/-- A spelled name is the first segment of its reference or a path. -/
inductive SpelledFrom (start : String) (name : String) : Prop where
  | start (h : name = start) (hstart : IsReference start)
  | path {space last : String} (hspace : space ≠ "") (hlast : IsWord last)
      (h : name = space ++ "::" ++ last)

theorem SpelledFrom.searchable {start name : String} (h : SpelledFrom start name) :
    Searchable name := by
  cases h with
  | start h hstart =>
    subst h
    exact hstart.searchable
  | path hspace hlast h => exact .path hspace hlast h

theorem IsReference.spelledFrom {name : String} (h : IsReference name) :
    SpelledFrom (firstSegment name) name := by
  rw [firstSegment_of_notMem h.notMem_colon]
  exact .start rfl h

theorem IsPathName.spelledFrom {name : String} (h : IsPathName name) :
    SpelledFrom (firstSegment name) name := by
  rcases h.cases with hident | ⟨space, last, hspace, hlast, heq⟩
  · exact IsReference.spelledFrom (.inl hident)
  · exact .path hspace hlast heq

theorem Expr.ChainFrom.spelledFrom {e : Expr} {start : String} (h : e.ChainFrom start)
    (hnamed : (Node.expr e).Named) {name : String} (hname : name ∈ e.chainNames) :
    SpelledFrom start name := by
  induction h with
  | name h =>
    subst h
    exact .start (List.mem_singleton.mp hname) hnamed.here
  | member _ ih =>
    have hreceiver := hnamed.child List.mem_cons_self
    rcases List.mem_append.mp hname with hwhole | hfront
    · obtain ⟨front, hfront, rfl⟩ := Option.map_eq_some_iff.mp (Option.mem_toList.mp hwhole)
      exact .path (Expr.staticPath?_ne_empty hreceiver hfront) (IsMemberName.word hnamed.here) rfl
    · exact ih hreceiver hfront

/-- The names of the references of parsed programs. -/
theorem Node.Named.spelledFrom {n : Node} (h : n.Named) {m : Mention} (hm : n.mention? = some m)
    {start name : String} (hstart : m.start? = some start) (hname : name ∈ m.names) :
    SpelledFrom start name := by
  rcases mention?_cases hm with ⟨e, _, rfl, rfl, _⟩ | ⟨span, ident, args, rfl, rfl⟩ |
    ⟨span, ident, args, rfl, rfl⟩
  · exact (Expr.chainStart?_eq_some_iff.mp hstart).spelledFrom h hname
  · obtain rfl := Option.some.inj hstart
    obtain rfl := List.mem_singleton.mp hname
    rcases h.here with hpath | hself
    · exact hpath.spelledFrom
    · exact IsReference.spelledFrom (.inr (.inr hself))
  · obtain rfl := Option.some.inj hstart
    obtain rfl := List.mem_singleton.mp hname
    rcases h.here with hpath | ⟨hself, _⟩
    · exact hpath.spelledFrom
    · exact IsReference.spelledFrom (.inr (.inr hself))

/-! ### Kept references -/

section Kept

variable {env : Environment} {locals : List String}

/-- A name is kept if it is not resolved or resolved to itself. -/
theorem Environment.resolve_eq_self_iff {name : String} :
    env.resolve locals name = name ↔ ∀ unique, env.resolve? locals name = some unique →
      unique = name := by
  rw [resolve]
  cases env.resolve? locals name with
  | none => simp
  | some unique => simp

/-- What a path is resolved to is no path, so it is kept only if it is not resolved. -/
theorem Environment.resolve?_eq_none_iff_of_colon {name : String} (hcolon : ':' ∈ name.toList)
    (hwords : ∀ unique, env.resolve? locals name = some unique → ':' ∉ unique.toList) :
    env.resolve? locals name = none ↔ env.resolve locals name = name := by
  rw [resolve_eq_self_iff]
  constructor
  · intro hnone unique hunique
    rw [hnone] at hunique
    cases hunique
  · intro hkept
    refine Option.eq_none_iff_forall_ne_some.mpr fun unique hunique => ?_
    obtain rfl := hkept unique hunique
    exact hwords _ hunique hcolon

theorem Environment.resolveIdent_eq_self_iff {ident : Ident} :
    env.resolveIdent locals ident = ident ↔ env.resolve locals ident.name = ident.name :=
  ⟨fun h => congrArg Ident.name h, fun h => congrArg (Ident.mk · ident.span) h⟩

theorem Expr.resolve_staticMember_eq_self_iff {span : Span} {receiver : Expr} {member : Ident} :
    (Expr.staticMember span receiver member).resolve env locals = .staticMember span receiver member ↔
      env.resolveStatic? locals receiver member = none ∧ receiver.resolve env locals = receiver := by
  rw [Expr.resolve]
  cases env.resolveStatic? locals receiver member with
  | none => simp
  | some unique => simp

/-- Resolving keeps a chain of names exactly if it keeps the names of all its fronts. -/
theorem Expr.ChainFrom.resolve_eq_self_iff {e : Expr} {start : String} (h : e.ChainFrom start)
    (hwords : ∀ name ∈ e.chainNames, ∀ unique, env.resolve? locals name = some unique →
      ':' ∉ unique.toList) :
    e.resolve env locals = e ↔ ∀ name ∈ e.chainNames, env.resolve locals name = name := by
  induction h with
  | name =>
    rw [Expr.resolve, Expr.name.injEq, Environment.resolveIdent_eq_self_iff]
    simp [chainNames]
  | @member span receiver member _ ih =>
    rw [chainNames, List.forall_mem_append] at hwords
    rw [resolve_staticMember_eq_self_iff, chainNames, List.forall_mem_append, ih hwords.2]
    refine and_congr_left fun _ => ?_
    rw [Environment.resolveStatic?, staticPath?]
    -- Only a chain without `self` and `Self` is looked up as a whole.
    cases hpath : receiver.staticPath? with
    | none => simp
    | some front =>
      rw [staticPath?, hpath] at hwords
      rw [Option.bind_some, Environment.resolve?_eq_none_iff_of_colon
        (colon_mem_append front member.name) (hwords.1 _ (Option.mem_toList.mpr rfl))]
      simp

/-- Resolving keeps a reference exactly if it keeps all the names that the reference spells. -/
theorem Node.mention?_resolve_eq_iff {n : Node} {m : Mention} (hm : n.mention? = some m)
    (hwords : ∀ name ∈ m.names, ∀ unique, env.resolve? locals name = some unique →
      ':' ∉ unique.toList) :
    (n.resolve env locals).mention? = some m ↔
      ∀ name ∈ m.names, env.resolve locals name = name := by
  rcases mention?_cases hm with ⟨e, start, rfl, rfl, hchain⟩ | ⟨span, ident, args, rfl, rfl⟩ |
    ⟨span, ident, args, rfl, rfl⟩
  · rw [Mention.names, ← hchain.resolve_eq_self_iff hwords]
    constructor
    · intro hkept
      rcases mention?_cases hkept with ⟨_, _, heq, hvalue, _⟩ | ⟨_, _, _, _, hvalue⟩ |
        ⟨_, _, _, _, hvalue⟩
      · cases hvalue
        exact expr.inj heq
      · cases hvalue
      · cases hvalue
    · intro hkept
      rw [resolve, hkept, hm]
  · simp [resolve, Expr.resolve, mention?, Mention.names, Environment.resolveIdent_eq_self_iff]
  · simp [resolve, TypeExpr.resolve, mention?, Mention.names, Environment.resolveIdent_eq_self_iff]

end Kept

/-! ### References of linked programs -/

theorem Stmt.WholeAt.speltAlone {s : Stmt} {position : List Nat} {m : Mention}
    (h : s.WholeAt position) (hm : s.Mentions position m) (table : NamespaceTable) :
    s.SpeltAlone table position := by
  intro above below o hposition hbelow ho hrefers
  obtain ⟨part, hpart, _⟩ := hm
  obtain ⟨mid, i, rfl⟩ := List.eq_nil_or_concat below |>.resolve_left hbelow
  rw [List.concat_eq_append, ← List.append_assoc] at hposition
  rw [hposition] at hpart
  obtain ⟨parent, hparent, _⟩ := Occurrence.part?_append.mp hpart
  -- The part right above the position belongs to the same chain.
  obtain ⟨o', ho', hmid⟩ := Occurrence.part?_append.mp hparent
  obtain rfl := Option.some.inj (ho.symm.trans ho')
  obtain ⟨e, he⟩ := (hrefers.isChain_of_part? hmid).exists_mention
  exact h (above ++ mid) i e hposition ⟨parent, hparent, he⟩

/-- A name at the position is not rewritten: it is `self`, `Self` or a local that a part above
    brings, or what is found for it has no other unique name. -/
def NameSpared (linked : Linked) (files : List ParsedFile) (p : Placed) (position : List Nat)
    (name : String) : Prop :=
  name = "self" ∨ name = "Self" ∨ p.stmt.BindsAt position name ∨
    ∀ file ∈ files, p.file = file.name → ∀ space entry,
      Finds linked.table (searchOrder files file p.path) name space entry → entry.uniqueName = name

/-- None of the names that the reference at the position spells is rewritten. -/
def Spared (linked : Linked) (files : List ParsedFile) (p : Placed) (position : List Nat)
    (m : Mention) : Prop :=
  ∀ name ∈ m.names, NameSpared linked files p position name

/-- No namespace declares a path that the reference or a front of it spells. -/
def PathsUndeclared (table : NamespaceTable) (m : Mention) : Prop :=
  ∀ space last, IsWord last → space ++ "::" ++ last ∈ m.names → table.lookup space last = none

namespace LinkedFrom

variable {linked : Linked} {files : List ParsedFile} {p : Placed} {position : List Nat}

theorem isIdentifier_of_lookup (h : LinkedFrom linked files) {space name : String} {entry : Entry}
    (hentry : linked.table.lookup space name = some entry) : IsIdentifier name := by
  rw [h.table] at hentry
  obtain ⟨p, hp, hregistered⟩ := exists_registered_of_lookup hentry
  obtain ⟨_, kind, ident, hdeclared, rfl, _⟩ := Placed.registered?_eq_some_iff.mp hregistered
  have hnamed : p.stmt.WellNamed := (h.named_placed hp).here
  exact hnamed.declared hdeclared

/-- Unique names are no paths. -/
theorem colon_notMem_uniqueName (h : LinkedFrom linked files) {space name : String} {entry : Entry}
    (hentry : linked.table.lookup space name = some entry) : ':' ∉ entry.uniqueName.toList := by
  obtain ⟨⟨segments, rfl, hsegments⟩, hunique⟩ := h.lookup_cases hentry
  rw [hunique, toList_uniqueName hsegments]
  refine Text.notMem_intercalate (by decide) fun part hpart => ?_
  rcases List.mem_append.mp hpart with hsegment | hlast
  · obtain ⟨segment, hin, rfl⟩ := List.mem_map.mp hsegment
    exact (hsegments segment hin).word.notMem (by decide)
  · obtain rfl := List.mem_singleton.mp hlast
    exact (h.isIdentifier_of_lookup hentry).word.notMem (by decide)

variable {part : Occurrence}

theorem named_part (h : LinkedFrom linked files) (hp : p ∈ placedOf files)
    (hpart : (Occurrence.top p.stmt).part? position = some part) : part.node.Named :=
  Node.Every.of_within (h.named_placed hp) (⟨position, hpart⟩ : (Occurrence.top p.stmt).Within part)

/-- What a name is resolved to is no path. -/
theorem colon_notMem_of_resolve? (h : LinkedFrom linked files) (hp : p ∈ placedOf files)
    {locals : List String} {name : String} (hname : Searchable name) {unique : String}
    (hunique : ((collect .standard files).environment p).resolve? locals name = some unique) :
    ':' ∉ unique.toList := by
  obtain ⟨file, hfile, hpfile⟩ := exists_file_of_mem_placedOf hp
  obtain ⟨_, space, entry, hfinds, rfl⟩ :=
    (h.resolve?_eq_some_iff hfile hpfile locals hname).mp hunique
  obtain ⟨last, hlast⟩ := hfinds.lookup
  exact h.colon_notMem_uniqueName hlast

/-- When a name is kept at the place of a part. -/
theorem resolve_eq_self_iff (h : LinkedFrom linked files) (hp : p ∈ placedOf files)
    (hpart : (Occurrence.top p.stmt).part? position = some part) {name : String}
    (hname : Searchable name) :
    ((collect .standard files).environment p).resolve part.locals name = name ↔
      NameSpared linked files p position name := by
  obtain ⟨file, hfile, hpfile⟩ := exists_file_of_mem_placedOf hp
  rw [Environment.resolve_eq_self_iff]
  simp only [h.resolve?_eq_some_iff hfile hpfile part.locals hname,
    Occurrence.mem_locals_top hpart]
  constructor
  · intro hkept
    by_cases hlocal : name = "self" ∨ name = "Self" ∨ p.stmt.BindsAt position name
    · rcases hlocal with hself | hself | hbinds
      · exact .inl hself
      · exact .inr (.inl hself)
      · exact .inr (.inr (.inl hbinds))
    · refine .inr (.inr (.inr fun other hother hpother space entry hfinds => ?_))
      -- No two files share their name.
      obtain rfl := List.inj_on_of_nodup_map h.nodup hother hfile (hpother.symm.trans hpfile)
      exact hkept _ ⟨hlocal, space, entry, hfinds, rfl⟩
  · rintro hkept unique ⟨hfree, space, entry, hfinds, rfl⟩
    rcases hkept with hself | hself | hbinds | hfound
    · exact absurd (.inl hself) hfree
    · exact absurd (.inr (.inl hself)) hfree
    · exact absurd (.inr (.inr hbinds)) hfree
    · exact hfound file hfile hpfile space entry hfinds

/-- The linked program keeps a reference exactly if resolving keeps all its names. -/
theorem mentions_iff_resolve (h : LinkedFrom linked files) (hp : p ∈ placedOf files) {m : Mention}
    (hpart : (Occurrence.top p.stmt).part? position = some part)
    (hm : part.node.mention? = some m) (hwhole : p.stmt.WholeAt position) {start : String}
    (hstart : m.start? = some start) :
    ((collect .standard files).resolve p).Mentions position m ↔
      ∀ name ∈ m.names,
        ((collect .standard files).environment p).resolve part.locals name = name := by
  have hnamed := h.named_part hp hpart
  rw [← Node.mention?_resolve_eq_iff hm fun name hname unique hunique =>
    h.colon_notMem_of_resolve? hp (hnamed.spelledFrom hm hstart hname).searchable hunique]
  have hresolved := h.part?_resolve hp (hwhole.speltAlone ⟨part, hpart, hm⟩ linked.table) hpart
  constructor
  · rintro ⟨part', hpart', hm'⟩
    obtain rfl := Option.some.inj (hpart'.symm.trans hresolved)
    exact hm'
  · intro hm'
    exact ⟨_, hresolved, hm'⟩

theorem mentions_iff (h : LinkedFrom linked files) (hp : p ∈ placedOf files) {m : Mention}
    {name : String} (hm : p.stmt.MentionsLocal position m name) :
    ((collect .standard files).resolve p).Mentions position m ↔
      Spared linked files p position m := by
  obtain ⟨part, hpart, hpartm⟩ := hm.mentions
  have hnamed := h.named_part hp hpart
  rw [h.mentions_iff_resolve hp hpart hpartm hm.whole hm.starts]
  refine forall₂_congr fun other hother => ?_
  exact h.resolve_eq_self_iff hp hpart (hnamed.spelledFrom hpartm hm.starts hother).searchable

/-- If the first segment is a local that a part above brings, only longer paths are looked up. -/
theorem mentions_iff_of_bindsAt (h : LinkedFrom linked files) (hp : p ∈ placedOf files) {m : Mention}
    {name : String} (hm : p.stmt.MentionsLocal position m name)
    (hbinds : p.stmt.BindsAt position name) :
    ((collect .standard files).resolve p).Mentions position m ↔ PathsUndeclared linked.table m := by
  obtain ⟨part, hpart, hpartm⟩ := hm.mentions
  have hnamed := h.named_part hp hpart
  have hlocals := Occurrence.isReference_of_mem_locals (h.named_placed hp) hpart
  have htable : ((collect .standard files).environment p).table = linked.table := h.table.symm
  rw [h.mentions_iff_resolve hp hpart hpartm hm.whole hm.starts]
  constructor
  · intro hkept space last hlast hname
    have hsearchable := (hnamed.spelledFrom hpartm hm.starts hname).searchable
    have hnone := (Environment.resolve?_eq_none_iff_of_colon (colon_mem_append space last)
      fun unique => h.colon_notMem_of_resolve? hp hsearchable).mpr (hkept _ hname)
    rwa [Environment.resolve?_qualified hlocals hlast, Option.map_eq_none_iff, htable] at hnone
  · intro hnone other hother
    rw [Environment.resolve]
    cases hnamed.spelledFrom hpartm hm.starts hother with
    | start heq =>
      have hlocal : name ∈ part.locals := (Occurrence.mem_locals_top hpart).mpr hbinds
      rw [heq, Environment.resolve?, if_pos (.inr (.inr hlocal)), Option.getD_none]
    | path _ hlast heq =>
      subst heq
      rw [Environment.resolve?_qualified hlocals hlast, htable, hnone _ _ hlast hother,
        Option.map_none, Option.getD_none]

end LinkedFrom

/-! ### Annotated types -/

/-- The types that a part notes for its parameters, its variable and its result. -/
def Node.annotations : Node → List TypeExpr
  | .expr (.lambda _ params _) => params.filterMap Param.type?
  | .stmt (.foreignDecl _ decl) => decl.params.filterMap Param.type? ++ decl.returnType?.toList
  | .stmt (.letDecl _ _ type? _ _) => type?.toList
  | .stmt (.function _ _ params returnType? effect? _ _) =>
    params.filterMap Param.type? ++ returnType?.toList ++ effect?.toList
  | .member (.constructor _ params _) => params.filterMap Param.type?
  | .member (.method _ _ params returnType? effect? _) =>
    params.filterMap Param.type? ++ returnType?.toList ++ effect?.toList
  | .member (.field _ _ type? _ _) => type?.toList
  | _ => []

theorem Node.annotations_resolve (env : Environment) (locals : List String) (n : Node) :
    (n.resolve env locals).annotations = n.annotations := by
  cases n with
  | expr e =>
    cases e with
    | staticMember span receiver ident =>
      simp only [resolve, Expr.resolve]
      cases env.resolveStatic? locals receiver ident <;> rfl
    | _ => simp [resolve, Expr.resolve, annotations]
  | stmt s => cases s <;> simp [resolve, Stmt.resolve, annotations]
  | member m => cases m <;> simp [resolve, Member.resolve, annotations]
  | _ => rfl

theorem Node.IsChain.annotations_eq_nil {n : Node} (h : n.IsChain) : n.annotations = [] := by
  cases n with
  | expr e =>
    cases e with
    | lambda => cases h
    | _ => rfl
  | _ => exact h.elim

/-- The linked program keeps the annotated types. -/
theorem LinkedFrom.annotations_kept {linked : Linked} {files : List ParsedFile}
    (h : LinkedFrom linked files) {p : Placed} (hp : p ∈ placedOf files) {position : List Nat}
    {part : Occurrence} (hpart : (Occurrence.top p.stmt).part? position = some part)
    (hannotations : part.node.annotations ≠ []) :
    ∃ part', (Occurrence.top ((collect .standard files).resolve p)).part? position = some part' ∧
      part'.node.annotations = part.node.annotations := by
  refine ⟨_, h.part?_resolve hp ?_ hpart, Node.annotations_resolve _ _ _⟩
  rintro above below o rfl _ ho hrefers
  obtain ⟨o', ho', hbelow⟩ := Occurrence.part?_append.mp hpart
  obtain rfl := Option.some.inj (ho.symm.trans ho')
  exact hannotations (hrefers.isChain_of_part? hbelow).annotations_eq_nil

/-! ### Locals of linked programs -/

/-- Every reference that starts with a local is kept. -/
def Linked.LocalsShadow (linked : Linked) (files : List ParsedFile) : Prop :=
  List.Forall₂ (fun p resolved => ∀ position m name,
    p.stmt.MentionsLocal position m name → resolved.Mentions position m)
    (placeFiles files) linked.program.stmts

/-- The collected statement `p` and the statement `resolved` of the linked program: which references
    that start with a local are kept. -/
structure ShadowsReferences (linked : Linked) (files : List ParsedFile) (p : Placed)
    (resolved : Stmt) : Prop where
  /-- A reference is kept exactly if none of the names that it spells is rewritten. -/
  kept_iff : ∀ position m name, p.stmt.MentionsLocal position m name →
    (resolved.Mentions position m ↔ Spared linked files p position m)
  /-- After a local that is no foreign function it is a matter of the longer paths. -/
  kept_iff_undeclared : ∀ position m name, p.stmt.MentionsLocal position m name →
    p.stmt.BindsAt position name →
    (resolved.Mentions position m ↔ PathsUndeclared linked.table m)
  /-- Such a local alone is always kept. -/
  kept_alone : ∀ position m name, p.stmt.MentionsLocal position m name →
    p.stmt.BindsAt position name → m.names = [name] → resolved.Mentions position m
  /-- Annotated types are kept, whatever they name. -/
  kept_annotations : ∀ position part, (Occurrence.top p.stmt).part? position = some part →
    part.node.annotations ≠ [] → ∃ part', (Occurrence.top resolved).part? position = some part' ∧
      part'.node.annotations = part.node.annotations

theorem LinkedFrom.shadowsReferences {linked : Linked} {files : List ParsedFile}
    (h : LinkedFrom linked files) {p : Placed} (hp : p ∈ placedOf files) :
    ShadowsReferences linked files p ((collect .standard files).resolve p) where
  kept_iff _ _ _ hm := h.mentions_iff hp hm
  kept_iff_undeclared _ _ _ hm hbinds := h.mentions_iff_of_bindsAt hp hm hbinds
  kept_alone position m name hm hbinds halone := by
    rw [h.mentions_iff hp hm, Spared, halone]
    intro other hother
    obtain rfl := List.mem_singleton.mp hother
    exact .inr (.inr (.inl hbinds))
  kept_annotations _ _ hpart hannotations := h.annotations_kept hp hpart hannotations

/-- Whatever sources are linked: a reference that starts with a local is kept exactly if none of the
    names that it spells is rewritten. A parameter, variable, function or class alone is always kept;
    a path that starts with one is kept exactly if no namespace declares the path or, in a chain, a
    front of it. -/
theorem link_locals_shadow_iff {rules : Rules} {sources : Sources} {linked : Linked}
    {findings : List Finding} (h : link rules sources = .ok (linked, findings)) :
    ∃ parsed failures, parseFiles sources = .ok (parsed, failures) ∧
      let files := inOrder linked.order parsed
      List.Forall₂ (ShadowsReferences linked files) (placeFiles files) linked.program.stmts ∧
      (linked.LocalsShadow files ↔ ∀ p ∈ placeFiles files, ∀ position m name,
        p.stmt.MentionsLocal position m name → Spared linked files p position m) := by
  obtain ⟨parsed, failures, hparse, hfrom⟩ := link_cases h
  refine ⟨parsed, failures, hparse, ?_, ?_⟩
  · rw [hfrom.stmts, List.forall₂_map_right_iff, List.forall₂_same]
    exact fun p hp => hfrom.shadowsReferences ((placeFiles_perm _).mem_iff.mp hp)
  · rw [Linked.LocalsShadow, hfrom.stmts, List.forall₂_map_right_iff, List.forall₂_same]
    refine forall₂_congr fun p hp => forall_congr' fun position => forall_congr' fun m =>
      forall_congr' fun name => ?_
    exact forall_congr' fun hm => hfrom.mentions_iff ((placeFiles_perm _).mem_iff.mp hp) hm

/-- A function `g` whose parameters have the names of a namespace and of a function in it. -/
def shadowingSources : Sources :=
  Sources.empty.insert "x.tn" "namespace! a; micro f() {} micro g(a, f) { f(); a::h(); }"

/-- In the sample the parameters are kept, alone and at the start of a path. -/
theorem link_shadowingSources :
    ∃ linked findings, link .strict shadowingSources = .ok (linked, findings) ∧
      linked.namesAt [0, 0, 0, 0] = ["f"] ∧ linked.namesAt [0, 1, 0, 0, 0] = ["a"] ∧
      ∃ parsed failures, parseFiles shadowingSources = .ok (parsed, failures) ∧
        let files := inOrder linked.order parsed
        List.Forall₂ (ShadowsReferences linked files) (placeFiles files) linked.program.stmts ∧
        (linked.LocalsShadow files ↔ ∀ p ∈ placeFiles files, ∀ position m name,
          p.stmt.MentionsLocal position m name → Spared linked files p position m) := by
  have hnames : (link .strict shadowingSources).toOption.map (fun result =>
      (result.1.namesAt [0, 0, 0, 0], result.1.namesAt [0, 1, 0, 0, 0])) =
        some (["f"], ["a"]) := by
    decide +kernel
  obtain ⟨linked, findings, hlink, hvalue⟩ := exists_link_of_map hnames
  obtain ⟨hcallee, hstart⟩ := Prod.mk.inj hvalue
  exact ⟨linked, findings, hlink, hcallee, hstart, link_locals_shadow_iff hlink⟩

/-- The first segment of the reference at the position, if it is not the front of a longer chain. -/
def Stmt.startAt (s : Stmt) (position : List Nat) : Option String :=
  match ((Occurrence.top s).part? position.dropLast).bind fun o => o.node.mention? with
  | some (.value _) => none
  | _ => ((Occurrence.top s).part? position).bind fun part => part.node.mention?.bind Mention.start?

theorem Stmt.startAt_eq_some {s : Stmt} {position : List Nat} {name : String}
    (h : s.startAt position = some name) :
    s.WholeAt position ∧ ∃ m, s.Mentions position m ∧ m.start? = some name := by
  unfold startAt at h
  split at h
  · cases h
  · rename_i hfront
    obtain ⟨part, hpart, hm⟩ := Option.bind_eq_some_iff.mp h
    obtain ⟨m, hm, hstart⟩ := Option.bind_eq_some_iff.mp hm
    refine ⟨?_, m, ⟨part, hpart, hm⟩, hstart⟩
    rintro above i e rfl ⟨o, ho, he⟩
    rw [List.dropLast_concat] at hfront
    exact hfront e (Option.bind_eq_some_iff.mpr ⟨o, ho, he⟩)

/-- A reference that starts with a local and then with another name was not kept. -/
theorem LinkedFrom.not_localsShadow {linked : Linked} {files : List ParsedFile}
    (h : LinkedFrom linked files) {k : Nat} {position : List Nat} {name written : String}
    (hplaced : ((placeFiles files)[k]?).bind (fun p => p.stmt.startAt position) = some name)
    (hlocal : ∀ p, (placeFiles files)[k]? = some p → p.stmt.LocalAt position name)
    (hwritten : (linked.program.stmts[k]?).bind (fun s => s.startAt position) = some written)
    (hne : written ≠ name) : ¬ linked.LocalsShadow files := by
  intro hshadow
  obtain ⟨p, hp, hstart⟩ := Option.bind_eq_some_iff.mp hplaced
  obtain ⟨resolved, hresolved, hstart'⟩ := Option.bind_eq_some_iff.mp hwritten
  rw [Linked.LocalsShadow, h.stmts, List.forall₂_map_right_iff, List.forall₂_same] at hshadow
  rw [h.stmts, List.getElem?_map, hp] at hresolved
  obtain rfl := Option.some.inj hresolved
  obtain ⟨hwhole, m, hm, hname⟩ := Stmt.startAt_eq_some hstart
  obtain ⟨_, m', ⟨part', hpart', hm'⟩, hname'⟩ := Stmt.startAt_eq_some hstart'
  obtain ⟨part, hpart, hkept⟩ := hshadow p (List.mem_of_getElem? hp) position m name
    ⟨hm, hwhole, hname, hlocal p hp⟩
  obtain rfl := Option.some.inj (hpart.symm.trans hpart')
  obtain rfl := Option.some.inj (hkept.symm.trans hm')
  exact hne (Option.some.inj (hname'.symm.trans hname))

/-- A parameter at the start of a path that a namespace declares. -/
def shadowedPathSources : Sources :=
  Sources.empty.insert "x.tn" "namespace! a; micro f() {} micro g(a) { a::f(); }"

/-- A foreign function of a block with the name of a function of the namespace. -/
def shadowedForeignSources : Sources :=
  Sources.empty.insert "x.tn"
    "namespace! a; micro f() {} micro g() \x7b @foreign(\"h\") micro f(); f(); \x7d"

/-- The foreign function that a statement of a block declares. -/
def Node.foreignAt (j : Nat) : Node → Option String
  | .block b => ((b.stmts[j]?).bind Stmt.declared?).bind fun (kind, ident) =>
    if kind = .foreign then some ident.name else none
  | _ => none

theorem Node.holds_of_foreignAt {n : Node} {i j : Nat} {name : String} (hj : j < i)
    (h : n.foreignAt j = some name) : n.Holds i name := by
  cases n with
  | block b =>
    obtain ⟨⟨kind, ident⟩, hfound, hname⟩ := Option.bind_eq_some_iff.mp h
    obtain ⟨s, hs, hdeclared⟩ := Option.bind_eq_some_iff.mp hfound
    obtain ⟨rfl, hname⟩ := Option.ite_none_right_eq_some.mp hname
    obtain rfl := Option.some.inj hname
    exact .foreign hj hs hdeclared
  | _ => cases h

/-- Neither the path that starts with a parameter nor the name of the foreign function is kept. -/
theorem link_shadowedSources :
    (∃ linked findings parsed failures, link .strict shadowedPathSources = .ok (linked, findings) ∧
      parseFiles shadowedPathSources = .ok (parsed, failures) ∧
      ¬ linked.LocalsShadow (inOrder linked.order parsed)) ∧
    ∃ linked findings parsed failures,
      link .strict shadowedForeignSources = .ok (linked, findings) ∧
      parseFiles shadowedForeignSources = .ok (parsed, failures) ∧
      ¬ linked.LocalsShadow (inOrder linked.order parsed) := by
  constructor
  · obtain ⟨linked, findings, parsed, failures, hlink, hparse, hfrom, hvalue⟩ :=
      exists_linked_of_map shadowedPathSources (fun linked files _ => (
        ((placeFiles files)[2]?).bind fun p => p.stmt.startAt [0, 0, 0, 0],
        ((placeFiles files)[2]?).bind fun p =>
          ((Occurrence.top p.stmt).part? [0, 0, 0, 0]).map Occurrence.locals,
        (linked.program.stmts[2]?).bind fun s => s.startAt [0, 0, 0, 0]))
        (some "a", some ["a"], some "a_f") (by decide +kernel)
    obtain ⟨hplaced, hvalue⟩ := Prod.mk.inj hvalue
    obtain ⟨hlocals, hwritten⟩ := Prod.mk.inj hvalue
    refine ⟨linked, findings, parsed, failures, hlink, hparse,
      hfrom.not_localsShadow hplaced (fun p hp => ?_) hwritten (by decide)⟩
    rw [hp, Option.bind_some] at hlocals
    obtain ⟨part, hpart, hpartLocals⟩ := Option.map_eq_some_iff.mp hlocals
    refine ((Occurrence.mem_locals_top hpart).mp ?_).localAt
    rw [hpartLocals]
    exact List.mem_cons_self
  · obtain ⟨linked, findings, parsed, failures, hlink, hparse, hfrom, hvalue⟩ :=
      exists_linked_of_map shadowedForeignSources (fun linked files _ => (
        ((placeFiles files)[2]?).bind fun p => p.stmt.startAt [0, 1, 0, 0],
        ((placeFiles files)[2]?).bind fun p =>
          ((Occurrence.top p.stmt).part? [0]).bind fun o => o.node.foreignAt 0,
        (linked.program.stmts[2]?).bind fun s => s.startAt [0, 1, 0, 0]))
        (some "f", some "f", some "a_f") (by decide +kernel)
    obtain ⟨hplaced, hvalue⟩ := Prod.mk.inj hvalue
    obtain ⟨hforeign, hwritten⟩ := Prod.mk.inj hvalue
    refine ⟨linked, findings, parsed, failures, hlink, hparse,
      hfrom.not_localsShadow hplaced (fun p hp => ?_) hwritten (by decide)⟩
    rw [hp, Option.bind_some] at hforeign
    obtain ⟨o, ho, hname⟩ := Option.bind_eq_some_iff.mp hforeign
    exact ⟨[0], 1, [0, 0], o, rfl, ho, Node.holds_of_foreignAt (by decide) hname⟩

end ScriptCompiler
