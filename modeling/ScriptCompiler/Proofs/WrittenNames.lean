import ScriptCompiler.Proofs.Brackets
import ScriptCompiler.Proofs.LinkPlan
import ScriptCompiler.Proofs.SourceMaps
import ScriptCompiler.Proofs.UniqueNames

/-!
# The names that scripts are written with

The parts of a program that was read write numerals and paths of names into the script. These are
all calm: they have no brackets, quotes, strokes or line feeds. Parsing finds identifiers and
numerals, and linking writes unique names, which are identifiers joined by underscores.
-/

namespace ScriptCompiler

open Brackets (IsCalm isCalm)

/-- The names that a statement itself writes. -/
def Stmt.written (s : Stmt) : List String :=
  (s.declared?.map fun declared => declared.2.name).toList ++ s.uniqueName?.toList
    ++ paramNames s.params ++ (s.path?.getD []).map Ident.name

/-- The names and numerals that a part itself writes into the script. -/
def Node.written : Node → List String
  | .type (.named _ ident _) => [ident.name]
  | .expr (.number _ digits) => [digits]
  | .expr (.name _ ident) => [ident.name]
  | .expr (.field _ _ ident) => [ident.name]
  | .expr (.staticMember _ _ ident) => [ident.name]
  | .expr (.lambda _ params _) => paramNames params
  | .expr (.new _ ident _) => [ident.name]
  | .stmt s => s.written
  | .member m => m.name?.toList ++ paramNames m.params
  | _ => []

def Node.Calm (n : Node) : Prop :=
  ∀ name ∈ n.written, IsCalm name

/-- The text is a path of names of the script, joined by `::`. -/
def IsNamePath (name : String) : Prop :=
  ∃ segments : List String, segments ≠ [] ∧
    (∀ segment ∈ segments, Script.isPlainName segment.toList) ∧
    name = Text.joinWith "::" segments

/-- Numbers are written as numerals, named types and the classes of new instances as paths of names,
    members have identifiers for their names, and all other parts write names. -/
def Node.Spelt : Node → Prop
  | .type (.named _ ident _) | .expr (.new _ ident _) => IsNamePath ident.name
  | .expr (.number _ digits) => IsNumeral digits
  | .member m => (∀ name ∈ m.name?, IsIdentifier name) ∧ ParamsNamed m.params
  | n => ∀ name ∈ n.written, Script.isPlainName name.toList

/-! ### Parsed names -/

theorem IsMemberName.plain {name : String} (h : IsMemberName name) :
    Script.isPlainName name.toList := by
  obtain ⟨c, hc, hstart⟩ := h.start
  have hword := h.word
  unfold IsWord at hword
  cases hname : name.toList with
  | nil =>
    rw [hname] at hc
    cases hc
  | cons first rest =>
    rw [hname] at hc hword
    obtain rfl : first = c := Option.some.inj hc
    have hfirst : Script.isNameStart first := Bool.or_eq_true_iff.mpr (.inl hstart)
    have hrest : rest.all Script.isNamePart := List.all_eq_true.mpr fun d hd =>
      Bool.or_eq_true_iff.mpr (.inl (hword d (List.mem_cons_of_mem _ hd)))
    exact Bool.and_eq_true_iff.mpr ⟨hfirst, hrest⟩

theorem IsNamePath.of_plain {name : String} (h : Script.isPlainName name.toList) :
    IsNamePath name := by
  refine ⟨[name], List.cons_ne_nil _ _, List.forall_mem_singleton.mpr h, ?_⟩
  rw [← String.toList_inj, Text.toList_joinWith]
  simp

theorem IsReference.plain {name : String} (h : IsReference name) :
    Script.isPlainName name.toList := by
  rcases h with h | rfl | rfl
  · exact h.plain
  · decide
  · decide

theorem IsPathName.namePath {name : String} (h : IsPathName name) : IsNamePath name := by
  obtain ⟨path, hpath, rfl⟩ := h
  refine ⟨path.map Ident.name, by simpa using hpath.nonempty, ?_, rfl⟩
  rw [List.forall_mem_map]
  exact fun segment hsegment => (hpath.segments segment hsegment).plain

theorem ParamsNamed.plain {params : List Param} (h : ParamsNamed params) :
    ∀ name ∈ paramNames params, Script.isPlainName name.toList := by
  rw [paramNames, List.forall_mem_map]
  exact fun param hparam => (h param hparam).plain

/-- A well named statement writes names if its unique name is one. -/
theorem Stmt.WellNamed.spelt {s : Stmt} (h : s.WellNamed)
    (hunique : ∀ name ∈ s.uniqueName?, Script.isPlainName name.toList) : (Node.stmt s).Spelt := by
  have hdeclared : ∀ name ∈ (s.declared?.map fun declared => declared.2.name).toList,
      Script.isPlainName name.toList := by
    intro name hname
    obtain ⟨declared, hfound, rfl⟩ := Option.map_eq_some_iff.mp (Option.mem_toList.mp hname)
    exact (h.declared hfound).plain
  have hpath : ∀ name ∈ (s.path?.getD []).map Ident.name, Script.isPlainName name.toList := by
    rw [List.forall_mem_map]
    intro segment hsegment
    cases hfound : s.path? with
    | none =>
      rw [hfound] at hsegment
      cases hsegment
    | some path =>
      rw [hfound] at hsegment
      exact ((h.path path hfound).segments segment hsegment).plain
  show ∀ name ∈ s.written, Script.isPlainName name.toList
  simp only [Stmt.written, List.forall_mem_append]
  exact ⟨⟨⟨hdeclared, fun name hname => hunique name (Option.mem_toList.mp hname)⟩,
    h.params.plain⟩, hpath⟩

/-- Parsed parts write names and numerals. -/
theorem Node.AsParsed.spelt {n : Node} (h : n.AsParsed) : n.Spelt := by
  cases n with
  | type t =>
    cases t with
    | named span ident args =>
      rcases h with h | ⟨h, _⟩
      · exact h.namePath
      · rw [Spelt, h]
        exact .of_plain (by decide)
    | _ => simp [Spelt, written]
  | expr e =>
    cases e with
    | number => exact h
    | name => exact List.forall_mem_singleton.mpr (IsReference.plain h)
    | field | staticMember => exact List.forall_mem_singleton.mpr (IsMemberName.plain h)
    | lambda => exact ParamsNamed.plain h
    | new =>
      rcases h with h | h
      · exact h.namePath
      · rw [Spelt, h]
        exact .of_plain (by decide)
    | _ => simp [Spelt, written]
  | stmt s =>
    have hparsed : s.AsParsed := h
    refine hparsed.toWellNamed.spelt fun name hname => ?_
    rw [hparsed.unmarked] at hname
    cases hname
  | member m =>
    obtain ⟨⟨_, hparams⟩, hname⟩ := h
    exact ⟨hname, hparams⟩
  | _ => simp [Spelt, written]

/-! ### Linked names -/

theorem isPlainName_append {name rest : List Char} (h : Script.isPlainName name)
    (hrest : ∀ c ∈ rest, Script.isNamePart c) : Script.isPlainName (name ++ rest) := by
  cases name with
  | nil => cases h
  | cons first name =>
    obtain ⟨hfirst, hname⟩ := Bool.and_eq_true_iff.mp h
    refine Bool.and_eq_true_iff.mpr ⟨hfirst, List.all_eq_true.mpr fun c hc => ?_⟩
    rcases List.mem_append.mp hc with hc | hc
    · exact List.all_eq_true.mp hname c hc
    · exact hrest c hc

theorem isNamePart_of_isPlainName {name : List Char} (h : Script.isPlainName name) :
    ∀ c ∈ name, Script.isNamePart c := by
  cases name with
  | nil => cases h
  | cons first rest =>
    obtain ⟨hfirst, hrest⟩ := Bool.and_eq_true_iff.mp h
    refine List.forall_mem_cons.mpr ⟨?_, List.all_eq_true.mp hrest⟩
    unfold Script.isNameStart at hfirst
    unfold Script.isNamePart Char.isAlphanum
    rcases Bool.or_eq_true_iff.mp hfirst with hfirst | hfirst
    · rcases Bool.or_eq_true_iff.mp hfirst with hfirst | hfirst <;> simp [hfirst]
    · simp [hfirst]

theorem isPlainName_uniqueName {path name : String} (hpath : IsNamespace path)
    (hname : IsIdentifier name) : Script.isPlainName (uniqueName path name).toList := by
  obtain ⟨segments, rfl, hsegments⟩ := hpath
  rw [toList_uniqueName hsegments]
  have hplain : ∀ part ∈ segments.map String.toList ++ [name.toList], Script.isPlainName part := by
    rw [List.forall_mem_append, List.forall_mem_map, List.forall_mem_singleton]
    exact ⟨fun segment hsegment => (hsegments segment hsegment).plain, hname.plain⟩
  cases hparts : segments.map String.toList ++ [name.toList] with
  | nil => simp at hparts
  | cons first rest =>
    rw [hparts] at hplain
    obtain ⟨hfirst, hrest⟩ := List.forall_mem_cons.mp hplain
    rw [Text.intercalate_cons]
    refine isPlainName_append hfirst fun c hc => ?_
    obtain ⟨part, hpart, hc⟩ := List.mem_flatMap.mp hc
    rcases List.mem_cons.mp hc with rfl | hc
    · rfl
    · exact isNamePart_of_isPlainName (hrest part hpart) c hc

/-- The declarations that names are searched among have names of the script for unique names. -/
def Environment.Plain (env : Environment) : Prop :=
  ∀ path name entry, env.table.lookup path name = some entry →
    Script.isPlainName entry.uniqueName.toList

namespace Environment.Plain

variable {env : Environment} {locals : List String}

theorem of_entry (h : env.Plain) {name : String} {entry : Entry}
    (hentry : env.entry? name = some entry) : Script.isPlainName entry.uniqueName.toList := by
  unfold Environment.entry? at hentry
  split at hentry
  · exact h _ _ _ hentry
  · obtain ⟨path, _, hfound⟩ := List.exists_of_findSome?_eq_some hentry
    exact h _ _ _ hfound

theorem resolve? (h : env.Plain) {name unique : String}
    (hunique : env.resolve? locals name = some unique) : Script.isPlainName unique.toList := by
  unfold Environment.resolve? at hunique
  split at hunique
  · cases hunique
  · obtain ⟨entry, hentry, rfl⟩ := Option.map_eq_some_iff.mp hunique
    exact h.of_entry hentry

/-- A resolved name is the name that was written, or a unique name. -/
theorem resolve_cases (h : env.Plain) (locals : List String) (name : String) :
    env.resolve locals name = name ∨ Script.isPlainName (env.resolve locals name).toList := by
  unfold Environment.resolve
  cases hfound : env.resolve? locals name with
  | none => exact .inl rfl
  | some unique => exact .inr (h.resolve? hfound)

theorem isPlainName_resolve (h : env.Plain) {name : String}
    (hname : Script.isPlainName name.toList) :
    Script.isPlainName (env.resolve locals name).toList := by
  rcases h.resolve_cases locals name with hsame | hunique
  · rwa [hsame]
  · exact hunique

theorem isNamePath_resolve (h : env.Plain) {name : String} (hname : IsNamePath name) :
    IsNamePath (env.resolve locals name) := by
  rcases h.resolve_cases locals name with hsame | hunique
  · rwa [hsame]
  · exact .of_plain hunique

end Environment.Plain

theorem Stmt.written_resolve (env : Environment) (locals : List String) (s : Stmt) :
    (s.resolve env locals).written = s.written := by
  have hparams : (s.resolve env locals).params = s.params := by
    cases s <;> simp [Stmt.resolve, Stmt.params]
  have hpath : (s.resolve env locals).path? = s.path? := by
    cases s <;> simp [Stmt.resolve, Stmt.path?]
  rw [written, written, declared?_resolve, uniqueName?_resolve, hparams, hpath]

/-- Resolving names keeps the spelling of parts. -/
theorem Node.Spelt.resolve {env : Environment} (henv : env.Plain) {n : Node} (h : n.Spelt)
    (locals : List String) : (n.resolve env locals).Spelt := by
  cases n with
  | type t =>
    cases t with
    | named span ident args => exact henv.isNamePath_resolve h
    | _ => simp [Node.resolve, TypeExpr.resolve, Spelt, written]
  | expr e =>
    cases e with
    | name span ident =>
      exact List.forall_mem_singleton.mpr
        (henv.isPlainName_resolve (h ident.name List.mem_cons_self))
    | new span className args => exact henv.isNamePath_resolve h
    | staticMember span receiver member =>
      rw [Node.resolve, Expr.resolve]
      cases hfound : env.resolveStatic? locals receiver member with
      | none => exact h
      | some unique =>
        obtain ⟨path, _, hpath⟩ := Option.bind_eq_some_iff.mp hfound
        exact List.forall_mem_singleton.mpr (henv.resolve? hpath)
    | number | field | lambda => simpa [Node.resolve, Expr.resolve, Spelt, written] using h
    | _ => simp [Node.resolve, Expr.resolve, Spelt, written]
  | stmt s =>
    show ∀ name ∈ (s.resolve env locals).written, Script.isPlainName name.toList
    rw [Stmt.written_resolve]
    exact h
  | member m =>
    have hparams : (m.resolve env locals).params = m.params := by
      cases m <;> simp [Member.resolve, Member.params]
    rw [Node.resolve, Spelt, Member.name?_resolve, hparams]
    exact h
  | _ => simp [Node.resolve, Spelt, written]

/-- With a unique name a parsed statement still writes names. -/
theorem Node.Parsed.spelt_withUniqueName {s : Stmt} (h : (Node.stmt s).Parsed) {path : String}
    (hpath : IsNamespace path) : (Node.stmt (s.withUniqueName path)).Every Node.Spelt := by
  have hnamed : (Node.stmt s).Named := h.mono fun _ => AsParsed.wellNamed
  have hown : s.WellNamed := hnamed.here
  refine ⟨Stmt.WellNamed.spelt (hnamed.withUniqueName path).here fun name hname => ?_, ?_⟩
  · cases hdeclared : s.declared? with
    | none =>
      have hnone := (Stmt.declared?_withUniqueName path s).trans hdeclared
      rw [Stmt.uniqueName?_eq_none hnone] at hname
      cases hname
    | some declared =>
      rw [Stmt.uniqueName?_withUniqueName hdeclared] at hname
      obtain rfl := Option.some.inj hname
      exact isPlainName_uniqueName hpath (hown.declared hdeclared)
  · intro child hchild
    rw [Node.children, Stmt.children_withUniqueName] at hchild
    exact (h.child hchild).mono fun _ => AsParsed.spelt

theorem LinkedFrom.plain_environment {linked : Linked} {files : List ParsedFile}
    (h : LinkedFrom linked files) (p : Placed) :
    ((collect .standard files).environment p).Plain := by
  intro path name entry hentry
  have hfound : linked.table.lookup path name = some entry := by
    rw [h.table]
    exact hentry
  obtain ⟨hpath, hunique⟩ := h.lookup_cases hfound
  have hdeclares : Declares files path name :=
    lookup_collect_isSome.mp (Option.isSome_of_eq_some hentry)
  rw [hunique]
  exact isPlainName_uniqueName hpath (hdeclares.isIdentifier h.named)

/-- Every part of a program that was read writes names and numerals. -/
theorem Program.IsRead.spelt {program : Program} (h : program.IsRead) :
    ∀ s ∈ program.stmts, (Node.stmt s).Every Node.Spelt := by
  cases h with
  | parsed hscan hparse =>
    intro s hs
    exact (parseProgram_parsed (tokenizeFile_spelled hscan) hparse s hs).mono
      fun _ => Node.AsParsed.spelt
  | @linked _ sources linked _ h =>
    obtain ⟨parsed, failures, hparse, hfrom⟩ := link_cases h
    have hparsed : ∀ file ∈ inOrder linked.order parsed, ∀ s ∈ file.program.stmts,
        (Node.stmt s).Parsed := by
      intro file hfile
      obtain ⟨_, _, _, _, htokens, hprogram⟩ :=
        (mem_parsed_iff hparse).mp (mem_of_mem_inOrder hfile)
      exact parseProgram_parsed (tokenizeFile_spelled htokens) hprogram
    intro s hs
    rw [hfrom.stmts] at hs
    obtain ⟨placed, hplaced, rfl⟩ := List.mem_map.mp hs
    have henv := hfrom.plain_environment placed
    obtain ⟨file, hfile, i, source, hsource, rfl⟩ :=
      mem_placedOf.mp ((placeFiles_perm _).mem_iff.mp hplaced)
    have hpath : IsNamespace (activeNamespace (file.program.stmts.take (i + 1))) :=
      isNamespace_activeNamespace fun s hs => hfrom.named file hfile s (List.mem_of_mem_take hs)
    have hsourceParsed := hparsed file hfile source (List.mem_of_getElem? hsource)
    exact (hsourceParsed.spelt_withUniqueName hpath).resolve
      (fun _ locals hn => hn.resolve henv locals) []

/-! ### Calm names -/

theorem isCalm_of_isPlainName {name : List Char} (h : Script.isPlainName name) :
    ∀ c ∈ name, isCalm c :=
  fun c hc => Brackets.isCalm_of_signs (by decide) (isNamePart_of_isPlainName h c hc)

theorem IsNamePath.calm {name : String} (h : IsNamePath name) : IsCalm name := by
  obtain ⟨segments, _, hsegments, rfl⟩ := h
  exact Brackets.isCalm_joinWith (by decide) fun segment hsegment =>
    isCalm_of_isPlainName (hsegments segment hsegment)

/-- The characters of a numeral are digits and points. -/
theorem IsNumeral.isDigit_or_point {digits : String} (h : IsNumeral digits) {c : Char}
    (hc : c ∈ digits.toList) : c.isDigit ∨ c = '.' := by
  cases h with
  | whole _ hdigits => exact .inl (hdigits c hc)
  | fraction htext _ _ hdigits =>
    rw [htext] at hc
    rcases List.mem_append.mp hc with hc | hc
    · exact .inl (hdigits c (List.mem_append_left _ hc))
    · rcases List.mem_cons.mp hc with rfl | hc
      · exact .inr rfl
      · exact .inl (hdigits c (List.mem_append_right _ hc))

theorem IsNumeral.calm {digits : String} (h : IsNumeral digits) : IsCalm digits := by
  intro c hc
  rcases h.isDigit_or_point hc with hdigit | rfl
  · exact Brackets.isCalm_of_signs (by decide) hdigit
  · rfl

/-- Names and numerals are calm. -/
theorem Node.Spelt.calm {n : Node} (h : n.Spelt) : n.Calm := by
  unfold Node.Calm
  cases n with
  | type t =>
    cases t with
    | named => exact List.forall_mem_singleton.mpr (IsNamePath.calm h)
    | _ => exact fun name hname => isCalm_of_isPlainName (h name hname)
  | expr e =>
    cases e with
    | number => exact List.forall_mem_singleton.mpr (IsNumeral.calm h)
    | new => exact List.forall_mem_singleton.mpr (IsNamePath.calm h)
    | _ => exact fun name hname => isCalm_of_isPlainName (h name hname)
  | member m =>
    obtain ⟨hname, hparams⟩ := h
    rw [written, List.forall_mem_append]
    exact ⟨fun name hin => isCalm_of_isPlainName (hname name (Option.mem_toList.mp hin)).plain,
      fun name hin => isCalm_of_isPlainName (hparams.plain name hin)⟩
  | _ => exact fun name hname => isCalm_of_isPlainName (h name hname)

/-- Every part of a program that was read writes calm names. -/
theorem Program.IsRead.calm {program : Program} (h : program.IsRead) :
    ∀ s ∈ program.stmts, (Node.stmt s).Every Node.Calm :=
  fun s hs => (h.spelt s hs).mono fun _ => Node.Spelt.calm

end ScriptCompiler
