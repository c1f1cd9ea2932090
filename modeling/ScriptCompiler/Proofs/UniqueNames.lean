import ScriptCompiler.Proofs.JoinedText
import ScriptCompiler.Proofs.Linking

/-!
# Which unique names are equal

A unique name joins the segments of a namespace and a name by underscores. Segments and names may
hold underscores themselves, so that a unique name only tells the words between the underscores: two
declarations have the same unique name exactly if their words are the same.
-/

namespace ScriptCompiler

/-! ### The words of a unique name -/

/-- The segments of the path of a namespace. -/
def pathSegments (path : String) : List (List Char) :=
  (path.toList.splitOn ':').filter (· ≠ [])

/-- The segments of a namespace and a name behind them. -/
def nameParts (path name : String) : List (List Char) :=
  pathSegments path ++ [name.toList]

/-- The words of a namespace and a name: `a::b_c` and `d` have the words `a`, `b`, `c` and `d`. -/
def nameWords (path name : String) : List (List Char) :=
  (nameParts path name).flatMap (List.splitOn '_')

/-- The path consists of identifiers; without any of them it stands for the names outside every
    namespace. -/
def IsNamespace (path : String) : Prop :=
  ∃ segments : List String, path = Text.joinWith "::" segments ∧
    ∀ segment ∈ segments, IsIdentifier segment

theorem toList_joinWith_cons (segment next : String) (rest : List String) :
    (Text.joinWith "::" (segment :: next :: rest)).toList =
      segment.toList ++ ':' :: ':' :: (Text.joinWith "::" (next :: rest)).toList := by
  rw [Text.toList_joinWith, Text.toList_joinWith, List.map_cons, List.map_cons,
    List.intercalate_cons_cons]
  simp

/-- Identifiers are joined to a path without loss. -/
theorem pathSegments_joinWith {segments : List String}
    (h : ∀ segment ∈ segments, IsIdentifier segment) :
    pathSegments (Text.joinWith "::" segments) = segments.map String.toList := by
  induction segments with
  | nil => rfl
  | cons segment rest ih =>
    obtain ⟨hsegment, hrest⟩ := List.forall_mem_cons.mp h
    have hcolon : ':' ∉ segment.toList := hsegment.word.notMem (by decide)
    have hne : segment.toList ≠ [] := fun hnil => hsegment.nonempty (String.toList_eq_nil_iff.mp hnil)
    unfold pathSegments at ih ⊢
    cases rest with
    | nil => simp [Text.toList_joinWith, Text.splitOn_of_notMem hcolon, hne]
    | cons next rest =>
      have hempty : ∀ text : List Char, (':' :: text).splitOn ':' = [] :: text.splitOn ':' :=
        Text.splitOn_append ':' []
      rw [toList_joinWith_cons, Text.splitOn_append, hempty, Text.splitOn_of_notMem hcolon,
        List.singleton_append, List.filter_cons, if_pos (decide_eq_true hne),
        List.filter_cons_of_neg (by decide), ih hrest]
      rfl

/-- A unique name joins the segments of its namespace and its name by underscores. -/
theorem toList_uniqueName {segments : List String}
    (h : ∀ segment ∈ segments, IsIdentifier segment) (name : String) :
    (uniqueName (Text.joinWith "::" segments) name).toList =
      ['_'].intercalate (segments.map String.toList ++ [name.toList]) := by
  have hsign : ∀ c, Token.isWordPart c = false → ∀ text ∈ segments.map String.toList, c ∉ text := by
    intro c hc text htext
    obtain ⟨segment, hsegment, rfl⟩ := List.mem_map.mp htext
    exact (h segment hsegment).word.notMem hc
  have hmark : '!' ∉ (Text.joinWith "::" segments).toList := by
    rw [Text.toList_joinWith]
    exact Text.notMem_intercalate (by decide) (hsign '!' (by decide))
  have hclean : Text.replacePair ['_'] (Text.joinWith "::" segments).toList =
      ['_'].intercalate (segments.map String.toList) := by
    rw [Text.toList_joinWith]
    exact Text.replacePair_intercalate ['_'] (hsign ':' (by decide))
  rw [uniqueName, Text.trimEndOf_of_notMem hmark]
  cases segments with
  | nil => simp [Text.toList_joinWith]
  | cons segment rest =>
    have hne : (Text.joinWith "::" (segment :: rest)).toList ≠ [] := by
      rw [Text.toList_joinWith, List.map_cons, Text.intercalate_cons]
      have hsegment := (h segment List.mem_cons_self).nonempty
      simp [hsegment]
    rw [Text.intercalate_concat (by simp), ← hclean]
    -- Only the path of no segments is empty.
    split
    · rename_i hnil
      exact absurd hnil hne
    · simp [String.toList_append]

/-- Unique names are equal exactly if the words of their namespaces and names are. -/
theorem uniqueName_eq_iff {path path' : String} (h : IsNamespace path) (h' : IsNamespace path')
    (name name' : String) :
    uniqueName path name = uniqueName path' name' ↔ nameWords path name = nameWords path' name' := by
  -- The words are the pieces of the unique name.
  have hwords : ∀ {path : String}, IsNamespace path → ∀ name,
      nameWords path name = (uniqueName path name).toList.splitOn '_' := by
    rintro _ ⟨segments, rfl, hsegments⟩ name
    rw [toList_uniqueName hsegments, Text.splitOn_intercalate '_' (by simp), nameWords, nameParts,
      pathSegments_joinWith hsegments]
  rw [hwords h, hwords h', (Text.splitOn_injective '_').eq_iff, String.toList_inj]

/-- In one namespace different names have different words. -/
theorem nameWords_injective (path : String) : Function.Injective (nameWords path) := by
  intro name name' heq
  simp only [nameWords, nameParts, List.flatMap_append, List.append_cancel_left_eq,
    List.flatMap_singleton] at heq
  exact String.toList_inj.mp (Text.splitOn_injective '_' heq)

/-- A namespace and a name can be read off their parts. -/
theorem nameParts_inj {path path' : String} (h : IsNamespace path) (h' : IsNamespace path')
    {name name' : String} (heq : nameParts path name = nameParts path' name') :
    (path, name) = (path', name') := by
  obtain ⟨segments, rfl, hsegments⟩ := h
  obtain ⟨segments', rfl, hsegments'⟩ := h'
  rw [nameParts, nameParts, pathSegments_joinWith hsegments, pathSegments_joinWith hsegments'] at heq
  obtain ⟨hpath, hname⟩ := List.append_inj' heq rfl
  have hinjective : Function.Injective String.toList := fun _ _ => String.toList_inj.mp
  rw [hinjective.list_map hpath, String.toList_inj.mp (List.singleton_inj.mp hname)]

theorem nameWords_eq_nameParts {path name : String} (h : ∀ part ∈ nameParts path name, '_' ∉ part) :
    nameWords path name = nameParts path name := by
  unfold nameWords
  generalize nameParts path name = parts at h ⊢
  induction parts with
  | nil => rfl
  | cons part rest ih =>
    obtain ⟨hpart, hrest⟩ := List.forall_mem_cons.mp h
    rw [List.flatMap_cons, Text.splitOn_of_notMem hpart, ih hrest, List.singleton_append]

/-! ### The unique names of a linked program -/

theorem isNamespace_activeNamespace {stmts : List Stmt}
    (h : ∀ s ∈ stmts, (Node.stmt s).Named) : IsNamespace (activeNamespace stmts) := by
  unfold activeNamespace
  cases hlast : (namespaceDecls stmts).getLast? with
  | none => exact ⟨[], rfl, fun _ hin => absurd hin List.not_mem_nil⟩
  | some decl =>
    obtain ⟨s, hs, hdecl⟩ := List.mem_filterMap.mp (List.mem_of_getLast? hlast)
    have hown := (h s hs).here
    cases s with
    | namespaceDecl span other =>
      obtain rfl := Option.some.inj hdecl
      have hpath : IsPath other.path := Stmt.WellNamed.path hown _ rfl
      refine ⟨other.path.map Ident.name, rfl, fun segment hsegment => ?_⟩
      obtain ⟨ident, hident, rfl⟩ := List.mem_map.mp hsegment
      exact hpath.segments ident hident
    | _ => cases hdecl

/-- What a linked program declares: its namespace and its unique name. -/
theorem LinkedFrom.lookup_cases {linked : Linked} {files : List ParsedFile}
    (h : LinkedFrom linked files) {path name : String} {entry : Entry}
    (hentry : linked.table.lookup path name = some entry) :
    IsNamespace path ∧ entry.uniqueName = uniqueName path name := by
  rw [h.table] at hentry
  obtain ⟨p, hp, hregistered⟩ := exists_registered_of_lookup hentry
  obtain ⟨rfl, _, _, _, _, rfl⟩ := Placed.registered?_eq_some_iff.mp hregistered
  obtain ⟨file, hfile, i, s, _, rfl⟩ := mem_placedOf.mp hp
  refine ⟨isNamespace_activeNamespace fun s hs => ?_, rfl⟩
  exact h.named file hfile s (List.mem_of_mem_take hs)

namespace NamespaceTable

/-- Any two declarations with different namespaces or names have different unique names. -/
def UniqueNamesDistinct (table : NamespaceTable) : Prop :=
  ∀ path name entry path' name' entry', table.lookup path name = some entry →
    table.lookup path' name' = some entry' → (path, name) ≠ (path', name') →
    entry.uniqueName ≠ entry'.uniqueName

/-- Any two declarations with different namespaces or names have different words. -/
def WordsDistinct (table : NamespaceTable) : Prop :=
  ∀ path name path' name', (table.lookup path name).isSome → (table.lookup path' name').isSome →
    (path, name) ≠ (path', name') → nameWords path name ≠ nameWords path' name'

/-- Neither the namespaces nor the names of the declarations have underscores. -/
def WithoutUnderscores (table : NamespaceTable) : Prop :=
  ∀ path name, (table.lookup path name).isSome → ∀ part ∈ nameParts path name, '_' ∉ part

end NamespaceTable

namespace LinkedFrom

variable {linked : Linked} {files : List ParsedFile}

theorem uniqueName_eq_iff (h : LinkedFrom linked files) {path name path' name' : String}
    {entry entry' : Entry} (hentry : linked.table.lookup path name = some entry)
    (hentry' : linked.table.lookup path' name' = some entry') :
    entry.uniqueName = entry'.uniqueName ↔ nameWords path name = nameWords path' name' := by
  obtain ⟨hpath, hunique⟩ := h.lookup_cases hentry
  obtain ⟨hpath', hunique'⟩ := h.lookup_cases hentry'
  rw [hunique, hunique', ScriptCompiler.uniqueName_eq_iff hpath hpath']

theorem uniqueNamesDistinct_iff (h : LinkedFrom linked files) :
    linked.table.UniqueNamesDistinct ↔ linked.table.WordsDistinct := by
  constructor
  · intro hdistinct path name path' name' hsome hsome' hne hwords
    obtain ⟨entry, hentry⟩ := Option.isSome_iff_exists.mp hsome
    obtain ⟨entry', hentry'⟩ := Option.isSome_iff_exists.mp hsome'
    exact hdistinct path name entry path' name' entry' hentry hentry' hne
      ((h.uniqueName_eq_iff hentry hentry').mpr hwords)
  · intro hdistinct path name entry path' name' entry' hentry hentry' hne hunique
    exact hdistinct path name path' name' (Option.isSome_of_eq_some hentry)
      (Option.isSome_of_eq_some hentry') hne ((h.uniqueName_eq_iff hentry hentry').mp hunique)

theorem wordsDistinct_of_withoutUnderscores (h : LinkedFrom linked files)
    (hwithout : linked.table.WithoutUnderscores) : linked.table.WordsDistinct := by
  intro path name path' name' hsome hsome' hne hwords
  obtain ⟨entry, hentry⟩ := Option.isSome_iff_exists.mp hsome
  obtain ⟨entry', hentry'⟩ := Option.isSome_iff_exists.mp hsome'
  rw [nameWords_eq_nameParts (hwithout path name hsome),
    nameWords_eq_nameParts (hwithout path' name' hsome')] at hwords
  exact hne (nameParts_inj (h.lookup_cases hentry).1 (h.lookup_cases hentry').1 hwords)

end LinkedFrom

/-- The unique names of a linked program are distinct exactly if no two of its declarations have the
    same words. So they are if no namespace and no name has an underscore, and inside one namespace
    they always are. -/
theorem link_uniqueNames_distinct_iff {rules : Rules} {sources : Sources} {linked : Linked}
    {findings : List Finding} (h : link rules sources = .ok (linked, findings)) :
    (linked.table.UniqueNamesDistinct ↔ linked.table.WordsDistinct) ∧
    (linked.table.WithoutUnderscores → linked.table.UniqueNamesDistinct) ∧
    ∀ path name name' entry entry', linked.table.lookup path name = some entry →
      linked.table.lookup path name' = some entry' → name ≠ name' →
      entry.uniqueName ≠ entry'.uniqueName := by
  obtain ⟨parsed, _, _, hfrom⟩ := link_cases h
  refine ⟨hfrom.uniqueNamesDistinct_iff, fun hwithout => ?_, ?_⟩
  · exact hfrom.uniqueNamesDistinct_iff.mpr (hfrom.wordsDistinct_of_withoutUnderscores hwithout)
  · -- Equal words behind the same namespace are the words of equal names.
    intro path name name' entry entry' hentry hentry' hne hunique
    exact hne (nameWords_injective path ((hfrom.uniqueName_eq_iff hentry hentry').mp hunique))

/-- Two files whose declarations hold the same words in different orders. -/
def reorderedSources : Sources :=
  (Sources.empty.insert "x.tn" "namespace! a_b; micro c() {}").insert "y.tn"
    "namespace! a; micro c_b() {}"

/-- Words in another order make another unique name. -/
theorem link_reorderedSources :
    ∃ linked findings, link .strict reorderedSources = .ok (linked, findings) ∧
      (linked.table.lookup "a_b" "c").map Entry.uniqueName = some "a_b_c" ∧
      (linked.table.lookup "a" "c_b").map Entry.uniqueName = some "a_c_b" ∧
      (linked.table.UniqueNamesDistinct ↔ linked.table.WordsDistinct) := by
  have hnames : (link .strict reorderedSources).toOption.map (fun result =>
      ((result.1.table.lookup "a_b" "c").map Entry.uniqueName,
        (result.1.table.lookup "a" "c_b").map Entry.uniqueName)) =
        some (some "a_b_c", some "a_c_b") := by
    decide +kernel
  obtain ⟨linked, findings, hlink, hvalue⟩ := exists_link_of_map hnames
  obtain ⟨hfirst, hsecond⟩ := Prod.mk.inj hvalue
  exact ⟨linked, findings, hlink, hfirst, hsecond, (link_uniqueNames_distinct_iff hlink).1⟩

/-- A file with a function `a_f` outside every namespace and a function `f` in the namespace `a`. -/
def collidingSources : Sources :=
  Sources.empty.insert "x.tn" "micro a_f() {} namespace! a; micro f() {}"

/-- Nothing is found wrong with these functions, but they share their unique name. -/
theorem link_collidingSources :
    ∃ linked, link .strict collidingSources = .ok (linked, []) ∧
      ¬ linked.table.UniqueNamesDistinct := by
  have hnames : (link .strict collidingSources).toOption.map (fun result => (result.2.isEmpty,
      (result.1.table.lookup "" "a_f").map Entry.uniqueName,
        (result.1.table.lookup "a" "f").map Entry.uniqueName)) =
        some (true, some "a_f", some "a_f") := by
    decide +kernel
  obtain ⟨linked, findings, hlink, hvalue⟩ := exists_link_of_map hnames
  obtain ⟨hempty, hvalue⟩ := Prod.mk.inj hvalue
  obtain ⟨hfirst, hsecond⟩ := Prod.mk.inj hvalue
  obtain ⟨entry, hentry, hunique⟩ := Option.map_eq_some_iff.mp hfirst
  obtain ⟨entry', hentry', hunique'⟩ := Option.map_eq_some_iff.mp hsecond
  have hnone : findings = [] := List.isEmpty_iff.mp hempty
  refine ⟨linked, by rw [hlink, hnone], fun hdistinct => ?_⟩
  exact hdistinct "" "a_f" entry "a" "f" entry' hentry hentry' (by decide)
    (hunique.trans hunique'.symm)

end ScriptCompiler
