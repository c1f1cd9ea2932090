/-!
# Insertion order

Lists of names and tables keyed by names that keep the order in which names first came.
-/

namespace ScriptCompiler.Ordered

/-- The name joins the list at its end, unless it is there already. -/
def addName (names : List String) (name : String) : List String :=
  if names.contains name then names else names ++ [name]

/-- The names without repetitions, each at its first place. -/
def distinct (names : List String) : List String :=
  names.foldl addName []

/-- The table with `value` at `key`: in place of the value that stood there, or at the end. -/
def insert {α : Type} (key : String) (value : α) : List (String × α) → List (String × α)
  | [] => [(key, value)]
  | entry :: rest =>
    if entry.1 = key then (key, value) :: rest else entry :: insert key value rest

theorem mem_addName {names : List String} {name other : String} :
    other ∈ addName names name ↔ other ∈ names ∨ other = name := by
  unfold addName
  split
  · rename_i h
    have hmem : name ∈ names := List.contains_iff_mem.mp h
    constructor
    · exact Or.inl
    · rintro (hother | rfl)
      · exact hother
      · exact hmem
  · simp

theorem nodup_addName {names : List String} (name : String) (h : names.Nodup) :
    (addName names name).Nodup := by
  unfold addName
  split
  · exact h
  · rename_i hnot
    have hmem : name ∉ names := fun hin => hnot (List.contains_iff_mem.mpr hin)
    refine List.nodup_append.mpr ⟨h, List.nodup_cons.mpr ⟨List.not_mem_nil, List.nodup_nil⟩, ?_⟩
    intro a ha b hb
    have hb : b = name := List.mem_singleton.mp hb
    intro hab
    exact hmem (hb ▸ hab ▸ ha)

/-- Adding names one by one keeps those that are there and brings the others. -/
theorem mem_foldl_addName {names start : List String} {other : String} :
    other ∈ names.foldl addName start ↔ other ∈ start ∨ other ∈ names := by
  induction names generalizing start with
  | nil => simp
  | cons name rest ih => simp [ih, mem_addName, or_assoc]

theorem nodup_foldl_addName {names start : List String} (h : start.Nodup) :
    (names.foldl addName start).Nodup := by
  induction names generalizing start with
  | nil => exact h
  | cons name rest ih => exact ih (nodup_addName name h)

/-- The same names as before. -/
@[simp] theorem mem_distinct {names : List String} {name : String} :
    name ∈ distinct names ↔ name ∈ names := by
  simp [distinct, mem_foldl_addName]

/-- Each name once. -/
theorem nodup_distinct (names : List String) : (distinct names).Nodup :=
  nodup_foldl_addName List.nodup_nil

@[simp] theorem lookup_insert_self {α : Type} (key : String) (value : α)
    (table : List (String × α)) : (insert key value table).lookup key = some value := by
  induction table with
  | nil => simp [insert]
  | cons entry rest ih =>
    obtain ⟨name, old⟩ := entry
    by_cases h : name = key
    · simp [insert, h]
    · have hkey : (key == name) = false := beq_eq_false_iff_ne.mpr (Ne.symm h)
      simp [insert, h, List.lookup_cons, hkey, ih]

theorem lookup_insert_of_ne {α : Type} {key other : String} (value : α)
    (table : List (String × α)) (h : other ≠ key) :
    (insert key value table).lookup other = table.lookup other := by
  have hkey : (other == key) = false := beq_eq_false_iff_ne.mpr h
  induction table with
  | nil => simp [insert, List.lookup_cons, hkey]
  | cons entry rest ih =>
    obtain ⟨name, old⟩ := entry
    by_cases he : name = key
    · simp [insert, he, List.lookup_cons, hkey]
    · simp [insert, he, List.lookup_cons, ih]

theorem mem_of_lookup {α : Type} {key : String} {value : α} {table : List (String × α)}
    (h : table.lookup key = some value) : (key, value) ∈ table := by
  obtain ⟨before, after, htable, _⟩ := List.lookup_eq_some_iff.mp h
  rw [htable]
  exact List.mem_append_right _ List.mem_cons_self

/-- In a table with distinct keys every entry is found by its key. -/
theorem lookup_of_mem {α : Type} {key : String} {value : α} {table : List (String × α)}
    (hkeys : (table.map Prod.fst).Nodup) (h : (key, value) ∈ table) :
    table.lookup key = some value := by
  obtain ⟨before, after, htable⟩ := List.append_of_mem h
  subst htable
  refine List.lookup_eq_some_iff.mpr ⟨before, after, rfl, fun entry hentry => ?_⟩
  rw [List.map_append, List.map_cons, List.nodup_append] at hkeys
  have hne : entry.1 ≠ key :=
    hkeys.2.2 entry.1 (List.mem_map_of_mem hentry) key List.mem_cons_self
  simpa using Ne.symm hne

end ScriptCompiler.Ordered
