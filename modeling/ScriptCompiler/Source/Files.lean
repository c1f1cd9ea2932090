/-!
# Source files

The files of one compilation, in the order of their names. The number of a file is its place in that
order.
-/

namespace ScriptCompiler

/-- Adds an entry to entries ordered by name, or replaces the entry of that name. -/
def insertByName (name text : String) : List (String × String) → List (String × String)
  | [] => [(name, text)]
  | entry :: rest =>
    if name < entry.1 then (name, text) :: entry :: rest
    else if name = entry.1 then (name, text) :: rest
    else entry :: insertByName name text rest

/-- Only the new name can join the names of the entries. -/
theorem mem_insertByName {name text : String} {entries : List (String × String)}
    {entry : String × String} (h : entry ∈ insertByName name text entries) :
    entry = (name, text) ∨ entry ∈ entries := by
  induction entries with
  | nil => simpa [insertByName] using h
  | cons head rest ih =>
    simp only [insertByName] at h
    split at h
    · simpa using h
    · split at h
      · rcases List.mem_cons.mp h with h | h
        · exact Or.inl h
        · exact Or.inr (List.mem_cons_of_mem _ h)
      · rcases List.mem_cons.mp h with h | h
        · exact Or.inr (h ▸ List.mem_cons_self)
        · exact (ih h).imp id (List.mem_cons_of_mem _)

/-- Insertion keeps the names in strictly increasing order. -/
theorem pairwise_insertByName (name text : String) {entries : List (String × String)}
    (h : entries.Pairwise (·.1 < ·.1)) :
    (insertByName name text entries).Pairwise (·.1 < ·.1) := by
  induction entries with
  | nil => simp [insertByName]
  | cons head rest ih =>
    obtain ⟨hhead, hrest⟩ := List.pairwise_cons.mp h
    simp only [insertByName]
    split
    · rename_i hlt
      refine List.pairwise_cons.mpr ⟨fun entry hmem => ?_, h⟩
      rcases List.mem_cons.mp hmem with rfl | hmem
      · exact hlt
      · exact String.lt_trans hlt (hhead entry hmem)
    · split
      · rename_i heq
        exact List.pairwise_cons.mpr ⟨fun entry hmem => heq ▸ hhead entry hmem, hrest⟩
      · rename_i hlt hne
        refine List.pairwise_cons.mpr ⟨fun entry hmem => ?_, ih hrest⟩
        rcases mem_insertByName hmem with rfl | hmem
        · rcases Decidable.em (head.1 < name) with hgt | hgt
          · exact hgt
          · exact absurd (String.le_antisymm (String.not_lt.mp hgt) (String.not_lt.mp hlt)) hne
        · exact hhead entry hmem

/-- File names with their texts, in strictly increasing order of the names. -/
structure Sources where
  entries : List (String × String)
  ordered : entries.Pairwise (·.1 < ·.1)

namespace Sources

def empty : Sources := ⟨[], List.Pairwise.nil⟩

/-- Adds a file, or replaces the text of the file of that name. -/
def insert (sources : Sources) (name text : String) : Sources :=
  ⟨insertByName name text sources.entries, pairwise_insertByName name text sources.ordered⟩

/-- The files of a list; of two files with the same name the later one counts. -/
def ofList (files : List (String × String)) : Sources :=
  files.foldl (fun sources file => sources.insert file.1 file.2) empty

def names (sources : Sources) : List String :=
  sources.entries.map Prod.fst

def text? (sources : Sources) (name : String) : Option String :=
  sources.entries.lookup name

end Sources

end ScriptCompiler
