import ScriptCompiler.Ordered
import ScriptCompiler.Source.Position

/-!
# The namespace table

The namespaces of a compilation with the declarations of each, in the order in which they were first
seen. A later declaration of the same name takes the place of the earlier one.
-/

namespace ScriptCompiler

/-- What a declaration declares. -/
inductive EntryKind where
  | value | function | classType | foreign
deriving DecidableEq, Repr, Inhabited

def EntryKind.text : EntryKind → String
  | .value => "variable"
  | .function => "function"
  | .classType => "class"
  | .foreign => "foreign function"

/-- A declaration registered under a namespace. -/
structure Entry where
  kind : EntryKind
  name : String
  uniqueName : String
  file : String
  span : Span
deriving DecidableEq, Repr, Inhabited

/-- The declarations of a namespace, the files that contribute to it, and the first file that marked
    it as its main namespace. -/
structure Namespace where
  entries : List (String × Entry)
  files : List String
  mainFile? : Option String
deriving Inhabited

/-- A namespace that nothing contributes to. -/
def Namespace.empty : Namespace := ⟨[], [], none⟩

/-- All namespaces of a compilation by their paths. -/
structure NamespaceTable where
  namespaces : List (String × Namespace)
deriving Inhabited

namespace NamespaceTable

def empty : NamespaceTable := ⟨[]⟩

def get? (table : NamespaceTable) (path : String) : Option Namespace :=
  table.namespaces.lookup path

def lookup (table : NamespaceTable) (path name : String) : Option Entry :=
  (table.get? path).bind fun space => space.entries.lookup name

def size (table : NamespaceTable) : Nat :=
  table.namespaces.length

/-- Changes a namespace, which is created if it is new. -/
def modify (table : NamespaceTable) (path : String) (f : Namespace → Namespace) : NamespaceTable :=
  ⟨Ordered.insert path (f ((table.get? path).getD Namespace.empty)) table.namespaces⟩

/-- The file `file` contributes to a namespace. -/
def declare (table : NamespaceTable) (path file : String) : NamespaceTable :=
  table.modify path fun space => { space with files := Ordered.addName space.files file }

def mainFile? (table : NamespaceTable) (path : String) : Option String :=
  (table.get? path).bind Namespace.mainFile?

/-- The file `file` marks a namespace as its main one, unless another mark came first. -/
def markMain (table : NamespaceTable) (path file : String) : NamespaceTable :=
  (table.declare path file).modify path fun space =>
    { space with mainFile? := some (space.mainFile?.getD file) }

/-- Registers a declaration; it takes the place of an earlier one with the same name. -/
def define (table : NamespaceTable) (path : String) (entry : Entry) : NamespaceTable :=
  (table.declare path entry.file).modify path fun space =>
    { space with entries := Ordered.insert entry.name entry space.entries }

end NamespaceTable

end ScriptCompiler
