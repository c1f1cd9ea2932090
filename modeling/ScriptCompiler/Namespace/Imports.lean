import ScriptCompiler.Ordered
import ScriptCompiler.Source.Position

/-!
# Imports

The imports of each file in the order of their declaration. Global imports hold for every file and
are searched after a file's own imports.
-/

namespace ScriptCompiler

/-- An imported namespace. -/
structure Import where
  target : String
  isGlobal : Bool
  span : Span
deriving DecidableEq, Repr, Inhabited

/-- The imports of all files. -/
structure ImportTable where
  files : List (String × List Import)
deriving Inhabited

namespace ImportTable

def empty : ImportTable := ⟨[]⟩

def imports (table : ImportTable) (file : String) : List Import :=
  (table.files.lookup file).getD []

def record (table : ImportTable) (file : String) (entry : Import) : ImportTable :=
  ⟨Ordered.insert file (table.imports file ++ [entry]) table.files⟩

def globals (table : ImportTable) : List String :=
  Ordered.distinct (((table.files.flatMap Prod.snd).filter Import.isGlobal).map Import.target)

/-- The namespaces that unqualified names of a file are searched in: its own imports, then all
    global ones. -/
def searchPath (table : ImportTable) (file : String) : List String :=
  let own := ((table.imports file).filter fun entry => !entry.isGlobal).map Import.target
  Ordered.distinct (own ++ table.globals)

end ImportTable

end ScriptCompiler
