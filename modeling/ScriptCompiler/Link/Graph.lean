import ScriptCompiler.Ordered
import ScriptCompiler.Syntax.Basic

/-!
# The dependency graph

A file depends on the files that declare the namespaces it imports. Of several files that declare a
namespace the first one is its provider. Global imports count for every file, after its own.
-/

namespace ScriptCompiler

/-- A file and its program. -/
structure ParsedFile where
  name : String
  program : Program

namespace ParsedFile

def declared (file : ParsedFile) : List String :=
  file.program.stmts.filterMap fun
    | .namespaceDecl _ decl => some decl.cleanName
    | _ => none

def imports (file : ParsedFile) : List UsingDecl :=
  file.program.stmts.filterMap fun
    | .usingDecl _ decl => some decl
    | _ => none

end ParsedFile

/-- The dependencies of each file, in the order of the files. -/
structure Graph where
  edges : List (String × List String)
deriving DecidableEq, Repr, Inhabited

namespace Graph

/-- The declared namespaces, each with the file that declares it. The first pair of a namespace
    names its provider. -/
def providers (files : List ParsedFile) : List (String × String) :=
  files.flatMap fun file => file.declared.map fun path => (path, file.name)

/-- The targets of the global imports of all files. -/
def globalTargets (files : List ParsedFile) : List String :=
  (files.flatMap ParsedFile.imports |>.filter UsingDecl.isGlobal).map UsingDecl.target

/-- The files that provide the imports of a file, itself excepted. -/
def dependenciesOf (files : List ParsedFile) (file : ParsedFile) : List String :=
  let targets := file.imports.map UsingDecl.target ++ globalTargets files
  let provided := targets.filterMap fun target => (providers files).lookup target
  Ordered.distinct (provided.filter (· ≠ file.name))

/-- The graph of a list of files. -/
def ofFiles (files : List ParsedFile) : Graph :=
  ⟨files.map fun file => (file.name, dependenciesOf files file)⟩

def dependencies (graph : Graph) (file : String) : List String :=
  (graph.edges.lookup file).getD []

end Graph

end ScriptCompiler
