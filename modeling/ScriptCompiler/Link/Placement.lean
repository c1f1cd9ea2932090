import ScriptCompiler.Namespace.Table
import ScriptCompiler.Namespace.UniqueName
import ScriptCompiler.Syntax.Basic

/-!
# Placement of statements

The top-level statements of all files with the file and the namespace of each, and their order in
the linked program: declarations come before every statement that runs.
-/

namespace ScriptCompiler

/-- What a statement declares in its namespace, and the name. -/
def Stmt.declared? : Stmt → Option (EntryKind × Ident)
  | .foreignDecl _ decl => some (.foreign, decl.name)
  | .letDecl _ name .. => some (.value, name)
  | .function _ name .. => some (.function, name)
  | .classDecl _ decl => some (.classType, decl.name)
  | _ => none

/-- A declaration of the namespace `path` with its unique name. -/
def Stmt.withUniqueName (path : String) : Stmt → Stmt
  | .foreignDecl span decl =>
    .foreignDecl span { decl with uniqueName? := some (uniqueName path decl.name.name) }
  | .letDecl span name type? init? _ =>
    .letDecl span name type? init? (some (uniqueName path name.name))
  | .function span name params returnType? effect? body _ =>
    .function span name params returnType? effect? body (some (uniqueName path name.name))
  | .classDecl span decl =>
    .classDecl span { decl with uniqueName? := some (uniqueName path decl.name.name) }
  | s => s

/-- A top-level statement with its file and the namespace that it belongs to. -/
structure Placed where
  stmt : Stmt
  file : String
  path : String

def Stmt.activePath (active : String) : Stmt → String
  | .namespaceDecl _ decl => decl.cleanName
  | _ => active

/-- The statements of a file in their order. A namespace declaration holds for itself and for what
    follows it; what precedes the first one belongs to `active`. -/
def placeStmts (file active : String) : List Stmt → List Placed
  | [] => []
  | s :: rest =>
    let path := s.activePath active
    ⟨s.withUniqueName path, file, path⟩ :: placeStmts file path rest

/-- The groups of statements of a linked program. -/
inductive Stage where
  | imports | values | functions | classes | actions
deriving DecidableEq, Repr, Inhabited

/-- The stages in their order. -/
def Stage.all : List Stage :=
  [.imports, .values, .functions, .classes, .actions]

def Stmt.stage : Stmt → Stage
  | .namespaceDecl .. | .usingDecl .. | .foreignDecl .. => .imports
  | .letDecl .. => .values
  | .function .. => .functions
  | .classDecl .. => .classes
  | _ => .actions

/-- The statements in the order of their stages; inside a stage they keep their order. -/
def arrange (placed : List Placed) : List Placed :=
  Stage.all.flatMap fun stage => placed.filter fun p => p.stmt.stage == stage

end ScriptCompiler
