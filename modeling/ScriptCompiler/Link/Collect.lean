import ScriptCompiler.Link.Finding
import ScriptCompiler.Link.Placement
import ScriptCompiler.Namespace.Imports

/-!
# Collecting declarations

The namespaces and imports of all files, gathered from their placed statements. What breaks the
rules on main namespaces is noticed in standard mode only.
-/

namespace ScriptCompiler

/-- The tables of a compilation and what was found while they were filled. -/
structure Collected where
  table : NamespaceTable
  imports : ImportTable
  findings : List Finding

/-- What is noticed about main namespaces in this mode. -/
def Mode.enforce (findings : List Finding) : Mode → List Finding
  | .standard => findings
  | .repl => []

namespace Collected

def empty : Collected := ⟨.empty, .empty, []⟩

/-- A file enters a namespace, which may be its main one. -/
def enter (mode : Mode) (c : Collected) (file : String) (span : Span) (decl : NamespaceDecl) :
    Collected :=
  let path := decl.cleanName
  if decl.isMain then
    { c with
      table := c.table.markMain path file
      findings := c.findings ++ mode.enforce
        ((c.table.mainFile? path).map (Finding.duplicateMain file span path)).toList }
  else { c with table := c.table.declare path file }

/-- A declaration is registered in its namespace. -/
def register (c : Collected) (file path : String) (kind : EntryKind) (name : Ident) : Collected :=
  { c with
    table := c.table.define path ⟨kind, name.name, uniqueName path name.name, file, name.span⟩
    findings := c.findings ++
      ((c.table.lookup path name.name).map
        (Finding.redeclared file name.span kind name.name)).toList }

/-- The contribution of one statement. -/
def add (mode : Mode) (c : Collected) (p : Placed) : Collected :=
  match p.stmt with
  | .namespaceDecl span decl => c.enter mode p.file span decl
  | .usingDecl span decl =>
    { c with imports := c.imports.record p.file ⟨decl.target, decl.isGlobal, span⟩ }
  | s =>
    match s.declared? with
    | some (kind, name) => c.register p.file p.path kind name
    | none => c

end Collected

def namespaceDecls (stmts : List Stmt) : List NamespaceDecl :=
  stmts.filterMap fun
    | .namespaceDecl _ decl => some decl
    | _ => none

/-- What is wrong with the namespace declarations of a file: exactly one has to be a main one. -/
def mainFinding? (file : String) (stmts : List Stmt) : Option Finding :=
  match namespaceDecls stmts with
  | [] => some (.namespaceMissing file)
  | decls =>
    match decls.filter NamespaceDecl.isMain with
    | [] => some (.mainMissing file)
    | [_] => none
    | _ => some (.manyMains file)

/-- The contribution of one file: its statements, then the rule on its main namespace. -/
def Collected.addFile (mode : Mode) (c : Collected) (file : String) (stmts : List Stmt) :
    Collected :=
  let filled := (placeStmts file "" stmts).foldl (Collected.add mode) c
  { filled with findings := filled.findings ++ mode.enforce (mainFinding? file stmts).toList }

end ScriptCompiler
