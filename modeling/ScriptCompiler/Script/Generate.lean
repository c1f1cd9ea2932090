import ScriptCompiler.Ordered
import ScriptCompiler.Script.Emit

/-!
# Generating a script

The script of a program is the rows of its statements in order. Options add a remark before each
statement, a list of exports at the end, and a source map.
-/

namespace ScriptCompiler

mutual

/-- The emitted names of the classes that a statement declares, also inside the bodies of its
    functions and methods. -/
def Stmt.declaredClasses : Stmt → List String
  | .classDecl _ ⟨_, name, _, _, members, uniqueName?⟩ =>
    uniqueName?.getD name.name :: declaredInMembers members
  | .function _ _ _ _ _ ⟨stmts, _⟩ _ => ScriptCompiler.declaredClasses stmts
  | .block _ ⟨stmts, _⟩ => ScriptCompiler.declaredClasses stmts
  | .whileLoop _ _ ⟨stmts, _⟩ => ScriptCompiler.declaredClasses stmts
  | .untilLoop _ _ ⟨stmts, _⟩ => ScriptCompiler.declaredClasses stmts
  | .ifElse _ _ ⟨stmts, _⟩ elseBranch =>
    ScriptCompiler.declaredClasses stmts ++ elseBranch.declaredClasses
  | _ => []

/-- The emitted names of the classes that the statements declare. -/
def declaredClasses : List Stmt → List String
  | [] => []
  | s :: rest => s.declaredClasses ++ declaredClasses rest

/-- The emitted names of the classes that the rest of a conditional declares. -/
def ElseBranch.declaredClasses : ElseBranch → List String
  | .none => []
  | .block ⟨stmts, _⟩ => ScriptCompiler.declaredClasses stmts
  | .elseIf _ ⟨stmts, _⟩ elseBranch =>
    ScriptCompiler.declaredClasses stmts ++ elseBranch.declaredClasses

/-- The emitted names of the classes that the bodies of methods declare. -/
def declaredInMembers : List Member → List String
  | [] => []
  | .method _ _ _ _ _ (some ⟨stmts, _⟩) :: rest => declaredClasses stmts ++ declaredInMembers rest
  | _ :: rest => declaredInMembers rest

end

/-- The emitted name of a declaration that other scripts can import. -/
def Stmt.exportName? : Stmt → Option String
  | .letDecl _ name _ _ uniqueName? => some (uniqueName?.getD name.name)
  | .function _ name _ _ _ _ uniqueName? => some (uniqueName?.getD name.name)
  | .classDecl _ decl => some decl.emittedName
  | .foreignDecl _ decl =>
    let name := decl.uniqueName?.getD decl.name.name
    if name = decl.target then none else some name
  | _ => none

/-- Namespace and using declarations do nothing when the script runs. -/
def Stmt.isInert : Stmt → Bool
  | .namespaceDecl .. | .usingDecl .. => true
  | _ => false

namespace Script

open Text (joinWith)

/-- Plain statements, or statements followed by a list of exports. -/
inductive Format where
  | plain | module
deriving DecidableEq, Repr, Inhabited

/-- The shape of the generated script. -/
structure Options where
  format : Format := .plain
  /-- Leave out the remarks for namespace and using declarations. -/
  optimize : Bool := false
  /-- Precede every statement by a remark on its file and line. -/
  debug : Bool := false
  /-- The name of the script to record in a source map; without one there is no map. -/
  mapFile? : Option String := none
deriving Inhabited

/-- A script and its source map, if one was asked for. -/
structure Generated where
  code : String
  /-- Number of mappings. -/
  mappingCount : Nat
  sourceMap? : Option SourceMap
deriving Inhabited

def banner (files : List String) (s : Stmt) : Row :=
  ⟨0, "// " ++ files.getD s.span.file "<input>" ++ ":" ++ toString s.span.line, none⟩

/-- The rows of a statement of the program, with the remark before it. -/
def topLevelRows (options : Options) (files : List String) (ctx : Context) (s : Stmt) : List Row :=
  if options.optimize && s.isInert then []
  else (if options.debug then [banner files s] else []) ++ s.rows ctx

def exportRows (options : Options) (stmts : List Stmt) : List Row :=
  match options.format, Ordered.distinct (stmts.filterMap Stmt.exportName?) with
  | .module, name :: names =>
    [⟨0, "export \x7b " ++ joinWith ", " (name :: names) ++ " \x7d;", none⟩]
  | _, _ => []

def programRows (options : Options) (files : List String) (program : Program) : List Row :=
  let ctx : Context := ⟨0, none, declaredClasses program.stmts, options.optimize⟩
  program.stmts.flatMap (topLevelRows options files ctx) ++ exportRows options program.stmts

/-- The script of a program. The list `files` names the source files by their numbers. -/
def generate (options : Options) (files : List String) (program : Program) : Generated :=
  let rows := programRows options files program
  match options.mapFile? with
  | none => ⟨Row.code rows, 0, none⟩
  | some file =>
    let mappings := Row.mappings rows
    ⟨Row.code rows, mappings.length, some (SourceMap.build file files mappings)⟩

end Script

end ScriptCompiler
