import ScriptCompiler.Namespace.Table
import ScriptCompiler.Namespace.UniqueName
import ScriptCompiler.Syntax.Basic

/-!
# Scopes

What a name refers to. Locals come first; then an unqualified name is searched in the namespace of
its statement, in the imported ones and outside every namespace. A qualified name is looked up in
the namespace that it spells.
-/

namespace ScriptCompiler

/-- The namespaces that the names of a statement are searched in. -/
structure Environment where
  table : NamespaceTable
  path : String
  search : List String

namespace Environment

/-- The namespaces of an unqualified name, in the order of the search. -/
def candidates (env : Environment) : List String :=
  env.path :: env.search ++ [""]

/-- The declaration that a name refers to when no local has it. -/
def entry? (env : Environment) (name : String) : Option Entry :=
  match splitQualified name with
  | some (path, last) => env.table.lookup path last
  | none => env.candidates.findSome? fun path => env.table.lookup path name

/-- The unique name of the declaration that a name refers to. Locals, `self` and `Self` refer to
    none. -/
def resolve? (env : Environment) (locals : List String) (name : String) : Option String :=
  if name = "self" ∨ name = "Self" ∨ name ∈ locals then none
  else (env.entry? name).map Entry.uniqueName

/-- The name to write for a reference. -/
def resolve (env : Environment) (locals : List String) (name : String) : String :=
  (env.resolve? locals name).getD name

def resolveIdent (env : Environment) (locals : List String) (ident : Ident) : Ident :=
  { ident with name := env.resolve locals ident.name }

end Environment

def paramNames (params : List Param) : List String :=
  params.map fun param => param.name.name

/-- The locals that a statement of a block can see of itself. -/
def Stmt.boundBefore : Stmt → List String
  | .function _ name .. => [name.name]
  | .classDecl _ ⟨_, name, _, _, _, _⟩ => [name.name]
  | _ => []

/-- The locals that a statement of a block brings for what follows it. -/
def Stmt.boundAfter : Stmt → List String
  | .letDecl _ name .. => [name.name]
  | .function _ name .. => [name.name]
  | .classDecl _ ⟨_, name, _, _, _, _⟩ => [name.name]
  | _ => []

/-- The qualified name that an expression spells, if it is a chain of names joined by `::`. -/
def Expr.staticPath? : Expr → Option String
  | .name _ ident => if ident.name = "self" ∨ ident.name = "Self" then none else some ident.name
  | .staticMember _ receiver member => receiver.staticPath?.map (· ++ "::" ++ member.name)
  | _ => none

/-- The unique name of the declaration that a chain `receiver::member` refers to as a whole. -/
def Environment.resolveStatic? (env : Environment) (locals : List String) (receiver : Expr)
    (member : Ident) : Option String :=
  receiver.staticPath?.bind fun path => env.resolve? locals (path ++ "::" ++ member.name)

end ScriptCompiler
