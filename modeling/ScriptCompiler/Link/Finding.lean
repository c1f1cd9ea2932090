import ScriptCompiler.Diagnostic.Basic
import ScriptCompiler.Grammar.Cursor
import ScriptCompiler.Namespace.Table

/-!
# Findings

What linking notices about the files of a compilation. The rules that the compilation was asked to
follow decide whether some things are noticed at all and how serious they are taken.
-/

namespace ScriptCompiler

/-- In standard mode every file declares exactly one main namespace. -/
inductive Mode where
  | standard | repl
deriving DecidableEq, Repr, Inhabited

/-- What becomes of a bare call that names a member of the enclosing class. -/
inductive MemberCallPolicy where
  | warn | ignore | error
deriving DecidableEq, Repr, Inhabited

/-- The rules of a compilation. -/
structure Rules where
  mode : Mode
  memberCalls : MemberCallPolicy
deriving DecidableEq, Repr, Inhabited

/-- What linking notices. Each finding but a cycle names its file; a cycle is a path of files whose
    last one is its first one. -/
inductive Finding where
  | unparsable (file : String) (error : ParseError)
  | cycle (path : List String)
  | duplicateMain (file : String) (span : Span) (name first : String)
  | redeclared (file : String) (span : Span) (kind : EntryKind) (name : String) (previous : Entry)
  | namespaceMissing (file : String)
  | mainMissing (file : String)
  | manyMains (file : String)
  | awaitingConstructor (file : String) (span : Span) (className : String)
  | implicitMemberCall (file : String) (span : Span) (callee className : String)
    (severity : Severity)
  | qualifiedReference (file uniqueName : String)

namespace Finding

/-- How serious a finding is taken. A reference to a qualified name is nothing to report. -/
def severity? : Finding → Option Severity
  | .unparsable .. | .duplicateMain .. | .namespaceMissing .. | .mainMissing .. | .manyMains ..
  | .awaitingConstructor .. => some .error
  | .cycle .. | .redeclared .. => some .warning
  | .implicitMemberCall _ _ _ _ severity => some severity
  | .qualifiedReference .. => none

def message : Finding → String
  | .unparsable _ error => error.detail
  | .cycle path => "circular dependency: " ++ Text.joinWith " -> " path
  | .duplicateMain _ _ name first =>
    "duplicate main namespace '" ++ name ++ "' (already declared in '" ++ first ++ "')"
  | .redeclared _ _ kind name previous =>
    kind.text ++ " '" ++ name ++ "' redeclares " ++ previous.kind.text ++ " from '" ++ previous.file
      ++ "'"
  | .namespaceMissing _ => "file does not declare a namespace"
  | .mainMissing _ => "file does not declare a main namespace (mark one with '!')"
  | .manyMains _ => "file declares more than one main namespace"
  | .awaitingConstructor _ _ className =>
    "constructor of '" ++ className ++ "' cannot use 'await'"
  | .implicitMemberCall _ _ callee className _ =>
    "call to '" ++ callee ++ "' inside class '" ++ className
      ++ "' refers to a class member; use 'self." ++ callee ++ "' or 'Self::" ++ callee ++ "'"
  | .qualifiedReference _ uniqueName => "reference to " ++ uniqueName

/-- The file that a finding is about; a cycle is reported for its first file. -/
def file : Finding → String
  | .unparsable file .. | .duplicateMain file .. | .redeclared file .. | .namespaceMissing file
  | .mainMissing file | .manyMains file | .awaitingConstructor file .. | .implicitMemberCall file ..
  | .qualifiedReference file .. => file
  | .cycle path => path.headD ""

/-- The place of a finding, if it is not about a file as a whole. -/
def span? : Finding → Option Span
  | .unparsable _ error => some error.span
  | .duplicateMain _ span .. | .redeclared _ span .. | .awaitingConstructor _ span ..
  | .implicitMemberCall _ span .. => some span
  | .cycle .. | .namespaceMissing .. | .mainMissing .. | .manyMains .. | .qualifiedReference .. =>
    none

def diagnostic? (finding : Finding) : Option Diagnostic :=
  finding.severity?.map fun severity =>
    match finding.span? with
    | some span => ⟨severity, finding.message, span.line, span.column, finding.file⟩
    | none => .ofFile severity finding.message finding.file

end Finding

/-- The diagnostics of findings, in their order. -/
def Diagnostics.ofFindings (findings : List Finding) : Diagnostics :=
  .ofList (findings.filterMap Finding.diagnostic?)

end ScriptCompiler
