import ScriptCompiler.Link.Program
import ScriptCompiler.Script.Generate

/-!
# Compiling

A compilation links its files and generates the script, unless an error was found. Warnings do not
prevent a script.
-/

namespace ScriptCompiler

/-- What a compilation can be asked for. -/
structure CompileOptions where
  format : Script.Format := .plain
  optimize : Bool := false
  debug : Bool := false
  memberCalls : MemberCallPolicy := .warn
  sourceMap : Bool := false
  /-- The name of the script that a source map records. -/
  outFile : String := "out.js"
deriving Inhabited

namespace CompileOptions

def script (options : CompileOptions) : Script.Options :=
  ⟨options.format, options.optimize, options.debug,
    if options.sourceMap then some options.outFile else none⟩

def rules (options : CompileOptions) (mode : Mode) : Rules :=
  ⟨mode, options.memberCalls⟩

end CompileOptions

/-- The result of a compilation. The diagnostics are errors first, then warnings. -/
structure CompileResult where
  success : Bool
  code? : Option String
  diagnostics : List Diagnostic
  sourceMap? : Option SourceMap
deriving Inhabited

namespace CompileResult

def failed (diagnostics : List Diagnostic) : CompileResult :=
  ⟨false, none, diagnostics, none⟩

def errors (result : CompileResult) : List Diagnostic :=
  result.diagnostics.filter Diagnostic.isError

def warnings (result : CompileResult) : List Diagnostic :=
  result.diagnostics.filter fun d => !d.isError

end CompileResult

def finish (options : CompileOptions) (linked : Linked) (findings : List Finding) :
    CompileResult :=
  let diagnostics := Diagnostics.ofFindings findings
  if diagnostics.hasErrors then .failed diagnostics.toList
  else
    let generated := Script.generate options.script linked.files linked.program
    ⟨true, some generated.code, diagnostics.toList, generated.sourceMap?⟩

/-- The compilation of files, unless one of them cannot be tokenized. -/
def compile (sources : Sources) (mode : Mode) (options : CompileOptions) :
    Except LinkError CompileResult :=
  match link (options.rules mode) sources with
  | .error e => .error e
  | .ok (linked, findings) => .ok (finish options linked findings)

def replFile : String := "<repl>"

/-- The compilation of one text, for which namespaces are optional. -/
def compileSource (text : String) (options : CompileOptions) : Except LinkError CompileResult :=
  compile (Sources.ofList [(replFile, text)]) .repl options

def LinkError.compileMessage (e : LinkError) : String :=
  "lex error in " ++ e.file ++ ": " ++ e.error.message

end ScriptCompiler
