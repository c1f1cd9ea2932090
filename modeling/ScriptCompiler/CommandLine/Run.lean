import ScriptCompiler.CommandLine.Arguments
import ScriptCompiler.CommandLine.Listing
import ScriptCompiler.CommandLine.Log
import ScriptCompiler.Diagnostic.Report

/-!
# Running a command

A command first reads its files and then makes a plan: what to print, and which files to write. The
plan is a function of the texts that were read. Files are reached through `FileAccess`, so that a
run is the same in a real folder and in one held in memory.
-/

namespace ScriptCompiler.CommandLine

open Text (concat)

/-- Why a file cannot be read or written. -/
inductive FileError where
  | missing
  | notFolder
  | isFolder
  | notText
  | other (reason : String)
deriving DecidableEq, Repr, Inhabited

def FileError.message : FileError → String
  | .missing => "No such file or directory (os error 2)"
  | .notFolder => "Not a directory (os error 20)"
  | .isFolder => "Is a directory (os error 21)"
  | .notText => "stream did not contain valid UTF-8"
  | .other reason => reason

/-- How files are read and written. -/
structure FileAccess (m : Type → Type) where
  read : String → m (Except FileError String)
  write : String → String → m (Except FileError Unit)

/-- What a command line leads to: an exit code and what is printed. -/
structure Outcome where
  exit : Nat
  stdout : String
  stderr : String
deriving DecidableEq, Repr, Inhabited

/-- What a command prints and writes. The text `farewell` is printed to the error stream after all
    files have been written. -/
structure Plan where
  success : Bool
  stdout : String
  stderr : String
  writes : List (String × String) := []
  farewell : String := ""
deriving Inhabited

def Verbosity.shows : Verbosity → Level → Bool
  | .silent, _ => false
  | .debug, .trace => false
  | _, _ => true

def Verbosity.log (verbosity : Verbosity) (events : List Event) : String :=
  concat ((events.filter fun event => verbosity.shows event.level).map Event.line)

/-- The reports of diagnostics, each with the source of its file. -/
def reports (sources : Sources) (diagnostics : List Diagnostic) : String :=
  concat (diagnostics.map fun d => d.render (sources.text? d.file))

def mapPath (output : String) : String :=
  output ++ ".map"

def mapReference (output : String) : String :=
  match fileName? (mapPath output) with
  | some name => "//# sourceMappingURL=" ++ name ++ "\n"
  | none => ""

/-- The files of a successful build: the source map, then the script that names it. -/
def buildWrites (output code : String) : Option SourceMap → List (String × String)
  | none => [(output, code)]
  | some map => [(mapPath output, map.toJson.compact), (output, code ++ mapReference output)]

def failureLine (errors : Nat) : String :=
  "build failed with " ++ toString errors ++ " error" ++ (if errors = 1 then "" else "s") ++ "\n"

namespace BuildRequest

def planOfResult (request : BuildRequest) (verbosity : Verbosity) (log : String)
    (sources : Sources) (result : CompileResult) : Plan :=
  if request.json then ⟨result.success, result.toJson.indented ++ "\n", log, [], ""⟩
  else
    let shown := log ++ reports sources result.diagnostics
    match result.code?, request.output? with
    | none, _ => ⟨false, "", shown ++ failureLine result.errors.length, [], ""⟩
    | some code, none => ⟨true, code, shown, [], ""⟩
    | some code, some output =>
      ⟨true, "", shown, buildWrites output code result.sourceMap?,
        verbosity.log [wroteEvent output]⟩

def plan (request : BuildRequest) (verbosity : Verbosity) (sources : Sources) : Plan :=
  let log := verbosity.log (compileEvents sources request.mode request.options)
  match compile sources request.mode request.options with
  | .ok result => request.planOfResult verbosity log sources result
  | .error e =>
    if request.json then
      ⟨false, (CompileResult.failed [e.diagnostic]).toJson.indented ++ "\n", log, [], ""⟩
    else ⟨false, "", log ++ reports sources [e.diagnostic], [], ""⟩

end BuildRequest

def lexPlan (path text : String) : Plan :=
  let heading := fileHeading "Lexer" path
  match tokenize text with
  | .error e => ⟨false, heading, "Lexer error: " ++ e.message ++ "\n", [], ""⟩
  | .ok lexemes => ⟨true, heading ++ tokenListing lexemes, "", [], ""⟩

def parsePlan (path text : String) : Plan :=
  let heading := fileHeading "Parser" path
  match tokenize text with
  | .error e => ⟨false, heading, "Lexer error: " ++ e.message ++ "\n", [], ""⟩
  | .ok lexemes =>
    match parseProgram lexemes with
    | .ok program => ⟨true, heading ++ programListing program, "", [], ""⟩
    | .error e =>
      let d : Diagnostic := ⟨.error, e.detail, e.span.line, e.span.column, path⟩
      ⟨false, heading, d.render (some text), [], ""⟩

def resolvePlan (verbosity : Verbosity) (mode : Mode) (sources : Sources) : Plan :=
  let rules : Rules := ⟨mode, .warn⟩
  let log := verbosity.log (linkEvents rules sources)
  match link rules sources with
  | .error e => ⟨false, "", log ++ e.message ++ "\n", [], ""⟩
  | .ok (linked, findings) =>
    let diagnostics := Diagnostics.ofFindings findings
    ⟨!diagnostics.hasErrors, linkListing linked, log ++ reports sources diagnostics.toList, [], ""⟩

namespace Command

def inputs : Command → List String
  | .build request => request.files
  | .lex file | .parse file => [file]
  | .resolve files _ => files

def plan (verbosity : Verbosity) (texts : List (String × String)) : Command → Plan
  | .build request => request.plan verbosity (.ofList texts)
  | .lex file => lexPlan file ((texts.lookup file).getD "")
  | .parse file => parsePlan file ((texts.lookup file).getD "")
  | .resolve _ mode => resolvePlan verbosity mode (.ofList texts)

end Command

def fileErrorLine (verb path : String) (e : FileError) : String :=
  "error: failed to " ++ verb ++ " '" ++ path ++ "': " ++ e.message ++ "\n"

/-- Reads files in order, up to the first one that cannot be read. -/
def readAll {m : Type → Type} [Monad m] (access : FileAccess m) :
    List String → m (Except String (List (String × String)))
  | [] => pure (.ok [])
  | path :: rest => do
    match ← access.read path with
    | .error e => return .error (fileErrorLine "read" path e)
    | .ok text => return (← readAll access rest).map ((path, text) :: ·)

/-- Writes files in order, up to the first one that cannot be written. -/
def writeAll {m : Type → Type} [Monad m] (access : FileAccess m) :
    List (String × String) → m (Except String Unit)
  | [] => pure (.ok ())
  | (path, text) :: rest => do
    match ← access.write path text with
    | .error e => return .error (fileErrorLine "write" path e)
    | .ok () => writeAll access rest

def execute {m : Type → Type} [Monad m] (access : FileAccess m) (verbosity : Verbosity)
    (command : Command) : m Outcome := do
  match ← readAll access command.inputs with
  | .error line => return ⟨1, "", line⟩
  | .ok texts =>
    let plan := command.plan verbosity texts
    match ← writeAll access plan.writes with
    | .error line => return ⟨1, plan.stdout, plan.stderr ++ line⟩
    | .ok () => return ⟨if plan.success then 0 else 1, plan.stdout, plan.stderr ++ plan.farewell⟩

def versionText : String := "tern 0.1.0\n"

/-- What is printed for a command line that cannot be understood. -/
def usageText : String :=
  "error: invalid arguments\n\nUsage: tern [-v|-q] <build|lex|parse|resolve> [OPTIONS] [FILES]\n"

def run {m : Type → Type} [Monad m] (access : FileAccess m) (words : List String) : m Outcome :=
  match Invocation.ofWords words with
  | .usageError => pure ⟨2, "", usageText⟩
  | .version => pure ⟨0, versionText, ""⟩
  | .run verbosity command => execute access verbosity command

end ScriptCompiler.CommandLine
