import ScriptCompiler.Grammar.Program
import ScriptCompiler.Link.Collect
import ScriptCompiler.Link.Order
import ScriptCompiler.Link.Rewrite
import ScriptCompiler.Source.Files

/-!
# Linking

The files of a compilation become one program: every file is parsed, the files are put in dependency
order, their declarations are registered under unique names, and all references are resolved. A file
that cannot be tokenized stops the compilation; one that cannot be parsed is left out. What is found
on the way depends on the rules of the compilation.
-/

namespace ScriptCompiler

/-- A file that cannot be tokenized. -/
structure LinkError where
  file : String
  error : LexError

def LinkError.message (e : LinkError) : String :=
  e.file ++ ": " ++ e.error.message

def LinkError.diagnostic (e : LinkError) : Diagnostic :=
  ⟨.error, e.error.message, e.error.position.line, e.error.position.column, e.file⟩

/-- What a file reads as. -/
inductive Reading where
  | program (file : ParsedFile)
  | unparsable (file : String) (error : ParseError)
  | untokenized (error : LinkError)

namespace Reading

def ofText (id : Nat) (file text : String) : Reading :=
  match tokenizeFile id text with
  | .error e => .untokenized ⟨file, e⟩
  | .ok lexemes =>
    match parseProgram lexemes with
    | .error e => .unparsable file e
    | .ok tree => .program ⟨file, tree⟩

def parsed? : Reading → Option ParsedFile
  | .program file => some file
  | _ => none

def linkError? : Reading → Option LinkError
  | .untokenized e => some e
  | _ => none

def finding? : Reading → Option Finding
  | .unparsable file e => some (.unparsable file e)
  | _ => none

end Reading

def readFrom (id : Nat) : List (String × String) → List Reading
  | [] => []
  | (file, text) :: rest => Reading.ofText id file text :: readFrom (id + 1) rest

def readFiles (sources : Sources) : List Reading :=
  readFrom 0 sources.entries

/-- The programs of all files that can be parsed and the findings for the others, unless a file
    cannot be tokenized; of several such files the first is named. -/
def parseFiles (sources : Sources) : Except LinkError (List ParsedFile × List Finding) :=
  let readings := readFiles sources
  match readings.findSome? Reading.linkError? with
  | some e => .error e
  | none => .ok (readings.filterMap Reading.parsed?, readings.filterMap Reading.finding?)

def inOrder (order : List String) (files : List ParsedFile) : List ParsedFile :=
  order.filterMap fun name => files.find? (·.name == name)

/-- The tables of files in dependency order. -/
def collect (mode : Mode) (files : List ParsedFile) : Collected :=
  files.foldl (fun c file => c.addFile mode file.name file.program.stmts) .empty

/-- The statements of files in dependency order, arranged for the linked program. -/
def placeFiles (files : List ParsedFile) : List Placed :=
  arrange (files.flatMap fun file => placeStmts file.name "" file.program.stmts)

namespace Collected

def environment (c : Collected) (p : Placed) : Environment :=
  ⟨c.table, p.path, c.imports.searchPath p.file⟩

/-- The rewritten statement. Its own name is no local at the top level. -/
def rewrite (policy : MemberCallPolicy) (c : Collected) (p : Placed) : Rewritten Stmt :=
  p.stmt.rewrite ⟨⟨p.file, c.environment p, none⟩, policy⟩ []

end Collected

/-- The linked program, the names of all files by their numbers, the parsed files in dependency
    order, and the tables that the names were resolved with. -/
structure Linked where
  program : Program
  files : List String
  order : List String
  table : NamespaceTable
  imports : ImportTable

/-- The linked program of parsed files, and what was found while they were linked. -/
def linkParsed (rules : Rules) (names : List String) (parsed : List ParsedFile) :
    Linked × List Finding :=
  let walk := (Graph.ofFiles parsed).order
  let files := inOrder walk.order parsed
  let collected := collect rules.mode files
  let rewritten := (placeFiles files).map (collected.rewrite rules.memberCalls)
  (⟨⟨rewritten.map Rewritten.tree⟩, names, walk.order, collected.table, collected.imports⟩,
    walk.cycles.map .cycle ++ collected.findings ++ rewritten.flatMap Rewritten.findings)

/-- The linked program of all files and what was found, unless a file cannot be tokenized. -/
def link (rules : Rules) (sources : Sources) : Except LinkError (Linked × List Finding) :=
  match parseFiles sources with
  | .error e => .error e
  | .ok (parsed, failures) =>
    let (linked, findings) := linkParsed rules sources.names parsed
    .ok (linked, failures ++ findings)

end ScriptCompiler
