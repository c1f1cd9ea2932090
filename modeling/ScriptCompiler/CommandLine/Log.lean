import ScriptCompiler.Compile

/-!
# Log lines

The events of linking and compiling, as lines for the error stream. An event has a level, a message
and named values.
-/

namespace ScriptCompiler.CommandLine

open Text (concat quoted quotedList)

/-- The level of an event. -/
inductive Level where
  | info | debug | trace
deriving DecidableEq, Repr, Inhabited

/-- The name of a level, five characters wide. -/
def Level.text : Level → String
  | .info => " INFO"
  | .debug => "DEBUG"
  | .trace => "TRACE"

/-- Something to log. -/
structure Event where
  level : Level
  message : String
  fields : List (String × String)
deriving DecidableEq, Repr, Inhabited

def Event.line (event : Event) : String :=
  event.level.text ++ " " ++ event.message
    ++ concat (event.fields.map fun (key, value) => " " ++ key ++ "=" ++ value) ++ "\n"

def parsedEvent (file : ParsedFile) : Event :=
  ⟨.debug, "parsed", [("file", file.name), ("statements", toString file.program.stmts.length)]⟩

def edgeEvents (graph : Graph) : List Event :=
  graph.edges.flatMap fun (file, dependencies) => dependencies.map fun provider =>
    ⟨.trace, "dependency edge", [("importer", file), ("provider", quoted provider)]⟩

/-- A placed statement enters a namespace or registers a declaration. -/
def placedEvent? (p : Placed) : Option Event :=
  match p.stmt with
  | .namespaceDecl .. =>
    some ⟨.trace, "entered namespace", [("file", p.file), ("namespace", p.path)]⟩
  | s => s.declared?.map fun (kind, name) =>
    ⟨.trace, "registered symbol", [("namespace", quoted p.path), ("name", name.name),
      ("unique", uniqueName p.path name.name), ("kind", kind.text)]⟩

def referenceEvent? : Finding → Option Event
  | .qualifiedReference file unique =>
    some ⟨.trace, "qualified reference", [("file", quoted file), ("unique", unique)]⟩
  | _ => none

/-- The events of linking files. If a file cannot be tokenized, they end before it. -/
def linkEvents (rules : Rules) (sources : Sources) : List Event :=
  let readings := (readFiles sources).takeWhile fun r => r.linkError?.isNone
  let parsed := readings.filterMap Reading.parsed?
  parsed.map parsedEvent ++
    match link rules sources with
    | .error _ => []
    | .ok (linked, findings) =>
      let placed := (inOrder linked.order parsed).flatMap fun file =>
        placeStmts file.name "" file.program.stmts
      edgeEvents (.ofFiles parsed)
        ++ [⟨.debug, "dependency order", [("order", quotedList linked.order)]⟩]
        ++ placed.filterMap placedEvent?
        ++ [⟨.debug, "collected declarations", [("namespaces", toString linked.table.size)]⟩]
        ++ findings.filterMap referenceEvent?

def modeName : Mode → String
  | .standard => "Standard"
  | .repl => "Repl"

def generatedEvents (generated : Script.Generated) : List Event :=
  let bytes := toString generated.code.utf8ByteSize
  [⟨.debug, "generated", [("bytes", bytes),
      ("lines", toString (Script.Row.lineFeeds generated.code)),
      ("mappings", toString generated.mappingCount)]⟩,
    ⟨.debug, "generated code", [("bytes", bytes)]⟩]

def compileEvents (sources : Sources) (mode : Mode) (options : CompileOptions) : List Event :=
  ⟨.info, "compiling",
      [("files", toString sources.names.length), ("mode", modeName mode)]⟩ ::
    linkEvents (options.rules mode) sources ++
    match link (options.rules mode) sources with
    | .error _ => []
    | .ok (linked, findings) =>
      let diagnostics := Diagnostics.ofFindings findings
      if diagnostics.hasErrors then
        [⟨.debug, "skipping code generation", [("errors", toString diagnostics.errors.length)]⟩]
      else generatedEvents (Script.generate options.script linked.files linked.program)

def wroteEvent (path : String) : Event :=
  ⟨.debug, "wrote output", [("path", path)]⟩

end ScriptCompiler.CommandLine
