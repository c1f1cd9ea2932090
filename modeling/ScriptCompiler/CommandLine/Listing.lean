import ScriptCompiler.Compile
import ScriptCompiler.Syntax.Outline

/-!
# Listings

The texts that the commands print: tokens with a summary, the outline of a program, the tables of
linked files, and the result of a compilation as a document.
-/

namespace ScriptCompiler

namespace CommandLine

open Text (concat joinWith padRight)

def line (parts : List String) : String :=
  concat parts ++ "\n"

def fileHeading (what path : String) : String :=
  line ["=== ", what, " Output for ", path, " ===\n"]

/-- The row of a token: its place, its bytes, its class and its value. -/
def tokenRow (l : Lexeme) : String :=
  let place := toString l.span.line ++ ":" ++ toString l.span.column
  let bytes := toString l.span.start ++ ".." ++ toString l.span.stop
  line [padRight 10 place, " ", padRight 12 bytes, " ", l.token.category.label, " ",
    l.token.display]

def countedCategories : List Category :=
  [.keyword, .identifier, .literal, .operator, .punctuation]

def countRow (lexemes : List Lexeme) (category : Category) : String :=
  line ["  ", padRight 12 (category.label ++ ":"), " ",
    toString (lexemes.countP fun l => l.token.category == category)]

def tokenListing (lexemes : List Lexeme) : String :=
  concat [
    line [padRight 10 "POSITION", " ", padRight 12 "SPAN", " ", padRight 12 "CLASS", " ", "VALUE"],
    line [String.ofList (List.replicate 60 '-')],
    concat (lexemes.map tokenRow),
    "\n=== Summary ===\n",
    line ["Total tokens: ", toString lexemes.length],
    concat (countedCategories.map (countRow lexemes))]

def programListing (program : Program) : String :=
  concat [line [program.outline], "=== Summary ===\n",
    line ["Statements: ", toString program.stmts.length]]

def orderListing (order : List String) : String :=
  concat ((order.zipIdx 1).map fun (file, number) => line ["  ", toString number, ". ", file])

def entryWord : EntryKind → String
  | .value => "let"
  | .function => "micro"
  | .classType => "class"
  | .foreign => "foreign"

def namespaceListing (path : String) (space : Namespace) : String :=
  let main := match space.mainFile? with
    | some file => " (main in " ++ file ++ ")"
    | none => ""
  line [if path = "" then "<root>" else path, main]
    ++ concat (space.entries.map fun (_, entry) =>
      line ["  ", padRight 8 (entryWord entry.kind), " ", padRight 20 entry.name, " -> ",
        entry.uniqueName])

def importListing (imports : ImportTable) (order : List String) : String :=
  concat (order.map fun file =>
    match imports.searchPath file with
    | [] => ""
    | search => line ["  ", file, ": ", joinWith ", " search])

def linkListing (linked : Linked) : String :=
  concat [
    "=== File Order ===\n", orderListing linked.order,
    "\n=== Namespaces ===\n",
    concat (linked.table.namespaces.map fun (path, space) => namespaceListing path space),
    "\n=== Imports ===\n", importListing linked.imports linked.order]

end CommandLine

def Diagnostic.toJson (d : Diagnostic) : Text.Json :=
  .object [
    ("severity", .string d.severity.text),
    ("message", .string d.message),
    ("line", .number d.line),
    ("column", .number d.column),
    ("file", .string d.file)]

/-- The result of a compilation as a document; the source map is left out if there is none. -/
def CompileResult.toJson (result : CompileResult) : Text.Json :=
  .object ([
    ("success", .bool result.success),
    ("code", (result.code?.map Text.Json.string).getD .null),
    ("diagnostics", .array (result.diagnostics.map Diagnostic.toJson))]
    ++ (result.sourceMap?.map fun map => ("sourceMap", map.toJson)).toList)

end ScriptCompiler
