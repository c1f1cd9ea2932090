import ScriptCompiler.CommandLine.Arguments
import ScriptCompiler.CommandLine.Folder
import ScriptCompiler.CommandLine.Listing
import ScriptCompiler.CommandLine.Log
import ScriptCompiler.CommandLine.Run
import ScriptCompiler.Compile
import ScriptCompiler.Diagnostic.Basic
import ScriptCompiler.Diagnostic.Report
import ScriptCompiler.Grammar.Cursor
import ScriptCompiler.Grammar.Expressions
import ScriptCompiler.Grammar.Program
import ScriptCompiler.Grammar.Statements
import ScriptCompiler.Grammar.Types
import ScriptCompiler.Link.Collect
import ScriptCompiler.Link.Finding
import ScriptCompiler.Link.Graph
import ScriptCompiler.Link.Order
import ScriptCompiler.Link.Placement
import ScriptCompiler.Link.Program
import ScriptCompiler.Link.Rewrite
import ScriptCompiler.Link.Scope
import ScriptCompiler.Main
import ScriptCompiler.Namespace.Imports
import ScriptCompiler.Namespace.Table
import ScriptCompiler.Namespace.UniqueName
import ScriptCompiler.Ordered
import ScriptCompiler.Proofs.AsyncMarks
import ScriptCompiler.Proofs.AwaitSearch
import ScriptCompiler.Proofs.Brackets
import ScriptCompiler.Proofs.Capture
import ScriptCompiler.Proofs.ClassConstructors
import ScriptCompiler.Proofs.ClassReader
import ScriptCompiler.Proofs.ClosedScripts
import ScriptCompiler.Proofs.Collection
import ScriptCompiler.Proofs.Compilation
import ScriptCompiler.Proofs.ConstructorAwaits
import ScriptCompiler.Proofs.Consumption
import ScriptCompiler.Proofs.Continuations
import ScriptCompiler.Proofs.DependencyGraph
import ScriptCompiler.Proofs.DependencyOrder
import ScriptCompiler.Proofs.DiagnosticPlaces
import ScriptCompiler.Proofs.EmittedFunctions
import ScriptCompiler.Proofs.Findings
import ScriptCompiler.Proofs.Fronts
import ScriptCompiler.Proofs.FunctionOrigins
import ScriptCompiler.Proofs.Grouping
import ScriptCompiler.Proofs.ImportOrder
import ScriptCompiler.Proofs.JoinedText
import ScriptCompiler.Proofs.Landmarks
import ScriptCompiler.Proofs.LineColumns
import ScriptCompiler.Proofs.LineIndexes
import ScriptCompiler.Proofs.LinkPlan
import ScriptCompiler.Proofs.Linking
import ScriptCompiler.Proofs.Locals
import ScriptCompiler.Proofs.LongestMatch
import ScriptCompiler.Proofs.MainNamespaces
import ScriptCompiler.Proofs.MappingOrder
import ScriptCompiler.Proofs.MappingText
import ScriptCompiler.Proofs.Mixins
import ScriptCompiler.Proofs.NameSearch
import ScriptCompiler.Proofs.NestedSpans
import ScriptCompiler.Proofs.Occurrence
import ScriptCompiler.Proofs.Operands
import ScriptCompiler.Proofs.OperatorChains
import ScriptCompiler.Proofs.OperatorTrees
import ScriptCompiler.Proofs.OutputOptions
import ScriptCompiler.Proofs.PairedProductions
import ScriptCompiler.Proofs.PairedRuns
import ScriptCompiler.Proofs.ParseFailures
import ScriptCompiler.Proofs.Passages
import ScriptCompiler.Proofs.PrintedPieces
import ScriptCompiler.Proofs.Productions
import ScriptCompiler.Proofs.Pruning
import ScriptCompiler.Proofs.Quantities
import ScriptCompiler.Proofs.ReadBack
import ScriptCompiler.Proofs.ReadPieces
import ScriptCompiler.Proofs.ReadTypes
import ScriptCompiler.Proofs.Readings
import ScriptCompiler.Proofs.References
import ScriptCompiler.Proofs.RelocatedLinking
import ScriptCompiler.Proofs.RelocatedParsing
import ScriptCompiler.Proofs.RelocatedTrees
import ScriptCompiler.Proofs.Relocation
import ScriptCompiler.Proofs.ReportingRules
import ScriptCompiler.Proofs.Resolution
import ScriptCompiler.Proofs.Rewriting
import ScriptCompiler.Proofs.ScannedLines
import ScriptCompiler.Proofs.Scanning
import ScriptCompiler.Proofs.ScriptReader
import ScriptCompiler.Proofs.Shadowing
import ScriptCompiler.Proofs.SourceMaps
import ScriptCompiler.Proofs.SpanTrees
import ScriptCompiler.Proofs.Spelling
import ScriptCompiler.Proofs.StringLiterals
import ScriptCompiler.Proofs.Surface
import ScriptCompiler.Proofs.TableContents
import ScriptCompiler.Proofs.Termination
import ScriptCompiler.Proofs.Tokenization
import ScriptCompiler.Proofs.TypePrecedence
import ScriptCompiler.Proofs.TypeTests
import ScriptCompiler.Proofs.UniqueNames
import ScriptCompiler.Proofs.ValuePrecedence
import ScriptCompiler.Proofs.WellNamed
import ScriptCompiler.Proofs.WrittenContexts
import ScriptCompiler.Proofs.WrittenNames
import ScriptCompiler.Script.Emit
import ScriptCompiler.Script.Generate
import ScriptCompiler.Script.Literal
import ScriptCompiler.Script.Row
import ScriptCompiler.Source.Files
import ScriptCompiler.Source.LineIndex
import ScriptCompiler.Source.Lines
import ScriptCompiler.Source.Position
import ScriptCompiler.SourceMap.Mapping
import ScriptCompiler.SourceMap.Vlq
import ScriptCompiler.Syntax.Await
import ScriptCompiler.Syntax.Basic
import ScriptCompiler.Syntax.Operator
import ScriptCompiler.Syntax.Outline
import ScriptCompiler.Text.CharRange
import ScriptCompiler.Text.Join
import ScriptCompiler.Text.Json
import ScriptCompiler.Text.Printable
import ScriptCompiler.Text.Quoted
import ScriptCompiler.Text.Width
import ScriptCompiler.Token.Basic
import ScriptCompiler.Token.Munch
import ScriptCompiler.Token.Scanner
