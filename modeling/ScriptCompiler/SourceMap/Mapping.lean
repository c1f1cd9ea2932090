import ScriptCompiler.SourceMap.Vlq
import ScriptCompiler.Text.Json

/-!
# Source maps

A mapping sends a place of the script back to a place of a source file; lines and columns are
counted from zero. The text of a list of mappings has a semicolon for each line break of the script
and commas between the mappings of one line. Every mapping is four variable-length quantities, each
the difference to the mapping before it; script columns start anew on every line.
-/

namespace ScriptCompiler

/-- A place of the script and the place of a source file that it comes from. -/
structure Mapping where
  scriptLine : UInt32
  scriptColumn : UInt32
  file : UInt32
  sourceLine : UInt32
  sourceColumn : UInt32
deriving DecidableEq, Repr, Inhabited

namespace Mapping

/-- The mapping before the first one. -/
def zero : Mapping := ⟨0, 0, 0, 0, 0⟩

/-- Not later in the script than `other`. -/
def notAfter (m other : Mapping) : Bool :=
  m.scriptLine < other.scriptLine
    || (m.scriptLine == other.scriptLine && m.scriptColumn ≤ other.scriptColumn)

/-- Inserts a mapping before the first one that is not earlier in the script. -/
def insert (m : Mapping) : List Mapping → List Mapping
  | [] => [m]
  | first :: rest => if m.notAfter first then m :: first :: rest else first :: insert m rest

/-- The mappings in the order of their places in the script; equal places keep their order. -/
def sort : List Mapping → List Mapping
  | [] => []
  | m :: rest => m.insert (sort rest)

end Mapping

/-- The difference of two words as a signed number. -/
def wordDifference (new old : UInt32) : Int64 :=
  Int64.ofNat new.toNat - Int64.ofNat old.toNat

/-- The four differences between a mapping and the one before it, whose script column is
    `column`. -/
def mappingSegment (column : UInt32) (previous m : Mapping) : List Char :=
  Vlq.encode (wordDifference m.scriptColumn column)
    ++ Vlq.encode (wordDifference m.file previous.file)
    ++ Vlq.encode (wordDifference m.sourceLine previous.sourceLine)
    ++ Vlq.encode (wordDifference m.sourceColumn previous.sourceColumn)

/-- The text of mappings after `previous` on line `line` of the script; `isFirst` tells that no
    mapping of that line has been written. -/
def encodeMappingsFrom (line : UInt32) (isFirst : Bool) (previous : Mapping) :
    List Mapping → List Char
  | [] => []
  | m :: rest =>
    if line < m.scriptLine then
      List.replicate (m.scriptLine.toNat - line.toNat) ';' ++ mappingSegment 0 previous m
        ++ encodeMappingsFrom m.scriptLine false m rest
    else
      (if isFirst then [] else [',']) ++ mappingSegment previous.scriptColumn previous m
        ++ encodeMappingsFrom line false m rest

def encodeMappings (mappings : List Mapping) : String :=
  String.ofList (encodeMappingsFrom 0 true Mapping.zero mappings)

/-- A version 3 source map. Names are not recorded. -/
structure SourceMap where
  file : String
  sources : List String
  mappings : String
deriving DecidableEq, Repr, Inhabited

namespace SourceMap

/-- The source map of the script `file`, whose mappings may be given in any order. -/
def build (file : String) (sources : List String) (mappings : List Mapping) : SourceMap :=
  ⟨file, sources, encodeMappings (Mapping.sort mappings)⟩

def toJson (map : SourceMap) : Text.Json :=
  .object [
    ("version", .number 3),
    ("file", .string map.file),
    ("sources", .array (map.sources.map .string)),
    ("names", .array []),
    ("mappings", .string map.mappings)]

end SourceMap

end ScriptCompiler
