import Mathlib.Data.List.Chain
import ScriptCompiler.Proofs.JoinedText
import ScriptCompiler.Proofs.Quantities
import ScriptCompiler.SourceMap.Mapping

/-!
# Reading the text of a source map

The mappings of a source map can be read back from their text: semicolons end lines, commas part the
mappings of a line, and each mapping is four numbers that are added to those of the mapping before
it, the script column only within one line.
-/

namespace ScriptCompiler

/-! ### Segments -/

/-- The segments of a text that starts on line `line`, each with the number of its line. -/
def mappingSegments (line : Nat) (text : List Char) : List (Nat × List Char) :=
  ((text.splitOn ';').zipIdx line).flatMap fun (written, number) =>
    ((written.splitOn ',').filter (· ≠ [])).map fun segment => (number, segment)

theorem mappingSegments_nil (line : Nat) : mappingSegments line [] = [] := by
  rw [mappingSegments, Text.splitOn_of_notMem List.not_mem_nil]
  rfl

theorem mappingSegments_semicolon (line : Nat) (text : List Char) :
    mappingSegments line (';' :: text) = mappingSegments (line + 1) text := by
  have hsplit : (';' :: text).splitOn ';' = [] :: text.splitOn ';' := by
    simpa [Text.splitOn_of_notMem List.not_mem_nil] using Text.splitOn_append ';' [] text
  have hcomma : ([] : List Char).splitOn ',' = [[]] := Text.splitOn_of_notMem List.not_mem_nil
  simp [mappingSegments, hsplit, hcomma]

theorem mappingSegments_replicate (line count : Nat) (text : List Char) :
    mappingSegments line (List.replicate count ';' ++ text) =
      mappingSegments (line + count) text := by
  induction count generalizing line with
  | zero => rfl
  | succ count ih =>
    rw [List.replicate_succ, List.cons_append, mappingSegments_semicolon, ih, Nat.add_right_comm,
      Nat.add_assoc]

section Segment

variable {segment : List Char} (hne : segment ≠ []) (hplain : ∀ c ∈ segment, c ≠ ';' ∧ c ≠ ',')

include hne hplain

theorem mappingSegments_singleton (line : Nat) :
    mappingSegments line segment = [(line, segment)] := by
  have hsemicolon : ';' ∉ segment := fun hin => (hplain _ hin).1 rfl
  have hcomma : ',' ∉ segment := fun hin => (hplain _ hin).2 rfl
  simp [mappingSegments, Text.splitOn_of_notMem hsemicolon, Text.splitOn_of_notMem hcomma, hne]

theorem mappingSegments_append_semicolon (line : Nat) (text : List Char) :
    mappingSegments line (segment ++ ';' :: text) =
      (line, segment) :: mappingSegments (line + 1) text := by
  have hsemicolon : ';' ∉ segment := fun hin => (hplain _ hin).1 rfl
  have hcomma : ',' ∉ segment := fun hin => (hplain _ hin).2 rfl
  simp [mappingSegments, Text.splitOn_append, Text.splitOn_of_notMem hsemicolon,
    Text.splitOn_of_notMem hcomma, hne]

theorem mappingSegments_append_comma (line : Nat) (text : List Char) :
    mappingSegments line (segment ++ ',' :: text) =
      (line, segment) :: mappingSegments line text := by
  have hcomma : ',' ∉ segment := fun hin => (hplain _ hin).2 rfl
  have hsemicolon : ';' ∉ segment ++ [','] := by
    intro hin
    rcases List.mem_append.mp hin with hin | hin
    · exact (hplain _ hin).1 rfl
    · exact absurd (List.mem_singleton.mp hin) (by decide)
  -- The comma parts the segment from the first line of what follows.
  obtain ⟨first, rest, htext, hjoined⟩ := Text.exists_splitOn_append hsemicolon text
  have happend : segment ++ ',' :: text = segment ++ [','] ++ text := by simp
  rw [happend, mappingSegments, mappingSegments, hjoined, htext]
  simp [Text.splitOn_append, Text.splitOn_of_notMem hcomma, hne]

end Segment

/-! ### Mappings -/

/-- A mapping as it is read from the text of a source map. -/
structure DecodedMapping where
  line : Nat
  column : Int
  file : Int
  sourceLine : Int
  sourceColumn : Int
deriving DecidableEq, Repr

namespace DecodedMapping

def zero : DecodedMapping := ⟨0, 0, 0, 0, 0⟩

/-- The mapping on line `line` whose numbers differ from those of `previous` as given. Script
    columns start anew on every line. -/
def plus (previous : DecodedMapping) (line : Nat) (column file sourceLine sourceColumn : Int) :
    DecodedMapping :=
  ⟨line, (if line = previous.line then previous.column else 0) + column, previous.file + file,
    previous.sourceLine + sourceLine, previous.sourceColumn + sourceColumn⟩

end DecodedMapping

/-- The mappings of segments behind the mapping `previous`. -/
def resumeMappings (previous : DecodedMapping) :
    List (Nat × List Char) → Option (List DecodedMapping)
  | [] => some []
  | (line, segment) :: rest =>
    match Vlq.read segment with
    | some [column, file, sourceLine, sourceColumn] =>
      let m := previous.plus line column file sourceLine sourceColumn
      (resumeMappings m rest).map (m :: ·)
    | _ => none

/-- The mappings that a text stands for, unless some segment does not spell four numbers. -/
def decodeMappings (text : String) : Option (List DecodedMapping) :=
  resumeMappings .zero (mappingSegments 0 text.toList)

def Mapping.decoded (m : Mapping) : DecodedMapping :=
  ⟨m.scriptLine.toNat, m.scriptColumn.toNat, m.file.toNat, m.sourceLine.toNat, m.sourceColumn.toNat⟩

/-- The segments of mappings after `previous`, of which the last one stood on line `line`. -/
def segmentsAfter (line : UInt32) (previous : Mapping) : List Mapping → List (Nat × List Char)
  | [] => []
  | m :: rest =>
    (m.scriptLine.toNat,
      mappingSegment (if line < m.scriptLine then 0 else previous.scriptColumn) previous m)
      :: segmentsAfter m.scriptLine m rest

theorem mappingSegment_plain {column : UInt32} {previous m : Mapping} :
    ∀ c ∈ mappingSegment column previous m, c ≠ ';' ∧ c ≠ ',' := by
  intro c hc
  simp only [mappingSegment, List.mem_append] at hc
  rcases hc with ((hc | hc) | hc) | hc <;> exact Vlq.ne_separator_of_mem_encode hc

theorem mappingSegment_ne_nil (column : UInt32) (previous m : Mapping) :
    mappingSegment column previous m ≠ [] := by
  simp [mappingSegment, Vlq.encode_ne_nil]

/-- Behind a segment the mappings of the same line follow after commas, and those of later lines
    after semicolons. -/
theorem mappingSegments_append_encode {line : UInt32} {ms : List Mapping}
    (h : (line :: ms.map Mapping.scriptLine).IsChain (· ≤ ·)) {segment : List Char}
    (hne : segment ≠ []) (hplain : ∀ c ∈ segment, c ≠ ';' ∧ c ≠ ',') (previous : Mapping) :
    mappingSegments line.toNat (segment ++ encodeMappingsFrom line false previous ms) =
      (line.toNat, segment) :: segmentsAfter line previous ms := by
  induction ms generalizing line segment previous with
  | nil =>
    rw [encodeMappingsFrom, List.append_nil]
    exact mappingSegments_singleton hne hplain line.toNat
  | cons m rest ih =>
    obtain ⟨hle, hrest⟩ := List.isChain_cons_cons.mp h
    have hnext := fun column =>
      ih hrest (mappingSegment_ne_nil column previous m) mappingSegment_plain m
    rw [encodeMappingsFrom, segmentsAfter]
    by_cases hlt : line < m.scriptLine
    · have hbreaks : m.scriptLine.toNat - line.toNat = m.scriptLine.toNat - line.toNat - 1 + 1 := by
        have := UInt32.lt_iff_toNat_lt.mp hlt
        omega
      have hline : line.toNat + 1 + (m.scriptLine.toNat - line.toNat - 1) = m.scriptLine.toNat := by
        omega
      rw [if_pos hlt, if_pos hlt, hbreaks, List.replicate_succ, List.append_assoc, List.cons_append,
        mappingSegments_append_semicolon hne hplain, mappingSegments_replicate, hline, hnext]
    · have hsame : line = m.scriptLine := UInt32.le_antisymm hle (UInt32.not_lt.mp hlt)
      rw [if_neg hlt, if_neg hlt, if_neg Bool.false_ne_true, List.append_assoc, List.cons_append,
        List.nil_append, mappingSegments_append_comma hne hplain, hsame, hnext]

/-- The segments of a text are those of its mappings. -/
theorem mappingSegments_encode {line : UInt32} {ms : List Mapping}
    (h : (line :: ms.map Mapping.scriptLine).IsChain (· ≤ ·)) (previous : Mapping) :
    mappingSegments line.toNat (encodeMappingsFrom line true previous ms) =
      segmentsAfter line previous ms := by
  cases ms with
  | nil => exact mappingSegments_nil line.toNat
  | cons m rest =>
    obtain ⟨hle, hrest⟩ := List.isChain_cons_cons.mp h
    have hnext := fun column => mappingSegments_append_encode hrest
      (mappingSegment_ne_nil column previous m) mappingSegment_plain m
    rw [encodeMappingsFrom, segmentsAfter]
    by_cases hlt : line < m.scriptLine
    · have hline : line.toNat + (m.scriptLine.toNat - line.toNat) = m.scriptLine.toNat := by
        have := UInt32.lt_iff_toNat_lt.mp hlt
        omega
      rw [if_pos hlt, if_pos hlt, List.append_assoc, mappingSegments_replicate, hline, hnext]
    · have hsame : line = m.scriptLine := UInt32.le_antisymm hle (UInt32.not_lt.mp hlt)
      rw [if_neg hlt, if_neg hlt, if_pos rfl, List.nil_append, hsame, hnext]

theorem toInt_wordDifference (new old : UInt32) :
    (wordDifference new old).toInt = new.toNat - old.toNat := by
  have hnew := new.toNat_lt
  have hold := old.toNat_lt
  rw [wordDifference, Int64.toInt_sub, Int64.toInt_ofNat_of_lt (by omega),
    Int64.toInt_ofNat_of_lt (by omega)]
  exact Int.bmod_eq_of_le (by omega) (by omega)

theorem toInt_wordDifference_ne (new old : UInt32) :
    (wordDifference new old).toInt ≠ -2 ^ 63 := by
  have hnew := new.toNat_lt
  have hold := old.toNat_lt
  rw [toInt_wordDifference]
  omega

/-- The four numbers of a segment are the differences to the mapping before. -/
theorem read_mappingSegment (column : UInt32) (previous m : Mapping) :
    Vlq.read (mappingSegment column previous m) =
      some [(m.scriptColumn.toNat - column.toNat : Int), m.file.toNat - previous.file.toNat,
        m.sourceLine.toNat - previous.sourceLine.toNat,
        m.sourceColumn.toNat - previous.sourceColumn.toNat] := by
  have hread := fun new old rest => Vlq.read_encode (toInt_wordDifference_ne new old) rest
  have hlast := hread m.sourceColumn previous.sourceColumn []
  rw [List.append_nil] at hlast
  rw [mappingSegment, List.append_assoc, List.append_assoc, hread, hread, hread, hlast]
  simp [Vlq.read, Vlq.readFrom, toInt_wordDifference]

/-- The differences that are written for a mapping lead from the mapping before to it. -/
theorem plus_decoded {previous m : Mapping} (hle : previous.scriptLine ≤ m.scriptLine) :
    previous.decoded.plus m.scriptLine.toNat
        (m.scriptColumn.toNat -
          (if previous.scriptLine < m.scriptLine then 0 else previous.scriptColumn).toNat)
        (m.file.toNat - previous.file.toNat) (m.sourceLine.toNat - previous.sourceLine.toNat)
        (m.sourceColumn.toNat - previous.sourceColumn.toNat) = m.decoded := by
  -- A line that is not later is the same line, whose last column counts.
  have hcolumn : (if m.scriptLine.toNat = previous.scriptLine.toNat then
        (previous.scriptColumn.toNat : Int) else 0) + (m.scriptColumn.toNat -
          (if previous.scriptLine < m.scriptLine then 0 else previous.scriptColumn).toNat) =
      m.scriptColumn.toNat := by
    by_cases hlt : previous.scriptLine < m.scriptLine
    · have hne : m.scriptLine.toNat ≠ previous.scriptLine.toNat := by
        have := UInt32.lt_iff_toNat_lt.mp hlt
        omega
      rw [if_pos hlt, if_neg hne]
      simp
    · have hsame := UInt32.le_antisymm hle (UInt32.not_lt.mp hlt)
      rw [if_neg hlt, if_pos (congrArg UInt32.toNat hsame.symm)]
      omega
  have hsum (a b : Int) : a + (b - a) = b := by omega
  exact (DecodedMapping.mk.injEq ..).mpr ⟨rfl, hcolumn, hsum _ _, hsum _ _, hsum _ _⟩

theorem resumeMappings_segmentsAfter {previous : Mapping} {ms : List Mapping}
    (h : (previous.scriptLine :: ms.map Mapping.scriptLine).IsChain (· ≤ ·)) :
    resumeMappings previous.decoded (segmentsAfter previous.scriptLine previous ms) =
      some (ms.map Mapping.decoded) := by
  induction ms generalizing previous with
  | nil => rfl
  | cons m rest ih =>
    obtain ⟨hle, hrest⟩ := List.isChain_cons_cons.mp h
    rw [segmentsAfter, resumeMappings, read_mappingSegment]
    dsimp only
    rw [plus_decoded hle, ih hrest]
    rfl

/-- Mappings in the order of their lines are read back from their text. -/
theorem decodeMappings_encodeMappings {ms : List Mapping}
    (h : (ms.map Mapping.scriptLine).IsChain (· ≤ ·)) :
    decodeMappings (encodeMappings ms) = some (ms.map Mapping.decoded) := by
  have hchain : (Mapping.zero.scriptLine :: ms.map Mapping.scriptLine).IsChain (· ≤ ·) :=
    List.isChain_cons.mpr ⟨fun line _ => UInt32.le_iff_toNat_le.mpr (Nat.zero_le _), h⟩
  have hsegments := mappingSegments_encode hchain Mapping.zero
  rw [decodeMappings, encodeMappings, String.toList_ofList]
  exact (congrArg _ hsegments).trans (resumeMappings_segmentsAfter hchain)

/-! ### The order of mappings -/

end ScriptCompiler
