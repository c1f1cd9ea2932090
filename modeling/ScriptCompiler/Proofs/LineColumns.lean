import Mathlib.Algebra.Group.Nat.Defs
import Mathlib.Data.List.DropRight
import ScriptCompiler.Proofs.Tokenization

/-!
# Lines and columns of offsets

Every place between two characters of a text lies on one of its lines. Its line counts the line
feeds before it, its column the characters behind the last one.
-/

namespace ScriptCompiler

/-! ### Positions -/

namespace Position

theorem line_after (p : Position) (text : List Char) :
    (p.after text).line = p.line + text.count '\n' := by
  induction text generalizing p with
  | nil => rfl
  | cons c rest ih =>
    rw [after_cons, ih, List.count_cons, advance]
    split
    · next hc => simp [hc, Nat.add_comm, Nat.add_left_comm]
    · next hc => simp [hc]

/-- Columns count the characters behind the last line feed. -/
theorem column_after_start (text : List Char) :
    (start.after text).column = (text.rtakeWhile (· ≠ '\n')).length + 1 := by
  induction text using List.reverseRecOn with
  | nil => rfl
  | append_singleton text c ih =>
    rw [after_append, after_cons, after_nil, advance]
    by_cases hc : c = '\n'
    · rw [if_pos hc, List.rtakeWhile_concat_neg _ _ _ (by simp [hc])]
      rfl
    · rw [if_neg hc, List.rtakeWhile_concat_pos _ _ _ (by simp [hc]), List.length_append]
      exact congrArg (· + 1) ih

end Position

namespace Lines

/-! ### Locating -/

theorem locateFrom_append (before rest : List Char) (p : Position) (lineStart : Nat) :
    locateFrom (before ++ rest) p lineStart (p.offset + byteLength before) =
      ((p.after before).line, (p.after before).column) := by
  induction before generalizing p lineStart with
  | nil =>
    cases rest with
    | nil => rfl
    | cons c rest => simp [locateFrom, byteLength]
  | cons c before ih =>
    have hpos := c.utf8Size_pos
    have hadvance : (p.advance c).offset = p.offset + c.utf8Size :=
      Position.offset_after p [c]
    have htarget : p.offset + byteLength (c :: before) =
        (p.advance c).offset + byteLength before := by
      rw [hadvance, byteLength, Nat.add_assoc]
    have hbehind : ¬ p.offset + byteLength (c :: before) ≤ p.offset := by
      rw [byteLength]
      omega
    have houtside : ¬ p.offset + byteLength (c :: before) < p.offset + c.utf8Size := by
      rw [byteLength]
      omega
    rw [List.cons_append, locateFrom, if_neg hbehind, if_neg houtside, htarget, ih,
      Position.after_cons]

/-- The line and column behind a beginning of a text are those of the position there. -/
theorem locate_append (before rest : List Char) :
    locate (before ++ rest) (byteLength before) =
      ((Position.start.after before).line, (Position.start.after before).column) := by
  have h := locateFrom_append before rest Position.start 0
  rwa [show Position.start.offset = 0 from rfl, Nat.zero_add] at h

/-- The line counts the line feeds before a place, the column the characters behind the last one. -/
theorem locate_append_eq (before rest : List Char) :
    locate (before ++ rest) (byteLength before) =
      (before.count '\n' + 1, (before.rtakeWhile (· ≠ '\n')).length + 1) := by
  rw [locate_append, Position.line_after, Position.column_after_start, Nat.add_comm]
  rfl

/-- An offset past the end is taken to the end. -/
theorem locateFrom_of_le {text : List Char} {p : Position} {lineStart target : Nat}
    (h : p.offset + byteLength text ≤ target) :
    locateFrom text p lineStart target = ((p.after text).line, (p.after text).column) := by
  induction text generalizing p lineStart with
  | nil => rfl
  | cons c rest ih =>
    have hpos := c.utf8Size_pos
    have hadvance : (p.advance c).offset = p.offset + c.utf8Size := Position.offset_after p [c]
    rw [byteLength] at h
    rw [locateFrom, if_neg (by omega), if_neg (by omega), Position.after_cons]
    exact ih (by omega)

theorem locate_of_le {text : List Char} {target : Nat} (h : byteLength text ≤ target) :
    locate text target = locate text (byteLength text) := by
  have hend := locate_append text []
  rw [List.append_nil] at hend
  rw [hend]
  exact locateFrom_of_le (by simpa [Position.start] using h)

/-- No line and no column is larger than the number of bytes. -/
theorem locateFrom_le {text : List Char} {p : Position} {lineStart target bound : Nat}
    (hline : p.line ≤ p.offset + 1) (hcolumn : p.column ≤ p.offset + 1)
    (hbound : p.offset + byteLength text ≤ bound) :
    (locateFrom text p lineStart target).1 ≤ bound + 1 ∧
      (locateFrom text p lineStart target).2 ≤ bound + 1 := by
  induction text generalizing p lineStart with
  | nil =>
    rw [byteLength] at hbound
    exact ⟨by rw [locateFrom]; omega, by rw [locateFrom]; omega⟩
  | cons c rest ih =>
    have hpos := c.utf8Size_pos
    rw [byteLength] at hbound
    rw [locateFrom]
    split
    · exact ⟨by dsimp only; omega, by dsimp only; omega⟩
    · split
      · exact ⟨by dsimp only; omega, by dsimp only; omega⟩
      · have hadvance : (p.advance c).offset = p.offset + c.utf8Size := Position.offset_after p [c]
        refine ih ?_ ?_ (by omega)
        · rw [hadvance, Position.advance]
          split <;> dsimp only <;> omega
        · rw [hadvance, Position.advance]
          split <;> dsimp only <;> omega

theorem locate_le (text : List Char) (target : Nat) :
    (locate text target).1 ≤ byteLength text + 1 ∧ (locate text target).2 ≤ byteLength text + 1 :=
  locateFrom_le (Nat.le_refl _) (Nat.le_refl _) (Nat.le_of_eq (Nat.zero_add _))

/-! ### The lines of a text -/

/-- No character of the text begins before the offset and ends behind it. -/
def IsBoundary (text : List Char) (target : Nat) : Prop :=
  ∃ before rest, text = before ++ rest ∧ byteLength before = target

/-- A line of the text, without its line feed, between what stands before and behind it. -/
structure LineIn (text before line behind : List Char) : Prop where
  text_eq : text = before ++ (line ++ behind)
  starts : before = [] ∨ ∃ earlier, before = earlier ++ ['\n']
  plain : '\n' ∉ line
  ends : Token.LineEnds behind

namespace LineIn

variable {text before line behind : List Char}

/-- The place behind the first `count` characters of a line. -/
theorem locate (h : LineIn text before line behind) {count : Nat} (hcount : count ≤ line.length) :
    Lines.locate text (byteLength (before ++ line.take count)) =
      (before.count '\n' + 1, count + 1) := by
  have htake : ∀ c ∈ line.take count, c ≠ '\n' :=
    fun c hc heq => h.plain (heq ▸ List.mem_of_mem_take hc)
  have htext : text = (before ++ line.take count) ++ (line.drop count ++ behind) := by
    rw [h.text_eq, List.append_assoc, ← List.append_assoc (line.take count),
      List.take_append_drop]
  have hfeeds : (before ++ line.take count).count '\n' = before.count '\n' := by
    rw [List.count_append, List.count_eq_zero.mpr fun hin => htake _ hin rfl, Nat.add_zero]
  have hlast : (before ++ line.take count).rtakeWhile (· ≠ '\n') = line.take count := by
    have hkeep : ∀ c ∈ (line.take count).reverse, decide (c ≠ '\n') = true :=
      fun c hc => decide_eq_true (htake c (List.mem_reverse.mp hc))
    rw [List.rtakeWhile, List.reverse_append, List.takeWhile_append_of_pos hkeep]
    rcases h.starts with rfl | ⟨earlier, rfl⟩ <;> simp
  rw [htext, locate_append_eq, hfeeds, hlast, List.length_take, Nat.min_eq_left hcount]

end LineIn

theorem exists_lineEnds (text : List Char) :
    ∃ line behind, text = line ++ behind ∧ '\n' ∉ line ∧ Token.LineEnds behind := by
  refine ⟨text.takeWhile (· ≠ '\n'), text.dropWhile (· ≠ '\n'),
    List.takeWhile_append_dropWhile.symm, fun hin => ?_, fun c hc => ?_⟩
  · simpa using List.mem_takeWhile_imp hin
  · have hnot := List.head?_dropWhile_not (· ≠ '\n') text
    rw [Option.mem_def.mp hc] at hnot
    simpa using hnot

/-- Every place of a text lies on one of its lines. -/
theorem exists_lineIn_append (before rest : List Char) :
    ∃ start line behind count, LineIn (before ++ rest) start line behind ∧
      count ≤ line.length ∧ before = start ++ line.take count := by
  obtain ⟨line, behind, rfl, hplain, hends⟩ := exists_lineEnds rest
  refine ⟨before.rdropWhile (· ≠ '\n'), before.rtakeWhile (· ≠ '\n') ++ line, behind,
    (before.rtakeWhile (· ≠ '\n')).length, ⟨?_, ?_, ?_, hends⟩, ?_, ?_⟩
  · rw [List.append_assoc, ← List.append_assoc (before.rdropWhile _),
      List.rdropWhile_append_rtakeWhile]
  · by_cases hnil : before.rdropWhile (· ≠ '\n') = []
    · exact .inl hnil
    · have hlast := List.rdropWhile_last_not _ _ hnil
      have hfeed : (before.rdropWhile (· ≠ '\n')).getLast hnil = '\n' := by simpa using hlast
      exact .inr ⟨_, (List.dropLast_concat_getLast hnil).symm.trans (by rw [hfeed])⟩
  · rw [List.mem_append, not_or]
    refine ⟨fun hin => ?_, hplain⟩
    simpa using List.mem_rtakeWhile_imp hin
  · rw [List.length_append]
    exact Nat.le_add_right _ _
  · rw [List.take_left, List.rdropWhile_append_rtakeWhile]

/-- The pieces between line feeds are the lines. -/
theorem exists_lineIn_of_splitOn {text line : List Char} {i : Nat}
    (h : (text.splitOn '\n')[i]? = some line) :
    ∃ before behind, LineIn text before line behind ∧ before.count '\n' = i := by
  induction i generalizing text with
  | zero =>
    obtain ⟨first, behind, rfl, hplain, hends⟩ := exists_lineEnds text
    refine ⟨[], behind, ?_, rfl⟩
    cases behind with
    | nil =>
      rw [List.append_nil, Text.splitOn_of_notMem hplain] at h
      obtain rfl : first = line := Option.some.inj h
      exact ⟨rfl, .inl rfl, hplain, hends⟩
    | cons c behind =>
      obtain rfl := Token.lineEnds_cons.mp hends
      rw [Text.splitOn_append, Text.splitOn_of_notMem hplain] at h
      obtain rfl : first = line := Option.some.inj h
      exact ⟨rfl, .inl rfl, hplain, hends⟩
  | succ i ih =>
    obtain ⟨first, behind, rfl, hplain, hends⟩ := exists_lineEnds text
    cases behind with
    | nil =>
      rw [List.append_nil, Text.splitOn_of_notMem hplain] at h
      cases h
    | cons c behind =>
      obtain rfl := Token.lineEnds_cons.mp hends
      rw [Text.splitOn_append, Text.splitOn_of_notMem hplain] at h
      obtain ⟨before, after, hline, rfl⟩ := ih h
      refine ⟨first ++ '\n' :: before, after, ⟨?_, .inr ?_, hline.plain, hline.ends⟩, ?_⟩
      · rw [hline.text_eq, List.append_assoc, List.cons_append]
      · rcases hline.starts with rfl | ⟨earlier, rfl⟩
        · exact ⟨first, rfl⟩
        · exact ⟨first ++ '\n' :: earlier, by rw [List.append_assoc, List.cons_append]⟩
      · rw [List.count_append, List.count_eq_zero.mpr hplain, Nat.zero_add, List.count_cons_self]

theorem IsBoundary.le {text : List Char} {target : Nat} (h : IsBoundary text target) :
    target ≤ byteLength text := by
  obtain ⟨before, rest, rfl, rfl⟩ := h
  rw [byteLength_append]
  exact Nat.le_add_right _ _

end Lines

end ScriptCompiler
