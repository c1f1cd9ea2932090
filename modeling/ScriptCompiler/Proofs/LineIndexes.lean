import Mathlib.Algebra.Group.Nat.Defs
import ScriptCompiler.Diagnostic.Report
import ScriptCompiler.Proofs.LineColumns

/-!
# The line index agrees with walking the text

The entries of an index ascend, so halving ends at the last line that does not start behind an
offset. There the index cuts the text and counts what walking the text would have counted, up to the
words of 32 bits that it hands out. For texts whose places fit into such words, lines and columns
are inverse to offsets; those that do not exist are taken to the nearest place that does.
-/

namespace ScriptCompiler

/-! ### Cutting a text at byte offsets -/

namespace Lines

theorem splitBytes?_append (before rest : List Char) :
    splitBytes? (before ++ rest) (byteLength before) = some (before, rest) := by
  induction before with
  | nil => simp [byteLength, splitBytes?]
  | cons c before ih =>
    have hpos := c.utf8Size_pos
    obtain ⟨n, hn⟩ : ∃ n, byteLength (c :: before) = n + 1 :=
      Nat.exists_eq_add_one_of_ne_zero (by rw [byteLength]; omega)
    have hfits : ¬ byteLength (c :: before) < c.utf8Size := by
      rw [byteLength]
      omega
    rw [List.cons_append, hn, splitBytes?, ← hn, if_neg hfits, byteLength, Nat.add_sub_cancel_left,
      ih]
    rfl

/-- A text is not cut inside a character. -/
theorem splitBytes?_inside {chars rest : List Char} {c : Char} {target : Nat}
    (hafter : byteLength chars < target) (hbefore : target < byteLength chars + c.utf8Size) :
    splitBytes? (chars ++ c :: rest) target = none := by
  induction chars generalizing target with
  | nil =>
    rw [byteLength] at hafter hbefore
    obtain ⟨n, rfl⟩ := Nat.exists_eq_add_one_of_ne_zero (Nat.ne_zero_of_lt hafter)
    rw [List.nil_append, splitBytes?, if_pos (by omega)]
  | cons d chars ih =>
    rw [byteLength] at hafter hbefore
    obtain ⟨n, rfl⟩ := Nat.exists_eq_add_one_of_ne_zero (Nat.ne_zero_of_lt hafter)
    rw [List.cons_append, splitBytes?, if_neg (by omega), ih (by omega) (by omega), Option.map_none]

theorem charIndices_append (position : Nat) (first second : List Char) :
    charIndices position (first ++ second) =
      charIndices position first ++ charIndices (position + byteLength first) second := by
  induction first generalizing position with
  | nil => rfl
  | cons c first ih =>
    rw [List.cons_append, charIndices, ih, charIndices, byteLength, Nat.add_assoc, List.cons_append]

theorem getElem?_charIndices (position : Nat) (text : List Char) (n : Nat) :
    (charIndices position text)[n]? =
      text[n]?.map fun c => (position + byteLength (text.take n), c) := by
  induction text generalizing position n with
  | nil => rfl
  | cons c rest ih =>
    cases n with
    | zero => rfl
    | succ n => simp [charIndices, ih, byteLength, Nat.add_assoc]

theorem mem_of_mem_charIndices {position i : Nat} {text : List Char} {c : Char}
    (h : (i, c) ∈ charIndices position text) : c ∈ text := by
  obtain ⟨n, hn⟩ := List.mem_iff_getElem?.mp h
  rw [getElem?_charIndices, Option.map_eq_some_iff] at hn
  obtain ⟨d, hd, heq⟩ := hn
  exact (Prod.mk.inj heq).2 ▸ List.mem_of_getElem? hd

/-- The characters of a line are those in front of the next line feed. -/
theorem takeWhile_charIndices {line behind : List Char} (hplain : '\n' ∉ line)
    (hends : Token.LineEnds behind) :
    (charIndices 0 (line ++ behind)).takeWhile (fun (_, c) => c ≠ '\n') = charIndices 0 line := by
  have hline : ∀ entry ∈ charIndices 0 line, decide (entry.2 ≠ '\n') = true :=
    fun entry hentry => decide_eq_true fun heq => hplain (heq ▸ mem_of_mem_charIndices hentry)
  rw [charIndices_append, List.takeWhile_append_of_pos hline]
  cases behind with
  | nil => exact List.append_nil _
  | cons c behind =>
    obtain rfl := Token.lineEnds_cons.mp hends
    exact List.append_nil _

/-- The next line feed stands where the line ends. -/
theorem find?_charIndices {line behind : List Char} (hplain : '\n' ∉ line)
    (hends : Token.LineEnds behind) :
    (charIndices 0 (line ++ behind)).find? (fun (_, c) => c = '\n') =
      behind.head?.map fun c => (byteLength line, c) := by
  have hline : (charIndices 0 line).find? (fun (_, c) => c = '\n') = none :=
    List.find?_eq_none.mpr fun entry hentry heq =>
      hplain (of_decide_eq_true heq ▸ mem_of_mem_charIndices hentry)
  rw [charIndices_append, List.find?_append, hline, Option.none_or, Nat.zero_add]
  cases behind with
  | nil => rfl
  | cons c behind =>
    obtain rfl := Token.lineEnds_cons.mp hends
    rfl

/-! ### Walking to an offset inside a character -/

/-- Every offset of a text lies between two characters or inside one. -/
theorem exists_append_of_le {text : List Char} {target : Nat} (h : target ≤ byteLength text) :
    IsBoundary text target ∨ ∃ before c rest, text = before ++ c :: rest ∧
      byteLength before < target ∧ target < byteLength before + c.utf8Size := by
  induction text generalizing target with
  | nil => exact .inl ⟨[], [], rfl, (Nat.le_zero.mp h).symm⟩
  | cons c text ih =>
    rw [byteLength] at h
    by_cases hzero : target = 0
    · exact .inl ⟨[], c :: text, rfl, hzero.symm⟩
    by_cases hinside : target < c.utf8Size
    · exact .inr ⟨[], c, text, rfl, Nat.pos_of_ne_zero hzero, by rw [byteLength]; omega⟩
    · have hrest : target - c.utf8Size ≤ byteLength text := by omega
      rcases ih hrest with
        ⟨before, rest, rfl, hbefore⟩ | ⟨before, d, rest, rfl, hafter, hbefore⟩
      · exact .inl ⟨c :: before, rest, rfl, by rw [byteLength]; omega⟩
      · exact .inr ⟨c :: before, d, rest, rfl, by rw [byteLength]; omega, by rw [byteLength]; omega⟩

theorem locateFrom_cons {c : Char} {p : Position} {target : Nat}
    (h : p.offset + c.utf8Size ≤ target) (rest : List Char) (lineStart : Nat) :
    locateFrom (c :: rest) p lineStart target =
      locateFrom rest (p.advance c) (if c = '\n' then p.offset + 1 else lineStart) target := by
  have hpos := c.utf8Size_pos
  rw [locateFrom, if_neg (by omega), if_neg (by omega)]

/-- Walking over a line feed leads to the start of a line. -/
theorem locateFrom_append_feed (earlier rest : List Char) {p : Position} {target : Nat}
    (h : p.offset + byteLength (earlier ++ ['\n']) ≤ target) (lineStart : Nat) :
    locateFrom (earlier ++ ['\n'] ++ rest) p lineStart target =
      locateFrom rest (p.after (earlier ++ ['\n'])) (p.offset + byteLength (earlier ++ ['\n']))
        target := by
  induction earlier generalizing p lineStart with
  | nil => exact (locateFrom_cons h rest lineStart).trans (by rw [if_pos rfl]; rfl)
  | cons c earlier ih =>
    have hadvance : (p.advance c).offset = p.offset + c.utf8Size := Position.offset_after p [c]
    rw [List.cons_append, byteLength, ← Nat.add_assoc, ← hadvance] at h
    rw [List.cons_append, List.cons_append, locateFrom_cons (by omega), ih h, hadvance, byteLength,
      Nat.add_assoc, Position.after_cons]

theorem locateFrom_append_plain {chars : List Char} (hplain : '\n' ∉ chars) (rest : List Char)
    {p : Position} {target : Nat} (h : p.offset + byteLength chars ≤ target) (lineStart : Nat) :
    locateFrom (chars ++ rest) p lineStart target =
      locateFrom rest (p.after chars) lineStart target := by
  induction chars generalizing p with
  | nil => rfl
  | cons c chars ih =>
    obtain ⟨hc, hchars⟩ := not_or.mp (mt List.mem_cons.mpr hplain)
    have hadvance : (p.advance c).offset = p.offset + c.utf8Size := Position.offset_after p [c]
    rw [byteLength, ← Nat.add_assoc, ← hadvance] at h
    rw [List.cons_append, locateFrom_cons (by omega), if_neg (Ne.symm hc), ih hchars h,
      Position.after_cons]

/-- An offset inside a character counts the bytes of its line. -/
theorem locate_inside {before chars rest : List Char} {c : Char} {target : Nat}
    (hstarts : before = [] ∨ ∃ earlier, before = earlier ++ ['\n']) (hplain : '\n' ∉ chars)
    (hafter : byteLength (before ++ chars) < target)
    (hbefore : target < byteLength (before ++ chars) + c.utf8Size) :
    locate (before ++ (chars ++ c :: rest)) target =
      (before.count '\n' + 1, target - byteLength before + 1) := by
  have hline : (Position.start.after (before ++ chars)).line = before.count '\n' + 1 := by
    rw [Position.line_after, List.count_append, List.count_eq_zero.mpr hplain, Nat.add_zero,
      Nat.add_comm]
    rfl
  have hoffset : (Position.start.after (before ++ chars)).offset = byteLength (before ++ chars) :=
    (Position.offset_after _ _).trans (Nat.zero_add _)
  have hwalk : locate (before ++ (chars ++ c :: rest)) target =
      locateFrom (c :: rest) (Position.start.after (before ++ chars)) (byteLength before)
        target := by
    rw [byteLength_append] at hafter
    have hchars : (Position.start.after before).offset + byteLength chars ≤ target := by
      rw [Position.offset_after, show Position.start.offset = 0 from rfl]
      omega
    rw [Position.after_append, ← locateFrom_append_plain hplain _ hchars]
    rcases hstarts with rfl | ⟨earlier, rfl⟩
    · rfl
    · have hfeed : Position.start.offset + byteLength (earlier ++ ['\n']) ≤ target := by
        rw [show Position.start.offset = 0 from rfl]
        omega
      rw [locate, locateFrom_append_feed earlier _ hfeed, show Position.start.offset = 0 from rfl,
        Nat.zero_add]
  rw [hwalk, locateFrom, hoffset, if_neg (by omega), if_pos hbefore, hline]

end Lines

namespace LineIndex

open Lines

/-! ### The entries of an index -/

theorem feedEnds_append (position : Nat) (first second : List UInt8) :
    feedEnds position (first ++ second) =
      feedEnds position first ++ feedEnds (position + first.length) second := by
  simp only [feedEnds, List.zipIdx_append, List.filter_append, List.map_append]

/-- Only a line feed has the byte of a line feed. -/
theorem ne_feed_of_mem_encodeChar {c : Char} (hc : c ≠ '\n') {byte : UInt8}
    (h : byte ∈ String.utf8EncodeChar c) : byte ≠ 10 := by
  have hval : c.val.toNat ≠ 10 := fun heq => hc (Char.ext (UInt32.toNat_inj.mp heq))
  have hofNat : ∀ n, n % 256 ≠ 10 → UInt8.ofNat n ≠ 10 := fun n hn heq => by
    have hbyte := congrArg UInt8.toNat heq
    rw [UInt8.toNat_ofNat'] at hbyte
    exact hn hbyte
  unfold String.utf8EncodeChar at h
  dsimp only at h
  split at h
  · obtain rfl := List.mem_singleton.mp h
    exact hofNat _ (by omega)
  · -- The bytes of a longer character are all at least 128.
    have hlarge : ∃ n, byte = UInt8.ofNat n ∧ 128 ≤ n ∧ n < 256 := by
      split at h
      · simp only [List.mem_cons, List.not_mem_nil, or_false] at h
        rcases h with rfl | rfl <;> exact ⟨_, rfl, by omega, by omega⟩
      · split at h
        · simp only [List.mem_cons, List.not_mem_nil, or_false] at h
          rcases h with rfl | rfl | rfl <;> exact ⟨_, rfl, by omega, by omega⟩
        · simp only [List.mem_cons, List.not_mem_nil, or_false] at h
          rcases h with rfl | rfl | rfl | rfl <;> exact ⟨_, rfl, by omega, by omega⟩
    obtain ⟨n, rfl, hlow, hhigh⟩ := hlarge
    exact hofNat n (by omega)

theorem feedEnds_encodeChar (position : Nat) (c : Char) :
    feedEnds position (String.utf8EncodeChar c) = if c = '\n' then [position + 1] else [] := by
  by_cases hc : c = '\n'
  · subst hc
    rfl
  · rw [if_neg hc, feedEnds, List.map_eq_nil_iff, List.filter_eq_nil_iff]
    rintro ⟨byte, i⟩ hin
    exact mt beq_iff_eq.mp (ne_feed_of_mem_encodeChar hc (List.fst_mem_of_mem_zipIdx hin))

theorem length_encode (text : List Char) :
    (text.flatMap String.utf8EncodeChar).length = byteLength text := by
  induction text with
  | nil => rfl
  | cons c rest ih =>
    rw [List.flatMap_cons, List.length_append, String.length_utf8EncodeChar, ih, byteLength]

theorem length_feedEnds (position : Nat) (text : List Char) :
    (feedEnds position (text.flatMap String.utf8EncodeChar)).length = text.count '\n' := by
  induction text generalizing position with
  | nil => rfl
  | cons c rest ih =>
    rw [List.flatMap_cons, feedEnds_append, List.length_append, ih, feedEnds_encodeChar,
      List.count_cons]
    by_cases hc : c = '\n' <;> simp [hc, Nat.add_comm]

theorem size_starts (text : List Char) : (ofText text).starts.size = text.count '\n' + 1 := by
  show (0 :: feedEnds 0 _).toArray.size = _
  rw [List.size_toArray, List.length_cons, length_feedEnds]

/-- The entry of a line is the number of bytes before it. -/
theorem getElem?_starts {before : List Char}
    (h : before = [] ∨ ∃ earlier, before = earlier ++ ['\n']) (rest : List Char) :
    (ofText (before ++ rest)).starts[before.count '\n']? = some (byteLength before) := by
  rcases h with rfl | ⟨earlier, rfl⟩
  · exact (ofText _).head
  · have hentries : feedEnds 0 ((earlier ++ ['\n'] ++ rest).flatMap String.utf8EncodeChar) =
        feedEnds 0 (earlier.flatMap String.utf8EncodeChar) ++ (byteLength earlier + 1) ::
          feedEnds (byteLength (earlier ++ ['\n'])) (rest.flatMap String.utf8EncodeChar) := by
      rw [List.flatMap_append, feedEnds_append, List.flatMap_append, feedEnds_append, Nat.zero_add,
        Nat.zero_add, ← List.flatMap_append, length_encode, length_encode, List.flatMap_singleton,
        feedEnds_encodeChar, if_pos rfl, List.append_assoc, List.singleton_append]
    show (0 :: feedEnds 0 _).toArray[_]? = _
    rw [hentries, List.getElem?_toArray, List.count_append, List.count_singleton_self,
      List.getElem?_cons_succ, ← length_feedEnds 0 earlier,
      List.getElem?_append_right (Nat.le_refl _), Nat.sub_self, byteLength_append]
    rfl

theorem feedEnds_sublist (bytes : List UInt8) :
    (feedEnds 0 bytes).Sublist (List.range' 1 bytes.length) := by
  have hall : (bytes.zipIdx 0).map (fun entry => entry.2 + 1) = List.range' 1 bytes.length := by
    have hsucc : (fun entry : UInt8 × Nat => entry.2 + 1) = (1 + ·) ∘ Prod.snd :=
      funext fun _ => Nat.add_comm _ _
    rw [hsucc, ← List.map_map, List.zipIdx_map_snd, List.map_add_range']
  exact hall ▸ List.filter_sublist.map _

/-- The entries of an index ascend. -/
theorem pairwise_starts (text : List Char) : (ofText text).starts.toList.Pairwise (· < ·) := by
  have hsub := feedEnds_sublist (text.flatMap String.utf8EncodeChar)
  refine List.pairwise_cons.mpr ⟨fun entry hentry => ?_, ?_⟩
  · exact (List.mem_range'_1.mp (hsub.subset hentry)).1
  · exact (List.pairwise_lt_range' 1).sublist hsub

/-! ### Halving -/

/-- The entry at `i` is the last one that does not exceed the target. -/
structure LastBelow (entries : Array Nat) (target i : Nat) : Prop where
  below : ∃ entry, entries[i]? = some entry ∧ entry ≤ target
  above : ∀ j entry, entries[j]? = some entry → i < j → target < entry

theorem LastBelow.eq {entries : Array Nat} {target i j : Nat} (hi : LastBelow entries target i)
    (hj : LastBelow entries target j) : i = j := by
  obtain ⟨first, hfirst, hlei⟩ := hi.below
  obtain ⟨second, hsecond, hlej⟩ := hj.below
  rcases Nat.lt_trichotomy i j with hlt | heq | hlt
  · exact absurd (hi.above j second hsecond hlt) (Nat.not_lt.mpr hlej)
  · exact heq
  · exact absurd (hj.above i first hfirst hlt) (Nat.not_lt.mpr hlei)

theorem getElem?_mono {entries : Array Nat} (hsorted : entries.toList.Pairwise (· < ·)) {i j : Nat}
    {first second : Nat} (hi : entries[i]? = some first) (hj : entries[j]? = some second)
    (hij : i ≤ j) : first ≤ second := by
  obtain ⟨hilt, rfl⟩ := Array.getElem?_eq_some_iff.mp hi
  obtain ⟨hjlt, rfl⟩ := Array.getElem?_eq_some_iff.mp hj
  rcases Nat.lt_or_eq_of_le hij with hlt | rfl
  · exact Nat.le_of_lt (List.pairwise_iff_getElem.mp hsorted i j hilt hjlt hlt)
  · exact Nat.le_refl _

/-- Halving keeps the last entry that does not exceed the target inside its window. -/
theorem lastBelow_narrow {entries : Array Nat} (hsorted : entries.toList.Pairwise (· < ·))
    {target base count : Nat} {hcount : 0 < count} {hbound : base + count ≤ entries.size}
    (hbelow : entries[base] ≤ target)
    (habove : ∀ j entry, entries[j]? = some entry → base + count ≤ j → target < entry) :
    LastBelow entries target (narrow entries target base count hcount hbound) := by
  fun_induction narrow entries target base count hcount hbound with
  | case1 base count hcount hbound hmore hsmall ih =>
    refine ih hbelow fun j entry hentry hj => ?_
    have hmiddle : entries[base + count / 2]? = some entries[base + count / 2] :=
      Array.getElem?_eq_getElem _
    exact Nat.lt_of_lt_of_le hsmall (getElem?_mono hsorted hmiddle hentry (by omega))
  | case2 base count hcount hbound hmore hlarge ih =>
    exact ih (Nat.not_lt.mp hlarge) fun j entry hentry hj => habove j entry hentry (by omega)
  | case3 base count hcount hbound hone =>
    refine ⟨⟨_, Array.getElem?_eq_getElem _, hbelow⟩, fun j entry hentry hj => ?_⟩
    have hbehind : base < j := hj
    exact habove j entry hentry (by omega)

/-- The line of an offset is the last one that does not start behind it. -/
theorem lastBelow_lineOf {index : LineIndex} (hsorted : index.starts.toList.Pairwise (· < ·))
    (target : Nat) : LastBelow index.starts target (index.lineOf target) := by
  have hnarrow : LastBelow index.starts target
      (narrow index.starts target 0 index.starts.size index.size_pos (by omega)) := by
    obtain ⟨_, hzero⟩ := Array.getElem?_eq_some_iff.mp index.head
    refine lastBelow_narrow hsorted ((Nat.le_of_eq hzero).trans (Nat.zero_le _))
      fun j entry hentry hj => ?_
    have hlt := (Array.getElem?_eq_some_iff.mp hentry).1
    omega
  have hline : (index.lineOf target).val =
      narrow index.starts target 0 index.starts.size index.size_pos (by omega) := by
    obtain ⟨entry, hentry, hle⟩ := hnarrow.below
    obtain ⟨_, rfl⟩ := Array.getElem?_eq_some_iff.mp hentry
    unfold lineOf search
    rw [dif_pos index.size_pos]
    rcases Nat.lt_or_eq_of_le hle with hlt | heq
    · simp [Nat.compare_eq_lt.mpr hlt]
    · simp [Nat.compare_eq_eq.mpr heq]
  exact hline ▸ hnarrow

section OnLine

variable {text before line behind : List Char} (h : LineIn text before line behind) {target : Nat}
  (hstart : byteLength before ≤ target) (hend : target ≤ byteLength (before ++ line))

include h hstart hend

/-- The offsets of a line are those for which halving ends at it. -/
theorem lastBelow_of_lineIn :
    LastBelow (ofText text).starts target (before.count '\n') := by
  have hentry : (ofText text).starts[before.count '\n']? = some (byteLength before) :=
    h.text_eq ▸ getElem?_starts h.starts (line ++ behind)
  refine ⟨⟨_, hentry, hstart⟩, fun j entry hj hlt => ?_⟩
  have hcount : (before ++ line).count '\n' = before.count '\n' := by
    rw [List.count_append, List.count_eq_zero.mpr h.plain, Nat.add_zero]
  cases behind with
  | nil =>
    -- The last line has no entry behind it.
    have hsize := (Array.getElem?_eq_some_iff.mp hj).1
    rw [size_starts, h.text_eq, List.append_nil, hcount] at hsize
    omega
  | cons c behind =>
    obtain rfl := Token.lineEnds_cons.mp h.ends
    have hnext : (ofText text).starts[before.count '\n' + 1]? =
        some (byteLength (before ++ line) + 1) := by
      have htext : text = before ++ line ++ ['\n'] ++ behind := by
        rw [h.text_eq, List.append_assoc, List.append_assoc, List.singleton_append]
      have hstarts := getElem?_starts (.inr ⟨before ++ line, rfl⟩) behind
      rw [← htext, List.count_append, hcount, byteLength_append] at hstarts
      exact hstarts
    have hle := getElem?_mono (pairwise_starts text) hnext hj hlt
    omega

theorem lineOf_eq : ((ofText text).lineOf target).val = before.count '\n' :=
  (lastBelow_lineOf (pairwise_starts text) target).eq (lastBelow_of_lineIn h hstart hend)

/-- What the index says of an offset on a line. -/
theorem locate_of_lineIn :
    (ofText text).locate text target = ((before.count '\n' + 1).toUInt32,
      (((slice? text (byteLength before) target).map List.length).getD
        (target - byteLength before) + 1).toUInt32) := by
  have hclamp : min target (byteLength text) = target := by
    refine Nat.min_eq_left (Nat.le_trans hend ?_)
    rw [h.text_eq, ← List.append_assoc, byteLength_append (before ++ line)]
    exact Nat.le_add_right _ _
  have hword (n : Nat) : n.toUInt32 + 1 = (n + 1).toUInt32 := (UInt32.ofNat_add n 1).symm
  have hline := lineOf_eq h hstart hend
  have hentry : (ofText text).lineStart target = byteLength before := by
    have hat : (ofText text).starts[((ofText text).lineOf target).val]? =
        some (byteLength before) := by
      rw [hline, h.text_eq]
      exact getElem?_starts h.starts (line ++ behind)
    exact (Array.getElem?_eq_some_iff.mp hat).2
  unfold locate
  dsimp only
  rw [hclamp, hentry, hline, hword, hword]

end OnLine

theorem byteLength_take_le (chars : List Char) (count : Nat) :
    byteLength (chars.take count) ≤ byteLength chars := by
  have hparts := byteLength_append (chars.take count) (chars.drop count)
  rw [List.take_append_drop] at hparts
  omega

/-- Between two characters the index cuts the line at the offset and counts its characters. -/
theorem locate_of_isBoundary {text : List Char} {target : Nat} (h : IsBoundary text target) :
    (ofText text).locate text target =
      ((Lines.locate text target).1.toUInt32, (Lines.locate text target).2.toUInt32) := by
  obtain ⟨before, rest, rfl, rfl⟩ := h
  obtain ⟨start, line, behind, count, hline, hcount, rfl⟩ := exists_lineIn_append before rest
  have hslice : slice? (start ++ line.take count ++ rest) (byteLength start)
      (byteLength (start ++ line.take count)) = some (line.take count) := by
    rw [slice?, List.append_assoc, splitBytes?_append, byteLength_append,
      if_pos (Nat.le_add_right _ _), Option.bind_some, Nat.add_sub_cancel_left, splitBytes?_append,
      Option.map_some]
  have htake := byteLength_take_le line count
  rw [hline.locate hcount, locate_of_lineIn hline (by rw [byteLength_append]; omega)
    (by rw [byteLength_append, byteLength_append]; omega), hslice, Option.map_some,
    Option.getD_some, List.length_take, Nat.min_eq_left hcount]

/-- A line feed has one byte, so a longer character at a place of a line belongs to the line. -/
theorem exists_drop_eq_cons {start line behind rest : List Char} {c : Char} {count : Nat}
    (h : LineIn (start ++ line.take count ++ c :: rest) start line behind) (hc : 1 < c.utf8Size) :
    ∃ tail, line.drop count = c :: tail := by
  have hrest : line.drop count ++ behind = c :: rest := by
    have htext := h.text_eq
    rw [List.append_assoc, List.append_cancel_left_eq, ← List.take_append_drop count line,
      List.append_assoc, List.take_append_drop, List.append_cancel_left_eq] at htext
    exact htext.symm
  cases hdrop : line.drop count with
  | nil =>
    rw [hdrop, List.nil_append] at hrest
    obtain rfl : c = '\n' := Token.lineEnds_cons.mp (hrest ▸ h.ends)
    exact absurd hc (by decide)
  | cons d tail =>
    rw [hdrop] at hrest
    exact ⟨tail, by rw [(List.cons.inj hrest).1]⟩

/-- Inside a character the index cannot cut the line and counts its bytes. -/
theorem locate_of_inside {before rest : List Char} {c : Char} {target : Nat}
    (hafter : byteLength before < target) (hinside : target < byteLength before + c.utf8Size) :
    (ofText (before ++ c :: rest)).locate (before ++ c :: rest) target =
      ((Lines.locate (before ++ c :: rest) target).1.toUInt32,
        (Lines.locate (before ++ c :: rest) target).2.toUInt32) := by
  obtain ⟨start, line, behind, count, hline, hcount, rfl⟩ := exists_lineIn_append before (c :: rest)
  obtain ⟨tail, hdrop⟩ := exists_drop_eq_cons hline (by omega)
  have hplain : '\n' ∉ line.take count := fun hin => hline.plain (List.mem_of_mem_take hin)
  have hbytes : byteLength line =
      byteLength (line.take count) + (c.utf8Size + byteLength tail) := by
    have hparts := byteLength_append (line.take count) (line.drop count)
    rwa [List.take_append_drop, hdrop] at hparts
  have hlocate : Lines.locate (start ++ (line.take count ++ c :: rest)) target =
      (start.count '\n' + 1, target - byteLength start + 1) :=
    locate_inside hline.starts hplain hafter hinside
  rw [byteLength_append] at hafter hinside
  have hslice :
      slice? (start ++ line.take count ++ c :: rest) (byteLength start) target = none := by
    rw [slice?, List.append_assoc, splitBytes?_append, if_pos (by omega), Option.bind_some,
      splitBytes?_inside (by omega) (by omega), Option.map_none]
  rw [List.append_assoc] at hslice ⊢
  rw [hlocate, locate_of_lineIn (List.append_assoc .. ▸ hline) (by omega)
    (by rw [byteLength_append]; omega), hslice, Option.map_none, Option.getD_none]

/-- The index gives the words of the line and column that walking the text counts. -/
theorem locate_eq (text : List Char) (target : Nat) :
    (ofText text).locate text target =
      ((Lines.locate text target).1.toUInt32, (Lines.locate text target).2.toUInt32) := by
  by_cases hle : target ≤ byteLength text
  · rcases exists_append_of_le hle with hboundary | ⟨before, c, rest, rfl, hafter, hinside⟩
    · exact locate_of_isBoundary hboundary
    · exact locate_of_inside hafter hinside
  · have hclamp : (ofText text).locate text target =
        (ofText text).locate text (byteLength text) := by
      unfold locate
      rw [Nat.min_eq_right (by omega), Nat.min_self]
    rw [hclamp, locate_of_isBoundary ⟨text, [], (List.append_nil text).symm, rfl⟩,
      ← locate_of_le (Nat.le_of_not_le hle)]

/-- On a line that exists the index leads to a column, or to the end of the line. -/
theorem offset_of_lineIn {text before chars behind : List Char}
    (h : LineIn text before chars behind) {line : UInt32}
    (hline : line.toNat - 1 = before.count '\n') (column : UInt32) :
    (ofText text).offset text line column =
      some (byteLength (before ++ chars.take (column.toNat - 1))) := by
  have hentry : (ofText text).starts[line.toNat - 1]? = some (byteLength before) := by
    rw [hline, h.text_eq]
    exact getElem?_starts h.starts _
  have hrest : splitBytes? text (byteLength before) = some (before, chars ++ behind) := by
    rw [h.text_eq, splitBytes?_append]
  rw [offset, hentry]
  dsimp only
  rw [hrest, Option.map_some, takeWhile_charIndices h.plain h.ends,
    find?_charIndices h.plain h.ends, getElem?_charIndices, byteLength_append]
  cases hcolumn : chars[column.toNat - 1]? with
  | some c => simp
  | none =>
    -- Past the last character the line ends at its line feed or with the text.
    rw [List.take_of_length_le (List.getElem?_eq_none_iff.mp hcolumn)]
    cases behind with
    | nil => simp [h.text_eq, byteLength_append]
    | cons c behind => simp

theorem offset_of_lt {text : List Char} {line : UInt32}
    (h : (text.splitOn '\n').length < line.toNat) (column : UInt32) :
    (ofText text).offset text line column = some (byteLength text) := by
  rw [Text.length_splitOn] at h
  have hnone : (ofText text).starts[line.toNat - 1]? = none := by
    rw [Array.getElem?_eq_none_iff, size_starts]
    omega
  rw [offset, hnone]

/-- Every line and column leads to a place between two characters. -/
theorem exists_offset (text : List Char) (line column : UInt32) :
    ∃ target, (ofText text).offset text line column = some target ∧ IsBoundary text target := by
  cases hline : (text.splitOn '\n')[line.toNat - 1]? with
  | none =>
    have hpast := List.getElem?_eq_none_iff.mp hline
    have hone := Text.length_splitOn '\n' text
    exact ⟨_, offset_of_lt (by omega) column, text, [], (List.append_nil text).symm, rfl⟩
  | some chars =>
    obtain ⟨before, behind, hin, hcount⟩ := exists_lineIn_of_splitOn hline
    refine ⟨_, offset_of_lineIn hin hcount.symm column, _,
      chars.drop (column.toNat - 1) ++ behind, ?_, rfl⟩
    rw [hin.text_eq, List.append_assoc, ← List.append_assoc (chars.take _), List.take_append_drop]

/-! ### The two directions -/

/-- What the lines, columns and offsets of a text's own index have to do with each other. -/
structure Inverse (text : List Char) : Prop where
  /-- Lines count the line feeds before an offset, columns the characters since the last one. -/
  located : ∀ before rest, text = before ++ rest →
    ((ofText text).locate text (byteLength before)).1.toNat = before.count '\n' + 1 ∧
      ((ofText text).locate text (byteLength before)).2.toNat =
        (before.rtakeWhile (· ≠ '\n')).length + 1
  /-- Offsets past the end are taken to the end. -/
  clamped : ∀ target, byteLength text ≤ target →
    (ofText text).locate text target = (ofText text).locate text (byteLength text)
  /-- Offsets are found again from their lines and columns. -/
  returned : ∀ target, IsBoundary text target →
    (ofText text).offset text ((ofText text).locate text target).1
      ((ofText text).locate text target).2 = some target
  /-- Every line and column leads to a boundary, which is never behind the end. -/
  boundary : ∀ line column, ∃ target, (ofText text).offset text line column = some target ∧
    IsBoundary text target ∧ target ≤ byteLength text
  /-- Lines and columns are found again from their offsets. Zero counts as one, and a column past
      the end of its line is taken to that end. -/
  found : ∀ (line column : UInt32) chars, (text.splitOn '\n')[line.toNat - 1]? = some chars →
    ∃ target, (ofText text).offset text line column = some target ∧
      ((ofText text).locate text target).1.toNat = max line.toNat 1 ∧
      ((ofText text).locate text target).2.toNat = min (max column.toNat 1) (chars.length + 1)
  /-- A line past the last one is taken to the end of the text. -/
  past : ∀ (line column : UInt32), (text.splitOn '\n').length < line.toNat →
    (ofText text).offset text line column = some (byteLength text)

/-- The words of a text of less than `2 ^ 32 - 1` bytes hold its lines and columns. -/
theorem toNat_locate {text : List Char} (h : byteLength text < 2 ^ 32 - 1) (target : Nat) :
    ((ofText text).locate text target).1.toNat = (Lines.locate text target).1 ∧
      ((ofText text).locate text target).2.toNat = (Lines.locate text target).2 := by
  obtain ⟨hline, hcolumn⟩ := locate_le text target
  rw [locate_eq]
  exact ⟨UInt32.toNat_ofNat_of_lt' (by show _ < 2 ^ 32; omega),
    UInt32.toNat_ofNat_of_lt' (by show _ < 2 ^ 32; omega)⟩

/-- In every text of less than `2 ^ 32 - 1` bytes offsets, lines and columns are inverse to each
    other as far as they exist, and what does not exist is taken to the nearest place that does. -/
theorem locate_offset_inverse {text : List Char} (h : byteLength text < 2 ^ 32 - 1) :
    Inverse text where
  located before rest htext := by
    obtain ⟨hline, hcolumn⟩ := toNat_locate h (byteLength before)
    rw [hline, hcolumn, htext, locate_append_eq]
    exact ⟨rfl, rfl⟩
  clamped target hpast := by rw [locate_eq, locate_eq, locate_of_le hpast]
  returned target hboundary := by
    obtain ⟨before, rest, rfl, rfl⟩ := hboundary
    obtain ⟨start, line, behind, count, hline, hcount, hbefore⟩ := exists_lineIn_append before rest
    obtain ⟨hnumber, hcolumn⟩ := toNat_locate h (byteLength before)
    have hplace : Lines.locate (before ++ rest) (byteLength before) =
        (start.count '\n' + 1, count + 1) := by
      rw [hbefore] at hline ⊢
      exact hline.locate hcount
    rw [hplace] at hnumber hcolumn
    rw [offset_of_lineIn hline (by omega), hcolumn, Nat.add_sub_cancel, ← hbefore]
  boundary line column := by
    obtain ⟨target, htarget, hboundary⟩ := exists_offset text line column
    exact ⟨target, htarget, hboundary, hboundary.le⟩
  found line column chars hchars := by
    obtain ⟨before, behind, hline, hcount⟩ := exists_lineIn_of_splitOn hchars
    refine ⟨_, offset_of_lineIn hline hcount.symm column, ?_⟩
    have htake : chars.take (column.toNat - 1) =
        chars.take (min (column.toNat - 1) chars.length) := by
      rw [List.take_eq_take_iff]
      omega
    obtain ⟨hnumber, hcolumn⟩ :=
      toNat_locate h (byteLength (before ++ chars.take (column.toNat - 1)))
    rw [hnumber, hcolumn, htake, hline.locate (Nat.min_le_right _ _), hcount]
    exact ⟨by omega, by omega⟩
  past line column hpast := offset_of_lt hpast column

def accentedText : List Char := "ab\ncdé\nf".toList

/-- The offset behind that character is found again, and a column that does not exist leads to the
    end of its line. -/
theorem locate_offset_accentedText : byteLength accentedText < 2 ^ 32 - 1 ∧
    ((ofText accentedText).locate accentedText 7).1.toNat = 2 ∧
    ((ofText accentedText).locate accentedText 7).2.toNat = 4 ∧
    (ofText accentedText).offset accentedText ((ofText accentedText).locate accentedText 7).1
      ((ofText accentedText).locate accentedText 7).2 = some 7 ∧
    (∃ target, (ofText accentedText).offset accentedText 2 99 = some target ∧
      ((ofText accentedText).locate accentedText target).2.toNat = 4) ∧
    (ofText accentedText).offset accentedText 4 1 = some 9 := by
  have hbytes : byteLength accentedText < 2 ^ 32 - 1 := by decide
  have hinverse := locate_offset_inverse hbytes
  have hplace := hinverse.located "ab\ncdé".toList "\nf".toList rfl
  have hboundary : IsBoundary accentedText 7 := ⟨"ab\ncdé".toList, "\nf".toList, rfl, rfl⟩
  obtain ⟨target, htarget, _, hcolumn⟩ := hinverse.found 2 99 "cdé".toList (by decide)
  exact ⟨hbytes, hplace.1, hplace.2, hinverse.returned 7 hboundary, ⟨target, htarget, hcolumn⟩,
    hinverse.past 4 1 (by decide)⟩

end LineIndex

/-- Every diagnostic has a place in every source: no report is cut inside a character. -/
theorem Report.isSome_start? (d : Diagnostic) (source : List Char) :
    (start? d source).isSome := by
  obtain ⟨target, htarget, before, rest, rfl, rfl⟩ :=
    LineIndex.exists_offset source d.line.toUInt32 d.column.toUInt32
  rw [start?, htarget, Option.bind_some, Lines.splitBytes?_append]
  rfl

end ScriptCompiler
