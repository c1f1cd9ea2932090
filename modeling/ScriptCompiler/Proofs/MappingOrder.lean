import ScriptCompiler.Proofs.MappingText

/-!
# Source maps lose nothing

A source map can be made of mappings in any order. Its text stands for the same mappings, sorted by
their places in the script, and those of one place stand in the order in which they were given. What
is read from the text fits into the words that mappings are made of.
-/

namespace ScriptCompiler

open scoped List

/-! ### The order of mappings -/

namespace Mapping

/-- The mapping stands earlier in the script than the other one, or at the same place. -/
def UpTo (m other : Mapping) : Prop :=
  m.scriptLine < other.scriptLine ∨
    (m.scriptLine = other.scriptLine ∧ m.scriptColumn ≤ other.scriptColumn)

/-- The mapping stands at the given place of the script. -/
def isAt (line column : UInt32) (m : Mapping) : Bool :=
  m.scriptLine = line ∧ m.scriptColumn = column

theorem notAfter_iff {m other : Mapping} : m.notAfter other ↔ m.UpTo other := by
  simp [notAfter, UpTo]

theorem upTo_iff_toNat {m other : Mapping} :
    m.UpTo other ↔ m.scriptLine.toNat < other.scriptLine.toNat ∨
      (m.scriptLine.toNat = other.scriptLine.toNat ∧
        m.scriptColumn.toNat ≤ other.scriptColumn.toNat) := by
  rw [UpTo, UInt32.lt_iff_toNat_lt, UInt32.le_iff_toNat_le, UInt32.toNat_inj]

theorem upTo_refl (m : Mapping) : m.UpTo m :=
  .inr ⟨rfl, UInt32.le_refl _⟩

theorem upTo_trans {a b c : Mapping} (hab : a.UpTo b) (hbc : b.UpTo c) : a.UpTo c := by
  rw [upTo_iff_toNat] at *
  omega

theorem upTo_total (m other : Mapping) : m.UpTo other ∨ other.UpTo m := by
  rw [upTo_iff_toNat, upTo_iff_toNat]
  omega

theorem isAt_self (m : Mapping) : m.isAt m.scriptLine m.scriptColumn := by
  simp [isAt]

theorem upTo_of_isAt {m other : Mapping} {line column : UInt32} (h : m.isAt line column)
    (h' : other.isAt line column) : m.UpTo other := by
  simp only [isAt, decide_eq_true_eq] at h h'
  refine .inr ⟨h.1.trans h'.1.symm, ?_⟩
  rw [h.2, h'.2]
  exact UInt32.le_refl _

/-- Mappings that are not earlier than each other stand at the same place. -/
theorem isAt_of_upTo {m other : Mapping} (h : m.UpTo other) (h' : other.UpTo m) :
    m.isAt other.scriptLine other.scriptColumn := by
  rw [upTo_iff_toNat] at h h'
  have hline : m.scriptLine = other.scriptLine := UInt32.toNat_inj.mp (by omega)
  have hcolumn : m.scriptColumn = other.scriptColumn := UInt32.toNat_inj.mp (by omega)
  simp [isAt, hline, hcolumn]

theorem insert_perm (m : Mapping) (ms : List Mapping) : m.insert ms ~ m :: ms := by
  induction ms with
  | nil => exact .refl _
  | cons first rest ih =>
    rw [insert]
    split
    · exact .refl _
    · exact (ih.cons first).trans (.swap ..)

theorem pairwise_insert (m : Mapping) {ms : List Mapping} (h : ms.Pairwise UpTo) :
    (m.insert ms).Pairwise UpTo := by
  induction ms with
  | nil => exact List.pairwise_singleton _ _
  | cons first rest ih =>
    obtain ⟨hfirst, hrest⟩ := List.pairwise_cons.mp h
    rw [insert]
    by_cases hbefore : m.notAfter first
    · rw [if_pos hbefore]
      have hupTo := notAfter_iff.mp hbefore
      refine List.pairwise_cons.mpr ⟨List.forall_mem_cons.mpr ⟨hupTo, fun n hn => ?_⟩, h⟩
      exact upTo_trans hupTo (hfirst n hn)
    · rw [if_neg hbefore]
      have hafter : first.UpTo m :=
        (upTo_total first m).resolve_right (mt notAfter_iff.mpr hbefore)
      refine List.pairwise_cons.mpr ⟨fun n hn => ?_, ih hrest⟩
      rcases List.mem_cons.mp ((m.insert_perm rest).mem_iff.mp hn) with rfl | hn
      · exact hafter
      · exact hfirst n hn

/-- A mapping is put before the others of its place. -/
theorem filter_insert (m : Mapping) (ms : List Mapping) (line column : UInt32) :
    (m.insert ms).filter (isAt line column) = (m :: ms).filter (isAt line column) := by
  induction ms with
  | nil => rfl
  | cons first rest ih =>
    rw [insert]
    by_cases hbefore : m.notAfter first
    · rw [if_pos hbefore]
    · rw [if_neg hbefore, List.filter_cons, ih, List.filter_cons, List.filter_cons, List.filter_cons]
      -- Only mappings of earlier places are passed, so one of the two is not at this place.
      by_cases hm : m.isAt line column
      · have hfirst : ¬ first.isAt line column :=
          fun hfirst => hbefore (notAfter_iff.mpr (upTo_of_isAt hm hfirst))
        rw [if_neg hfirst, if_neg hfirst]
      · rw [if_neg hm, if_neg hm]

end Mapping

/-- The mappings in the order of their places in the script. Those of one place keep the order in
    which they were given. -/
structure StablySorted (given sorted : List Mapping) : Prop where
  perm : sorted ~ given
  ordered : sorted.Pairwise Mapping.UpTo
  stable : ∀ line column, sorted.filter (Mapping.isAt line column) =
    given.filter (Mapping.isAt line column)

namespace StablySorted

theorem nil : StablySorted [] [] :=
  ⟨.refl _, .nil, fun _ _ => rfl⟩

/-- A mapping that is given before the others goes before those of its own place. -/
theorem insert {given sorted : List Mapping} (h : StablySorted given sorted) (m : Mapping) :
    StablySorted (m :: given) (m.insert sorted) where
  perm := (m.insert_perm sorted).trans (h.perm.cons m)
  ordered := m.pairwise_insert h.ordered
  stable line column := by
    rw [m.filter_insert, List.filter_cons, List.filter_cons, h.stable]

/-- The mappings of a source map are stably sorted. -/
theorem sort (given : List Mapping) : StablySorted given (Mapping.sort given) := by
  induction given with
  | nil => exact .nil
  | cons m rest ih => exact ih.insert m

theorem mem_iff_of_filter {a b : List Mapping} (h : ∀ line column,
    a.filter (Mapping.isAt line column) = b.filter (Mapping.isAt line column)) (m : Mapping) :
    m ∈ a ↔ m ∈ b := by
  have hat := congrArg (m ∈ ·) (h m.scriptLine m.scriptColumn)
  simpa [List.mem_filter, m.isAt_self] using hat

/-- Sorted mappings are determined by those of each place. -/
theorem eq_of_filter {a b : List Mapping} (ha : a.Pairwise Mapping.UpTo)
    (hb : b.Pairwise Mapping.UpTo) (h : ∀ line column, a.filter (Mapping.isAt line column) =
      b.filter (Mapping.isAt line column)) : a = b := by
  induction a generalizing b with
  | nil =>
    cases b with
    | nil => rfl
    | cons n b => exact absurd ((mem_iff_of_filter h n).mpr List.mem_cons_self) List.not_mem_nil
  | cons m a ih =>
    cases b with
    | nil => exact absurd ((mem_iff_of_filter h m).mp List.mem_cons_self) List.not_mem_nil
    | cons n b =>
      obtain ⟨hm, hrestA⟩ := List.pairwise_cons.mp ha
      obtain ⟨hn, hrestB⟩ := List.pairwise_cons.mp hb
      -- The first mapping of each list is not after that of the other.
      have hmn : m.UpTo n := List.forall_mem_cons.mpr ⟨m.upTo_refl, hm⟩ n
        ((mem_iff_of_filter h n).mpr List.mem_cons_self)
      have hnm : n.UpTo m := List.forall_mem_cons.mpr ⟨n.upTo_refl, hn⟩ m
        ((mem_iff_of_filter h m).mp List.mem_cons_self)
      have hfirst := h n.scriptLine n.scriptColumn
      rw [List.filter_cons_of_pos (Mapping.isAt_of_upTo hmn hnm),
        List.filter_cons_of_pos n.isAt_self] at hfirst
      obtain rfl : m = n := (List.cons.inj hfirst).1
      refine congrArg (m :: ·) (ih hrestA hrestB fun line column => ?_)
      have hboth := h line column
      rw [List.filter_cons, List.filter_cons] at hboth
      split at hboth
      · exact (List.cons.inj hboth).2
      · exact hboth

theorem unique {given a b : List Mapping} (ha : StablySorted given a) (hb : StablySorted given b) :
    a = b :=
  eq_of_filter ha.ordered hb.ordered fun line column =>
    (ha.stable line column).trans (hb.stable line column).symm

end StablySorted

/-! ### Words -/

/-- The word with the given value. -/
def word? (n : Int) : Option UInt32 :=
  if 0 ≤ n ∧ n < 2 ^ 32 then some n.toNat.toUInt32 else none

/-- The mapping with the given numbers, if they fit into words. -/
def DecodedMapping.mapping? (m : DecodedMapping) : Option Mapping := do
  let scriptLine ← word? m.line
  let scriptColumn ← word? m.column
  let file ← word? m.file
  let sourceLine ← word? m.sourceLine
  let sourceColumn ← word? m.sourceColumn
  return ⟨scriptLine, scriptColumn, file, sourceLine, sourceColumn⟩

/-- The mappings that a text stands for, if their numbers fit into words. -/
def readMappings (text : String) : Option (List Mapping) :=
  (decodeMappings text).bind fun decoded => decoded.mapM DecodedMapping.mapping?

@[simp] theorem word?_toNat (w : UInt32) : word? w.toNat = some w := by
  have hlt : (w.toNat : Int) < 2 ^ 32 := by exact_mod_cast w.toNat_lt
  rw [word?, if_pos ⟨Int.natCast_nonneg _, hlt⟩, Int.toNat_natCast]
  exact congrArg some (UInt32.ofNat_toNat)

theorem mapping?_decoded (m : Mapping) : m.decoded.mapping? = some m := by
  simp [Mapping.decoded, DecodedMapping.mapping?]

theorem mapM_mapping?_decoded (ms : List Mapping) :
    (ms.map Mapping.decoded).mapM DecodedMapping.mapping? = some ms := by
  induction ms with
  | nil => rfl
  | cons m rest ih => simp [mapping?_decoded, ih]

/-- Mappings in the order of their lines are read back word by word. -/
theorem readMappings_encodeMappings {ms : List Mapping}
    (h : (ms.map Mapping.scriptLine).Pairwise (· ≤ ·)) :
    readMappings (encodeMappings ms) = some ms := by
  rw [readMappings, decodeMappings_encodeMappings h.isChain]
  exact mapM_mapping?_decoded ms

/-- Mappings in the order of their lines are read back from their text. From the text of a source
    map, whose mappings may be given in any order, they are read back in their stable order and in no
    other. -/
theorem mappings_lossless (ms : List Mapping) :
    ((ms.map Mapping.scriptLine).Pairwise (· ≤ ·) → readMappings (encodeMappings ms) = some ms) ∧
    ∀ (script : String) (files : List String) (sorted : List Mapping),
      readMappings (SourceMap.build script files ms).mappings = some sorted ↔
        StablySorted ms sorted := by
  refine ⟨readMappings_encodeMappings, fun script files sorted => ?_⟩
  have hsort := StablySorted.sort ms
  have hlines : ((Mapping.sort ms).map Mapping.scriptLine).Pairwise (· ≤ ·) := by
    refine List.pairwise_map.mpr (hsort.ordered.imp fun {m n} hupTo => ?_)
    rcases hupTo with hlt | ⟨heq, _⟩
    · exact UInt32.le_of_lt hlt
    · exact heq ▸ UInt32.le_refl _
  show readMappings (encodeMappings (Mapping.sort ms)) = some sorted ↔ _
  rw [readMappings_encodeMappings hlines, Option.some.injEq]
  exact ⟨fun heq => heq ▸ hsort, fun h => hsort.unique h⟩

/-- Mappings whose columns, files and source places go back and forth, with two of one place and a
    line that has none. -/
def backAndForth : List Mapping :=
  [⟨0, 4, 2, 9, 0⟩, ⟨0, 4, 0, 4294967295, 3⟩, ⟨2, 1, 1, 0, 40⟩, ⟨2, 0, 1, 7, 2⟩]

/-- Given the other way round, the mappings of one place change their order and those of the last
    line do not. -/
theorem readMappings_backAndForth :
    (backAndForth.map Mapping.scriptLine).Pairwise (· ≤ ·) ∧
      encodeMappings backAndForth = "IESA,AFs/////HG;;CC//////HqC,DAOtC" ∧
      readMappings (encodeMappings backAndForth) = some backAndForth ∧
      StablySorted backAndForth.reverse
        [⟨0, 4, 0, 4294967295, 3⟩, ⟨0, 4, 2, 9, 0⟩, ⟨2, 0, 1, 7, 2⟩, ⟨2, 1, 1, 0, 40⟩] := by
  have hlines : (backAndForth.map Mapping.scriptLine).Pairwise (· ≤ ·) := by decide
  refine ⟨hlines, by decide +kernel, (mappings_lossless backAndForth).1 hlines, ?_⟩
  exact ((mappings_lossless backAndForth.reverse).2 "a.js" ["a.tn"] _).mp (by decide +kernel)

end ScriptCompiler
