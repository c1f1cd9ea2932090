import Mathlib.Data.List.Basic
import ScriptCompiler.Text.Join

/-!
# Joined and split texts

What is joined with a separator can be told from the joined text, and a text can be joined again
from the pieces between the occurrences of a character.
-/

namespace ScriptCompiler.Text

variable {sep : List Char}

/-- Behind the first part each part follows a separator. -/
theorem intercalate_cons {α : Type} (sep part : List α) (rest : List (List α)) :
    sep.intercalate (part :: rest) = part ++ rest.flatMap (sep ++ ·) := by
  induction rest generalizing part with
  | nil => simp
  | cons next rest ih =>
    rw [List.intercalate_cons_cons, ih, List.flatMap_cons, List.append_assoc, List.append_assoc]

theorem intercalate_concat {parts : List (List Char)} (h : parts ≠ []) (last : List Char) :
    sep.intercalate (parts ++ [last]) = sep.intercalate parts ++ sep ++ last := by
  obtain ⟨part, rest, rfl⟩ := List.exists_cons_of_ne_nil h
  rw [List.cons_append, intercalate_cons, intercalate_cons, List.flatMap_append]
  simp

theorem notMem_intercalate {c : Char} (hsep : c ∉ sep) {parts : List (List Char)}
    (h : ∀ part ∈ parts, c ∉ part) : c ∉ sep.intercalate parts := by
  cases parts with
  | nil => exact List.not_mem_nil
  | cons part rest =>
    obtain ⟨hpart, hrest⟩ := List.forall_mem_cons.mp h
    rw [intercalate_cons, List.mem_append, List.mem_flatMap]
    rintro (hin | ⟨other, hother, hin⟩)
    · exact hpart hin
    · rcases List.mem_append.mp hin with hin | hin
      · exact hsep hin
      · exact hrest other hother hin

theorem toList_joinWith (sep : String) (parts : List String) :
    (joinWith sep parts).toList = sep.toList.intercalate (parts.map String.toList) := by
  rw [joinWith, toList_concat]
  induction parts with
  | nil => rfl
  | cons part rest ih =>
    cases rest with
    | nil => simp
    | cons next rest =>
      rw [List.map_cons, List.map_cons, List.intercalate_cons_cons, ← List.map_cons, ← ih]
      simp

theorem trimEndOf_of_notMem {c : Char} {text : List Char} (h : c ∉ text) :
    trimEndOf c text = text := by
  unfold trimEndOf
  cases hreverse : text.reverse with
  | nil => rw [List.dropWhile_nil, ← hreverse, List.reverse_reverse]
  | cons d rest =>
    have hd : (d == c) = false := by
      refine beq_eq_false_iff_ne.mpr ?_
      rintro rfl
      exact h (List.mem_reverse.mp (hreverse ▸ List.mem_cons_self))
    rw [List.dropWhile_cons_of_neg (by rw [hd]; exact Bool.false_ne_true), ← hreverse,
      List.reverse_reverse]

theorem replacePair_of_notMem (sub : List Char) {text : List Char} (h : ':' ∉ text) :
    replacePair sub text = text := by
  fun_induction replacePair sub text with
  | case1 => rfl
  | case2 c => rfl
  | case3 c d rest hpair _ =>
    rw [hpair.1] at h
    exact absurd List.mem_cons_self h
  | case4 c d rest hpair ih => rw [ih fun hin => h (List.mem_cons_of_mem c hin)]

theorem replacePair_append (sub : List Char) {word : List Char} (h : ':' ∉ word)
    (rest : List Char) :
    replacePair sub (word ++ ':' :: ':' :: rest) = word ++ sub ++ replacePair sub rest := by
  induction word with
  | nil => simp [replacePair]
  | cons c word ih =>
    have hc : c ≠ ':' := fun heq => h (heq ▸ List.mem_cons_self)
    have hword := ih fun hin => h (List.mem_cons_of_mem c hin)
    -- The character behind `c` is not looked at unless `c` is a colon.
    cases word with
    | nil => simp [replacePair, hc]
    | cons d word => simpa [replacePair, hc] using hword

/-- Segments that are joined by `::` become joined by another separator. -/
theorem replacePair_intercalate (sub : List Char) {segments : List (List Char)}
    (h : ∀ segment ∈ segments, ':' ∉ segment) :
    replacePair sub ([':', ':'].intercalate segments) = sub.intercalate segments := by
  cases segments with
  | nil => rfl
  | cons segment rest =>
    rw [intercalate_cons, intercalate_cons]
    induction rest generalizing segment with
    | nil =>
      have hsegment : ':' ∉ segment := h segment List.mem_cons_self
      simpa using replacePair_of_notMem sub hsegment
    | cons next rest ih =>
      obtain ⟨hsegment, hrest⟩ := List.forall_mem_cons.mp h
      rw [List.flatMap_cons, List.flatMap_cons, List.append_assoc, List.cons_append,
        List.cons_append, List.nil_append, replacePair_append sub hsegment, ih next hrest]
      simp only [List.append_assoc]

theorem splitOn_of_notMem {c : Char} {text : List Char} (h : c ∉ text) :
    text.splitOn c = [text] := by
  refine List.splitOnP_eq_singleton fun d hd => beq_eq_false_iff_ne.mpr ?_
  rintro rfl
  exact h hd

theorem splitOn_append (c : Char) (left right : List Char) :
    (left ++ c :: right).splitOn c = left.splitOn c ++ right.splitOn c := by
  have hsep : (fun d : Char => d == c) c = true := beq_self_eq_true c
  exact List.splitOnP_append_cons left right hsep

/-- What stands before the first separator belongs to the first piece. -/
theorem exists_splitOn_append {c : Char} {left : List Char} (h : c ∉ left) (right : List Char) :
    ∃ first rest, right.splitOn c = first :: rest ∧
      (left ++ right).splitOn c = (left ++ first) :: rest := by
  obtain ⟨first, rest, hright⟩ := List.exists_cons_of_ne_nil (List.splitOn_ne_nil c right)
  refine ⟨first, rest, hright, ?_⟩
  induction left with
  | nil => exact hright
  | cons d left ih =>
    have hd : (d == c) = false := beq_eq_false_iff_ne.mpr fun heq => h (heq ▸ List.mem_cons_self)
    have hleft := ih fun hin => h (List.mem_cons_of_mem d hin)
    rw [List.splitOn] at hleft ⊢
    rw [List.cons_append, List.splitOnP_cons_eq_if_modifyHead, hd, hleft]
    rfl

/-- Joined texts are split into the pieces of each text. -/
theorem length_splitOn (c : Char) (text : List Char) :
    (text.splitOn c).length = text.count c + 1 := by
  induction text with
  | nil => rfl
  | cons d rest ih =>
    by_cases hd : d = c
    · subst hd
      rw [← List.nil_append (d :: rest), splitOn_append, List.length_append, ih,
        splitOn_of_notMem List.not_mem_nil, List.nil_append, List.count_cons_self,
        List.length_singleton, Nat.add_comm]
    · have hleft : c ∉ [d] := fun h => hd (List.mem_singleton.mp h).symm
      obtain ⟨first, lines, hrest, hwhole⟩ := exists_splitOn_append hleft rest
      rw [List.singleton_append] at hwhole
      rw [hwhole, List.count_cons_of_ne hd, ← ih, hrest, List.length_cons, List.length_cons]

theorem splitOn_intercalate (c : Char) {parts : List (List Char)} (h : parts ≠ []) :
    ([c].intercalate parts).splitOn c = parts.flatMap (List.splitOn c) := by
  obtain ⟨part, rest, rfl⟩ := List.exists_cons_of_ne_nil h
  rw [intercalate_cons, List.flatMap_cons]
  induction rest generalizing part with
  | nil => simp
  | cons next rest ih =>
    rw [List.flatMap_cons, List.append_assoc, List.singleton_append, splitOn_append,
      ih next (List.cons_ne_nil next rest), List.flatMap_cons]

theorem splitOn_injective (c : Char) : Function.Injective (List.splitOn c) := by
  intro left right heq
  have hjoined := congrArg ([c].intercalate ·) heq
  simpa only [List.intercalate_splitOn] using hjoined

end ScriptCompiler.Text
