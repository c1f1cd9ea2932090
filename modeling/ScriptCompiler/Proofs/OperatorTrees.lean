/-!
# Trees of operators and operands

A sequence of operands with operators between them can be read as many trees, but only one of them
groups the operators by their precedence. Precedence climbing finds this tree from left to right.
-/

namespace ScriptCompiler

/-- The precedence of operators and the side to which they group, which is the same for operators of
    one precedence. -/
structure OperatorTable (ω : Type) where
  precedence : ω → Nat
  groupsRight : ω → Bool
  uniform : ∀ {op op'}, precedence op = precedence op' → groupsRight op = groupsRight op'

namespace OperatorTable

variable {ω : Type} (table : OperatorTable ω)

/-- The least precedence of an operator directly to the left of `op`: it binds tighter, or as
    tightly if `op` groups to the left. -/
def leftLeast (op : ω) : Nat :=
  if table.groupsRight op then table.precedence op + 1 else table.precedence op

/-- The least precedence of an operator directly to the right of `op`: it binds tighter, or as
    tightly if `op` groups to the right. -/
def rightLeast (op : ω) : Nat :=
  if table.groupsRight op then table.precedence op else table.precedence op + 1

theorem precedence_le_leftLeast (op : ω) : table.precedence op ≤ table.leftLeast op := by
  unfold leftLeast
  split <;> omega

theorem precedence_le_rightLeast (op : ω) : table.precedence op ≤ table.rightLeast op := by
  unfold rightLeast
  split <;> omega

/-- What may not stand to the right of an operator has it on its left. -/
theorem leftLeast_le_of_lt_rightLeast {op next : ω}
    (h : table.precedence next < table.rightLeast op) :
    table.leftLeast next ≤ table.precedence op := by
  have huniform : table.precedence next = table.precedence op →
      table.groupsRight next = table.groupsRight op := table.uniform
  unfold rightLeast at h
  unfold leftLeast
  grind

/-- Of two operators, at most one lies below the other. -/
theorem lt_rightLeast_of_leftLeast_le {op next : ω}
    (h : table.leftLeast next ≤ table.precedence op) :
    table.precedence next < table.rightLeast op := by
  have huniform : table.precedence next = table.precedence op →
      table.groupsRight next = table.groupsRight op := table.uniform
  unfold leftLeast at h
  unfold rightLeast
  grind

end OperatorTable

/-- Operands joined by operators. -/
inductive OperatorTree (α ω : Type) where
  | operand (a : α)
  | node (op : ω) (left right : OperatorTree α ω)

namespace OperatorTree

variable {α ω : Type}

/-- The leftmost operand. -/
def first : OperatorTree α ω → α
  | operand a => a
  | node _ left _ => left.first

/-- The operators from left to right, each with the operand that follows it. -/
def links : OperatorTree α ω → List (ω × α)
  | operand _ => []
  | node op left right => left.links ++ (op, right.first) :: right.links

variable (table : OperatorTable ω)

/-- The operator at the root, if there is one, has at least precedence `least`. -/
def AtLeast (least : Nat) : OperatorTree α ω → Prop
  | operand _ => True
  | node op _ _ => least ≤ table.precedence op

/-- The operators next to each operator stand below it only if they bind tightly enough. -/
def Grouped : OperatorTree α ω → Prop
  | operand _ => True
  | node op left right =>
    left.AtLeast table (table.leftLeast op) ∧ right.AtLeast table (table.rightLeast op) ∧
      left.Grouped ∧ right.Grouped

variable {table}

theorem AtLeast.mono {least least' : Nat} {t : OperatorTree α ω} (h : t.AtLeast table least)
    (hle : least' ≤ least) : t.AtLeast table least' := by
  cases t with
  | operand a => trivial
  | node op left right => exact Nat.le_trans hle h

namespace Grouped

/-- In a grouped tree no operator binds looser than the one at the root. -/
theorem le_precedence {t : OperatorTree α ω} (h : t.Grouped table) {least : Nat}
    (hleast : t.AtLeast table least) {link : ω × α} (hlink : link ∈ t.links) :
    least ≤ table.precedence link.1 := by
  induction t generalizing least with
  | operand a => cases hlink
  | node op left right ihleft ihright =>
    obtain ⟨hl, hr, hleft, hright⟩ := h
    have hroot : least ≤ table.precedence op := hleast
    rw [links, List.mem_append, List.mem_cons] at hlink
    rcases hlink with hlink | rfl | hlink
    · exact ihleft hleft (hl.mono (Nat.le_trans hroot (table.precedence_le_leftLeast op))) hlink
    · exact hroot
    · exact ihright hright (hr.mono (Nat.le_trans hroot (table.precedence_le_rightLeast op))) hlink

/-- Of two grouped trees of one sequence, none has its root behind that of the other. -/
theorem length_left_le {op op' : ω} {left right left' right' : OperatorTree α ω}
    (h : (node op left right).Grouped table) (h' : (node op' left' right').Grouped table)
    (hlinks : (node op left right).links = (node op' left' right').links) :
    left'.links.length ≤ left.links.length := by
  obtain ⟨-, hr, -, hright⟩ := h
  obtain ⟨hl', -, hleft', -⟩ := h'
  refine Nat.le_of_not_lt fun hlt => ?_
  rcases List.append_eq_append_iff.mp hlinks with ⟨between, hbetween, heq⟩ | ⟨between, hbetween, -⟩
  · cases between with
    | nil => simp [hbetween] at hlt
    | cons link between =>
      -- Each of the two roots lies inside an operand of the other.
      obtain ⟨rfl, htail⟩ := List.cons.inj heq
      have hop : (op, right.first) ∈ left'.links := by simp [hbetween]
      have hop' : (op', right'.first) ∈ right.links := by simp [htail]
      have hbelow : table.leftLeast op' ≤ table.precedence op := hleft'.le_precedence hl' hop
      have habove : table.rightLeast op ≤ table.precedence op' := hright.le_precedence hr hop'
      have hapart := table.lt_rightLeast_of_leftLeast_le hbelow
      omega
  · rw [hbetween, List.length_append] at hlt
    omega

theorem eq_of_links {t t' : OperatorTree α ω} (h : t.Grouped table) (h' : t'.Grouped table)
    (hfirst : t.first = t'.first) (hlinks : t.links = t'.links) : t = t' := by
  induction t generalizing t' with
  | operand a =>
    cases t' with
    | operand a' => exact congrArg operand hfirst
    | node op' left' right' => simp [links] at hlinks
  | node op left right ihleft ihright =>
    cases t' with
    | operand a' => simp [links] at hlinks
    | node op' left' right' =>
      have hlength : left.links.length = left'.links.length :=
        Nat.le_antisymm (length_left_le h' h hlinks.symm) (length_left_le h h' hlinks)
      obtain ⟨hleft, hrest⟩ := List.append_inj hlinks hlength
      obtain ⟨hroot, hright⟩ := List.cons.inj hrest
      obtain ⟨rfl, hnext⟩ := Prod.mk.inj hroot
      rw [ihleft h.2.2.1 h'.2.2.1 hfirst hleft, ihright h.2.2.2 h'.2.2.2 hnext hright]

end Grouped

end OperatorTree

open OperatorTree

variable {α ω : Type} {table : OperatorTable ω}

/-- Precedence climbing. To the tree `left` the operators that follow are added, each with its right
    operand, as long as they have at least precedence `least`. -/
inductive Climbs (table : OperatorTable ω) : (least : Nat) → (left : OperatorTree α ω) →
    (links : List (ω × α)) → OperatorTree α ω → (rest : List (ω × α)) → Prop where
  | stop {least : Nat} {left : OperatorTree α ω} {links : List (ω × α)}
      (h : ∀ link ∈ links.head?, table.precedence link.1 < least) :
      Climbs table least left links left links
  | step {least : Nat} {left right t : OperatorTree α ω} {op : ω} {a : α}
      {links middle rest : List (ω × α)} (h : least ≤ table.precedence op)
      (hright : Climbs table (table.rightLeast op) (.operand a) links right middle)
      (hrest : Climbs table least (.node op left right) middle t rest) :
      Climbs table least left ((op, a) :: links) t rest

namespace Climbs

theorem spells {least : Nat} {left t : OperatorTree α ω} {links rest : List (ω × α)}
    (h : Climbs table least left links t rest) :
    t.first = left.first ∧ t.links ++ rest = left.links ++ links := by
  induction h with
  | stop => exact ⟨rfl, rfl⟩
  | step _ _ _ ihright ihrest =>
    obtain ⟨hfirst, hlinks⟩ := ihright
    refine ⟨ihrest.1, ihrest.2.trans ?_⟩
    simp only [OperatorTree.links, hfirst, OperatorTree.first, List.append_assoc, List.cons_append,
      hlinks, List.nil_append]

/-- Climbing keeps the tree grouped, and stops only where it has to. -/
theorem grouped {least : Nat} {left t : OperatorTree α ω} {links rest : List (ω × α)}
    (h : Climbs table least left links t rest) (hleft : left.Grouped table)
    (hroot : left.AtLeast table least)
    (hnext : ∀ link ∈ links.head?, left.AtLeast table (table.leftLeast link.1)) :
    t.Grouped table ∧ t.AtLeast table least ∧
      ∀ link ∈ rest.head?, table.precedence link.1 < least := by
  induction h with
  | stop hstop => exact ⟨hleft, hroot, hstop⟩
  | step hop _ _ ihright ihrest =>
    obtain ⟨hright, hr, hstop⟩ := ihright trivial trivial fun _ _ => trivial
    exact ihrest ⟨hnext _ rfl, hr, hleft, hright⟩ hop fun link hlink =>
      table.leftLeast_le_of_lt_rightLeast (hstop link hlink)

end Climbs

theorem exists_climbs (table : OperatorTable ω) (least : Nat) (left : OperatorTree α ω)
    (links : List (ω × α)) :
    ∃ t rest, Climbs table least left links t rest ∧ rest.length ≤ links.length := by
  -- Both the right operand and what follows it come from fewer links.
  induction hn : links.length using Nat.strongRecOn generalizing least left links with
  | ind n ih =>
    subst hn
    match links with
    | [] => exact ⟨left, [], .stop (by simp), Nat.le_refl _⟩
    | (op, a) :: links =>
      by_cases hop : least ≤ table.precedence op
      · obtain ⟨right, middle, hright, hmiddle⟩ :=
          ih links.length (Nat.lt_succ_self _) (table.rightLeast op) (.operand a) links rfl
        obtain ⟨t, rest, hrest, hle⟩ :=
          ih middle.length (Nat.lt_succ_of_le hmiddle) least (.node op left right) middle rfl
        exact ⟨t, rest, .step hop hright hrest, by simp only [List.length_cons]; omega⟩
      · refine ⟨left, (op, a) :: links, .stop ?_, Nat.le_refl _⟩
        rintro _ ⟨⟩
        exact Nat.lt_of_not_le hop

/-- Climbing from the loosest precedence finds the grouped tree of the whole sequence. -/
theorem exists_climbs_grouped (table : OperatorTable ω) {least : Nat}
    (hleast : ∀ op, least ≤ table.precedence op) (a : α) (links : List (ω × α)) :
    ∃ t : OperatorTree α ω, Climbs table least (.operand a) links t [] ∧ t.Grouped table ∧
      t.first = a ∧ t.links = links := by
  obtain ⟨t, rest, hclimbs, -⟩ := exists_climbs table least (.operand a) links
  obtain ⟨hgrouped, -, hstop⟩ := hclimbs.grouped trivial trivial fun _ _ => trivial
  obtain ⟨hfirst, hlinks⟩ := hclimbs.spells
  cases rest with
  | nil => exact ⟨t, hclimbs, hgrouped, hfirst, by simpa [OperatorTree.links] using hlinks⟩
  | cons link rest =>
    have hlt := hstop link rfl
    exact absurd (hleast link.1) (Nat.not_le_of_lt hlt)

end ScriptCompiler
