import ScriptCompiler.Proofs.Brackets

/-!
# The surface of a text

The surface of a text are the characters that stand outside all brackets, string literals and
comments, where a bracket or quote that opens something counts as outside. A text hides a character
if the character is not at its surface; what stands between brackets is hidden.
-/

namespace ScriptCompiler.Brackets

/-- Nothing is open: neither a bracket nor a literal nor a comment. -/
def State.atSurface (s : State) : Bool :=
  s.awaited.isEmpty && (s.mode == .code || s.mode == .stroke)

/-- The characters of a text outside brackets, literals and comments. A wrong bracket ends it. -/
def surface : List Char → State → List Char
  | [], _ => []
  | c :: rest, s =>
    let behind := (step s c).elim [] (surface rest)
    if s.atSurface then c :: behind else behind

theorem surface_cons (c : Char) (rest : List Char) (s : State) :
    surface (c :: rest) s =
      (if s.atSurface then [c] else []) ++ (step s c).elim [] (surface rest) := by
  rw [surface]
  split <;> rfl

theorem surface_append {first : List Char} {s s' : State} (h : scan first s = some s')
    (second : List Char) :
    surface (first ++ second) s = surface first s ++ surface second s' := by
  induction first generalizing s with
  | nil =>
    obtain rfl := Option.some.inj h
    rfl
  | cons c rest ih =>
    obtain ⟨next, hnext, hrest⟩ := Option.bind_eq_some_iff.mp h
    rw [List.cons_append, surface_cons, surface_cons, hnext, Option.elim_some, Option.elim_some,
      ih hrest, List.append_assoc]

/-- Whatever follows, the surface of a text stays, even if it has wrong brackets. -/
theorem surface_prefix_append (first second : List Char) (s : State) :
    surface first s <+: surface (first ++ second) s := by
  induction first generalizing s with
  | nil => exact List.nil_prefix
  | cons c rest ih =>
    rw [List.cons_append, surface_cons, surface_cons, List.prefix_append_right_inj]
    cases step s c with
    | none => exact List.prefix_rfl
    | some next => exact ih next

/-- Inside further brackets nothing is at the surface. -/
theorem surface_within {text : List Char} {s s' : State} (h : scan text s = some s')
    {outer : List Char} (houter : outer ≠ []) : surface text (s.within outer) = [] := by
  induction text generalizing s with
  | nil => rfl
  | cons c rest ih =>
    obtain ⟨next, hnext, hrest⟩ := Option.bind_eq_some_iff.mp h
    have hopen : (s.within outer).atSurface = false := by
      simp [State.atSurface, State.within, houter]
    rw [surface_cons, hopen, step_within hnext, Option.elim_some, ih hrest]
    rfl

/-- All characters of a calm text are at the surface if nothing is open. -/
theorem surface_of_isCalm {text : List Char} (h : ∀ c ∈ text, isCalm c) :
    surface text .start = text := by
  induction text with
  | nil => rfl
  | cons c rest ih =>
    obtain ⟨hc, hrest⟩ := List.forall_mem_cons.mp h
    have hstep : step .start c = some .start := codeStep_of_isCalm hc []
    rw [surface_cons, hstep, Option.elim_some, ih hrest]
    rfl

/-! ### Hidden characters -/

/-- A piece of code closes the brackets `before`, leaves the brackets `after` open and does not show
    the character at its surface. -/
def Hides (c : Char) (text : String) (before after : List Char) : Prop :=
  Takes text before after ∧ c ∉ surface text.toList ⟨.code, before⟩

instance (c : Char) (text : String) (before after : List Char) :
    Decidable (Hides c text before after) :=
  inferInstanceAs (Decidable (_ ∧ _))

namespace Hides

variable {c : Char} {text first second : String} {x y z : List Char}

theorem append (h : Hides c first x y) (h' : Hides c second y z) :
    Hides c (first ++ second) x z := by
  refine ⟨h.1.append h'.1, ?_⟩
  rw [String.toList_append, surface_append h.1, List.mem_append, not_or]
  exact ⟨h.2, h'.2⟩

theorem of_open (h : Closed text) (hx : x ≠ []) : Hides c text x x := by
  refine ⟨h.everywhere x, ?_⟩
  have hwithin : surface text.toList (State.within ⟨.code, []⟩ x) = [] := surface_within h hx
  rw [show (⟨.code, x⟩ : State) = State.within ⟨.code, []⟩ x from rfl, hwithin]
  exact List.not_mem_nil

theorem enclosed {opening inner closing : String} (hinner : Closed inner)
    (hopening : Hides c opening [] x) (hclosing : Hides c closing x []) (hx : x ≠ []) :
    Hides c (opening ++ inner ++ closing) [] [] :=
  (hopening.append (of_open hinner hx)).append hclosing

theorem of_isCalm (h : IsCalm text) (hc : c ∉ text.toList) : Hides c text [] [] := by
  refine ⟨h.closed, ?_⟩
  rw [show (⟨.code, []⟩ : State) = .start from rfl, surface_of_isCalm h]
  exact hc

end Hides

theorem surface_quoteChar (c : Char) : surface (Script.quoteChar c) ⟨.literal, []⟩ = [] := by
  have hcontrol : ∀ n < 0x20, surface (['\\', 'u'] ++ List.replicate
      (4 - (Text.hexDigits n).length) '0' ++ Text.hexDigits n) ⟨.literal, []⟩ = [] := by
    decide
  unfold Script.quoteChar
  split
  · rfl
  split
  · rfl
  split
  · rfl
  split
  · rfl
  split
  · rfl
  split
  · rename_i hlow
    exact hcontrol c.toNat hlow
  · cases hstep : step ⟨.literal, []⟩ c <;> simp [surface, hstep, State.atSurface]

theorem surface_flatMap_quoteChar (chars : List Char) :
    surface (chars.flatMap Script.quoteChar) ⟨.literal, []⟩ = [] := by
  induction chars with
  | nil => rfl
  | cons c rest ih =>
    rw [List.flatMap_cons, surface_append (scan_quoteChar c), surface_quoteChar, ih]
    rfl

/-- Of a string literal only the quote at its start is at the surface. -/
theorem hides_quote {c : Char} (hc : c ≠ '"') (value : String) :
    Hides c (Script.quote value) [] [] := by
  refine ⟨closed_quote value, ?_⟩
  have hopens : step ⟨.code, []⟩ '"' = some ⟨.literal, []⟩ := rfl
  rw [Script.quote, String.toList_ofList, List.cons_append, surface_cons, hopens, Option.elim_some,
    surface_append (scan_flatMap_quoteChar _), surface_flatMap_quoteChar]
  simpa [surface, State.atSurface, step, endsLine] using hc

end ScriptCompiler.Brackets
