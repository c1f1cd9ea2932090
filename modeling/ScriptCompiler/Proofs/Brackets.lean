import ScriptCompiler.Proofs.JoinedText
import ScriptCompiler.Script.Literal

/-!
# Brackets of a text

A text is scanned from the left for brackets. String literals between double quotes, in which a
backslash hides the next character, and comments from two strokes to the end of the line are passed
over. Each closing bracket has to be the counterpart of the latest open one, and a literal has to be
closed on its line.
-/

namespace ScriptCompiler.Brackets

/-- Where the scan is. -/
inductive Mode where
  | code
  /-- In code, behind a stroke. -/
  | stroke
  | comment
  | literal
  /-- In a literal, behind a backslash. -/
  | escape
deriving DecidableEq, Repr

/-- What the scan remembers. -/
structure State where
  mode : Mode
  /-- The brackets that have to come, the next one first. -/
  awaited : List Char
deriving DecidableEq, Repr

/-- The scan of a text starts in code with nothing open. -/
def State.start : State := ⟨.code, []⟩

def counterpart? (c : Char) : Option Char :=
  if c = '(' then some ')' else if c = '[' then some ']' else if c = '{' then some '}' else none

def isCloser (c : Char) : Bool :=
  c == ')' || c == ']' || c == '}'

def endsLine (c : Char) : Bool :=
  c == '\n' || c == '\r'

def codeStep (awaited : List Char) (c : Char) : Option State :=
  match counterpart? c with
  | some closer => some ⟨.code, closer :: awaited⟩
  | none =>
    if isCloser c then
      match awaited with
      | [] => none
      | next :: outer => if c = next then some ⟨.code, outer⟩ else none
    else some ⟨if c = '"' then .literal else if c = '/' then .stroke else .code, awaited⟩

/-- The scan of a character, unless it closes the wrong bracket or ends the line of a literal. -/
def step (s : State) (c : Char) : Option State :=
  match s.mode with
  | .code => codeStep s.awaited c
  | .stroke => if c = '/' then some { s with mode := .comment } else codeStep s.awaited c
  | .comment => some { s with mode := if c = '\n' then .code else .comment }
  | .literal =>
    if endsLine c then none
    else some { s with mode := if c = '"' then .code else if c = '\\' then .escape else .literal }
  | .escape => if endsLine c then none else some { s with mode := .literal }

/-- The scan of a text. -/
def scan : List Char → State → Option State
  | [], s => some s
  | c :: rest, s => (step s c).bind (scan rest)

/-- The scan of the text finds every bracket closed by its counterpart and every literal closed on
    its line, and ends where it started: in code with nothing open. -/
def WellFormed (text : String) : Prop :=
  scan text.toList .start = some .start

instance (text : String) : Decidable (WellFormed text) :=
  inferInstanceAs (Decidable (_ = _))

theorem scan_append (first second : List Char) (s : State) :
    scan (first ++ second) s = (scan first s).bind (scan second) := by
  induction first generalizing s with
  | nil => rfl
  | cons c rest ih =>
    rw [List.cons_append, scan, scan, Option.bind_assoc]
    exact Option.bind_congr fun s' _ => ih s'

/-! ### Brackets further out -/

def State.within (s : State) (outer : List Char) : State :=
  { s with awaited := s.awaited ++ outer }

theorem codeStep_within {awaited : List Char} {c : Char} {s : State}
    (h : codeStep awaited c = some s) (outer : List Char) :
    codeStep (awaited ++ outer) c = some (s.within outer) := by
  unfold codeStep at h ⊢
  cases hopens : counterpart? c with
  | some closer =>
    rw [hopens] at h
    obtain rfl := Option.some.inj h
    rfl
  | none =>
    rw [hopens] at h
    dsimp only at h ⊢
    split
    · rename_i hcloser
      rw [if_pos hcloser] at h
      -- A closer with nothing awaited is refused, so this one never reaches for `outer`.
      cases awaited with
      | nil => cases h
      | cons next rest =>
        dsimp only at h
        split at h
        · rename_i hnext
          obtain rfl := Option.some.inj h
          exact if_pos hnext
        · cases h
    · rename_i hcloser
      rw [if_neg hcloser] at h
      obtain rfl := Option.some.inj h
      rfl

theorem step_within {s s' : State} {c : Char} (h : step s c = some s') (outer : List Char) :
    step (s.within outer) c = some (s'.within outer) := by
  obtain ⟨mode, awaited⟩ := s
  cases mode with
  | code => exact codeStep_within h outer
  | stroke =>
    dsimp only [step, State.within] at h ⊢
    split at h
    · rename_i hstroke
      obtain rfl := Option.some.inj h
      exact if_pos hstroke
    · rename_i hstroke
      rw [if_neg hstroke]
      exact codeStep_within h outer
  | comment =>
    obtain rfl := Option.some.inj h
    rfl
  | literal | escape =>
    dsimp only [step, State.within] at h ⊢
    split at h
    · cases h
    · rename_i hinside
      obtain rfl := Option.some.inj h
      exact if_neg hinside

theorem scan_within {text : List Char} {s s' : State} (h : scan text s = some s')
    (outer : List Char) : scan text (s.within outer) = some (s'.within outer) := by
  induction text generalizing s with
  | nil =>
    obtain rfl := Option.some.inj h
    rfl
  | cons c rest ih =>
    obtain ⟨next, hnext, hrest⟩ := Option.bind_eq_some_iff.mp h
    rw [scan, step_within hnext]
    exact ih hrest

/-! ### Pieces of code -/

/-- A piece of code closes the brackets `before` and leaves the brackets `after` open. -/
def Takes (text : String) (before after : List Char) : Prop :=
  scan text.toList ⟨.code, before⟩ = some ⟨.code, after⟩

instance (text : String) (before after : List Char) : Decidable (Takes text before after) :=
  inferInstanceAs (Decidable (_ = _))

/-- A piece of code closes what it opens, and nothing else. -/
abbrev Closed (text : String) : Prop :=
  Takes text [] []

namespace Takes

variable {text first second : String} {x y z : List Char}

theorem within (h : Takes text x y) (outer : List Char) : Takes text (x ++ outer) (y ++ outer) :=
  scan_within h outer

theorem everywhere (h : Closed text) (x : List Char) : Takes text x x :=
  h.within x

theorem append (h : Takes first x y) (h' : Takes second y z) : Takes (first ++ second) x z := by
  unfold Takes at h h' ⊢
  rw [String.toList_append, scan_append, h]
  exact h'

theorem append_closed (h : Takes first x y) (h' : Closed second) : Takes (first ++ second) x y :=
  h.append (h'.everywhere y)

end Takes

theorem Closed.enclosed {opening inner closing : String} {x : List Char}
    (hinner : Closed inner) (hopening : Takes opening [] x) (hclosing : Takes closing x []) :
    Closed (opening ++ inner ++ closing) :=
  (hopening.append_closed hinner).append hclosing

theorem closed_concat {parts : List String} (h : ∀ part ∈ parts, Closed part) :
    Closed (Text.concat parts) := by
  induction parts with
  | nil => rfl
  | cons part rest ih =>
    obtain ⟨hpart, hrest⟩ := List.forall_mem_cons.mp h
    have hcons : Text.concat (part :: rest) = part ++ Text.concat rest := by
      rw [← String.toList_inj]
      simp
    rw [hcons]
    exact hpart.append_closed (ih hrest)

theorem closed_joinWith {separator : String} (hseparator : Closed separator) {parts : List String}
    (h : ∀ part ∈ parts, Closed part) : Closed (Text.joinWith separator parts) := by
  refine closed_concat ?_
  induction parts with
  | nil => exact h
  | cons part rest ih =>
    obtain ⟨hpart, hrest⟩ := List.forall_mem_cons.mp h
    cases rest with
    | nil => exact h
    | cons next rest =>
      rw [List.intersperse_cons_cons, List.forall_mem_cons, List.forall_mem_cons]
      exact ⟨hpart, hseparator, ih hrest⟩

/-! ### Calm texts -/

/-- The characters that matter to the scan in code, and the one that ends a comment. -/
def signs : List Char :=
  ['(', '[', '{', ')', ']', '}', '"', '/', '\n']

/-- All other characters. -/
def isCalm (c : Char) : Bool :=
  !signs.contains c

/-- A text without brackets, quotes, strokes and line feeds. -/
def IsCalm (text : String) : Prop :=
  ∀ c ∈ text.toList, isCalm c

instance (text : String) : Decidable (IsCalm text) :=
  List.decidableBAll _ _

/-- Characters of a kind that has no signs are calm. -/
theorem isCalm_of_signs {p : Char → Bool} (hsigns : signs.any p = false) {c : Char}
    (h : p c) : isCalm c := by
  by_contra hsign
  have hin : c ∈ signs := by simpa [isCalm] using hsign
  exact List.any_eq_false.mp hsigns c hin h

theorem codeStep_of_isCalm {c : Char} (h : isCalm c) (awaited : List Char) :
    codeStep awaited c = some ⟨.code, awaited⟩ := by
  have hsign : c ∉ signs := by simpa [isCalm] using h
  simp only [signs, List.mem_cons, List.not_mem_nil, not_or] at hsign
  simp [codeStep, counterpart?, isCloser, hsign]

theorem scan_of_isCalm {text : List Char} (h : ∀ c ∈ text, isCalm c) (awaited : List Char) :
    scan text ⟨.code, awaited⟩ = some ⟨.code, awaited⟩ := by
  induction text with
  | nil => rfl
  | cons c rest ih =>
    obtain ⟨hc, hrest⟩ := List.forall_mem_cons.mp h
    rw [scan, step, codeStep_of_isCalm hc]
    exact ih hrest

namespace IsCalm

variable {text first second : String}

theorem closed (h : IsCalm text) : Closed text :=
  scan_of_isCalm h []

theorem append (h : IsCalm first) (h' : IsCalm second) : IsCalm (first ++ second) := by
  intro c hc
  rw [String.toList_append] at hc
  rcases List.mem_append.mp hc with hc | hc
  · exact h c hc
  · exact h' c hc

/-- A calm text in which pairs of colons are replaced is calm. -/
theorem replacePair {sub chars : List Char} (hsub : sub.all isCalm)
    (h : ∀ c ∈ chars, isCalm c) : ∀ c ∈ Text.replacePair sub chars, isCalm c := by
  fun_induction Text.replacePair sub chars with
  | case1 => exact h
  | case2 c => exact h
  | case3 c d rest hpair ih =>
    obtain ⟨_, _, hrest⟩ := by simpa only [List.forall_mem_cons] using h
    exact List.forall_mem_append.mpr ⟨List.all_eq_true.mp hsub, ih hrest⟩
  | case4 c d rest hpair ih =>
    obtain ⟨hc, hrest⟩ := List.forall_mem_cons.mp h
    exact List.forall_mem_cons.mpr ⟨hc, ih hrest⟩

end IsCalm

theorem isCalm_joinWith {separator : String} (hseparator : IsCalm separator) {parts : List String}
    (h : ∀ part ∈ parts, IsCalm part) : IsCalm (Text.joinWith separator parts) := by
  intro c hc
  by_contra hsign
  rw [Text.toList_joinWith] at hc
  refine Text.notMem_intercalate (fun hin => hsign (hseparator c hin)) ?_ hc
  rw [List.forall_mem_map]
  exact fun part hpart hin => hsign (h part hpart c hin)

theorem closed_spaces (n : Nat) : Closed (Text.spaces n) := by
  refine IsCalm.closed fun c hc => ?_
  rw [Text.spaces, String.toList_ofList] at hc
  obtain rfl := List.eq_of_mem_replicate hc
  rfl

/-! ### Literals -/

/-- Escaped characters keep the scan inside the literal. -/
theorem scan_quoteChar (c : Char) :
    scan (Script.quoteChar c) ⟨.literal, []⟩ = some ⟨.literal, []⟩ := by
  -- The control characters are finitely many, and their escapes are scanned one by one.
  have hcontrol : ∀ n < 0x20, scan (['\\', 'u'] ++ List.replicate
      (4 - (Text.hexDigits n).length) '0' ++ Text.hexDigits n) ⟨.literal, []⟩ =
        some ⟨.literal, []⟩ := by
    decide
  unfold Script.quoteChar
  split
  · rfl
  split
  · rfl
  split
  · rfl
  split
  · rfl
  split
  · rfl
  split
  · rename_i hlow
    exact hcontrol c.toNat hlow
  · rename_i hbackslash hquote hfeed hreturn _ _
    simp [scan, step, endsLine, hbackslash, hquote, hfeed, hreturn]

theorem scan_flatMap_quoteChar (chars : List Char) :
    scan (chars.flatMap Script.quoteChar) ⟨.literal, []⟩ = some ⟨.literal, []⟩ := by
  induction chars with
  | nil => rfl
  | cons c rest ih =>
    rw [List.flatMap_cons, scan_append, scan_quoteChar]
    exact ih

theorem closed_quote (value : String) : Closed (Script.quote value) := by
  have hopens : step ⟨.code, []⟩ '"' = some ⟨.literal, []⟩ := rfl
  unfold Closed Takes Script.quote
  rw [String.toList_ofList, List.cons_append, scan, hopens, Option.bind_some, scan_append,
    scan_flatMap_quoteChar]
  rfl

/-! ### Comments -/

/-- The text starts a comment and does not end it. -/
def IsComment (text : String) : Prop :=
  scan text.toList .start = some ⟨.comment, []⟩

instance (text : String) : Decidable (IsComment text) :=
  inferInstanceAs (Decidable (_ = _))

namespace IsComment

variable {first second text : String}

theorem scan_of_notMem {chars : List Char} (h : '\n' ∉ chars) :
    scan chars ⟨.comment, []⟩ = some ⟨.comment, []⟩ := by
  induction chars with
  | nil => rfl
  | cons c rest ih =>
    have hc : c ≠ '\n' := fun heq => h (heq ▸ List.mem_cons_self)
    have hrest : '\n' ∉ rest := fun hin => h (List.mem_cons_of_mem c hin)
    simp only [scan, step, if_neg hc, Option.bind_some]
    exact ih hrest

theorem append (h : IsComment first) (h' : '\n' ∉ second.toList) : IsComment (first ++ second) := by
  unfold IsComment at h ⊢
  rw [String.toList_append, scan_append, h]
  exact scan_of_notMem h'

theorem closed (h : IsComment text) : Closed (text ++ "\n") := by
  unfold Closed Takes IsComment at *
  rw [String.toList_append, scan_append]
  exact Option.bind_eq_some_iff.mpr ⟨_, h, rfl⟩

end IsComment

end ScriptCompiler.Brackets
