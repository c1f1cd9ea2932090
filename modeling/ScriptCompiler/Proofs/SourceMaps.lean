import Mathlib.Data.List.Forall2
import ScriptCompiler.Proofs.Landmarks
import ScriptCompiler.Proofs.MappingText
import ScriptCompiler.Proofs.References

/-!
# Source maps are exact

The source map of a script has one mapping for each node that starts a row, in the order of the
rows. Its first half is where the text of the node starts in the script, its second half where the
node starts in its source. Everything is read back from the text of the map.
-/

namespace ScriptCompiler

/-! ### Nodes that lie on a line of a source -/

/-- The program was parsed from a source or linked from several. -/
inductive Program.IsRead : Program → Prop where
  | parsed {file : Nat} {text : String} {lexemes : List Lexeme} {program : Program}
      (hscan : tokenizeFile file text = .ok lexemes)
      (hparse : parseProgram lexemes = .ok program) : IsRead program
  | linked {rules : Rules} {sources : Sources} {linked : Linked} {findings : List Finding}
      (h : link rules sources = .ok (linked, findings)) : IsRead linked.program

/-- Statements and members lie on a line of a source; lines are counted from one. -/
def Node.Located : Node → Prop
  | .stmt s => 1 ≤ s.span.line
  | .member m => 1 ≤ m.span.line
  | _ => True

theorem Node.WellNamed.located {n : Node} (h : n.WellNamed) : n.Located := by
  cases n with
  | stmt s => exact Stmt.WellNamed.line h
  | member m => exact And.left h
  | _ => trivial

theorem Node.Named.located {n : Node} (h : n.Named) : n.Every Located :=
  h.mono fun _ => WellNamed.located

theorem Member.span_resolve (env : Environment) (locals : List String) (m : Member) :
    (m.resolve env locals).span = m.span := by
  cases m <;> simp [Member.resolve, Member.span]

theorem Node.Located.resolve {n : Node} (h : n.Located) (env : Environment)
    (locals : List String) : (n.resolve env locals).Located := by
  cases n with
  | stmt s =>
    rw [Node.resolve, Located, Stmt.span_resolve]
    exact h
  | member m =>
    rw [Node.resolve, Located, Member.span_resolve]
    exact h
  | _ => trivial

theorem Program.IsRead.located {program : Program} (h : program.IsRead) :
    ∀ s ∈ program.stmts, (Node.stmt s).Every Node.Located := by
  cases h with
  | parsed hscan hparse =>
    intro s hs
    exact (parseProgram_wellNamed (tokenizeFile_spelled hscan) hparse s hs).located
  | @linked _ _ linked _ h =>
    obtain ⟨parsed, failures, _, hfrom⟩ := link_cases h
    intro s hs
    rw [hfrom.stmts] at hs
    obtain ⟨placed, hplaced, rfl⟩ := List.mem_map.mp hs
    have hnamed := hfrom.named_placed ((placeFiles_perm _).mem_iff.mp hplaced)
    -- Resolving names moves no statement and no member.
    exact Node.Every.resolve (fun _ locals h => h.resolve _ locals) hnamed.located []

open Script

theorem Node.Every.stmts {P : Node → Prop} {b : Block} (h : (Node.block b).Every P) :
    ∀ s ∈ b.stmts, (Node.stmt s).Every P := by
  intro s hs
  obtain ⟨child, hchild, hnode⟩ := exists_mem_stmtChildren [] hs
  exact hnode ▸ h.child hchild

theorem Node.Every.members {P : Node → Prop} {span : Span} {decl : ClassDecl}
    (h : (Node.stmt (.classDecl span decl)).Every P) :
    ∀ m ∈ decl.members, (Node.member m).Every P :=
  fun _ hm => h.child (List.mem_append_right _ (List.mem_map_of_mem hm))

mutual

theorem Stmt.located_landmarks (ctx : Context) : ∀ s : Stmt, (Node.stmt s).Every Node.Located →
    ∀ mark ∈ s.innerLandmarks ctx, 1 ≤ mark.span.line
  | .function span name params returnType? effect? body unique?, h => by
    rw [Stmt.innerLandmarks]
    exact Block.located_landmarks ctx.deeper body (h.child (.head _))
  | .classDecl span ⟨kind, name, extends?, implements, members, unique?⟩, h => by
    rw [Stmt.innerLandmarks, List.forall_mem_append]
    exact ⟨located_constructorLandmarks _ _ _ members h.members,
      located_methodLandmarks _ members h.members⟩
  | .ifElse span condition thenBlock elseBranch, h => by
    rw [Stmt.innerLandmarks, List.forall_mem_append]
    have hthen : (Node.block thenBlock).Every Node.Located := h.child (.tail _ (.head _))
    have helse : (Node.elseBranch elseBranch).Every Node.Located :=
      h.child (.tail _ (.tail _ (.head _)))
    exact ⟨Block.located_landmarks ctx.deeper thenBlock hthen,
      ElseBranch.located_landmarks ctx elseBranch helse⟩
  | .whileLoop span condition body, h => by
    rw [Stmt.innerLandmarks]
    exact Block.located_landmarks ctx.deeper body (h.child (.tail _ (.head _)))
  | .untilLoop span condition body, h => by
    rw [Stmt.innerLandmarks]
    exact Block.located_landmarks ctx.deeper body (h.child (.tail _ (.head _)))
  | .block span body, h => by
    rw [Stmt.innerLandmarks]
    exact Block.located_landmarks ctx.deeper body (h.child (.head _))
  | .namespaceDecl .., _ | .usingDecl .., _ | .foreignDecl .., _ | .letDecl .., _ | .ret .., _
  | .expr .., _ => by simp [Stmt.innerLandmarks]

theorem Block.located_landmarks (ctx : Context) : ∀ b : Block,
    (Node.block b).Every Node.Located → ∀ mark ∈ b.landmarks ctx, 1 ≤ mark.span.line
  | ⟨stmts, _⟩, h => by
    rw [Block.landmarks]
    exact located_stmtLandmarks ctx stmts h.stmts

theorem located_stmtLandmarks (ctx : Context) : ∀ stmts : List Stmt,
    (∀ s ∈ stmts, (Node.stmt s).Every Node.Located) →
    ∀ mark ∈ stmtLandmarks ctx stmts, 1 ≤ mark.span.line
  | [], _ => by simp [stmtLandmarks]
  | s :: rest, h => by
    obtain ⟨hs, hrest⟩ := List.forall_mem_cons.mp h
    rw [stmtLandmarks, List.forall_mem_append, List.forall_mem_append]
    refine ⟨⟨?_, Stmt.located_landmarks ctx s hs⟩, located_stmtLandmarks ctx rest hrest⟩
    have hline : 1 ≤ s.span.line := hs.here
    unfold Stmt.ownLandmarks
    split <;> simp [hline]

theorem ElseBranch.located_landmarks (ctx : Context) : ∀ b : ElseBranch,
    (Node.elseBranch b).Every Node.Located → ∀ mark ∈ b.landmarks ctx, 1 ≤ mark.span.line
  | .none, _ => by simp [ElseBranch.landmarks]
  | .block body, h => by
    rw [ElseBranch.landmarks]
    exact Block.located_landmarks ctx.deeper body (h.child (.head _))
  | .elseIf condition thenBlock elseBranch, h => by
    rw [ElseBranch.landmarks, List.forall_mem_append]
    have hthen : (Node.block thenBlock).Every Node.Located := h.child (.tail _ (.head _))
    have helse : (Node.elseBranch elseBranch).Every Node.Located :=
      h.child (.tail _ (.tail _ (.head _)))
    exact ⟨Block.located_landmarks ctx.deeper thenBlock hthen,
      ElseBranch.located_landmarks ctx elseBranch helse⟩

theorem located_constructorLandmarks (ctx : Context) (hasBase : Bool) (inits : List String) :
    ∀ members : List Member, (∀ m ∈ members, (Node.member m).Every Node.Located) →
    ∀ mark ∈ constructorLandmarks ctx hasBase inits members, 1 ≤ mark.span.line
  | [], _ => by simp [constructorLandmarks]
  | .constructor span params body :: _, h => by
    obtain ⟨hm, _⟩ := List.forall_mem_cons.mp h
    rw [constructorLandmarks, List.forall_mem_cons]
    exact ⟨hm.here, Block.located_landmarks ctx.deeper body (hm.child (.head _))⟩
  | .method .. :: rest, h => by
    simp only [constructorLandmarks]
    exact located_constructorLandmarks ctx hasBase inits rest (List.forall_mem_cons.mp h).2
  | .field .. :: rest, h => by
    simp only [constructorLandmarks]
    exact located_constructorLandmarks ctx hasBase inits rest (List.forall_mem_cons.mp h).2

theorem located_methodLandmarks (ctx : Context) : ∀ members : List Member,
    (∀ m ∈ members, (Node.member m).Every Node.Located) →
    ∀ mark ∈ methodLandmarks ctx members, 1 ≤ mark.span.line
  | [], _ => by simp [methodLandmarks]
  | .method span name params returnType? effect? (some body) :: rest, h => by
    obtain ⟨hm, hrest⟩ := List.forall_mem_cons.mp h
    rw [methodLandmarks, List.cons_append, List.forall_mem_cons, List.forall_mem_append]
    exact ⟨hm.here, Block.located_landmarks ctx.deeper body (hm.child (.head _)),
      located_methodLandmarks ctx rest hrest⟩
  | .method span name params returnType? effect? none :: rest, h => by
    simp only [methodLandmarks]
    exact located_methodLandmarks ctx rest (List.forall_mem_cons.mp h).2
  | .constructor .. :: rest, h => by
    simp only [methodLandmarks]
    exact located_methodLandmarks ctx rest (List.forall_mem_cons.mp h).2
  | .field .. :: rest, h => by
    simp only [methodLandmarks]
    exact located_methodLandmarks ctx rest (List.forall_mem_cons.mp h).2

end

/-! ### Where rows stand in the script -/

namespace Script

/-- On line `line` of the script, behind `column` spaces, starts a text. -/
structure StandsAt (code : List Char) (line column : Nat) (text : List Char) : Prop where
  place : ∃ before after, code = before ++ (List.replicate column ' ' ++ text ++ after) ∧
    before.count '\n' = line ∧ (before = [] ∨ ∃ start, before = start ++ ['\n'])
  firstLine : (code.splitOn '\n')[line]? =
    some (List.replicate column ' ' ++ text.takeWhile (· ≠ '\n'))

theorem StandsAt.of_place {before text : List Char} {column : Nat}
    (hbefore : before = [] ∨ ∃ start, before = start ++ ['\n']) (htext : '\n' ∈ text)
    (after : List Char) :
    StandsAt (before ++ (List.replicate column ' ' ++ text ++ after)) (before.count '\n') column
      text := by
  refine ⟨⟨before, after, rfl, rfl, hbefore⟩, ?_⟩
  obtain ⟨line, tail, rfl, hline⟩ := List.eq_append_cons_of_mem htext
  have hfirst : (line ++ '\n' :: tail).takeWhile (· ≠ '\n') = line := by
    have hkeep : ∀ c ∈ line, decide (c ≠ '\n') = true :=
      fun c hc => decide_eq_true fun heq => hline (heq ▸ hc)
    rw [List.takeWhile_append_of_pos hkeep, List.takeWhile_cons_of_neg (by simp), List.append_nil]
  have hlines : (List.replicate column ' ' ++ (line ++ '\n' :: tail) ++ after).splitOn '\n' =
      (List.replicate column ' ' ++ line) :: (tail ++ after).splitOn '\n' := by
    have hplain : '\n' ∉ List.replicate column ' ' ++ line := by
      rw [List.mem_append]
      rintro (hspace | hmem)
      · cases List.eq_of_mem_replicate hspace
      · exact hline hmem
    rw [← List.append_assoc, List.append_assoc, List.cons_append, Text.splitOn_append,
      Text.splitOn_of_notMem hplain, List.singleton_append]
  rw [hfirst]
  rcases hbefore with rfl | ⟨start, rfl⟩
  · rw [List.nil_append, hlines]
    rfl
  · have hcount : (start ++ ['\n']).count '\n' = (start.splitOn '\n').length := by
      rw [Text.length_splitOn, List.count_append, List.count_singleton_self]
    rw [hcount, List.append_assoc, List.singleton_append, Text.splitOn_append, hlines,
      List.getElem?_append_right (Nat.le_refl _), Nat.sub_self]
    rfl

namespace Row

theorem toList_code_cons (row : Row) (rest : List Row) :
    (code (row :: rest)).toList =
      List.replicate (2 * row.indent) ' ' ++ (row.text.toList ++ '\n' :: (code rest).toList) := by
  simp [code, render, Text.spaces]

theorem toList_code_append (rows rows' : List Row) :
    (code (rows ++ rows')).toList = (code rows).toList ++ (code rows').toList := by
  simp [code]

theorem lineFeeds_code_cons (row : Row) (rest : List Row) :
    lineFeeds (code (row :: rest)) = lineFeeds row.text + 1 + lineFeeds (code rest) := by
  simp [lineFeeds, toList_code_cons, List.count_replicate]
  omega

theorem lineFeeds_code_concat (rows : List Row) (row : Row) :
    lineFeeds (code (rows ++ [row])) = lineFeeds (code rows) + lineFeeds row.text + 1 := by
  have hrow := lineFeeds_code_cons row []
  have hnil : lineFeeds (code []) = 0 := rfl
  rw [lineFeeds, toList_code_append, List.count_append, ← lineFeeds, ← lineFeeds, hrow, hnil]
  omega

/-- The script ends with a line feed, unless it is empty. -/
theorem toList_code_eq (rows : List Row) :
    (code rows).toList = [] ∨ ∃ start, (code rows).toList = start ++ ['\n'] := by
  rcases List.eq_nil_or_concat rows with rfl | ⟨init, last, rfl⟩
  · exact .inl rfl
  · refine .inr ⟨(code init).toList ++ (List.replicate (2 * last.indent) ' ' ++ last.text.toList),
      ?_⟩
    rw [List.concat_eq_append, toList_code_append, toList_code_cons]
    simp [code]

/-- A node starts behind the indentation of its first row, on the line after the rows before it. -/
theorem standsAt {row : Row} {own rows : List Row} (h : row :: own <+: rows) (before : List Row)
    (span : Span) :
    StandsAt (code (before ++ rows)).toList (lineFeeds (code before)) (2 * row.indent)
      (Landmark.text ⟨span, row :: own⟩) := by
  obtain ⟨rest, rfl⟩ := h
  have hcode : (code (before ++ (row :: own ++ rest))).toList = (code before).toList ++
      (List.replicate (2 * row.indent) ' ' ++ Landmark.text ⟨span, row :: own⟩
        ++ (code rest).toList) := by
    simp [toList_code_append, toList_code_cons, Landmark.text]
  rw [hcode]
  exact .of_place (toList_code_eq before) (by simp [Landmark.text]) _

/-! ### The mappings of rows -/

theorem mappingsFrom_of_none {row : Row} (h : row.origin? = none) (line : Nat) (rest : List Row) :
    mappingsFrom line (row :: rest) = mappingsFrom (line + lineFeeds row.text + 1) rest := by
  rw [mappingsFrom, mapping?, h]
  rfl

theorem mappingsFrom_of_some {row : Row} {span : Span} (h : row.origin? = some span)
    (hline : 1 ≤ span.line) (line : Nat) (rest : List Row) :
    mappingsFrom line (row :: rest) =
      ⟨line.toUInt32, (2 * row.indent).toUInt32, span.file.toUInt32, (span.line - 1).toUInt32,
        (span.column - 1).toUInt32⟩ :: mappingsFrom (line + lineFeeds row.text + 1) rest := by
  have hne : ¬ span.line = 0 := by omega
  simp [mappingsFrom, mapping?, h, hne]

end Row

/-- The mapping leads from the start of the node's text in the script to the place of the node.
    Numbers of files, lines and columns are words of 32 bits. -/
structure MapsTo (code : String) (m : DecodedMapping) (mark : Landmark) : Prop where
  file : m.file = (mark.span.file % 2 ^ 32 : Nat)
  sourceLine : m.sourceLine = ((mark.span.line - 1) % 2 ^ 32 : Nat)
  sourceColumn : m.sourceColumn = ((mark.span.column - 1) % 2 ^ 32 : Nat)
  text : ∃ column : Nat, m.column = column ∧ StandsAt code.toList m.line column mark.text

/-- The mappings of rows after `before` lead from the texts of the nodes to their places. -/
theorem Marked.mappings {rows : List Row} {marks : List Landmark} (h : Marked rows marks)
    (before : List Row) (hlocated : ∀ mark ∈ marks, 1 ≤ mark.span.line)
    (hindent : ∀ row ∈ rows, 2 * row.indent < 2 ^ 32)
    (hlines : Row.lineFeeds (Row.code (before ++ rows)) < 2 ^ 32) :
    List.Forall₂ (fun m mark => MapsTo (Row.code (before ++ rows)) m.decoded mark)
      (Row.mappingsFrom (Row.lineFeeds (Row.code before)) rows) marks := by
  induction h generalizing before with
  | nil => exact .nil
  | @plain row rows marks hrow _ ih =>
    have hnext := ih (before ++ [row]) hlocated (List.forall_mem_cons.mp hindent).2
    rw [List.append_assoc, List.singleton_append, Row.lineFeeds_code_concat] at hnext
    rw [Row.mappingsFrom_of_none hrow]
    exact hnext hlines
  | @mark row rows marks span own hrow hown _ ih =>
    obtain ⟨hline, hrest⟩ := List.forall_mem_cons.mp hlocated
    obtain ⟨hcolumn, hindent⟩ := List.forall_mem_cons.mp hindent
    have hnext := ih (before ++ [row]) hrest hindent
    rw [List.append_assoc, List.singleton_append, Row.lineFeeds_code_concat] at hnext
    rw [Row.mappingsFrom_of_some hrow hline]
    have hword : ∀ n : Nat, (n.toUInt32.toNat : Int) = (n % 2 ^ 32 : Nat) :=
      fun n => congrArg Nat.cast UInt32.toNat_ofNat'
    refine .cons ⟨hword _, hword _, hword _, 2 * row.indent, ?_, ?_⟩ (hnext hlines)
    · exact (hword _).trans (congrArg Nat.cast (Nat.mod_eq_of_lt hcolumn))
    · have hbefore : (Row.lineFeeds (Row.code before)).toUInt32.toNat =
          Row.lineFeeds (Row.code before) := by
        refine UInt32.toNat_ofNat_of_lt' (Nat.lt_of_le_of_lt ?_ hlines)
        rw [Row.lineFeeds, Row.lineFeeds, Row.toList_code_append, List.count_append]
        exact Nat.le_add_right _ _
      rw [Mapping.decoded, hbefore]
      exact Row.standsAt hown before span

namespace Row

end Row

end Script

end ScriptCompiler
