import ScriptCompiler.Proofs.ReadPieces

/-!
# Printed types are read again

The one-line form of a type puts every operator into parentheses, so nothing is left to precedence.
Reading its pieces gives the type again, up to the places of its parts. After `is` and `as` a `<`
opens type arguments only if its `>` is found, and in a printed type it always is.
-/

namespace ScriptCompiler

/-! ### Trees without places -/

mutual

def TypeExpr.unplaced : TypeExpr → TypeExpr
  | .named _ name args => .named .zero ⟨name.name, .zero⟩ (unplacedTypes args)
  | .binary _ op left right => .binary .zero op left.unplaced right.unplaced
  | .array _ element => .array .zero element.unplaced
  | .unit _ => .unit .zero

def unplacedTypes : List TypeExpr → List TypeExpr
  | [] => []
  | type :: rest => type.unplaced :: unplacedTypes rest

end

theorem unplacedTypes_eq (types : List TypeExpr) :
    unplacedTypes types = types.map TypeExpr.unplaced := by
  induction types with
  | nil => rw [unplacedTypes, List.map_nil]
  | cons type rest ih => rw [unplacedTypes, List.map_cons, ih]

theorem map_eq_of_forall₂ {α β : Type} {f : α → β} {as bs : List α}
    (h : List.Forall₂ (fun a b => f a = f b) as bs) : as.map f = bs.map f := by
  induction h with
  | nil => rfl
  | cons hab _ ih => rw [List.map_cons, List.map_cons, hab, ih]

/-! ### Angle brackets -/

/-- Inside angle brackets the pieces are parts of types and leave the depth as it was. -/
def KeepsAngles (pieces : List Piece) : Prop :=
  ∀ (depth : Nat) (lexemes others : List Lexeme), lexemes.map Lexeme.piece = pieces →
    closesAngles (depth + 1) (lexemes ++ others) = closesAngles (depth + 1) others

namespace KeepsAngles

variable {first second : List Piece}

theorem nil : KeepsAngles [] := by
  intro depth lexemes others h
  rw [List.map_eq_nil_iff.mp h, List.nil_append]

theorem append (hfirst : KeepsAngles first) (hsecond : KeepsAngles second) :
    KeepsAngles (first ++ second) := by
  intro depth lexemes others h
  obtain ⟨left, right, rfl, hleft, hright⟩ := List.map_eq_append_iff.mp h
  rw [List.append_assoc, hfirst depth left (right ++ others) hleft,
    hsecond depth right others hright]

theorem cons {piece : Piece} (hpiece : piece.token.isTypePart = true) (h : KeepsAngles second) :
    KeepsAngles (piece :: second) := by
  intro depth lexemes others hpieces
  obtain ⟨lexeme, rest, rfl, rfl, hrest⟩ := List.map_eq_cons_iff.mp hpieces
  have hpart : lexeme.token.isTypePart = true := hpiece
  have hlt : lexeme.token ≠ .symbol .lt := fun heq => by simp [heq, Token.isTypePart] at hpart
  have hgt : lexeme.token ≠ .symbol .gt := fun heq => by simp [heq, Token.isTypePart] at hpart
  rw [List.cons_append, closesAngles, if_neg hlt, if_neg hgt, if_pos hpart]
  exact h depth rest others hrest

theorem angles (h : KeepsAngles first) :
    KeepsAngles (.symbol .lt :: first ++ [.symbol .gt]) := by
  intro depth lexemes others hpieces
  obtain ⟨inner, closing, rfl, hinner, hclosing⟩ := List.map_eq_append_iff.mp hpieces
  obtain ⟨opening, inner, rfl, hopening, hinner⟩ := List.map_eq_cons_iff.mp hinner
  obtain ⟨closing, rfl, hgt⟩ := List.map_eq_singleton_iff.mp hclosing
  have hopen : opening.token = .symbol .lt := congrArg Piece.token hopening
  have hclose : closing.token = .symbol .gt := congrArg Piece.token hgt
  rw [List.cons_append, List.cons_append, List.append_assoc, closesAngles, if_pos hopen,
    h (depth + 1) inner _ hinner, List.singleton_append, closesAngles,
    if_neg (by rw [hclose]; decide), if_pos hclose, if_neg (by omega), Nat.add_sub_cancel]

theorem intercalate {sep : Piece} (hsep : sep.token.isTypePart = true) {parts : List (List Piece)}
    (h : ∀ part ∈ parts, KeepsAngles part) : KeepsAngles ([sep].intercalate parts) := by
  cases parts with
  | nil => exact nil
  | cons part parts =>
    obtain ⟨hpart, hparts⟩ := List.forall_mem_cons.mp h
    rw [Text.intercalate_cons]
    refine hpart.append ?_
    -- The parts that follow each have a separator before them.
    clear hpart h
    induction parts with
    | nil => exact nil
    | cons part parts ih =>
      obtain ⟨hpart, hparts⟩ := List.forall_mem_cons.mp hparts
      rw [List.flatMap_cons]
      exact (cons hsep hpart).append (ih hparts)

theorem typeArgsFollow (h : KeepsAngles first) {c : Cursor} {rest : List Piece}
    (hpieces : c.pieces = .symbol .lt :: (first ++ .symbol .gt :: rest)) :
    c.typeArgsFollow = true := by
  obtain ⟨hopening, hafter⟩ := List.cons.inj hpieces
  obtain ⟨inner, others, hsplit, hinner, hothers⟩ := List.map_eq_append_iff.mp hafter
  obtain ⟨closing, others, rfl, hclosing, _⟩ := List.map_eq_cons_iff.mp hothers
  have hopen : c.current.token = .symbol .lt := congrArg Piece.token hopening
  have hclose : closing.token = .symbol .gt := congrArg Piece.token hclosing
  rw [Cursor.typeArgsFollow, hsplit, closesAngles, if_pos hopen, h 0 inner _ hinner, closesAngles,
    if_neg (by rw [hclose]; decide), if_pos hclose, if_pos (Nat.le_refl _)]

end KeepsAngles

/-! ### Paths -/

theorem Token.ofWord_of_isIdentifier {name : String} (h : IsIdentifier name) :
    ofWord name = .ident name := by
  rw [ofWord, h.free]
  dsimp only
  rw [if_neg h.notTrue, if_neg h.notFalse]

namespace Grammar

open TokenParser

theorem pathStep_reads (path : List Ident) {name : String} (hname : IsIdentifier name) :
    Reads (pathStep path) [.symbol .colonColon, .word name] anything fun result =>
      ∃ longer, result = some longer ∧ longer.map Ident.name = path.map Ident.name ++ [name] := by
  have htoken : (Piece.word name).token = .ident name := Token.ofWord_of_isIdentifier hname
  refine Reads.peekAt ?_
  refine Reads.lookAhead (a := .ident name) (fun c rest h => ?_) ?_
  · exact (Cursor.nextToken_eq h).trans htoken
  · refine Reads.advance.andThen fun _ _ => (Reads.ident htoken).andThen fun segment hsegment => ?_
    refine .pure ⟨path ++ [segment], rfl, ?_⟩
    rw [List.map_append, List.map_singleton, hsegment]

theorem pathStep_done (path : List Ident) :
    Reads (pathStep path) [] (fun t => t ≠ .symbol .colonColon) fun result => result = none := by
  refine Reads.peek.bind (fun token htoken => ?_) fun _ hnext => hnext
  refine Reads.peekNext.bind (fun next _ => ?_) fun _ hnext => hnext
  split
  · exact absurd rfl htoken
  · exact .pure rfl

theorem pathSteps_read (path : List Ident) {segments : List Ident}
    (h : ∀ segment ∈ segments, IsIdentifier segment.name) :
    Iterates pathStep path
      (segments.flatMap fun segment => [.symbol .colonColon, .word segment.name])
      (fun t => t ≠ .symbol .colonColon)
      fun longer => longer.map Ident.name = (path ++ segments).map Ident.name := by
  induction segments generalizing path with
  | nil => exact .done (pathStep_done path) (by rw [List.append_nil])
  | cons segment segments ih =>
    obtain ⟨hsegment, hsegments⟩ := List.forall_mem_cons.mp h
    rw [List.flatMap_cons]
    refine Iterates.again (pathStep_reads path hsegment) (List.cons_ne_nil _ _)
      (fun longer hlonger => ?_) fun _ hnext => hnext.any _
    have hnames : (path ++ segment :: segments).map Ident.name =
        (longer ++ segments).map Ident.name := by
      rw [List.map_append, List.map_append, hlonger, List.append_assoc]
      rfl
    rw [hnames]
    exact ih longer hsegments

theorem path_reads {path : List Ident} (h : IsPath path) :
    Reads Grammar.path (pathPieces (joinPath path)) (fun t => t ≠ .symbol .colonColon)
      fun segments => joinPath segments = joinPath path := by
  obtain ⟨first, rest, rfl⟩ := List.exists_cons_of_ne_nil h.nonempty
  obtain ⟨hfirst, hrest⟩ := List.forall_mem_cons.mp h.segments
  rw [pathPieces_joinPath h, List.map_cons, Text.intercalate_cons, List.flatMap_map]
  refine (Reads.ident (Token.ofWord_of_isIdentifier hfirst)).andThen fun ident hident => ?_
  refine (pathSteps_read [ident] hrest).reads.mono fun segments hnames => ?_
  rw [joinPath, hnames, joinPath, List.map_append, List.map_singleton, hident]
  rfl

/-! ### Types -/

variable {g : Grammar}

theorem typeArgs_none : Reads g.typeArgs [] (fun t => t ≠ .symbol .lt) fun args => args = [] := by
  have hopens : Reads opensTypeArgs [] (fun t => t ≠ .symbol .lt) fun b => b = false := by
    intro c rest _ hpieces hnext
    obtain ⟨piece, rest, rfl, hpiece⟩ := hnext
    have htoken : c.token ≠ .symbol .lt := Cursor.token_eq hpieces ▸ hpiece
    exact ⟨_, rfl, by rw [decide_eq_false htoken, Bool.false_and]⟩
  refine hopens.bind (fun result hresult => ?_) fun _ hnext => hnext
  rw [hresult]
  exact .pure rfl

theorem typeArgs_reads {args : List TypeExpr}
    (hangles : ∀ arg ∈ args, KeepsAngles arg.pieces)
    (hargs : ∀ arg ∈ args, Reads.Item (g.nestedType TypeOp.loosest) (.symbol .gt) arg.pieces
      fun t => t.unplaced = arg.unplaced) :
    Reads g.typeArgs (.symbol .lt :: listPieces (args.map TypeExpr.pieces) ++ [.symbol .gt])
      anything fun types => types.map TypeExpr.unplaced = args.map TypeExpr.unplaced := by
  have hopens : ∀ (c : Cursor) (rest : List Piece), c.pieces =
      .symbol .lt :: listPieces (args.map TypeExpr.pieces) ++ [.symbol .gt] ++ rest →
      (c.token = .symbol .lt && (!c.inTypeOperand || c.typeArgsFollow)) = true := by
    intro c rest hpieces
    have hlist : KeepsAngles (listPieces (args.map TypeExpr.pieces)) :=
      .intercalate rfl (List.forall_mem_map.mpr hangles)
    have htoken : c.token = .symbol .lt := Cursor.token_eq hpieces
    rw [List.append_assoc] at hpieces
    rw [hlist.typeArgsFollow hpieces, decide_eq_true htoken, Bool.or_true, Bool.and_true]
  refine Reads.lookAhead (a := true) hopens ?_
  rw [if_pos rfl]
  refine Reads.advance.andThen fun _ _ => ?_
  exact (Reads.delimited rfl hargs (by decide)).mono fun types htypes => map_eq_of_forall₂ htypes

/-- No type argument and no segment of a path follows. -/
def EndsName (t : Token) : Prop :=
  t ≠ .symbol .lt ∧ t ≠ .symbol .colonColon

/-- Neither an operator of types nor more of a name follows. -/
def EndsType (t : Token) : Prop :=
  t.typeOp? = none ∧ EndsName t

theorem endsType_rparen : EndsType (.symbol .rparen) :=
  ⟨rfl, by decide, by decide⟩

theorem namedType_reads {path : List Ident} (hpath : IsPath path) {pieces : List Piece}
    {args : List TypeExpr} {next : Token → Prop}
    (hargs : Reads g.typeArgs pieces next fun types =>
      types.map TypeExpr.unplaced = args.map TypeExpr.unplaced)
    (hnext : ∀ rest, Before next rest →
      Before (fun t => t ≠ .symbol .colonColon) (pieces ++ rest)) :
    Reads g.namedType (pathPieces (joinPath path) ++ pieces) next fun t =>
      t.unplaced = .named .zero ⟨joinPath path, .zero⟩ (unplacedTypes args) := by
  refine Reads.here.thenRead fun start _ => ?_
  refine (path_reads hpath).bind (fun segments hsegments => ?_) hnext
  refine Reads.previous.thenRead fun stop _ => ?_
  refine hargs.finish (fun types htypes => ?_) fun _ ht => ht
  refine Reads.previous.thenRead fun stop _ => ?_
  refine .pure ?_
  rw [TypeExpr.unplaced, unplacedTypes_eq, unplacedTypes_eq, htypes, hsegments]

theorem typeStep_done (least : Nat) (left : TypeExpr) :
    Reads (g.typeStep least left) [] EndsType fun result => result = none := by
  refine Reads.peek.bind (fun token htoken => ?_) fun _ hnext => hnext
  rw [htoken.1]
  exact .pure rfl

theorem typeOp?_symbol (op : TypeOp) : (Token.symbol op.symbol).typeOp? = some op := by
  cases op <;> rfl

theorem typeStep_reads {left right : TypeExpr} {op : TypeOp} {least : Nat}
    (hleast : least ≤ op.precedence)
    (h : ∀ least, Reads (g.nestedType least) right.pieces EndsType fun u =>
      u.unplaced = right.unplaced) :
    Reads (g.typeStep least left) (.symbol op.symbol :: right.pieces) EndsType fun result =>
      ∃ u, result = some u ∧ u.unplaced = .binary .zero op left.unplaced right.unplaced := by
  refine Reads.peekAt ?_
  rw [Piece.symbol, typeOp?_symbol]
  dsimp only
  rw [if_neg (Nat.not_lt.mpr hleast)]
  refine Reads.advance.andThen fun _ _ => ?_
  refine (h _).finish (fun u hu => ?_) fun _ ht => ht
  exact .pure ⟨_, rfl, by rw [TypeExpr.unplaced, hu]⟩

theorem typeAt_reads {t : TypeExpr} (least : Nat)
    (h : Reads g.primaryType t.pieces EndsName fun u => u.unplaced = t.unplaced) :
    Reads (g.typeAt least) t.pieces EndsType fun u => u.unplaced = t.unplaced := by
  refine h.finish (fun first hfirst => ?_) fun _ ht => ht.2
  exact Iterates.reads (.done (typeStep_done least first) hfirst)

/-- Two types with an operator between them, as they stand in parentheses. -/
theorem typeAt_binary {left right : TypeExpr} (op : TypeOp)
    (hleft : Reads g.primaryType left.pieces EndsName fun u => u.unplaced = left.unplaced)
    (hright : ∀ least, Reads (g.nestedType least) right.pieces EndsType fun u =>
      u.unplaced = right.unplaced) :
    Reads (g.typeAt TypeOp.loosest) (left.pieces ++ .symbol op.symbol :: right.pieces) EndsType
      fun u => u.unplaced = .binary .zero op left.unplaced right.unplaced := by
  have hop : EndsName (.symbol op.symbol) := by
    cases op <;> exact ⟨by decide, by decide⟩
  have hleast : TypeOp.loosest ≤ op.precedence := by
    cases op <;> decide
  refine hleft.bind (fun first hfirst => ?_) fun _ _ => .cons hop
  rw [← hfirst]
  exact Iterates.reads (.once (typeStep_reads hleast hright) (List.cons_ne_nil _ _)
    (typeStep_done _))

theorem groupedType_reads {pieces : List Piece} {Q : TypeExpr → Prop}
    (hstart : Before (fun t => t ≠ .symbol .rparen) pieces)
    (h : Reads (g.nestedType TypeOp.loosest) pieces (fun t => t = .symbol .rparen) Q) :
    Reads g.groupedType (.symbol .lparen :: pieces ++ [.symbol .rparen]) anything Q := by
  refine Reads.here.thenRead fun start _ => ?_
  refine Reads.advance.andThen fun _ _ => ?_
  refine Reads.sees_not.bind (fun result hresult => ?_) fun rest _ => (hstart.append _).append rest
  rw [hresult, if_neg Bool.noConfusion]
  refine h.bind (fun inner hinner => ?_) fun rest _ => .cons rfl
  exact (Reads.expect rfl).andThen fun _ _ => .pure hinner

theorem unitType_reads :
    Reads g.groupedType [.symbol .lparen, .symbol .rparen] anything fun t =>
      t.unplaced = .unit .zero := by
  refine Reads.here.thenRead fun start _ => ?_
  refine Reads.advance.andThen fun _ _ => ?_
  refine Reads.sees.bind (fun result hresult => ?_) fun rest _ => .cons rfl
  rw [hresult, if_pos rfl]
  refine Reads.advance.andThen fun _ _ => ?_
  exact .pure (by rw [TypeExpr.unplaced])

theorem arrayType_reads {element : TypeExpr}
    (h : Reads (g.nestedType TypeOp.loosest) element.pieces EndsType fun u =>
      u.unplaced = element.unplaced) :
    Reads g.arrayType (.symbol .lbracket :: element.pieces ++ [.symbol .rbracket]) anything fun u =>
      u.unplaced = .array .zero element.unplaced := by
  refine Reads.here.thenRead fun start _ => ?_
  refine Reads.advance.andThen fun _ _ => ?_
  refine h.bind (fun u hu => ?_) fun rest _ => .cons ⟨rfl, by decide, by decide⟩
  refine (Reads.expect rfl).andThen fun _ _ => ?_
  exact .pure (by rw [TypeExpr.unplaced, hu])

theorem primaryType_named {pieces : List Piece} {next : Token → Prop} {Q : TypeExpr → Prop}
    (hstart : Before (fun t => ∃ name, t = .ident name) pieces)
    (h : Reads g.namedType pieces next Q) : Reads g.primaryType pieces next Q := by
  obtain ⟨piece, rest, rfl, name, hname⟩ := hstart
  refine Reads.peekAt ?_
  rw [hname]
  exact h

theorem primaryType_self :
    Reads g.primaryType [.word "Self"] anything fun t =>
      t.unplaced = .named .zero ⟨"Self", .zero⟩ [] := by
  refine Reads.peekAt ?_
  refine Reads.advance.andThen fun _ _ => ?_
  exact .pure (by rw [TypeExpr.unplaced, unplacedTypes])

end Grammar

/-! ### Trees -/

theorem keepsAngles_path {path : List Ident} (h : IsPath path) :
    KeepsAngles (pathPieces (joinPath path)) := by
  rw [pathPieces_joinPath h]
  refine .intercalate rfl (List.forall_mem_map.mpr fun segment hsegment => ?_)
  have htoken := Token.ofWord_of_isIdentifier (h.segments segment hsegment)
  exact .cons (by rw [Piece.word, htoken]; rfl) .nil

/-- The angle brackets of a type are closed if those of its parts are. -/
theorem TypeExpr.keepsAngles {t : TypeExpr} (hnamed : (Node.type t).WellNamed)
    (ih : ∀ part, Child.plain (.type part) ∈ t.children → KeepsAngles part.pieces) :
    KeepsAngles t.pieces := by
  cases t with
  | named span name args =>
    have hname : KeepsAngles (pathPieces name.name) := by
      rcases hnamed with ⟨path, hpath, hjoin⟩ | ⟨hself, _⟩
      · rw [hjoin]
        exact keepsAngles_path hpath
      · rw [hself]
        exact .cons rfl .nil
    cases args with
    | nil =>
      rw [pieces]
      exact hname
    | cons arg args =>
      have hargs : KeepsAngles (listPieces ((arg :: args).map pieces)) :=
        .intercalate rfl (List.forall_mem_map.mpr fun t ht => ih t (List.mem_map_of_mem ht))
      rw [pieces, typePieces_eq, List.append_assoc]
      exact hname.append hargs.angles
  | binary span op left right =>
    have hop : (Piece.symbol op.symbol).token.isTypePart = true := by
      cases op <;> rfl
    have hleft : KeepsAngles left.pieces := ih left (.head _)
    have hright : KeepsAngles right.pieces := ih right (.tail _ (.head _))
    rw [pieces]
    exact ((KeepsAngles.cons rfl hleft).append (.cons hop hright)).append (.cons rfl .nil)
  | array span element =>
    have helement : KeepsAngles element.pieces := ih element (.head _)
    rw [pieces]
    exact (KeepsAngles.cons rfl helement).append (.cons rfl .nil)
  | unit span =>
    rw [pieces]
    exact .cons rfl (.cons rfl .nil)

theorem before_pathPieces {path : List Ident} (h : IsPath path) :
    Before (fun t => ∃ name, t = .ident name) (pathPieces (joinPath path)) := by
  rw [pathPieces_joinPath h]
  obtain ⟨first, rest, rfl⟩ := List.exists_cons_of_ne_nil h.nonempty
  rw [List.map_cons, Text.intercalate_cons]
  have hfirst := h.segments first List.mem_cons_self
  exact .cons ⟨first.name, Token.ofWord_of_isIdentifier hfirst⟩

/-- No token with which a list of types ends or a guard is marked. -/
def StartsType (t : Token) : Prop :=
  t ≠ .symbol .rparen ∧ t ≠ .symbol .gt ∧ t ≠ .symbol .question

theorem TypeExpr.before_pieces {t : TypeExpr} (h : (Node.type t).WellNamed) :
    Before StartsType t.pieces := by
  cases t with
  | named span name args =>
    have hname : Before StartsType (pathPieces name.name) := by
      rcases h with ⟨path, hpath, hjoin⟩ | ⟨hself, _⟩
      · rw [hjoin]
        refine (before_pathPieces hpath).mono ?_
        rintro _ ⟨first, rfl⟩
        exact ⟨Token.noConfusion, Token.noConfusion, Token.noConfusion⟩
      · rw [hself]
        exact .cons ⟨by decide, by decide, by decide⟩
    cases args with
    | nil =>
      rw [pieces]
      exact hname
    | cons arg args =>
      rw [pieces]
      exact (hname.append _).append _
  | binary | array | unit =>
    rw [pieces]
    exact .cons ⟨by decide, by decide, by decide⟩

theorem length_le_listPieces {part : List Piece} {parts : List (List Piece)} (h : part ∈ parts) :
    part.length ≤ (listPieces parts).length := by
  cases parts with
  | nil => exact absurd h List.not_mem_nil
  | cons first rest =>
    rw [listPieces, Text.intercalate_cons, List.length_append]
    rcases List.mem_cons.mp h with rfl | h
    · omega
    · obtain ⟨left, right, rfl⟩ := List.append_of_mem h
      rw [List.flatMap_append, List.flatMap_cons, List.length_append, List.length_append,
        List.length_append]
      omega

/-- The pieces of the type are read as the type, by every grammar that allows for as many tokens. -/
structure TypeExpr.ReadsBack (t : TypeExpr) : Prop where
  start : Before StartsType t.pieces
  angles : KeepsAngles t.pieces
  reads : ∀ n, t.pieces.length ≤ n →
    Reads (Grammar.level n).primaryType t.pieces Grammar.EndsName fun u => u.unplaced = t.unplaced

namespace TypeExpr.ReadsBack

open Grammar

variable {t : TypeExpr} {m : Nat}

theorem nested (h : t.ReadsBack) (hm : t.pieces.length ≤ m) (least : Nat) :
    Reads ((level (m + 1)).nestedType least) t.pieces EndsType fun u => u.unplaced = t.unplaced :=
  typeAt_reads least (h.reads m hm)

theorem items {types : List TypeExpr} (h : ∀ t ∈ types, t.ReadsBack)
    (hm : (listPieces (types.map pieces)).length ≤ m) :
    ∀ t ∈ types, Reads.Item ((level (m + 1)).nestedType TypeOp.loosest) (.symbol .gt) t.pieces
      fun u => u.unplaced = t.unplaced := by
  intro t ht
  have hle := length_le_listPieces (List.mem_map_of_mem (f := pieces) ht)
  refine ⟨((h t ht).nested (by omega) _).before ?_, (h t ht).start.mono fun _ hstart => hstart.2.1⟩
  rintro _ (rfl | rfl) <;> exact ⟨rfl, by decide, by decide⟩

end TypeExpr.ReadsBack

theorem TypeExpr.reads_primary {t : TypeExpr} (hnamed : (Node.type t).WellNamed)
    (hparts : ∀ part, Child.plain (.type part) ∈ t.children → part.ReadsBack) {n : Nat}
    (hn : t.pieces.length ≤ n) :
    Reads (Grammar.level n).primaryType t.pieces Grammar.EndsName fun u =>
      u.unplaced = t.unplaced := by
  cases t with
  | named span name args =>
    rw [unplaced]
    cases args with
    | nil =>
      rw [pieces]
      rcases hnamed with ⟨path, hpath, hjoin⟩ | ⟨hself, _⟩
      · rw [hjoin, ← List.append_nil (pathPieces _)]
        refine Grammar.primaryType_named ((before_pathPieces hpath).append _) ?_
        refine Grammar.namedType_reads hpath ?_ fun _ hnext => hnext.mono fun _ ht => ht.2
        exact (Grammar.typeArgs_none.mono fun types htypes => by rw [htypes]).before
          fun _ ht => ht.1
      · rw [hself]
        exact Grammar.primaryType_self.before fun _ _ => trivial
    | cons arg args =>
      -- Only a path has arguments, `Self` has none.
      obtain ⟨path, hpath, hjoin⟩ : IsPathName name.name :=
        hnamed.resolve_right fun hself => List.cons_ne_nil _ _ hself.2
      have hargs : ∀ t ∈ arg :: args, t.ReadsBack := fun t ht => hparts t (List.mem_map_of_mem ht)
      rw [pieces, typePieces_eq, ← List.map_cons, hjoin, List.append_assoc] at hn ⊢
      rw [List.length_append, List.length_append, List.length_cons, List.length_singleton] at hn
      obtain ⟨m, rfl⟩ : ∃ m, n = m + 1 := Nat.exists_eq_add_of_le' (by omega)
      refine Grammar.primaryType_named ((before_pathPieces hpath).append _) ?_
      refine Grammar.namedType_reads hpath ?_ fun _ _ => .cons (by decide)
      refine (Grammar.typeArgs_reads (fun t ht => (hargs t ht).angles) ?_).before fun _ _ => trivial
      exact ReadsBack.items hargs (by omega)
  | binary span op left right =>
    have hleft := hparts left (.head _)
    have hright := hparts right (.tail _ (.head _))
    rw [pieces, List.length_append, List.length_append, List.length_cons, List.length_cons,
      List.length_singleton] at hn
    -- The left operand is nested in the parentheses, the right one also behind the operator.
    obtain ⟨m, rfl⟩ : ∃ m, n = m + 2 := Nat.exists_eq_add_of_le' (by omega)
    have hinner := Grammar.typeAt_binary op (hleft.reads (m + 1) (by omega))
      (hright.nested (by omega))
    have hstart := hleft.start.append (.symbol op.symbol :: right.pieces)
    rw [pieces, unplaced]
    refine Reads.peekAt (Reads.before ?_ fun _ _ => trivial)
    refine Grammar.groupedType_reads (hstart.mono fun _ ht => ht.1) (hinner.before ?_)
    exact fun _ ht => ht ▸ Grammar.endsType_rparen
  | array span element =>
    rw [pieces, List.length_append, List.length_cons, List.length_singleton] at hn
    obtain ⟨m, rfl⟩ : ∃ m, n = m + 1 := Nat.exists_eq_add_of_le' (by omega)
    have helement := (hparts element (.head _)).nested (m := m) (by omega) TypeOp.loosest
    rw [pieces, unplaced]
    exact Reads.peekAt ((Grammar.arrayType_reads helement).before fun _ _ => trivial)
  | unit span =>
    rw [pieces, unplaced]
    exact Reads.peekAt (Grammar.unitType_reads.before fun _ _ => trivial)

theorem TypeExpr.readsBack {t : TypeExpr} (h : (Node.type t).Named) : t.ReadsBack := by
  have hall : ∀ n : Node, n.Named → ∀ t, n = .type t → t.ReadsBack := by
    intro n
    induction n using Node.induction_on with
    | h n ih =>
      rintro hn t rfl
      have hparts : ∀ part, Child.plain (.type part) ∈ t.children → part.ReadsBack :=
        fun part hpart => ih _ hpart (hn.child hpart) part rfl
      exact ⟨t.before_pieces hn.here,
        t.keepsAngles hn.here fun part hpart => (hparts part hpart).angles,
        fun _ hlength => t.reads_primary hn.here hparts hlength⟩
  exact hall _ h t rfl

end ScriptCompiler
