import ScriptCompiler.Proofs.References
import ScriptCompiler.Proofs.Scanning
import ScriptCompiler.Syntax.Outline

/-!
# The pieces of printed trees

The one-line form of a type or expression is a text, but it can also be described token by token.
The two descriptions agree: scanning the text gives the tokens. This takes names that are spelled as
names, and literals whose quoted form the scanner can read.
-/

namespace ScriptCompiler

open Text (joinWith)

/-! ### Pieces -/

def BinaryOp.symbol : BinaryOp → Symbol
  | .or => .orOr
  | .and => .andAnd
  | .eq => .eqEq
  | .notEq => .notEq
  | .lt => .lt
  | .gt => .gt
  | .ltEq => .ltEq
  | .gtEq => .gtEq
  | .bitOr => .pipe
  | .bitAnd => .amp
  | .add => .plus
  | .sub => .minus
  | .mul => .star
  | .div => .slash
  | .mod => .percent

def TypeOp.symbol : TypeOp → Symbol
  | .arrow => .arrow
  | .union => .pipe
  | .intersection => .amp
  | .sum => .plus

def UnaryOp.piece : UnaryOp → Piece
  | .neg => .symbol .minus
  | .not => .symbol .bang
  | .await => .word "await"

theorem BinaryOp.toList_text (op : BinaryOp) : op.text.toList = op.symbol.chars := by
  cases op <;> rfl

theorem TypeOp.toList_text (op : TypeOp) : op.text.toList = op.symbol.chars := by
  cases op <;> rfl

/-- A path: its words with `::` between them. -/
def pathPieces (name : String) : List Piece :=
  [.symbol .colonColon].intercalate
    ((pathSegments name).map fun segment => [.word (String.ofList segment)])

def listPieces (parts : List (List Piece)) : List Piece :=
  [.symbol .comma].intercalate parts

/-- The mark of an operator that tolerates failure. -/
def guardPieces (guarded : Bool) : List Piece :=
  if guarded then [.symbol .question] else []

mutual

/-- The tokens of the one-line form of a type. -/
def TypeExpr.pieces : TypeExpr → List Piece
  | .named _ name [] => pathPieces name.name
  | .named _ name (arg :: args) =>
    pathPieces name.name ++ .symbol .lt :: listPieces (arg.pieces :: typePieces args)
      ++ [.symbol .gt]
  | .binary _ op left right =>
    .symbol .lparen :: left.pieces ++ .symbol op.symbol :: right.pieces ++ [.symbol .rparen]
  | .array _ element => .symbol .lbracket :: element.pieces ++ [.symbol .rbracket]
  | .unit _ => [.symbol .lparen, .symbol .rparen]

def typePieces : List TypeExpr → List (List Piece)
  | [] => []
  | type :: rest => type.pieces :: typePieces rest

end

mutual

/-- The tokens of the one-line form of an expression. A function without a name has no such form,
    and neither has the block after a call. -/
def Expr.pieces : Expr → List Piece
  | .number _ digits => [.numeral digits]
  | .string _ value => [.literal value]
  | .bool _ value => [.word (Text.Json.boolText value)]
  | .name _ ident => [.word ident.name]
  | .binary _ op left right =>
    .symbol .lparen :: left.pieces ++ .symbol op.symbol :: right.pieces ++ [.symbol .rparen]
  | .unary _ op operand => .symbol .lparen :: op.piece :: operand.pieces ++ [.symbol .rparen]
  | .assign _ target value =>
    .symbol .lparen :: target.pieces ++ .symbol .eq :: value.pieces ++ [.symbol .rparen]
  | .typeTest _ operand type guarded =>
    .symbol .lparen :: operand.pieces ++ .word "is" :: guardPieces guarded ++ type.pieces
      ++ [.symbol .rparen]
  | .cast _ operand type guarded =>
    .symbol .lparen :: operand.pieces ++ .word "as" :: guardPieces guarded ++ type.pieces
      ++ [.symbol .rparen]
  | .call _ callee args _ =>
    callee.pieces ++ .symbol .lparen :: listPieces (exprPieces args) ++ [.symbol .rparen]
  | .field _ receiver member => receiver.pieces ++ [.symbol .dot, .word member.name]
  | .staticMember _ receiver member =>
    receiver.pieces ++ [.symbol .colonColon, .word member.name]
  | .index _ receiver position =>
    receiver.pieces ++ .symbol .lbracket :: position.pieces ++ [.symbol .rbracket]
  | .array _ elements =>
    .symbol .lbracket :: listPieces (exprPieces elements) ++ [.symbol .rbracket]
  | .object _ fields => .symbol .lbrace :: listPieces (fieldPieces fields) ++ [.symbol .rbrace]
  | .lambda .. => []
  | .new _ className args =>
    .word "new" :: pathPieces className.name
      ++ .symbol .lparen :: listPieces (exprPieces args) ++ [.symbol .rparen]

def exprPieces : List Expr → List (List Piece)
  | [] => []
  | e :: rest => e.pieces :: exprPieces rest

/-- The tokens of each of the fields of an object literal. -/
def fieldPieces : List ObjectField → List (List Piece)
  | [] => []
  | ⟨key, value, _⟩ :: rest => (.word key :: .symbol .colon :: value.pieces) :: fieldPieces rest

end

/-- What is left of an expression in its one-line form is enough to read it: there is no function
    without a name and no block after a call, string literals are written without code points, and
    the keys of objects are names. -/
def Node.Readable : Node → Prop
  | .expr (.lambda ..) => False
  | .expr (.call _ _ _ closure?) => closure? = none
  | .expr (.string _ value) => ∀ c ∈ value.toList, Token.WrittenPlainly c
  | .expr (.object _ fields) => ∀ field ∈ fields, IsMemberName field.key
  | _ => True

instance (c : Char) : Decidable (Token.WrittenPlainly c) :=
  inferInstanceAs (Decidable (¬ _))

-- The characters of the name are looked at, not all characters that there are.
instance (name : String) : Decidable (IsWord name) :=
  List.decidableBAll _ name.toList

instance (name : String) : Decidable (IsMemberName name) :=
  decidable_of_iff
    (name.toList.head?.any Token.isWordStart = true ∧ IsWord name ∧ name ≠ "true" ∧ name ≠ "false")
    ⟨fun h => ⟨(Option.any_eq_true ..).mp h.1, h.2.1, h.2.2.1, h.2.2.2⟩,
      fun h => ⟨(Option.any_eq_true ..).mpr h.start, h.word, h.notTrue, h.notFalse⟩⟩

mutual

/-- Every part of the expression is readable. -/
def Expr.isReadable : Expr → Bool
  | .number .. | .bool .. | .name .. => true
  | .string _ value => value.toList.all fun c => decide (Token.WrittenPlainly c)
  | .binary _ _ left right => left.isReadable && right.isReadable
  | .unary _ _ operand => operand.isReadable
  | .assign _ target value => target.isReadable && value.isReadable
  | .typeTest _ operand _ _ | .cast _ operand _ _ => operand.isReadable
  | .call _ callee args closure? => callee.isReadable && allReadable args && closure?.isNone
  | .field _ receiver _ | .staticMember _ receiver _ => receiver.isReadable
  | .index _ receiver position => receiver.isReadable && position.isReadable
  | .array _ elements => allReadable elements
  | .object _ fields => fieldsReadable fields
  | .lambda .. => false
  | .new _ _ args => allReadable args

def allReadable : List Expr → Bool
  | [] => true
  | e :: rest => e.isReadable && allReadable rest

def fieldsReadable : List ObjectField → Bool
  | [] => true
  | ⟨key, value, _⟩ :: rest =>
    decide (IsMemberName key) && value.isReadable && fieldsReadable rest

end

theorem TypeExpr.node_of_mem_children {t : TypeExpr} {child : Child} (h : child ∈ t.children) :
    ∃ part, child.node = .type part := by
  cases t with
  | named span name args =>
    obtain ⟨part, _, rfl⟩ := List.mem_map.mp h
    exact ⟨part, rfl⟩
  | binary span op left right =>
    rcases List.mem_pair.mp h with rfl | rfl
    · exact ⟨left, rfl⟩
    · exact ⟨right, rfl⟩
  | array span element =>
    obtain rfl := List.mem_singleton.mp h
    exact ⟨element, rfl⟩
  | unit span => exact absurd h List.not_mem_nil

theorem TypeExpr.every_readable (t : TypeExpr) : (Node.type t).Every Node.Readable := by
  have hall : ∀ n : Node, ∀ t, n = .type t → n.Every Node.Readable := by
    intro n
    induction n using Node.induction_on with
    | h n ih =>
      rintro t rfl
      refine .intro trivial fun child hchild => ?_
      obtain ⟨part, hpart⟩ := node_of_mem_children hchild
      exact ih child hchild part hpart
  exact hall _ t rfl

mutual

theorem Expr.every_readable (e : Expr) (h : e.isReadable = true) :
    (Node.expr e).Every Node.Readable := by
  match e with
  | .number .. | .bool .. | .name .. => exact .intro trivial nofun
  | .string _ value =>
    rw [Expr.isReadable, List.all_eq_true] at h
    exact .intro (fun c hc => of_decide_eq_true (h c hc)) nofun
  | .binary _ _ left right | .assign _ left right | .index _ left right =>
    rw [Expr.isReadable, Bool.and_eq_true] at h
    refine .intro trivial fun child hchild => ?_
    rcases List.mem_pair.mp hchild with rfl | rfl
    · exact left.every_readable h.1
    · exact right.every_readable h.2
  | .typeTest _ operand type _ | .cast _ operand type _ =>
    rw [Expr.isReadable] at h
    refine .intro trivial fun child hchild => ?_
    rcases List.mem_pair.mp hchild with rfl | rfl
    · exact operand.every_readable h
    · exact type.every_readable
  | .unary _ _ operand | .field _ operand _ | .staticMember _ operand _ =>
    rw [Expr.isReadable] at h
    refine .intro trivial fun child hchild => ?_
    obtain rfl := List.mem_singleton.mp hchild
    exact operand.every_readable h
  | .call _ callee args closure? =>
    rw [Expr.isReadable, Bool.and_eq_true, Bool.and_eq_true] at h
    obtain rfl := Option.isNone_iff_eq_none.mp h.2
    refine .intro rfl fun child hchild => ?_
    rcases List.mem_append.mp hchild with hchild | hchild
    · rcases List.mem_cons.mp hchild with rfl | hchild
      · exact callee.every_readable h.1.1
      · obtain ⟨arg, harg, rfl⟩ := List.mem_map.mp hchild
        exact every_of_allReadable args h.1.2 arg harg
    · exact absurd hchild List.not_mem_nil
  | .array _ elements | .new _ _ elements =>
    rw [Expr.isReadable] at h
    exact .intro trivial (List.forall_mem_map.mpr (every_of_allReadable elements h))
  | .object _ fields =>
    rw [Expr.isReadable] at h
    have hfields := every_of_fieldsReadable fields h
    exact .intro (fun field hfield => (hfields field hfield).1)
      (List.forall_mem_map.mpr fun field hfield => (hfields field hfield).2)
  | .lambda .. =>
    rw [Expr.isReadable] at h
    exact Bool.noConfusion h

theorem every_of_allReadable (es : List Expr) (h : allReadable es = true) :
    ∀ e ∈ es, (Node.expr e).Every Node.Readable := by
  match es with
  | [] => exact nofun
  | e :: rest =>
    rw [allReadable, Bool.and_eq_true] at h
    exact List.forall_mem_cons.mpr ⟨e.every_readable h.1, every_of_allReadable rest h.2⟩

theorem every_of_fieldsReadable (fields : List ObjectField) (h : fieldsReadable fields = true) :
    ∀ field ∈ fields, IsMemberName field.key ∧ (Node.expr field.value).Every Node.Readable := by
  match fields with
  | [] => exact nofun
  | ⟨key, value, _⟩ :: rest =>
    rw [fieldsReadable, Bool.and_eq_true, Bool.and_eq_true] at h
    exact List.forall_mem_cons.mpr ⟨⟨of_decide_eq_true h.1.1, value.every_readable h.1.2⟩,
      every_of_fieldsReadable rest h.2⟩

end

/-! ### Paths -/

theorem pathPieces_joinPath {path : List Ident} (h : IsPath path) :
    pathPieces (joinPath path) =
      [.symbol .colonColon].intercalate (path.map fun segment => [.word segment.name]) := by
  have hnames : ∀ name ∈ path.map Ident.name, IsIdentifier name :=
    List.forall_mem_map.mpr h.segments
  rw [pathPieces, joinPath, pathSegments_joinWith hnames]
  simp [Function.comp_def]

theorem pathPieces_self : pathPieces "Self" = [.word "Self"] :=
  rfl

/-! ### Scanning the one-line forms -/

theorem Stops.cons {c : Char} (hword : Token.isWordPart c = false) (heq : c ≠ '=') (hdot : c ≠ '.')
    (rest : List Char) : Stops (c :: rest) := by
  intro d hd
  obtain rfl := Option.some.inj hd
  exact ⟨hword, heq, fun h => absurd h hdot⟩

theorem Stops.space (rest : List Char) : Stops (' ' :: rest) :=
  .cons (by decide) (by decide) (by decide) rest

theorem Stops.word {rest : List Char} (h : Stops rest) :
    ∀ c ∈ rest.head?, Token.isWordPart c = false :=
  fun c hc => (h c hc).1

/-- The text is scanned as these pieces, whatever follows it, as long as it does not go on with it.
    Its first character makes no longer sign of a sign before it. -/
structure Prints (text : String) (pieces : List Piece) : Prop where
  start : ∃ c ∈ text.toList.head?, c ≠ '=' ∧ c ≠ '>'
  scans : ∀ {rest : List Char} {more : List Piece}, Stops rest → Scans rest more →
    Scans (text.toList ++ rest) (pieces ++ more)

theorem start_append {first : String} (h : ∃ c ∈ first.toList.head?, c ≠ '=' ∧ c ≠ '>')
    (second : String) : ∃ c ∈ (first ++ second).toList.head?, c ≠ '=' ∧ c ≠ '>' := by
  obtain ⟨c, hc, hne⟩ := h
  obtain ⟨tail, htail⟩ := List.head?_eq_some_iff.mp hc
  exact ⟨c, by simp [htail], hne⟩

namespace Prints

theorem word {text : String} (hstart : ∃ c ∈ text.toList.head?, Token.isWordStart c)
    (hword : IsWord text) : Prints text [.word text] where
  start := by
    obtain ⟨c, hc, hcstart⟩ := hstart
    refine ⟨c, hc, ?_, ?_⟩
    · rintro rfl
      exact absurd hcstart (by decide)
    · rintro rfl
      exact absurd hcstart (by decide)
  scans hrest h := h.word hstart hword hrest.word

theorem numeral {digits : String} (hdigits : IsNumeral digits) :
    Prints digits [.numeral digits] where
  start := by
    obtain ⟨c, tail, htail, hc⟩ := Token.exists_cons_of_isNumeral hdigits
    refine ⟨c, by rw [htail]; rfl, ?_, ?_⟩
    · rintro rfl
      exact absurd hc (by decide)
    · rintro rfl
      exact absurd hc (by decide)
  scans hrest h := h.numeral hdigits hrest

theorem literal {value : String} (hvalue : ∀ c ∈ value.toList, Token.WrittenPlainly c) :
    Prints (Text.quoted value) [.literal value] where
  start := ⟨'"', by rw [Text.quoted, String.toList_ofList]; rfl, by decide, by decide⟩
  scans _ h := h.literal hvalue

end Prints

section Joined

variable {sep : List Char} {between : List Piece}

theorem scans_separated {texts : List String} {parts : List (List Piece)}
    (h : List.Forall₂ Prints texts parts)
    (hsep : ∀ {rest more}, Scans rest more → Scans (sep ++ rest) (between ++ more))
    (hstop : ∀ rest, Stops (sep ++ rest)) {rest : List Char} {more : List Piece}
    (hrest : Stops rest) (hscans : Scans rest more) :
    let joined := (texts.map String.toList).flatMap (sep ++ ·) ++ rest
    Stops joined ∧ Scans joined (parts.flatMap (between ++ ·) ++ more) := by
  induction h with
  | nil => exact ⟨hrest, hscans⟩
  | cons htext _ ih =>
    dsimp only at ih ⊢
    rw [List.map_cons, List.flatMap_cons, List.flatMap_cons, List.append_assoc, List.append_assoc,
      List.append_assoc, List.append_assoc]
    exact ⟨hstop _, hsep (htext.scans ih.1 ih.2)⟩

theorem scans_joined {texts : List String} {parts : List (List Piece)}
    (h : List.Forall₂ Prints texts parts)
    (hsep : ∀ {rest more}, Scans rest more → Scans (sep ++ rest) (between ++ more))
    (hstop : ∀ rest, Stops (sep ++ rest)) {rest : List Char} {more : List Piece}
    (hrest : Stops rest) (hscans : Scans rest more) :
    Scans (sep.intercalate (texts.map String.toList) ++ rest)
      (between.intercalate parts ++ more) := by
  cases h with
  | nil => exact hscans
  | cons htext hothers =>
    obtain ⟨hstops, hrest⟩ := scans_separated hothers hsep hstop hrest hscans
    rw [List.map_cons, Text.intercalate_cons, Text.intercalate_cons, List.append_assoc,
      List.append_assoc]
    exact htext.scans hstops hrest

end Joined

theorem scans_list {texts : List String} {parts : List (List Piece)}
    (h : List.Forall₂ Prints texts parts) {rest : List Char} {more : List Piece}
    (hrest : Stops rest) (hscans : Scans rest more) :
    Scans ((joinWith ", " texts).toList ++ rest) (listPieces parts ++ more) := by
  rw [Text.toList_joinWith, listPieces]
  exact scans_joined h (fun hmore => hmore.space.mark .comma rfl)
    (fun more => .cons (by decide) (by decide) (by decide) (' ' :: more)) hrest hscans

namespace Prints

theorem identifier {name : String} (h : IsIdentifier name) : Prints name [.word name] :=
  word h.start h.word

theorem keyword (k : Keyword) : Prints k.text [.word k.text] := by
  have hstart : ∃ c ∈ k.text.toList.head?, Token.isWordStart c := by
    cases k <;> exact ⟨_, rfl, by decide⟩
  have hword : IsWord k.text := by
    cases k <;> decide
  exact word hstart hword

theorem bool (value : Bool) :
    Prints (Text.Json.boolText value) [.word (Text.Json.boolText value)] := by
  have hword : IsWord (Text.Json.boolText value) := by
    cases value <;> decide
  refine word ?_ hword
  cases value <;> exact ⟨_, rfl, by decide⟩

theorem path {path : List Ident} (h : IsPath path) :
    Prints (joinPath path) (pathPieces (joinPath path)) := by
  have hsegments : List.Forall₂ Prints (path.map Ident.name)
      (path.map fun segment => [.word segment.name]) := by
    rw [List.forall₂_map_left_iff, List.forall₂_map_right_iff, List.forall₂_same]
    exact fun segment hsegment => identifier (h.segments segment hsegment)
  refine ⟨?_, fun hrest hscans => ?_⟩
  · obtain ⟨first, rest, rfl⟩ := List.exists_cons_of_ne_nil h.nonempty
    obtain ⟨c, hc, hne⟩ := (identifier (h.segments first List.mem_cons_self)).start
    obtain ⟨tail, htail⟩ := List.head?_eq_some_iff.mp hc
    refine ⟨c, ?_, hne⟩
    rw [joinPath, Text.toList_joinWith, List.map_cons, List.map_cons, Text.intercalate_cons, htail]
    rfl
  · rw [pathPieces_joinPath h, joinPath, Text.toList_joinWith]
    exact scans_joined hsegments (fun hmore => hmore.mark .colonColon rfl)
      (fun more => .cons (by decide) (by decide) (by decide) (':' :: more)) hrest hscans

/-- A list in brackets behind a name, as for the arguments of a type. -/
theorem angles {name : String} {pieces : List Piece} (hname : Prints name pieces)
    {text : String} {texts : List String} {part : List Piece} {parts : List (List Piece)}
    (htext : Prints text part) (htexts : List.Forall₂ Prints texts parts) :
    Prints (name ++ "<" ++ joinWith ", " (text :: texts) ++ ">")
      (pieces ++ .symbol .lt :: listPieces (part :: parts) ++ [.symbol .gt]) where
  start := start_append (start_append (start_append hname.start _) _) _
  scans {rest more} hrest h := by
    have hclose : Scans ('>' :: rest) (.symbol .gt :: more) :=
      h.symbol .gt fun c hc heq => (hrest c hc).2.1 (Option.some.inj heq).symm
    have hlist := scans_list (.cons htext htexts)
      (.cons (by decide) (by decide) (by decide) rest) hclose
    have hopen : ∀ c ∈ ((joinWith ", " (text :: texts)).toList ++ '>' :: rest).head?, c ≠ '=' := by
      obtain ⟨c, hc, hne, _⟩ := htext.start
      obtain ⟨tail, htail⟩ := List.head?_eq_some_iff.mp hc
      intro d hd
      rw [Text.toList_joinWith, List.map_cons, Text.intercalate_cons, htail] at hd
      obtain rfl := Option.some.inj hd
      exact hne
    have hargs := hlist.symbol .lt fun c hc heq => hopen c hc (Option.some.inj heq).symm
    have hall := hname.scans (.cons (by decide) (by decide) (by decide) _) hargs
    simpa [Symbol.chars] using hall

/-- A text with which no token of the text before it goes on. -/
theorem suffix {receiver text : String} {pieces extra : List Piece} (h : Prints receiver pieces)
    (hstop : ∀ rest, Stops (text.toList ++ rest))
    (hscans : ∀ {rest : List Char} {more : List Piece}, Stops rest → Scans rest more →
      Scans (text.toList ++ rest) (extra ++ more)) :
    Prints (receiver ++ text) (pieces ++ extra) where
  start := start_append h.start text
  scans {rest more} hrest hmore := by
    rw [String.toList_append, List.append_assoc, List.append_assoc]
    exact h.scans (hstop rest) (hscans hrest hmore)

theorem field {receiver name : String} {pieces : List Piece} (h : Prints receiver pieces)
    (hname : IsMemberName name) :
    Prints (receiver ++ "." ++ name) (pieces ++ [.symbol .dot, .word name]) := by
  obtain ⟨c, hc, hstart⟩ := hname.start
  obtain ⟨tail, htail⟩ := List.head?_eq_some_iff.mp hc
  rw [String.append_assoc]
  refine h.suffix (fun rest d hd => ?_) fun hrest hmore => ?_
  · -- A point with a letter behind it belongs to no numeral.
    rw [String.toList_append, htail] at hd ⊢
    obtain rfl := Option.some.inj hd
    refine ⟨by decide, by decide, fun _ e he => ?_⟩
    obtain rfl := Option.some.inj he
    by_contra hdigit
    rw [Token.isWordStart_of_isDigit (by simpa using hdigit)] at hstart
    exact Bool.noConfusion hstart
  · rw [String.toList_append, List.append_assoc]
    exact (hmore.word hname.start hname.word hrest.word).mark .dot rfl

theorem staticMember {receiver name : String} {pieces : List Piece} (h : Prints receiver pieces)
    (hname : IsMemberName name) :
    Prints (receiver ++ "::" ++ name) (pieces ++ [.symbol .colonColon, .word name]) := by
  rw [String.append_assoc]
  refine h.suffix (fun rest => ?_) fun hrest hmore => ?_
  · rw [String.toList_append]
    exact .cons (by decide) (by decide) (by decide) _
  · rw [String.toList_append, List.append_assoc]
    exact (hmore.word hname.start hname.word hrest.word).mark .colonColon rfl

theorem arguments {receiver : String} {pieces : List Piece} (h : Prints receiver pieces)
    {texts : List String} {parts : List (List Piece)} (hargs : List.Forall₂ Prints texts parts) :
    Prints (receiver ++ "(" ++ joinWith ", " texts ++ ")")
      (pieces ++ .symbol .lparen :: listPieces parts ++ [.symbol .rparen]) where
  start := start_append (start_append (start_append h.start _) _) _
  scans {rest more} _ hmore := by
    have hclose : Stops (')' :: rest) := .cons (by decide) (by decide) (by decide) rest
    have hlist := (scans_list hargs hclose (hmore.mark .rparen rfl)).mark .lparen rfl
    have hall := h.scans (.cons (by decide) (by decide) (by decide) _) hlist
    simpa [Symbol.chars] using hall

theorem index {receiver position : String} {first second : List Piece}
    (hreceiver : Prints receiver first) (hposition : Prints position second) :
    Prints (receiver ++ "[" ++ position ++ "]")
      (first ++ .symbol .lbracket :: second ++ [.symbol .rbracket]) where
  start := start_append (start_append (start_append hreceiver.start _) _) _
  scans {rest more} _ hmore := by
    have hclose : Stops (']' :: rest) := .cons (by decide) (by decide) (by decide) rest
    have hinner := (hposition.scans hclose (hmore.mark .rbracket rfl)).mark .lbracket rfl
    have hall := hreceiver.scans (.cons (by decide) (by decide) (by decide) _) hinner
    simpa [Symbol.chars] using hall

theorem array {texts : List String} {parts : List (List Piece)}
    (h : List.Forall₂ Prints texts parts) :
    Prints ("[" ++ joinWith ", " texts ++ "]")
      (.symbol .lbracket :: listPieces parts ++ [.symbol .rbracket]) where
  start := ⟨'[', by simp, by decide, by decide⟩
  scans {rest more} _ hmore := by
    have hclose : Stops (']' :: rest) := .cons (by decide) (by decide) (by decide) rest
    have hall := (scans_list h hclose (hmore.mark .rbracket rfl)).mark .lbracket rfl
    simpa [Symbol.chars] using hall

theorem object {texts : List String} {parts : List (List Piece)}
    (h : List.Forall₂ Prints texts parts) :
    Prints ("\x7b " ++ joinWith ", " texts ++ " \x7d")
      (.symbol .lbrace :: listPieces parts ++ [.symbol .rbrace]) where
  start := ⟨'{', by simp, by decide, by decide⟩
  scans {rest more} _ hmore := by
    have hlist := scans_list h (.space _) (hmore.mark .rbrace rfl).space
    have hall := hlist.space.mark .lbrace rfl
    simpa [Symbol.chars] using hall

theorem objectField {key value : String} {pieces : List Piece} (hkey : IsMemberName key)
    (hvalue : Prints value pieces) :
    Prints (key ++ ": " ++ value) (.word key :: .symbol .colon :: pieces) where
  start := start_append (start_append (word hkey.start hkey.word).start _) _
  scans {rest more} hrest hmore := by
    have hcolon := (hvalue.scans hrest hmore).symbol_space .colon
    have hall := (word hkey.start hkey.word).scans (.cons (by decide) (by decide) (by decide) _)
      hcolon
    simpa [Symbol.chars] using hall

/-- Two operands with a sign between them, in parentheses. -/
theorem operation {left right sign : String} {first second : List Piece} {s : Symbol}
    (hleft : Prints left first) (hright : Prints right second) (hsign : sign.toList = s.chars) :
    Prints ("(" ++ left ++ " " ++ sign ++ " " ++ right ++ ")")
      (.symbol .lparen :: first ++ .symbol s :: second ++ [.symbol .rparen]) where
  start := ⟨'(', by simp, by decide, by decide⟩
  scans {rest more} _ h := by
    have hstops : Stops (')' :: rest) := .cons (by decide) (by decide) (by decide) rest
    have hright := (hright.scans hstops (h.mark .rparen rfl)).symbol_space s
    have hall := (hleft.scans (.space _) hright.space).mark .lparen rfl
    simpa [hsign, Symbol.chars] using hall

/-- An operand and a type with a word between them, in parentheses. -/
theorem typeOperation {operand type text spaced : String} {first second : List Piece}
    {guarded : Bool} (hoperand : Prints operand first) (htype : Prints type second)
    (htext : Prints text [.word text]) (hspaced : spaced.toList = ' ' :: text.toList) :
    Prints ("(" ++ operand ++ spaced ++ guardMark guarded ++ " " ++ type ++ ")")
      (.symbol .lparen :: first ++ .word text :: guardPieces guarded ++ second
        ++ [.symbol .rparen]) where
  start := ⟨'(', by simp, by decide, by decide⟩
  scans {rest more} _ h := by
    have hstops : Stops (')' :: rest) := .cons (by decide) (by decide) (by decide) rest
    have htype := htype.scans hstops (h.mark .rparen rfl)
    have hmark : Scans (text.toList ++ ((guardMark guarded).toList ++
        ' ' :: (type.toList ++ ')' :: rest)))
        (.word text :: (guardPieces guarded ++ (second ++ .symbol .rparen :: more))) := by
      cases guarded with
      | false => exact htext.scans (.space _) htype.space
      | true =>
        exact htext.scans (.cons (by decide) (by decide) (by decide) _)
          (htype.symbol_space .question)
    have hall := (hoperand.scans (.space _) hmark.space).mark .lparen rfl
    simpa [hspaced, Symbol.chars] using hall

theorem unary {operand : String} {pieces : List Piece} (op : UnaryOp) (h : Prints operand pieces) :
    Prints ("(" ++ op.text ++ operand ++ ")")
      (.symbol .lparen :: op.piece :: pieces ++ [.symbol .rparen]) where
  start := ⟨'(', by simp, by decide, by decide⟩
  scans {rest more} _ hmore := by
    have hstops : Stops (')' :: rest) := .cons (by decide) (by decide) (by decide) rest
    have hoperand := h.scans hstops (hmore.mark .rparen rfl)
    have hstart : ∀ c ∈ (operand.toList ++ ')' :: rest).head?, c ≠ '=' ∧ c ≠ '>' := by
      obtain ⟨c, hc, hne⟩ := h.start
      obtain ⟨tail, htail⟩ := List.head?_eq_some_iff.mp hc
      intro d hd
      rw [htail] at hd
      obtain rfl := Option.some.inj hd
      exact hne
    have hsign : Scans (op.text.toList ++ (operand.toList ++ ')' :: rest))
        (op.piece :: (pieces ++ .symbol .rparen :: more)) := by
      cases op with
      | neg =>
        refine hoperand.symbol .minus fun c hc heq => ?_
        exact (hstart c hc).2 (Option.some.inj heq).symm
      | not =>
        refine hoperand.symbol .bang fun c hc heq => ?_
        exact (hstart c hc).1 (Option.some.inj heq).symm
      | await => exact (keyword .awaitKw).scans (.space _) hoperand.space
    have hall := hsign.mark .lparen rfl
    simpa [Symbol.chars] using hall

end Prints

/-! ### Trees -/

theorem compactTypes_eq (types : List TypeExpr) :
    compactTypes types = types.map TypeExpr.compact := by
  induction types with
  | nil => rw [compactTypes, List.map_nil]
  | cons type rest ih => rw [compactTypes, List.map_cons, ih]

theorem typePieces_eq (types : List TypeExpr) : typePieces types = types.map TypeExpr.pieces := by
  induction types with
  | nil => rw [typePieces, List.map_nil]
  | cons type rest ih => rw [typePieces, List.map_cons, ih]

theorem compactExprs_eq (es : List Expr) : compactExprs es = es.map Expr.compact := by
  induction es with
  | nil => rw [compactExprs, List.map_nil]
  | cons e rest ih => rw [compactExprs, List.map_cons, ih]

theorem exprPieces_eq (es : List Expr) : exprPieces es = es.map Expr.pieces := by
  induction es with
  | nil => rw [exprPieces, List.map_nil]
  | cons e rest ih => rw [exprPieces, List.map_cons, ih]

theorem compactFields_eq (fields : List ObjectField) :
    compactFields fields = fields.map fun field => field.key ++ ": " ++ field.value.compact := by
  induction fields with
  | nil => rw [compactFields, List.map_nil]
  | cons field rest ih =>
    obtain ⟨key, value, span⟩ := field
    rw [compactFields, List.map_cons, ih]

theorem fieldPieces_eq (fields : List ObjectField) :
    fieldPieces fields =
      fields.map fun field => .word field.key :: .symbol .colon :: field.value.pieces := by
  induction fields with
  | nil => rw [fieldPieces, List.map_nil]
  | cons field rest ih =>
    obtain ⟨key, value, span⟩ := field
    rw [fieldPieces, List.map_cons, ih]

theorem forall₂_prints {α : Type} {text : α → String} {pieces : α → List Piece} {items : List α}
    (h : ∀ a ∈ items, Prints (text a) (pieces a)) :
    List.Forall₂ Prints (items.map text) (items.map pieces) := by
  rw [List.forall₂_map_left_iff, List.forall₂_map_right_iff, List.forall₂_same]
  exact h

/-- The one-line form of a type or an expression is scanned as its pieces. -/
def Node.Printed : Node → Prop
  | .type t => Prints t.compact t.pieces
  | .expr e => Prints e.compact e.pieces
  | _ => True

theorem TypeExpr.prints {t : TypeExpr} (hnamed : (Node.type t).WellNamed)
    (ih : ∀ child ∈ t.children, child.node.Printed) : Prints t.compact t.pieces := by
  cases t with
  | named span name args =>
    have hname : Prints name.name (pathPieces name.name) := by
      rcases hnamed with ⟨path, hpath, hjoin⟩ | ⟨hself, _⟩
      · rw [hjoin]
        exact .path hpath
      · rw [hself]
        exact .keyword .selfTypeKw
    cases args with
    | nil =>
      rw [TypeExpr.compact, TypeExpr.pieces]
      exact hname
    | cons arg args =>
      have hargs : ∀ t ∈ arg :: args, Prints t.compact t.pieces :=
        fun t ht => ih (.plain (.type t)) (List.mem_map_of_mem ht)
      obtain ⟨harg, hargs⟩ := List.forall_mem_cons.mp hargs
      rw [TypeExpr.compact, TypeExpr.pieces, compactTypes_eq, typePieces_eq]
      exact hname.angles harg (forall₂_prints hargs)
  | binary span op left right =>
    have hleft : Prints left.compact left.pieces := ih (.plain (.type left)) (.head _)
    have hright : Prints right.compact right.pieces := ih (.plain (.type right)) (.tail _ (.head _))
    rw [TypeExpr.compact, TypeExpr.pieces]
    exact hleft.operation hright op.toList_text
  | array span element =>
    have helement : Prints element.compact element.pieces := ih (.plain (.type element)) (.head _)
    rw [TypeExpr.compact, TypeExpr.pieces]
    refine ⟨⟨'[', by simp, by decide, by decide⟩, fun {rest more} _ h => ?_⟩
    have hclose : Stops (']' :: rest) := .cons (by decide) (by decide) (by decide) rest
    have hall := (helement.scans hclose (h.mark .rbracket rfl)).mark .lbracket rfl
    simpa [Symbol.chars] using hall
  | unit span =>
    rw [TypeExpr.compact, TypeExpr.pieces]
    exact ⟨⟨'(', by decide, by decide, by decide⟩,
      fun _ h => (h.mark .rparen rfl).mark .lparen rfl⟩

theorem Expr.prints {e : Expr} (hnamed : (Node.expr e).WellNamed)
    (hreadable : (Node.expr e).Readable) (ih : ∀ child ∈ e.children, child.node.Printed) :
    Prints e.compact e.pieces := by
  have hplain : ∀ operand : Expr, Child.plain (.expr operand) ∈ e.children →
      Prints operand.compact operand.pieces := fun operand hchild => ih _ hchild
  have htype : ∀ type : TypeExpr, Child.plain (.type type) ∈ e.children →
      Prints type.compact type.pieces := fun type hchild => ih _ hchild
  cases e with
  | number span digits =>
    rw [compact, pieces]
    exact .numeral hnamed
  | string span value =>
    rw [compact, pieces]
    exact .literal hreadable
  | bool span value =>
    rw [compact, pieces]
    exact .bool value
  | name span ident =>
    rw [compact, pieces]
    rcases hnamed with hident | hself | hself
    · exact .identifier hident
    · rw [hself]
      exact .keyword .selfKw
    · rw [hself]
      exact .keyword .selfTypeKw
  | binary span op left right =>
    rw [compact, pieces]
    exact (hplain left (.head _)).operation (hplain right (.tail _ (.head _))) op.toList_text
  | unary span op operand =>
    rw [compact, pieces]
    exact (hplain operand (.head _)).unary op
  | assign span target value =>
    rw [compact, pieces]
    have hsign : "(" ++ target.compact ++ " = " ++ value.compact ++ ")" =
        "(" ++ target.compact ++ " " ++ "=" ++ " " ++ value.compact ++ ")" :=
      String.toList_inj.mp (by simp)
    rw [hsign]
    exact (hplain target (.head _)).operation (hplain value (.tail _ (.head _))) rfl
  | typeTest span operand type guarded =>
    rw [compact, pieces]
    exact (hplain operand (.head _)).typeOperation (htype type (.tail _ (.head _)))
      (.keyword .isKw) rfl
  | cast span operand type guarded =>
    rw [compact, pieces]
    exact (hplain operand (.head _)).typeOperation (htype type (.tail _ (.head _)))
      (.keyword .asKw) rfl
  | call span callee args closure? =>
    obtain rfl : closure? = none := hreadable
    have hargs : ∀ a ∈ args, Prints a.compact a.pieces := by
      intro a ha
      refine hplain a (List.mem_append_left _ (List.mem_cons_of_mem _ ?_))
      exact List.mem_map_of_mem ha
    rw [compact, pieces, compactExprs_eq, exprPieces_eq, Option.isSome_none,
      if_neg Bool.noConfusion, String.append_empty]
    exact (hplain callee (.head _)).arguments (forall₂_prints hargs)
  | field span receiver ident =>
    rw [compact, pieces]
    exact (hplain receiver (.head _)).field hnamed
  | staticMember span receiver ident =>
    rw [compact, pieces]
    exact (hplain receiver (.head _)).staticMember hnamed
  | index span receiver position =>
    rw [compact, pieces]
    exact (hplain receiver (.head _)).index (hplain position (.tail _ (.head _)))
  | array span elements =>
    rw [compact, pieces, compactExprs_eq, exprPieces_eq]
    exact .array (forall₂_prints fun a ha => hplain a (List.mem_map_of_mem ha))
  | object span fields =>
    rw [compact, pieces, compactFields_eq, fieldPieces_eq]
    refine .object (forall₂_prints fun field hfield => ?_)
    have hvalue := hplain field.value (List.mem_map.mpr ⟨field, hfield, rfl⟩)
    exact .objectField (hreadable field hfield) hvalue
  | lambda span params body => exact hreadable.elim
  | new span className args =>
    have hname : Prints className.name (pathPieces className.name) := by
      rcases hnamed with ⟨path, hpath, hjoin⟩ | hself
      · rw [hjoin]
        exact .path hpath
      · rw [hself]
        exact .keyword .selfTypeKw
    have hnew : Prints ("new " ++ className.name) (.word "new" :: pathPieces className.name) := by
      refine ⟨⟨'n', by simp, by decide, by decide⟩, fun {rest more} hrest hmore => ?_⟩
      have hall := (Prints.keyword .newKw).scans (.space _) (hname.scans hrest hmore).space
      simpa [Keyword.text] using hall
    rw [compact, pieces, compactExprs_eq, exprPieces_eq]
    exact hnew.arguments (forall₂_prints fun a ha => hplain a (List.mem_map_of_mem ha))

/-- The one-line forms of readable parts are scanned as their pieces. -/
theorem Node.prints {n : Node} (hnamed : n.Named) (hreadable : n.Every Readable) : n.Printed := by
  induction n using Node.induction_on with
  | h n ih =>
    have hchildren : ∀ child ∈ n.children, child.node.Printed := fun child hchild =>
      ih child hchild (hnamed.child hchild) (hreadable.child hchild)
    cases n with
    | type t => exact t.prints hnamed.here hchildren
    | expr e => exact e.prints hnamed.here hreadable.here hchildren
    | _ => trivial

end ScriptCompiler
