import ScriptCompiler.Proofs.References
import ScriptCompiler.Proofs.Scanning
import ScriptCompiler.Script.Emit

/-!
# Reading expressions of scripts

A reader for the texts that are written for expressions without casts, type tests, functions and
static members. Each text has one reading, because every operator is written in parentheses, the
operands that would run into what follows them are too, and a string ends with its closing quote.
The reader has no places to give, so it gives all nodes the same one. It is meant for written texts
only, and does not look at what it knows to stand there.
-/

namespace ScriptCompiler.Script

open Token (isWordPart takeWhile_append_of_stop dropWhile_append_of_stop)

/-- A reader of a value from the front of a text, which gives the rest of the text. -/
abbrev TextReader (α : Type) := List Char → Option (α × List Char)

/-! ### Literals and names -/

/-- The value of a hexadecimal digit in lower case. -/
def hexValue (c : Char) : Nat :=
  if c.isDigit then c.toNat - '0'.toNat else c.toNat - 'a'.toNat + 10

/-- A string literal behind its opening quote. -/
def readQuoted : TextReader (List Char)
  | [] => none
  | '"' :: rest => some ([], rest)
  | '\\' :: 'n' :: rest => (readQuoted rest).map fun read => ('\n' :: read.1, read.2)
  | '\\' :: 'r' :: rest => (readQuoted rest).map fun read => ('\r' :: read.1, read.2)
  | '\\' :: 't' :: rest => (readQuoted rest).map fun read => ('\t' :: read.1, read.2)
  | '\\' :: 'u' :: _ :: _ :: high :: low :: rest =>
    (readQuoted rest).map fun read =>
      (Char.ofNat (16 * hexValue high + hexValue low) :: read.1, read.2)
  | '\\' :: c :: rest => (readQuoted rest).map fun read => (c :: read.1, read.2)
  | c :: rest => (readQuoted rest).map fun read => (c :: read.1, read.2)

/-- Of the four digits of an escape only the last two count. -/
theorem unicodeEscape_ofNat : ∀ k < 0x20, ∃ high low,
    Text.Json.unicodeEscape (Char.ofNat k) = ['\\', 'u', '0', '0', high, low] ∧
      16 * hexValue high + hexValue low = k := by
  have h : ∀ k < 0x20, Text.Json.unicodeEscape (Char.ofNat k) =
      ['\\', 'u', '0', '0', Nat.digitChar (k / 16), Nat.digitChar (k % 16)] ∧
        16 * hexValue (Nat.digitChar (k / 16)) + hexValue (Nat.digitChar (k % 16)) = k := by
    decide
  exact fun k hk => ⟨_, _, h k hk⟩

theorem readQuoted_quoteChar (c : Char) (rest : List Char) :
    readQuoted (quoteChar c ++ rest) =
      (readQuoted rest).map fun read => (c :: read.1, read.2) := by
  unfold quoteChar
  split_ifs with hslash hquote hline hreturn htab hcontrol
  · simp [readQuoted, hslash]
  · simp [readQuoted, hquote]
  · simp [readQuoted, hline]
  · simp [readQuoted, hreturn]
  · simp [readQuoted, htab]
  · obtain ⟨high, low, hescape, hvalue⟩ := unicodeEscape_ofNat c.toNat hcontrol
    rw [Char.ofNat_toNat] at hescape
    rw [hescape]
    simp [readQuoted, hvalue]
  · simp [readQuoted, hslash]

/-- A string literal reads as its value. -/
theorem readQuoted_quote (value : String) (rest : List Char) :
    readQuoted (value.toList.flatMap quoteChar ++ '"' :: rest) = some (value.toList, rest) := by
  induction value.toList with
  | nil => rfl
  | cons c chars ih =>
    rw [List.flatMap_cons, List.append_assoc, readQuoted_quoteChar, ih]
    rfl

theorem toList_quote (value : String) :
    (quote value).toList = '"' :: (value.toList.flatMap quoteChar ++ ['"']) := by
  simp [quote]

/-- The key of a field of an object literal. -/
def readKey : TextReader String
  | '"' :: rest => (readQuoted rest).map fun read => (String.ofList read.1, read.2)
  | chars => some (String.ofList (chars.takeWhile isNamePart), chars.dropWhile isNamePart)

theorem isNamePart_of_isPlainName {chars : List Char} (h : isPlainName chars = true) :
    ∀ c ∈ chars, isNamePart c = true := by
  cases chars with
  | nil => cases h
  | cons c rest =>
    obtain ⟨hstart, hparts⟩ := (Bool.and_eq_true _ _).mp h
    have hc : isNamePart c = true := by
      have hcases : c.isAlpha = true ∨ c = '_' ∨ c = '$' := by
        simpa [isNameStart, or_assoc] using hstart
      rcases hcases with halpha | rfl | rfl
      · simp [isNamePart, Char.isAlphanum, halpha]
      · decide
      · decide
    exact List.forall_mem_cons.mpr ⟨hc, List.all_eq_true.mp hparts⟩

theorem readKey_objectKey (key : String) (rest : List Char) :
    readKey ((objectKey key).toList ++ ':' :: rest) = some (key, ':' :: rest) := by
  unfold objectKey
  split
  · rename_i hplain
    have hstop : ∀ c ∈ (':' :: rest).head?, isNamePart c = false := by simp [isNamePart]
    have hparts := isNamePart_of_isPlainName hplain
    have hquote : ∀ chars, key.toList ++ ':' :: rest ≠ '"' :: chars := by
      intro chars hchars
      cases hkey : key.toList with
      | nil =>
        rw [hkey] at hplain
        cases hplain
      | cons c rest =>
        rw [hkey, List.cons_append] at hchars
        have hc := hparts c (hkey ▸ List.mem_cons_self)
        rw [(List.cons.inj hchars).1] at hc
        exact absurd hc (by decide)
    rw [readKey, takeWhile_append_of_stop hparts hstop, dropWhile_append_of_stop hparts hstop,
      String.ofList_toList]
    exact hquote
  · rw [toList_quote, List.cons_append, List.append_assoc, readKey]
    rw [List.singleton_append, readQuoted_quote]
    simp

def isPathPart (c : Char) : Bool :=
  isWordPart c || c == '.'

/-- The name of a class by its path in a script. -/
def pathName (path : List Char) : String :=
  String.ofList (path.flatMap fun c => if c = '.' then [':', ':'] else [c])

theorem pathName_intercalate {segments : List (List Char)}
    (h : ∀ segment ∈ segments, '.' ∉ segment) :
    pathName (['.'].intercalate segments) = String.ofList ([':', ':'].intercalate segments) := by
  have hsegment : ∀ segment : List Char, '.' ∉ segment →
      (segment.flatMap fun c => if c = '.' then [':', ':'] else [c]) = segment := by
    intro segment hdot
    induction segment with
    | nil => rfl
    | cons c rest ih =>
      have hc : c ≠ '.' := fun heq => hdot (heq ▸ List.mem_cons_self)
      have hrest : '.' ∉ rest := fun hin => hdot (List.mem_cons_of_mem c hin)
      rw [List.flatMap_cons, if_neg hc, ih hrest, List.singleton_append]
  unfold pathName
  cases segments with
  | nil => rfl
  | cons first rest =>
    obtain ⟨hfirst, hrest⟩ := List.forall_mem_cons.mp h
    rw [Text.intercalate_cons, Text.intercalate_cons, List.flatMap_append, hsegment first hfirst]
    rw [List.flatMap_assoc]
    have hlater : (rest.flatMap fun segment => (['.'] ++ segment).flatMap fun c =>
        if c = '.' then [':', ':'] else [c]) = rest.flatMap ([':', ':'] ++ ·) := by
      refine List.flatMap_congr fun segment hin => ?_
      rw [List.flatMap_append, hsegment segment (hrest segment hin)]
      rfl
    rw [hlater]

/-- The text of an identifier is the identifier. -/
theorem nameText_of_isIdentifier (ctx : Context) {name : String} (h : IsIdentifier name) :
    ctx.nameText name = name := by
  have hself : name ≠ "self" := h.ne_text .selfKw
  have htype : name ≠ "Self" := h.ne_text .selfTypeKw
  have hcolon : ':' ∉ name.toList := h.word.notMem (by decide)
  unfold Context.nameText
  rw [if_neg hself, if_neg htype, Text.replacePair_of_notMem _ hcolon, String.ofList_toList]

theorem nameText_of_isPathName (ctx : Context) {name : String} (h : IsPathName name) :
    ctx.nameText name = String.ofList (Text.replacePair ['.'] name.toList) := by
  have hself : name ≠ "self" := h.ne_text .selfKw
  have htype : name ≠ "Self" := h.ne_text .selfTypeKw
  rw [Context.nameText, if_neg hself, if_neg htype]

/-- The path of a class can be read off its text. -/
theorem pathName_nameText (ctx : Context) {name : String} (h : IsPathName name) :
    pathName (ctx.nameText name).toList = name ∧
      ∀ c ∈ (ctx.nameText name).toList, isPathPart c = true := by
  have hreplace := nameText_of_isPathName ctx h
  obtain ⟨path, hpath, rfl⟩ := h
  have hword : ∀ segment ∈ path.map fun s => s.name.toList, ∀ c ∈ segment, isWordPart c = true := by
    intro segment hsegment
    obtain ⟨ident, hident, rfl⟩ := List.mem_map.mp hsegment
    exact (hpath.segments ident hident).word
  have hjoin : (joinPath path).toList =
      [':', ':'].intercalate (path.map fun s => s.name.toList) := by
    rw [joinPath, Text.toList_joinWith, List.map_map]
    rfl
  have htext : (ctx.nameText (joinPath path)).toList =
      ['.'].intercalate (path.map fun s => s.name.toList) := by
    rw [hreplace, String.toList_ofList, hjoin, Text.replacePair_intercalate]
    intro segment hsegment hin
    exact absurd (hword segment hsegment _ hin) (by decide)
  rw [htext, pathName_intercalate, ← hjoin, String.ofList_toList]
  · refine ⟨rfl, fun c hc => ?_⟩
    by_contra hpart
    refine absurd hc (Text.notMem_intercalate ?_ fun segment hsegment hin => ?_)
    · rintro hdot
      obtain rfl := List.mem_singleton.mp hdot
      exact hpart rfl
    · exact hpart (Bool.or_eq_true_iff.mpr (.inl (hword segment hsegment c hin)))
  · intro segment hsegment hin
    exact absurd (hword segment hsegment _ hin) (by decide)

def isNumeralPart (c : Char) : Bool :=
  c.isDigit || c == '.'

/-! ### Expressions -/

def binaryOps : List BinaryOp :=
  [.or, .and, .eq, .notEq, .lt, .gt, .ltEq, .gtEq, .bitOr, .bitAnd, .add, .sub, .mul, .div, .mod]

/-- Two operands with the spelling of what stands between them; what is no operator is the sign of
    an assignment. -/
def combine (sign : List Char) (left right : Expr) : Expr :=
  match binaryOps.find? fun op => (binaryText op).toList == sign with
  | some op => .binary .zero op left right
  | none => .assign .zero left right

/-- A unary operator with its operand, behind the opening parenthesis. -/
def readUnary (expr : TextReader Expr) : TextReader Expr
  | '-' :: rest => (expr rest).map fun read => (.unary .zero .neg read.1, read.2.drop 1)
  | '!' :: rest => (expr rest).map fun read => (.unary .zero .not read.1, read.2.drop 1)
  -- The only operator that is a word is `await`, with a space behind it.
  | chars => (expr (chars.drop 6)).map fun read => (.unary .zero .await read.1, read.2.drop 1)

/-- What stands in parentheses, behind the opening one: two operands, one that is protected from
    what follows it, or a unary operator. -/
def readGroup (expr : TextReader Expr) (chars : List Char) : Option (Expr × List Char) :=
  match expr chars with
  | some (left, ' ' :: rest) =>
    let sign := rest.takeWhile (· != ' ')
    (expr ((rest.dropWhile (· != ' ')).drop 1)).map fun read =>
      (combine sign left read.1, read.2.drop 1)
  | some (e, rest) => some (e, rest.drop 1)
  | none => readUnary expr chars

/-- What starts with a word: a truth value, a new object or a name. -/
def readNamed (items : TextReader (List Expr)) (word : String) (rest : List Char) :
    Option (Expr × List Char) :=
  if word = "" ∨ word = "await" then none
  else if word = "true" then some (.bool .zero true, rest)
  else if word = "false" then some (.bool .zero false, rest)
  else if word = "new" then
    let path := (rest.drop 1).takeWhile isPathPart
    (items (((rest.drop 1).dropWhile isPathPart).drop 1)).map fun read =>
      (.new .zero ⟨pathName path, .zero⟩ read.1, read.2)
  else some (.name .zero ⟨word, .zero⟩, rest)

/-- A field of an object literal, with its key, a colon and a space. -/
def readField (expr : TextReader Expr) (chars : List Char) : Option (ObjectField × List Char) :=
  (readKey chars).bind fun key =>
    (expr (key.2.drop 2)).map fun value => (⟨key.1, value.1, .zero⟩, value.2)

def readWord (items : TextReader (List Expr)) (chars : List Char) : Option (Expr × List Char) :=
  if chars.head?.any Char.isDigit then
    some (.number .zero (String.ofList (chars.takeWhile isNumeralPart)),
      chars.dropWhile isNumeralPart)
  else readNamed items (String.ofList (chars.takeWhile isWordPart)) (chars.dropWhile isWordPart)

/-- What an expression starts with, up to calls, member accesses and indices. -/
def readPrimary (expr : TextReader Expr) (items : TextReader (List Expr))
    (fields : TextReader (List ObjectField)) : TextReader Expr
  | '"' :: rest => (readQuoted rest).map fun read => (.string .zero (String.ofList read.1), read.2)
  | '[' :: rest => (items rest).map fun read => (.array .zero read.1, read.2)
  | '\x7b' :: '\x7d' :: rest => some (.object .zero [], rest)
  | '\x7b' :: ' ' :: rest => (fields rest).map fun read => (.object .zero read.1, read.2)
  | '(' :: rest => readGroup expr rest
  | chars => readWord items chars

mutual

/-- An expression. Twice the number of characters is a bound for the steps, since of two steps at
    least one passes a character. -/
def readExpr : Nat → TextReader Expr
  | 0, _ => none
  | n + 1, chars =>
    (readPrimary (readExpr n) (readItems n) (readFields n) chars).bind fun read =>
      readPostfix n read.1 read.2

/-- The calls, member accesses and indices behind an operand. -/
def readPostfix : Nat → Expr → TextReader Expr
  | 0, _, _ => none
  | n + 1, e, '.' :: rest =>
    readPostfix n (.field .zero e ⟨String.ofList (rest.takeWhile isWordPart), .zero⟩)
      (rest.dropWhile isWordPart)
  | n + 1, e, '(' :: rest =>
    (readItems n rest).bind fun read => readPostfix n (.call .zero e read.1 none) read.2
  | n + 1, e, '[' :: rest =>
    (readExpr n rest).bind fun read => readPostfix n (.index .zero e read.1) (read.2.drop 1)
  | _ + 1, e, rest => some (e, rest)

/-- Expressions separated by commas, with the bracket that closes them. -/
def readItems : Nat → TextReader (List Expr)
  | 0, _ => none
  | n + 1, chars =>
    match readExpr n chars with
    | some (e, ',' :: rest) => (readItems n (rest.drop 1)).map fun read => (e :: read.1, read.2)
    | some (e, rest) => some ([e], rest.drop 1)
    | none => some ([], chars.drop 1)

/-- Fields separated by commas, with the space and the brace behind them. -/
def readFields : Nat → TextReader (List ObjectField)
  | 0, _ => none
  | n + 1, chars =>
    match readField (readExpr n) chars with
    | some (field, ',' :: rest) =>
      (readFields n (rest.drop 1)).map fun read => (field :: read.1, read.2)
    | some (field, rest) => some ([field], rest.drop 2)
    | none => none

end

end ScriptCompiler.Script
