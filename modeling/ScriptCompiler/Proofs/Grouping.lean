import ScriptCompiler.Proofs.ReadBack
import ScriptCompiler.Proofs.ScriptReader

/-!
# The grouping of written expressions

What is written for an expression tells which expression it was, up to places: the reader of scripts
reads it back. So no two expressions that differ in more than their places are written alike. This
is about expressions without casts, type tests, functions and static members, which share their
texts with others, and without `self` and `Self`.

The texts of calls, member accesses and indices start with that of their operand. So what is read
back is stated with what follows: once the text of an operand has been read, the reader goes on with
the rest.
-/

namespace ScriptCompiler

open Token (isWordPart isWordStart takeWhile_append_of_stop dropWhile_append_of_stop)

/-- The part is no cast, type test, function or static member and is not called with a block, and
    no name is `self` or `Self`. -/
def Node.isPlain : Node → Bool
  | .expr (.typeTest ..) | .expr (.cast ..) | .expr (.lambda ..) | .expr (.staticMember ..) => false
  | .expr (.call _ _ _ closure?) => closure?.isNone
  | .expr (.name _ ident) => ident.name != "self" && ident.name != "Self"
  | .expr (.new _ className _) => className.name != "Self"
  | _ => true

namespace Script

/-! ### What follows an expression -/

/-- The text does not go on with a character of a word. -/
def Parts (rest : List Char) : Prop :=
  ∀ c ∈ rest.head?, isWordPart c = false

/-- The text can follow that of an operand: a word ends before it, and a numeral too. -/
def Follows (e : Expr) (rest : List Char) : Prop :=
  Parts rest ∧ ∀ span digits, e = .number span digits → ∀ c ∈ rest.head?, c ≠ '.'

/-- The text starts with one of the characters that end an expression. -/
def Ends (rest : List Char) : Prop :=
  ∀ c ∈ rest.head?, c ∈ [' ', ',', ')', ']']

theorem Ends.follows {rest : List Char} (h : Ends rest) (e : Expr) : Follows e rest := by
  have hsign : ∀ c ∈ [' ', ',', ')', ']'], isWordPart c = false ∧ c ≠ '.' := by
    simp [isWordPart]
  exact ⟨fun c hc => (hsign c (h c hc)).1, fun _ _ _ c hc => (hsign c (h c hc)).2⟩

theorem readPostfix_of_ends {m : Nat} (e : Expr) {rest : List Char} (hm : 2 * rest.length < m)
    (h : Ends rest) : readPostfix m e rest = some (e, rest) := by
  obtain ⟨m, rfl⟩ := Nat.exists_eq_succ_of_ne_zero (Nat.ne_zero_of_lt hm)
  cases rest with
  | nil => simp [readPostfix]
  | cons c rest =>
    have hc := h c rfl
    simp only [List.mem_cons, List.not_mem_nil, or_false] at hc
    rcases hc with rfl | rfl | rfl | rfl <;> simp [readPostfix]

/-- In steps enough for all characters, the text of the expression is read as the expression, and
    the reader goes on with what follows it. -/
def ReadsOn (ctx : Context) (e : Expr) : Prop :=
  ∀ n rest, Follows e rest → 2 * ((e.script ctx).toList ++ rest).length < n →
    ∃ m, 2 * rest.length < m ∧
      readExpr n ((e.script ctx).toList ++ rest) = readPostfix m e.unplaced rest

section

variable {ctx : Context} {e : Expr} {n : Nat} {rest : List Char}

theorem ReadsOn.read (h : ReadsOn ctx e) (hrest : Ends rest)
    (hn : 2 * ((e.script ctx).toList ++ rest).length < n) :
    readExpr n ((e.script ctx).toList ++ rest) = some (e.unplaced, rest) := by
  obtain ⟨m, hm, hread⟩ := h n rest (hrest.follows e) hn
  rw [hread, readPostfix_of_ends _ hm hrest]

theorem readPrimary_nil (expr : TextReader Expr) (items : TextReader (List Expr))
    (fields : TextReader (List ObjectField)) : readPrimary expr items fields [] = none := by
  simp [readPrimary, readWord, readNamed]

/-- What is read at the start of a text is read on. -/
theorem ReadsOn.of_primary (h : ∀ n rest, Follows e rest →
      2 * ((e.script ctx).toList ++ rest).length ≤ n →
      readPrimary (readExpr n) (readItems n) (readFields n) ((e.script ctx).toList ++ rest) =
        some (e.unplaced, rest)) : ReadsOn ctx e := by
  have hne : (e.script ctx).toList ≠ [] := by
    intro hnil
    have hread := h 0 [] ⟨fun c hc => (Option.not_mem_none c hc).elim, fun _ _ _ c hc =>
      (Option.not_mem_none c hc).elim⟩ (by simp [hnil])
    rw [hnil, List.append_nil, readPrimary_nil] at hread
    cases hread
  intro n rest hrest hn
  obtain ⟨n, rfl⟩ := Nat.exists_eq_succ_of_ne_zero (Nat.ne_zero_of_lt hn)
  refine ⟨n, ?_, ?_⟩
  · have hpos := List.length_pos_of_ne_nil hne
    rw [List.length_append] at hn
    omega
  · rw [readExpr, h n rest hrest (Nat.lt_succ_iff.mp hn)]
    rfl

end

/-! ### Words, numerals and strings -/

section

variable {expr : TextReader Expr} {items : TextReader (List Expr)}
  {fields : TextReader (List ObjectField)} {rest : List Char}

/-- A text that starts with no bracket or quote starts with a word, if with anything. -/
theorem readPrimary_of_head {chars : List Char}
    (h : ∀ c ∈ chars.head?, c ∉ ['"', '[', '\x7b', '(']) :
    readPrimary expr items fields chars = readWord items chars := by
  unfold readPrimary
  split
  · exact absurd List.mem_cons_self (h _ rfl)
  · exact absurd (by decide) (h _ rfl)
  · exact absurd (by decide) (h _ rfl)
  · exact absurd (by decide) (h _ rfl)
  · exact absurd (by decide) (h _ rfl)
  · rfl

theorem readPrimary_word {word : String} (hstart : ∃ c ∈ word.toList.head?, isWordStart c)
    (hword : IsWord word) (hrest : Parts rest) :
    readPrimary expr items fields (word.toList ++ rest) = readNamed items word rest := by
  obtain ⟨c, hc, hcstart⟩ := hstart
  obtain ⟨chars, hchars⟩ : ∃ chars, word.toList = c :: chars := by
    cases hlist : word.toList with
    | nil =>
      rw [hlist] at hc
      cases hc
    | cons d chars =>
      rw [hlist] at hc
      cases hc
      exact ⟨chars, rfl⟩
  have hdigit : c.isDigit = false := by
    refine Bool.eq_false_iff.mpr fun hdigit => ?_
    rw [Token.isWordStart_of_isDigit hdigit] at hcstart
    cases hcstart
  rw [readPrimary_of_head, readWord, takeWhile_append_of_stop hword hrest,
    dropWhile_append_of_stop hword hrest, String.ofList_toList, if_neg]
  · rw [hchars, List.cons_append, List.head?_cons, Option.any_some, hdigit]
    exact Bool.false_ne_true
  · rw [hchars, List.cons_append, List.head?_cons]
    intro d hd hsign
    obtain rfl := Option.some.inj hd
    have hnot : ∀ c ∈ ['"', '[', '\x7b', '('], isWordStart c = false := by simp [isWordStart]
    rw [hnot c hsign] at hcstart
    cases hcstart

/-- A text that starts with neither a word nor a bracket nor a quote cannot be read. -/
theorem readPrimary_sign {c : Char} (hc : c ∈ ['-', '!', ')', ']']) :
    readPrimary expr items fields (c :: rest) = none := by
  simp only [List.mem_cons, List.not_mem_nil, or_false] at hc
  rcases hc with rfl | rfl | rfl | rfl <;> simp [readPrimary, readWord, readNamed, isWordPart]

end

theorem readExpr_sign {c : Char} (hc : c ∈ ['-', '!', ')', ']']) (n : Nat) (rest : List Char) :
    readExpr n (c :: rest) = none := by
  cases n with
  | zero => rfl
  | succ n => rw [readExpr, readPrimary_sign hc, Option.bind_none]

theorem readExpr_await (n : Nat) (rest : List Char) :
    readExpr n ("await ".toList ++ rest) = none := by
  cases n with
  | zero => rfl
  | succ n =>
    have hword : IsWord "await" := by decide
    have hnamed : readPrimary (readExpr n) (readItems n) (readFields n)
        ("await".toList ++ ' ' :: rest) = none :=
      readPrimary_word ⟨'a', rfl, rfl⟩ hword (by simp [Parts, isWordPart])
    rw [readExpr, show "await ".toList ++ rest = "await".toList ++ ' ' :: rest from rfl, hnamed,
      Option.bind_none]

/-! ### Lists -/

section

variable {ctx : Context} {rest : List Char}

theorem scriptExprs_eq (ctx : Context) (es : List Expr) :
    scriptExprs ctx es = es.map (Expr.script ctx) := by
  induction es with
  | nil => rfl
  | cons e rest ih => rw [scriptExprs, ih, List.map_cons]

theorem readItems_scriptExprs {es : List Expr} (h : ∀ e ∈ es, ReadsOn ctx e) {close : Char}
    (hclose : close ∈ [')', ']']) {n : Nat}
    (hn : 2 * ((Text.joinWith ", " (scriptExprs ctx es)).toList ++ close :: rest).length + 1 < n) :
    readItems n ((Text.joinWith ", " (scriptExprs ctx es)).toList ++ close :: rest) =
      some (es.map Expr.unplaced, rest) := by
  have hends : Ends (close :: rest) := by
    intro c hc
    obtain rfl := Option.some.inj hc
    exact List.mem_cons_of_mem _ (List.mem_cons_of_mem _ hclose)
  have hcomma : close ≠ ',' := by
    rintro rfl
    exact absurd hclose (by decide)
  rw [Text.toList_joinWith, scriptExprs_eq] at hn ⊢
  induction es generalizing n with
  | nil =>
    obtain ⟨n, rfl⟩ := Nat.exists_eq_succ_of_ne_zero (Nat.ne_zero_of_lt hn)
    have hnone : readExpr n (close :: rest) = none :=
      readExpr_sign (List.mem_cons_of_mem _ (List.mem_cons_of_mem _ hclose)) n rest
    simp [readItems, hnone]
  | cons e es ih =>
    obtain ⟨n, rfl⟩ := Nat.exists_eq_succ_of_ne_zero (Nat.ne_zero_of_lt hn)
    have he := h e List.mem_cons_self
    cases es with
    | nil =>
      simp only [List.map_cons, List.map_nil, List.intercalate_singleton] at hn ⊢
      rw [readItems, he.read hends (by omega)]
      simp [hcomma]
    | cons next es =>
      simp only [List.map_cons, List.intercalate_cons_cons, List.append_assoc] at hn ih ⊢
      rw [readItems, he.read (by simp [Ends]) (by omega)]
      have hsep : ", ".toList.length = 2 := rfl
      have hrest := ih (fun e he => h e (List.mem_cons_of_mem _ he)) (n := n) (by
        rw [List.length_append, List.length_append] at hn
        omega)
      simpa using hrest

theorem scriptFields_eq (ctx : Context) (fields : List ObjectField) :
    scriptFields ctx fields =
      fields.map fun field => objectKey field.key ++ ": " ++ field.value.script ctx := by
  induction fields with
  | nil => rfl
  | cons field rest ih =>
    obtain ⟨key, value, span⟩ := field
    rw [scriptFields, ih, List.map_cons]

theorem readField_script {field : ObjectField} (h : ReadsOn ctx field.value) (hrest : Ends rest)
    {n : Nat} (hn : 2 * ((objectKey field.key ++ ": " ++ field.value.script ctx).toList ++
      rest).length < n + 1) :
    readField (readExpr n)
        ((objectKey field.key ++ ": " ++ field.value.script ctx).toList ++ rest) =
      some (field.unplaced, rest) := by
  have htext : (objectKey field.key ++ ": " ++ field.value.script ctx).toList ++ rest =
      (objectKey field.key).toList ++ ':' :: ' ' :: ((field.value.script ctx).toList ++ rest) := by
    simp
  rw [htext] at hn ⊢
  have hread : readExpr n ((field.value.script ctx).toList ++ rest) = _ := h.read hrest (by
    simp only [List.length_append, List.length_cons] at hn ⊢
    omega)
  rw [readField, readKey_objectKey, Option.bind_some]
  simp only [List.drop_succ_cons, List.drop_zero, hread]
  rfl

theorem readFields_scriptFields {fields : List ObjectField} (hne : fields ≠ [])
    (h : ∀ field ∈ fields, ReadsOn ctx field.value) {n : Nat}
    (hn : 2 * ((Text.joinWith ", " (scriptFields ctx fields)).toList ++
      ' ' :: '\x7d' :: rest).length + 1 < n) :
    readFields n ((Text.joinWith ", " (scriptFields ctx fields)).toList ++ ' ' :: '\x7d' :: rest) =
      some (fields.map ObjectField.unplaced, rest) := by
  rw [Text.toList_joinWith, scriptFields_eq] at hn ⊢
  induction fields generalizing n with
  | nil => exact absurd rfl hne
  | cons field fields ih =>
    obtain ⟨n, rfl⟩ := Nat.exists_eq_succ_of_ne_zero (Nat.ne_zero_of_lt hn)
    have hvalue := h field List.mem_cons_self
    cases fields with
    | nil =>
      simp only [List.map_cons, List.map_nil, List.intercalate_singleton] at hn ⊢
      rw [readFields, readField_script hvalue (by simp [Ends]) (by omega)]
      simp
    | cons next fields =>
      simp only [List.map_cons, List.intercalate_cons_cons, List.append_assoc] at hn ih ⊢
      have hsep : ", ".toList.length = 2 := rfl
      have hlater := ih (by simp) (fun field hfield => h field (List.mem_cons_of_mem _ hfield))
        (n := n) (by
          rw [List.length_append, List.length_append] at hn
          omega)
      rw [readFields, readField_script hvalue (by simp [Ends]) (by omega)]
      simpa using hlater

end

/-! ### What expressions start with -/

section

variable {ctx : Context}

theorem ReadsOn.number {digits : String} (h : IsNumeral digits) (span : Span) :
    ReadsOn ctx (.number span digits) := by
  refine .of_primary fun n rest hrest _ => ?_
  obtain ⟨c, tail, hchars, hdigit⟩ := Token.exists_cons_of_isNumeral h
  have hparts : ∀ d ∈ digits.toList, isNumeralPart d = true := by
    intro d hd
    cases h with
    | whole _ hdigits => simp [isNumeralPart, hdigits d hd]
    | fraction hpoint _ _ hdigits =>
      rw [hpoint, List.mem_append, List.mem_cons, or_left_comm, ← List.mem_append] at hd
      rcases hd with rfl | hd
      · rfl
      · simp [isNumeralPart, hdigits d hd]
  have hstop : ∀ d ∈ rest.head?, isNumeralPart d = false := by
    intro d hd
    have hword := hrest.1 d hd
    have hpoint := hrest.2 span digits rfl d hd
    simp only [isWordPart, Char.isAlphanum, Bool.or_eq_false_iff] at hword
    simp [isNumeralPart, hword, hpoint]
  rw [Expr.script, readPrimary_of_head, readWord, takeWhile_append_of_stop hparts hstop,
    dropWhile_append_of_stop hparts hstop, String.ofList_toList, if_pos, Expr.unplaced]
  · rw [hchars, List.cons_append, List.head?_cons, Option.any_some, hdigit]
  · rw [hchars, List.cons_append, List.head?_cons]
    intro d hd hsign
    obtain rfl := Option.some.inj hd
    have hnot : ∀ c ∈ ['"', '[', '\x7b', '('], Char.isDigit c = false := by simp
    rw [hnot c hsign] at hdigit
    cases hdigit

theorem ReadsOn.string (value : String) (span : Span) : ReadsOn ctx (.string span value) := by
  refine .of_primary fun n rest _ _ => ?_
  rw [Expr.script, toList_quote, List.cons_append, List.append_assoc, List.singleton_append,
    readPrimary, readQuoted_quote, Expr.unplaced]
  simp

theorem ReadsOn.bool (value : Bool) (span : Span) : ReadsOn ctx (.bool span value) := by
  refine .of_primary fun n rest hrest _ => ?_
  rw [Expr.script, Expr.unplaced]
  cases value with
  | true =>
    have hword : IsWord "true" := by decide
    have hstart : ∃ c ∈ "true".toList.head?, isWordStart c := ⟨'t', rfl, rfl⟩
    exact readPrimary_word hstart hword hrest.1
  | false =>
    have hword : IsWord "false" := by decide
    have hstart : ∃ c ∈ "false".toList.head?, isWordStart c := ⟨'f', rfl, rfl⟩
    exact readPrimary_word hstart hword hrest.1

theorem ReadsOn.name {ident : Ident} (h : IsIdentifier ident.name) (span : Span) :
    ReadsOn ctx (.name span ident) := by
  refine .of_primary fun n rest hrest _ => ?_
  have hawait : ident.name ≠ "await" := h.ne_text .awaitKw
  have hnew : ident.name ≠ "new" := h.ne_text .newKw
  rw [Expr.script, nameText_of_isIdentifier ctx h, readPrimary_word h.start h.word hrest.1,
    Expr.unplaced]
  simp [readNamed, h.nonempty, hawait, h.notTrue, h.notFalse, hnew]

theorem ReadsOn.array {elements : List Expr} (h : ∀ e ∈ elements, ReadsOn ctx e) (span : Span) :
    ReadsOn ctx (.array span elements) := by
  refine .of_primary fun n rest _ hn => ?_
  have htext : ((Expr.array span elements).script ctx).toList ++ rest =
      '[' :: ((Text.joinWith ", " (scriptExprs ctx elements)).toList ++ ']' :: rest) := by
    simp [Expr.script]
  rw [htext] at hn ⊢
  rw [readPrimary, readItems_scriptExprs h (by decide) (by rw [List.length_cons] at hn; omega),
    Expr.unplaced, unplacedExprs_eq]
  rfl

theorem ReadsOn.object {fields : List ObjectField} (h : ∀ field ∈ fields, ReadsOn ctx field.value)
    (span : Span) : ReadsOn ctx (.object span fields) := by
  refine .of_primary fun n rest _ hn => ?_
  rw [Expr.unplaced, unplacedFields_eq]
  by_cases hne : fields = []
  · subst hne
    simp [Expr.script, scriptFields, objectText, readPrimary]
  · have htext : ((Expr.object span fields).script ctx).toList ++ rest =
        '\x7b' :: ' ' :: ((Text.joinWith ", " (scriptFields ctx fields)).toList ++
          ' ' :: '\x7d' :: rest) := by
      obtain ⟨field, fields, rfl⟩ := List.exists_cons_of_ne_nil hne
      simp [Expr.script, scriptFields_eq, objectText]
    rw [htext] at hn ⊢
    rw [readPrimary, readFields_scriptFields hne h (by simp only [List.length_cons] at hn ⊢; omega)]
    rfl

theorem ReadsOn.new {className : Ident} (hname : IsPathName className.name) {args : List Expr}
    (h : ∀ e ∈ args, ReadsOn ctx e) (span : Span) : ReadsOn ctx (.new span className args) := by
  refine .of_primary fun n rest _ hn => ?_
  obtain ⟨hpath, hparts⟩ := pathName_nameText ctx hname
  have htext : ((Expr.new span className args).script ctx).toList ++ rest =
      "new".toList ++ ' ' :: ((ctx.nameText className.name).toList ++
        '(' :: ((Text.joinWith ", " (scriptExprs ctx args)).toList ++ ')' :: rest)) := by
    simp [Expr.script]
  have hword : IsWord "new" := by decide
  have hstart : ∃ c ∈ "new".toList.head?, isWordStart c := ⟨'n', rfl, rfl⟩
  have hstop : ∀ c ∈ ('(' :: ((Text.joinWith ", " (scriptExprs ctx args)).toList ++
      ')' :: rest)).head?, isPathPart c = false := by
    intro c hc
    obtain rfl := Option.some.inj hc
    decide
  rw [htext] at hn ⊢
  rw [readPrimary_word hstart hword (by simp [Parts, isWordPart])]
  simp only [readNamed, String.reduceEq, or_self, if_false, if_true, List.drop_succ_cons,
    List.drop_zero]
  rw [takeWhile_append_of_stop hparts hstop, dropWhile_append_of_stop hparts hstop, hpath,
    List.drop_succ_cons, List.drop_zero, readItems_scriptExprs h (by decide), Expr.unplaced,
    unplacedExprs_eq]
  · rfl
  · simp only [List.length_append, List.length_cons] at hn ⊢
    omega

/-! ### Groups -/

/-- The reader of two operands finds out what stands between them. -/
theorem readGroup_combine {left right : Expr} (hleft : ReadsOn ctx left)
    (hright : ReadsOn ctx right) {sign : List Char} (hsign : ∀ c ∈ sign, c ≠ ' ')
    {rest : List Char} {n : Nat}
    (hn : 2 * ((left.script ctx).toList ++ ' ' :: (sign ++ ' ' :: ((right.script ctx).toList ++
      ')' :: rest))).length < n) :
    readGroup (readExpr n) ((left.script ctx).toList ++ ' ' :: (sign ++ ' ' ::
        ((right.script ctx).toList ++ ')' :: rest))) =
      some (combine sign left.unplaced right.unplaced, rest) := by
  have hsigns : ∀ c ∈ sign, (c != ' ') = true := fun c hc => bne_iff_ne.mpr (hsign c hc)
  have hstop : ∀ c ∈ (' ' :: ((right.script ctx).toList ++ ')' :: rest)).head?,
      (c != ' ') = false := by simp
  have hread : readExpr n ((right.script ctx).toList ++ ')' :: rest) = _ :=
    hright.read (by simp [Ends]) (by
      simp only [List.length_append, List.length_cons] at hn ⊢
      omega)
  rw [readGroup, hleft.read (by simp [Ends]) hn]
  simp only [takeWhile_append_of_stop hsigns hstop, dropWhile_append_of_stop hsigns hstop,
    List.drop_succ_cons, List.drop_zero, hread, Option.map_some]

theorem combine_binaryText (op : BinaryOp) (left right : Expr) :
    combine (binaryText op).toList left right = .binary .zero op left right := by
  have hfind : (binaryOps.find? fun other => (binaryText other).toList == (binaryText op).toList) =
      some op := by
    cases op <;> decide
  rw [combine, hfind]

theorem combine_assign (left right : Expr) :
    combine ['='] left right = .assign .zero left right := by
  have hfind : (binaryOps.find? fun op => (binaryText op).toList == ['=']) = none := by decide
  rw [combine, hfind]

theorem ReadsOn.binary {left right : Expr} (hleft : ReadsOn ctx left) (hright : ReadsOn ctx right)
    (span : Span) (op : BinaryOp) : ReadsOn ctx (.binary span op left right) := by
  refine .of_primary fun n rest _ hn => ?_
  have htext : ((Expr.binary span op left right).script ctx).toList ++ rest =
      '(' :: ((left.script ctx).toList ++ ' ' :: ((binaryText op).toList ++ ' ' ::
        ((right.script ctx).toList ++ ')' :: rest))) := by
    simp [Expr.script]
  have hsign : ∀ c ∈ (binaryText op).toList, c ≠ ' ' := by
    cases op <;> simp [binaryText, BinaryOp.text]
  rw [htext] at hn ⊢
  rw [readPrimary, readGroup_combine hleft hright hsign (by rw [List.length_cons] at hn; omega),
    combine_binaryText, Expr.unplaced]

theorem ReadsOn.assign {target value : Expr} (htarget : ReadsOn ctx target)
    (hvalue : ReadsOn ctx value) (span : Span) : ReadsOn ctx (.assign span target value) := by
  refine .of_primary fun n rest _ hn => ?_
  have htext : ((Expr.assign span target value).script ctx).toList ++ rest =
      '(' :: ((target.script ctx).toList ++ ' ' :: (['='] ++ ' ' ::
        ((value.script ctx).toList ++ ')' :: rest))) := by
    simp [Expr.script]
  rw [htext] at hn ⊢
  rw [readPrimary, readGroup_combine htarget hvalue (by simp)
    (by rw [List.length_cons] at hn; omega), combine_assign, Expr.unplaced]

theorem ReadsOn.unary {operand : Expr} (h : ReadsOn ctx operand) (span : Span) (op : UnaryOp) :
    ReadsOn ctx (.unary span op operand) := by
  refine .of_primary fun n rest _ hn => ?_
  have htext : ((Expr.unary span op operand).script ctx).toList ++ rest =
      '(' :: (op.text.toList ++ ((operand.script ctx).toList ++ ')' :: rest)) := by
    simp [Expr.script]
  rw [htext] at hn ⊢
  have hread : readExpr n ((operand.script ctx).toList ++ ')' :: rest) = _ :=
    h.read (by simp [Ends]) (by
      simp only [List.length_append, List.length_cons] at hn ⊢
      omega)
  rw [readPrimary, readGroup, Expr.unplaced]
  cases op with
  | neg =>
    have hnone : readExpr n ("-".toList ++ ((operand.script ctx).toList ++ ')' :: rest)) = none :=
      readExpr_sign (by decide) n _
    rw [UnaryOp.text, hnone]
    simp [readUnary, hread]
  | not =>
    have hnone : readExpr n ("!".toList ++ ((operand.script ctx).toList ++ ')' :: rest)) = none :=
      readExpr_sign (by decide) n _
    rw [UnaryOp.text, hnone]
    simp [readUnary, hread]
  | await =>
    rw [UnaryOp.text, readExpr_await]
    simp [readUnary, hread]

/-! ### Operands and what is done with them -/

/-- An operand is read on whatever is done with it: numerals and object literals are protected. -/
theorem ReadsOn.receiver {e : Expr} (h : ReadsOn ctx e) (hplain : (Node.expr e).isPlain = true)
    {n : Nat} {rest : List Char} (hrest : Parts rest)
    (hn : 2 * ((receiverText (e.script ctx) e).toList ++ rest).length < n) :
    ∃ m, 2 * rest.length < m ∧
      readExpr n ((receiverText (e.script ctx) e).toList ++ rest) =
        readPostfix m e.unplaced rest := by
  have hgroup : receiverText (e.script ctx) e = "(" ++ e.script ctx ++ ")" →
      ∃ m, 2 * rest.length < m ∧
        readExpr n ((receiverText (e.script ctx) e).toList ++ rest) =
          readPostfix m e.unplaced rest := by
    intro hreceiver
    have htext : (receiverText (e.script ctx) e).toList ++ rest =
        '(' :: ((e.script ctx).toList ++ ')' :: rest) := by
      simp [hreceiver]
    rw [htext] at hn ⊢
    obtain ⟨n, rfl⟩ := Nat.exists_eq_succ_of_ne_zero (Nat.ne_zero_of_lt hn)
    simp only [List.length_append, List.length_cons] at hn
    have hread : readExpr n ((e.script ctx).toList ++ ')' :: rest) = _ :=
      h.read (by simp [Ends]) (by simp only [List.length_append, List.length_cons]; omega)
    refine ⟨n, by omega, ?_⟩
    rw [readExpr, readPrimary, readGroup, hread]
    simp
  cases e with
  | number span digits => exact hgroup rfl
  | object span fields => exact hgroup rfl
  | lambda span params body => cases hplain
  | _ => exact h n rest ⟨hrest, fun _ _ heq => by cases heq⟩ hn

theorem ReadsOn.field {receiver : Expr} (h : ReadsOn ctx receiver)
    (hplain : (Node.expr receiver).isPlain = true) {member : Ident}
    (hmember : IsMemberName member.name) (span : Span) :
    ReadsOn ctx (.field span receiver member) := by
  intro n rest hrest hn
  have htext : ((Expr.field span receiver member).script ctx).toList ++ rest =
      (receiverText (receiver.script ctx) receiver).toList ++
        '.' :: (member.name.toList ++ rest) := by
    simp [Expr.script]
  rw [htext] at hn ⊢
  obtain ⟨m, hm, hread⟩ := h.receiver hplain (by simp [Parts, isWordPart]) hn
  obtain ⟨m, rfl⟩ := Nat.exists_eq_succ_of_ne_zero (Nat.ne_zero_of_lt hm)
  simp only [List.length_append, List.length_cons] at hm
  refine ⟨m, by omega, ?_⟩
  rw [hread, readPostfix, takeWhile_append_of_stop hmember.word hrest.1,
    dropWhile_append_of_stop hmember.word hrest.1, String.ofList_toList, Expr.unplaced]

theorem ReadsOn.call {callee : Expr} (h : ReadsOn ctx callee)
    (hplain : (Node.expr callee).isPlain = true) {args : List Expr}
    (hargs : ∀ e ∈ args, ReadsOn ctx e) (span : Span) :
    ReadsOn ctx (.call span callee args none) := by
  intro n rest hrest hn
  have htext : ((Expr.call span callee args none).script ctx).toList ++ rest =
      (receiverText (callee.script ctx) callee).toList ++
        '(' :: ((Text.joinWith ", " (scriptExprs ctx args)).toList ++ ')' :: rest) := by
    simp [Expr.script]
  rw [htext] at hn ⊢
  obtain ⟨m, hm, hread⟩ := h.receiver hplain (by simp [Parts, isWordPart]) hn
  obtain ⟨m, rfl⟩ := Nat.exists_eq_succ_of_ne_zero (Nat.ne_zero_of_lt hm)
  rw [List.length_cons] at hm
  rw [hread, readPostfix, readItems_scriptExprs hargs (by decide) (by omega), Expr.unplaced,
    unplacedExprs_eq]
  simp only [List.length_append, List.length_cons] at hm
  exact ⟨m, by omega, rfl⟩

theorem ReadsOn.index {receiver position : Expr} (h : ReadsOn ctx receiver)
    (hplain : (Node.expr receiver).isPlain = true) (hposition : ReadsOn ctx position)
    (span : Span) : ReadsOn ctx (.index span receiver position) := by
  intro n rest hrest hn
  have htext : ((Expr.index span receiver position).script ctx).toList ++ rest =
      (receiverText (receiver.script ctx) receiver).toList ++
        '[' :: ((position.script ctx).toList ++ ']' :: rest) := by
    simp [Expr.script]
  rw [htext] at hn ⊢
  obtain ⟨m, hm, hread⟩ := h.receiver hplain (by simp [Parts, isWordPart]) hn
  obtain ⟨m, rfl⟩ := Nat.exists_eq_succ_of_ne_zero (Nat.ne_zero_of_lt hm)
  rw [List.length_cons] at hm
  rw [hread, readPostfix, hposition.read (by simp [Ends]) (by omega), Expr.unplaced]
  simp only [List.length_append, List.length_cons] at hm
  exact ⟨m, by omega, rfl⟩

end

end Script

open Script

/-- The text of an expression is read as it, if this is so for its parts. -/
theorem Expr.readsOn_of_parts {ctx : Context} {e : Expr} (hnamed : (Node.expr e).WellNamed)
    (hplain : (Node.expr e).Every fun n => n.isPlain)
    (hparts : ∀ part, Child.plain (.expr part) ∈ e.children → ReadsOn ctx part) :
    ReadsOn ctx e := by
  have hoperand : ∀ part, Child.plain (.expr part) ∈ e.children →
      (Node.expr part).isPlain = true := fun part hpart => (hplain.child hpart).here
  have hself := hplain.here
  cases e with
  | number span digits => exact .number hnamed span
  | string span value => exact .string value span
  | bool span value => exact .bool value span
  | name span ident =>
    rcases hnamed with hident | hreserved | hreserved
    · exact .name hident span
    · simp [Node.isPlain, hreserved] at hself
    · simp [Node.isPlain, hreserved] at hself
  | binary span op left right =>
    exact .binary (hparts left (.head _)) (hparts right (.tail _ (.head _))) span op
  | unary span op operand => exact .unary (hparts operand (.head _)) span op
  | assign span target value =>
    exact .assign (hparts target (.head _)) (hparts value (.tail _ (.head _))) span
  | call span callee args closure? =>
    obtain rfl : closure? = none := Option.isNone_iff_eq_none.mp hself
    have hargs : ∀ arg ∈ args, ReadsOn ctx arg := fun arg harg =>
      hparts arg (List.mem_append_left _ (List.mem_cons_of_mem _ (List.mem_map_of_mem harg)))
    exact .call (hparts callee (.head _)) (hoperand callee (.head _)) hargs span
  | field span receiver member =>
    exact .field (hparts receiver (.head _)) (hoperand receiver (.head _)) hnamed span
  | index span receiver position =>
    exact .index (hparts receiver (.head _)) (hoperand receiver (.head _))
      (hparts position (.tail _ (.head _))) span
  | array span elements =>
    exact .array (fun element helement => hparts element (List.mem_map_of_mem helement)) span
  | object span fields =>
    exact .object (fun field hfield => hparts field.value (List.mem_map_of_mem hfield)) span
  | new span className args =>
    rcases hnamed with hpath | hreserved
    · exact .new hpath (fun arg harg => hparts arg (List.mem_map_of_mem harg)) span
    · simp [Node.isPlain, hreserved] at hself
  | typeTest | cast | staticMember | lambda => cases hself

/-! ### What the text does not depend on -/

theorem Script.receiverText_unplaced (text : String) (e : Expr) :
    receiverText text e.unplaced = receiverText text e := by
  cases e <;> simp [Expr.unplaced, receiverText]

/-- The text of an expression depends neither on places nor on where it is written, if this is so
    for its parts. -/
theorem Expr.script_unplaced_of_parts {ctx ctx' : Context} {e : Expr}
    (hnamed : (Node.expr e).WellNamed) (hplain : (Node.expr e).isPlain = true)
    (hparts : ∀ part, Child.plain (.expr part) ∈ e.children →
      part.unplaced.script ctx' = part.script ctx) :
    e.unplaced.script ctx' = e.script ctx := by
  have hlist : ∀ es : List Expr, (∀ part ∈ es, part.unplaced.script ctx' = part.script ctx) →
      scriptExprs ctx' (unplacedExprs es) = scriptExprs ctx es := by
    intro es hes
    rw [scriptExprs_eq, scriptExprs_eq, unplacedExprs_eq, List.map_map]
    exact List.map_congr_left hes
  cases e with
  | number | string | bool => rfl
  | name span ident =>
    rcases hnamed with hident | hreserved | hreserved
    · simp only [unplaced, script, nameText_of_isIdentifier _ hident]
    · simp [Node.isPlain, hreserved] at hplain
    · simp [Node.isPlain, hreserved] at hplain
  | binary span op left right =>
    simp only [unplaced, script, hparts left (.head _), hparts right (.tail _ (.head _))]
  | unary span op operand => simp only [unplaced, script, hparts operand (.head _)]
  | assign span target value =>
    simp only [unplaced, script, hparts target (.head _), hparts value (.tail _ (.head _))]
  | call span callee args closure? =>
    obtain rfl : closure? = none := Option.isNone_iff_eq_none.mp hplain
    have hargs := hlist args fun arg harg =>
      hparts arg (List.mem_append_left _ (List.mem_cons_of_mem _ (List.mem_map_of_mem harg)))
    simp only [unplaced, script, receiverText_unplaced, hparts callee (.head _), hargs]
  | field span receiver member =>
    simp only [unplaced, script, receiverText_unplaced, hparts receiver (.head _)]
  | index span receiver position =>
    simp only [unplaced, script, receiverText_unplaced, hparts receiver (.head _),
      hparts position (.tail _ (.head _))]
  | array span elements =>
    simp only [unplaced, script,
      hlist elements fun element helement => hparts element (List.mem_map_of_mem helement)]
  | object span fields =>
    have hfields : scriptFields ctx' (unplacedFields fields) = scriptFields ctx fields := by
      rw [scriptFields_eq, scriptFields_eq, unplacedFields_eq, List.map_map]
      refine List.map_congr_left fun field hfield => ?_
      have hvalue := hparts field.value (List.mem_map_of_mem hfield)
      simp [ObjectField.unplaced, hvalue]
    simp only [unplaced, script, hfields]
  | new span className args =>
    rcases hnamed with hpath | hreserved
    · simp only [unplaced, script, nameText_of_isPathName _ hpath,
        hlist args fun arg harg => hparts arg (List.mem_map_of_mem harg)]
    · simp [Node.isPlain, hreserved] at hplain
  | typeTest | cast | staticMember | lambda => cases hplain

/-- What is shown of plain expressions part by part holds of them as a whole. -/
theorem Expr.plain_induction {P : Expr → Prop}
    (h : ∀ e, (Node.expr e).WellNamed → ((Node.expr e).Every fun n => n.isPlain) →
      (∀ part, Child.plain (.expr part) ∈ e.children → P part) → P e)
    {e : Expr} (hnamed : (Node.expr e).Named) (hplain : (Node.expr e).Every fun n => n.isPlain) :
    P e := by
  -- The induction is over all parts, but only expressions count.
  have hall : ∀ n : Node, n.Named → (n.Every fun n => n.isPlain) → ∀ e, n = .expr e → P e := by
    intro n
    induction n using Node.induction_on with
    | h n ih =>
      rintro hnamed hplain e rfl
      exact h e hnamed.here hplain fun part hpart =>
        ih _ hpart (hnamed.child hpart) (hplain.child hpart) part rfl
  exact hall _ hnamed hplain e rfl

/-- The text of a plain expression is read as the expression. -/
theorem Expr.readsOn (ctx : Context) {e : Expr} (hnamed : (Node.expr e).Named)
    (hplain : (Node.expr e).Every fun n => n.isPlain) : ReadsOn ctx e :=
  plain_induction (fun _ => readsOn_of_parts) hnamed hplain

theorem Expr.script_unplaced (ctx ctx' : Context) {e : Expr} (hnamed : (Node.expr e).Named)
    (hplain : (Node.expr e).Every fun n => n.isPlain) :
    e.unplaced.script ctx' = e.script ctx :=
  plain_induction (fun _ hnamed hplain => script_unplaced_of_parts hnamed hplain.here) hnamed hplain

/-! ### Expressions of sources -/

/-- The expression has been parsed from a source, alone or as a part of a program. -/
inductive Expr.IsRead : Expr → Prop where
  | alone {file : Nat} {text : String} {lexemes : List Lexeme} {e : Expr}
      (hscan : tokenizeFile file text = .ok lexemes) (hparse : parseExpr lexemes = .ok e) : IsRead e
  | inside {file : Nat} {text : String} {lexemes : List Lexeme} {program : Program} {s : Stmt}
      {part : Occurrence} {e : Expr} (hscan : tokenizeFile file text = .ok lexemes)
      (hparse : parseProgram lexemes = .ok program) (hs : s ∈ program.stmts)
      (hpart : (Occurrence.top s).Within part) (hnode : part.node = .expr e) : IsRead e

theorem Expr.IsRead.named {e : Expr} (h : e.IsRead) : (Node.expr e).Named := by
  cases h with
  | alone hscan hparse => exact parseExpr_named (tokenizeFile_spelled hscan) hparse
  | inside hscan hparse hs hpart hnode =>
    have hstmt := parseProgram_wellNamed (tokenizeFile_spelled hscan) hparse _ hs
    rw [← hnode]
    exact Node.Every.of_within hstmt hpart

/-- The text of a plain expression determines it, and nothing else comes into the text: two of them,
    be they written in different places of scripts, are written alike if and only if they are equal
    up to their places in the sources. -/
theorem Expr.script_grouping {e₁ e₂ : Expr} (h₁ : e₁.IsRead) (h₂ : e₂.IsRead)
    (hplain₁ : (Node.expr e₁).Every fun n => n.isPlain)
    (hplain₂ : (Node.expr e₂).Every fun n => n.isPlain) (ctx₁ ctx₂ : Context) :
    e₁.script ctx₁ = e₂.script ctx₂ ↔ e₁.unplaced = e₂.unplaced := by
  constructor
  · intro hscript
    have hends : Ends [] := fun c hc => (Option.not_mem_none c hc).elim
    have hread₁ := (e₁.readsOn ctx₁ h₁.named hplain₁).read hends (Nat.lt_succ_self _)
    have hread₂ := (e₂.readsOn ctx₂ h₂.named hplain₂).read hends (Nat.lt_succ_self _)
    rw [hscript, hread₂] at hread₁
    exact (Prod.mk.inj (Option.some.inj hread₁)).1.symm
  · intro hunplaced
    rw [← e₁.script_unplaced ctx₁ ctx₂ h₁.named hplain₁, hunplaced,
      e₂.script_unplaced ctx₂ ctx₂ h₂.named hplain₂]

/-- Two sources of one expression: parentheses that change nothing, and other spaces. -/
theorem Expr.script_grouping_spaced :
    ∃ e₁ e₂ : Expr, e₁.IsRead ∧ e₂.IsRead ∧
      ((Node.expr e₁).Every fun n => n.isPlain) ∧ ((Node.expr e₂).Every fun n => n.isPlain) ∧
      e₁.script default = e₂.script default ∧ e₁.unplaced = e₂.unplaced := by
  have hview₁ : ((tokenizeFile 0 "a = -b * f(1, [x]).y + new c::K(\x7b k: 2 \x7d)").toOption.bind
      fun lexemes => (parseExpr lexemes).toOption.map fun e =>
        (e.script default, (Node.expr e).allWithin Node.isPlain 9)) =
      some ("(a = (((-b) * f(1, [x]).y) + new c.K(\x7b k: 2 \x7d)))", true) := by
    decide +kernel
  have hview₂ : ((tokenizeFile 0
      "a  = ((-b) * f(1,[x]).y) + (new c::K(\x7b k:2 \x7d))").toOption.bind fun lexemes =>
        (parseExpr lexemes).toOption.map fun e => (e.script default, (Node.expr e).allWithin Node.isPlain 9)) =
      some ("(a = (((-b) * f(1, [x]).y) + new c.K(\x7b k: 2 \x7d)))", true) := by
    decide +kernel
  obtain ⟨lexemes₁, e₁, hscan₁, hparse₁, hview₁⟩ := exists_parse_of_map hview₁
  obtain ⟨lexemes₂, e₂, hscan₂, hparse₂, hview₂⟩ := exists_parse_of_map hview₂
  obtain ⟨hscript₁, hplain₁⟩ := Prod.mk.inj hview₁
  obtain ⟨hscript₂, hplain₂⟩ := Prod.mk.inj hview₂
  have hread₁ : e₁.IsRead := .alone hscan₁ hparse₁
  have hread₂ : e₂.IsRead := .alone hscan₂ hparse₂
  have hevery₁ := Node.every_of_allWithin hplain₁
  have hevery₂ := Node.every_of_allWithin hplain₂
  have hscript := hscript₁.trans hscript₂.symm
  exact ⟨e₁, e₂, hread₁, hread₂, hevery₁, hevery₂, hscript,
    (Expr.script_grouping hread₁ hread₂ hevery₁ hevery₂ default default).mp hscript⟩

end ScriptCompiler
