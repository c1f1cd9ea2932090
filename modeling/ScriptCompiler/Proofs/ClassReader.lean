import Mathlib.Data.List.TakeWhile
import ScriptCompiler.Proofs.WrittenContexts

/-!
# Reading classes in a script

A class is read from the rows that it is written as: its base class from the first row, its
constructor from the row that opens one and the rows further in behind it, and its traits from the
loop behind the class. What is read does not depend on how the rows have been made.
-/

namespace ScriptCompiler

namespace Script

/-! ### Reading -/

/-- What can be read of a class. -/
structure ShownClass where
  base? : Option String
  /-- The rows between the braces of the constructor. -/
  constructor? : Option (List Row)
  /-- The traits that the class takes over methods from. -/
  traits : List String

/-- The base class in the first row of a class, if it is such a row. -/
def readHeader (text : String) : Option (Option String) :=
  match (text.toList.splitOn ' ').map String.ofList with
  | ["class", _, "\x7b"] => some none
  | ["class", _, "extends", base, "\x7b"] => some (some base)
  | _ => none

/-- Does the row open a constructor at this level? -/
def opensConstructor (level : Nat) (row : Row) : Bool :=
  row.indent == level && "constructor(".toList.isPrefixOf row.text.toList

/-- The rows further in behind the row that opens a constructor. -/
def readConstructor (level : Nat) (rows : List Row) : Option (List Row) :=
  match rows.dropWhile fun row => !opensConstructor level row with
  | [] => none
  | _ :: rest => some (rest.takeWhile fun row => level < row.indent)

/-- What the row that opens a loop over traits starts with. -/
def traitsOpening : List Char :=
  "for (const __trait of [".toList

/-- The names up to a closing bracket, with commas and spaces between them. -/
def readNames (text : List Char) : List String :=
  (((text.takeWhile (· != ']')).filter (· != ',')).splitOn ' ').map String.ofList

/-- The traits of a loop, if the rows start with one. -/
def readTraits : List Row → List String
  | [] => []
  | first :: _ =>
    if traitsOpening.isPrefixOf first.text.toList then
      readNames (first.text.toList.drop traitsOpening.length)
    else []

/-- The class that the rows start with, apart from rows before its first one. -/
def readClass (rows : List Row) : Option ShownClass :=
  match rows.dropWhile fun row => (readHeader row.text).isNone with
  | [] => none
  | header :: rest =>
    (readHeader header.text).map fun base? =>
      ⟨base?,
        readConstructor (header.indent + 1)
          (rest.takeWhile fun row => header.indent < row.indent),
        readTraits (rest.dropWhile fun row => header.indent < row.indent).tail⟩

/-- Rows that are further in end at the first row that is not. -/
theorem takeWhile_indent {level : Nat} {rows behind : List Row} {row : Row}
    (h : ∀ row ∈ rows, level < row.indent) (hrow : row.indent = level) :
    (rows ++ row :: behind).takeWhile (fun row => level < row.indent) = rows := by
  rw [List.takeWhile_append_of_pos fun row hin => decide_eq_true (h row hin),
    List.takeWhile_cons_of_neg (by simp [hrow]), List.append_nil]

theorem dropWhile_indent {level : Nat} {rows behind : List Row} {row : Row}
    (h : ∀ row ∈ rows, level < row.indent) (hrow : row.indent = level) :
    (rows ++ row :: behind).dropWhile (fun row => level < row.indent) = row :: behind := by
  rw [List.dropWhile_append_of_pos fun row hin => decide_eq_true (h row hin),
    List.dropWhile_cons_of_neg (by simp [hrow])]

/-! ### First rows -/

theorem splitOn_spaced (text : List Char) (parts : List String) (hne : parts ≠ [])
    (htext : text = [' '].intercalate (parts.map String.toList))
    (hparts : ∀ part ∈ parts, ' ' ∉ part.toList) :
    (text.splitOn ' ').map String.ofList = parts := by
  rw [htext, List.splitOn_intercalate ' ' (List.forall_mem_map.mpr hparts) (by simpa using hne),
    List.map_map]
  simp

theorem notMem_space_of_isDottedPath {text : String} (h : isDottedPath text) :
    ' ' ∉ text.toList :=
  notMem_of_isDottedPath h (by decide) (by decide)

theorem readHeader_classHeader {ctx : Context} {name : String} (hname : isPlainName name.toList)
    {extends? : Option TypeExpr} (hbase : ∀ base ∈ extends?.bind ctx.typeName?, isDottedPath base) :
    readHeader (classHeader ctx name extends?) = some (extends?.bind ctx.typeName?) := by
  have hclass : ' ' ∉ name.toList :=
    notMem_space_of_isDottedPath (isDottedPath_of_isPlainName hname)
  unfold classHeader
  cases hfound : extends?.bind ctx.typeName? with
  | none =>
    have hwords := splitOn_spaced ("class " ++ name ++ " \x7b").toList
      ["class", name, "\x7b"] (by simp) (by simp) (by simp [hclass])
    rw [readHeader, hwords]
    rfl
  | some base =>
    have hbase' := notMem_space_of_isDottedPath (hbase base hfound)
    have hwords := splitOn_spaced ("class " ++ name ++ " extends " ++ base ++ " \x7b").toList
      ["class", name, "extends", base, "\x7b"] (by simp) (by simp) (by simp [hclass, hbase'])
    rw [readHeader, hwords]
    rfl

/-- The row before the class of a singleton is no first row of a class. -/
theorem readHeader_const {name : String} (hname : isPlainName name.toList) :
    readHeader ("const " ++ name ++ " = (() => \x7b") = none := by
  have hclass : ' ' ∉ name.toList :=
    notMem_space_of_isDottedPath (isDottedPath_of_isPlainName hname)
  have hwords := splitOn_spaced ("const " ++ name ++ " = (() => \x7b").toList
    ["const", name, "=", "(()", "=>", "\x7b"] (by simp) (by simp) (by simp [hclass])
  rw [readHeader, hwords]
  rfl

/-! ### Traits -/

/-- Without commas, names that are joined by commas and spaces are joined by spaces. -/
theorem filter_intercalate {parts : List (List Char)} (h : ∀ part ∈ parts, ',' ∉ part) :
    ([',', ' '].intercalate parts).filter (· != ',') = [' '].intercalate parts := by
  have hkept : ∀ part ∈ parts, part.filter (· != ',') = part := fun part hpart =>
    List.filter_eq_self.mpr fun c hc => bne_iff_ne.mpr fun heq => h part hpart (heq ▸ hc)
  cases parts with
  | nil => rfl
  | cons part rest =>
    obtain ⟨hpart, hrest⟩ := List.forall_mem_cons.mp hkept
    rw [Text.intercalate_cons, Text.intercalate_cons, List.filter_append, hpart,
      List.filter_flatMap]
    congr 1
    refine List.flatMap_congr fun other hother => ?_
    simp [hrest other hother]

theorem readNames_joinWith {names : List String} (h : ∀ name ∈ names, isDottedPath name)
    (hne : names ≠ []) (behind : List Char) :
    readNames ((Text.joinWith ", " names).toList ++ ']' :: behind) = names := by
  have hother : ∀ c : Char, isNamePart c = false → c ≠ '.' →
      ∀ name ∈ names.map String.toList, c ∉ name := by
    intro c hpart hpoint
    rw [List.forall_mem_map]
    exact fun name hname => notMem_of_isDottedPath (h name hname) hpart hpoint
  have hjoined : (Text.joinWith ", " names).toList =
      [',', ' '].intercalate (names.map String.toList) := Text.toList_joinWith ", " names
  have hbracket : ']' ∉ (Text.joinWith ", " names).toList := by
    rw [hjoined]
    exact Text.notMem_intercalate (by decide) (hother ']' (by decide) (by decide))
  have hupTo : ∀ c ∈ (Text.joinWith ", " names).toList, (c != ']') = true := fun c hc =>
    bne_iff_ne.mpr fun heq => hbracket (heq ▸ hc)
  rw [readNames, List.takeWhile_append_of_pos hupTo, List.takeWhile_cons_of_neg (by decide),
    List.append_nil, hjoined, filter_intercalate (hother ',' (by decide) (by decide))]
  exact splitOn_spaced _ names hne rfl fun name hname =>
    hother ' ' (by decide) (by decide) _ (List.mem_map_of_mem hname)

/-- The loop over traits is read, and other rows are not taken for one. -/
theorem readTraits_mixinRows {ctx : Context} {name : String} {implements : List TypeExpr}
    (htraits : ∀ trait ∈ declaredTraits ctx implements, isDottedPath trait) {behind : List Row}
    (hbehind : ∀ row ∈ behind.head?, traitsOpening.isPrefixOf row.text.toList = false) :
    readTraits (mixinRows ctx name implements ++ behind) = declaredTraits ctx implements := by
  unfold mixinRows
  cases hnames : declaredTraits ctx implements with
  | nil =>
    cases behind with
    | nil => rfl
    | cons row rest =>
      rw [List.nil_append, readTraits, hbehind row rfl]
      rfl
  | cons first rest =>
    rw [hnames] at htraits
    have hopening : ("for (const __trait of [" ++ Text.joinWith ", " (first :: rest) ++
        "]) \x7b").toList = traitsOpening ++
          ((Text.joinWith ", " (first :: rest)).toList ++ ']' :: ") \x7b".toList) := by
      rw [String.append_assoc, String.toList_append, String.toList_append]
      rfl
    simp only [List.cons_append, readTraits, Context.row]
    rw [hopening, if_pos (List.isPrefixOf_iff_prefix.mpr (List.prefix_append _ _)), List.drop_left,
      readNames_joinWith htraits (List.cons_ne_nil _ _)]

/-! ### Constructors -/

/-- The call of the base class; a declared constructor passes on all of its arguments. -/
def superText (members : List Member) : String :=
  if members.any Member.isConstructor then "super(...arguments);" else "super(...args);"

/-- The assignment that gives a field its initial value. -/
def initText? (ctx : Context) : Member → Option String
  | .field _ name _ (some init) _ => some ("this." ++ name.name ++ " = " ++ init.script ctx ++ ";")
  | .field _ name type? none true =>
    some ("this." ++ name.name ++ " = " ++ defaultValue type? ++ ";")
  | _ => none

/-- The rows between the braces of the constructor of a class with these members: the call of the
    base class, the initial values in the order of the fields, and the statements of the declared
    constructor. -/
def constructorBody (ctx : Context) (hasBase : Bool) (members : List Member) : List Row :=
  (if hasBase then [ctx.deeper.row (superText members)] else [])
    ++ (members.filterMap (initText? ctx)).map ctx.deeper.row
    ++ (members.findSome? Member.constructorBody?).elim [] (Block.rows ctx.deeper)

theorem fieldInits_eq (ctx : Context) (members : List Member) :
    fieldInits ctx members = members.filterMap (initText? ctx) := by
  induction members with
  | nil => rw [fieldInits, List.filterMap_nil]
  | cons m rest ih =>
    cases m with
    | field span name type? init? isDefault =>
      cases init? with
      | some init =>
        rw [fieldInits, ih]
        rfl
      | none =>
        cases isDefault with
        | true =>
          rw [fieldInits, ih]
          rfl
        | false =>
          simp only [fieldInits]
          exact ih
    | constructor | method =>
      simp only [fieldInits]
      exact ih

theorem isSome_initText? (ctx : Context) (m : Member) : (initText? ctx m).isSome = m.hasInit := by
  cases m with
  | field span name type? init? isDefault =>
    cases init? with
    | some init => rfl
    | none => cases isDefault <;> rfl
  | constructor | method => rfl

/-- A class needs a constructor if one is declared or if there are initial values. -/
theorem any_needsConstructor (ctx : Context) (members : List Member) :
    (members.any fun m => m.isConstructor || m.hasInit) =
      (members.any Member.isConstructor || !(fieldInits ctx members).isEmpty) := by
  rw [fieldInits_eq]
  induction members with
  | nil => rfl
  | cons m rest ih =>
    rw [List.any_cons, List.any_cons, ih, ← isSome_initText? ctx m]
    cases hinit : initText? ctx m with
    | none => simp [hinit, Bool.or_assoc]
    | some init => simp [hinit]

theorem opensConstructor_of_prefix {level : Nat} {row : Row} {behind : String}
    (hlevel : row.indent = level) (htext : row.text = "constructor(" ++ behind) :
    opensConstructor level row = true := by
  refine Bool.and_eq_true_iff.mpr ⟨beq_iff_eq.mpr hlevel, List.isPrefixOf_iff_prefix.mpr ?_⟩
  rw [htext, String.toList_append]
  exact List.prefix_append _ _

/-- A class has a declared constructor, or it has none. -/
theorem constructorRows_cases (ctx : Context) (hasBase : Bool) (inits : List String)
    (members : List Member) :
    (∃ span params body, members.any Member.isConstructor = true ∧
      members.findSome? Member.constructorBody? = some body ∧
      constructorRows ctx hasBase inits members =
        some (ctx.rowFrom span ("constructor(" ++ paramList params ++ ") \x7b")
          :: (if hasBase then [ctx.deeper.row "super(...arguments);"] else [])
          ++ inits.map ctx.deeper.row ++ body.rows ctx.deeper ++ [ctx.row "\x7d"])) ∨
    (members.any Member.isConstructor = false ∧
      members.findSome? Member.constructorBody? = none ∧
      constructorRows ctx hasBase inits members = none) := by
  induction members with
  | nil => exact .inr ⟨rfl, rfl, by rw [constructorRows]⟩
  | cons m rest ih =>
    cases m with
    | constructor span params body =>
      exact .inl ⟨span, params, body, rfl, rfl, by rw [constructorRows]⟩
    | method | field =>
      simp only [constructorRows]
      exact ih

/-- The rows of the constructor of a class. There is one if it is declared or if a field has an
    initial value. -/
theorem constructorPart_cases (ctx : Context) (hasBase : Bool) (members : List Member) :
    (∃ opening : Row, opensConstructor ctx.indent opening = true ∧
      (members.any fun m => m.isConstructor || m.hasInit) = true ∧
      (constructorRows ctx hasBase (fieldInits ctx members) members).getD
        (implicitConstructor ctx hasBase (fieldInits ctx members)) =
          opening :: constructorBody ctx hasBase members ++ [ctx.row "\x7d"]) ∨
    ((members.any fun m => m.isConstructor || m.hasInit) = false ∧
      (constructorRows ctx hasBase (fieldInits ctx members) members).getD
        (implicitConstructor ctx hasBase (fieldInits ctx members)) = []) := by
  rw [any_needsConstructor ctx members]
  rcases constructorRows_cases ctx hasBase (fieldInits ctx members) members with
    ⟨span, params, body, hdeclared, hbody, hrows⟩ | ⟨hdeclared, hbody, hrows⟩
  · refine .inl ⟨ctx.rowFrom span ("constructor(" ++ (paramList params ++ ") \x7b")),
      opensConstructor_of_prefix rfl rfl, ?_, ?_⟩
    · rw [hdeclared, Bool.true_or]
    · rw [hrows, constructorBody, superText, hdeclared, hbody, fieldInits_eq]
      simp [String.append_assoc]
  · have hbodyRows : constructorBody ctx hasBase members =
        (if hasBase then [ctx.deeper.row "super(...args);"] else [])
          ++ (fieldInits ctx members).map ctx.deeper.row := by
      rw [constructorBody, superText, hdeclared, hbody, fieldInits_eq]
      simp
    rw [hdeclared, Bool.false_or, hrows, Option.getD_none, hbodyRows]
    cases fieldInits ctx members with
    | nil => exact .inr ⟨rfl, rfl⟩
    | cons first rest =>
      cases hasBase with
      | true =>
        exact .inl ⟨ctx.row ("constructor(" ++ "...args) \x7b"), opensConstructor_of_prefix rfl rfl,
          rfl, rfl⟩
      | false =>
        exact .inl ⟨ctx.row ("constructor(" ++ ") \x7b"), opensConstructor_of_prefix rfl rfl, rfl,
          rfl⟩

/-- All rows between the braces of a constructor are further in. -/
theorem indent_constructorBody {ctx : Context} {hasBase : Bool} {members : List Member} :
    ∀ row ∈ constructorBody ctx hasBase members, ctx.indent < row.indent := by
  unfold constructorBody
  rw [List.forall_mem_append, List.forall_mem_append, List.forall_mem_map]
  refine ⟨⟨?_, fun text _ => Nat.lt_succ_self _⟩, ?_⟩
  · cases hasBase with
    | true => exact List.forall_mem_singleton.mpr (Nat.lt_succ_self _)
    | false => exact List.forall_mem_nil _
  · cases members.findSome? Member.constructorBody? with
    | none => exact List.forall_mem_nil _
    | some body => exact fun row hrow => (Block.nests ctx.deeper body row hrow).1

theorem not_prefix_methodHeader {name : String} (hname : IsIdentifier name) (params : List Param)
    (awaits : Bool) :
    "constructor(".toList.isPrefixOf (methodHeader name params awaits).toList = false := by
  unfold methodHeader
  split
  · cases awaits with
    | true => simp [asyncMark, List.isPrefixOf]
    | false =>
      -- Only the name itself could be the word, which is reserved.
      have hname' : '(' ∉ name.toList := fun hin =>
        absurd (isNamePart_of_isPlainName hname.plain _ hin) (by decide)
      have hkeep : ∀ c ∈ name.toList, (c != '(') = true := fun c hc =>
        bne_iff_ne.mpr fun heq => hname' (heq ▸ hc)
      rw [Bool.eq_false_iff]
      intro hprefix
      obtain ⟨behind, htext⟩ := List.isPrefixOf_iff_prefix.mp hprefix
      have hword := congrArg (List.takeWhile (· != '(')) htext
      refine hname.ne_text .constructorKw (String.toList_inj.mp ?_)
      simpa [asyncMark, List.takeWhile_append_of_pos hkeep, Keyword.text] using hword.symm
  · simp [List.isPrefixOf]

theorem opensConstructor_methodRows {ctx : Context} {members : List Member}
    (h : ∀ m ∈ members, ∀ name ∈ m.name?, IsIdentifier name) :
    ∀ row ∈ methodRows ctx members, opensConstructor ctx.indent row = false := by
  induction members with
  | nil => simp [methodRows]
  | cons m rest ih =>
    obtain ⟨hm, hrest⟩ := List.forall_mem_cons.mp h
    cases m with
    | method span name params returnType? effect? body? =>
      cases body? with
      | none =>
        simp only [methodRows]
        exact ih hrest
      | some body =>
        rw [methodRows, List.forall_mem_append, List.cons_append, List.forall_mem_cons,
          List.forall_mem_append, List.forall_mem_singleton]
        refine ⟨⟨?_, fun row hrow => ?_, ?_⟩, ih hrest⟩
        · rw [opensConstructor, Context.rowFrom,
            not_prefix_methodHeader (hm name.name rfl) params body.awaits, Bool.and_false]
        · have hdeeper : ctx.indent + 1 ≤ row.indent := (Block.nests ctx.deeper body row hrow).1
          rw [opensConstructor, beq_false_of_ne (by omega), Bool.false_and]
        · simp [opensConstructor, Context.row, List.isPrefixOf]
    | constructor | field =>
      simp only [methodRows]
      exact ih hrest

/-- The rows between the braces of a class with these members. -/
abbrev bodyRows (ctx : Context) (hasBase : Bool) (members : List Member) : List Row :=
  memberRows ctx hasBase (fieldInits ctx members)
    (constructorRows ctx hasBase (fieldInits ctx members) members) (methodRows ctx members)

/-- The constructor of a class is read from the rows of its members. -/
theorem readConstructor_bodyRows {ctx : Context} {hasBase : Bool} {members : List Member}
    (h : ∀ m ∈ members, ∀ name ∈ m.name?, IsIdentifier name) :
    readConstructor ctx.indent (bodyRows ctx hasBase members) =
      if (members.any fun m => m.isConstructor || m.hasInit) then
        some (constructorBody ctx hasBase members)
      else none := by
  unfold bodyRows memberRows readConstructor
  rcases constructorPart_cases ctx hasBase members with ⟨opening, hopening, hneeds, hpart⟩ |
    ⟨hneeds, hpart⟩
  · rw [hpart, hneeds, if_pos rfl, List.cons_append, List.cons_append,
      List.dropWhile_cons_of_neg (by simp [hopening]), List.append_assoc]
    exact congrArg some (takeWhile_indent indent_constructorBody rfl)
  · rw [hpart, hneeds, List.nil_append]
    have hmethods :
        (methodRows ctx members).dropWhile (fun row => !opensConstructor ctx.indent row) = [] := by
      rw [List.dropWhile_eq_nil_iff]
      intro row hrow
      rw [opensConstructor_methodRows h row hrow]
      rfl
    rw [hmethods]
    rfl

/-! ### Classes -/

/-- All rows of the members of a class are at least as far in as the members. -/
theorem indent_bodyRows {ctx : Context} {hasBase : Bool} {members : List Member} :
    ∀ row ∈ bodyRows ctx hasBase members, ctx.indent ≤ row.indent := by
  unfold bodyRows memberRows
  rw [List.forall_mem_append]
  exact ⟨fun row hrow => (constructorRows_nests ctx hasBase _ members row hrow).1,
    fun row hrow => (methodRows_nests ctx members row hrow).1⟩

/-- Reading the rows of a class with the name `name` at the level of `ctx`, among other rows. -/
theorem readClass_append (ctx : Context) {name : String} (hname : isPlainName name.toList)
    {extends? : Option TypeExpr} {implements : List TypeExpr} {members : List Member}
    (hbase : ∀ base ∈ extends?.bind ctx.typeName?, isDottedPath base)
    (htraits : ∀ trait ∈ declaredTraits ctx implements, isDottedPath trait)
    (hmembers : ∀ m ∈ members, ∀ name ∈ m.name?, IsIdentifier name)
    (before : List Row) (hbefore : ∀ row ∈ before, readHeader row.text = none)
    (first : Row) (hlevel : first.indent = ctx.indent)
    (hfirst : first.text = classHeader ctx name extends?)
    (behind : List Row)
    (hbehind : ∀ row ∈ behind.head?, traitsOpening.isPrefixOf row.text.toList = false) :
    readClass (before ++ first ::
      (bodyRows (ctx.insideClass name) extends?.isSome members
        ++ ctx.row "\x7d" :: (mixinRows ctx name implements ++ behind))) =
      some ⟨extends?.bind ctx.typeName?,
        if members.any fun m => m.isConstructor || m.hasInit then
          some (constructorBody (ctx.insideClass name) extends?.isSome members)
        else none,
        declaredTraits ctx implements⟩ := by
  have hheader : readHeader first.text = some (extends?.bind ctx.typeName?) := by
    rw [hfirst, readHeader_classHeader hname hbase]
  have hbefore' : ∀ row ∈ before, (readHeader row.text).isNone = true := fun row hrow =>
    Option.isNone_iff_eq_none.mpr (hbefore row hrow)
  -- The brace is as far in as the first row, so that the members end there.
  have hinside : ∀ row ∈ bodyRows (ctx.insideClass name) extends?.isSome members,
      ctx.indent < row.indent := indent_bodyRows
  rw [readClass, List.dropWhile_append_of_pos hbefore',
    List.dropWhile_cons_of_neg (by simp [hheader])]
  simp only [hheader, Option.map_some, hlevel]
  have hmemberLevel : ctx.indent + 1 = (ctx.insideClass name).indent := rfl
  rw [takeWhile_indent hinside rfl, dropWhile_indent hinside rfl, List.tail_cons,
    readTraits_mixinRows htraits hbehind, hmemberLevel, readConstructor_bodyRows hmembers]

end Script

open Script

/-- What the members of the class depend on. -/
def ClassDecl.inside (ctx : Context) (decl : ClassDecl) : Context :=
  classContext ctx decl.emittedName decl.kind

def ClassDecl.shown (ctx : Context) (decl : ClassDecl) : ShownClass where
  base? := decl.extends?.bind ctx.typeName?
  constructor? :=
    if decl.members.any fun m => m.isConstructor || m.hasInit then
      some (constructorBody (decl.inside ctx) decl.extends?.isSome decl.members)
    else none
  traits := declaredTraits ctx decl.implements

/-- What follows the class of a singleton is no loop over traits. -/
theorem Script.not_prefix_instance :
    traitsOpening.isPrefixOf "let __instance = null;".toList = false := by
  decide

/-- Classes are read as what they have been written for. -/
theorem Script.readClass_rows {ctx : Context} (hctx : ctx.Plain) {span : Span} {decl : ClassDecl}
    (h : (Node.stmt (.classDecl span decl)).Every Node.Spelt) :
    readClass ((Stmt.classDecl span decl).rows ctx) = some (decl.shown ctx) := by
  have hname : isPlainName decl.emittedName.toList := h.here.isPlainName_emittedName
  have htypes : ∀ t ∈ decl.extends?.toList ++ decl.implements, (Node.type t).Spelt := fun _ ht =>
    (h.child (List.mem_append_left _ (List.mem_map_of_mem ht))).here
  have hbase : ∀ base ∈ decl.extends?.bind ctx.typeName?, isDottedPath base := by
    intro base hbase
    obtain ⟨t, ht, hname⟩ := Option.bind_eq_some_iff.mp hbase
    exact hctx.isDottedPath_typeName?
      (htypes t (List.mem_append_left _ (Option.mem_toList.mpr ht))) hname
  have htraits : ∀ trait ∈ declaredTraits ctx decl.implements, isDottedPath trait := by
    intro trait htrait
    obtain ⟨t, ht, hname⟩ := List.mem_filterMap.mp (List.mem_of_mem_filter htrait)
    exact hctx.isDottedPath_typeName? (htypes t (List.mem_append_right _ ht)) hname
  have hmembers : ∀ m ∈ decl.members, ∀ name ∈ m.name?, IsIdentifier name := fun m hm =>
    (h.members m hm).here.1
  obtain ⟨kind, ident, extends?, implements, members, uniqueName?⟩ := decl
  change isPlainName (uniqueName?.getD ident.name).toList at hname
  cases kind with
  | singleton =>
    -- The class stands inside a function, between its first row and the rows of the instance.
    have hconst : ∀ row ∈ [ctx.rowFrom span ("const " ++ uniqueName?.getD ident.name ++
        " = (() => \x7b")], readHeader row.text = none :=
      List.forall_mem_singleton.mpr (readHeader_const hname)
    have hinstance : ∀ row ∈ (instanceRows ctx.deeper ("__" ++ uniqueName?.getD ident.name ++
        "_Impl") ++ [ctx.row "\x7d)();"]).head?,
        traitsOpening.isPrefixOf row.text.toList = false := by
      rintro row ⟨⟩
      exact not_prefix_instance
    refine Eq.trans ?_ (readClass_append ctx.deeper (isPlainName_backing hname) hbase htraits
      hmembers _ hconst (ctx.deeper.row (classHeader ctx.deeper _ extends?)) rfl rfl _ hinstance)
    rw [Stmt.rows]
    simp only [List.append_assoc, List.cons_append, List.nil_append]
  | plain | trait =>
    refine Eq.trans ?_ (readClass_append ctx hname hbase htraits hmembers [] (List.forall_mem_nil _)
      (ctx.rowFrom span (classHeader ctx _ extends?)) rfl rfl []
      fun _ hrow => absurd hrow (Option.not_mem_none _))
    rw [Stmt.rows]
    · simp only [List.append_assoc, List.cons_append, List.nil_append, List.append_nil]
    · exact ClassKind.noConfusion

/-! ### Classes of programs -/

/-- The classes that are written for a part, as far as they are nested less than `depth` levels
    deep. -/
def Node.writtenClasses : (depth : Nat) → Context → Node → List (Context × Span × ClassDecl)
  | 0, _, _ => []
  | depth + 1, ctx, n =>
    (match n with
      | .stmt (.classDecl span decl) => [(ctx, span, decl)]
      | _ => [])
      ++ n.writtenParts.flatMap fun part => part.writtenClasses depth (partContext ctx n part)

theorem Node.writesIn_of_mem_writtenClasses {depth : Nat} {ctx inner : Context} {n : Node}
    {span : Span} {decl : ClassDecl} (h : (inner, span, decl) ∈ n.writtenClasses depth ctx) :
    WritesIn ctx n inner (.stmt (.classDecl span decl)) := by
  induction depth generalizing ctx n with
  | zero => exact absurd h List.not_mem_nil
  | succ depth ih =>
    rcases List.mem_append.mp h with h | h
    · split at h
      · obtain ⟨rfl, hclass⟩ := Prod.mk.inj (List.mem_singleton.mp h)
        obtain ⟨rfl, rfl⟩ := Prod.mk.inj hclass
        exact .here
      · exact absurd h List.not_mem_nil
    · obtain ⟨part, hpart, h⟩ := List.mem_flatMap.mp h
      exact .inside hpart (ih h)

/-- The classes that are written for a program down to some level. -/
def Program.writtenClasses (depth : Nat) (options : Options) (program : Program) :
    List (Context × Span × ClassDecl) :=
  program.stmts.flatMap fun s => (Node.stmt s).writtenClasses depth (topContext options program)

theorem Program.writes_of_mem_writtenClasses {depth : Nat} {options : Options} {program : Program}
    {ctx : Context} {span : Span} {decl : ClassDecl}
    (h : (ctx, span, decl) ∈ program.writtenClasses depth options) :
    program.Writes options ctx (.stmt (.classDecl span decl)) := by
  obtain ⟨s, hs, h⟩ := List.mem_flatMap.mp h
  exact ⟨s, hs, Node.writesIn_of_mem_writtenClasses h⟩

/-- The rows of a written class stand in the script, and the class is read from them. -/
theorem Program.Writes.readClass_rows {program : Program} {options : Options} {ctx : Context}
    {span : Span} {decl : ClassDecl} (h : program.Writes options ctx (.stmt (.classDecl span decl)))
    (hread : program.IsRead) (files : List String) :
    (Row.code ((Stmt.classDecl span decl).rows ctx)).toList <:+:
        (generate options files program).code.toList ∧
      readClass ((Stmt.classDecl span decl).rows ctx) = some (decl.shown ctx) := by
  have hwritten := h.isInfix files
  rw [Node.passage, Stmt.plain_passage] at hwritten
  exact ⟨hwritten, Script.readClass_rows (h.plain hread) (h.spelt hread)⟩

end ScriptCompiler
