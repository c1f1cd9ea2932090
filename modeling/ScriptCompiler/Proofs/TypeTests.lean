import ScriptCompiler.Proofs.ReadBack
import ScriptCompiler.Script.Emit

/-!
# What type tests do with their subject

The code of a type test is made of checks, each with a gap for the subject, that are combined by `&&`
and `||`. The test of a union, intersection or sum of types makes the tests of both types, so that
its subject is written and evaluated once for each type that is no such combination.
-/

namespace ScriptCompiler

namespace Script

/-- The code of a type test, with a gap for the subject in each check. -/
inductive TestCode where
  /-- A check evaluates its subject once. -/
  | check (before behind : String)
  /-- Two tests joined by `&&` or `||`: the second one is made if the first one gives `goOn`. -/
  | join (goOn : Bool) (left right : TestCode)
deriving DecidableEq, Repr

/-- The operator that goes on to its second operand if the first one gives `goOn`. -/
def joinText (goOn : Bool) : String :=
  if goOn then " && " else " || "

namespace TestCode

/-- The text of the test of a subject. -/
def fill (subject : String) : TestCode → String
  | .check before behind => before ++ subject ++ behind
  | .join goOn left right => "(" ++ left.fill subject ++ joinText goOn ++ right.fill subject ++ ")"

/-- Number of gaps. -/
def gaps : TestCode → Nat
  | .check .. => 1
  | .join _ left right => left.gaps + right.gaps

def texts : TestCode → List String
  | .check before behind => [before, behind]
  | .join _ left right => left.texts ++ right.texts

/-- The value of a test, which is `none` if it throws, and how often it evaluates its subject. The
    outcome of each check is given for the way to it. -/
def run : TestCode → (outcome : List Bool → Option Bool) → Option Bool × Nat
  | .check _ _, outcome => (outcome [], 1)
  | .join goOn left right, outcome =>
    let first := left.run fun way => outcome (false :: way)
    let second := right.run fun way => outcome (true :: way)
    if first.1 = some goOn then (second.1, first.2 + second.2) else first

/-- The value of a test, where a tolerant one fails instead of throwing. -/
def evaluate (guarded : Bool) (code : TestCode) (outcome : List Bool → Option Bool) :
    Option Bool × Nat :=
  let result := code.run outcome
  if guarded then (some (result.1.getD false), result.2) else result

/-! ### Evaluated gaps -/

/-- A test evaluates its subject at least once, and at most once for each gap. -/
theorem run_bounds (code : TestCode) (outcome : List Bool → Option Bool) :
    1 ≤ (code.run outcome).2 ∧ (code.run outcome).2 ≤ code.gaps := by
  induction code generalizing outcome with
  | check => exact ⟨Nat.le_refl 1, Nat.le_refl 1⟩
  | join goOn left right ihleft ihright =>
    have hleft := ihleft fun way => outcome (false :: way)
    have hright := ihright fun way => outcome (true :: way)
    simp only [run, gaps]
    split <;> omega

/-- There are outcomes with which all gaps are evaluated, whatever value the test is to have. -/
theorem exists_run_eq (code : TestCode) (value : Bool) :
    ∃ outcome, code.run outcome = (some value, code.gaps) := by
  induction code generalizing value with
  | check => exact ⟨fun _ => some value, rfl⟩
  | join goOn left right ihleft ihright =>
    -- The first test has to go on to the second one, which then gives the value.
    obtain ⟨first, hfirst⟩ := ihleft goOn
    obtain ⟨second, hsecond⟩ := ihright value
    refine ⟨fun | [] => none | false :: way => first way | true :: way => second way, ?_⟩
    simp [run, hfirst, hsecond, gaps]

@[simp] theorem evaluate_snd (guarded : Bool) (code : TestCode)
    (outcome : List Bool → Option Bool) :
    (code.evaluate guarded outcome).2 = (code.run outcome).2 := by
  unfold evaluate
  cases guarded <;> rfl

/-- A test evaluates its subject exactly once in every run if it has one gap. -/
theorem evaluate_eq_one_iff (guarded : Bool) (code : TestCode) :
    (∀ outcome, (code.evaluate guarded outcome).2 = 1) ↔ code.gaps = 1 := by
  constructor
  · intro honce
    obtain ⟨outcome, houtcome⟩ := code.exists_run_eq true
    have hrun := honce outcome
    rwa [evaluate_snd, houtcome] at hrun
  · intro hgaps outcome
    have hbounds := code.run_bounds outcome
    rw [evaluate_snd]
    omega

end TestCode

/-! ### Words -/

/-- The words of a text: what stands between characters that belong to no name. -/
def words (text : List Char) : List (List Char) :=
  text.splitOnP fun c => !isNamePart c

theorem words_of_isNamePart {word : List Char} (h : ∀ c ∈ word, isNamePart c) :
    words word = [word] :=
  List.splitOnP_eq_singleton fun c hc => by simp [h c hc]

section

variable {c : Char} {word : List Char}

theorem count_words_append (hc : isNamePart c = false) (left right word : List Char) :
    (words (left ++ c :: right)).count word =
      (words left).count word + (words right).count word := by
  have hsep : (fun c => !isNamePart c) c = true := by simp [hc]
  rw [words, List.splitOnP_append_cons left right hsep, List.count_append]
  rfl

theorem count_words_nil (hword : word ≠ []) : (words []).count word = 0 := by
  simp [words, hword]

theorem count_words_cons (hc : isNamePart c = false) (rest : List Char) (hword : word ≠ []) :
    (words (c :: rest)).count word = (words rest).count word := by
  have happend := count_words_append hc [] rest word
  rwa [count_words_nil hword, Nat.zero_add] at happend

theorem count_words_concat (hc : isNamePart c = false) (front : List Char) (hword : word ≠ []) :
    (words (front ++ [c])).count word = (words front).count word := by
  rw [count_words_append hc, count_words_nil hword, Nat.add_zero]

/-- Two texts around an operator, between parentheses. -/
theorem count_words_join (goOn : Bool) (hword : word ≠ []) (left right : String) :
    (words ("(" ++ left ++ joinText goOn ++ right ++ ")").toList).count word =
      (words left.toList).count word + (words right.toList).count word := by
  obtain ⟨sign, hsign, hoperator⟩ : ∃ sign, isNamePart sign = false ∧
      (joinText goOn).toList = [' ', sign, sign, ' '] := by
    cases goOn with
    | true => exact ⟨'&', by decide, rfl⟩
    | false => exact ⟨'|', by decide, rfl⟩
  have hspace : isNamePart ' ' = false := by decide
  have htext : ("(" ++ left ++ joinText goOn ++ right ++ ")").toList =
      '(' :: (left.toList ++ ' ' :: sign :: sign :: ' ' :: (right.toList ++ [')'])) := by
    simp [hoperator]
  rw [htext, count_words_cons (by decide) _ hword, count_words_append hspace,
    count_words_cons hsign _ hword, count_words_cons hsign _ hword,
    count_words_cons hspace _ hword, count_words_concat (by decide) _ hword]

end

namespace TestCode

/-- No name runs into the gap of a check. -/
def Delimited : TestCode → Prop
  | .check before behind =>
    (∃ front c, before.toList = front ++ [c] ∧ isNamePart c = false) ∧
      ∃ c rest, behind.toList = c :: rest ∧ isNamePart c = false
  | .join _ left right => left.Delimited ∧ right.Delimited

/-- A name that is no word of the texts around the gaps is written once for each gap. -/
theorem count_words_fill {code : TestCode} (hcode : code.Delimited) {subject : String}
    (hsubject : subject.toList ≠ []) (hname : ∀ c ∈ subject.toList, isNamePart c)
    (hfresh : ∀ text ∈ code.texts, subject.toList ∉ words text.toList) :
    (words (code.fill subject).toList).count subject.toList = code.gaps := by
  induction code with
  | check before behind =>
    obtain ⟨⟨front, c, hbefore, hc⟩, d, rest, hbehind, hd⟩ := hcode
    have hfront : (words front).count subject.toList = 0 := by
      rw [← count_words_concat hc front hsubject, ← hbefore]
      exact List.count_eq_zero.mpr (hfresh before (.head _))
    have hrest : (words rest).count subject.toList = 0 := by
      rw [← count_words_cons hd rest hsubject, ← hbehind]
      exact List.count_eq_zero.mpr (hfresh behind (.tail _ (.head _)))
    have htext : (fill subject (.check before behind)).toList =
        front ++ c :: (subject.toList ++ d :: rest) := by
      simp [fill, hbefore, hbehind]
    rw [htext, count_words_append hc, count_words_append hd, words_of_isNamePart hname, hfront,
      hrest, List.count_singleton_self]
    rfl
  | join goOn left right ihleft ihright =>
    obtain ⟨hleft, hright⟩ := List.forall_mem_append.mp hfresh
    rw [fill, count_words_join goOn hsubject, ihleft hcode.1 hleft, ihright hcode.2 hright, gaps]

end TestCode

/-! ### Tests of types -/

def typeofCode (name : String) : TestCode :=
  .check "(typeof " (" === \"" ++ name ++ "\")")

def namedCode (ctx : Context) (name : String) : TestCode :=
  if name = "Number" then typeofCode "number"
  else if name = "String" then typeofCode "string"
  else if name = "Boolean" ∨ name = "Bool" then typeofCode "boolean"
  else if name = "Function" then typeofCode "function"
  else .check "(" (" instanceof " ++ ctx.nameText name ++ ")")

/-- The code of the test for a type. -/
def testCode (ctx : Context) : TypeExpr → TestCode
  | .named _ name _ => namedCode ctx name.name
  | .array _ _ => .check "(Array.isArray(" "))"
  | .binary _ .arrow _ _ => typeofCode "function"
  | .binary _ .intersection left right => .join true (testCode ctx left) (testCode ctx right)
  | .binary _ .union left right => .join false (testCode ctx left) (testCode ctx right)
  | .binary _ .sum left right => .join false (testCode ctx left) (testCode ctx right)
  | .unit _ => .check "(" " === undefined)"

end Script

/-- Unions, intersections and sums of types. -/
def TypeExpr.isCombined : TypeExpr → Bool
  | .binary _ .arrow _ _ => false
  | .binary .. => true
  | _ => false

/-- Number of types that are combined to a type by unions, intersections and sums. -/
def TypeExpr.checks : TypeExpr → Nat
  | .binary _ .arrow _ _ => 1
  | .binary _ _ left right => left.checks + right.checks
  | _ => 1

theorem TypeExpr.checks_pos : ∀ t : TypeExpr, 1 ≤ t.checks
  | .named .. | .array .. | .unit .. | .binary _ .arrow _ _ => Nat.le_refl 1
  | .binary _ .union left _ | .binary _ .intersection left _ | .binary _ .sum left _ =>
    Nat.le_add_right_of_le left.checks_pos

theorem TypeExpr.checks_eq_one_iff (t : TypeExpr) : t.checks = 1 ↔ t.isCombined = false := by
  cases t with
  | binary span op left right =>
    have hleft := left.checks_pos
    have hright := right.checks_pos
    cases op with
    | arrow => exact iff_of_true rfl rfl
    | union | intersection | sum =>
      refine iff_of_false ?_ (by simp [isCombined])
      rw [checks]
      · omega
      · decide
  | named | array | unit => exact iff_of_true rfl rfl

namespace Script

theorem fill_typeofCode (subject name : String) :
    (typeofCode name).fill subject = typeofTest subject name := by
  simp only [typeofCode, TestCode.fill, typeofTest, String.append_assoc]

theorem fill_namedCode (ctx : Context) (subject name : String) :
    (namedCode ctx name).fill subject = namedTest ctx subject name := by
  simp only [namedCode, namedTest, apply_ite (TestCode.fill subject), fill_typeofCode,
    TestCode.fill, String.append_assoc]

/-- Tests are written by filling in the gaps of their code. -/
theorem typeTest_eq_fill (ctx : Context) (subject : String) (t : TypeExpr) :
    typeTest ctx subject t = (testCode ctx t).fill subject := by
  fun_induction testCode ctx t with
  | case1 _ name _ => exact (fill_namedCode ctx subject name.name).symm
  | case2 | case7 => rfl
  | case3 => exact (fill_typeofCode subject "function").symm
  | case4 _ left right ihleft ihright | case5 _ left right ihleft ihright
  | case6 _ left right ihleft ihright =>
    rw [typeTest, ihleft, ihright]
    rfl

theorem gaps_testCode (ctx : Context) (t : TypeExpr) : (testCode ctx t).gaps = t.checks := by
  fun_induction testCode ctx t with
  | case1 _ name _ =>
    unfold namedCode
    repeat' split
    all_goals rfl
  | case2 | case3 | case7 => rfl
  | case4 _ left right ihleft ihright | case5 _ left right ihleft ihright
  | case6 _ left right ihleft ihright =>
    rw [TestCode.gaps, ihleft, ihright]
    rfl

theorem delimited_typeofCode (name : String) : (typeofCode name).Delimited := by
  refine ⟨⟨"(typeof".toList, ' ', rfl, by decide⟩, ' ', ("=== \"" ++ name ++ "\")").toList, ?_,
    by decide⟩
  simp

theorem delimited_testCode (ctx : Context) (t : TypeExpr) : (testCode ctx t).Delimited := by
  fun_induction testCode ctx t with
  | case1 _ name _ =>
    have hinstance : TestCode.Delimited
        (.check "(" (" instanceof " ++ ctx.nameText name.name ++ ")")) := by
      refine ⟨⟨[], '(', rfl, by decide⟩, ' ',
        ("instanceof " ++ ctx.nameText name.name ++ ")").toList, ?_, by decide⟩
      simp
    unfold namedCode
    split
    · exact delimited_typeofCode _
    split
    · exact delimited_typeofCode _
    split
    · exact delimited_typeofCode _
    split
    · exact delimited_typeofCode _
    · exact hinstance
  | case2 => exact ⟨⟨"(Array.isArray".toList, '(', rfl, by decide⟩, ')', _, rfl, by decide⟩
  | case3 => exact delimited_typeofCode _
  | case4 _ left right ihleft ihright | case5 _ left right ihleft ihright
  | case6 _ left right ihleft ihright => exact ⟨ihleft, ihright⟩
  | case7 => exact ⟨⟨[], '(', rfl, by decide⟩, ' ', _, rfl, by decide⟩

/-- How often the test for a type writes and evaluates its subject. -/
structure SubjectUse (ctx : Context) (t : TypeExpr) : Prop where
  /-- The test is a text with a gap for each of the combined types. -/
  template : (testCode ctx t).gaps = t.checks ∧
    ∀ subject, typeTest ctx subject t = (testCode ctx t).fill subject
  /-- A name that does not occur in the text of the template is written that often. -/
  written : ∀ subject : String, subject.toList ≠ [] → (∀ c ∈ subject.toList, isNamePart c) →
    (∀ text ∈ (testCode ctx t).texts, subject.toList ∉ words text.toList) →
      (words (typeTest ctx subject t).toList).count subject.toList = t.checks
  /-- Tests in programs fill the gaps with their operand. -/
  filled : ∀ span operand guarded, (Expr.typeTest span operand t guarded).script ctx =
    if guarded then guardText ((testCode ctx t).fill (operand.script ctx)) "false" operand.awaits
    else (testCode ctx t).fill (operand.script ctx)
  /-- The subject is evaluated at least once, and at most once for each of the combined types. -/
  evaluated : ∀ guarded outcome, 1 ≤ ((testCode ctx t).evaluate guarded outcome).2 ∧
    ((testCode ctx t).evaluate guarded outcome).2 ≤ t.checks
  /-- There are runs that evaluate it for all of them. -/
  attained : ∀ guarded, ∃ outcome, ((testCode ctx t).evaluate guarded outcome).2 = t.checks
  /-- All runs evaluate it exactly once if the type is no combination. -/
  once : ∀ guarded, (∀ outcome, ((testCode ctx t).evaluate guarded outcome).2 = 1) ↔
    t.isCombined = false

/-- How often tests write and evaluate their subject, for all types. -/
theorem typeTest_subjectUse (ctx : Context) (t : TypeExpr) : SubjectUse ctx t where
  template := ⟨gaps_testCode ctx t, fun subject => typeTest_eq_fill ctx subject t⟩
  written subject hsubject hname hfresh := by
    rw [typeTest_eq_fill, TestCode.count_words_fill (delimited_testCode ctx t) hsubject hname hfresh,
      gaps_testCode]
  filled span operand guarded := by
    rw [Expr.script, typeTest_eq_fill]
  evaluated guarded outcome := by
    rw [TestCode.evaluate_snd, ← gaps_testCode ctx t]
    exact TestCode.run_bounds _ outcome
  attained guarded := by
    obtain ⟨outcome, houtcome⟩ := (testCode ctx t).exists_run_eq true
    exact ⟨outcome, by rw [TestCode.evaluate_snd, houtcome, gaps_testCode]⟩
  once guarded := by
    rw [TestCode.evaluate_eq_one_iff, gaps_testCode, TypeExpr.checks_eq_one_iff]

/-- The test for a union writes a fresh name twice, and a run in which the first check fails
    evaluates it twice; so it does with a call. -/
theorem typeTest_union :
    (∃ lexemes t, tokenizeFile 0 "A | B" = .ok lexemes ∧ parseType lexemes = .ok t ∧
      typeTest default "x" t = "((x instanceof A) || (x instanceof B))" ∧
      (words (typeTest default "x" t).toList).count ['x'] = 2 ∧
      ((testCode default t).evaluate false fun _ => some false) = (some false, 2)) ∧
    ∃ lexemes e, tokenizeFile 0 "f() is (A | B)" = .ok lexemes ∧ parseExpr lexemes = .ok e ∧
      e.script default = "((f() instanceof A) || (f() instanceof B))" := by
  have htype : ((tokenizeFile 0 "A | B").toOption.bind fun lexemes =>
      (parseType lexemes).toOption.map fun t => (typeTest default "x" t,
        (words (typeTest default "x" t).toList).count ['x'],
        (testCode default t).evaluate false fun _ => some false)) =
      some ("((x instanceof A) || (x instanceof B))", 2, some false, 2) := by
    decide +kernel
  have hexpr : ((tokenizeFile 0 "f() is (A | B)").toOption.bind fun lexemes =>
      (parseExpr lexemes).toOption.map fun e => e.script default) =
      some "((f() instanceof A) || (f() instanceof B))" := by
    decide +kernel
  obtain ⟨typeLexemes, t, hscanType, ht, hview⟩ := exists_parse_of_map htype
  obtain ⟨htext, hview⟩ := Prod.mk.inj hview
  obtain ⟨hcount, hevaluate⟩ := Prod.mk.inj hview
  obtain ⟨lexemes, e, hscan, he, hscript⟩ := exists_parse_of_map hexpr
  exact ⟨⟨typeLexemes, t, hscanType, ht, htext, hcount, hevaluate⟩, lexemes, e, hscan, he, hscript⟩

end Script

end ScriptCompiler
