import ScriptCompiler.Proofs.ClosedScripts
import ScriptCompiler.Proofs.FunctionOrigins

/-!
# The contexts that parts are written in

Every part of a program is written in a context: how far in it stands, which class is around it, and
which classes the program declares. In a program that was read the class around a part has a name of
the script for its name, and the names that parts write become paths of such names.
-/

namespace ScriptCompiler

open Script

/-- A class is emitted under a name of the script. -/
theorem Node.Spelt.isPlainName_emittedName {span : Span} {decl : ClassDecl}
    (h : (Node.stmt (.classDecl span decl)).Spelt) : isPlainName decl.emittedName.toList := by
  have hwritten : ∀ name ∈ (Stmt.classDecl span decl).written, isPlainName name.toList := h
  obtain ⟨kind, name, extends?, implements, members, uniqueName?⟩ := decl
  cases uniqueName? with
  | none => exact hwritten _ List.mem_cons_self
  | some unique => exact hwritten unique (List.mem_cons_of_mem _ List.mem_cons_self)

namespace Script

/-! ### Dotted paths -/

theorem isDottedPath_of_isPlainName {name : String} (h : isPlainName name.toList) :
    isDottedPath name := by
  have hpoint : '.' ∉ name.toList := fun hin =>
    absurd (isNamePart_of_isPlainName h _ hin) (by decide)
  rw [isDottedPath, Text.splitOn_of_notMem hpoint]
  simpa using h

/-- Paths of names become dotted paths. -/
theorem isDottedPath_replacePair {name : String} (h : IsNamePath name) :
    isDottedPath (String.ofList (Text.replacePair ['.'] name.toList)) := by
  obtain ⟨segments, hne, hsegments, rfl⟩ := h
  have hnotMem : ∀ c : Char, isNamePart c = false →
      ∀ segment ∈ segments.map String.toList, c ∉ segment := by
    intro c hc
    rw [List.forall_mem_map]
    intro segment hsegment hin
    rw [isNamePart_of_isPlainName (hsegments segment hsegment) c hin] at hc
    cases hc
  have hsplit : ∀ segment ∈ segments.map String.toList, segment.splitOn '.' = [segment] :=
    fun segment hsegment => Text.splitOn_of_notMem (hnotMem '.' (by decide) segment hsegment)
  have hjoined : Text.replacePair ['.'] (Text.joinWith "::" segments).toList =
      ['.'].intercalate (segments.map String.toList) := by
    rw [Text.toList_joinWith]
    exact Text.replacePair_intercalate _ (hnotMem ':' (by decide))
  rw [isDottedPath, String.toList_ofList, hjoined, Text.splitOn_intercalate '.' (by simpa using hne),
    List.all_eq_true]
  intro part hpart
  obtain ⟨segment, hsegment, hpart⟩ := List.mem_flatMap.mp hpart
  rw [hsplit segment hsegment, List.mem_singleton] at hpart
  subst hpart
  obtain ⟨name, hname, rfl⟩ := List.mem_map.mp hsegment
  exact hsegments name hname

/-- The characters of a dotted path are those of names, and points. -/
theorem isNamePart_of_isDottedPath {text : String} (h : isDottedPath text) {c : Char}
    (hc : c ∈ text.toList) : isNamePart c ∨ c = '.' := by
  have hjoined : ['.'].intercalate (text.toList.splitOn '.') = text.toList :=
    List.intercalate_splitOn '.'
  by_contra hother
  obtain ⟨hpart, hpoint⟩ := not_or.mp hother
  rw [← hjoined] at hc
  refine Text.notMem_intercalate (fun hin => hpoint (List.mem_singleton.mp hin)) ?_ hc
  exact fun name hname hin =>
    hpart (isNamePart_of_isPlainName (List.all_eq_true.mp h name hname) c hin)

theorem notMem_of_isDottedPath {text : String} (h : isDottedPath text) {c : Char}
    (hpart : isNamePart c = false) (hpoint : c ≠ '.') : c ∉ text.toList := by
  intro hin
  rcases isNamePart_of_isDottedPath h hin with hc | hc
  · rw [hpart] at hc
    cases hc
  · exact hpoint hc

/-- A dotted path starts like a name. -/
theorem exists_head_of_isDottedPath {text : String} (h : isDottedPath text) :
    ∃ c rest, text.toList = c :: rest ∧ isNameStart c := by
  have hjoined : ['.'].intercalate (text.toList.splitOn '.') = text.toList :=
    List.intercalate_splitOn '.'
  obtain ⟨name, names, hnames⟩ := List.exists_cons_of_ne_nil (List.splitOn_ne_nil '.' text.toList)
  have hname : isPlainName name :=
    List.all_eq_true.mp h name (hnames ▸ List.mem_cons_self)
  rw [hnames, Text.intercalate_cons] at hjoined
  cases name with
  | nil => cases hname
  | cons c rest => exact ⟨c, _, hjoined.symm, (Bool.and_eq_true_iff.mp hname).1⟩

/-! ### Plain contexts -/

/-- The name of the innermost class is a name of the script. -/
def Context.Plain (ctx : Context) : Prop :=
  ∀ name ∈ ctx.enclosing?, isPlainName name.toList

namespace Context.Plain

variable {ctx : Context}

theorem calm (h : ctx.Plain) : ctx.Calm :=
  fun name hname => isCalm_of_isPlainName (h name hname)

theorem insideClass (ctx : Context) {name : String} (h : isPlainName name.toList) :
    (ctx.insideClass name).Plain := by
  intro other hother
  obtain rfl := Option.some.inj hother
  exact h

theorem isDottedPath_nameText (h : ctx.Plain) {name : String} (hname : IsNamePath name) :
    isDottedPath (ctx.nameText name) := by
  unfold Context.nameText
  split
  · decide
  · split
    · cases hclass : ctx.enclosing? with
      | none => decide
      | some enclosing => exact isDottedPath_of_isPlainName (h enclosing hclass)
    · exact isDottedPath_replacePair hname

theorem isDottedPath_typeName? (h : ctx.Plain) {t : TypeExpr} (ht : (Node.type t).Spelt)
    {name : String} (hname : ctx.typeName? t = some name) : isDottedPath name := by
  cases t with
  | named span ident args =>
    obtain rfl := Option.some.inj hname
    exact h.isDottedPath_nameText ht
  | _ => cases hname

end Context.Plain

/-- The class of a singleton has a name of the script, too. -/
theorem isPlainName_backing {name : String} (h : isPlainName name.toList) :
    isPlainName ("__" ++ name ++ "_Impl").toList := by
  rw [String.toList_append, String.toList_append, List.append_assoc]
  refine isPlainName_append (by decide) ?_
  rw [List.forall_mem_append]
  exact ⟨isNamePart_of_isPlainName h, List.all_eq_true.mp (by decide)⟩

/-- The class around the members of a class has a name. -/
theorem classContext_plain (ctx : Context) {name : String} (h : isPlainName name.toList)
    (kind : ClassKind) : (classContext ctx name kind).Plain := by
  cases kind with
  | singleton => exact .insideClass ctx.deeper (isPlainName_backing h)
  | plain | trait => exact .insideClass ctx h

/-! ### Contexts of parts -/

end Script

namespace Node

variable {ctx inner : Context} {n m part : Node}

theorem declared_partContext (ctx : Context) (n part : Node) :
    (partContext ctx n part).declared = ctx.declared := by
  have haround : (n.contextAround ctx).declared = ctx.declared := by
    unfold contextAround
    split
    · rename_i span decl
      obtain ⟨kind, name, extends?, implements, members, uniqueName?⟩ := decl
      cases kind <;> rfl
    · rfl
  cases part <;> exact haround

/-- All parts of a program see the same declared classes. -/
theorem WritesIn.declared (h : WritesIn ctx n inner m) : inner.declared = ctx.declared := by
  induction h with
  | here => rfl
  | inside _ _ ih => exact ih.trans (declared_partContext _ _ _)

theorem plain_partContext (hctx : ctx.Plain) (hn : n.Spelt) (part : Node) :
    (partContext ctx n part).Plain := by
  have haround : (n.contextAround ctx).Plain := by
    unfold contextAround
    split
    · exact classContext_plain ctx hn.isPlainName_emittedName _
    · exact hctx
  cases part <;> exact haround

theorem WritesIn.plain (h : WritesIn ctx n inner m) (hctx : ctx.Plain) (hn : n.Every Spelt) :
    inner.Plain := by
  induction h with
  | here => exact hctx
  | inside hpart _ ih =>
    exact ih (plain_partContext hctx hn.here _) (hn.writes (.inside hpart .here))

end Node

namespace Script

theorem isInfix_middle (before text behind : String) :
    text.toList <:+: (before ++ text ++ behind).toList := by
  rw [String.toList_append, String.toList_append]
  exact List.infix_append _ _ _

theorem isInfix_guardText (text fallback : String) (awaits : Bool) :
    text.toList <:+: (guardText text fallback awaits).toList := by
  unfold guardText
  split
  · simpa only [String.append_assoc] using isInfix_middle ("(await (async () => \x7b " ++
      "try \x7b return ") text ("; \x7d catch (_) \x7b return " ++ fallback ++ "; \x7d" ++
        " \x7d)())")
  · simpa only [String.append_assoc] using isInfix_middle ("(() => \x7b " ++ "try \x7b return ")
      text ("; \x7d catch (_) \x7b return " ++ fallback ++ "; \x7d" ++ " \x7d)()")

/-- What a passage contains stands in its text. -/
theorem Passage.Contains.isInfix {p q : Passage} (h : p.Contains q) :
    q.plain.toList <:+: p.plain.toList := by
  obtain ⟨enclosing?, h⟩ := h
  induction h with
  | here => exact List.infix_rfl
  | first _ ih =>
    rw [plain, String.toList_append]
    exact ih.trans (List.prefix_append _ _).isInfix
  | second _ ih =>
    rw [plain, String.toList_append]
    exact ih.trans (List.suffix_append _ _).isInfix
  | operand _ ih => exact ih.trans (isInfix_middle _ _ _)
  | guarded _ ih => exact ih.trans (isInfix_guardText _ _ _)
  | body _ ih => exact ih.trans (isInfix_middle _ _ _)

end Script

/-! ### Written parts of programs -/

/-- The script of the program has what is written for the part in this context. -/
def Program.Writes (program : Program) (options : Options) (ctx : Context) (part : Node) : Prop :=
  ∃ s ∈ program.stmts, Node.WritesIn (topContext options program) (.stmt s) ctx part

namespace Program.Writes

variable {program : Program} {options : Options} {ctx : Context} {part : Node}

/-- What is written for a part of a program stands in the script. -/
theorem isInfix (h : program.Writes options ctx part) (files : List String) :
    (part.passage ctx).plain.toList <:+: (generate options files program).code.toList := by
  obtain ⟨s, hs, hpart⟩ := h
  rw [← plain_programPassage]
  exact (contains_writtenPart options files hs hpart).isInfix

/-- All parts see the classes that the program declares. -/
theorem declared (h : program.Writes options ctx part) :
    ctx.declared = declaredClasses program.stmts := by
  obtain ⟨s, _, hpart⟩ := h
  exact hpart.declared

/-- The parts of a program that was read are written in plain contexts. -/
theorem plain (h : program.Writes options ctx part) (hread : program.IsRead) : ctx.Plain := by
  obtain ⟨s, hs, hpart⟩ := h
  exact hpart.plain (fun _ hname => absurd hname (Option.not_mem_none _)) (hread.spelt s hs)

theorem spelt (h : program.Writes options ctx part) (hread : program.IsRead) :
    part.Every Node.Spelt := by
  obtain ⟨s, hs, hpart⟩ := h
  exact (hread.spelt s hs).writes hpart.writes

end Program.Writes

end ScriptCompiler
