import ScriptCompiler.Proofs.WellNamed

/-!
# Which locals a part sees

A part sees the locals that the parts above it bring. Functions, methods, constructors and lambdas
bring their parameters. A block brings what its statements declare: a variable for the statements
behind its declaration, a function or class also for its own declaration, and both only up to the
end of the block.
-/

namespace ScriptCompiler

def Node.params : Node → List Param
  | .expr (.lambda _ params _) => params
  | .stmt s => s.params
  | .member (.constructor _ params _) => params
  | .member (.method _ _ params ..) => params
  | _ => []

/-- A part brings the local `name` for the part at index `i` right inside it. -/
inductive Node.Brings : Node → Nat → String → Prop where
  /-- Parameters hold for the body. -/
  | param {n : Node} {i : Nat} {param : Param} (h : param ∈ n.params) : Brings n i param.name.name
  /-- What a statement of a block declares holds for the statements behind it. -/
  | before {b : Block} {i j : Nat} {s : Stmt} {kind : EntryKind} {ident : Ident} (hj : j < i)
      (hs : b.stmts[j]? = some s) (hdeclared : s.declared? = some (kind, ident))
      (hkind : kind ≠ .foreign) : Brings (.block b) i ident.name
  /-- A function or class holds for its own declaration. -/
  | itself {b : Block} {i : Nat} {s : Stmt} {kind : EntryKind} {ident : Ident}
      (hs : b.stmts[i]? = some s) (hdeclared : s.declared? = some (kind, ident))
      (hkind : kind = .function ∨ kind = .classType) : Brings (.block b) i ident.name

/-- At a position of a statement some part above brings the local `name`. -/
def Stmt.BindsAt (s : Stmt) (position : List Nat) (name : String) : Prop :=
  ∃ above i below o, position = above ++ i :: below ∧ (Occurrence.top s).part? above = some o ∧
    o.node.Brings i name

/-! ### What blocks and bodies bring -/

theorem Stmt.mem_boundBefore {s : Stmt} {name : String} :
    name ∈ s.boundBefore ↔ ∃ kind ident, s.declared? = some (kind, ident) ∧
      (kind = .function ∨ kind = .classType) ∧ ident.name = name := by
  cases s with
  | classDecl span decl =>
    cases decl
    simp [boundBefore, declared?, eq_comm]
  | _ => simp [boundBefore, declared?, eq_comm]

theorem Stmt.mem_boundAfter {s : Stmt} {name : String} :
    name ∈ s.boundAfter ↔ ∃ kind ident, s.declared? = some (kind, ident) ∧
      kind ≠ .foreign ∧ ident.name = name := by
  cases s with
  | classDecl span decl =>
    cases decl
    simp [boundAfter, declared?, eq_comm]
  | _ => simp [boundAfter, declared?, eq_comm]

theorem getElem?_stmtChildren (bound : List String) (stmts : List Stmt) (i : Nat) :
    (stmtChildren bound stmts)[i]? = (stmts[i]?).map fun s =>
      ⟨s.boundBefore ++ ((stmts.take i).reverse.flatMap Stmt.boundAfter ++ bound), none,
        .stmt s⟩ := by
  induction stmts generalizing bound i with
  | nil => simp [stmtChildren]
  | cons s rest ih =>
    cases i with
    | zero => simp [stmtChildren]
    | succ i =>
      rw [stmtChildren, List.getElem?_cons_succ, ih, List.getElem?_cons_succ, List.take_succ_cons,
        List.reverse_cons, List.flatMap_append]
      simp

/-- Outside of blocks the children see the parameters. -/
theorem Node.binds_eq_paramNames {n : Node} (hn : ∀ b, n ≠ .block b) {child : Child}
    (hchild : child ∈ n.children) : child.binds = paramNames n.params := by
  -- Most parts have neither parameters nor children that see more than they do.
  have hplain (hparams : n.params = []) (h : ∀ child ∈ n.children, child.binds = []) :
      child.binds = paramNames n.params := by
    rw [hparams, h child hchild]
    rfl
  cases n with
  | type t =>
    refine hplain rfl ?_
    cases t <;> simp [children, TypeExpr.children, Child.plain]
  | expr e =>
    cases e with
    | lambda span params body =>
      obtain rfl := List.mem_singleton.mp hchild
      rfl
    | call =>
      refine hplain rfl ?_
      simp only [children, Expr.children, List.cons_append, List.forall_mem_cons,
        List.forall_mem_append, List.forall_mem_map]
      exact ⟨rfl, fun _ _ => rfl, fun _ _ => rfl⟩
    | _ => exact hplain rfl (by simp [children, Expr.children, Child.plain])
  | block b => exact absurd rfl (hn b)
  | stmt s =>
    cases s with
    | function =>
      obtain rfl := List.mem_singleton.mp hchild
      rfl
    | classDecl =>
      refine hplain rfl ?_
      simp only [children, Stmt.children, List.forall_mem_append, List.forall_mem_map]
      exact ⟨⟨fun _ _ => rfl, fun _ _ => rfl⟩, fun _ _ => trivial⟩
    | _ => exact hplain rfl (by simp [children, Stmt.children, Child.plain])
  | elseBranch b =>
    refine hplain rfl ?_
    cases b <;> simp [children, ElseBranch.children, Child.plain]
  | member m =>
    cases m with
    | constructor =>
      obtain rfl := List.mem_singleton.mp hchild
      rfl
    | method =>
      obtain ⟨body, _, rfl⟩ := List.mem_map.mp hchild
      rfl
    | field => exact hplain rfl (by simp [children, Member.children, Child.plain])

theorem Node.brings_iff_of_ne_block {n : Node} (hn : ∀ b, n ≠ .block b) {i : Nat} {name : String} :
    n.Brings i name ↔ name ∈ paramNames n.params := by
  constructor
  · intro h
    cases h with
    | param hparam => exact List.mem_map_of_mem hparam
    | before => exact absurd rfl (hn _)
    | itself => exact absurd rfl (hn _)
  · intro h
    obtain ⟨param, hparam, rfl⟩ := List.mem_map.mp h
    exact .param hparam

theorem Node.brings_block {b : Block} {i : Nat} {name : String} :
    (Node.block b).Brings i name ↔
      (∃ j < i, ∃ s, b.stmts[j]? = some s ∧ name ∈ s.boundAfter) ∨
        ∃ s, b.stmts[i]? = some s ∧ name ∈ s.boundBefore := by
  constructor
  · intro h
    cases h with
    | param hparam => exact absurd hparam List.not_mem_nil
    | before hj hs hdeclared hkind =>
      exact .inl ⟨_, hj, _, hs, Stmt.mem_boundAfter.mpr ⟨_, _, hdeclared, hkind, rfl⟩⟩
    | itself hs hdeclared hkind =>
      exact .inr ⟨_, hs, Stmt.mem_boundBefore.mpr ⟨_, _, hdeclared, hkind, rfl⟩⟩
  · rintro (⟨j, hj, s, hs, hname⟩ | ⟨s, hs, hname⟩)
    · obtain ⟨kind, ident, hdeclared, hkind, rfl⟩ := Stmt.mem_boundAfter.mp hname
      exact .before hj hs hdeclared hkind
    · obtain ⟨kind, ident, hdeclared, hkind, rfl⟩ := Stmt.mem_boundBefore.mp hname
      exact .itself hs hdeclared hkind

/-- A child sees, beyond what its parent sees, what the parent brings for it. -/
theorem Node.mem_binds_iff {n : Node} {i : Nat} {child : Child}
    (hchild : n.children[i]? = some child) {name : String} :
    name ∈ child.binds ↔ n.Brings i name := by
  by_cases hn : ∀ b, n ≠ .block b
  · rw [binds_eq_paramNames hn (List.mem_of_getElem? hchild), brings_iff_of_ne_block hn]
  · obtain ⟨b, rfl⟩ := not_forall_not.mp hn
    have hget : (stmtChildren [] b.stmts)[i]? = some child := hchild
    rw [getElem?_stmtChildren, Option.map_eq_some_iff] at hget
    obtain ⟨s, hs, rfl⟩ := hget
    rw [brings_block, List.append_nil, List.mem_append, or_comm]
    refine or_congr ?_ (by simp [hs])
    rw [List.mem_flatMap]
    constructor
    · rintro ⟨t, ht, hname⟩
      obtain ⟨j, hj⟩ := List.mem_iff_getElem?.mp (List.mem_reverse.mp ht)
      have hlt : j < i := by
        by_contra hge
        rw [List.getElem?_take_eq_none (Nat.le_of_not_lt hge)] at hj
        cases hj
      rw [List.getElem?_take_of_lt hlt] at hj
      exact ⟨j, hlt, t, hj, hname⟩
    · rintro ⟨j, hlt, t, ht, hname⟩
      have hj : (b.stmts.take i)[j]? = some t := by rw [List.getElem?_take_of_lt hlt, ht]
      exact ⟨t, List.mem_reverse.mpr (List.mem_of_getElem? hj), hname⟩

/-! ### The locals at a position -/

/-- A part sees the locals of the whole and those that the parts above it bring. -/
theorem Occurrence.mem_locals_iff {whole part : Occurrence} {position : List Nat}
    (h : whole.part? position = some part) {name : String} :
    name ∈ part.locals ↔ name ∈ whole.locals ∨ ∃ above i below o,
      position = above ++ i :: below ∧ whole.part? above = some o ∧ o.node.Brings i name := by
  induction position generalizing whole with
  | nil =>
    obtain rfl := Option.some.inj h
    refine ⟨.inl, ?_⟩
    rintro (hname | ⟨above, i, below, o, hnil, _⟩)
    · exact hname
    · exact absurd hnil.symm (by simp)
  | cons k rest ih =>
    obtain ⟨next, hnext, hrest⟩ := part?_cons.mp h
    have hget : whole.node.children[k]?.map whole.enter = some next := by
      rw [← List.getElem?_map]
      exact hnext
    obtain ⟨child, hchild, rfl⟩ := Option.map_eq_some_iff.mp hget
    have hlocals : name ∈ (whole.enter child).locals ↔
        whole.node.Brings k name ∨ name ∈ whole.locals := by
      rw [← Node.mem_binds_iff hchild]
      exact List.mem_append
    rw [ih hrest, hlocals]
    -- What is brought on the way down is brought by the whole or somewhere below it.
    constructor
    · rintro ((hbrings | hname) | ⟨above, i, below, o, rfl, ho, hbrings⟩)
      · exact .inr ⟨[], k, rest, whole, rfl, rfl, hbrings⟩
      · exact .inl hname
      · exact .inr ⟨k :: above, i, below, o, rfl, part?_cons.mpr ⟨_, hnext, ho⟩, hbrings⟩
    · rintro (hname | ⟨above, i, below, o, hposition, ho, hbrings⟩)
      · exact .inl (.inr hname)
      · cases above with
        | nil =>
          obtain ⟨rfl, _⟩ := List.cons.inj hposition
          obtain rfl := Option.some.inj ho
          exact .inl (.inl hbrings)
        | cons first above =>
          obtain ⟨rfl, rfl⟩ := List.cons.inj hposition
          obtain ⟨other, hother, ho⟩ := part?_cons.mp ho
          obtain rfl := Option.some.inj (hnext.symm.trans hother)
          exact .inr ⟨above, i, below, o, rfl, ho, hbrings⟩

theorem Occurrence.mem_locals_top {s : Stmt} {part : Occurrence} {position : List Nat}
    (h : (top s).part? position = some part) {name : String} :
    name ∈ part.locals ↔ s.BindsAt position name := by
  rw [mem_locals_iff h]
  exact ⟨fun hname => hname.resolve_left List.not_mem_nil, .inr⟩

/-! ### The names of locals -/

theorem Node.WellNamed.params {n : Node} (h : n.WellNamed) : ParamsNamed n.params := by
  cases n with
  | expr e =>
    cases e with
    | lambda => exact h
    | _ => exact paramsNamed_nil
  | stmt s => cases s <;> exact Stmt.WellNamed.params h
  | member m => cases m <;> exact h.2
  | _ => exact paramsNamed_nil

/-- The locals that a named part brings have names of references. -/
theorem Node.Named.isReference_of_brings {n : Node} (h : n.Named) {i : Nat} {name : String}
    (hbrings : n.Brings i name) : IsReference name := by
  have hstmt {b : Block} (hb : (Node.block b).Named) {j : Nat} {s : Stmt}
      (hs : b.stmts[j]? = some s) : s.WellNamed := by
    obtain ⟨child, hchild, hnode⟩ := exists_mem_stmtChildren [] (List.mem_of_getElem? hs)
    have hnamed := hb.child hchild
    rw [hnode] at hnamed
    exact hnamed.here
  cases hbrings with
  | param hparam => exact h.here.params _ hparam
  | before _ hs hdeclared _ => exact .inl ((hstmt h hs).declared hdeclared)
  | itself hs hdeclared _ => exact .inl ((hstmt h hs).declared hdeclared)

theorem Occurrence.isReference_of_mem_locals {s : Stmt} (h : (Node.stmt s).Named)
    {part : Occurrence} {position : List Nat} (hpart : (top s).part? position = some part) :
    ∀ name ∈ part.locals, IsReference name := by
  intro name hname
  obtain ⟨above, i, _, o, _, ho, hbrings⟩ := (mem_locals_top hpart).mp hname
  have hwithin : (top s).Within o := ⟨above, ho⟩
  have hnamed : o.node.Named := Node.Every.of_within h hwithin
  exact hnamed.isReference_of_brings hbrings

end ScriptCompiler
