import Mathlib.Data.List.Chain
import Mathlib.Data.List.Perm.Subperm
import Mathlib.Logic.Relation
import ScriptCompiler.Link.Order
import ScriptCompiler.Proofs.DependencyGraph

/-!
# The depth-first walk

The walk enters a file, follows its dependencies and leaves it. At each moment the files entered are
those left and those on the path; together they stand in the order in which they will be left. Each
dependency of a file that was left leads to a file left earlier or has a cycle noted for it, and the
files of such a dependency are left in the opposite order.
-/

namespace ScriptCompiler

open scoped List

/-- The dependency that a cycle is noted for: the last step of its path. -/
def closingEdge (cycle : List String) : String × String :=
  (cycle.dropLast.getLastD "", cycle.getLastD "")

/-- A path along dependencies that ends where it starts and has no other repetition. -/
structure Graph.IsCycle (graph : Graph) (cycle : List String) : Prop where
  closed : cycle.head? = cycle.getLast?
  long : 2 ≤ cycle.length
  distinct : cycle.dropLast.Nodup
  linked : cycle.IsChain graph.Edge

/-- In a list without repetitions, pairs of the list stand in the order of their places. -/
theorem idxOf_lt_of_pair {l : List String} (h : l.Nodup) {a b : String} (hab : [a, b].Sublist l) :
    l.idxOf a < l.idxOf b := by
  have hplaces : l.Pairwise fun x y => l.idxOf x < l.idxOf y := by
    refine List.pairwise_iff_getElem.mpr fun i j hi hj hij => ?_
    rw [h.idxOf_getElem i hi, h.idxOf_getElem j hj]
    exact hij
  exact List.pairwise_iff_forall_sublist.mp hplaces hab

namespace Walk

/-- The dependencies that cycles were noted for. -/
def closings (walk : Walk) : List (String × String) :=
  walk.cycles.map closingEdge

/-- What holds while the walk is inside the files of `path`. -/
structure Sound (graph : Graph) (path : List String) (walk : Walk) : Prop where
  nodup : walk.visited.Nodup
  known : ∀ file ∈ walk.visited, file ∈ graph.files
  entered : walk.visited.Perm (walk.order ++ path.reverse)
  linked : path.IsChain graph.Edge
  cyclic : ∀ cycle ∈ walk.cycles, graph.IsCycle cycle
  settled : ∀ {file next}, file ∈ walk.order → graph.Edge file next →
    [next, file].Sublist walk.order ∨ (file, next) ∈ walk.closings
  pending : ∀ {file next}, (file, next) ∈ walk.closings →
    graph.Edge file next ∧ [file, next].Sublist (walk.order ++ path.reverse)
  once : walk.closings.Nodup

/-- The walk `new` goes on from `old` and notes cycles only for files that it has entered itself. -/
structure Extends (old new : Walk) : Prop where
  visited : ∀ file ∈ old.visited, file ∈ new.visited
  order : ∀ file ∈ old.order, file ∈ new.order
  closings : ∀ edge ∈ old.closings, edge ∈ new.closings
  frame : ∀ {file next}, file ∈ old.visited → (file, next) ∈ new.closings →
    (file, next) ∈ old.closings

namespace Extends

theorem refl (walk : Walk) : Extends walk walk :=
  ⟨fun _ h => h, fun _ h => h, fun _ h => h, fun _ h => h⟩

theorem trans {first second third : Walk} (h : Extends first second) (h' : Extends second third) :
    Extends first third where
  visited file hfile := h'.visited file (h.visited file hfile)
  order file hfile := h'.order file (h.order file hfile)
  closings edge hedge := h'.closings edge (h.closings edge hedge)
  frame hfile hedge := h.frame hfile (h'.frame (h.visited _ hfile) hedge)

end Extends

namespace Sound

variable {graph : Graph} {path : List String} {walk : Walk} {file : String}

theorem nodup_leaving (h : Sound graph path walk) : (walk.order ++ path.reverse).Nodup :=
  h.entered.nodup_iff.mp h.nodup

theorem mem_visited (h : Sound graph path walk) {file : String} :
    file ∈ walk.visited ↔ file ∈ walk.order ∨ file ∈ path := by
  rw [h.entered.mem_iff, List.mem_append, List.mem_reverse]

theorem path_length_le (h : Sound graph path walk) : path.length ≤ graph.edges.length := by
  have hsub : path ⊆ graph.files := fun file hfile => h.known file (h.mem_visited.mpr (.inr hfile))
  have hnodup : path.Nodup := List.nodup_reverse.mp (List.nodup_append.mp h.nodup_leaving).2.1
  have hle := (List.subperm_of_subset hnodup hsub).length_le
  rwa [Graph.files, List.length_map] at hle

theorem enter (h : Sound graph path walk) (hfile : file ∈ graph.files)
    (hnew : file ∉ walk.visited) (hpath : (path ++ [file]).IsChain graph.Edge) :
    Sound graph (path ++ [file]) { walk with visited := walk.visited ++ [file] } := by
  have hmore : (walk.order ++ path.reverse).Sublist (walk.order ++ (path ++ [file]).reverse) := by
    rw [List.reverse_append, List.reverse_singleton]
    exact (List.Sublist.refl _).append (List.sublist_append_right [file] path.reverse)
  refine ⟨?_, ?_, ?_, hpath, h.cyclic, h.settled, ?_, h.once⟩
  · exact List.nodup_append.mpr ⟨h.nodup, List.nodup_singleton _, fun a ha b hb hab =>
      hnew (List.mem_singleton.mp hb ▸ hab ▸ ha)⟩
  · intro other hother
    rcases List.mem_append.mp hother with hother | hother
    · exact h.known other hother
    · rwa [List.mem_singleton.mp hother]
  · -- the new file is left before those that the path holds already
    rw [List.reverse_append, List.reverse_singleton]
    calc
      walk.visited ++ [file]
      _ ~ (walk.order ++ path.reverse) ++ [file] := h.entered.append_right [file]
      _ = walk.order ++ (path.reverse ++ [file]) := List.append_assoc _ _ _
      _ ~ walk.order ++ ([file] ++ path.reverse) := List.perm_append_comm.append_left walk.order
  · intro source next hedge
    obtain ⟨hdep, hsub⟩ := h.pending hedge
    exact ⟨hdep, hsub.trans hmore⟩

/-- The cycle that a dependency on a file of the path closes. -/
theorem dropWhile_of_mem {path : List String} {next : String} (h : next ∈ path) :
    ∃ before inner, path = before ++ next :: inner ∧
      path.dropWhile (· ≠ next) = next :: inner := by
  obtain ⟨before, inner, rfl, hbefore⟩ := List.eq_append_cons_of_mem h
  refine ⟨before, inner, rfl, ?_⟩
  have hskip : ∀ a ∈ before, decide (a ≠ next) = true := fun a ha =>
    decide_eq_true fun heq => hbefore (heq ▸ ha)
  rw [List.dropWhile_append_of_pos hskip]
  simp

/-- The walk notes a cycle for a dependency on a file that it is inside. -/
theorem close (h : Sound graph (path ++ [file]) walk) {next : String} (hedge : graph.Edge file next)
    (hne : next ≠ file) (hnext : next ∈ path ++ [file]) (hnew : (file, next) ∉ walk.closings) :
    Sound graph (path ++ [file])
        { walk with cycles := walk.cycles ++ [(path ++ [file]).dropWhile (· ≠ next) ++ [next]] } ∧
      closingEdge ((path ++ [file]).dropWhile (· ≠ next) ++ [next]) = (file, next) := by
  obtain ⟨before, inner, hpath, hcycle⟩ := dropWhile_of_mem hnext
  have hsuffix : next :: inner <:+ path ++ [file] := ⟨before, hpath.symm⟩
  have hlast : (next :: inner).getLast? = some file := by
    have hwhole : (before ++ next :: inner).getLast? = some file := by
      rw [← hpath, List.getLast?_concat]
    rwa [List.getLast?_append_of_ne_nil _ (List.cons_ne_nil _ _)] at hwhole
  have hclosing : closingEdge ((path ++ [file]).dropWhile (· ≠ next) ++ [next]) = (file, next) := by
    rw [hcycle, closingEdge, List.dropLast_concat, List.getLastD_concat,
      List.getLastD_eq_getLast?, hlast]
    rfl
  have hnodup : (path ++ [file]).Nodup :=
    List.nodup_reverse.mp (List.nodup_append.mp h.nodup_leaving).2.1
  have hisCycle : graph.IsCycle ((path ++ [file]).dropWhile (· ≠ next) ++ [next]) := by
    rw [hcycle]
    refine ⟨?_, by simp, ?_, ?_⟩
    · rw [List.getLast?_concat]
      rfl
    · rw [List.dropLast_concat]
      exact hnodup.sublist hsuffix.sublist
    · refine (h.linked.suffix hsuffix).append (List.isChain_singleton next) ?_
      intro a ha b hb
      rw [hlast] at ha
      obtain rfl := Option.mem_some_iff.mp ha
      obtain rfl := Option.mem_some_iff.mp hb
      exact hedge
  have hmore : Walk.closings { walk with
      cycles := walk.cycles ++ [(path ++ [file]).dropWhile (· ≠ next) ++ [next]] } =
      walk.closings ++ [(file, next)] := by
    simp only [Walk.closings, List.map_append, List.map_cons, List.map_nil, hclosing]
  refine ⟨⟨h.nodup, h.known, h.entered, h.linked, ?_, ?_, ?_, ?_⟩, hclosing⟩
  · intro cycle hmem
    rcases List.mem_append.mp hmem with hmem | hmem
    · exact h.cyclic cycle hmem
    · rw [List.mem_singleton.mp hmem]
      exact hisCycle
  · intro source target hsource hdep
    rw [hmore]
    exact (h.settled hsource hdep).imp id (List.mem_append_left _)
  · intro source target hmem
    rw [hmore] at hmem
    rcases List.mem_append.mp hmem with hmem | hmem
    · exact h.pending hmem
    · obtain ⟨rfl, rfl⟩ := Prod.mk.inj (List.mem_singleton.mp hmem)
      refine ⟨hedge, ?_⟩
      -- the file is the first one that the path will leave
      have hpath' : target ∈ path := by
        rcases List.mem_append.mp hnext with hin | hin
        · exact hin
        · exact absurd (List.mem_singleton.mp hin) hne
      rw [List.reverse_append, List.reverse_singleton]
      refine List.Sublist.trans ?_ (List.sublist_append_right _ _)
      exact List.Sublist.cons_cons _ (List.singleton_sublist.mpr (List.mem_reverse.mpr hpath'))
  · rw [hmore]
    exact List.nodup_append.mpr ⟨h.once, List.nodup_singleton _, fun a ha b hb hab =>
      hnew (List.mem_singleton.mp hb ▸ hab ▸ ha)⟩

/-- The walk leaves a file when all its dependencies are settled. -/
theorem leave (h : Sound graph (path ++ [file]) walk)
    (hdone : ∀ {next}, graph.Edge file next → next ∈ walk.order ∨ (file, next) ∈ walk.closings) :
    Sound graph path { walk with order := walk.order ++ [file] } := by
  -- leaving the last file of the path does not change the order in which files are left
  have hsame : walk.order ++ (path ++ [file]).reverse = walk.order ++ [file] ++ path.reverse := by
    rw [List.reverse_append, List.reverse_singleton, List.append_assoc]
  have hentered := h.entered
  rw [hsame] at hentered
  refine ⟨h.nodup, h.known, hentered, (List.isChain_append.mp h.linked).1, h.cyclic, ?_, ?_, h.once⟩
  · intro source next hsource hdep
    rcases List.mem_append.mp hsource with hsource | hsource
    · refine (h.settled hsource hdep).imp (fun hsub => ?_) id
      exact hsub.trans (List.sublist_append_left _ _)
    · obtain rfl := List.mem_singleton.mp hsource
      refine (hdone hdep).imp (fun hnext => ?_) id
      exact (List.singleton_sublist.mpr hnext).append (List.Sublist.refl [source])
  · intro source next hmem
    obtain ⟨hdep, hsub⟩ := h.pending hmem
    rw [hsame] at hsub
    exact ⟨hdep, hsub⟩

end Sound

end Walk

namespace Graph

open Walk

/-- What the walk does with one dependency of the last file of `path`. -/
def follow (graph : Graph) (fuel : Nat) (path : List String) (walk : Walk) (next : String) : Walk :=
  if path.contains next then
    { walk with cycles := walk.cycles ++ [path.dropWhile (· ≠ next) ++ [next]] }
  else if walk.visited.contains next then walk
  else graph.visit fuel path next walk

theorem visit_succ (graph : Graph) (fuel : Nat) (path : List String) (file : String) (walk : Walk) :
    graph.visit (fuel + 1) path file walk =
      let inner := (graph.dependencies file).foldl (graph.follow fuel (path ++ [file]))
        { walk with visited := walk.visited ++ [file] }
      { inner with order := inner.order ++ [file] } :=
  rfl

/-- What the walk from `file` achieves, if enough fuel is left for the files not on the path. -/
def VisitSound (graph : Graph) (fuel : Nat) : Prop :=
  ∀ {path file walk}, Sound graph path walk → file ∈ graph.files → file ∉ walk.visited →
    (path ++ [file]).IsChain graph.Edge → graph.edges.length ≤ path.length + fuel →
    Sound graph path (graph.visit fuel path file walk) ∧
      Extends walk (graph.visit fuel path file walk) ∧
      file ∈ (graph.visit fuel path file walk).order

/-- While the dependencies of `file` are followed, those followed are settled and all cycles noted
    for `file` belong to them. -/
structure Following (graph : Graph) (path : List String) (file : String) (start : Walk)
    (followed : List String) (walk : Walk) : Prop where
  sound : Sound graph (path ++ [file]) walk
  grows : Extends start walk
  inside : file ∈ walk.visited
  settled : ∀ next ∈ followed, next ∈ walk.order ∨ (file, next) ∈ walk.closings
  noted : ∀ {next}, (file, next) ∈ walk.closings → next ∈ followed

theorem Following.step {graph : Graph} (hg : graph.WellFormed) {fuel : Nat}
    (ih : graph.VisitSound fuel) {path : List String} {file : String} {start walk : Walk}
    {followed : List String} (h : Following graph path file start followed walk)
    (hstart : file ∉ start.visited) (hfuel : graph.edges.length ≤ path.length + 1 + fuel)
    {next : String} (hedge : graph.Edge file next) (hfresh : next ∉ followed) :
    Following graph path file start (followed ++ [next])
      (graph.follow fuel (path ++ [file]) walk next) := by
  unfold follow
  split
  · -- the dependency leads back into the path
    rename_i hnext
    have hmem : next ∈ path ++ [file] := List.contains_iff_mem.mp hnext
    have hnew : (file, next) ∉ walk.closings := fun hin => hfresh (h.noted hin)
    obtain ⟨hsound, hclosing⟩ := h.sound.close hedge (hg.loopless hedge) hmem hnew
    have hmore : ∀ {edge}, edge ∈ Walk.closings { walk with
        cycles := walk.cycles ++ [(path ++ [file]).dropWhile (· ≠ next) ++ [next]] } ↔
        edge ∈ walk.closings ∨ edge = (file, next) := by
      intro edge
      simp only [Walk.closings, List.map_append, List.map_cons, List.map_nil, hclosing,
        List.mem_append, List.mem_singleton]
    refine ⟨hsound, ⟨h.grows.visited, h.grows.order, ?_, ?_⟩, h.inside, ?_, ?_⟩
    · intro edge hin
      exact hmore.mpr (.inl (h.grows.closings edge hin))
    · intro source target hsource hin
      rcases hmore.mp hin with hin | heq
      · exact h.grows.frame hsource hin
      · exact absurd ((Prod.mk.inj heq).1 ▸ hsource) hstart
    · intro other hother
      rcases List.mem_append.mp hother with hother | hother
      · exact (h.settled other hother).imp id fun hin => hmore.mpr (.inl hin)
      · rw [List.mem_singleton.mp hother]
        exact .inr (hmore.mpr (.inr rfl))
    · intro other hin
      rcases hmore.mp hin with hin | heq
      · exact List.mem_append_left _ (h.noted hin)
      · rw [(Prod.mk.inj heq).2]
        exact List.mem_append_right _ List.mem_cons_self
  · rename_i hnext
    have hpath : next ∉ path ++ [file] := fun hin => hnext (List.contains_iff_mem.mpr hin)
    split
    · -- the dependency was left before
      rename_i hseen
      have hleft : next ∈ walk.order :=
        (h.sound.mem_visited.mp (List.contains_iff_mem.mp hseen)).resolve_right hpath
      refine ⟨h.sound, h.grows, h.inside, ?_, fun hin => List.mem_append_left _ (h.noted hin)⟩
      intro other hother
      rcases List.mem_append.mp hother with hother | hother
      · exact h.settled other hother
      · rw [List.mem_singleton.mp hother]
        exact .inl hleft
    · -- the dependency is entered for the first time
      rename_i hseen
      have hnew : next ∉ walk.visited := fun hin => hseen (List.contains_iff_mem.mpr hin)
      have hchain : (path ++ [file] ++ [next]).IsChain graph.Edge := by
        refine h.sound.linked.append (List.isChain_singleton next) ?_
        intro a ha b hb
        rw [List.getLast?_concat] at ha
        obtain rfl := Option.mem_some_iff.mp ha
        obtain rfl := Option.mem_some_iff.mp hb
        exact hedge
      have hlength : graph.edges.length ≤ (path ++ [file]).length + fuel := by
        rw [List.length_append, List.length_singleton]
        exact hfuel
      obtain ⟨hsound, hgrows, hleft⟩ := ih h.sound (hg.closed hedge) hnew hchain hlength
      refine ⟨hsound, h.grows.trans hgrows, hgrows.visited file h.inside, ?_, ?_⟩
      · intro other hother
        rcases List.mem_append.mp hother with hother | hother
        · exact (h.settled other hother).imp (hgrows.order other) (hgrows.closings _)
        · rw [List.mem_singleton.mp hother]
          exact .inl hleft
      · intro other hin
        exact List.mem_append_left _ (h.noted (hgrows.frame h.inside hin))

theorem Following.all {graph : Graph} (hg : graph.WellFormed) {fuel : Nat}
    (ih : graph.VisitSound fuel) {path : List String} {file : String} {start walk : Walk}
    {followed nexts : List String} (h : Following graph path file start followed walk)
    (hstart : file ∉ start.visited) (hfuel : graph.edges.length ≤ path.length + 1 + fuel)
    (hnexts : ∀ next ∈ nexts, graph.Edge file next) (hnodup : (followed ++ nexts).Nodup) :
    Following graph path file start (followed ++ nexts)
      (nexts.foldl (graph.follow fuel (path ++ [file])) walk) := by
  induction nexts generalizing followed walk with
  | nil => simpa using h
  | cons next rest ihrest =>
    have hsplit : followed ++ next :: rest = followed ++ [next] ++ rest := by simp
    have hfresh : next ∉ followed := fun hin =>
      (List.nodup_append.mp hnodup).2.2 next hin next List.mem_cons_self rfl
    have hstep := h.step hg ih hstart hfuel (hnexts next List.mem_cons_self) hfresh
    rw [hsplit] at hnodup ⊢
    exact ihrest hstep (fun other hother => hnexts other (List.mem_cons_of_mem _ hother)) hnodup

/-- The walk from a file keeps the invariant and leaves the file. -/
theorem visit_sound {graph : Graph} (hg : graph.WellFormed) (fuel : Nat) :
    graph.VisitSound fuel := by
  induction fuel with
  | zero =>
    -- without fuel the path would hold all files, and the new one besides
    intro path file walk h hfile hnew hpath hfuel
    have hlong := (h.enter hfile hnew hpath).path_length_le
    rw [List.length_append, List.length_singleton] at hlong
    omega
  | succ fuel ih =>
    intro path file walk h hfile hnew hpath hfuel
    have hstart : Following graph path file walk []
        { walk with visited := walk.visited ++ [file] } := by
      refine ⟨h.enter hfile hnew hpath, ⟨fun other hin => List.mem_append_left _ hin,
        fun _ hin => hin, fun _ hin => hin, fun _ hin => hin⟩,
        List.mem_append_right _ List.mem_cons_self, by simp, ?_⟩
      intro next hin
      -- a cycle for the file would mean that it was entered before
      have hpair := (h.pending hin).2.subset List.mem_cons_self
      exact absurd (h.entered.mem_iff.mpr hpair) hnew
    have hall := hstart.all hg ih hnew (by omega) (fun next hin => hin)
      (by simpa using hg.nodup_dependencies file)
    rw [List.nil_append] at hall
    rw [visit_succ]
    refine ⟨hall.sound.leave fun {next} hedge => hall.settled next hedge, ?_, by simp⟩
    exact ⟨hall.grows.visited, fun other hin => List.mem_append_left _ (hall.grows.order other hin),
      hall.grows.closings, hall.grows.frame⟩

/-- The walk from a file, unless it was entered before. -/
def visitNew (graph : Graph) (walk : Walk) (file : String) : Walk :=
  if walk.visited.contains file then walk else graph.visit graph.edges.length [] file walk

theorem order_eq_foldl (graph : Graph) :
    graph.order = graph.files.foldl graph.visitNew ⟨[], [], []⟩ := by
  rw [files, List.foldl_map]
  rfl

theorem visitNew_sound {graph : Graph} (hg : graph.WellFormed) {walk : Walk} {file : String}
    (h : Sound graph [] walk) (hfile : file ∈ graph.files) :
    Sound graph [] (graph.visitNew walk file) ∧ Extends walk (graph.visitNew walk file) ∧
      file ∈ (graph.visitNew walk file).visited := by
  unfold visitNew
  split
  · rename_i hseen
    exact ⟨h, Extends.refl walk, List.contains_iff_mem.mp hseen⟩
  · rename_i hseen
    have hnew : file ∉ walk.visited := fun hin => hseen (List.contains_iff_mem.mpr hin)
    obtain ⟨hsound, hgrows, hleft⟩ := visit_sound hg graph.edges.length h hfile hnew
      (List.isChain_singleton file) (by simp)
    exact ⟨hsound, hgrows, hsound.mem_visited.mpr (.inl hleft)⟩

theorem foldl_visitNew_sound {graph : Graph} (hg : graph.WellFormed) {names : List String}
    {walk : Walk} (h : Sound graph [] walk) (hnames : ∀ file ∈ names, file ∈ graph.files) :
    Sound graph [] (names.foldl graph.visitNew walk) ∧
      Extends walk (names.foldl graph.visitNew walk) ∧
      ∀ file ∈ names, file ∈ (names.foldl graph.visitNew walk).visited := by
  induction names generalizing walk with
  | nil => exact ⟨h, Extends.refl walk, by simp⟩
  | cons name rest ih =>
    obtain ⟨hsound, hgrows, hseen⟩ := visitNew_sound hg h (hnames name List.mem_cons_self)
    obtain ⟨hsound', hgrows', hrest⟩ :=
      ih hsound fun file hfile => hnames file (List.mem_cons_of_mem _ hfile)
    refine ⟨hsound', hgrows.trans hgrows', fun file hfile => ?_⟩
    rcases List.mem_cons.mp hfile with rfl | hfile
    · exact hgrows'.visited file hseen
    · exact hrest file hfile

/-- The walk over all files ends outside every path and has left each file once. -/
theorem order_sound {graph : Graph} (hg : graph.WellFormed) :
    Sound graph [] graph.order ∧ graph.order.order ~ graph.files := by
  have hstart : Sound graph [] ⟨[], [], []⟩ :=
    ⟨List.nodup_nil, by simp, List.Perm.refl _, List.isChain_nil, by simp, by simp,
      fun hin => absurd hin List.not_mem_nil, List.nodup_nil⟩
  obtain ⟨hsound, _, hall⟩ := foldl_visitNew_sound hg hstart fun _ hfile => hfile
  rw [← order_eq_foldl] at hsound hall
  refine ⟨hsound, ?_⟩
  have hentered : graph.order.visited ~ graph.order.order := by
    simpa using hsound.entered
  refine hentered.symm.trans ((List.perm_ext_iff_of_nodup hsound.nodup hg.nodup).mpr fun file => ?_)
  exact ⟨hsound.known file, hall file⟩

theorem closingEdge_append (before : List String) (file next : String) :
    closingEdge (before ++ [file, next]) = (file, next) := by
  have hsplit : before ++ [file, next] = (before ++ [file]) ++ [next] := by simp
  rw [hsplit, closingEdge, List.dropLast_concat, List.getLastD_concat, List.getLastD_concat]

/-- A cycle ends with the dependency that it was noted for. -/
theorem IsCycle.eq_append {graph : Graph} {cycle : List String} (h : graph.IsCycle cycle) :
    ∃ before, cycle = before ++ [(closingEdge cycle).1, (closingEdge cycle).2] := by
  have hlong := h.long
  obtain ⟨front, next, rfl⟩ : ∃ front next, cycle = front ++ [next] :=
    ⟨_, _, (List.dropLast_append_getLast (by rintro rfl; simp at hlong)).symm⟩
  obtain ⟨before, file, rfl⟩ : ∃ before file, front = before ++ [file] :=
    ⟨_, _, (List.dropLast_append_getLast (by rintro rfl; simp at hlong)).symm⟩
  refine ⟨before, ?_⟩
  rw [List.append_assoc, List.singleton_append, closingEdge_append]

/-- A dependency has a cycle noted for it just if some cycle starts at its end and finishes with it. -/
theorem mem_closings_iff {graph : Graph} {walk : Walk}
    (h : ∀ cycle ∈ walk.cycles, graph.IsCycle cycle) {file next : String} :
    (file, next) ∈ walk.closings ↔
      ∃ cycle ∈ walk.cycles, cycle.head? = some next ∧ [file, next] <:+ cycle := by
  simp only [Walk.closings, List.mem_map]
  constructor
  · rintro ⟨cycle, hmem, hclosing⟩
    obtain ⟨before, hcycle⟩ := (h cycle hmem).eq_append
    rw [hclosing] at hcycle
    refine ⟨cycle, hmem, ?_, before, hcycle.symm⟩
    rw [(h cycle hmem).closed, hcycle]
    simp
  · rintro ⟨cycle, hmem, _, before, rfl⟩
    exact ⟨_, hmem, closingEdge_append before file next⟩

/-- A cycle leads from each of its ends back to it. -/
theorem IsCycle.transGen {graph : Graph} {cycle : List String} (h : graph.IsCycle cycle) :
    ∃ file, Relation.TransGen graph.Edge file file := by
  obtain ⟨before, hcycle⟩ := h.eq_append
  have hclosed := h.closed
  have hlinked := h.linked
  rw [hcycle] at hclosed hlinked
  generalize (closingEdge cycle).1 = file at hclosed hlinked
  generalize (closingEdge cycle).2 = next at hclosed hlinked
  have hlast : graph.Edge file next := by
    have hpair := hlinked.suffix ⟨before, rfl⟩
    exact (List.isChain_cons_cons.mp hpair).1
  have hhead : (before ++ [file, next]).head? = some next := by
    rw [hclosed, List.getLast?_append_of_ne_nil _ (List.cons_ne_nil _ _)]
    rfl
  refine ⟨next, ?_⟩
  cases before with
  | nil =>
    have hsame : file = next := Option.some.inj hhead
    subst hsame
    exact .single hlast
  | cons first rest =>
    have hfirst : first = next := Option.some.inj hhead
    subst hfirst
    have hway : (first :: (rest ++ [file])).IsChain graph.Edge := by
      have hsplit : first :: rest ++ [file, first] = first :: (rest ++ [file]) ++ [first] := by simp
      rw [hsplit] at hlinked
      exact (List.isChain_append.mp hlinked).1
    have hreach : Relation.ReflTransGen graph.Edge first file :=
      List.relationReflTransGen_of_exists_isChain_cons _ hway (by simp)
    exact Relation.TransGen.tail' hreach hlast

section Final

variable {graph : Graph} (hg : graph.WellFormed) {file next : String}

include hg

theorem nodup_order : graph.order.order.Nodup :=
  (order_sound hg).2.nodup_iff.mpr hg.nodup

/-- A cycle is noted for a dependency on a file that is left later. -/
theorem idxOf_lt_of_mem_closings (h : (file, next) ∈ graph.order.closings) :
    graph.order.order.idxOf file < graph.order.order.idxOf next := by
  have hpair := ((order_sound hg).1.pending h).2
  rw [List.reverse_nil, List.append_nil] at hpair
  exact idxOf_lt_of_pair (nodup_order hg) hpair

/-- A dependency on a file that is left earlier has no cycle noted for it, and every other has. -/
theorem idxOf_lt_iff_notMem_closings (h : graph.Edge file next) :
    graph.order.order.idxOf next < graph.order.order.idxOf file ↔
      (file, next) ∉ graph.order.closings := by
  constructor
  · intro hlt hin
    have hgt := idxOf_lt_of_mem_closings hg hin
    omega
  · intro hnot
    have hfile : file ∈ graph.order.order :=
      (order_sound hg).2.mem_iff.mpr (List.mem_map_of_mem h.entry)
    have hpair := ((order_sound hg).1.settled hfile h).resolve_right hnot
    exact idxOf_lt_of_pair (nodup_order hg) hpair

/-- As many cycles are noted as there are dependencies on files that are not left earlier. -/
theorem length_cycles :
    graph.order.cycles.length = (graph.arrows.filter fun (file, next) =>
      ¬ graph.order.order.idxOf next < graph.order.order.idxOf file).length := by
  have hperm : graph.order.closings ~ graph.arrows.filter fun (file, next) =>
      ¬ graph.order.order.idxOf next < graph.order.order.idxOf file := by
    refine (List.perm_ext_iff_of_nodup (order_sound hg).1.once
      (hg.nodup_arrows.filter _)).mpr fun edge => ?_
    obtain ⟨file, next⟩ := edge
    rw [List.mem_filter, mem_arrows hg.nodup, decide_eq_true_iff]
    constructor
    · intro hin
      have hedge := ((order_sound hg).1.pending hin).1
      exact ⟨hedge, fun hlt => (idxOf_lt_iff_notMem_closings hg hedge).mp hlt hin⟩
    · rintro ⟨hedge, hlt⟩
      rw [idxOf_lt_iff_notMem_closings hg hedge, not_not] at hlt
      exact hlt
  rw [← hperm.length_eq, Walk.closings, List.length_map]

/-- Without cycles a file comes behind all that it depends on, be it through others. -/
theorem idxOf_lt_of_transGen (hnone : graph.order.cycles = [])
    (h : Relation.TransGen graph.Edge file next) :
    graph.order.order.idxOf next < graph.order.order.idxOf file := by
  have hclosings : graph.order.closings = [] := by rw [Walk.closings, hnone, List.map_nil]
  have hstep : ∀ {a b}, graph.Edge a b →
      graph.order.order.idxOf b < graph.order.order.idxOf a := fun hab =>
    (idxOf_lt_iff_notMem_closings hg hab).mpr (by simp [hclosings])
  induction h with
  | single h => exact hstep h
  | tail _ h ih => exact lt_trans (hstep h) ih

/-- No cycle is noted just if no file depends on itself through others. -/
theorem cycles_eq_nil_iff :
    graph.order.cycles = [] ↔ ¬ ∃ file, Relation.TransGen graph.Edge file file := by
  constructor
  · rintro hnone ⟨file, hcycle⟩
    exact lt_irrefl _ (idxOf_lt_of_transGen hg hnone hcycle)
  · intro hacyclic
    refine List.eq_nil_iff_forall_not_mem.mpr fun cycle hmem => hacyclic ?_
    exact ((order_sound hg).1.cyclic cycle hmem).transGen

end Final

/-- What a walk over the files `names` tells about their dependencies. Every file is left once. A
    dependency leads to a file that is left earlier, or else a cycle is noted that starts at its end
    and finishes with it. What is noted are cycles, as many as there are dependencies on files that
    are not left earlier, and none just if no file depends on itself through others. -/
structure Arranged (graph : Graph) (names : List String) (walk : Walk) : Prop where
  complete : walk.order ~ names
  edges : ∀ file next, graph.Edge file next →
    Xor (walk.order.idxOf next < walk.order.idxOf file)
      (∃ cycle ∈ walk.cycles, cycle.head? = some next ∧ [file, next] <:+ cycle)
  cycles : ∀ cycle ∈ walk.cycles, graph.IsCycle cycle
  count : walk.cycles.length = (graph.arrows.filter fun (file, next) =>
    ¬ walk.order.idxOf next < walk.order.idxOf file).length
  acyclic : walk.cycles = [] ↔ ¬ ∃ file, Relation.TransGen graph.Edge file file

/-- The walk over distinct files puts each behind its dependencies as far as there are no cycles. -/
theorem order_ofFiles_arranged (files : List ParsedFile) (h : (files.map ParsedFile.name).Nodup) :
    (ofFiles files).Arranged (files.map ParsedFile.name) (ofFiles files).order := by
  have hg := ofFiles_wellFormed h
  obtain ⟨hsound, hperm⟩ := order_sound hg
  rw [files_ofFiles] at hperm
  refine ⟨hperm, fun file next hedge => ?_, hsound.cyclic, length_cycles hg, cycles_eq_nil_iff hg⟩
  rw [idxOf_lt_iff_notMem_closings hg hedge, ← mem_closings_iff hsound.cyclic]
  by_cases hin : (file, next) ∈ (ofFiles files).order.closings
  · exact .inr ⟨hin, fun hnot => hnot hin⟩
  · exact .inl ⟨hin, hin⟩

/-- A file that declares the namespace `path` and imports others. -/
def sampleFile (name path : String) (imports : List String) : ParsedFile :=
  ⟨name, ⟨.namespaceDecl .zero ⟨[⟨path, .zero⟩], true⟩ ::
    imports.map fun target => .usingDecl .zero ⟨[⟨target, .zero⟩], false⟩⟩⟩

/-- Three files of which the first two depend on each other, and both on the third. -/
def sampleFiles : List ParsedFile :=
  [sampleFile "a.tn" "a" ["b", "c"], sampleFile "b.tn" "b" ["c", "a"], sampleFile "c.tn" "c" []]

/-- The two files that depend on each other make one cycle, which does not keep the third one from
    coming first. -/
theorem order_sampleFiles :
    (sampleFiles.map ParsedFile.name).Nodup ∧
    (ofFiles sampleFiles).Arranged ["a.tn", "b.tn", "c.tn"]
      ⟨["a.tn", "b.tn", "c.tn"], ["c.tn", "b.tn", "a.tn"], [["a.tn", "b.tn", "a.tn"]]⟩ :=
  ⟨by decide, order_ofFiles_arranged sampleFiles (by decide)⟩

end Graph

end ScriptCompiler
