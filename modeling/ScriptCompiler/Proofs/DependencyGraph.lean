import Mathlib.Data.List.Nodup
import ScriptCompiler.Link.Graph

/-!
# Dependencies as a relation

The dependency graph of distinct files is simple: files depend on files of the graph, never on
themselves, and name each of their dependencies once.
-/

namespace ScriptCompiler.Graph

def files (graph : Graph) : List String :=
  graph.edges.map Prod.fst

/-- The file `file` depends on `next`. -/
def Edge (graph : Graph) (file next : String) : Prop :=
  next ∈ graph.dependencies file

/-- All dependencies, each as a pair of a file and one that it depends on. -/
def arrows (graph : Graph) : List (String × String) :=
  graph.edges.flatMap fun entry => entry.2.map fun next => (entry.1, next)

/-- The files are distinct, and each depends on other files of the graph, once on each. -/
structure WellFormed (graph : Graph) : Prop where
  nodup : graph.files.Nodup
  simple : ∀ entry ∈ graph.edges, entry.2.Nodup
  closed : ∀ {file next}, graph.Edge file next → next ∈ graph.files
  loopless : ∀ {file next}, graph.Edge file next → next ≠ file

theorem dependencies_of_mem {graph : Graph} (h : graph.files.Nodup) {file : String}
    {nexts : List String} (hmem : (file, nexts) ∈ graph.edges) :
    graph.dependencies file = nexts := by
  rw [dependencies, Ordered.lookup_of_mem h hmem]
  rfl

/-- A file with a dependency is a file of the graph. -/
theorem Edge.entry {graph : Graph} {file next : String} (h : graph.Edge file next) :
    (file, graph.dependencies file) ∈ graph.edges := by
  unfold Edge dependencies at h
  unfold dependencies
  cases hfound : graph.edges.lookup file with
  | none => simp [hfound] at h
  | some nexts => exact Ordered.mem_of_lookup hfound

theorem mem_arrows {graph : Graph} (h : graph.files.Nodup) {file next : String} :
    (file, next) ∈ graph.arrows ↔ graph.Edge file next := by
  simp only [arrows, List.mem_flatMap, List.mem_map]
  constructor
  · rintro ⟨⟨source, nexts⟩, hentry, target, htarget, heq⟩
    obtain ⟨rfl, rfl⟩ := Prod.mk.inj heq
    rw [Edge, dependencies_of_mem h hentry]
    exact htarget
  · intro hedge
    exact ⟨_, hedge.entry, next, hedge, rfl⟩

namespace WellFormed

variable {graph : Graph} (hg : graph.WellFormed)

include hg

theorem nodup_dependencies (file : String) : (graph.dependencies file).Nodup := by
  unfold dependencies
  cases hfound : graph.edges.lookup file with
  | none => exact List.nodup_nil
  | some nexts => exact hg.simple _ (Ordered.mem_of_lookup hfound)

theorem nodup_arrows : graph.arrows.Nodup := by
  refine List.nodup_flatMap.mpr ⟨fun entry hentry => ?_, ?_⟩
  · exact (hg.simple entry hentry).map fun a b hab => (Prod.mk.inj hab).2
  · refine (List.pairwise_map.mp hg.nodup).imp fun {a b} hab => ?_
    intro pair ha hb
    obtain ⟨_, _, rfl⟩ := List.mem_map.mp ha
    obtain ⟨_, _, heq⟩ := List.mem_map.mp hb
    exact hab (Prod.mk.inj heq).1.symm

end WellFormed

theorem mem_providers {files : List ParsedFile} {path name : String}
    (h : (path, name) ∈ providers files) : ∃ file ∈ files, file.name = name := by
  simp only [providers, List.mem_flatMap, List.mem_map] at h
  obtain ⟨file, hfile, _, _, heq⟩ := h
  exact ⟨file, hfile, (Prod.mk.inj heq).2⟩

theorem of_mem_dependenciesOf {files : List ParsedFile} {file : ParsedFile} {next : String}
    (h : next ∈ dependenciesOf files file) :
    next ∈ files.map ParsedFile.name ∧ next ≠ file.name := by
  simp only [dependenciesOf, Ordered.mem_distinct, List.mem_filter, List.mem_filterMap] at h
  obtain ⟨⟨target, _, hlookup⟩, hne⟩ := h
  obtain ⟨provider, hprovider, rfl⟩ := mem_providers (Ordered.mem_of_lookup hlookup)
  exact ⟨List.mem_map_of_mem hprovider, of_decide_eq_true hne⟩

@[simp] theorem files_ofFiles (files : List ParsedFile) :
    (ofFiles files).files = files.map ParsedFile.name := by
  simp [Graph.files, ofFiles, Function.comp_def]

/-- The graph of files with distinct names is simple. -/
theorem ofFiles_wellFormed {files : List ParsedFile} (h : (files.map ParsedFile.name).Nodup) :
    (ofFiles files).WellFormed := by
  have hentry : ∀ {file next}, (ofFiles files).Edge file next →
      next ∈ files.map ParsedFile.name ∧ next ≠ file := by
    intro file next hedge
    obtain ⟨source, _, heq⟩ := List.mem_map.mp hedge.entry
    obtain ⟨rfl, hdeps⟩ := Prod.mk.inj heq
    have hmem : next ∈ dependenciesOf files source := by
      rw [hdeps]
      exact hedge
    exact of_mem_dependenciesOf hmem
  refine ⟨by rwa [files_ofFiles], ?_, fun hedge => ?_, fun hedge => (hentry hedge).2⟩
  · intro entry hmem
    obtain ⟨file, _, rfl⟩ := List.mem_map.mp hmem
    exact Ordered.nodup_distinct _
  · rw [files_ofFiles]
    exact (hentry hedge).1

end ScriptCompiler.Graph
