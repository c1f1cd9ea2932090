import ScriptCompiler.Link.Graph

/-!
# Dependency order

Files are put behind their dependencies by a depth-first walk. A dependency on a file that the walk
is still inside closes a cycle; the cycle is noted and the dependency has no effect on the order.
-/

namespace ScriptCompiler

/-- What a walk has seen: the files entered, those left in the order of leaving, and the cycles. -/
structure Walk where
  visited : List String
  order : List String
  cycles : List (List String)
deriving DecidableEq, Repr, Inhabited

namespace Graph

/-- The walk from `file`, reached along the files of `path`. Each step enters a file that the path
    does not hold, so that `fuel` need not exceed the number of files. -/
def visit (graph : Graph) : (fuel : Nat) → (path : List String) → (file : String) → Walk → Walk
  | 0, _, _, walk => walk
  | fuel + 1, path, file, walk =>
    let path := path ++ [file]
    let inner := (graph.dependencies file).foldl (fun walk next =>
      if path.contains next then
        { walk with cycles := walk.cycles ++ [path.dropWhile (· ≠ next) ++ [next]] }
      else if walk.visited.contains next then walk
      else visit graph fuel path next walk) { walk with visited := walk.visited ++ [file] }
    { inner with order := inner.order ++ [file] }

/-- The walk over all files. Its `order` has every file behind its dependencies, those apart that
    close a cycle. -/
def order (graph : Graph) : Walk :=
  graph.edges.foldl (fun walk (file, _) =>
    if walk.visited.contains file then walk
    else graph.visit graph.edges.length [] file walk) ⟨[], [], []⟩

end Graph

end ScriptCompiler
