import ScriptCompiler.CommandLine.Run
import ScriptCompiler.Ordered

/-!
# Folders in memory

A folder that holds its files as texts. Paths are read part by part, as in a real folder: `.` stays,
`..` goes up, and every part but the last has to name a folder.
-/

namespace ScriptCompiler.CommandLine

/-- The files below a folder by their paths. -/
structure Folder where
  files : List (String × String)
deriving DecidableEq, Repr, Inhabited

namespace Folder

def joinParts (parts : List String) : String :=
  Text.joinWith "/" parts

/-- Do the parts name a folder? A folder exists if a file lies below it, or if it lies above. -/
def isFolder (folder : Folder) (parts : List String) : Bool :=
  parts.all (· == "..") ||
    folder.files.any fun file =>
      let own := file.1.splitOn "/"
      parts.length < own.length && parts.isPrefixOf own

def file? (folder : Folder) (parts : List String) : Option String :=
  folder.files.lookup (joinParts parts)

def step (location : List String) (part : String) : List String :=
  if part = "" ∨ part = "." then location
  else if part = ".." then
    if location.all (· == "..") then location ++ [".."] else location.dropLast
  else location ++ [part]

/-- The parts of the place that a path leads to. Whatever has a part behind it has to be a folder.
    -/
def locate (folder : Folder) (location : List String) : List String → Except FileError (List String)
  | [] => .ok location
  | part :: rest =>
    if folder.isFolder location then locate folder (step location part) rest
    else if (folder.file? location).isSome then .error .notFolder
    else .error .missing

/-- The parts of a relative path; there is nothing to find behind an absolute one. -/
def partsOf (path : String) : Except FileError (List String) :=
  match path.splitOn "/" with
  | "" :: _ => .error .missing
  | parts => .ok parts

def read (folder : Folder) (path : String) : Except FileError String := do
  let location ← folder.locate [] (← partsOf path)
  if folder.isFolder location then .error .isFolder
  else
    match folder.file? location with
    | some text => .ok text
    | none => .error .missing

/-- The folder with a file written. A path that ends with a slash or with dots means a folder. -/
def write (folder : Folder) (path text : String) : Except FileError Folder := do
  let parts ← partsOf path
  let named := if parts.getLast? = some "" then parts.dropLast else parts
  let parent ← folder.locate [] named.dropLast
  let last := named.getLast?.getD ""
  let location ← folder.locate parent [last]
  if parts.getLast? = some "" ∨ last = "." ∨ last = ".." ∨ folder.isFolder location then
    .error .isFolder
  else .ok ⟨Ordered.insert (joinParts location) text folder.files⟩

def access : FileAccess (StateM Folder) where
  read path := do return (← get).read path
  write path text := do
    match (← get).write path text with
    | .ok folder => set folder; return .ok ()
    | .error e => return .error e

/-- The files that `later` holds and `folder` does not hold with the same text. -/
def changes (folder later : Folder) : List (String × String) :=
  later.files.filter fun (path, text) => folder.files.lookup path ≠ some text

end Folder

end ScriptCompiler.CommandLine
