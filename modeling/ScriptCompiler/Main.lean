import ScriptCompiler.CommandLine.Run

/-!
# The program

The command line in a real folder. All decisions are made by `CommandLine.run`.
-/

namespace ScriptCompiler.CommandLine

def fileErrorOf : IO.Error → FileError
  | .noFileOrDirectory .. | .noSuchThing .. => .missing
  | .inappropriateType _ code _ => if code = 20 then .notFolder else .isFolder
  | e => .other (toString e)

def realFiles : FileAccess IO where
  read path := do
    try
      match String.fromUTF8? (← IO.FS.readBinFile path) with
      | some text => return .ok text
      | none => return .error .notText
    catch e => return .error (fileErrorOf e)
  write path text := do
    try
      IO.FS.writeFile path text
      return .ok ()
    catch e => return .error (fileErrorOf e)

end ScriptCompiler.CommandLine

def main (words : List String) : IO UInt32 := do
  let outcome ← ScriptCompiler.CommandLine.run ScriptCompiler.CommandLine.realFiles words
  IO.print outcome.stdout
  IO.eprint outcome.stderr
  return outcome.exit.toUInt32
