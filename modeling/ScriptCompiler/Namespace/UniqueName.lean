import ScriptCompiler.Text.Join

/-!
# Unique names

A declaration of a namespace gets a name that joins the path of the namespace and its own name by
underscores. Declarations outside every namespace keep their name.
-/

namespace ScriptCompiler

/-- The name in the script of `name` declared in `path`: `app::core` and `f` give `app_core_f`. The
    mark of a main namespace does not count. -/
def uniqueName (path name : String) : String :=
  match Text.trimEndOf '!' path.toList with
  | [] => name
  | clean => String.ofList (Text.replacePair ['_'] clean) ++ "_" ++ name

/-- The namespace and the name of a qualified name, which are parted by its last `::`. -/
def splitQualified (name : String) : Option (String × String) :=
  (Text.splitLastPair name.toList).map fun (path, last) => (String.ofList path, String.ofList last)

end ScriptCompiler
