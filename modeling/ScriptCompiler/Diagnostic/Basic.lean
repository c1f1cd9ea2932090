/-!
# Diagnostics

Errors and warnings with the place that they are about. Lines and columns count from one; line zero
means that there is no place in the file, and an empty file name that there is no file.
-/

namespace ScriptCompiler

/-- Errors prevent a result, warnings do not. -/
inductive Severity where
  | error | warning
deriving DecidableEq, Repr, Inhabited

def Severity.text : Severity → String
  | .error => "error"
  | .warning => "warning"

/-- A message about a place in a file. -/
structure Diagnostic where
  severity : Severity
  message : String
  line : Nat
  column : Nat
  file : String
deriving DecidableEq, Repr, Inhabited

namespace Diagnostic

def ofFile (severity : Severity) (message file : String) : Diagnostic :=
  ⟨severity, message, 0, 0, file⟩

def isError (d : Diagnostic) : Bool :=
  d.severity == .error

def hasLocation (d : Diagnostic) : Bool :=
  0 < d.line

def display (d : Diagnostic) : String :=
  if d.hasLocation then
    d.severity.text ++ ": " ++ d.file ++ ":" ++ toString d.line ++ ":" ++ toString d.column ++ ": "
      ++ d.message
  else if d.file = "" then d.severity.text ++ ": " ++ d.message
  else d.severity.text ++ ": " ++ d.file ++ ": " ++ d.message

end Diagnostic

/-- The diagnostics of one compilation: errors and warnings apart, each in the order of arrival. -/
structure Diagnostics where
  errors : List Diagnostic
  warnings : List Diagnostic
deriving DecidableEq, Repr, Inhabited

namespace Diagnostics

def empty : Diagnostics := ⟨[], []⟩

def push (ds : Diagnostics) (d : Diagnostic) : Diagnostics :=
  match d.severity with
  | .error => { ds with errors := ds.errors ++ [d] }
  | .warning => { ds with warnings := ds.warnings ++ [d] }

def ofList (list : List Diagnostic) : Diagnostics :=
  list.foldl push empty

/-- One by one, errors join the errors and warnings the warnings. -/
theorem foldl_push (ds : Diagnostics) (list : List Diagnostic) :
    list.foldl push ds =
      ⟨ds.errors ++ list.filter Diagnostic.isError,
        ds.warnings ++ list.filter fun d => !d.isError⟩ := by
  induction list generalizing ds with
  | nil => simp
  | cons d rest ih =>
    rw [List.foldl_cons, ih]
    cases hd : d.severity with
    | error =>
      have he : d.isError = true := by simp [Diagnostic.isError, hd]
      simp [push, hd, he]
    | warning =>
      have he : d.isError = false := by simp [Diagnostic.isError, hd]
      simp [push, hd, he]

@[simp] theorem errors_ofList (list : List Diagnostic) :
    (ofList list).errors = list.filter Diagnostic.isError := by
  simp [ofList, foldl_push, empty]

@[simp] theorem warnings_ofList (list : List Diagnostic) :
    (ofList list).warnings = list.filter fun d => !d.isError := by
  simp [ofList, foldl_push, empty]

def hasErrors (ds : Diagnostics) : Bool :=
  !ds.errors.isEmpty

def size (ds : Diagnostics) : Nat :=
  ds.errors.length + ds.warnings.length

def isEmpty (ds : Diagnostics) : Bool :=
  ds.size == 0

/-- Errors first, then warnings. -/
def toList (ds : Diagnostics) : List Diagnostic :=
  ds.errors ++ ds.warnings

end Diagnostics

end ScriptCompiler
