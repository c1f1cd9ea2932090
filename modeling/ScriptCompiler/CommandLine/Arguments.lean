import ScriptCompiler.Compile

/-!
# Arguments of the command line

The words of a command line are read as items: options, flags and operands. Options stand before the
command or after it; each level has its own. Whatever does not fit is a usage error.
-/

namespace ScriptCompiler.CommandLine

/-- The options and flags of the command line. -/
inductive OptionName where
  | verbose | quiet | version | mode | format | memberCalls | output | optimize | debug | sourceMap
  | json
deriving DecidableEq, Repr, Inhabited

namespace OptionName

def all : List OptionName :=
  [.verbose, .quiet, .version, .mode, .format, .memberCalls, .output, .optimize, .debug, .sourceMap,
    .json]

/-- The long name, which follows two dashes. -/
def long : OptionName → String
  | .verbose => "verbose"
  | .quiet => "quiet"
  | .version => "version"
  | .mode => "mode"
  | .format => "format"
  | .memberCalls => "implicit-member-calls"
  | .output => "output"
  | .optimize => "optimize"
  | .debug => "debug"
  | .sourceMap => "source-map"
  | .json => "json"

/-- The letter that follows one dash. -/
def short? : OptionName → Option Char
  | .verbose => some 'v'
  | .quiet => some 'q'
  | .version => some 'V'
  | .output => some 'o'
  | _ => none

/-- Options have a value, flags have none. -/
def takesValue : OptionName → Bool
  | .mode | .format | .memberCalls | .output => true
  | _ => false

end OptionName

/-- What a word, or a part of it, stands for. -/
inductive Item where
  | flag (name : OptionName)
  | option (name : OptionName) (value : String)
  | operand (text : String)
  | invalid
deriving DecidableEq, Repr, Inhabited

/-- Words that start with a dash are options; a dash alone is an operand. -/
def isOptionWord (word : String) : Bool :=
  match word.toList with
  | '-' :: _ :: _ => true
  | _ => false

/-- An option whose value is the next word, which must not look like an option. -/
def optionItem (name : OptionName) : Option String → Item
  | some next => if isOptionWord next then .invalid else .option name next
  | none => .invalid

/-- The items of letters behind one dash, and whether the next word was used as a value. A letter of
    an option takes the rest of the letters as its value, behind an optional equals sign. -/
def letterItems (accepted : List OptionName) (next? : Option String) :
    List Char → List Item × Bool
  | [] => ([], false)
  | letter :: rest =>
    match accepted.find? fun name => name.short? == some letter with
    | none => ([.invalid], false)
    | some name =>
      if name.takesValue then
        match rest with
        | [] => ([optionItem name next?], true)
        | '=' :: value => ([.option name (String.ofList value)], false)
        | value => ([.option name (String.ofList value)], false)
      else
        let (items, used) := letterItems accepted next? rest
        (.flag name :: items, used)

/-- The item of a long name, and whether the next word was used as a value. A value may also stand
    behind an equals sign. -/
def longItem (accepted : List OptionName) (next? : Option String) (text : List Char) :
    Item × Bool :=
  let long := String.ofList (text.takeWhile (· ≠ '='))
  match accepted.find? fun name => name.long == long, text.dropWhile (· ≠ '=') with
  | none, _ => (.invalid, false)
  | some name, [] => if name.takesValue then (optionItem name next?, true) else (.flag name, false)
  | some name, _ :: value =>
    if name.takesValue then (.option name (String.ofList value), false) else (.invalid, false)

/-- The items of a word, and whether the next word was used as a value. -/
def wordItems (accepted : List OptionName) (word : String) (next? : Option String) :
    List Item × Bool :=
  match word.toList with
  | '-' :: '-' :: text =>
    let (item, used) := longItem accepted next? text
    ([item], used)
  | '-' :: letter :: letters => letterItems accepted next? (letter :: letters)
  | _ => ([.operand word], false)

/-- The items of words. Two dashes alone end the options: operands follow. -/
def items (accepted : List OptionName) : List String → List Item
  | [] => []
  | [word] => if word = "--" then [] else (wordItems accepted word none).1
  | word :: next :: rest =>
    if word = "--" then (next :: rest).map .operand
    else
      let (found, used) := wordItems accepted word (some next)
      found ++ (if used then items accepted rest else items accepted (next :: rest))

/-- The items before the command, and the words from the command on. No option before the command
    takes a value. -/
def splitCommand (accepted : List OptionName) : List String → List Item × List String
  | [] => ([], [])
  | word :: rest =>
    if isOptionWord word then
      let (found, words) := splitCommand accepted rest
      ((wordItems accepted word none).1 ++ found, words)
    else ([], word :: rest)

def flagCount (name : OptionName) (items : List Item) : Nat :=
  items.count (.flag name)

def hasFlag (name : OptionName) (items : List Item) : Bool :=
  items.contains (.flag name)

def values (name : OptionName) (items : List Item) : List String :=
  items.filterMap fun
    | .option other value => if other = name then some value else none
    | _ => none

def operands (items : List Item) : List String :=
  items.filterMap fun
    | .operand text => some text
    | _ => none

/-- All items are valid, no text is empty, and only the flag for more log output is given more than
    once. -/
def wellFormed (items : List Item) : Bool :=
  !items.contains .invalid
    && (OptionName.all.all fun name =>
      name == .verbose || flagCount name items + (values name items).length ≤ 1)
    && !(operands items).contains ""
    && !(OptionName.all.flatMap fun name => values name items).contains ""

/-- The flags for more and for less log output exclude each other. -/
def consistent (items : List Item) : Bool :=
  !(hasFlag .verbose items && hasFlag .quiet items)

/-- The value of an option that is given at most once, if it can be read. -/
def setting {α : Type} (name : OptionName) (fallback : α) (read : String → Option α)
    (items : List Item) : Option α :=
  match (values name items).head? with
  | none => some fallback
  | some value => read value

def modeOfText? : String → Option Mode
  | "repl" => some .repl
  | "standard" => some .standard
  | _ => none

def formatOfText? : String → Option Script.Format
  | "script" => some .plain
  | "module" => some .module
  | _ => none

def policyOfText? : String → Option MemberCallPolicy
  | "warn" => some .warn
  | "ignore" => some .ignore
  | "error" => some .error
  | _ => none

/-- What a build is asked for. -/
structure BuildRequest where
  files : List String
  mode : Mode
  options : CompileOptions
  output? : Option String
  json : Bool
deriving Inhabited

/-- What the program is asked to do. -/
inductive Command where
  | build (request : BuildRequest)
  | lex (file : String)
  | parse (file : String)
  | resolve (files : List String) (mode : Mode)
deriving Inhabited

/-- The last part of a path, if it names something inside its folder. -/
def fileName? (path : String) : Option String :=
  match ((path.splitOn "/").filter fun part => part ≠ "" ∧ part ≠ ".").getLast? with
  | some name => if name = ".." then none else some name
  | none => none

/-- The flags for log output stand before or behind the command. -/
def logOptions : List OptionName := [.verbose, .quiet]

namespace Command

def accepted? : String → Option (List OptionName)
  | "build" =>
    some (logOptions ++
      [.mode, .format, .memberCalls, .output, .optimize, .debug, .sourceMap, .json])
  | "lex" => some logOptions
  | "parse" => some logOptions
  | "resolve" => some (logOptions ++ [.mode])
  | _ => none

/-- The build that items ask for. A source map is written next to an output file. -/
def buildOfItems? (items : List Item) : Option Command := do
  let mode ← setting .mode .standard modeOfText? items
  let format ← setting .format .plain formatOfText? items
  let memberCalls ← setting .memberCalls .warn policyOfText? items
  let output? := (values .output items).head?
  let sourceMap := hasFlag .sourceMap items
  if (operands items).isEmpty || (sourceMap && output?.isNone) then none
  else
    let outFile := (output?.bind fileName?).getD "out.js"
    some (.build ⟨operands items, mode,
      ⟨format, hasFlag .optimize items, hasFlag .debug items, memberCalls, sourceMap, outFile⟩,
      output?, hasFlag .json items⟩)

def ofItems? (name : String) (items : List Item) : Option Command :=
  match name, operands items with
  | "build", _ => buildOfItems? items
  | "lex", [file] => some (.lex file)
  | "parse", [file] => some (.parse file)
  | "resolve", files => (setting .mode .standard modeOfText? items).map (.resolve files)
  | _, _ => none

end Command

/-- How much is logged. -/
inductive Verbosity where
  | silent | debug | trace
deriving DecidableEq, Repr, Inhabited

/-- The verbosity that the flags of both levels ask for. The flag for less log output wins; of the
    flags for more, those behind the command count if there are any. -/
def Verbosity.ofItems (before behind : List Item) : Verbosity :=
  if hasFlag .quiet before || hasFlag .quiet behind then .silent
  else
    let given := flagCount .verbose behind
    match if given = 0 then flagCount .verbose before else given with
    | 0 => .silent
    | 1 => .debug
    | _ => .trace

/-- The meaning of a command line. -/
inductive Invocation where
  | usageError
  | version
  | run (verbosity : Verbosity) (command : Command)
deriving Inhabited

namespace Invocation

def ofCommand? (before : List Item) : List String → Option Invocation
  | [] => none
  | name :: words => do
    let accepted ← Command.accepted? name
    let behind := items accepted words
    if wellFormed behind && consistent behind then
      let command ← Command.ofItems? name behind
      some (.run (.ofItems before behind) command)
    else none

/-- The meaning of a command line. The flag for the version takes effect at once, whatever follows.
    -/
def ofWords (words : List String) : Invocation :=
  let (before, rest) := splitCommand (.version :: logOptions) words
  let untilVersion := before.takeWhile (· ≠ .flag .version)
  if !wellFormed untilVersion then .usageError
  else if hasFlag .version before then .version
  else if !consistent before then .usageError
  else (ofCommand? before rest).getD .usageError

end Invocation

end ScriptCompiler.CommandLine
