/-!
# Operators

Binary and unary operators of values and the binary operators of types, with their binding strength
and their spelling. A larger precedence binds tighter.
-/

namespace ScriptCompiler

/-- Binary operators on values. -/
inductive BinaryOp where
  | or | and
  | eq | notEq | lt | gt | ltEq | gtEq
  | bitOr | bitAnd
  | add | sub | mul | div | mod
deriving DecidableEq, Repr, Inhabited

namespace BinaryOp

def precedence : BinaryOp → Nat
  | .or => 2
  | .and => 3
  | .eq | .notEq => 4
  | .lt | .gt | .ltEq | .gtEq => 5
  | .bitOr | .bitAnd => 6
  | .add | .sub => 7
  | .mul | .div | .mod => 8

def text : BinaryOp → String
  | .or => "||"
  | .and => "&&"
  | .eq => "=="
  | .notEq => "!="
  | .lt => "<"
  | .gt => ">"
  | .ltEq => "<="
  | .gtEq => ">="
  | .bitOr => "|"
  | .bitAnd => "&"
  | .add => "+"
  | .sub => "-"
  | .mul => "*"
  | .div => "/"
  | .mod => "%"

end BinaryOp

/-- Unary operators on values. -/
inductive UnaryOp where
  | neg | not | await
deriving DecidableEq, Repr, Inhabited

/-- The spelling before an operand, which for a word includes the space. -/
def UnaryOp.text : UnaryOp → String
  | .neg => "-"
  | .not => "!"
  | .await => "await "

/-- Binary operators on types. -/
inductive TypeOp where
  | arrow | union | intersection | sum
deriving DecidableEq, Repr, Inhabited

namespace TypeOp

def precedence : TypeOp → Nat
  | .arrow => 1
  | .union => 2
  | .intersection => 3
  | .sum => 4

/-- Only the arrow groups to the right. -/
def groupsRight : TypeOp → Bool
  | .arrow => true
  | _ => false

def text : TypeOp → String
  | .arrow => "->"
  | .union => "|"
  | .intersection => "&"
  | .sum => "+"

end TypeOp

end ScriptCompiler
