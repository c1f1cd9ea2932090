/-!
# Tokens

The vocabulary of the language: keywords, operators and punctuation, literals and identifiers, and
the end of the input.
-/

namespace ScriptCompiler

/-- The reserved words. -/
inductive Keyword where
  | letKw | microKw | ifKw | elseKw | whileKw | untilKw | returnKw
  | namespaceKw | usingKw | classKw | singletonKw | traitKw | constructorKw
  | selfKw | selfTypeKw | extendsKw | implementsKw | newKw | defaultKw
  | awaitKw | isKw | asKw
deriving DecidableEq, Repr, Inhabited

namespace Keyword

def all : List Keyword :=
  [.letKw, .microKw, .ifKw, .elseKw, .whileKw, .untilKw, .returnKw, .namespaceKw, .usingKw,
   .classKw, .singletonKw, .traitKw, .constructorKw, .selfKw, .selfTypeKw, .extendsKw,
   .implementsKw, .newKw, .defaultKw, .awaitKw, .isKw, .asKw]

def text : Keyword → String
  | .letKw => "let"
  | .microKw => "micro"
  | .ifKw => "if"
  | .elseKw => "else"
  | .whileKw => "while"
  | .untilKw => "until"
  | .returnKw => "return"
  | .namespaceKw => "namespace"
  | .usingKw => "using"
  | .classKw => "class"
  | .singletonKw => "singleton"
  | .traitKw => "trait"
  | .constructorKw => "constructor"
  | .selfKw => "self"
  | .selfTypeKw => "Self"
  | .extendsKw => "extends"
  | .implementsKw => "implements"
  | .newKw => "new"
  | .defaultKw => "default"
  | .awaitKw => "await"
  | .isKw => "is"
  | .asKw => "as"

def ofText? (word : String) : Option Keyword :=
  all.find? fun k => k.text == word

end Keyword

/-- The operators and punctuation signs. -/
inductive Symbol where
  | eqEq | notEq | ltEq | gtEq | andAnd | orOr | colonColon | arrow
  | plus | minus | star | slash | percent | eq | lt | gt | bang | amp | pipe | question
  | lparen | rparen | lbrace | rbrace | lbracket | rbracket
  | comma | colon | semi | dot | atSign
deriving DecidableEq, Repr, Inhabited

namespace Symbol

/-- Every sign, longer ones before their own beginnings. -/
def all : List Symbol :=
  [.eqEq, .notEq, .ltEq, .gtEq, .andAnd, .orOr, .colonColon, .arrow,
   .plus, .minus, .star, .slash, .percent, .eq, .lt, .gt, .bang, .amp, .pipe, .question,
   .lparen, .rparen, .lbrace, .rbrace, .lbracket, .rbracket,
   .comma, .colon, .semi, .dot, .atSign]

def chars : Symbol → List Char
  | .eqEq => ['=', '=']
  | .notEq => ['!', '=']
  | .ltEq => ['<', '=']
  | .gtEq => ['>', '=']
  | .andAnd => ['&', '&']
  | .orOr => ['|', '|']
  | .colonColon => [':', ':']
  | .arrow => ['-', '>']
  | .plus => ['+']
  | .minus => ['-']
  | .star => ['*']
  | .slash => ['/']
  | .percent => ['%']
  | .eq => ['=']
  | .lt => ['<']
  | .gt => ['>']
  | .bang => ['!']
  | .amp => ['&']
  | .pipe => ['|']
  | .question => ['?']
  | .lparen => ['(']
  | .rparen => [')']
  | .lbrace => ['{']
  | .rbrace => ['}']
  | .lbracket => ['[']
  | .rbracket => [']']
  | .comma => [',']
  | .colon => [':']
  | .semi => [';']
  | .dot => ['.']
  | .atSign => ['@']

def text (s : Symbol) : String :=
  String.ofList s.chars

/-- Operators; the other signs are punctuation. -/
def isOperator : Symbol → Bool
  | .eqEq | .notEq | .ltEq | .gtEq | .andAnd | .orOr
  | .plus | .minus | .star | .slash | .percent | .eq | .lt | .gt
  | .bang | .amp | .pipe | .question => true
  | _ => false

end Symbol

/-- A token with its value: number literals without separators, string literals with their escapes
    resolved. -/
inductive Token where
  | keyword (k : Keyword)
  | symbol (s : Symbol)
  | bool (value : Bool)
  | number (digits : String)
  | string (value : String)
  | ident (name : String)
  | eof
deriving DecidableEq, Repr, Inhabited

/-- The coarse class of a token. -/
inductive Category where
  | keyword | literal | identifier | operator | punctuation | endOfInput
deriving DecidableEq, Repr, Inhabited

def Category.label : Category → String
  | .keyword => "KEYWORD"
  | .literal => "LITERAL"
  | .identifier => "IDENT"
  | .operator => "OPERATOR"
  | .punctuation => "PUNCTUATION"
  | .endOfInput => "EOF"

namespace Token

def category : Token → Category
  | .keyword _ => .keyword
  | .symbol s => if s.isOperator then .operator else .punctuation
  | .bool _ | .number _ | .string _ => .literal
  | .ident _ => .identifier
  | .eof => .endOfInput

def display : Token → String
  | .keyword k => k.text
  | .symbol s => s.text
  | .bool b => if b then "true" else "false"
  | .number digits => digits
  | .string value => "\"" ++ value ++ "\""
  | .ident name => name
  | .eof => "EOF"

end Token

end ScriptCompiler
