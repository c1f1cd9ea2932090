import ScriptCompiler.Grammar.Statements

/-!
# Parsing programs

The productions are tied together by the number of tokens that may still be nested: the grammar of
level zero reads nothing, and the productions of each level use the level below for their nested
parts. Every nested part comes after a token has been consumed, so a level equal to the number of
lexemes reads every input.
-/

namespace ScriptCompiler

namespace Grammar

/-- The grammar at the end of the input, where nothing can be read. -/
def atEnd : Grammar where
  nestedType _ := TokenParser.failHere .expectedType
  nestedExpr _ := TokenParser.failHere .expectedExpression
  nestedOperand := TokenParser.failHere .expectedExpression
  nestedElse := pure .none
  nestedStmt := TokenParser.failHere .expectedExpression

/-- The grammar whose nested parts are read by the productions over `g`. -/
def deeper (g : Grammar) : Grammar where
  nestedType := g.typeAt
  nestedExpr := g.exprAt
  nestedOperand := g.operand
  nestedElse := g.elseBranch
  nestedStmt := g.stmt

/-- The grammar for inputs of at most `n` tokens. -/
def level : Nat → Grammar
  | 0 => atEnd
  | n + 1 => (level n).deeper

/-- All statements up to the end token. -/
def program (g : Grammar) : TokenParser Program := do
  let stmts ← TokenParser.many (fun token => token = .eof) g.nestedStmt
  return ⟨stmts⟩

end Grammar

/-- Runs a parser that may nest as deeply as there are lexemes. -/
def runParser {α : Type} (p : Grammar → TokenParser α) (lexemes : List Lexeme) :
    Except ParseError α :=
  match p (Grammar.level (lexemes.length + 1)) (Cursor.ofLexemes lexemes) with
  | .ok a _ => .ok a
  | .error e _ => .error e

/-- The program that the lexemes spell, all of them up to the end token. -/
def parseProgram (lexemes : List Lexeme) : Except ParseError Program :=
  runParser Grammar.program lexemes

/-- The expression that the lexemes start with. -/
def parseExpr (lexemes : List Lexeme) : Except ParseError Expr :=
  runParser (fun g => g.nestedExpr Expr.loosest) lexemes

/-- The type that the lexemes start with. -/
def parseType (lexemes : List Lexeme) : Except ParseError TypeExpr :=
  runParser (fun g => g.nestedType TypeOp.loosest) lexemes

end ScriptCompiler
