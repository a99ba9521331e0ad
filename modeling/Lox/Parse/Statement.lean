import Lox.Parse.Expression

/-!
# Parsing programs

Statements and declarations, and the program as a whole. A declaration that fails is reported and
left out, and parsing resumes at the next statement; nesting too deep ends the parse, with the
declarations before it as its result.

A `for` loop is short for a `while` loop: `for (init; condition; step) body` is
`{ init; while (condition) { body; step; } }`, where absent parts leave out what they would stand
in and an absent condition is true.
-/

namespace Lox

/-- The loop that a `for` statement stands for. -/
def Stmt.forLoop (initializer : Option Stmt) (condition : Option Expr) (step : Option Stmt)
    (body : Stmt) (loc : Location) : Stmt :=
  let round := match step with
    | some s => .block [body, s] loc
    | none => body
  let loop := .whileLoop (condition.getD (.literal (.bool true) loc)) round loc
  match initializer with
  | some s => .block [s, loop] loc
  | none => loop

namespace Parser

/-- A variable declaration, behind the keyword. -/
def varDeclaration (inner : Grammar) : Parser Stmt := do
  let name ← expect .variableName
  let initializer ← behind .equal (expression inner)
  let _ ← expect .endVar
  return .var name.named initializer

/-- An expression as a statement. -/
def expressionStatement (inner : Grammar) : Parser Stmt := do
  let first ← peek
  let e ← expression inner
  let _ ← expect .endExpression
  return .expression e first.loc

/-- A declaration or a statement, at its first level. -/
def declaration (inner : Grammar) : Parser (Option Stmt) :=
  recovering do
    match ← accept .kwFun with
    | some _ => inner.function
    | none =>
      match ← accept .kwVar with
      | some _ => varDeclaration inner
      | none => inner.statement

/-- The declarations of a block and the closing brace, behind the opening one. -/
def block (inner : Grammar) : Parser (List Stmt) := do
  let body ← manyUntil .rightBrace (declaration inner)
  let _ ← expect .closeBlock
  return body

/-- The parameters of a function, behind the opening parenthesis. -/
def parameters : Parser (List Name) := do
  if ← check .rightParen then
    return []
  else
    commaSeparated .tooManyParameters (Token.named <$> expect .parameterName)

/-- A function declaration, behind the keyword. -/
def function (inner : Grammar) : Parser Stmt := do
  let name ← expect .functionName
  let _ ← expect .openParameters
  let params ← parameters
  let _ ← expect .closeParameters
  let _ ← expect .openBody
  let body ← block inner
  return .function name.named params body

/-- A print statement, behind the keyword. -/
def printStatement (inner : Grammar) (loc : Location) : Parser Stmt := do
  let e ← expression inner
  let _ ← expect .endPrint
  return .print e loc

/-- A conditional, behind the keyword; an `else` belongs to the nearest `if`. -/
def ifStatement (inner : Grammar) (loc : Location) : Parser Stmt := do
  let _ ← expect .openIf
  let condition ← expression inner
  let _ ← expect .closeIf
  let branch ← inner.statement
  match ← accept .kwElse with
  | some _ => return .ifElse condition branch (← inner.statement) loc
  | none => return .ifThen condition branch loc

/-- A `while` loop, behind the keyword. -/
def whileStatement (inner : Grammar) (loc : Location) : Parser Stmt := do
  let _ ← expect .openWhile
  let condition ← expression inner
  let _ ← expect .closeWhile
  return .whileLoop condition (← inner.statement) loc

/-- The first clause of a `for` loop. -/
def forInitializer (inner : Grammar) : Parser (Option Stmt) := do
  match ← accept .semicolon with
  | some _ => return none
  | none =>
    match ← accept .kwVar with
    | some _ => some <$> varDeclaration inner
    | none => some <$> expressionStatement inner

/-- The second clause of a `for` loop. -/
def forCondition (inner : Grammar) : Parser (Option Expr) := do
  let condition ← unlessNext .semicolon (expression inner)
  let _ ← expect .endForCondition
  return condition

/-- The third clause of a `for` loop. -/
def forStep (inner : Grammar) : Parser (Option Stmt) := do
  let first ← peek
  let step ← unlessNext .rightParen (expression inner)
  let _ ← expect .closeFor
  return step.map fun e => .expression e first.loc

/-- A `for` loop, behind the keyword. -/
def forStatement (inner : Grammar) (loc : Location) : Parser Stmt := do
  let _ ← expect .openFor
  let initializer ← forInitializer inner
  let condition ← forCondition inner
  let step ← forStep inner
  return .forLoop initializer condition step (← inner.statement) loc

/-- A return statement, behind the keyword. -/
def returnStatement (inner : Grammar) (loc : Location) : Parser Stmt := do
  let value ← unlessNext .semicolon (expression inner)
  let _ ← expect .endReturn
  return .returnStmt value loc

/-- A statement, behind its first level. -/
def statement (inner : Grammar) : Parser Stmt := do
  let t ← peek
  match t.kind with
  | .kwPrint => do
    skip
    printStatement inner t.loc
  | .kwIf => do
    skip
    ifStatement inner t.loc
  | .kwWhile => do
    skip
    whileStatement inner t.loc
  | .kwFor => do
    skip
    forStatement inner t.loc
  | .kwReturn => do
    skip
    returnStatement inner t.loc
  | .leftBrace => do
    skip
    return .block (← block inner) t.loc
  | _ => expressionStatement inner

end Parser

namespace Grammar

/-- The grammar one level above another. -/
def above (inner : Grammar) : Grammar where
  assignment := Parser.assignment inner
  operand := Parser.operand inner
  chain := Parser.chain inner
  unary := Parser.unary inner
  calls := Parser.calls inner
  arguments := Parser.arguments inner
  statement := Parser.statement inner
  function := Parser.function inner

/-- The grammar that allows the given number of levels. -/
def ofLevels : Nat → Grammar
  | 0 => tooDeep
  | n + 1 => above (ofLevels n)

end Grammar

/-! ## Programs -/

/-- The tokens with an end of input behind them, if the last is not one already; it is located at
the last token. -/
def closed (ts : List Token) : List Token :=
  match ts.getLast? with
  | none => [.endOfInput .nowhere]
  | some last => if last.isEnd then ts else ts ++ [.endOfInput last.loc]

/-- A parsed program and the errors found in it. -/
structure ParseResult where
  program : Program
  errors : List ParseError

/-- Declarations up to the end of the input, for at most the given number of rounds. -/
def parseFrom (inner : Grammar) : Nat → List Token → ParseResult
  | 0, _ => ⟨[], []⟩
  | rounds + 1, ts =>
    if (ts.headD (.endOfInput .nowhere)).isEnd then ⟨[], []⟩
    else
      match Parser.declaration inner ts with
      | ⟨.ok first, rest, errors⟩ =>
        let others := parseFrom inner rounds rest
        ⟨first.toList ++ others.program, errors ++ others.errors⟩
      | ⟨.error e, _, errors⟩ => ⟨[], errors ++ [e]⟩

/-- Parses the tokens of a program. Each declaration takes a token, so there are at most as many
rounds as tokens. -/
def parse (ts : List Token) : ParseResult :=
  parseFrom (Grammar.ofLevels maxNesting) ts.length (closed ts)

end Lox
