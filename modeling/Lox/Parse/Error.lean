import Lox.Token
import Lox.Diagnostic

/-!
# Parse errors

What can be wrong with a sequence of tokens. An error names its cause and the token at which it was
noticed; the message ends with that token, or with `at end` for the end of the input.
-/

namespace Lox

/-- How deep statements and expressions may be nested. -/
def maxNesting : Nat := 256

/-- How many arguments a call, and how many parameters a function, may have. -/
def maxArguments : Nat := 255

/-- The places where the grammar leaves no choice of token. -/
inductive Expectation
  | functionName
  | openParameters
  | parameterName
  | closeParameters
  | openBody
  | variableName
  | endVar
  | endPrint
  | openIf
  | closeIf
  | openWhile
  | closeWhile
  | openFor
  | endForCondition
  | closeFor
  | endReturn
  | endExpression
  | closeBlock
  | closeArguments
  | closeGrouping
  deriving DecidableEq

namespace Expectation

/-- The kind of token that has to stand there. -/
def kind : Expectation → TokenKind
  | .functionName | .parameterName | .variableName => .identifier
  | .openParameters | .openIf | .openWhile | .openFor => .leftParen
  | .closeParameters | .closeIf | .closeWhile | .closeFor | .closeArguments
  | .closeGrouping => .rightParen
  | .openBody => .leftBrace
  | .closeBlock => .rightBrace
  | .endVar | .endPrint | .endForCondition | .endReturn | .endExpression => .semicolon

/-- What the message asks for. -/
def message : Expectation → Text
  | .functionName => utf8 "Expected function name"
  | .openParameters => utf8 "Expected '(' after function name"
  | .parameterName => utf8 "Expected parameter name"
  | .closeParameters => utf8 "Expected ')' after parameters"
  | .openBody => utf8 "Expected '\x7b' before function body"
  | .variableName => utf8 "Expected variable name"
  | .endVar => utf8 "Expected ';' after variable declaration"
  | .endPrint => utf8 "Expected ';' after value"
  | .openIf => utf8 "Expected '(' after 'if'"
  | .closeIf => utf8 "Expected ')' after if condition"
  | .openWhile => utf8 "Expected '(' after 'while'"
  | .closeWhile => utf8 "Expected ')' after condition"
  | .openFor => utf8 "Expected '(' after 'for'"
  | .endForCondition => utf8 "Expected ';' after loop condition"
  | .closeFor => utf8 "Expected ')' after for clauses"
  | .endReturn => utf8 "Expected ';' after return value"
  | .endExpression => utf8 "Expected ';' after expression"
  | .closeBlock => utf8 "Expected '\x7d' after block"
  | .closeArguments => utf8 "Expected ')' after arguments"
  | .closeGrouping => utf8 "Expected ')' after expression"

end Expectation

/-- What can be wrong. -/
inductive ParseProblem
  | expected (what : Expectation)
  | expectedExpression
  | invalidAssignmentTarget
  | tooManyArguments
  | tooManyParameters
  | nestingTooDeep
  deriving DecidableEq

namespace ParseProblem

/-- The code of a problem. -/
def code : ParseProblem → Code
  | .expected _ => .expectedToken
  | .expectedExpression => .expectedExpression
  | .invalidAssignmentTarget => .invalidAssignmentTarget
  | .tooManyArguments => .tooManyArguments
  | .tooManyParameters => .tooManyParameters
  | .nestingTooDeep => .nestingTooDeep

/-- The message for a problem, without the token. -/
def message : ParseProblem → Text
  | .expected what => what.message
  | .expectedExpression => utf8 "Expected expression"
  | .invalidAssignmentTarget => utf8 "Invalid assignment target"
  | .tooManyArguments =>
    utf8 "Can't have more than " ++ Text.ofNat maxArguments ++ utf8 " arguments"
  | .tooManyParameters =>
    utf8 "Can't have more than " ++ Text.ofNat maxArguments ++ utf8 " parameters"
  | .nestingTooDeep => utf8 "Nesting exceeds " ++ Text.ofNat maxNesting ++ utf8 " levels"

end ParseProblem

/-- A problem and the token at which it was noticed. -/
structure ParseError where
  problem : ParseProblem
  found : Token
  deriving DecidableEq

namespace ParseError

/-- After nesting too deep nothing more is parsed; all other errors end one declaration. -/
def isFinal (e : ParseError) : Bool := e.problem == .nestingTooDeep

/-- The problem and the token. -/
def message (e : ParseError) : Text :=
  e.problem.message ++
    (if e.found.isEnd then utf8 " at end" else utf8 " at '" ++ e.found.lexeme ++ utf8 "'")

/-- The error as a diagnostic. -/
def diagnostic (e : ParseError) : Diagnostic :=
  ⟨.parse, e.problem.code, .error, e.message, e.found.loc, []⟩

end ParseError

end Lox
