import Lox.Location

/-!
# Diagnostics

What the stages of the language report to their host: the stage, a code for programs to test, a
message for people, a location, and for errors at run time the calls that were under way.
-/

namespace Lox

/-- The stage that reports a diagnostic. -/
inductive Stage
  | scan
  | parse
  | resolve
  | runtime
  deriving DecidableEq

/-- An error stops a script; a warning does not. -/
inductive Severity
  | error
  | warning
  deriving DecidableEq

/-- What kind of problem a diagnostic is about. -/
inductive Code
  | unexpectedCharacter
  | unterminatedString
  | expectedToken
  | expectedExpression
  | invalidAssignmentTarget
  | tooManyArguments
  | tooManyParameters
  | nestingTooDeep
  | duplicateDeclaration
  | readBeforeInit
  | returnOutsideFunction
  | unusedVariable
  | undeclaredVariable
  | typeMismatch
  | arityMismatch
  | notCallable
  | undefinedVariable
  | stackOverflow
  | nativeFailure
  deriving DecidableEq

/-- A call under way: the name of what was called and the line it was called from. -/
structure CallFrame where
  callee : Text
  line : UInt32
  deriving DecidableEq

/-- One message of a stage. The trace has the innermost call first. -/
structure Diagnostic where
  stage : Stage
  code : Code
  severity : Severity
  message : Text
  loc : Location
  trace : List CallFrame
  deriving DecidableEq

/-! ## Names -/

/-- The stages, in the order in which a script goes through them. -/
def Stage.all : List Stage := [.scan, .parse, .resolve, .runtime]

/-- The name of a stage, as diagnostics write it. -/
def Stage.name : Stage → String
  | .scan => "ScanError"
  | .parse => "ParseError"
  | .resolve => "ResolveError"
  | .runtime => "RuntimeError"

/-- The name of a severity. -/
def Severity.name : Severity → String
  | .error => "error"
  | .warning => "warning"

/-- The codes, in the order of their stages. -/
def Code.all : List Code :=
  [.unexpectedCharacter, .unterminatedString, .expectedToken, .expectedExpression,
   .invalidAssignmentTarget, .tooManyArguments, .tooManyParameters, .nestingTooDeep,
   .duplicateDeclaration, .readBeforeInit, .returnOutsideFunction, .unusedVariable,
   .undeclaredVariable, .typeMismatch, .arityMismatch, .notCallable, .undefinedVariable,
   .stackOverflow, .nativeFailure]

/-- The name of a code. -/
def Code.name : Code → String
  | .unexpectedCharacter => "unexpected character"
  | .unterminatedString => "unterminated string"
  | .expectedToken => "expected token"
  | .expectedExpression => "expected expression"
  | .invalidAssignmentTarget => "invalid assignment target"
  | .tooManyArguments => "too many arguments"
  | .tooManyParameters => "too many parameters"
  | .nestingTooDeep => "nesting too deep"
  | .duplicateDeclaration => "duplicate declaration"
  | .readBeforeInit => "read before initialization"
  | .returnOutsideFunction => "return outside function"
  | .unusedVariable => "unused variable"
  | .undeclaredVariable => "undeclared variable"
  | .typeMismatch => "type mismatch"
  | .arityMismatch => "arity mismatch"
  | .notCallable => "not callable"
  | .undefinedVariable => "undefined variable"
  | .stackOverflow => "stack overflow"
  | .nativeFailure => "native function failure"

theorem Stage.mem_all (s : Stage) : s ∈ Stage.all := by
  cases s <;> decide

theorem Code.mem_all (c : Code) : c ∈ Code.all := by
  cases c <;> decide

/-! ## Text -/

/-- A call as a line of a trace, on a line of its own. -/
def CallFrame.text (f : CallFrame) : Text :=
  utf8 "\n  at " ++ f.callee ++ utf8 " (line " ++ Text.ofNat f.line.toNat ++ utf8 ")"

namespace Diagnostic

/-- Whether a diagnostic stops its script. -/
def isError (d : Diagnostic) : Bool := d.severity == .error

/-- The location, the stage and the message, then one line for each call. -/
def text (d : Diagnostic) : Text :=
  utf8 "[line " ++ d.loc.text ++ utf8 "] " ++ utf8 d.stage.name ++
    (if d.isError then [] else utf8 " (warning)") ++ utf8 ": " ++ d.message ++
    d.trace.flatMap CallFrame.text

end Diagnostic

/-- Whether one of the diagnostics is an error. -/
def hasErrors (ds : List Diagnostic) : Bool := ds.any Diagnostic.isError

end Lox
