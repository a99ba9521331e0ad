import Lox.Value
import Lox.Diagnostic

/-!
# Errors at run time

What can go wrong while a script runs. An error names its cause, its location and the calls that
were under way when it arose.
-/

namespace Lox

/-- The causes. -/
inductive Fault
  | operandNotNumber
  | operandsNotNumbers
  | operandsNotAddable
  | unknownUnary (lexeme : Text)
  | unknownBinary (lexeme : Text)
  | undefinedVariable (name : Text)
  | notCallable (typeName : Text)
  | arityMismatch (expected got : Nat)
  | stackOverflow (limit : Nat)
  /-- A native function broke off with a message. -/
  | nativeFailed (name message : Text)
  /-- A native function reported an error of its own. -/
  | raised (code : Code) (message : Text)
  deriving DecidableEq

namespace Fault

/-- The code of a cause; what a native function reports brings its own. -/
def code : Fault → Code
  | .operandNotNumber | .operandsNotNumbers | .operandsNotAddable | .unknownUnary _
  | .unknownBinary _ => .typeMismatch
  | .undefinedVariable _ => .undefinedVariable
  | .notCallable _ => .notCallable
  | .arityMismatch _ _ => .arityMismatch
  | .stackOverflow _ => .stackOverflow
  | .nativeFailed _ _ => .nativeFailure
  | .raised code _ => code

/-- The message for a cause. -/
def message : Fault → Text
  | .operandNotNumber => utf8 "Operand must be a number"
  | .operandsNotNumbers => utf8 "Operands must be numbers"
  | .operandsNotAddable => utf8 "Operands must be two numbers or at least one string"
  | .unknownUnary lexeme => utf8 "Unknown unary operator '" ++ lexeme ++ utf8 "'"
  | .unknownBinary lexeme => utf8 "Unknown binary operator '" ++ lexeme ++ utf8 "'"
  | .undefinedVariable name => utf8 "Undefined variable '" ++ name ++ utf8 "'"
  | .notCallable typeName => utf8 "Can only call functions, got " ++ typeName
  | .arityMismatch expected got =>
    utf8 "Expected " ++ Text.ofNat expected ++ utf8 " arguments but got " ++ Text.ofNat got
  | .stackOverflow limit => utf8 "Stack overflow: call depth exceeded " ++ Text.ofNat limit
  | .nativeFailed name message =>
    utf8 "Native function '" ++ name ++ utf8 "' failed: " ++ message
  | .raised _ message => message

end Fault

/-- An error and where it arose. The trace has the innermost call first. -/
structure RuntimeError where
  fault : Fault
  loc : Location
  trace : List CallFrame
  deriving DecidableEq

/-- The error as a diagnostic. A message ends before its first zero byte. -/
def RuntimeError.diagnostic (e : RuntimeError) : Diagnostic :=
  ⟨.runtime, e.fault.code, .error, e.fault.message.beforeZero, e.loc, e.trace⟩

end Lox
