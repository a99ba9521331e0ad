import Lox.Diagnostic

/-!
# Scope issues

What can be wrong with the names of a program: errors, which stop it from running, and warnings.
-/

namespace Lox

/-- What can be wrong. -/
inductive ScopeProblem
  /-- A name declared twice in one scope. -/
  | duplicateDeclaration (name : Text)
  /-- A local variable read in its own initializer. -/
  | localReadInInitializer (name : Text)
  /-- A global variable read in its own initializer, when nothing defined it before. -/
  | globalReadInInitializer (name : Text)
  /-- A return statement outside of all functions. -/
  | returnOutsideFunction
  /-- A local variable or function that nothing reads. -/
  | unusedVariable (name : Text)
  /-- A name that no open scope and no global declares. -/
  | undeclaredVariable (name : Text)
  deriving DecidableEq

namespace ScopeProblem

/-- The code of a problem. -/
def code : ScopeProblem → Code
  | .duplicateDeclaration _ => .duplicateDeclaration
  | .localReadInInitializer _ | .globalReadInInitializer _ => .readBeforeInit
  | .returnOutsideFunction => .returnOutsideFunction
  | .unusedVariable _ => .unusedVariable
  | .undeclaredVariable _ => .undeclaredVariable

/-- What nothing reads and what nothing declares is worth a warning; the rest is an error. -/
def severity : ScopeProblem → Severity
  | .unusedVariable _ | .undeclaredVariable _ => .warning
  | _ => .error

/-- The message for a problem. -/
def message : ScopeProblem → Text
  | .duplicateDeclaration name =>
    utf8 "Already a variable named '" ++ name ++ utf8 "' in this scope"
  | .localReadInInitializer name =>
    utf8 "Can't read local variable '" ++ name ++ utf8 "' in its own initializer"
  | .globalReadInInitializer name =>
    utf8 "Can't read variable '" ++ name ++ utf8 "' in its own initializer"
  | .returnOutsideFunction => utf8 "Can't return from top-level code"
  | .unusedVariable name => utf8 "Local variable '" ++ name ++ utf8 "' is never read"
  | .undeclaredVariable name => utf8 "Undeclared variable '" ++ name ++ utf8 "'"

end ScopeProblem

/-- A problem and where it is. -/
structure ScopeIssue where
  problem : ScopeProblem
  loc : Location
  deriving DecidableEq

/-- The issue as a diagnostic. -/
def ScopeIssue.diagnostic (i : ScopeIssue) : Diagnostic :=
  ⟨.resolve, i.problem.code, i.problem.severity, i.problem.message, i.loc, []⟩

end Lox
