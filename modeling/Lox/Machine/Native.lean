import Lox.Machine.Error

/-!
# Native functions

A native function is given by what it does with its arguments: an `Act`, which is a finished value,
a failure, or one request to the machine and what to do with the answer. So what a native function
can do to a machine is exactly what the requests can do.
-/

namespace Lox

/-- What a native function does. -/
inductive Act
  /-- Returns a value. -/
  | done (v : Value)
  /-- Breaks off with a message. -/
  | crash (message : Text)
  /-- Reports an error. Without a line of its own the error is located at the call. -/
  | raise (code : Code) (message : Text) (loc : Location)
  /-- Reports an error at exactly the given location. -/
  | fail (code : Code) (message : Text) (loc : Location)
  /-- Calls a value. An error in the call ends the native function, too. -/
  | call (callee : Value) (arguments : List Value) (site : Location) (next : Value → Act)
  /-- Calls a value and goes on whether the call returns or ends in an error. -/
  | attempt (callee : Value) (arguments : List Value) (site : Location)
      (next : Except RuntimeError Value → Act)
  /-- Writes a line to the output. -/
  | write (line : Text) (next : Act)
  /-- Defines a global variable. -/
  | define (name : Text) (v : Value) (next : Act)
  /-- Asks for a global variable. -/
  | lookup (name : Text) (next : Option Value → Act)
  /-- Asks how many calls are under way. -/
  | depth (next : Nat → Act)
  /-- Reads the clock. -/
  | clock (next : Number → Act)
  deriving Inhabited

/-- A native function. -/
structure Native where
  name : Text
  arity : Nat
  body : List Value → Act
  deriving Inhabited

end Lox
