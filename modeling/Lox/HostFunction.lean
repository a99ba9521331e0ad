import Lox.Machine.Native
import Lox.Number.Decimal

/-!
# Host functions

A stock of native functions that a host can offer to scripts: arithmetic and inspection of values,
ways to fail, and calls back into scripts. A function that asks for an argument it was not given,
or takes one for something it is not, breaks off with a message that says so.
-/

namespace Lox

/-- The stock. -/
inductive HostFunction
  /-- Returns nil. -/
  | nothing
  /-- Returns its argument. -/
  | same
  /-- Adds two numbers. -/
  | sum
  /-- The number of bytes in a string. -/
  | length
  /-- The opposite of a truth value. -/
  | opposite
  /-- Whether a value counts as true. -/
  | truthy
  /-- Whether two values are equal. -/
  | equal
  /-- The name of a value's type. -/
  | typeName
  /-- The text of a value. -/
  | text
  /-- The name of a callable. -/
  | calleeName
  /-- The number of parameters of a callable. -/
  | calleeArity
  /-- How many calls are under way. -/
  | depth
  /-- Writes a text with an exclamation mark. -/
  | shout
  /-- Defines a global variable. -/
  | define
  /-- Reports a failure of its own, without a location. -/
  | failure
  /-- Reports a type mismatch at a given line and column. -/
  | failureAt
  /-- Reports something that cannot be called, with the calls under way. -/
  | failureInside
  /-- Breaks off with a message. -/
  | crash
  /-- Calls a value twice, without arguments, and returns the second result. -/
  | twice
  /-- Calls its first argument with the others. -/
  | apply
  /-- Calls its first argument with the others, and returns an error as a text. -/
  | attempt
  deriving DecidableEq

namespace HostFunction

/-- The result of looking at arguments: a value, or the message to break off with. -/
abbrev Access (α : Type) := Except Text α

/-- An argument. -/
def argument (args : List Value) (i : Nat) : Access Value :=
  match args[i]? with
  | some v => .ok v
  | none => .error (utf8 "missing argument " ++ Text.ofNat i)

/-- What a value is taken for. -/
def taken {α : Type} (as : Value → Except Value.Mismatch α) (v : Value) : Access α :=
  (as v).mapError Value.Mismatch.message

/-- An argument that has to be a number. -/
def numberArgument (args : List Value) (i : Nat) : Access Number :=
  argument args i >>= taken Value.asNumber

/-- An argument that has to be a string. -/
def stringArgument (args : List Value) (i : Nat) : Access Text :=
  argument args i >>= taken Value.asString

/-- An argument that has to be a truth value. -/
def boolArgument (args : List Value) (i : Nat) : Access Bool :=
  argument args i >>= taken Value.asBool

/-- An argument that has to be callable. -/
def callableArgument (args : List Value) (i : Nat) : Access Callable :=
  argument args i >>= taken Value.asCallable

/-- Where `attempt` calls from. -/
def attemptSite : Location := ⟨7, 9⟩

/-- What a function does with its arguments, which it looks at from left to right. -/
def act (args : List Value) : HostFunction → Access Act
  | .nothing => return .done .nil
  | .same => return .done (← argument args 0)
  | .sum => do
    let x ← numberArgument args 0
    let y ← numberArgument args 1
    return .done (.number (x.add y))
  | .length => return .done (.number (.ofNat (← stringArgument args 0).length))
  | .opposite => return .done (.bool !(← boolArgument args 0))
  | .truthy => return .done (.bool (← argument args 0).truthy)
  | .equal => do
    let v ← argument args 0
    let w ← argument args 1
    return .done (.bool (v.equal w))
  | .typeName => return .done (.string (← argument args 0).typeName)
  | .text => return .done (.string (← argument args 0).text)
  | .calleeName => return .done (.string (← callableArgument args 0).name)
  | .calleeArity => return .done (.number (.ofNat (← callableArgument args 0).arity))
  | .depth => return .depth fun n => .done (.number (.ofNat n))
  | .shout => return .write ((← argument args 0).text ++ utf8 "!") (.done .nil)
  | .define => do
    let name ← stringArgument args 0
    let v ← argument args 1
    return .define name v (.done .nil)
  | .failure => return .raise .nativeFailure (← stringArgument args 0) .nowhere
  | .failureAt => do
    let message ← stringArgument args 0
    let line ← numberArgument args 1
    let column ← numberArgument args 2
    return .raise .typeMismatch message ⟨line.toWord, column.toWord⟩
  | .failureInside => return .fail .notCallable (← stringArgument args 0) .nowhere
  | .crash => return .crash (← stringArgument args 0)
  | .twice => do
    let f ← argument args 0
    return .call f [] .nowhere fun _ => .call f [] .nowhere .done
  | .apply => return .call (← argument args 0) args.tail .nowhere .done
  | .attempt =>
    return .attempt (← argument args 0) args.tail attemptSite fun
      | .ok v => .done v
      | .error e => .done (.string e.diagnostic.text)

/-- The function as the body of a native function. -/
def body (f : HostFunction) (args : List Value) : Act :=
  match f.act args with
  | .ok act => act
  | .error message => .crash message

end HostFunction

end Lox
