import Lox.Number.Display

/-!
# Values

The values of the language: nil, truth values, numbers, strings, and two sorts of things that can
be called. A callable value is a handle; what the handle stands for is kept by the machine. Two
handles of a sort are the same callable exactly when their identities agree.

`Value.equal` is the equality of the language. It differs from identity of values in two places:
not a number equals nothing, and the two zeros are equal.
-/

namespace Lox

/-- A handle on something that can be called. -/
structure Callable where
  id : Nat
  name : Text
  arity : Nat
  deriving DecidableEq

/-- A value. -/
inductive Value
  | nil
  | bool (b : Bool)
  | number (x : Number)
  | string (s : Text)
  /-- A function that a script declared. -/
  | function (f : Callable)
  /-- A function that the host provides. -/
  | native (f : Callable)
  deriving DecidableEq, Inhabited

namespace Value

/-- The name of a value's type; scripts do not tell the two sorts of function apart. -/
def typeName : Value → Text
  | .nil => utf8 "nil"
  | .bool _ => utf8 "bool"
  | .number _ => utf8 "number"
  | .string _ => utf8 "string"
  | .function _ => utf8 "function"
  | .native _ => utf8 "function"

/-- The text of a value, as a script prints it. -/
def text : Value → Text
  | .nil => utf8 "nil"
  | .bool b => utf8 (if b then "true" else "false")
  | .number x => x.text
  | .string s => s
  | .function f => utf8 "<fn " ++ f.name ++ utf8 ">"
  | .native f => utf8 "<native fn " ++ f.name ++ utf8 ">"

/-- Nil and false are not true; everything else is. -/
def truthy : Value → Bool
  | .nil => false
  | .bool b => b
  | _ => true

/-- Equality of the language. -/
def equal : Value → Value → Bool
  | .nil, .nil => true
  | .bool a, .bool b => a == b
  | .number x, .number y => x.equal y
  | .string s, .string t => s == t
  | .function f, .function g => f.id == g.id
  | .native f, .native g => f.id == g.id
  | _, _ => false

theorem equal_comm (v w : Value) : v.equal w = w.equal v := by
  cases v <;> cases w <;> simp only [equal, Bool.beq_comm, Number.equal_comm]

/-- Whether a value is one of the two sorts of function. -/
def isCallable : Value → Bool
  | .function _ | .native _ => true
  | _ => false

/-! ## Access by type -/

/-- What a host can take a value for. -/
inductive Role
  | bool
  | number
  | string
  | function
  | native
  | callable
  deriving DecidableEq

/-- How a message names a role. -/
def Role.wording : Role → Text
  | .bool => utf8 "a bool"
  | .number => utf8 "a number"
  | .string => utf8 "a string"
  | .function => utf8 "a function"
  | .native => utf8 "a native function"
  | .callable => utf8 "callable"

/-- A value was taken for something that it is not. -/
structure Mismatch where
  wanted : Role
  got : Value

/-- The message for a mismatch; it names the type of the value, not the value. -/
def Mismatch.message (m : Mismatch) : Text :=
  utf8 "Value is not " ++ m.wanted.wording ++ utf8 ", got " ++ m.got.typeName

/-- The truth value that a value is. -/
def asBool : Value → Except Mismatch Bool
  | .bool b => .ok b
  | v => .error ⟨.bool, v⟩

/-- The number that a value is. -/
def asNumber : Value → Except Mismatch Number
  | .number x => .ok x
  | v => .error ⟨.number, v⟩

/-- The string that a value is. -/
def asString : Value → Except Mismatch Text
  | .string s => .ok s
  | v => .error ⟨.string, v⟩

/-- The script function that a value is. -/
def asFunction : Value → Except Mismatch Callable
  | .function f => .ok f
  | v => .error ⟨.function, v⟩

/-- The native function that a value is. -/
def asNative : Value → Except Mismatch Callable
  | .native f => .ok f
  | v => .error ⟨.native, v⟩

/-- Either sort of callable. -/
def asCallable : Value → Except Mismatch Callable
  | .function f | .native f => .ok f
  | v => .error ⟨.callable, v⟩

end Value

end Lox
