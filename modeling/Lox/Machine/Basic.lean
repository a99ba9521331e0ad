import Lox.Machine.Frames
import Lox.Machine.Native
import Lox.Program.Basic

/-!
# Machines

The state that running scripts changes: the frames, what function values and native values stand
for, the calls under way, and the lines written. Frame zero is the global frame. A `Run` changes a
machine and gives a result, unless it ends in an error or is given too little fuel to finish.
-/

namespace Lox

/-- What a function value stands for: a declaration and the frame it was declared in. -/
structure Closure where
  name : Text
  parameters : List Name
  body : List Stmt
  frame : Nat

/-- The state of running scripts. -/
structure Machine where
  frames : Frames
  functions : Array Closure
  natives : Array Native
  /-- The calls under way, innermost first. -/
  calls : List CallFrame
  /-- The lines written. -/
  output : Array Text
  /-- How often the clock has been read. -/
  readings : Nat

/-- What does not change while scripts run. -/
structure Host where
  /-- How many calls may be under way. -/
  maxDepth : Nat
  /-- The successive readings of the clock, in seconds. -/
  clock : Nat → Number

/-- Why a run ends without a result. -/
inductive Abort
  | error (e : RuntimeError)
  | outOfFuel

/-- A computation on a machine. -/
abbrev Run := EStateM Abort Machine

namespace Machine

/-- A machine with an empty global frame. -/
def empty : Machine := ⟨Frames.addGlobal #[], #[], #[], [], #[], 0⟩

/-- The number of the global frame. -/
def globalFrame : Nat := 0

/-- How many calls are under way. -/
def depth (m : Machine) : Nat := m.calls.length

/-- The value of a global variable. -/
def global? (m : Machine) (name : Text) : Option Value := m.frames.getLocal globalFrame name

/-- Defines a global variable. -/
def defineGlobal (m : Machine) (name : Text) (v : Value) : Machine :=
  { m with frames := m.frames.define globalFrame name v }

/-- The names of the global variables, in the order of their definition. -/
def globalNames (m : Machine) : List Text := m.frames.localNames globalFrame

/-- The global variables, sorted by name. -/
def globals (m : Machine) : Bindings :=
  (m.frames.locals globalFrame).mergeSort fun a b => decide (a.1 ≤ b.1)

/-- Makes a native function value. -/
def addNative (m : Machine) (native : Native) : Value × Machine :=
  (.native ⟨m.natives.size, native.name, native.arity⟩,
   { m with natives := m.natives.push native })

/-- Makes a function value. -/
def addFunction (m : Machine) (closure : Closure) : Value × Machine :=
  (.function ⟨m.functions.size, closure.name, closure.parameters.length⟩,
   { m with functions := m.functions.push closure })

/-- How many arguments a callable value takes: a function those that its declaration has parameters
for, a native function those that it was made for. -/
def arity (m : Machine) : Value → Callable → Nat
  | .function _, f => (m.functions[f.id]?.map (·.parameters.length)).getD f.arity
  | _, f => f.arity

end Machine

namespace Run

variable {α : Type}

/-- Ends in an error, with the calls under way as its trace. -/
def fail (fault : Fault) (loc : Location) : Run α := do
  throw (.error ⟨fault, loc, (← get).calls⟩)

/-- Gives a result, or ends in an error at the given location. -/
def ofExcept (loc : Location) : Except Fault α → Run α
  | .ok a => return a
  | .error fault => fail fault loc

/-- Makes a frame. -/
def newFrame (parent : Nat) : Run Nat := do
  let frame := (← get).frames.size
  modify fun m => { m with frames := m.frames.addChild parent }
  return frame

/-- Binds a name in a frame. -/
def define (frame : Nat) (name : Text) (v : Value) : Run Unit :=
  modify fun m => { m with frames := m.frames.define frame name v }

/-- Writes a line. -/
def write (line : Text) : Run Unit := modify fun m => { m with output := m.output.push line }

/-- Runs with one more call under way, however the run ends. -/
def withCall (call : CallFrame) (body : Run α) : Run α := fun m =>
  match body { m with calls := call :: m.calls } with
  | .ok a m => .ok a { m with calls := m.calls.tail }
  | .error e m => .error e { m with calls := m.calls.tail }

/-- Runs to the end also if that is an error. -/
def attempt (body : Run α) : Run (Except RuntimeError α) := fun m =>
  match body m with
  | .ok a m => .ok (.ok a) m
  | .error (.error e) m => .ok (.error e) m
  | .error .outOfFuel m => .error .outOfFuel m

end Run

end Lox
