import Lox.Eval.Basic
import Lox.Parse.Statement
import Lox.Scope.Check
import Lox.TokenStream

/-!
# Sessions

A session compiles and runs scripts on one machine, so that what one script defines is there for
the next. Compiling stops at the first stage that finds errors: scanning, parsing, resolving. A
script with errors does not run.

Running takes fuel, and gives nothing if there was not enough of it.
-/

namespace Lox

/-- How many calls may be under way unless a host says otherwise. -/
def defaultMaxDepth : Nat := 1000

/-- What a host can choose. -/
structure Options where
  /-- How many calls may be under way. -/
  maxDepth : Nat
  /-- Whether to report local names that are never read. -/
  reportUnused : Bool

/-- The options of a host that chooses nothing. -/
def Options.default : Options := ⟨defaultMaxDepth, true⟩

/-- How running a script ended. -/
inductive Outcome
  | success
  /-- The script has errors and was not run. -/
  | staticError
  /-- The script was run up to an error. -/
  | runtimeError
  deriving DecidableEq

/-- The outcomes. -/
def Outcome.all : List Outcome := [.success, .staticError, .runtimeError]

/-- The name of an outcome. -/
def Outcome.name : Outcome → String
  | .success => "success"
  | .staticError => "static error"
  | .runtimeError => "runtime error"

/-- A compiled script. There is no program if scanning found errors. -/
structure Script where
  tokenCount : Nat
  program : Option Program
  diagnostics : List Diagnostic

namespace Script

/-- Whether compiling found more than warnings. -/
def hasErrors (s : Script) : Bool := Lox.hasErrors s.diagnostics

/-- The program to run, if there is one and nothing is wrong with it. -/
def runnable? (s : Script) : Option Program := if s.hasErrors then none else s.program

/-- How many top-level statements there are, if scanning found no errors. -/
def statementCount? (s : Script) : Option Nat := s.program.map List.length

end Script

/-- What is known about a script after running it. -/
structure Report where
  outcome : Outcome
  diagnostics : List Diagnostic
  tokenCount : Nat
  statementCount : Nat

/-- Compiles a source, given the names of the globals that exist. -/
def compile (settings : ScopeSettings) (source : Text) : Script :=
  let scanned := tokenize source
  let count := scanned.tokens.length
  if !scanned.errors.isEmpty then
    ⟨count, none, scanned.errors.map ScanError.diagnostic⟩
  else
    let parsed := parse scanned.tokens
    if !parsed.errors.isEmpty then
      ⟨count, some parsed.program, parsed.errors.map ParseError.diagnostic⟩
    else
      let (program, issues) := Program.resolve settings parsed.program
      ⟨count, some program, issues.map ScopeIssue.diagnostic⟩

/-- A machine, the options it is used with and its clock. -/
structure Session where
  options : Options
  clock : Nat → Number
  machine : Machine

namespace Session

/-- A session without any globals. -/
def bare (options : Options) (clock : Nat → Number) : Session := ⟨options, clock, .empty⟩

/-- The surroundings in which the scripts of a session run. -/
def host (s : Session) : Host := ⟨s.options.maxDepth, s.clock⟩

/-! ## Globals -/

/-- Defines a global variable. -/
def constant (s : Session) (name : Text) (v : Value) : Session :=
  { s with machine := s.machine.defineGlobal name v }

/-- Makes a native function and defines it as a global variable. -/
def register (s : Session) (native : Native) : Session :=
  let (v, machine) := s.machine.addNative native
  { s with machine := machine.defineGlobal native.name v }

/-- The native function `clock`, which reads the clock. -/
def clockFunction : Native := ⟨utf8 "clock", 0, fun _ => .clock fun x => .done (.number x)⟩

/-- A session with the global `clock`. -/
def new (options : Options) (clock : Nat → Number) : Session :=
  (bare options clock).register clockFunction

/-! ## Scripts -/

/-- What compiling depends on now. -/
def scopeSettings (s : Session) : ScopeSettings := ⟨s.options.reportUnused, s.machine.globalNames⟩

/-- Compiles a source with the globals that exist now. -/
def compile (s : Session) (source : Text) : Script := Lox.compile s.scopeSettings source

/-- Runs a resolved program. -/
def interpret (s : Session) (fuel : Nat) (p : Program) : Option (Option RuntimeError × Session) :=
  match (Program.exec s.host fuel p).outcome s.machine with
  | some (.ok _, m) => some (none, { s with machine := m })
  | some (.error e, m) => some (some e, { s with machine := m })
  | none => none

/-- Runs a compiled script. -/
def execute (s : Session) (fuel : Nat) (script : Script) : Option (Report × Session) :=
  let count := script.statementCount?.getD 0
  match script.runnable? with
  | none => some (⟨.staticError, script.diagnostics, script.tokenCount, count⟩, s)
  | some p =>
    match s.interpret fuel p with
    | some (none, s) => some (⟨.success, script.diagnostics, script.tokenCount, count⟩, s)
    | some (some e, s) =>
      some (⟨.runtimeError, script.diagnostics ++ [e.diagnostic], script.tokenCount, count⟩, s)
    | none => none

/-- Compiles a source and runs it. -/
def run (s : Session) (fuel : Nat) (source : Text) : Option (Report × Session) :=
  s.execute fuel (s.compile source)

/-- Calls a value from the host. -/
def call (s : Session) (fuel : Nat) (callee : Value) (args : List Value) :
    Option (Except RuntimeError Value × Session) :=
  match (callWithin s.host fuel callee args .nowhere).outcome s.machine with
  | some (r, m) => some (r, { s with machine := m })
  | none => none

end Session

end Lox
