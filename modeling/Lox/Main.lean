import Lox.CommandLine

/-!
# The program

Reads the arguments and the script, runs the command, and writes what it leaves.
-/

namespace Lox

/-- More fuel than any script can use up in a lifetime. -/
def ampleFuel : Nat := 10 ^ 18

/-- The bytes of a file, if it can be opened; what can be opened but not read has none. -/
def readSource (path : String) : IO (Option Text) := do
  match ← (IO.FS.Handle.mk path .read).toBaseIO with
  | .error _ => return none
  | .ok handle =>
    match ← handle.readBinToEnd.toBaseIO with
    | .error _ => return some []
    | .ok bytes => return some bytes.toList

/-- Clock readings from a given time on, a microsecond apart. -/
def clockFrom (nanoseconds : Nat) (reading : Nat) : Number :=
  Number.ofDecimal ⟨nanoseconds + 1000 * reading, -9⟩

/-- Runs the command with its arguments. -/
def runCommand (args : List String) : IO CommandLine.Completion := do
  match CommandLine.read (args.map utf8) with
  | .error refusal => return CommandLine.refuse refusal
  | .ok request =>
    let path := (args.find? fun a => utf8 a == request.path).getD ""
    let source ← readSource path
    let clock := clockFrom (← IO.monoNanosNow)
    match CommandLine.perform request ampleFuel clock source with
    | some completion => return completion
    | none => throw (IO.userError "out of fuel")

end Lox

/-- Runs the command and writes what it leaves: first the output of the script, then the errors. -/
def main (args : List String) : IO UInt32 := do
  let completion ← Lox.runCommand args
  let out ← IO.getStdout
  out.write ⟨completion.output.toArray⟩
  out.flush
  let err ← IO.getStderr
  err.write ⟨completion.errors.toArray⟩
  err.flush
  return UInt32.ofNat completion.exitCode
