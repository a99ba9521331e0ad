import Lox.Session

/-!
# The command line

What the command does with its arguments: `CommandLine.read` takes them apart, and
`CommandLine.perform` runs the script. Both are functions; reading the file and writing the output
is left to the caller.
-/

namespace Lox

namespace CommandLine

/-- Why there is nothing to run. -/
inductive Refusal
  /-- The arguments do not name one script. -/
  | usage
  | unknownOption (option : Text)
  | invalidDepth (value : Text)
  /-- The script cannot be opened. -/
  | missingScript (path : Text)

/-- What the arguments ask for. -/
structure Request where
  verbose : Bool
  options : Options
  path : Text

/-- What is left of the command when it has ended. -/
structure Completion where
  exitCode : Nat
  output : Text
  errors : Text

/-! ## Arguments -/

/-- White space before a number. -/
def isSpace (b : UInt8) : Bool :=
  isBlank b || b == 11 || b == 12

/-- The number of levels that an argument gives: white space, a sign and digits, whatever follows
them. There have to be digits, and they may not exceed 64 bits; a minus sign counts down from
`2 ^ 64`. -/
def readDepth? (t : Text) : Option Nat :=
  let t := t.dropWhile isSpace
  let negative := t.head? == some (ascii '-')
  let signed := negative || t.head? == some (ascii '+')
  let digits := (if signed then t.tail else t).takeWhile isDigit
  let n := Text.toNat digits
  if digits.isEmpty || n ≥ 2 ^ 64 then none
  else some (if negative then (2 ^ 64 - n) % 2 ^ 64 else n)

/-- Reads the arguments from left to right; `soFar` is what those before them ask for. -/
def readFrom (soFar : Request) : List Text → Except Refusal Request
  | [] => if soFar.path.isEmpty then .error .usage else .ok soFar
  | arg :: rest =>
    if arg = utf8 "--verbose" then
      readFrom { soFar with verbose := true } rest
    else if arg = utf8 "--no-unused" then
      readFrom { soFar with options := { soFar.options with reportUnused := false } } rest
    else if arg = utf8 "--max-depth" then
      match rest with
      | [] => .error .usage
      | value :: rest =>
        match readDepth? value with
        | none => .error (.invalidDepth value)
        | some n => readFrom { soFar with options := { soFar.options with maxDepth := n } } rest
    else if arg.head? = some (ascii '-') then .error (.unknownOption arg)
    else if soFar.path.isEmpty then readFrom { soFar with path := arg } rest
    else .error .usage

/-- Reads the arguments. An argument ends before its first zero byte. -/
def read (args : List Text) : Except Refusal Request :=
  readFrom ⟨false, .default, []⟩ (args.map Text.beforeZero)

/-! ## Refusals -/

/-- How the command is meant to be used. -/
def usageText : Text :=
  utf8 "Usage: treelox [--verbose] [--max-depth N] [--no-unused] <script>\n"

/-- The end of a command that has nothing to run. -/
def refuse : Refusal → Completion
  | .usage => ⟨64, [], usageText⟩
  | .unknownOption option =>
    ⟨64, [], utf8 "Unknown option: " ++ option ++ utf8 "\n" ++ usageText⟩
  | .invalidDepth value =>
    ⟨64, [], utf8 "Invalid --max-depth value: " ++ value ++ utf8 "\n"⟩
  | .missingScript path => ⟨66, [], utf8 "Cannot open script file: " ++ path ++ utf8 "\n"⟩

/-! ## Running -/

/-- The line for a diagnostic, which names the code if the command is to be verbose. -/
def Request.diagnosticLine (r : Request) (d : Diagnostic) : Text :=
  d.text ++ (if r.verbose then utf8 " [" ++ utf8 d.code.name ++ utf8 "]" else []) ++ utf8 "\n"

/-- The line that sums up a run. -/
def Request.summary (r : Request) (report : Report) : Text :=
  let errors := report.diagnostics.countP Diagnostic.isError
  let counted (n : Nat) (what : String) : Text := Text.ofNat n ++ utf8 what
  r.path ++ utf8 ": " ++ counted report.tokenCount " tokens, " ++
    counted report.statementCount " statements, " ++ counted errors " errors, " ++
    counted (report.diagnostics.length - errors) " warnings, " ++ utf8 report.outcome.name ++
    utf8 "\n"

/-- The exit code that tells how the script ended. -/
def exitCode : Outcome → Nat
  | .success => 0
  | .staticError => 65
  | .runtimeError => 70

/-- Runs the script that was asked for, given its source if it can be opened. -/
def perform (r : Request) (fuel : Nat) (clock : Nat → Number) (source : Option Text) :
    Option Completion :=
  match source with
  | none => some (refuse (.missingScript r.path))
  | some source =>
    match (Session.new r.options clock).run fuel source with
    | none => none
    | some (report, s) =>
      some ⟨exitCode report.outcome,
        s.machine.output.toList.flatMap (· ++ [newline]),
        report.diagnostics.flatMap r.diagnosticLine ++
          (if r.verbose then r.summary report else [])⟩

end CommandLine

end Lox
