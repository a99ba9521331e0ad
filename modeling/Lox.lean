import Lox.HostFunction
import Lox.Main
import Lox.Program.Printer
import Lox.Program.Similar
import Lox.Proofs.Grammar.Basic
import Lox.Proofs.Grammar.Triple
import Lox.Proofs.Grammar.Expression
import Lox.Proofs.Grammar.Statement
import Lox.Proofs.Grammar.Levels
import Lox.Proofs.Grammar.ExpressionCompleteness
import Lox.Proofs.Grammar.StatementCompleteness
import Lox.Proofs.Grammar.Parse
import Lox.Proofs.Grammar.Height
import Lox.Proofs.Scope.Context
import Lox.Proofs.Scope.Distance
import Lox.Proofs.Scope.Check
import Lox.Proofs.Scope.Accepted
import Lox.Proofs.Run.Preservation
import Lox.Proofs.Run.Reach
import Lox.Proofs.Run.Session
import Lox.Proofs.Printing.Literal
import Lox.Proofs.Printing.Scanning
import Lox.Proofs.Printing.Outline
import Lox.Proofs.Printing.Expression
import Lox.Proofs.Printing.Statement
import Lox.Proofs.Printing.Program
import Lox.Proofs.Likeness.Program
import Lox.Proofs.Likeness.Scope
import Lox.Proofs.Likeness.Similar
import Lox.Proofs.Likeness.Machine
import Lox.Proofs.Likeness.Eval
import Lox.Proofs.Likeness.Outcome
import Lox.Proofs.Run.Names
import Lox.Proofs.Run.Compiled
import Lox.Proofs.Run.Depth
import Lox.Proofs.Run.Trace
import Lox.Proofs.Run.Termination
import Lox.Proofs.Run.Fuel
import Lox.Proofs.Run.Limit
import Lox.Proofs.Likeness.Grammar
import Lox.Proofs.Likeness.Parse
import Lox.Proofs.Grammar.Local
import Lox.Proofs.Split.Scanning
import Lox.Proofs.Split.Parsing
import Lox.Proofs.Split.Checking
import Lox.Proofs.Split.Running
import Lox.Proofs.Scan.Pattern
import Lox.Proofs.Scan.Munch
import Lox.Proofs.Scan.Layout
import Lox.Proofs.Scan.Stream
import Lox.Proofs.Run.Announced
import Lox.Proofs.Split.Isolation
import Lox.Proofs.Run.Verdict
import Lox.Proofs.Printing.Kinds
import Lox.Proofs.Printing.Accepted
import Lox.Proofs.Rename.Program
import Lox.Proofs.Rename.Places
import Lox.Proofs.Rename.Distance
import Lox.Proofs.Rename.Check
import Lox.Proofs.Rename.Machine
import Lox.Proofs.Rename.Eval
import Lox.Proofs.Rename.Outcome
import Lox.Proofs.Number.Digits
import Lox.Proofs.Number.Shortest
import Lox.Proofs.Number.ReadBack
import Lox.Proofs.Run.Assignment
import Lox.Proofs.Scope.Position
import Lox.Proofs.Scope.Finding
import Lox.Proofs.Scope.Record
import Lox.Proofs.Scope.Closing
import Lox.Proofs.Scope.Reading
import Lox.Proofs.Scope.Account
import Lox.Proofs.Recovery.Lookahead
import Lox.Proofs.Recovery.Swap
import Lox.Proofs.Recovery.CutShort
import Lox.Proofs.Recovery.Semicolon
import Lox.Proofs.Scope.Settings
import Lox.Proofs.Run.Located
import Lox.Proofs.Scan.Ending
import Lox.Proofs.Scan.Spacing
import Lox.Proofs.Likeness.Parallel
import Lox.Proofs.Likeness.Equivalence
import Lox.Proofs.Number.Order
import Lox.Proofs.Number.Nearest
import Lox.Proofs.Number.Text
import Lox.Proofs.Run.Store
import Lox.Proofs.Recovery.FirstEnd
import Lox.Proofs.Grammar.WellFormed
import Lox.Proofs.Run.Operators
