import Lox.Token
import Lox.Value

/-!
# Programs

A program is a list of statements; statements hold expressions. A name or an operator remembers
where it was written. References and assignments carry a *distance*: how many scopes to go outward
to the one that declares the name, or none if the name is global. The parser leaves distances
empty.
-/

namespace Lox

/-- A name and where it is written. The token of a name is always an identifier, so its kind is not
kept. -/
structure Name where
  text : Text
  loc : Location
  deriving DecidableEq

/-- An operator as it is written. -/
structure Operator where
  kind : TokenKind
  lexeme : Text
  loc : Location
  deriving DecidableEq

/-- Expressions. A call is located at its closing parenthesis. -/
inductive Expr
  | literal (value : Value) (loc : Location)
  | grouping (inner : Expr) (loc : Location)
  | unary (op : Operator) (operand : Expr)
  | binary (op : Operator) (left right : Expr)
  | logical (op : Operator) (left right : Expr)
  | reference (name : Name) (distance : Option Nat)
  | assign (name : Name) (distance : Option Nat) (value : Expr)
  | call (callee : Expr) (arguments : List Expr) (loc : Location)
  deriving Inhabited

/-- Statements. -/
inductive Stmt
  | expression (e : Expr) (loc : Location)
  | print (e : Expr) (loc : Location)
  | var (name : Name) (initializer : Option Expr)
  | block (body : List Stmt) (loc : Location)
  | ifThen (condition : Expr) (branch : Stmt) (loc : Location)
  | ifElse (condition : Expr) (branch otherwise : Stmt) (loc : Location)
  | whileLoop (condition : Expr) (body : Stmt) (loc : Location)
  | function (name : Name) (parameters : List Name) (body : List Stmt)
  | returnStmt (value : Option Expr) (loc : Location)
  deriving Inhabited

/-- A program is its top-level statements, in order. -/
abbrev Program := List Stmt

/-- The location of an expression. -/
def Expr.loc : Expr → Location
  | .literal _ loc | .grouping _ loc | .call _ _ loc => loc
  | .unary op _ | .binary op _ _ | .logical op _ _ => op.loc
  | .reference name _ | .assign name _ _ => name.loc

/-- The location of a statement. -/
def Stmt.loc : Stmt → Location
  | .expression _ loc | .print _ loc | .block _ loc | .ifThen _ _ loc | .ifElse _ _ _ loc
  | .whileLoop _ _ loc | .returnStmt _ loc => loc
  | .var name _ | .function name _ _ => name.loc

/-- The expression that a statement holds itself: what it evaluates, prints, tests or returns, or
the initializer of a declaration. -/
def Stmt.expression? : Stmt → Option Expr
  | .expression e _ | .print e _ | .ifThen e _ _ | .ifElse e _ _ _ | .whileLoop e _ _ => some e
  | .var _ e | .returnStmt e _ => e
  | .block _ _ | .function _ _ _ => none

end Lox
