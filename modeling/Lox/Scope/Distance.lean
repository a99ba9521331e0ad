import Lox.Program.Basic

/-!
# Distances

A block opens a scope, and a function opens one for its parameters and its body together; top-level
declarations belong to no scope. Going through a program from left to right, the scopes that are
open, innermost first, hold the names declared so far; `Program.bind` gives every reference and
every assignment the number of scopes between it and the nearest one that declares its name.

A declaration counts from its name on: inside its own initializer or body, too.
-/

namespace Lox

/-- The names declared so far in each open scope, innermost first. -/
abbrev OpenScopes := List (List Text)

namespace OpenScopes

/-- How many scopes to go outward to the nearest one that declares a name. -/
def distance? (scopes : OpenScopes) (name : Text) : Option Nat :=
  scopes.findIdx? (·.contains name)

/-- Declares a name in the innermost scope; outside of all scopes there is nothing to note. -/
def declare (scopes : OpenScopes) (name : Text) : OpenScopes :=
  match scopes with
  | [] => []
  | names :: outer => (name :: names) :: outer

end OpenScopes

namespace Expr

mutual

/-- The expression with the distances that it has inside the given scopes. -/
def bind (scopes : OpenScopes) : Expr → Expr
  | .literal v loc => .literal v loc
  | .grouping e loc => .grouping (e.bind scopes) loc
  | .unary op e => .unary op (e.bind scopes)
  | .binary op l r => .binary op (l.bind scopes) (r.bind scopes)
  | .logical op l r => .logical op (l.bind scopes) (r.bind scopes)
  | .reference name _ => .reference name (scopes.distance? name.text)
  | .assign name _ e => .assign name (scopes.distance? name.text) (e.bind scopes)
  | .call f args loc => .call (f.bind scopes) (bindAll scopes args) loc

/-- A list of expressions with their distances. -/
def bindAll (scopes : OpenScopes) : List Expr → List Expr
  | [] => []
  | e :: es => e.bind scopes :: bindAll scopes es

end

end Expr

namespace Stmt

mutual

/-- The statement with its distances, and the open scopes behind it. -/
def bind (scopes : OpenScopes) : Stmt → Stmt × OpenScopes
  | .expression e loc => (.expression (e.bind scopes) loc, scopes)
  | .print e loc => (.print (e.bind scopes) loc, scopes)
  | .var name e =>
    let scopes := scopes.declare name.text
    (.var name (e.map (Expr.bind scopes)), scopes)
  | .block body loc => (.block (bindAll ([] :: scopes) body).1 loc, scopes)
  | .ifThen c branch loc =>
    let (branch, after) := branch.bind scopes
    (.ifThen (c.bind scopes) branch loc, after)
  | .ifElse c branch otherwise loc =>
    let (branch, between) := branch.bind scopes
    let (otherwise, after) := otherwise.bind between
    (.ifElse (c.bind scopes) branch otherwise loc, after)
  | .whileLoop c body loc =>
    let (body, after) := body.bind scopes
    (.whileLoop (c.bind scopes) body loc, after)
  | .function name params body =>
    let scopes := scopes.declare name.text
    (.function name params (bindAll (params.map Name.text :: scopes) body).1, scopes)
  | .returnStmt e loc => (.returnStmt (e.map (Expr.bind scopes)) loc, scopes)

/-- Statements in a row with their distances, and the open scopes behind them. -/
def bindAll (scopes : OpenScopes) : List Stmt → List Stmt × OpenScopes
  | [] => ([], scopes)
  | s :: rest =>
    let (s, between) := s.bind scopes
    let (rest, after) := bindAll between rest
    (s :: rest, after)

end

end Stmt

/-- The program with its distances. -/
def Program.bind (p : Program) : Program := (Stmt.bindAll [] p).1

end Lox
