import Lox.Program.Basic

/-!
# Similar programs

Two programs are similar when they differ at most in locations and distances: the same
constructs, names, operators and equal literals, in the same places.
-/

namespace Lox

namespace Operator

/-- Whether two operators are of the same kind and spelled the same. -/
def similar (a b : Operator) : Bool := a.kind == b.kind && a.lexeme == b.lexeme

end Operator

namespace Name

/-- Whether two names are spelled the same. Both are identifiers, so there are no kinds to compare. -/
def similar (a b : Name) : Bool := a.text == b.text

/-- Lists of names that agree one by one. -/
def allSimilar : List Name → List Name → Bool
  | [], [] => true
  | a :: as, b :: bs => a.similar b && allSimilar as bs
  | _, _ => false

end Name

namespace Expr

mutual

/-- Whether two expressions differ at most in locations and distances. -/
def similar : Expr → Expr → Bool
  | .literal v _, .literal w _ => v.equal w
  | .grouping a _, .grouping b _ => a.similar b
  | .unary p a, .unary q b => p.similar q && a.similar b
  | .binary p a c, .binary q b d => p.similar q && a.similar b && c.similar d
  | .logical p a c, .logical q b d => p.similar q && a.similar b && c.similar d
  | .reference m _, .reference n _ => m.similar n
  | .assign m _ a, .assign n _ b => m.similar n && a.similar b
  | .call f as _, .call g bs _ => f.similar g && allSimilar as bs
  | _, _ => false

/-- Lists of expressions that are similar one by one. -/
def allSimilar : List Expr → List Expr → Bool
  | [], [] => true
  | a :: as, b :: bs => a.similar b && allSimilar as bs
  | _, _ => false

end

/-- Optional expressions: both absent, or both there and similar. -/
def optionSimilar : Option Expr → Option Expr → Bool
  | none, none => true
  | some a, some b => a.similar b
  | _, _ => false

end Expr

namespace Stmt

mutual

/-- Whether two statements differ at most in locations and distances. -/
def similar : Stmt → Stmt → Bool
  | .expression a _, .expression b _ => a.similar b
  | .print a _, .print b _ => a.similar b
  | .var m a, .var n b => m.similar n && Expr.optionSimilar a b
  | .block as _, .block bs _ => allSimilar as bs
  | .ifThen c a _, .ifThen d b _ => c.similar d && a.similar b
  | .ifElse c a e _, .ifElse d b f _ => c.similar d && a.similar b && e.similar f
  | .whileLoop c a _, .whileLoop d b _ => c.similar d && a.similar b
  | .function m ps as, .function n qs bs => m.similar n && Name.allSimilar ps qs && allSimilar as bs
  | .returnStmt a _, .returnStmt b _ => Expr.optionSimilar a b
  | _, _ => false

/-- Lists of statements that are similar one by one. -/
def allSimilar : List Stmt → List Stmt → Bool
  | [], [] => true
  | a :: as, b :: bs => a.similar b && allSimilar as bs
  | _, _ => false

end

end Stmt

/-- Whether two programs differ at most in locations and distances. -/
def Program.similar (p q : Program) : Bool := Stmt.allSimilar p q

end Lox
