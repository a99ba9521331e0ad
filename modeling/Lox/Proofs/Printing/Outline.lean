import Lox.Program.Printer

/-!
# Outlines

The outline of a program is what is left of it without locations and distances, with a function
applied to the numbers in it. Two programs have the same outline by the identity if and only if they
agree node by node in everything else, the bits of their numbers included.
-/

namespace Lox

/-- A name without its location. -/
def Name.outline (name : Name) : Name := ⟨name.text, .nowhere⟩

/-- An operator without its location. -/
def Operator.outline (op : Operator) : Operator := ⟨op.kind, op.lexeme, .nowhere⟩

/-- A function applied to a value that is a number. -/
def Value.mapNumber (f : Number → Number) : Value → Value
  | .number x => .number (f x)
  | v => v

@[simp] theorem Value.mapNumber_id (v : Value) : v.mapNumber id = v := by
  cases v <;> rfl

namespace Expr

mutual

/-- An expression without locations and distances. -/
def outline (f : Number → Number) : Expr → Expr
  | .literal v _ => .literal (v.mapNumber f) .nowhere
  | .grouping e _ => .grouping (e.outline f) .nowhere
  | .unary op e => .unary op.outline (e.outline f)
  | .binary op l r => .binary op.outline (l.outline f) (r.outline f)
  | .logical op l r => .logical op.outline (l.outline f) (r.outline f)
  | .reference name _ => .reference name.outline none
  | .assign name _ e => .assign name.outline none (e.outline f)
  | .call callee args _ => .call (callee.outline f) (outlines f args) .nowhere

/-- The outlines of a list of expressions. -/
def outlines (f : Number → Number) : List Expr → List Expr
  | [] => []
  | e :: es => e.outline f :: outlines f es

end

end Expr

namespace Stmt

mutual

/-- A statement without locations and distances. -/
def outline (f : Number → Number) : Stmt → Stmt
  | .expression e _ => .expression (e.outline f) .nowhere
  | .print e _ => .print (e.outline f) .nowhere
  | .var name e => .var name.outline (e.map (Expr.outline f))
  | .block body _ => .block (outlines f body) .nowhere
  | .ifThen c branch _ => .ifThen (c.outline f) (branch.outline f) .nowhere
  | .ifElse c branch otherwise _ =>
    .ifElse (c.outline f) (branch.outline f) (otherwise.outline f) .nowhere
  | .whileLoop c body _ => .whileLoop (c.outline f) (body.outline f) .nowhere
  | .function name params body =>
    .function name.outline (params.map Name.outline) (outlines f body)
  | .returnStmt e _ => .returnStmt (e.map (Expr.outline f)) .nowhere

/-- The outlines of a list of statements. -/
def outlines (f : Number → Number) : List Stmt → List Stmt
  | [] => []
  | s :: rest => s.outline f :: outlines f rest

end

end Stmt

/-- A program without locations and distances. -/
def Program.outline (f : Number → Number) (p : Program) : Program := Stmt.outlines f p

/-! ## Numbers that were read again -/

/-- The number that is read from the literal of a number. -/
def Number.reread (x : Number) : Number := .ofNumeral x.literal

end Lox
