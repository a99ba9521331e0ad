import Lox.Parse.Basic
import Lox.Program.Basic

/-!
# Parsing expressions

From loose to tight: assignment, `or`, `and`, equality, comparison, sum, product, the operators
`!` and `-` before an operand, calls, and primary expressions. Assignment and the operators before
an operand group to the right, the others to the left.

Nesting is bounded, and the bound is built into the recursion. A `Grammar` is a set of parsers for
one depth; each production is defined over the grammar one level deeper, and the grammar below the
deepest level fails at once. So no parser can run deeper than allowed, and parsing ends because
every recursive production goes one level down. Every binary operator, every prefixed operator,
every argument list and every expression in brackets, behind an equals sign or on its own is a
level; in a row of operators each right operand is one level deeper than the one before.
-/

namespace Lox

/-- The levels of binary operators. -/
inductive Tier
  | or
  | and
  | equality
  | comparison
  | sum
  | product
  deriving DecidableEq

namespace Tier

/-- The tiers, from loose to tight. -/
def all : List Tier := [.or, .and, .equality, .comparison, .sum, .product]

/-- The operators of a tier. -/
def operators : Tier → List TokenKind
  | .or => [.kwOr]
  | .and => [.kwAnd]
  | .equality => [.bangEqual, .equalEqual]
  | .comparison => [.greater, .greaterEqual, .less, .lessEqual]
  | .sum => [.minus, .plus]
  | .product => [.slash, .star]

/-- The expression that joins two operands. -/
def join : Tier → Operator → Expr → Expr → Expr
  | .or, op, l, r | .and, op, l, r => .logical op l r
  | _, op, l, r => .binary op l r

end Tier

/-- The operators that stand before their operand. -/
def prefixedOperators : List TokenKind := [.bang, .minus]

namespace Token

/-- A token taken as an operator. -/
def operator (t : Token) : Operator := ⟨t.kind, t.lexeme, t.loc⟩

/-- A token taken as a name. -/
def named (t : Token) : Name := ⟨t.lexeme, t.loc⟩

end Token

/-- The parsers of one depth. -/
structure Grammar where
  /-- An expression, behind its first level. -/
  assignment : Parser Expr
  /-- Operands joined by the operators of the given tiers, from loose to tight. -/
  operand : List Tier → Parser Expr
  /-- More operators of a tier, behind a left operand; the operands are of the tighter tiers. -/
  chain : Tier → List Tier → Expr → Parser Expr
  /-- An expression with operators before it. -/
  unary : Parser Expr
  /-- Argument lists, behind a callee. -/
  calls : Expr → Parser Expr
  /-- The arguments of a call, behind the opening parenthesis. -/
  arguments : Parser (List Expr)
  /-- A statement, behind its first level. -/
  statement : Parser Stmt
  /-- A function declaration, behind the keyword. -/
  function : Parser Stmt

/-- The grammar below the deepest level. -/
def Grammar.tooDeep : Grammar where
  assignment := Parser.fail .nestingTooDeep
  operand _ := Parser.fail .nestingTooDeep
  chain _ _ _ := Parser.fail .nestingTooDeep
  unary := Parser.fail .nestingTooDeep
  calls _ := Parser.fail .nestingTooDeep
  arguments := Parser.fail .nestingTooDeep
  statement := Parser.fail .nestingTooDeep
  function := Parser.fail .nestingTooDeep

namespace Parser

/-- An expression, at its first level. -/
def expression (inner : Grammar) : Parser Expr := inner.assignment

/-- A literal, a name, or an expression in parentheses. -/
def primary (inner : Grammar) : Parser Expr := do
  let t ← peek
  match t.kind, t.constant with
  | .kwFalse, _ => do
    skip
    return .literal (.bool false) t.loc
  | .kwTrue, _ => do
    skip
    return .literal (.bool true) t.loc
  | .kwNil, _ => do
    skip
    return .literal .nil t.loc
  | .number, some (.number x) => do
    skip
    return .literal (.number x) t.loc
  | .string, some (.string s) => do
    skip
    return .literal (.string s) t.loc
  | .identifier, _ => do
    skip
    return .reference t.named none
  | .leftParen, _ => do
    skip
    let e ← expression inner
    let _ ← expect .closeGrouping
    return .grouping e t.loc
  | _, _ => fail .expectedExpression

/-- The arguments of a call, behind the opening parenthesis. -/
def arguments (inner : Grammar) : Parser (List Expr) := do
  if ← check .rightParen then
    return []
  else
    commaSeparated .tooManyArguments (expression inner)

/-- Argument lists, behind a callee. -/
def calls (inner : Grammar) (callee : Expr) : Parser Expr := do
  match ← accept .leftParen with
  | some _ =>
    let args ← inner.arguments
    let close ← expect .closeArguments
    inner.calls (.call callee args close.loc)
  | none => return callee

/-- A primary expression with operators before it and argument lists behind it. -/
def unary (inner : Grammar) : Parser Expr := do
  match ← acceptOne prefixedOperators with
  | some t => return .unary t.operator (← inner.unary)
  | none => calls inner (← primary inner)

/-- More operators of a tier, behind a left operand. -/
def chain (inner : Grammar) (tier : Tier) (tighter : List Tier) (left : Expr) : Parser Expr := do
  match ← acceptOne tier.operators with
  | some t =>
    let right ← inner.operand tighter
    inner.chain tier tighter (tier.join t.operator left right)
  | none => return left

/-- Operands joined by the operators of the given tiers. -/
def operand (inner : Grammar) : List Tier → Parser Expr
  | [] => unary inner
  | tier :: tighter => do
    let left ← operand inner tighter
    chain inner tier tighter left

/-- An operand, or an assignment to a name. What stands before the equals sign is parsed as an
operand; that it is a name is checked when the value has been parsed. -/
def assignment (inner : Grammar) : Parser Expr := do
  let target ← operand inner Tier.all
  match ← accept .equal with
  | some equals =>
    let value ← inner.assignment
    match target with
    | .reference name _ => return .assign name none value
    | _ =>
      report .invalidAssignmentTarget equals
      return target
  | none => return target

end Parser

end Lox
