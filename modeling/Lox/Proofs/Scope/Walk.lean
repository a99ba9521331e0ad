import Lox.Proofs.Scope.Reading

/-!
# The check as a walk

What the check does at a node is what it does in front of the node's children, what it does at the children,
and what it does behind them (`Node.run_check`). So a fact about the check is a fact about the two ends of a
node, of any kind, and the walk between them is the same for all nodes.
-/

namespace Lox

namespace Node

/-- The check of a node. -/
def check (settings : ScopeSettings) (known : List Text) (initializing : Option Text)
    (inFunction : Bool) : Node → Check Unit
  | .program p => Stmt.checkAll settings known inFunction p
  | .stmt s => s.check settings known inFunction
  | .expr e => e.check known initializing

/-- The check of nodes in a row. -/
def checkAll (settings : ScopeSettings) (known : List Text) (initializing : Option Text)
    (inFunction : Bool) : List Node → Check Unit
  | [] => return
  | n :: ns => do
    n.check settings known initializing inFunction
    checkAll settings known initializing inFunction ns

/-- What the check does in front of the children of a node. -/
def checkFront (known : List Text) (initializing : Option Text) (inFunction : Bool) : Node → Check Unit
  | .expr (.reference name d) => (Expr.reference name d).check known initializing
  | .stmt (.var name _) => Check.declare name false
  | .stmt (.block _ _) => Check.openScope
  | .stmt (.function name params _) => do
    Check.declare name false
    Check.define name.text
    Check.openScope
    params.forM fun param => do
      Check.declare param true
      Check.define param.text
  | .stmt (.returnStmt _ loc) => if !inFunction then Check.note .returnOutsideFunction loc else return
  | _ => return

/-- What the check does behind the children of a node. -/
def checkBehind (settings : ScopeSettings) (known : List Text) : Node → Check Unit
  | .expr (.assign name _ _) => do
    if !(← Check.isLocal name.text) && !known.contains name.text then
      Check.note (.undeclaredVariable name.text) name.loc
  | .stmt (.var name _) => Check.define name.text
  | .stmt (.block _ _) | .stmt (.function _ _ _) => Check.closeScope settings
  | _ => return

/-- The global variable that is being initialized inside a node. -/
def initializing (isGlobal : Bool) (outer : Option Text) : Node → Option Text
  | .expr _ => outer
  | .stmt (.var name _) => if isGlobal then some name.text else none
  | _ => none

/-- The node is a function. -/
def isFunction : Node → Bool
  | .stmt (.function _ _ _) => true
  | _ => false

variable {settings : ScopeSettings} {known : List Text} {initializing : Option Text} {inFunction : Bool}

theorem checkAll_expr (es : List Expr) :
    checkAll settings known initializing inFunction (es.map .expr) =
      Expr.checkAll known initializing es := by
  induction es with
  | nil => rw [Expr.checkAll]; rfl
  | cons e es ih => rw [Expr.checkAll, ← ih]; rfl

theorem checkAll_stmt (body : List Stmt) :
    checkAll settings known initializing inFunction (body.map .stmt) =
      Stmt.checkAll settings known inFunction body := by
  induction body with
  | nil => rw [Stmt.checkAll]; rfl
  | cons s body ih => rw [Stmt.checkAll, ← ih]; rfl

theorem checkAll_option (e : Option Expr) :
    checkAll settings known initializing inFunction (e.map Node.expr).toList =
      Expr.checkOption known initializing e := by
  cases e with
  | none => rfl
  | some e =>
    show (e.check known initializing >>= fun _ => pure ()) = _
    exact bind_pure _

theorem check_expr (e : Expr) :
    e.check known initializing =
      (do
        (Node.expr e).checkFront known initializing inFunction
        checkAll settings known initializing inFunction (Node.expr e).children
        (Node.expr e).checkBehind settings known : Check Unit) := by
  rw [children, checkAll_expr]
  cases e with
  | assign name d e => rw [Expr.check]; rfl
  | literal | grouping | unary | binary | logical | reference | call =>
    simp only [checkFront, checkBehind, Expr.children, Expr.check, Expr.checkAll, pure_bind,
      bind_assoc, bind_pure_unit]

/-- Declaring a name opens and closes no scope. -/
theorem isEmpty_run_declare (name : Name) (isParameter : Bool) (c : Checked) :
    ((Check.declare name isParameter).run c).2.scopes.isEmpty = c.scopes.isEmpty := by
  obtain ⟨dss, defined, issues⟩ := c
  cases dss with
  | nil => rfl
  | cons ds outer =>
    rw [Check.run_declare]
    dsimp only
    split <;> rfl

theorem run_check_var (name : Name) (e : Option Expr) (c : Checked) :
    ((Stmt.var name e).check settings known inFunction).run c =
      (do
        Check.declare name false
        Expr.checkOption known (if c.scopes.isEmpty then some name.text else none) e
        Check.define name.text : Check Unit).run c := by
  rw [Stmt.check, ← isEmpty_run_declare name false c]
  rfl

/-- The check of a node is that of its front, its children and its back. -/
theorem run_check (n : Node) (c : Checked) :
    (n.check settings known initializing inFunction).run c =
      (do
        n.checkFront known initializing inFunction
        checkAll settings known (n.initializing c.scopes.isEmpty initializing)
          (n.isFunction || inFunction) n.children
        n.checkBehind settings known : Check Unit).run c := by
  cases n with
  | program p =>
    rw [children, checkAll_stmt]
    simp only [check, checkFront, checkBehind, isFunction, Bool.false_or, pure_bind, bind_pure_unit]
  | expr e =>
    exact congrArg (StateT.run · c) (check_expr e)
  | stmt s =>
    cases s with
    | var name e =>
      rw [check, run_check_var, children, Stmt.children, checkAll_option]
      rfl
    | returnStmt e loc =>
      rw [check, Stmt.check, children, Stmt.children, checkAll_option]
      simp only [checkFront, checkBehind, Node.initializing, bind_pure_unit]
      cases inFunction <;> rfl
    | function name params body =>
      rw [check, Stmt.check, children, Stmt.children, checkAll_stmt]
      simp only [checkFront, checkBehind, isFunction, Bool.true_or, bind_assoc]
    | block body loc =>
      rw [check, Stmt.check, children, Stmt.children, checkAll_stmt]
      rfl
    | expression | print | ifThen | ifElse | whileLoop =>
      simp only [check, checkFront, checkBehind, children, Stmt.children, Stmt.check, checkAll,
        Node.initializing, isFunction, Bool.false_or, pure_bind, bind_assoc, bind_pure_unit]

end Node

end Lox
