import Lox.Eval.Operator
import Lox.Proofs.Grammar.Nodes
import Lox.Proofs.Scope.Accepted

/-!
# Parsed programs are well formed

Whatever is wrong with the tokens, what the parser makes of them can be relied on by those who walk the
tree: each operator is a token of a kind that has a meaning where it stands, each name is an identifier,
each node has the parts that its kind needs, and declarations stand in programs, blocks and functions
only (`Node.WellFormed`). Resolving keeps all of that.

It follows from the rules that make the nodes (`Node.ByRule.wellMade`).
-/

namespace Lox

/-! ## Well-formed nodes -/

/-- The operators that have a meaning before an operand. -/
def Operator.unaryKinds : List TokenKind := [.bang, .minus]

/-- The operators that have a meaning between two operands. -/
def Operator.binaryKinds : List TokenKind :=
  [.plus, .minus, .star, .slash, .greater, .greaterEqual, .less, .lessEqual, .equalEqual, .bangEqual]

/-- The operators that do without their right operand if the left one decides. -/
def Operator.logicalKinds : List TokenKind := [.kwAnd, .kwOr]

/-- The operator is one of the tokens, and of one of the kinds. -/
def Operator.IsToken (ts : List Token) (kinds : List TokenKind) (op : Operator) : Prop :=
  ∃ t ∈ ts, t.kind ∈ kinds ∧ op = t.operator

/-- The name is one of the tokens, an identifier. -/
def Name.IsToken (ts : List Token) (name : Name) : Prop :=
  ∃ t ∈ ts, t.kind = .identifier ∧ name = t.named

/-- The kinds of nodes. -/
inductive NodeKind
  | program
  | literal
  | grouping
  | unary
  | binary
  | logical
  | reference
  | assign
  | call
  | expression
  | print
  | var
  | block
  | conditional (hasElse : Bool)
  | whileLoop
  | function
  | returnStmt

/-- The numbers of expressions and of statements directly below a node of the kind. -/
def NodeKind.Needs : NodeKind → Nat → Nat → Prop
  | .literal, es, ss | .reference, es, ss => es = 0 ∧ ss = 0
  | .grouping, es, ss | .unary, es, ss | .assign, es, ss => es = 1 ∧ ss = 0
  | .binary, es, ss | .logical, es, ss => es = 2 ∧ ss = 0
  | .call, es, ss => 1 ≤ es ∧ ss = 0
  | .expression, es, ss | .print, es, ss => es = 1 ∧ ss = 0
  | .var, es, ss | .returnStmt, es, ss => es ≤ 1 ∧ ss = 0
  | .conditional hasElse, es, ss => es = 1 ∧ ss = if hasElse then 2 else 1
  | .whileLoop, es, ss => es = 1 ∧ ss = 1
  | .program, es, _ | .block, es, _ | .function, es, _ => es = 0

namespace Node

/-- The kind of a node. -/
def kind : Node → NodeKind
  | .program _ => .program
  | .expr (.literal _ _) => .literal
  | .expr (.grouping _ _) => .grouping
  | .expr (.unary _ _) => .unary
  | .expr (.binary _ _ _) => .binary
  | .expr (.logical _ _ _) => .logical
  | .expr (.reference _ _) => .reference
  | .expr (.assign _ _ _) => .assign
  | .expr (.call _ _ _) => .call
  | .stmt (.expression _ _) => .expression
  | .stmt (.print _ _) => .print
  | .stmt (.var _ _) => .var
  | .stmt (.block _ _) => .block
  | .stmt (.ifThen _ _ _) => .conditional false
  | .stmt (.ifElse _ _ _ _) => .conditional true
  | .stmt (.whileLoop _ _ _) => .whileLoop
  | .stmt (.function _ _ _) => .function
  | .stmt (.returnStmt _ _) => .returnStmt

/-- Whether a node is an expression. -/
def isExpr : Node → Bool
  | .expr _ => true
  | _ => false

/-- The operator and the names of a node are tokens of the right kind, and its branches and its body, if
it is no block, are no declarations. -/
def WellMade (ts : List Token) : Node → Prop
  | .expr (.unary op _) => op.IsToken ts Operator.unaryKinds
  | .expr (.binary op _ _) => op.IsToken ts Operator.binaryKinds
  | .expr (.logical op _ _) => op.IsToken ts Operator.logicalKinds
  | .expr (.reference name _) | .expr (.assign name _ _) | .stmt (.var name _) => name.IsToken ts
  | .stmt (.function name params _) => name.IsToken ts ∧ ∀ x ∈ params, x.IsToken ts
  | .stmt (.ifThen _ branch _) => branch.declared? = none
  | .stmt (.ifElse _ branch otherwise _) => branch.declared? = none ∧ otherwise.declared? = none
  | .stmt (.whileLoop _ body _) => body.declared? = none
  | _ => True

/-- What those who walk a tree rely on at a node. -/
structure WellFormed (ts : List Token) (n : Node) : Prop where
  /-- Operators and names are tokens of the right kind. -/
  made : n.WellMade ts
  /-- The node has the parts that its kind needs. -/
  needs : n.kind.Needs (n.children.countP isExpr) (n.children.countP (!·.isExpr))
  /-- Declarations stand directly in a program, a block or a function. -/
  declarations : ∀ s, .stmt s ∈ n.children → s.declared? ≠ none →
    n.isScope = true ∨ ∃ p, n = .program p

theorem needs (n : Node) :
    n.kind.Needs (n.children.countP isExpr) (n.children.countP (!·.isExpr)) := by
  cases n with
  | program p => simp [kind, children, NodeKind.Needs, isExpr]
  | expr e =>
    cases e <;> simp [kind, children, Expr.children, NodeKind.Needs, isExpr, List.countP_cons]
  | stmt s =>
    cases s with
    | var _ e | returnStmt e _ =>
      cases e <;> simp [kind, children, Stmt.children, NodeKind.Needs, isExpr]
    | _ => simp [kind, children, Stmt.children, NodeKind.Needs, isExpr, List.countP_cons]

variable {ts us : List Token} {n : Node}

theorem WellMade.wellFormed (h : n.WellMade ts) : n.WellFormed ts where
  made := h
  needs := n.needs
  declarations s hs hdeclared := by
    cases n with
    | program p => exact .inr ⟨p, rfl⟩
    | expr e =>
      obtain ⟨_, _, he⟩ := List.mem_map.1 hs
      cases he
    | stmt s' =>
      cases s' with
      | block | function => exact .inl rfl
      | ifThen c branch loc =>
        obtain rfl : s = branch := by simpa [children, Stmt.children] using hs
        exact absurd h hdeclared
      | ifElse c branch otherwise loc =>
        have hs : s = branch ∨ s = otherwise := by simpa [children, Stmt.children] using hs
        rcases hs with rfl | rfl
        · exact absurd h.1 hdeclared
        · exact absurd h.2 hdeclared
      | whileLoop c body loc =>
        obtain rfl : s = body := by simpa [children, Stmt.children] using hs
        exact absurd h hdeclared
      | _ => simp [children, Stmt.children] at hs

/-- Binding changes no operators, no names and no declarations. -/
theorem WellMade.bind (h : n.WellMade ts) (scopes : OpenScopes) : (n.bind scopes).WellMade ts := by
  cases n with
  | program p => trivial
  | expr e => cases e <;> exact h
  | stmt s =>
    cases s with
    | ifThen c branch loc => exact (Stmt.declared?_bind _ branch).trans h
    | ifElse c branch otherwise loc =>
      exact ⟨(Stmt.declared?_bind _ branch).trans h.1, (Stmt.declared?_bind _ otherwise).trans h.2⟩
    | whileLoop c body loc => exact (Stmt.declared?_bind _ body).trans h
    | _ => exact h

end Node

/-! ## Parsed programs -/

/-- The operators of a level have a meaning in the nodes of the level. -/
theorem Level.wellMade_node {ts : List Token} {level : Level} {t : Token} (ht : t ∈ ts)
    (hkind : t.kind ∈ level.operators) (l r : Expr) :
    (Node.expr (level.node t.operator l r)).WellMade ts := by
  cases level with
  | disjunction | conjunction =>
    refine ⟨t, ht, ?_, rfl⟩
    rw [List.mem_singleton.1 hkind]
    decide
  | equality | comparison | sum | product =>
    exact ⟨t, ht, List.subset_def.1 (by decide) hkind, rfl⟩
  | _ => cases hkind

/-- Every rule makes its node well. -/
theorem Node.ByRule.wellMade {ts : List Token} {n : Node} (h : n.ByRule ts) : n.WellMade ts := by
  cases h with
  | @name t ht hkind | @assignment t _ ht hkind | @var t _ ht hkind => exact ⟨t, ht, hkind, rfl⟩
  | @unary t _ ht hkind => exact ⟨t, ht, by simpa [Operator.unaryKinds] using hkind, rfl⟩
  | joined ht hkind => exact Level.wellMade_node ht hkind _ _
  | @function t ps body ht hkind hps hkinds =>
    exact ⟨⟨t, ht, hkind, rfl⟩, List.forall_mem_map.2 fun p hp => ⟨p, hps hp, hkinds p hp, rfl⟩⟩
  | ifThen hs | whileLoop hs => exact hs
  | ifElse hs hs' => exact ⟨hs, hs'⟩
  | _ => trivial

/-- All nodes of a parsed program are well made, whatever is wrong with the tokens. -/
theorem parse_wellMade {ts : List Token} {a : Address} {n : Node}
    (h : (Node.program (parse ts).program).at? a = some n) : n.WellMade ts :=
  (parse_byRule ts a n h).wellMade

/-- Resolving keeps that. -/
theorem resolve_wellMade {settings : ScopeSettings} {ts : List Token} {a : Address} {n : Node}
    (h : (Node.program (Program.resolve settings (parse ts).program).1).at? a = some n) :
    n.WellMade ts := by
  obtain ⟨m, ctx, hpoint, rfl⟩ :=
    @Node.exists_point_of_at?_bind (.program (parse ts).program) _ [] a h
  exact (parse_wellMade hpoint.at?).bind ctx.visible

end Lox
