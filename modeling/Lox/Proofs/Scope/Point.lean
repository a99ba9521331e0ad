import Lox.Scope.Check
import Mathlib.Data.List.Lex

/-!
# Places in a program

A node of a program is found by its address: which child to take at every step from the root. The
order of addresses, where a node comes before those below it, is the order of the source. The scopes
around a node are the blocks and functions on the way to it, and a scope declares a name if one of its
parameters has the name or a declaration that belongs to no scope further in.
-/

namespace Lox

/-- A program, or a statement or expression in it. -/
inductive Node
  | program (p : Program)
  | stmt (s : Stmt)
  | expr (e : Expr)

/-- The place of a node below a root. -/
abbrev Address := List Nat

/-- The nodes directly below an expression. -/
def Expr.children : Expr → List Expr
  | .literal _ _ | .reference _ _ => []
  | .grouping e _ | .unary _ e | .assign _ _ e => [e]
  | .binary _ l r | .logical _ l r => [l, r]
  | .call f args _ => f :: args

/-- The nodes directly below a statement. -/
def Stmt.children : Stmt → List Node
  | .expression e _ | .print e _ => [.expr e]
  | .var _ e | .returnStmt e _ => (e.map Node.expr).toList
  | .block body _ | .function _ _ body => body.map .stmt
  | .ifThen c branch _ => [.expr c, .stmt branch]
  | .ifElse c branch otherwise _ => [.expr c, .stmt branch, .stmt otherwise]
  | .whileLoop c body _ => [.expr c, .stmt body]

/-- The names that a statement declares in the scope around it. -/
def Stmt.hoisted : Stmt → List Text
  | .var name _ | .function name _ _ => [name.text]
  | .ifThen _ branch _ => branch.hoisted
  | .ifElse _ branch otherwise _ => branch.hoisted ++ otherwise.hoisted
  | .whileLoop _ body _ => body.hoisted
  | .expression _ _ | .print _ _ | .block _ _ | .returnStmt _ _ => []

namespace Node

/-- The nodes directly below a node, in the order of the source. -/
def children : Node → List Node
  | .program p => p.map .stmt
  | .stmt s => s.children
  | .expr e => e.children.map .expr

/-- Blocks and functions are scopes. -/
def isScope : Node → Bool
  | .stmt (.block _ _) | .stmt (.function _ _ _) => true
  | _ => false

/-- The name that a node declares in the scope around it. -/
def declared? : Node → Option Text
  | .stmt s => s.declared?
  | _ => none

/-- The names of the parameters of a function. -/
def parameters : Node → List Text
  | .stmt (.function _ params _) => params.map Name.text
  | _ => []

/-- The names that a node and the nodes below it declare in the scope around it. -/
def hoisted : Node → List Text
  | .program p => p.flatMap Stmt.hoisted
  | .stmt s => s.hoisted
  | .expr _ => []

/-- The node at an address. -/
def at? : Node → Address → Option Node
  | n, [] => some n
  | n, i :: a => n.children[i]?.bind (·.at? a)

/-- The addresses of the scopes around a node, innermost first. -/
def enclosing : Node → Address → List Address
  | _, [] => []
  | n, i :: a =>
    (n.children[i]?.elim [] fun m => (m.enclosing a).map (i :: ·)) ++ if n.isScope then [[]] else []

/-- The name is declared at an address, in the given scope. -/
def DeclaredAt (root : Node) (scope : Address) (name : Text) (d : Address) : Prop :=
  (∃ n, root.at? d = some n ∧ n.declared? = some name) ∧ (root.enclosing d).head? = some scope

/-- A parameter of the scope has the name. -/
def HasParameter (root : Node) (scope : Address) (name : Text) : Prop :=
  ∃ n, root.at? scope = some n ∧ name ∈ n.parameters

/-- The scope declares the name somewhere. -/
def Declares (root : Node) (scope : Address) (name : Text) : Prop :=
  root.HasParameter scope name ∨ ∃ d, root.DeclaredAt scope name d

/-- The scope declares the name at or before an address. -/
def DeclaresBy (root : Node) (scope : Address) (name : Text) (a : Address) : Prop :=
  root.HasParameter scope name ∨ ∃ d, root.DeclaredAt scope name d ∧ d ≤ a

/-! ## Addresses -/

theorem at?_append (n : Node) (a b : Address) : n.at? (a ++ b) = (n.at? a).bind (·.at? b) := by
  induction a generalizing n with
  | nil => rfl
  | cons i a ih =>
    simp only [List.cons_append, at?]
    cases n.children[i]? with
    | none => rfl
    | some m => exact ih m

theorem at?_snoc (n : Node) (a : Address) (i : Nat) :
    n.at? (a ++ [i]) = (n.at? a).bind (·.children[i]?) := by
  rw [at?_append]
  congr 1
  funext m
  simp [at?]

/-- The scopes around a node are those on the way from an inner node, and those around that. -/
theorem enclosing_append {n m : Node} {a : Address} (h : n.at? a = some m) (b : Address) :
    n.enclosing (a ++ b) = (m.enclosing b).map (a ++ ·) ++ n.enclosing a := by
  induction a generalizing n with
  | nil =>
    obtain rfl : n = m := by simpa [at?] using h
    simp [enclosing]
  | cons i a ih =>
    cases hc : n.children[i]? with
    | none => simp [at?, hc] at h
    | some c =>
      have h : c.at? a = some m := by simpa [at?, hc] using h
      simp [enclosing, hc, ih h, Function.comp_def]

theorem enclosing_snoc {n m : Node} {a : Address} (h : n.at? a = some m) {i : Nat} {c : Node}
    (hc : m.children[i]? = some c) :
    n.enclosing (a ++ [i]) = (if m.isScope then [a] else []) ++ n.enclosing a := by
  rw [enclosing_append h]
  cases hs : m.isScope <;> simp [enclosing, hc, hs]

/-- A scope around a node lies above it. -/
theorem prefix_of_mem_enclosing {n : Node} {a b : Address} (h : b ∈ n.enclosing a) :
    b <+: a ∧ b ≠ a := by
  induction a generalizing n b with
  | nil => simp [enclosing] at h
  | cons i a ih =>
    rw [enclosing, List.mem_append] at h
    rcases h with h | h
    · cases hc : n.children[i]? with
      | none => simp [hc] at h
      | some c =>
        obtain ⟨b', hb', rfl⟩ : ∃ b' ∈ c.enclosing a, i :: b' = b := by simpa [hc] using h
        obtain ⟨hp, hne⟩ := ih hb'
        exact ⟨(List.prefix_cons_inj i).2 hp, by simpa using hne⟩
    · split at h
      · obtain rfl := List.mem_singleton.1 h
        exact ⟨List.nil_prefix, (List.cons_ne_nil _ _).symm⟩
      · cases h

theorem length_lt_of_mem_enclosing {n : Node} {a b : Address} (h : b ∈ n.enclosing a) :
    b.length < a.length := by
  obtain ⟨hp, hne⟩ := prefix_of_mem_enclosing h
  exact Nat.lt_of_le_of_ne hp.length_le fun he => hne (hp.eq_of_length he)

/-- Every scope is further out than the ones before it. -/
theorem enclosing_pairwise (n : Node) (a : Address) :
    (n.enclosing a).Pairwise fun b c => c.length < b.length := by
  induction a generalizing n with
  | nil => exact .nil
  | cons i a ih =>
    rw [enclosing, List.pairwise_append]
    refine ⟨?_, ?_, ?_⟩
    · cases n.children[i]? with
      | none => exact .nil
      | some c => exact (List.pairwise_map.2 ((ih c).imp (by simp)))
    · split
      · exact List.pairwise_singleton _ _
      · exact .nil
    · intro b hb c hc
      split at hc
      · obtain rfl := List.mem_singleton.1 hc
        cases hm : n.children[i]? with
        | none => simp [hm] at hb
        | some m =>
          obtain ⟨b', _, rfl⟩ : ∃ b' ∈ m.enclosing a, i :: b' = b := by simpa [hm] using hb
          exact Nat.zero_lt_succ _
      · cases hc

/-! ## Declarations that belong to no inner scope -/

/-- The node or one below it declares the name in the scope around the node. -/
def Hoists (n : Node) (name : Text) : Prop :=
  ∃ d m, n.at? d = some m ∧ m.declared? = some name ∧ n.enclosing d = []

theorem hoists_iff (n : Node) (name : Text) :
    n.Hoists name ↔
      n.declared? = some name ∨ n.isScope = false ∧ ∃ c ∈ n.children, c.Hoists name := by
  constructor
  · rintro ⟨d, m, hd, hm, he⟩
    cases d with
    | nil =>
      obtain rfl : n = m := by simpa [at?] using hd
      exact .inl hm
    | cons i d =>
      cases hc : n.children[i]? with
      | none => simp [at?, hc] at hd
      | some c =>
        have hd : c.at? d = some m := by simpa [at?, hc] using hd
        have he : c.enclosing d = [] ∧ n.isScope = false := by simpa [enclosing, hc] using he
        exact .inr ⟨he.2, c, List.mem_of_getElem? hc, d, m, hd, hm, he.1⟩
  · rintro (h | ⟨hs, c, hc, d, m, hd, hm, he⟩)
    · exact ⟨[], n, rfl, h, rfl⟩
    · obtain ⟨i, hi⟩ := List.getElem?_of_mem hc
      exact ⟨i :: d, m, by simp [at?, hi, hd], hm, by simp [enclosing, hi, he, hs]⟩

theorem at?_expr {e : Expr} {d : Address} {m : Node} (h : (Node.expr e).at? d = some m) :
    ∃ e', m = .expr e' := by
  induction d generalizing e with
  | nil =>
    obtain rfl : Node.expr e = m := by simpa [at?] using h
    exact ⟨e, rfl⟩
  | cons i d ih =>
    cases hc : e.children[i]? with
    | none => simp [at?, children, hc] at h
    | some c => exact ih (by simpa [at?, children, hc] using h)

theorem not_hoists_expr (e : Expr) (name : Text) : ¬(Node.expr e).Hoists name := by
  rintro ⟨d, m, hd, hm, _⟩
  obtain ⟨e', rfl⟩ := at?_expr hd
  cases hm

theorem mem_hoisted_stmt (s : Stmt) (name : Text) :
    name ∈ s.hoisted ↔ (Node.stmt s).Hoists name := by
  induction s using Stmt.hoisted.induct with
  | case1 n e =>
    rw [hoists_iff]
    cases e <;> simp [Stmt.hoisted, declared?, Stmt.declared?, children, Stmt.children, isScope,
      not_hoists_expr, eq_comm (a := name)]
  | case2 n =>
    rw [hoists_iff]
    simp [Stmt.hoisted, declared?, Stmt.declared?, isScope, eq_comm (a := name)]
  | case3 _ _ _ ih | case5 _ _ _ ih =>
    rw [hoists_iff]
    simp [Stmt.hoisted, declared?, Stmt.declared?, children, Stmt.children, isScope, ih,
      not_hoists_expr]
  | case4 _ _ _ _ ih ih' =>
    rw [hoists_iff]
    simp [Stmt.hoisted, declared?, Stmt.declared?, children, Stmt.children, isScope, ih, ih',
      not_hoists_expr]
  | _ =>
    rw [hoists_iff]
    simp [Stmt.hoisted, declared?, Stmt.declared?, children, Stmt.children, isScope,
      not_hoists_expr]

theorem mem_hoisted (n : Node) (name : Text) : name ∈ n.hoisted ↔ n.Hoists name := by
  cases n with
  | program p =>
    simp only [hoisted, List.mem_flatMap, mem_hoisted_stmt]
    rw [hoists_iff]
    simp only [declared?, isScope, children, reduceCtorEq, false_or, true_and, List.mem_map]
    constructor
    · rintro ⟨s, hs, h⟩
      exact ⟨.stmt s, ⟨s, hs, rfl⟩, h⟩
    · rintro ⟨_, ⟨s, hs, rfl⟩, h⟩
      exact ⟨s, hs, h⟩
  | stmt s => exact mem_hoisted_stmt s name
  | expr e => simpa [hoisted] using not_hoists_expr e name

/-! ## Declarations below a node -/

/-- A declaration below a node belongs to a scope around the node if it belongs to none inside. -/
theorem declaredAt_below {root n c : Node} {a e scope : Address} {j : Nat} {name : Text}
    (ha : root.at? a = some n) (hj : n.children[j]? = some c)
    (hs : scope ∈ root.enclosing (a ++ [j])) :
    root.DeclaredAt scope name (a ++ j :: e) ↔
      (∃ m, c.at? e = some m ∧ m.declared? = some name ∧ c.enclosing e = []) ∧
        (root.enclosing (a ++ [j])).head? = some scope := by
  have hc : root.at? (a ++ [j]) = some c := by rw [at?_snoc, ha]; exact hj
  have hat : root.at? (a ++ j :: e) = c.at? e := by
    rw [← List.singleton_append, ← List.append_assoc, at?_append, hc]
    rfl
  have hen : root.enclosing (a ++ j :: e) =
      (c.enclosing e).map (a ++ [j] ++ ·) ++ root.enclosing (a ++ [j]) := by
    rw [← List.singleton_append, ← List.append_assoc, enclosing_append hc]
  unfold DeclaredAt
  rw [hat, hen]
  constructor
  · rintro ⟨⟨m, hm, hname⟩, hhead⟩
    cases he : c.enclosing e with
    | nil => exact ⟨⟨m, hm, hname, rfl⟩, by simpa [he] using hhead⟩
    | cons b bs =>
      obtain rfl : a ++ [j] ++ b = scope := by simpa [he] using hhead
      exact absurd (length_lt_of_mem_enclosing hs) (by simp)
  · rintro ⟨⟨m, hm, hname, he⟩, hhead⟩
    exact ⟨⟨m, hm, hname⟩, by simpa [he] using hhead⟩

theorem declaredAt_self {root n : Node} {a scope : Address} {name : Text}
    (ha : root.at? a = some n) :
    root.DeclaredAt scope name a ↔
      n.declared? = some name ∧ (root.enclosing a).head? = some scope := by
  simp [DeclaredAt, ha]

/-- What a scope declares besides its parameters is declared below it. -/
theorem exists_of_declaredAt {root : Node} {scope d : Address} {name : Text}
    (h : root.DeclaredAt scope name d) : ∃ j e, d = scope ++ j :: e := by
  obtain ⟨⟨⟨as, rfl⟩, hne⟩, _⟩ := And.intro
    (prefix_of_mem_enclosing (List.mem_of_mem_head? h.2)) h.1
  cases as with
  | nil => exact absurd (by simp) hne
  | cons j e => exact ⟨j, e, rfl⟩

/-! ## The order of the source -/

theorem not_lt_self (a : Address) : ¬a < a := List.lt_irrefl a

theorem lt_append (a : Address) (i : Nat) (e : Address) : a < a ++ i :: e := by
  induction a with
  | nil => exact List.nil_lt_cons i e
  | cons j a ih => exact List.cons_lt_cons_self.2 ih

/-- What comes before a child comes before its parent, is the parent, or lies in or below an earlier
child. -/
theorem lt_snoc_iff (d a : Address) (i : Nat) :
    d < a ++ [i] ↔ d < a ∨ d = a ∨ ∃ j < i, ∃ e, d = a ++ j :: e := by
  induction a generalizing d with
  | nil =>
    cases d with
    | nil => simp
    | cons j e => simp [List.cons_lt_cons_iff]
  | cons k a ih =>
    cases d with
    | nil => simp
    | cons j e =>
      rw [List.cons_append, List.cons_lt_cons_iff, List.cons_lt_cons_iff, ih]
      constructor
      · rintro (h | ⟨rfl, h | rfl | ⟨l, hl, e, rfl⟩⟩)
        · exact .inl (.inl h)
        · exact .inl (.inr ⟨rfl, h⟩)
        · exact .inr (.inl rfl)
        · exact .inr (.inr ⟨l, hl, e, rfl⟩)
      · rintro ((h | ⟨rfl, h⟩) | h | ⟨l, hl, e', h⟩)
        · exact .inl h
        · exact .inr ⟨rfl, .inl h⟩
        · obtain ⟨rfl, rfl⟩ := List.cons.inj h
          exact .inr ⟨rfl, .inr (.inl rfl)⟩
        · obtain ⟨rfl, rfl⟩ := List.cons.inj h
          exact .inr ⟨rfl, .inr (.inr ⟨l, hl, e', rfl⟩)⟩

end Node

end Lox
