import Lox.Proofs.Likeness.Program
import Lox.Proofs.Scope.Check
import Mathlib.Logic.Equiv.Basic

/-!
# Renaming a local variable

A local variable is declared at one place, by a statement or as a parameter; its scope is the innermost
one around the statement, or the function. `Program.rename` writes another name there and at the
references and assignments whose distance leads to that scope, and nowhere else.

`Stmt.Renamed` says the same without places: under way through the scopes it is known which one declares
the variable, and names that stand for something in that scope are exchanged, others stay. This form is
kept by running: also functions that were made long ago have bodies that are renamed in the scopes
around them.
-/

namespace Lox

/-! ## Places of names -/

/-- A place where a program writes a name: at a node, or as a parameter of a function. -/
inductive NamePlace
  | node (a : Address)
  | parameter (a : Address) (i : Nat)
  deriving DecidableEq

/-- The name with another text, at its location. -/
def Name.map (f : Text → Text) (name : Name) : Name := ⟨f name.text, name.loc⟩

namespace Expr

mutual

/-- The expression with other names at the places below its address. -/
def mapNames (f : NamePlace → Text → Text) (a : Address) : Expr → Expr
  | .literal v loc => .literal v loc
  | .grouping e loc => .grouping (e.mapNames f (a ++ [0])) loc
  | .unary op e => .unary op (e.mapNames f (a ++ [0]))
  | .binary op l r => .binary op (l.mapNames f (a ++ [0])) (r.mapNames f (a ++ [1]))
  | .logical op l r => .logical op (l.mapNames f (a ++ [0])) (r.mapNames f (a ++ [1]))
  | .reference name d => .reference (name.map (f (.node a))) d
  | .assign name d e => .assign (name.map (f (.node a))) d (e.mapNames f (a ++ [0]))
  | .call g args loc => .call (g.mapNames f (a ++ [0])) (mapNamesAll f a 1 args) loc

/-- Expressions in a row with other names; the first one is the child with the given number. -/
def mapNamesAll (f : NamePlace → Text → Text) (a : Address) (i : Nat) : List Expr → List Expr
  | [] => []
  | e :: es => e.mapNames f (a ++ [i]) :: mapNamesAll f a (i + 1) es

end

mutual

/-- The names in an expression. -/
def names : Expr → List Text
  | .literal _ _ => []
  | .grouping e _ | .unary _ e => e.names
  | .binary _ l r | .logical _ l r => l.names ++ r.names
  | .reference name _ => [name.text]
  | .assign name _ e => name.text :: e.names
  | .call f args _ => f.names ++ namesAll args

/-- The names in expressions in a row. -/
def namesAll : List Expr → List Text
  | [] => []
  | e :: es => e.names ++ namesAll es

end

end Expr

namespace Stmt

mutual

/-- The statement with other names at the places below its address. -/
def mapNames (f : NamePlace → Text → Text) (a : Address) : Stmt → Stmt
  | .expression e loc => .expression (e.mapNames f (a ++ [0])) loc
  | .print e loc => .print (e.mapNames f (a ++ [0])) loc
  | .var name e => .var (name.map (f (.node a))) (e.map (Expr.mapNames f (a ++ [0])))
  | .block body loc => .block (mapNamesAll f a 0 body) loc
  | .ifThen c branch loc => .ifThen (c.mapNames f (a ++ [0])) (branch.mapNames f (a ++ [1])) loc
  | .ifElse c branch otherwise loc =>
    .ifElse (c.mapNames f (a ++ [0])) (branch.mapNames f (a ++ [1]))
      (otherwise.mapNames f (a ++ [2])) loc
  | .whileLoop c body loc => .whileLoop (c.mapNames f (a ++ [0])) (body.mapNames f (a ++ [1])) loc
  | .function name params body =>
    .function (name.map (f (.node a))) (params.mapIdx fun i => Name.map (f (.parameter a i)))
      (mapNamesAll f a 0 body)
  | .returnStmt e loc => .returnStmt (e.map (Expr.mapNames f (a ++ [0]))) loc

/-- Statements in a row with other names; the first one is the child with the given number. -/
def mapNamesAll (f : NamePlace → Text → Text) (a : Address) (i : Nat) : List Stmt → List Stmt
  | [] => []
  | s :: rest => s.mapNames f (a ++ [i]) :: mapNamesAll f a (i + 1) rest

end

mutual

/-- The names in a statement. -/
def names : Stmt → List Text
  | .expression e _ | .print e _ => e.names
  | .var name e => name.text :: e.elim [] Expr.names
  | .block body _ => namesAll body
  | .ifThen c branch _ => c.names ++ branch.names
  | .ifElse c branch otherwise _ => c.names ++ (branch.names ++ otherwise.names)
  | .whileLoop c body _ => c.names ++ body.names
  | .function name params body => name.text :: (params.map Name.text ++ namesAll body)
  | .returnStmt e _ => e.elim [] Expr.names

/-- The names in statements in a row. -/
def namesAll : List Stmt → List Text
  | [] => []
  | s :: rest => s.names ++ namesAll rest

end

end Stmt

namespace Program

/-- The program with other names. -/
def mapNames (f : NamePlace → Text → Text) (p : Program) : Program := Stmt.mapNamesAll f [] 0 p

/-- The names in a program. -/
def names (p : Program) : List Text := Stmt.namesAll p

end Program

/-! ## Local variables -/

namespace Node

/-- The local variable that is declared at a place: its name and its scope. -/
def local? (root : Node) : NamePlace → Option (Text × Address)
  | .node a =>
    match root.at? a with
    | some (.stmt (.var name _)) => (root.enclosing a).head?.map (name.text, ·)
    | _ => none
  | .parameter a i =>
    match root.at? a with
    | some (.stmt (.function _ params _)) => params[i]?.map fun param => (param.text, a)
    | _ => none

/-- What a reference or an assignment resolves to: its name and the scope at its distance. -/
def resolved? (root : Node) (a : Address) : Option (Text × Address) :=
  match (root.at? a).bind target? with
  | some (name, some d) => (root.enclosing a)[d]?.map (name.text, ·)
  | _ => none

/-- Whether a place is that of the declaration or of a reference or assignment that resolves to it. -/
def denotes (root : Node) (declaration : NamePlace) : NamePlace → Bool
  | .node a =>
    .node a = declaration || (root.resolved? a).any fun l => root.local? declaration = some l
  | .parameter a i => .parameter a i = declaration

end Node

/-- The program with another name for one local variable, in its declaration and in exactly the
references and assignments that resolve to it. -/
def Program.rename (p : Program) (declaration : NamePlace) (y : Text) : Program :=
  p.mapNames fun place x => if (Node.program p.bind).denotes declaration place then y else x

/-! ## Renamed by scopes -/

/-- Which of the scopes around a place are marked, by their distances. -/
abbrev Marks := Nat → Bool

namespace Marks

/-- No scope is marked. -/
def none : Marks := fun _ => false

/-- The marks inside one more scope. -/
def enter (marks : Marks) (mark : Bool) : Marks
  | 0 => mark
  | d + 1 => marks d

/-- The marks outside of the innermost scope. -/
def leave (marks : Marks) : Marks := fun d => marks (d + 1)

/-- Whether a distance leads to a marked scope. -/
def leads (marks : Marks) (d : Option Nat) : Bool := d.elim false marks

@[simp] theorem enter_zero (marks : Marks) (mark : Bool) : marks.enter mark 0 = mark := rfl

@[simp] theorem enter_none : none.enter false = none := by
  funext d
  cases d <;> rfl

@[simp] theorem leads_none (marks : Marks) : marks.leads Option.none = false := rfl

@[simp] theorem none_leads (d : Option Nat) : none.leads d = false := by
  cases d <;> rfl

end Marks

/-- The exchange of names where a scope is marked. -/
def exchangeIf (σ : Equiv.Perm Text) (mark : Bool) : Equiv.Perm Text :=
  if mark then σ else Equiv.refl Text

@[simp] theorem exchangeIf_false (σ : Equiv.Perm Text) (x : Text) : exchangeIf σ false x = x := rfl

@[simp] theorem exchangeIf_true (σ : Equiv.Perm Text) (x : Text) : exchangeIf σ true x = σ x := rfl

/-- Expressions that are the same but for names that stand for something in a marked scope. -/
inductive Expr.Renamed (σ : Equiv.Perm Text) (marks : Marks) : Expr → Expr → Prop
  | literal (v : Value) (loc : Location) : Renamed σ marks (.literal v loc) (.literal v loc)
  | grouping {e e' : Expr} {loc : Location} :
    Renamed σ marks e e' → Renamed σ marks (.grouping e loc) (.grouping e' loc)
  | unary {op : Operator} {e e' : Expr} :
    Renamed σ marks e e' → Renamed σ marks (.unary op e) (.unary op e')
  | binary {op : Operator} {l l' r r' : Expr} :
    Renamed σ marks l l' → Renamed σ marks r r' →
      Renamed σ marks (.binary op l r) (.binary op l' r')
  | logical {op : Operator} {l l' r r' : Expr} :
    Renamed σ marks l l' → Renamed σ marks r r' →
      Renamed σ marks (.logical op l r) (.logical op l' r')
  | reference (name : Name) (d : Option Nat) :
    Renamed σ marks (.reference name d)
      (.reference (name.map (exchangeIf σ (marks.leads d))) d)
  | assign (name : Name) (d : Option Nat) {e e' : Expr} :
    Renamed σ marks e e' →
      Renamed σ marks (.assign name d e) (.assign (name.map (exchangeIf σ (marks.leads d))) d e')
  | call {f f' : Expr} {args : List (Expr × Expr)} {loc : Location} :
    Renamed σ marks f f' → (∀ e ∈ args, Renamed σ marks e.1 e.2) →
      Renamed σ marks (.call f (args.map Prod.fst) loc) (.call f' (args.map Prod.snd) loc)

/-- Optional expressions that are the same but for names. -/
abbrev Expr.OptionRenamed (σ : Equiv.Perm Text) (marks : Marks) :
    Option Expr → Option Expr → Prop :=
  Option.Rel (Expr.Renamed σ marks)

/-- Statements that are the same but for names that stand for something in a marked scope. Any scope
further in may be marked, too. A function keeps its name. -/
inductive Stmt.Renamed (σ : Equiv.Perm Text) : Marks → Stmt → Stmt → Prop
  | expression {marks : Marks} {e e' : Expr} {loc : Location} :
    e.Renamed σ marks e' → Renamed σ marks (.expression e loc) (.expression e' loc)
  | print {marks : Marks} {e e' : Expr} {loc : Location} :
    e.Renamed σ marks e' → Renamed σ marks (.print e loc) (.print e' loc)
  | var {marks : Marks} (name : Name) {e e' : Option Expr} :
    Expr.OptionRenamed σ marks e e' →
      Renamed σ marks (.var name e) (.var (name.map (exchangeIf σ (marks 0))) e')
  | block {marks : Marks} (mark : Bool) {body : List (Stmt × Stmt)} {loc : Location} :
    (∀ s ∈ body, Renamed σ (marks.enter mark) s.1 s.2) →
      Renamed σ marks (.block (body.map Prod.fst) loc) (.block (body.map Prod.snd) loc)
  | ifThen {marks : Marks} {c c' : Expr} {s s' : Stmt} {loc : Location} :
    c.Renamed σ marks c' → Renamed σ marks s s' →
      Renamed σ marks (.ifThen c s loc) (.ifThen c' s' loc)
  | ifElse {marks : Marks} {c c' : Expr} {s s' o o' : Stmt} {loc : Location} :
    c.Renamed σ marks c' → Renamed σ marks s s' → Renamed σ marks o o' →
      Renamed σ marks (.ifElse c s o loc) (.ifElse c' s' o' loc)
  | whileLoop {marks : Marks} {c c' : Expr} {s s' : Stmt} {loc : Location} :
    c.Renamed σ marks c' → Renamed σ marks s s' →
      Renamed σ marks (.whileLoop c s loc) (.whileLoop c' s' loc)
  | function {marks : Marks} (mark : Bool) (name : Name) (params : List Name)
      {body : List (Stmt × Stmt)} :
    exchangeIf σ (marks 0) name.text = name.text →
      (∀ s ∈ body, Renamed σ (marks.enter mark) s.1 s.2) →
      Renamed σ marks (.function name params (body.map Prod.fst))
        (.function name (params.map (Name.map (exchangeIf σ mark))) (body.map Prod.snd))
  | returnStmt {marks : Marks} {e e' : Option Expr} {loc : Location} :
    Expr.OptionRenamed σ marks e e' → Renamed σ marks (.returnStmt e loc) (.returnStmt e' loc)

section Rows

variable {σ : Equiv.Perm Text} {marks : Marks}

theorem Expr.Renamed.calls {f f' : Expr} {args args' : List Expr} {loc : Location}
    (hf : f.Renamed σ marks f') (hargs : List.Forall₂ (Expr.Renamed σ marks) args args') :
    (Expr.call f args loc).Renamed σ marks (.call f' args' loc) := by
  obtain ⟨pairs, rfl, rfl, hpairs⟩ := pairs_of_forall₂ hargs
  exact .call hf hpairs

theorem Stmt.Renamed.blocks (mark : Bool) {body body' : List Stmt} {loc : Location}
    (h : List.Forall₂ (Stmt.Renamed σ (marks.enter mark)) body body') :
    (Stmt.block body loc).Renamed σ marks (.block body' loc) := by
  obtain ⟨pairs, rfl, rfl, hpairs⟩ := pairs_of_forall₂ h
  exact .block mark hpairs

theorem Stmt.Renamed.functions (mark : Bool) {name : Name} (params : List Name)
    {body body' : List Stmt} (hname : exchangeIf σ (marks 0) name.text = name.text)
    (h : List.Forall₂ (Stmt.Renamed σ (marks.enter mark)) body body') :
    (Stmt.function name params body).Renamed σ marks
      (.function name (params.map (Name.map (exchangeIf σ mark))) body') := by
  obtain ⟨pairs, rfl, rfl, hpairs⟩ := pairs_of_forall₂ h
  exact .function mark name params hname hpairs

end Rows

/-! ### Code without marks -/

theorem Name.map_exchangeIf_false_row (σ : Equiv.Perm Text) (params : List Name) :
    params.map (Name.map (exchangeIf σ false)) = params :=
  List.map_id' params

mutual

/-- Nothing is renamed where no scope is marked. -/
theorem Expr.Renamed.refl (σ : Equiv.Perm Text) (e : Expr) : e.Renamed σ .none e := by
  cases e with
  | literal v loc => exact .literal v loc
  | grouping e => exact .grouping (refl σ e)
  | unary _ e => exact .unary (refl σ e)
  | binary _ l r => exact .binary (refl σ l) (refl σ r)
  | logical _ l r => exact .logical (refl σ l) (refl σ r)
  | reference name d =>
    have h : (Expr.reference name d).Renamed σ .none _ := .reference name d
    rwa [Marks.none_leads] at h
  | assign name d e =>
    have h : (Expr.assign name d e).Renamed σ .none _ := .assign name d (refl σ e)
    rwa [Marks.none_leads] at h
  | call f args => exact .calls (refl σ f) (reflAll σ args)

theorem Expr.Renamed.reflAll (σ : Equiv.Perm Text) (es : List Expr) :
    List.Forall₂ (Expr.Renamed σ .none) es es := by
  cases es with
  | nil => exact .nil
  | cons e es => exact .cons (refl σ e) (reflAll σ es)

end

theorem Expr.OptionRenamed.refl (σ : Equiv.Perm Text) (e : Option Expr) :
    OptionRenamed σ .none e e := by
  cases e with
  | none => exact .none
  | some e => exact .some (.refl σ e)

mutual

theorem Stmt.Renamed.refl (σ : Equiv.Perm Text) (s : Stmt) : s.Renamed σ .none s := by
  cases s with
  | expression e => exact .expression (.refl σ e)
  | print e => exact .print (.refl σ e)
  | var name e => exact .var name (.refl σ e)
  | block body => exact .blocks false (Marks.enter_none.symm ▸ reflAll σ body)
  | ifThen c branch => exact .ifThen (.refl σ c) (refl σ branch)
  | ifElse c branch otherwise => exact .ifElse (.refl σ c) (refl σ branch) (refl σ otherwise)
  | whileLoop c body => exact .whileLoop (.refl σ c) (refl σ body)
  | function name params body =>
    have h : (Stmt.function name params body).Renamed σ .none
        (.function name (params.map (Name.map (exchangeIf σ false))) body) :=
      .functions false params rfl (Marks.enter_none.symm ▸ reflAll σ body)
    rwa [Name.map_exchangeIf_false_row] at h
  | returnStmt e => exact .returnStmt (.refl σ e)

theorem Stmt.Renamed.reflAll (σ : Equiv.Perm Text) (body : List Stmt) :
    List.Forall₂ (Stmt.Renamed σ .none) body body := by
  cases body with
  | nil => exact .nil
  | cons s rest => exact .cons (refl σ s) (reflAll σ rest)

end

end Lox
