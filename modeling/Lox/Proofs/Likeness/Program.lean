import Lox.Proofs.Scope.Distance
import Mathlib.Data.List.Forall2
import Mathlib.Data.Option.Basic

/-!
# Programs alike but for locations

`Expr.Alike L` and `Stmt.Alike L` relate trees that agree node by node, distances and the bits of
their numbers included; corresponding nodes may stand at different locations, as long as `L` relates
these. With equality for `L` a tree is like itself only, and with the relation that always holds two
trees are alike if they are the same program written at different places. Finding the distances keeps
trees alike (`Program.Alike.bind`).
-/

namespace Lox

/-- A relation between locations. -/
abbrev Placing := Location → Location → Prop

/-- Any two locations. -/
abbrev anywhere : Placing := fun _ _ => True

variable {L : Placing}

/-- Names that are spelled the same. -/
structure Name.Alike (L : Placing) (a b : Name) : Prop where
  text : a.text = b.text
  loc : L a.loc b.loc

/-- Operators of one kind that are spelled the same. -/
structure Operator.Alike (L : Placing) (p q : Operator) : Prop where
  kind : p.kind = q.kind
  lexeme : p.lexeme = q.lexeme
  loc : L p.loc q.loc

/-- Expressions that differ at most in their locations. Their literals are no functions. -/
inductive Expr.Alike (L : Placing) : Expr → Expr → Prop
  | literal {v : Value} {l l' : Location} :
    v.isCallable = false → L l l' → Alike L (.literal v l) (.literal v l')
  | grouping {e e' : Expr} {l l' : Location} :
    Alike L e e' → L l l' → Alike L (.grouping e l) (.grouping e' l')
  | unary {op op' : Operator} {e e' : Expr} :
    op.Alike L op' → Alike L e e' → Alike L (.unary op e) (.unary op' e')
  | binary {op op' : Operator} {l l' r r' : Expr} :
    op.Alike L op' → Alike L l l' → Alike L r r' → Alike L (.binary op l r) (.binary op' l' r')
  | logical {op op' : Operator} {l l' r r' : Expr} :
    op.Alike L op' → Alike L l l' → Alike L r r' → Alike L (.logical op l r) (.logical op' l' r')
  | reference {name name' : Name} {d : Option Nat} :
    name.Alike L name' → Alike L (.reference name d) (.reference name' d)
  | assign {name name' : Name} {d : Option Nat} {e e' : Expr} :
    name.Alike L name' → Alike L e e' → Alike L (.assign name d e) (.assign name' d e')
  | call {f f' : Expr} {args : List (Expr × Expr)} {l l' : Location} :
    Alike L f f' → (∀ a ∈ args, Alike L a.1 a.2) → L l l' →
      Alike L (.call f (args.map Prod.fst) l) (.call f' (args.map Prod.snd) l')

/-- Optional expressions that are alike, or both absent. -/
abbrev Expr.OptionAlike (L : Placing) : Option Expr → Option Expr → Prop :=
  Option.Rel (Expr.Alike L)

/-- Statements that differ at most in their locations. -/
inductive Stmt.Alike (L : Placing) : Stmt → Stmt → Prop
  | expression {e e' : Expr} {l l' : Location} :
    e.Alike L e' → L l l' → Alike L (.expression e l) (.expression e' l')
  | print {e e' : Expr} {l l' : Location} :
    e.Alike L e' → L l l' → Alike L (.print e l) (.print e' l')
  | var {name name' : Name} {e e' : Option Expr} :
    name.Alike L name' → Expr.OptionAlike L e e' → Alike L (.var name e) (.var name' e')
  | block {body : List (Stmt × Stmt)} {l l' : Location} :
    (∀ s ∈ body, Alike L s.1 s.2) → L l l' →
      Alike L (.block (body.map Prod.fst) l) (.block (body.map Prod.snd) l')
  | ifThen {c c' : Expr} {s s' : Stmt} {l l' : Location} :
    c.Alike L c' → Alike L s s' → L l l' → Alike L (.ifThen c s l) (.ifThen c' s' l')
  | ifElse {c c' : Expr} {s s' o o' : Stmt} {l l' : Location} :
    c.Alike L c' → Alike L s s' → Alike L o o' → L l l' →
      Alike L (.ifElse c s o l) (.ifElse c' s' o' l')
  | whileLoop {c c' : Expr} {s s' : Stmt} {l l' : Location} :
    c.Alike L c' → Alike L s s' → L l l' → Alike L (.whileLoop c s l) (.whileLoop c' s' l')
  | function {name name' : Name} {params params' : List Name} {body : List (Stmt × Stmt)} :
    name.Alike L name' → List.Forall₂ (Name.Alike L) params params' →
      (∀ s ∈ body, Alike L s.1 s.2) →
      Alike L (.function name params (body.map Prod.fst))
        (.function name' params' (body.map Prod.snd))
  | returnStmt {e e' : Option Expr} {l l' : Location} :
    Expr.OptionAlike L e e' → L l l' → Alike L (.returnStmt e l) (.returnStmt e' l')

/-- Programs that differ at most in their locations. -/
abbrev Program.Alike (L : Placing) (p q : Program) : Prop := List.Forall₂ (Stmt.Alike L) p q

/-! ## Lists of pairs -/

section Pairs

variable {α β : Type} {R : α → β → Prop}

theorem forall₂_of_pairs {pairs : List (α × β)} (h : ∀ p ∈ pairs, R p.1 p.2) :
    List.Forall₂ R (pairs.map Prod.fst) (pairs.map Prod.snd) := by
  rw [List.forall₂_map_left_iff, List.forall₂_map_right_iff, List.forall₂_same]
  exact h

theorem pairs_of_forall₂ {as : List α} {bs : List β} (h : List.Forall₂ R as bs) :
    ∃ pairs : List (α × β), as = pairs.map Prod.fst ∧ bs = pairs.map Prod.snd ∧
      ∀ p ∈ pairs, R p.1 p.2 := by
  induction h with
  | nil => exact ⟨[], rfl, rfl, List.forall_mem_nil _⟩
  | @cons a b _ _ hab _ ih =>
    obtain ⟨pairs, rfl, rfl, hpairs⟩ := ih
    exact ⟨(a, b) :: pairs, rfl, rfl, List.forall_mem_cons.2 ⟨hab, hpairs⟩⟩

end Pairs

theorem Expr.Alike.calls {f f' : Expr} {args args' : List Expr} {l l' : Location}
    (hf : f.Alike L f') (hargs : List.Forall₂ (Expr.Alike L) args args') (hl : L l l') :
    (Expr.call f args l).Alike L (.call f' args' l') := by
  obtain ⟨pairs, rfl, rfl, hpairs⟩ := pairs_of_forall₂ hargs
  exact .call hf hpairs hl

theorem Stmt.Alike.blocks {body body' : List Stmt} {l l' : Location}
    (h : List.Forall₂ (Stmt.Alike L) body body') (hl : L l l') :
    (Stmt.block body l).Alike L (.block body' l') := by
  obtain ⟨pairs, rfl, rfl, hpairs⟩ := pairs_of_forall₂ h
  exact .block hpairs hl

theorem Stmt.Alike.functions {name name' : Name} {params params' : List Name}
    {body body' : List Stmt} (hname : name.Alike L name')
    (hparams : List.Forall₂ (Name.Alike L) params params')
    (h : List.Forall₂ (Stmt.Alike L) body body') :
    (Stmt.function name params body).Alike L (.function name' params' body') := by
  obtain ⟨pairs, rfl, rfl, hpairs⟩ := pairs_of_forall₂ h
  exact .function hname hparams hpairs

/-! ## Likeness goes both ways -/

theorem Name.Alike.symm {a b : Name} (h : a.Alike L b) : b.Alike (flip L) a := ⟨h.text.symm, h.loc⟩

theorem Operator.Alike.symm {p q : Operator} (h : p.Alike L q) : q.Alike (flip L) p :=
  ⟨h.kind.symm, h.lexeme.symm, h.loc⟩

theorem Expr.Alike.symm {e e' : Expr} (h : e.Alike L e') : e'.Alike (flip L) e := by
  induction h with
  | literal hv hl => exact .literal hv hl
  | grouping _ hl ih => exact .grouping ih hl
  | unary hop _ ih => exact .unary hop.symm ih
  | binary hop _ _ ihl ihr => exact .binary hop.symm ihl ihr
  | logical hop _ _ ihl ihr => exact .logical hop.symm ihl ihr
  | reference hname => exact .reference hname.symm
  | assign hname _ ih => exact .assign hname.symm ih
  | call _ _ hl ihf ihargs => exact .calls ihf (forall₂_of_pairs ihargs).flip hl

theorem Expr.OptionAlike.symm {e e' : Option Expr} (h : Expr.OptionAlike L e e') :
    Expr.OptionAlike (flip L) e' e := by
  cases h with
  | none => exact .none
  | some he => exact .some he.symm

theorem Stmt.Alike.symm {s s' : Stmt} (h : s.Alike L s') : s'.Alike (flip L) s := by
  induction h with
  | expression he hl => exact .expression he.symm hl
  | print he hl => exact .print he.symm hl
  | var hname he => exact .var hname.symm he.symm
  | block _ hl ih => exact .blocks (forall₂_of_pairs ih).flip hl
  | ifThen hc _ hl ih => exact .ifThen hc.symm ih hl
  | ifElse hc _ _ hl ih iho => exact .ifElse hc.symm ih iho hl
  | whileLoop hc _ hl ih => exact .whileLoop hc.symm ih hl
  | function hname hparams _ ih =>
    exact .functions hname.symm (hparams.imp fun _ _ hp => hp.symm).flip (forall₂_of_pairs ih).flip
  | returnStmt he hl => exact .returnStmt he.symm hl

theorem Program.Alike.symm {p q : Program} (h : Program.Alike L p q) :
    Program.Alike (flip L) q p :=
  (h.imp fun _ _ hs => hs.symm).flip

/-! ## Distances -/

theorem Expr.Alike.bind {e e' : Expr} (h : e.Alike L e') (scopes : OpenScopes) :
    (e.bind scopes).Alike L (e'.bind scopes) := by
  induction h with
  | literal hv hl => exact .literal hv hl
  | grouping _ hl ih => exact .grouping ih hl
  | unary hop _ ih => exact .unary hop ih
  | binary hop _ _ ihl ihr => exact .binary hop ihl ihr
  | logical hop _ _ ihl ihr => exact .logical hop ihl ihr
  | reference hname =>
    simp only [Expr.bind, hname.text]
    exact .reference hname
  | assign hname _ ih =>
    simp only [Expr.bind, hname.text]
    exact .assign hname ih
  | call _ _ hl ih iha =>
    simp only [Expr.bind, Expr.bindAll_eq_map, List.map_map]
    refine .calls ih ?_ hl
    rw [List.forall₂_map_left_iff, List.forall₂_map_right_iff, List.forall₂_same]
    exact iha

theorem Expr.OptionAlike.bind {e e' : Option Expr} (h : Expr.OptionAlike L e e')
    (scopes : OpenScopes) :
    Expr.OptionAlike L (e.map (Expr.bind scopes)) (e'.map (Expr.bind scopes)) := by
  cases h with
  | none => exact .none
  | some he => exact .some (he.bind scopes)

/-- Statements alike have the same distances in the same scopes, and leave the same scopes. -/
def Stmt.BindAlike (L : Placing) (s s' : Stmt) : Prop :=
  ∀ scopes, (s.bind scopes).1.Alike L (s'.bind scopes).1 ∧ (s.bind scopes).2 = (s'.bind scopes).2

theorem Stmt.bindAll_alike {body body' : List Stmt}
    (h : List.Forall₂ (Stmt.BindAlike L) body body') (scopes : OpenScopes) :
    List.Forall₂ (Stmt.Alike L) (bindAll scopes body).1 (bindAll scopes body').1 := by
  induction h generalizing scopes with
  | nil => exact .nil
  | cons hs _ ih =>
    obtain ⟨halike, hscopes⟩ := hs scopes
    simp only [bindAll, ← hscopes]
    exact .cons halike (ih _)

theorem Name.Alike.map_text {params params' : List Name}
    (h : List.Forall₂ (Name.Alike L) params params') :
    params.map Name.text = params'.map Name.text := by
  induction h with
  | nil => rfl
  | cons hname _ ih => rw [List.map_cons, List.map_cons, hname.text, ih]

theorem Stmt.Alike.bind {s s' : Stmt} (h : s.Alike L s') : Stmt.BindAlike L s s' := by
  induction h with
  | expression he hl => exact fun scopes => ⟨.expression (he.bind scopes) hl, rfl⟩
  | print he hl => exact fun scopes => ⟨.print (he.bind scopes) hl, rfl⟩
  | var hname he =>
    intro scopes
    simp only [Stmt.bind, hname.text]
    exact ⟨.var hname (he.bind _), trivial⟩
  | block _ hl ih =>
    exact fun scopes => ⟨.blocks (bindAll_alike (forall₂_of_pairs ih) _) hl, rfl⟩
  | ifThen hc _ hl ih =>
    exact fun scopes => ⟨.ifThen (hc.bind scopes) (ih scopes).1 hl, (ih scopes).2⟩
  | ifElse hc _ _ hl ih iho =>
    intro scopes
    simp only [Stmt.bind, ← (ih scopes).2]
    exact ⟨.ifElse (hc.bind scopes) (ih scopes).1 (iho _).1 hl, (iho _).2⟩
  | whileLoop hc _ hl ih =>
    exact fun scopes => ⟨.whileLoop (hc.bind scopes) (ih scopes).1 hl, (ih scopes).2⟩
  | function hname hparams _ ih =>
    intro scopes
    simp only [Stmt.bind, hname.text, Name.Alike.map_text hparams]
    exact ⟨.functions hname hparams (bindAll_alike (forall₂_of_pairs ih) _), trivial⟩
  | returnStmt he hl => exact fun scopes => ⟨.returnStmt (he.bind scopes) hl, rfl⟩

/-- Programs alike have the same distances. -/
theorem Program.Alike.bind {p q : Program} (h : Program.Alike L p q) :
    Program.Alike L p.bind q.bind :=
  Stmt.bindAll_alike (h.imp fun _ _ hs => hs.bind) []

theorem Program.Alike.globals_eq {p q : Program} (h : Program.Alike L p q) :
    p.globals = q.globals := by
  have hdeclared {s s' : Stmt} (hs : s.Alike L s') : s.declared? = s'.declared? := by
    cases hs with
    | var hname | function hname => exact congrArg some hname.text
    | _ => rfl
  induction h with
  | nil => rfl
  | cons hs _ ih => simp only [globals, List.filterMap_cons, hdeclared hs] at ih ⊢; rw [ih]

end Lox
