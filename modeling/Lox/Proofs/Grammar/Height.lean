import Lox.Parse.Statement
import Lox.Proofs.Scope.Point
import Lox.TokenStream

/-!
# How high parsed trees are

The levels that a row of operators or of argument lists takes are given back where the row ends, and
the next row starts on top of the finished operand with levels of its own. So a path in a parsed
program can have more nodes than there are levels (`parse_height_exceeds_levels`). With `n` levels
each of the six tiers, the argument lists and the prefixed operators can add as many nodes as there
are levels below, which makes `Expr.heightBound n` the bound for expressions, and no path in a parsed
program has more than 228737 nodes (`parse_height_le`).
-/

namespace Lox

/-! ## Heights -/

namespace Node

/-- A path down from the node has at most the given number of nodes. -/
def Within (k : Nat) (n : Node) : Prop := ∀ a m, n.at? a = some m → a.length < k

variable {k k' : Nat} {n : Node}

theorem Within.mono (h : n.Within k) (hk : k ≤ k') : n.Within k' :=
  fun a m hat => Nat.lt_of_lt_of_le (h a m hat) hk

theorem within_of_children (h : ∀ c ∈ n.children, c.Within k) : n.Within (k + 1) := by
  intro a m hat
  cases a with
  | nil => exact Nat.succ_pos k
  | cons i a =>
    obtain ⟨c, hc, hat⟩ := Option.bind_eq_some_iff.1 hat
    exact Nat.succ_lt_succ (h c (List.mem_of_getElem? hc) a m hat)

end Node

/-- A path in the expression has at most the given number of nodes. -/
abbrev Expr.Within (k : Nat) (e : Expr) : Prop := (Node.expr e).Within k

/-- A path in the statement has at most the given number of nodes. -/
abbrev Stmt.Within (k : Nat) (s : Stmt) : Prop := (Node.stmt s).Within k

section Constructors

open Node

variable {k : Nat}

theorem Expr.within_leaf {e : Expr} (h : e.children = []) : e.Within (k + 1) := by
  refine within_of_children fun c hc => ?_
  rw [Node.children, h] at hc
  cases hc

theorem Expr.within_node {e : Expr} (h : ∀ c ∈ e.children, c.Within k) : e.Within (k + 1) :=
  within_of_children (List.forall_mem_map.2 h)

theorem Tier.within_join {tier : Tier} {op : Operator} {l r : Expr} (hl : l.Within k)
    (hr : r.Within k) : (tier.join op l r).Within (k + 1) := by
  cases tier <;>
    exact Expr.within_node (List.forall_mem_cons.2 ⟨hl, List.forall_mem_singleton.2 hr⟩)

theorem Stmt.within_expression {e : Expr} (loc : Location) (he : e.Within k) :
    (Stmt.expression e loc).Within (k + 1) :=
  within_of_children (List.forall_mem_singleton.2 he)

theorem Stmt.within_rows {body : List Stmt} (h : ∀ s ∈ body, s.Within k) :
    ∀ c ∈ body.map Node.stmt, c.Within k := List.forall_mem_map.2 h

theorem Stmt.within_block {body : List Stmt} (loc : Location) (h : ∀ s ∈ body, s.Within k) :
    (Stmt.block body loc).Within (k + 1) := within_of_children (Stmt.within_rows h)

theorem Stmt.within_while {c : Expr} {body : Stmt} (loc : Location) (hc : c.Within k)
    (hbody : body.Within k) : (Stmt.whileLoop c body loc).Within (k + 1) :=
  within_of_children (List.forall_mem_cons.2 ⟨hc, List.forall_mem_singleton.2 hbody⟩)

theorem Node.within_option {e : Option Expr} (h : ∀ x ∈ e, x.Within k) :
    ∀ c ∈ (e.map Node.expr).toList, c.Within k := by
  cases e with
  | none => exact List.forall_mem_nil _
  | some e => exact List.forall_mem_singleton.2 (h e rfl)

/-- A `for` loop is at most three nodes higher than its parts. -/
theorem Stmt.within_forLoop {start step : Option Stmt} {condition : Option Expr} {body : Stmt}
    (loc : Location) (hstart : ∀ s ∈ start, s.Within k) (hcondition : ∀ c ∈ condition, c.Within k)
    (hstep : ∀ s ∈ step, s.Within k) (hbody : body.Within k) :
    (Stmt.forLoop start condition step body loc).Within (k + 3) := by
  have hcond : (condition.getD (.literal (.bool true) loc)).Within (k + 1) := by
    cases condition with
    | none => exact Expr.within_leaf rfl
    | some c => exact (hcondition c rfl).mono (Nat.le_succ k)
  -- With a step the round is a block, and the loop is one without a step around that block.
  have hloop {round : Stmt} (hround : round.Within (k + 1)) :
      (Stmt.forLoop start condition none round loc).Within (k + 3) := by
    have hwhile := Stmt.within_while loc hcond hround
    cases start with
    | none => exact hwhile.mono (Nat.le_succ _)
    | some s =>
      have hs : s.Within (k + 2) := (hstart s rfl).mono (Nat.le_add_right k 2)
      exact Stmt.within_block loc (List.forall_mem_cons.2 ⟨hs, List.forall_mem_singleton.2 hwhile⟩)
  cases step with
  | none => exact hloop (hbody.mono (Nat.le_succ k))
  | some s =>
    exact hloop (Stmt.within_block loc
      (List.forall_mem_cons.2 ⟨hbody, List.forall_mem_singleton.2 (hstep s rfl)⟩))

end Constructors

/-! ## Results of parsers -/

namespace Parser

variable {α β : Type} {P : α → Prop} {Q : β → Prop}

/-- All results of a parser have a property, whatever errors it reports. -/
def Yields (P : α → Prop) (p : Parser α) : Prop := ∀ ts a, (p ts).result = .ok a → P a

theorem yields_any (p : Parser α) : Yields (fun _ => True) p := fun _ _ _ => trivial

theorem Yields.mono {P' : α → Prop} {p : Parser α} (h : Yields P p) (hP : ∀ a, P a → P' a) :
    Yields P' p := fun ts a hr => hP a (h ts a hr)

theorem Yields.bind {p : Parser α} {f : α → Parser β} (hp : Yields P p)
    (hf : ∀ a, P a → Yields Q (f a)) : Yields Q (p >>= f) := by
  intro ts b hr
  rw [bind_apply, andThen] at hr
  have hresult := hp ts
  split at hr
  · next a rest errors he =>
    rw [he] at hresult
    exact hf a (hresult a rfl) rest b hr
  · cases hr

/-- Going on after a parser whatever it gives. -/
theorem Yields.after {p : Parser α} {f : α → Parser β} (hf : ∀ a, Yields Q (f a)) :
    Yields Q (p >>= f) := (yields_any p).bind fun a _ => hf a

theorem yields_pure {a : α} (h : P a) : Yields P (pure a) := by
  intro ts b hr
  cases hr
  exact h

theorem yields_fail (problem : ParseProblem) : Yields P (fail problem) := fun _ _ hr => nomatch hr

theorem Yields.map {p : Parser α} {f : α → β} (h : Yields P p) (hf : ∀ a, P a → Q (f a)) :
    Yields Q (f <$> p) := h.bind fun a ha => yields_pure (hf a ha)

theorem Yields.ite {c : Prop} [Decidable c] {p q : Parser α} (hp : Yields P p) (hq : Yields P q) :
    Yields P (if c then p else q) := by
  split
  · exact hp
  · exact hq

theorem Yields.recovering {p : Parser α} (h : Yields P p) :
    Yields (fun o => ∀ a ∈ o, P a) p.recovering := by
  intro ts o hr
  have hresult := h ts
  unfold Parser.recovering at hr
  split at hr
  · next a rest errors he =>
    cases hr
    rw [he] at hresult
    exact fun b hb => Option.some.inj hb ▸ hresult a rfl
  · split at hr
    · cases hr
    · cases hr
      nofun

theorem Yields.unlessNext {p : Parser α} (h : Yields P p) (stop : TokenKind) :
    Yields (fun o => ∀ a ∈ o, P a) (unlessNext stop p) :=
  .after fun _ => .ite (yields_pure nofun)
    (h.bind fun _ ha => yields_pure fun _ hb => Option.some.inj hb ▸ ha)

theorem Yields.behind {p : Parser α} (h : Yields P p) (kind : TokenKind) :
    Yields (fun o => ∀ a ∈ o, P a) (behind kind p) := by
  refine .after fun o => ?_
  cases o with
  | none => exact yields_pure nofun
  | some t => exact h.bind fun _ ha => yields_pure fun _ hb => Option.some.inj hb ▸ ha

theorem Yields.commaSeparatedFrom {p : Parser α} (h : Yields P p) (excess : ParseProblem)
    (rounds : Nat) : ∀ count,
    Yields (fun as => ∀ a ∈ as, P a) (commaSeparatedFrom excess p rounds count) := by
  induction rounds with
  | zero => exact fun _ => yields_pure (List.forall_mem_nil _)
  | succ rounds ih =>
    intro count
    refine .after fun _ => h.bind fun first hfirst => .after fun o => ?_
    cases o with
    | none => exact yields_pure (List.forall_mem_singleton.2 hfirst)
    | some t =>
      exact (ih (count + 1)).bind fun _ hothers =>
        yields_pure (List.forall_mem_cons.2 ⟨hfirst, hothers⟩)

theorem Yields.commaSeparated {p : Parser α} (h : Yields P p) (excess : ParseProblem) :
    Yields (fun as => ∀ a ∈ as, P a) (commaSeparated excess p) :=
  .after fun _ => h.commaSeparatedFrom excess _ 0

theorem Yields.manyUntil {p : Parser (Option α)} (h : Yields (fun o => ∀ a ∈ o, P a) p)
    (stop : TokenKind) : Yields (fun as => ∀ a ∈ as, P a) (manyUntil stop p) := by
  have rounds (n : Nat) : Yields (fun as => ∀ a ∈ as, P a) (manyUntilFrom stop p n) := by
    induction n with
    | zero => exact yields_pure (List.forall_mem_nil _)
    | succ n ih =>
      refine .after fun t => .ite (yields_pure (List.forall_mem_nil _)) ?_
      refine h.bind fun first hfirst => ih.bind fun others hothers => yields_pure ?_
      exact List.forall_mem_append.2 ⟨fun a ha => hfirst a (Option.mem_toList.1 ha), hothers⟩
  exact .after rounds

end Parser

/-! ## Bounds for the grammars -/

/-- How many nodes a path in an expression can have that has a number of levels for itself. -/
def Expr.heightBound : Nat → Nat
  | 0 => 0
  | n + 1 => heightBound n + 7 * n + 1

/-- How many nodes a path in operands joined by some tiers can have. -/
def Tier.heightBound (n : Nat) (tiers : List Tier) : Nat :=
  Expr.heightBound n + 1 + n * (tiers.length + 1)

theorem Tier.heightBound_nil (n : Nat) : heightBound n [] = Expr.heightBound n + 1 + n := by
  rw [heightBound, List.length_nil]
  omega

theorem Tier.heightBound_cons (n : Nat) (tier : Tier) (tiers : List Tier) :
    heightBound n (tier :: tiers) = heightBound n tiers + n := by
  rw [heightBound, heightBound, List.length_cons, Nat.mul_succ]
  omega

theorem Tier.heightBound_all (n : Nat) : heightBound n all = Expr.heightBound (n + 1) := by
  rw [heightBound, Expr.heightBound, show all.length = 6 from rfl]
  omega

theorem Expr.heightBound_le_succ (n : Nat) : heightBound n ≤ heightBound (n + 1) := by
  rw [heightBound]
  omega

theorem Tier.heightBound_le_succ (n : Nat) (tiers : List Tier) :
    heightBound n tiers ≤ heightBound (n + 1) tiers := by
  have hmul : n * (tiers.length + 1) ≤ (n + 1) * (tiers.length + 1) :=
    Nat.mul_le_mul_right _ (Nat.le_succ n)
  have hexpr := Expr.heightBound_le_succ n
  rw [heightBound, heightBound]
  omega

namespace Grammar

open Lox.Parser

/-- What the parsers of a grammar with `n` levels give is no higher than the bounds. A row goes on
with what it has so far, on top of which each further level adds one node. -/
structure Bounded (n : Nat) (G : Grammar) : Prop where
  assignment : Yields (Expr.Within (Expr.heightBound n)) G.assignment
  operand : ∀ tiers, Yields (Expr.Within (Tier.heightBound n tiers)) (G.operand tiers)
  chain : ∀ tier tighter left h, Expr.Within (h + 1) left → Tier.heightBound n tighter ≤ h →
    Yields (Expr.Within (h + n)) (G.chain tier tighter left)
  unary : Yields (Expr.Within (Expr.heightBound n + n)) G.unary
  calls : ∀ callee h, Expr.Within (h + 1) callee → Expr.heightBound n ≤ h →
    Yields (Expr.Within (h + n)) (G.calls callee)
  arguments : Yields (fun args => ∀ a ∈ args, Expr.Within (Expr.heightBound n) a) G.arguments
  statement : Yields (fun s => 0 < n ∧ Stmt.Within (Expr.heightBound n + 1) s) G.statement
  function : Yields (Stmt.Within (Expr.heightBound n + 1)) G.function

theorem bounded_tooDeep : Bounded 0 tooDeep where
  assignment := yields_fail _
  operand _ := yields_fail _
  chain _ _ _ _ _ _ := yields_fail _
  unary := yields_fail _
  calls _ _ _ _ := yields_fail _
  arguments := yields_fail _
  statement := yields_fail _
  function := yields_fail _

namespace Bounded

variable {n : Nat} {G : Grammar}

/-! ### Expressions -/

theorem primary (h : Bounded n G) :
    Yields (Expr.Within (Expr.heightBound n + 1)) (Parser.primary G) := by
  refine .after fun t => ?_
  split
  case h_7 =>
    refine .after fun _ => h.assignment.bind fun e he => .after fun _ => yields_pure ?_
    exact Expr.within_node (List.forall_mem_singleton.2 he)
  case h_8 => exact yields_fail _
  all_goals exact .after fun _ => yields_pure (Expr.within_leaf rfl)

theorem calls_above (h : Bounded n G) {callee : Expr} {k : Nat} (hcallee : callee.Within k)
    (hk : Expr.heightBound n ≤ k) : Yields (Expr.Within (k + n)) (Parser.calls G callee) := by
  refine .after fun o => ?_
  cases o with
  | none => exact yields_pure (hcallee.mono (Nat.le_add_right k n))
  | some t =>
    refine h.arguments.bind fun args hargs => .after fun close => h.calls _ k ?_ hk
    exact Expr.within_node (List.forall_mem_cons.2 ⟨hcallee, fun a ha => (hargs a ha).mono hk⟩)

theorem unary_above (h : Bounded n G) :
    Yields (Expr.Within (Tier.heightBound n [])) (Parser.unary G) := by
  have hn := Tier.heightBound_nil n
  refine .after fun o => ?_
  cases o with
  | none =>
    exact h.primary.bind fun e he => (h.calls_above he (Nat.le_succ _)).mono fun e he =>
      he.mono (Nat.le_of_eq hn.symm)
  | some t =>
    refine h.unary.bind fun e he => yields_pure ?_
    have hnode : (Expr.unary t.operator e).Within (Expr.heightBound n + n + 1) :=
      Expr.within_node (List.forall_mem_singleton.2 he)
    exact hnode.mono (by omega)

theorem chain_above (h : Bounded n G) (tier : Tier) {tighter : List Tier} {left : Expr} {k : Nat}
    (hleft : left.Within k) (hk : Tier.heightBound n tighter ≤ k) :
    Yields (Expr.Within (k + n)) (Parser.chain G tier tighter left) := by
  refine .after fun o => ?_
  cases o with
  | none => exact yields_pure (hleft.mono (Nat.le_add_right k n))
  | some t =>
    refine (h.operand tighter).bind fun right hright => h.chain tier tighter _ k ?_ hk
    exact Tier.within_join hleft (hright.mono hk)

/-- The left operand has all levels for itself, and each tier adds a row of its own. -/
theorem operand_above (h : Bounded n G) :
    ∀ tiers, Yields (Expr.Within (Tier.heightBound n tiers)) (Parser.operand G tiers)
  | [] => h.unary_above
  | tier :: tighter => (h.operand_above tighter).bind fun _ hleft =>
      Tier.heightBound_cons n tier tighter ▸ h.chain_above tier hleft (Nat.le_refl _)

theorem assignment_above (h : Bounded n G) :
    Yields (Expr.Within (Expr.heightBound (n + 1))) (Parser.assignment G) := by
  refine Yields.bind (Tier.heightBound_all n ▸ h.operand_above Tier.all) fun target htarget => ?_
  refine .after fun o => ?_
  cases o with
  | none => exact yields_pure htarget
  | some eq =>
    refine h.assignment.bind fun value hvalue => ?_
    cases target with
    | reference name d =>
      have hnode : (Expr.assign name none value).Within (Expr.heightBound n + 1) :=
        Expr.within_node (List.forall_mem_singleton.2 hvalue)
      exact yields_pure (hnode.mono (by rw [Expr.heightBound]; omega))
    | _ => exact .after fun _ => yields_pure htarget

/-! ### Statements -/

theorem expressionStatement (h : Bounded n G) :
    Yields (Stmt.Within (Expr.heightBound n + 1)) (Parser.expressionStatement G) :=
  .after fun _ => h.assignment.bind fun _ he => .after fun _ =>
    yields_pure (Stmt.within_expression _ he)

theorem varDeclaration (h : Bounded n G) :
    Yields (Stmt.Within (Expr.heightBound n + 1)) (Parser.varDeclaration G) :=
  .after fun _ => (h.assignment.behind _).bind fun _ he => .after fun _ =>
    yields_pure (Node.within_of_children (Node.within_option he))

theorem declaration (h : Bounded n G) :
    Yields (fun o => ∀ s ∈ o, Stmt.Within (Expr.heightBound n + 1) s) (Parser.declaration G) := by
  refine Yields.recovering (.after fun o => ?_)
  cases o with
  | some k => exact h.function
  | none =>
    refine .after fun o => ?_
    cases o with
    | some k => exact h.varDeclaration
    | none => exact h.statement.mono fun s hs => hs.2

theorem block (h : Bounded n G) :
    Yields (fun body => ∀ s ∈ body, Stmt.Within (Expr.heightBound n + 1) s) (Parser.block G) :=
  (h.declaration.manyUntil _).bind fun _ hbody => .after fun _ => yields_pure hbody

theorem function_above (h : Bounded n G) :
    Yields (Stmt.Within (Expr.heightBound n + 2)) (Parser.function G) :=
  .after fun _ => .after fun _ => .after fun _ => .after fun _ => .after fun _ =>
    h.block.bind fun _ hbody =>
      yields_pure (Node.within_of_children (Stmt.within_rows hbody))

theorem ifStatement (h : Bounded n G) (loc : Location) :
    Yields (Stmt.Within (Expr.heightBound n + 2)) (Parser.ifStatement G loc) := by
  refine .after fun _ => h.assignment.bind fun c hc => .after fun _ => h.statement.bind fun s hs => ?_
  have hc : c.Within (Expr.heightBound n + 1) := hc.mono (Nat.le_succ _)
  refine .after fun o => ?_
  cases o with
  | none =>
    exact yields_pure (Node.within_of_children
      (List.forall_mem_cons.2 ⟨hc, List.forall_mem_singleton.2 hs.2⟩))
  | some k =>
    exact h.statement.bind fun s' hs' => yields_pure (Node.within_of_children
      (List.forall_mem_cons.2 ⟨hc, List.forall_mem_cons.2 ⟨hs.2, List.forall_mem_singleton.2 hs'.2⟩⟩))

theorem whileStatement (h : Bounded n G) (loc : Location) :
    Yields (Stmt.Within (Expr.heightBound n + 2)) (Parser.whileStatement G loc) :=
  .after fun _ => h.assignment.bind fun _ hc => .after fun _ => h.statement.bind fun _ hs =>
    yields_pure (Stmt.within_while loc (hc.mono (Nat.le_succ _)) hs.2)

theorem forInitializer (h : Bounded n G) :
    Yields (fun o => ∀ s ∈ o, Stmt.Within (Expr.heightBound n + 1) s) (Parser.forInitializer G) := by
  have hsome {p : Parser Stmt} (hp : Yields (Stmt.Within (Expr.heightBound n + 1)) p) :
      Yields (fun o => ∀ s ∈ o, Stmt.Within (Expr.heightBound n + 1) s) (some <$> p) :=
    hp.map fun s hs s' hs' => Option.some.inj hs' ▸ hs
  refine .after fun o => ?_
  cases o with
  | some t => exact yields_pure nofun
  | none =>
    refine .after fun o => ?_
    cases o with
    | some k => exact hsome h.varDeclaration
    | none => exact hsome h.expressionStatement

theorem forCondition (h : Bounded n G) :
    Yields (fun o => ∀ c ∈ o, Expr.Within (Expr.heightBound n) c) (Parser.forCondition G) :=
  (h.assignment.unlessNext _).bind fun _ hc => .after fun _ => yields_pure hc

theorem forStep (h : Bounded n G) :
    Yields (fun o => ∀ s ∈ o, Stmt.Within (Expr.heightBound n + 1) s) (Parser.forStep G) := by
  refine .after fun first => (h.assignment.unlessNext _).bind fun o ho => .after fun _ => ?_
  refine yields_pure fun s hs => ?_
  obtain ⟨e, he, rfl⟩ := Option.map_eq_some_iff.1 hs
  exact Stmt.within_expression first.loc (ho e he)

/-- A `for` loop needs a statement as its body, and so a level more than one. -/
theorem forStatement (h : Bounded n G) (loc : Location) :
    Yields (fun s => 0 < n ∧ Stmt.Within (Expr.heightBound n + 4) s)
      (Parser.forStatement G loc) :=
  .after fun _ => h.forInitializer.bind fun _ hstart => h.forCondition.bind fun _ hcondition =>
    h.forStep.bind fun _ hstep => h.statement.bind fun _ hs => yields_pure ⟨hs.1,
      Stmt.within_forLoop loc hstart (fun c hc => (hcondition c hc).mono (Nat.le_succ _)) hstep hs.2⟩

theorem returnStatement (h : Bounded n G) (loc : Location) :
    Yields (Stmt.Within (Expr.heightBound n + 1)) (Parser.returnStatement G loc) :=
  (h.assignment.unlessNext _).bind fun _ he => .after fun _ =>
    yields_pure (Node.within_of_children (Node.within_option he))

theorem printStatement (h : Bounded n G) (loc : Location) :
    Yields (Stmt.Within (Expr.heightBound n + 1)) (Parser.printStatement G loc) :=
  h.assignment.bind fun _ he => .after fun _ =>
    yields_pure (Node.within_of_children (List.forall_mem_singleton.2 he))

theorem statement_above (h : Bounded n G) :
    Yields (Stmt.Within (Expr.heightBound (n + 1) + 1)) (Parser.statement G) := by
  have hbound : Expr.heightBound (n + 1) = Expr.heightBound n + 7 * n + 1 := rfl
  have lift {p : Parser Stmt} (hp : Yields (Stmt.Within (Expr.heightBound n + 2)) p) :
      Yields (Stmt.Within (Expr.heightBound (n + 1) + 1)) p :=
    hp.mono fun s hs => hs.mono (by omega)
  have lift' {p : Parser Stmt} (hp : Yields (Stmt.Within (Expr.heightBound n + 1)) p) :
      Yields (Stmt.Within (Expr.heightBound (n + 1) + 1)) p :=
    lift (hp.mono fun s hs => hs.mono (Nat.le_succ _))
  refine .after fun t => ?_
  split
  · exact .after fun _ => lift' (h.printStatement _)
  · exact .after fun _ => lift (h.ifStatement _)
  · exact .after fun _ => lift (h.whileStatement _)
  · exact .after fun _ => (h.forStatement _).mono fun s hs => hs.2.mono (by omega)
  · exact .after fun _ => lift' (h.returnStatement _)
  · exact .after fun _ => lift (h.block.bind fun _ hbody => yields_pure (Stmt.within_block _ hbody))
  · exact lift' h.expressionStatement

/-- One level more. -/
theorem above (h : Bounded n G) : Bounded (n + 1) G.above where
  assignment := h.assignment_above
  operand tiers := (h.operand_above tiers).mono fun e he => he.mono (Tier.heightBound_le_succ n tiers)
  chain tier tighter left k hleft hk :=
    (h.chain_above tier hleft (((Tier.heightBound_le_succ n tighter).trans hk).trans
      (Nat.le_succ k))).mono fun e he => he.mono (by omega)
  unary := h.unary_above.mono fun e he => he.mono
    (by rw [Tier.heightBound_nil, Expr.heightBound]; omega)
  calls callee k hcallee hk :=
    (h.calls_above hcallee (((Expr.heightBound_le_succ n).trans hk).trans
      (Nat.le_succ k))).mono fun e he => he.mono (by omega)
  arguments := by
    refine .after fun b => .ite (yields_pure (List.forall_mem_nil _)) ?_
    exact (h.assignment.commaSeparated _).mono fun args hargs a ha =>
      (hargs a ha).mono (Expr.heightBound_le_succ n)
  statement := h.statement_above.mono fun s hs => ⟨Nat.succ_pos n, hs⟩
  function := h.function_above.mono fun s hs => hs.mono (by rw [Expr.heightBound]; omega)

end Bounded

theorem bounded_ofLevels (n : Nat) : Bounded n (ofLevels n) := by
  induction n with
  | zero => exact bounded_tooDeep
  | succ n ih => exact ih.above

end Grammar

/-! ## Programs -/

theorem within_parseFrom {n : Nat} {G : Grammar} (h : G.Bounded n) (rounds : Nat) (ts : List Token) :
    ∀ s ∈ (parseFrom G rounds ts).program, s.Within (Expr.heightBound n + 1) := by
  induction rounds generalizing ts with
  | zero => exact List.forall_mem_nil _
  | succ rounds ih =>
    have hfirst := h.declaration ts
    rw [parseFrom]
    split
    · exact List.forall_mem_nil _
    split
    · next first rest errors he =>
      rw [he] at hfirst
      exact List.forall_mem_append.2
        ⟨fun s hs => hfirst first rfl s (Option.mem_toList.1 hs), ih rest⟩
    · exact List.forall_mem_nil _

/-- The source `1*1*…*1+1+…+1;` with 128 operators of each kind. -/
def twoRows : Text :=
  utf8 "1" ++ (List.replicate 128 (utf8 "*1")).flatten ++ (List.replicate 128 (utf8 "+1")).flatten ++
    utf8 ";"

/-- The path to the first factor has 258 nodes: the statement, 128 sums, 128 products and the
factor. -/
theorem exists_node_twoRows :
    ∃ s ∈ (parse (tokenize twoRows).tokens).program, ∃ n,
      (Node.stmt s).at? (List.replicate 257 0) = some n := by
  have hfound : ∃ s ∈ (parse (tokenize twoRows).tokens).program,
      ((Node.stmt s).at? (List.replicate 257 0)).isSome = true := by
    decide +kernel
  obtain ⟨s, hs, hat⟩ := hfound
  exact ⟨s, hs, Option.isSome_iff_exists.1 hat⟩

/-- **Parsed trees are bounded.** No path down from a top-level statement of a parsed program has more
than 228737 nodes, whatever the tokens. -/
theorem parse_height_le (ts : List Token) {s : Stmt} (hs : s ∈ (parse ts).program) {a : Address}
    {n : Node} (hat : (Node.stmt s).at? a = some n) : a.length + 1 ≤ 228737 := by
  have hbound : Expr.heightBound maxNesting = 228736 := by decide +kernel
  have hwithin := within_parseFrom (Grammar.bounded_ofLevels maxNesting) _ _ s hs a n hat
  omega

/-- The bound at a path that is longer than the number of levels. -/
theorem parse_height_le_twoRows :
    ∃ s ∈ (parse (tokenize twoRows).tokens).program, ∃ n,
      (Node.stmt s).at? (List.replicate 257 0) = some n ∧
        (List.replicate 257 0).length + 1 ≤ 228737 := by
  obtain ⟨s, hs, n, hn⟩ := exists_node_twoRows
  exact ⟨s, hs, n, hn, parse_height_le (tokenize twoRows).tokens hs hn⟩

/-- Two rows of 128 operators each are accepted, and a path has more nodes than there are levels and
one for the statement. -/
theorem parse_height_exceeds_levels :
    (tokenize twoRows).errors = [] ∧ (parse (tokenize twoRows).tokens).errors = [] ∧
      ∃ s ∈ (parse (tokenize twoRows).tokens).program, ∃ a n,
        (Node.stmt s).at? a = some n ∧ ¬a.length + 1 ≤ maxNesting + 1 := by
  obtain ⟨s, hs, n, hn⟩ := exists_node_twoRows
  exact ⟨by decide +kernel, by decide +kernel, s, hs, _, n, hn, by decide +kernel⟩

end Lox
