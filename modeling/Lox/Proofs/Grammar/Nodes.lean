import Lox.Proofs.Grammar.Parse
import Lox.Proofs.Scope.Point

/-!
# The nodes of a parsed program

Whatever errors are found, every node of a parsed program is made by one of the rules of the grammar, at
one of the tokens (`parse_byRule`). What a rule says of the node that it makes is `Node.ByRule`, and what
is so of all nodes by themselves follows from that, one case for each rule: that expressions are located
at tokens and literals have their values (`parse_madeFrom`), for example.

This is the induction over derivations for properties of nodes. A derivation of a part of a statement is
from some of the tokens of the statement, so what holds of the part holds with more tokens too.
-/

namespace Lox

/-! ## Rules -/

/-- A branch or the body of a loop is no declaration. -/
theorem Stmt.Derivation.declared?_eq_none {mode : Mode} {us : List Token} {isOpen : Bool} {s : Stmt}
    (h : Stmt.Derivation mode (.statement isOpen) us s) : s.declared? = none := by
  cases h with
  | expression he =>
    cases he
    rfl
  | @forLoop _ _ _ _ _ _ _ _ _ start _ _ _ _ _ _ _ _ _ _ _ _ _ _ hloop =>
    subst hloop
    cases start <;> rfl
  | _ => rfl

namespace Node

/-- What the rule that makes a node says of it, if its tokens are among the given ones. -/
inductive ByRule (ts : List Token) : Node → Prop
  | literal {t : Token} {v : Value} (ht : t ∈ ts) (hvalue : t.value? = some v) :
    ByRule ts (.expr (.literal v t.loc))
  /-- The condition of a `for` loop that has none. -/
  | always {t : Token} (ht : t ∈ ts) (hkind : t.kind = .kwFor) :
    ByRule ts (.expr (.literal (.bool true) t.loc))
  | name {t : Token} (ht : t ∈ ts) (hkind : t.kind = .identifier) :
    ByRule ts (.expr (.reference t.named none))
  | grouping {t : Token} {e : Expr} (ht : t ∈ ts) (hkind : t.kind = .leftParen) :
    ByRule ts (.expr (.grouping e t.loc))
  | call {t : Token} {f : Expr} {args : List Expr} (ht : t ∈ ts) (hkind : t.kind = .rightParen) :
    ByRule ts (.expr (.call f args t.loc))
  | unary {t : Token} {e : Expr} (ht : t ∈ ts) (hkind : t.kind = .bang ∨ t.kind = .minus) :
    ByRule ts (.expr (.unary t.operator e))
  | joined {level : Level} {t : Token} {l r : Expr} (ht : t ∈ ts) (hkind : t.kind ∈ level.operators) :
    ByRule ts (.expr (level.node t.operator l r))
  | assignment {t : Token} {e : Expr} (ht : t ∈ ts) (hkind : t.kind = .identifier) :
    ByRule ts (.expr (.assign t.named none e))
  | var {t : Token} {e : Option Expr} (ht : t ∈ ts) (hkind : t.kind = .identifier) :
    ByRule ts (.stmt (.var t.named e))
  | function {t : Token} {ps : List Token} {body : List Stmt} (ht : t ∈ ts)
    (hkind : t.kind = .identifier) (hps : ps ⊆ ts) (hkinds : ∀ p ∈ ps, p.kind = .identifier) :
    ByRule ts (.stmt (.function t.named (ps.map Token.named) body))
  | expression {e : Expr} {loc : Location} : ByRule ts (.stmt (.expression e loc))
  | print {e : Expr} {loc : Location} : ByRule ts (.stmt (.print e loc))
  | block {body : List Stmt} {loc : Location} : ByRule ts (.stmt (.block body loc))
  | ifThen {e : Expr} {s : Stmt} {loc : Location} (hs : s.declared? = none) :
    ByRule ts (.stmt (.ifThen e s loc))
  | ifElse {e : Expr} {s s' : Stmt} {loc : Location} (hs : s.declared? = none)
    (hs' : s'.declared? = none) : ByRule ts (.stmt (.ifElse e s s' loc))
  | whileLoop {e : Expr} {s : Stmt} {loc : Location} (hs : s.declared? = none) :
    ByRule ts (.stmt (.whileLoop e s loc))
  | returnStmt {e : Option Expr} {loc : Location} : ByRule ts (.stmt (.returnStmt e loc))
  | program {p : Program} : ByRule ts (.program p)

/-- The nodes at or below a node are made by rules. -/
def AllByRule (ts : List Token) (n : Node) : Prop := ∀ a m, n.at? a = some m → m.ByRule ts

variable {ts : List Token} {n : Node}

theorem AllByRule.child (h : n.AllByRule ts) {c : Node} (hc : c ∈ n.children) : c.AllByRule ts := by
  intro a m hat
  obtain ⟨i, hi⟩ := List.getElem?_of_mem hc
  exact h (i :: a) m (Option.bind_eq_some_iff.2 ⟨c, hi, hat⟩)

theorem AllByRule.below (h : n.AllByRule ts) {a : Address} {m : Node} (hm : n.at? a = some m) :
    m.AllByRule ts := by
  intro b m' hat
  refine h (a ++ b) m' ?_
  rw [at?_append, hm]
  exact hat

theorem allByRule_of_children (hn : n.ByRule ts) (h : ∀ c ∈ n.children, c.AllByRule ts) :
    n.AllByRule ts := by
  intro a m hat
  cases a with
  | nil =>
    obtain rfl := Option.some.inj hat
    exact hn
  | cons i a =>
    obtain ⟨c, hc, hat⟩ := Option.bind_eq_some_iff.1 hat
    exact h c (List.mem_of_getElem? hc) a m hat

theorem allByRule_expr {e : Expr} (he : (Node.expr e).ByRule ts)
    (h : ∀ c ∈ e.children, (Node.expr c).AllByRule ts) : (Node.expr e).AllByRule ts :=
  allByRule_of_children he (List.forall_mem_map.2 h)

theorem allByRule_stmt {s : Stmt} (hs : (Node.stmt s).ByRule ts)
    (h : ∀ c ∈ s.children, c.AllByRule ts) : (Node.stmt s).AllByRule ts :=
  allByRule_of_children hs h

theorem allByRule_block {body : List Stmt} (loc : Location)
    (h : ∀ s ∈ body, (Node.stmt s).AllByRule ts) : (Node.stmt (.block body loc)).AllByRule ts :=
  allByRule_stmt .block (List.forall_mem_map.2 h)

/-- What a round of a `for` loop does behind its body. -/
theorem allByRule_round {body : Stmt} {step : Option Stmt} (loc : Location)
    (hbody : (Node.stmt body).AllByRule ts)
    (hstep : ∀ s, step = some s → (Node.stmt s).AllByRule ts) :
    (Node.stmt (step.elim body fun s => .block [body, s] loc)).AllByRule ts := by
  cases step with
  | none => exact hbody
  | some s => exact allByRule_block loc (by simpa using ⟨hbody, hstep s rfl⟩)

/-- What a `for` loop does in front of its rounds. -/
theorem allByRule_start {loop : Stmt} {start : Option Stmt} (loc : Location)
    (hloop : (Node.stmt loop).AllByRule ts)
    (hstart : ∀ s, start = some s → (Node.stmt s).AllByRule ts) :
    (Node.stmt (start.elim loop fun s => .block [s, loop] loc)).AllByRule ts := by
  cases start with
  | none => exact hloop
  | some s => exact allByRule_block loc (by simpa using ⟨hstart s rfl, hloop⟩)

theorem allByRule_condition {k : Token} (hk : k ∈ ts) (hkind : k.kind = .kwFor)
    {condition : Option Expr} (h : ∀ c ∈ (condition.map Node.expr).toList, c.AllByRule ts) :
    (Node.expr (condition.getD (.literal (.bool true) k.loc))).AllByRule ts := by
  cases condition with
  | none => exact allByRule_expr (.always hk hkind) (by simp [Expr.children])
  | some e => simpa using h

end Node

/-! ## Derivations -/

section Derivations

open Node

variable {mode : Mode} {us ts : List Token}

theorem Level.children_node (level : Level) (op : Operator) (l r : Expr) :
    (level.node op l r).children = [l, r] := by
  cases level <;> rfl

theorem Expr.Derivation.byRule {level : Level} {e : Expr} (h : Expr.Derivation mode level us e)
    (hts : us ⊆ ts) : (Node.expr e).AllByRule ts := by
  induction h with
  | literal hvalue =>
    exact allByRule_expr (.literal (hts List.mem_cons_self) hvalue) (by simp [Expr.children])
  | name hkind =>
    exact allByRule_expr (.name (hts List.mem_cons_self) hkind) (by simp [Expr.children])
  | grouping hl _ _ ih =>
    have he := ih fun t ht => hts (by simp [ht])
    exact allByRule_expr (.grouping (hts List.mem_cons_self) hl) (by simpa [Expr.children] using he)
  | @call _ _ _ us _ args _ _ _ _ hcomma hr ihf iha =>
    have hf := ihf fun t ht => hts (by simp [ht])
    have hargs (a : List Token × Expr) (ha : a ∈ args) : (Node.expr a.2).AllByRule ts := by
      have hsub : a.1 ⊆ us := hcomma.subset a.1 (List.mem_map_of_mem ha)
      exact iha a ha (List.Subset.trans hsub fun t ht => hts (by simp [ht]))
    refine allByRule_expr (.call (hts (by simp)) hr) ?_
    simpa [Expr.children] using ⟨hf, fun e us ha => hargs (us, e) ha⟩
  | unary hkind _ ih =>
    have he := ih fun t ht => hts (by simp [ht])
    exact allByRule_expr (.unary (hts List.mem_cons_self) hkind) (by simpa [Expr.children] using he)
  | @joined level _ _ _ _ _ _ hkind _ _ _ ihl ihr =>
    have hl := ihl fun t ht => hts (by simp [ht])
    have hr := ihr fun t ht => hts (by simp [ht])
    refine allByRule_expr (.joined (hts (by simp)) hkind) ?_
    rw [level.children_node]
    simpa using ⟨hl, hr⟩
  | assignment hkind _ _ ih =>
    have he := ih fun t ht => hts (by simp [ht])
    exact allByRule_expr (.assignment (hts List.mem_cons_self) hkind)
      (by simpa [Expr.children] using he)
  | tighter _ _ ih => exact ih hts

theorem Expr.Optional.byRule {e : Option Expr} (h : Expr.Optional mode us e) (hts : us ⊆ ts) :
    ∀ c ∈ (e.map Node.expr).toList, c.AllByRule ts := by
  cases h with
  | absent => simp
  | present he => simpa using he.byRule hts

theorem Stmt.VarDeclaration.byRule {s : Stmt} (h : Stmt.VarDeclaration mode us s) (hts : us ⊆ ts) :
    (Node.stmt s).AllByRule ts := by
  cases h with
  | plain _ hkind => exact allByRule_stmt (.var (hts (by simp)) hkind) (by simp [Stmt.children])
  | initialized _ hkind _ he =>
    have he := he.byRule fun t ht => hts (by simp [ht])
    exact allByRule_stmt (.var (hts (by simp)) hkind) (by simpa [Stmt.children] using he)

theorem Stmt.Expression.byRule {s : Stmt} (h : Stmt.Expression mode us s) (hts : us ⊆ ts) :
    (Node.stmt s).AllByRule ts := by
  cases h with
  | mk he =>
    have he := he.byRule (List.Subset.trans (List.subset_append_left _ _) hts)
    exact allByRule_stmt .expression (by simpa [Stmt.children] using he)

theorem Stmt.ForStart.byRule {start : Option Stmt} (h : Stmt.ForStart mode us start)
    (hts : us ⊆ ts) : ∀ s, start = some s → (Node.stmt s).AllByRule ts := by
  rintro s rfl
  cases h with
  | var hv => exact hv.byRule hts
  | expression he => exact he.byRule hts

theorem Stmt.ForStep.byRule {step : Option Stmt} (h : Stmt.ForStep mode us step) (hts : us ⊆ ts) :
    ∀ s, step = some s → (Node.stmt s).AllByRule ts := by
  rintro s rfl
  cases h with
  | present he => exact allByRule_stmt .expression (by simpa [Stmt.children] using he.byRule hts)

theorem Stmt.byRule_body {body : List (List Token × Stmt)}
    (ih : ∀ d ∈ body, d.1 ⊆ ts → (Node.stmt d.2).AllByRule ts) (hts : body.flatMap Prod.fst ⊆ ts) :
    ∀ s ∈ body.map Prod.snd, (Node.stmt s).AllByRule ts := by
  intro s hs
  obtain ⟨d, hd, rfl⟩ := List.mem_map.1 hs
  exact ih d hd fun t ht => hts (List.mem_flatMap.2 ⟨d, hd, ht⟩)

theorem Stmt.declared?_round {body : Stmt} (h : body.declared? = none) (step : Option Stmt)
    (loc : Location) : (step.elim body fun s => Stmt.block [body, s] loc).declared? = none := by
  cases step with
  | none => exact h
  | some s => rfl

theorem Stmt.Derivation.byRule {position : Position} {s : Stmt}
    (h : Stmt.Derivation mode position us s) (hts : us ⊆ ts) : (Node.stmt s).AllByRule ts := by
  induction h with
  | var hv => exact hv.byRule hts
  | function _ hkind _ _ hkinds hcomma _ _ _ _ ih =>
    have hbody := byRule_body ih fun t ht => hts (by simp [ht])
    have hps := List.Subset.trans hcomma.singletons_subset fun t ht => hts (by simp [ht])
    exact allByRule_stmt (.function (hts (by simp)) hkind hps hkinds) (List.forall_mem_map.2 hbody)
  | statement _ ih => exact ih hts
  | expression he => exact he.byRule hts
  | print _ he =>
    have he := he.byRule fun t ht => hts (by simp [ht])
    exact allByRule_stmt .print (by simpa [Stmt.children] using he)
  | block _ _ _ ih =>
    exact allByRule_block _ (byRule_body ih fun t ht => hts (by simp [ht]))
  | ifThen _ _ he _ hs ih =>
    have he := he.byRule fun t ht => hts (by simp [ht])
    have hbranch := ih fun t ht => hts (by simp [ht])
    exact allByRule_stmt (.ifThen hs.declared?_eq_none) (by simpa [Stmt.children] using ⟨he, hbranch⟩)
  | ifElse _ _ he _ hs _ hs' ih ih' =>
    have he := he.byRule fun t ht => hts (by simp [ht])
    have hbranch := ih fun t ht => hts (by simp [ht])
    have hotherwise := ih' fun t ht => hts (by simp [ht])
    exact allByRule_stmt (.ifElse hs.declared?_eq_none hs'.declared?_eq_none)
      (by simpa [Stmt.children] using ⟨he, hbranch, hotherwise⟩)
  | whileLoop _ _ he _ hs ih =>
    have he := he.byRule fun t ht => hts (by simp [ht])
    have hbody := ih fun t ht => hts (by simp [ht])
    exact allByRule_stmt (.whileLoop hs.declared?_eq_none) (by simpa [Stmt.children] using ⟨he, hbody⟩)
  | @forLoop _ k _ _ _ _ _ _ _ _ step _ _ _ _ hk _ hi hc _ hs _ hb hround hloop ih =>
    subst hround hloop
    have hstart := hi.byRule fun t ht => hts (by simp [ht])
    have hstep := hs.byRule fun t ht => hts (by simp [ht])
    have hcondition := allByRule_condition (hts List.mem_cons_self) hk
      (hc.byRule fun t ht => hts (by simp [ht]))
    have hround := allByRule_round k.loc (ih fun t ht => hts (by simp [ht])) hstep
    have hwhile := declared?_round hb.declared?_eq_none step k.loc
    refine allByRule_start k.loc (allByRule_stmt (.whileLoop hwhile) ?_) hstart
    simpa [Stmt.children] using ⟨hcondition, hround⟩
  | returnStmt _ he => exact allByRule_stmt .returnStmt (he.byRule fun t ht => hts (by simp [ht]))

theorem Program.Derivation.byRule {p : Program} (h : Program.Derivation mode us p) (hts : us ⊆ ts) :
    (Node.program p).AllByRule ts := by
  cases h with
  | mk hd =>
    have hbody := Stmt.byRule_body (fun d hm => (hd d hm).byRule) hts
    exact allByRule_of_children .program (List.forall_mem_map.2 hbody)

end Derivations

/-- All nodes of a parsed program are made by rules, whatever is wrong with the tokens. -/
theorem parse_byRule (ts : List Token) : (Node.program (parse ts).program).AllByRule ts := by
  obtain ⟨us, hsub, h⟩ := exists_derivation_of_parse ts
  exact h.byRule hsub

/-! ## Expressions and their tokens -/

/-- The expression is made at one of the tokens. -/
def Expr.MadeAt (ts : List Token) (e : Expr) : Prop :=
  ∃ t ∈ ts, t.kind ≠ .endOfInput ∧ e.loc = t.loc ∧
    ∀ v loc, e = .literal v loc → t.value? = some v ∨ v = .bool true

/-- The expressions at or below a node are made at the tokens. -/
def Node.MadeFrom (ts : List Token) (n : Node) : Prop :=
  ∀ a e, n.at? a = some (.expr e) → e.MadeAt ts

theorem Level.kind_ne_of_operators {level : Level} {t : Token} (h : t.kind ∈ level.operators) :
    t.kind ≠ .endOfInput := by
  intro he
  rw [he] at h
  cases level <;> simp [Level.operators] at h

theorem Node.ByRule.madeAt {ts : List Token} {e : Expr} (h : (Node.expr e).ByRule ts) :
    e.MadeAt ts := by
  cases h with
  | @literal t v ht hvalue =>
    have hkind : t.kind ≠ .endOfInput :=
      ne_of_mem_of_not_mem (Token.value?_kind hvalue) (by decide)
    refine ⟨t, ht, hkind, rfl, fun w loc he => .inl ?_⟩
    cases he
    exact hvalue
  | @always t ht hkind =>
    refine ⟨t, ht, by simp [hkind], rfl, fun w loc he => .inr ?_⟩
    cases he
    rfl
  | @name t ht hkind | @grouping t _ ht hkind | @call t _ _ ht hkind | @assignment t _ ht hkind =>
    exact ⟨t, ht, by simp [hkind], rfl, nofun⟩
  | @unary t _ ht hkind =>
    refine ⟨t, ht, ?_, rfl, nofun⟩
    rcases hkind with hkind | hkind <;> simp [hkind]
  | @joined level t l r ht hkind =>
    refine ⟨t, ht, Level.kind_ne_of_operators hkind, ?_, ?_⟩ <;> cases level <;> first | rfl | nofun

/-- The expressions of a parsed program are made at its tokens. -/
theorem parse_madeFrom (ts : List Token) : (Node.program (parse ts).program).MadeFrom ts :=
  fun a _ hat => (parse_byRule ts a _ hat).madeAt

end Lox
