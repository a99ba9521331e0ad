import Lox.Parse.Statement
import Lox.Proofs.Grammar.Basic
import Mathlib.Data.List.Forall2
import Mathlib.Data.Option.Basic

/-!
# What parsers see of tokens

A parser decides by the kinds of tokens, and by whether they stand for a value; everything else it passes
on. So on tokens that are alike, in a sense that keeps these two, two runs of it go the same way, with
the same problems at corresponding tokens, and give trees that are alike in every sense that the ways of
building trees keep (`Grammar.Likeness`). `Parser.Moves` says so of one parser, or of two that go on with
results alike, with a lemma for each way of building parsers.
-/

namespace Lox

/-- A sense in which tokens are alike. -/
structure Token.Likeness where
  rel : Token → Token → Prop
  kind : ∀ {t t'}, rel t t' → t.kind = t'.kind
  endOfInput : ∀ l l', rel (.endOfInput l) (.endOfInput l')

namespace Token.Likeness

variable {T : Token.Likeness}

/-- Lists of tokens that are alike, one by one. -/
abbrev Rows (T : Token.Likeness) : List Token → List Token → Prop := List.Forall₂ T.rel

theorem isEnd {t t' : Token} (h : T.rel t t') : t.isEnd = t'.isEnd := by
  rw [Token.isEnd, Token.isEnd, T.kind h]

theorem headD {ts ts' : List Token} (h : T.Rows ts ts') :
    T.rel (ts.headD (.endOfInput .nowhere)) (ts'.headD (.endOfInput .nowhere)) := by
  cases h with
  | nil => exact T.endOfInput _ _
  | cons ht _ => exact ht

theorem tail {ts ts' : List Token} (h : T.Rows ts ts') : T.Rows ts.tail ts'.tail := by
  cases h with
  | nil => exact .nil
  | cons _ hts => exact hts

end Token.Likeness

/-! ## Parsers -/

/-- What two parsers gave is alike: results that are related or errors of one problem, the same tokens
left and the same problems reported. -/
inductive Parsed.Alike {α β : Type} (T : Token.Likeness) (R : α → β → Prop) :
    Parsed α → Parsed β → Prop
  | ok {a : α} {b : β} {rest rest' : List Token} {es es' : List ParseError} :
    R a b → T.Rows rest rest' → es.map ParseError.problem = es'.map ParseError.problem →
      Alike T R ⟨.ok a, rest, es⟩ ⟨.ok b, rest', es'⟩
  | error {e e' : ParseError} {rest rest' : List Token} {es es' : List ParseError} :
    e.problem = e'.problem → T.Rows rest rest' →
      es.map ParseError.problem = es'.map ParseError.problem →
      Alike T R ⟨.error e, rest, es⟩ ⟨.error e', rest', es'⟩

namespace Parser

variable {T : Token.Likeness} {α β γ δ : Type} {R : α → β → Prop} {S : γ → δ → Prop}

/-- On tokens that are alike the parsers give what is alike. -/
def Moves (T : Token.Likeness) (R : α → β → Prop) (p : Parser α) (q : Parser β) : Prop :=
  ∀ ts ts', T.Rows ts ts' → Parsed.Alike T R (p ts) (q ts')

theorem Moves.bind {p : Parser α} {q : Parser β} {f : α → Parser γ} {g : β → Parser δ}
    (h : Moves T R p q) (hf : ∀ a b, R a b → Moves T S (f a) (g b)) : Moves T S (p >>= f) (q >>= g) := by
  intro ts ts' hts
  rw [bind_apply, bind_apply, andThen, andThen]
  have hp := h ts ts' hts
  revert hp
  generalize p ts = r, q ts' = r'
  rintro (@⟨a, b, rest, rest', es, es', hab, hrest, hes⟩ | ⟨he, hrest, hes⟩)
  · have hsecond := hf a b hab rest rest' hrest
    dsimp only
    revert hsecond
    generalize f a rest = s, g b rest' = s'
    rintro (⟨hcd, hrest, hes'⟩ | ⟨he, hrest, hes'⟩)
    · exact .ok hcd hrest (by rw [List.map_append, List.map_append, hes, hes'])
    · exact .error he hrest (by rw [List.map_append, List.map_append, hes, hes'])
  · exact .error he hrest hes

theorem moves_pure {a : α} {b : β} (h : R a b) : Moves T R (pure a) (pure b) :=
  fun _ _ hts => .ok h hts rfl

theorem moves_fail (problem : ParseProblem) : Moves T R (fail problem) (fail problem) :=
  fun _ _ hts => .error rfl hts rfl

theorem moves_report (problem : ParseProblem) (t t' : Token) :
    Moves T (fun _ _ => True) (report problem t) (report problem t') :=
  fun _ _ hts => .ok trivial hts rfl

theorem moves_peek : Moves T T.rel peek peek :=
  fun _ _ hts => .ok (T.headD hts) hts rfl

theorem moves_remaining : Moves T Eq remaining remaining := fun _ _ hts => .ok hts.length_eq hts rfl

theorem moves_skip : Moves T (fun _ _ => True) skip skip :=
  fun _ _ hts => .ok trivial (T.tail hts) rfl

theorem Moves.map {p : Parser α} {q : Parser β} (h : Moves T R p q) {f : α → γ} {g : β → δ}
    (hf : ∀ a b, R a b → S (f a) (g b)) : Moves T S (f <$> p) (g <$> q) :=
  h.bind fun a b hab => moves_pure (hf a b hab)

theorem Moves.ite {c c' : Prop} [Decidable c] [Decidable c'] (hc : c ↔ c') {p p' : Parser α}
    {q q' : Parser β} (h : Moves T R p q) (h' : Moves T R p' q') :
    Moves T R (if c then p else p') (if c' then q else q') := by
  by_cases hcond : c
  · rw [if_pos hcond, if_pos (hc.1 hcond)]
    exact h
  · rw [if_neg hcond, if_neg (mt hc.2 hcond)]
    exact h'

theorem moves_check (kind : TokenKind) : Moves T Eq (check kind) (check kind) :=
  moves_peek.bind fun _ _ ht => moves_pure (by rw [T.kind ht])

theorem moves_acceptOne (kinds : List TokenKind) :
    Moves T (Option.Rel T.rel) (acceptOne kinds) (acceptOne kinds) :=
  moves_peek.bind fun _ _ ht => .ite (by rw [T.kind ht])
    (moves_skip.bind fun _ _ _ => moves_pure (.some ht)) (moves_pure .none)

/-- Going on differently behind a token of the given kinds. -/
theorem moves_choice {kinds : List TokenKind} {f : Option Token → Parser α}
    {g : Option Token → Parser β} (hsome : ∀ t t', T.rel t t' → Moves T R (f (some t)) (g (some t')))
    (hnone : Moves T R (f none) (g none)) : Moves T R (acceptOne kinds >>= f) (acceptOne kinds >>= g) := by
  refine (moves_acceptOne kinds).bind ?_
  rintro _ _ (ht | _)
  · exact hsome _ _ ht
  · exact hnone

theorem moves_expect (what : Expectation) : Moves T T.rel (expect what) (expect what) :=
  moves_choice (fun _ _ ht => moves_pure ht) (moves_fail _)

theorem Moves.unlessNext {p : Parser α} {q : Parser β} (h : Moves T R p q) (stop : TokenKind) :
    Moves T (Option.Rel R) (unlessNext stop p) (unlessNext stop q) := by
  refine (moves_check stop).bind ?_
  rintro b _ rfl
  exact .ite .rfl (moves_pure .none) (h.bind fun _ _ hab => moves_pure (.some hab))

theorem Moves.behind {p : Parser α} {q : Parser β} (h : Moves T R p q) (kind : TokenKind) :
    Moves T (Option.Rel R) (behind kind p) (behind kind q) :=
  moves_choice (fun _ _ _ => h.bind fun _ _ hab => moves_pure (.some hab)) (moves_pure .none)

theorem moves_checkCount (excess : ParseProblem) (count : Nat) :
    Moves T (fun _ _ => True) (checkCount excess count) (checkCount excess count) :=
  .ite .rfl (moves_peek.bind fun _ _ _ => moves_report _ _ _) (moves_pure trivial)

theorem Moves.commaSeparatedFrom {p : Parser α} {q : Parser β} (h : Moves T R p q)
    (excess : ParseProblem) (rounds : Nat) : ∀ count, Moves T (List.Forall₂ R)
      (commaSeparatedFrom excess p rounds count) (commaSeparatedFrom excess q rounds count) := by
  induction rounds with
  | zero => exact fun _ => moves_pure .nil
  | succ rounds ih =>
    intro count
    refine (moves_checkCount excess count).bind fun _ _ _ => h.bind fun a b hab => ?_
    refine moves_choice (fun _ _ _ => ?_) (moves_pure (.cons hab .nil))
    exact (ih (count + 1)).bind fun _ _ hothers => moves_pure (.cons hab hothers)

theorem Moves.commaSeparated {p : Parser α} {q : Parser β} (h : Moves T R p q) (excess : ParseProblem) :
    Moves T (List.Forall₂ R) (commaSeparated excess p) (commaSeparated excess q) := by
  refine moves_remaining.bind ?_
  rintro n _ rfl
  exact h.commaSeparatedFrom excess (n + 1) 0

theorem Moves.manyUntil {p : Parser (Option α)} {q : Parser (Option β)}
    (h : Moves T (Option.Rel R) p q) (stop : TokenKind) :
    Moves T (List.Forall₂ R) (manyUntil stop p) (manyUntil stop q) := by
  have hrounds (n : Nat) :
      Moves T (List.Forall₂ R) (manyUntilFrom stop p n) (manyUntilFrom stop q n) := by
    induction n with
    | zero => exact moves_pure .nil
    | succ n ih =>
      refine moves_peek.bind fun t t' ht => .ite (by rw [T.kind ht, T.isEnd ht]) (moves_pure .nil) ?_
      refine h.bind fun first first' hfirst => ih.bind fun _ _ hothers => moves_pure ?_
      cases hfirst with
      | some hab => exact .cons hab hothers
      | none => exact hothers
  refine moves_remaining.bind ?_
  rintro n _ rfl
  exact hrounds n

/-! ### Recovery -/

theorem resumeAfter_alike {last last' : Token} (hlast : T.rel last last') {ts ts' : List Token}
    (h : T.Rows ts ts') : T.Rows (resumeAfter last ts) (resumeAfter last' ts') := by
  induction h generalizing last last' with
  | nil => exact .nil
  | cons ht hts ih =>
    unfold resumeAfter
    rw [T.isEnd ht, T.kind ht, T.kind hlast]
    split
    · exact .cons ht hts
    · exact ih ht

theorem resume_alike {ts ts' : List Token} (h : T.Rows ts ts') :
    T.Rows (resume ts) (resume ts') := by
  cases h with
  | nil => exact .nil
  | cons ht hts =>
    simp only [resume, T.isEnd ht]
    split
    · exact .cons ht hts
    · exact resumeAfter_alike ht hts

theorem Moves.recovering {p : Parser α} {q : Parser β} (h : Moves T R p q) :
    Moves T (Option.Rel R) p.recovering q.recovering := by
  intro ts ts' hts
  unfold Parser.recovering
  have hp := h ts ts' hts
  revert hp
  generalize p ts = r, q ts' = r'
  rintro (⟨hab, hrest, hes⟩ | ⟨he, hrest, hes⟩)
  · exact .ok (.some hab) hrest hes
  · dsimp only
    rw [ParseError.isFinal, ParseError.isFinal, he]
    split
    · exact .error he hrest hes
    · refine .ok .none (resume_alike hrest) ?_
      rw [List.map_append, List.map_append, hes, List.map_singleton, List.map_singleton, he]

end Parser

/-! ## The grammar -/

/-- What an expression becomes in front of an equals sign and a value, if it is a name. -/
def Expr.assignment? (target value : Expr) : Option Expr :=
  match target with
  | .reference name _ => some (.assign name none value)
  | _ => none

namespace Grammar

open Lox.Parser

/-- Senses in which tokens, names and trees are alike that go together: what the parsers build from
what is alike is alike. -/
structure Likeness extends Token.Likeness where
  name : Name → Name → Prop
  expr : Expr → Expr → Prop
  stmt : Stmt → Stmt → Prop
  named : ∀ {t t'}, rel t t' → name t.named t'.named
  value : ∀ {t t'}, rel t t' →
    Option.Rel (fun v v' => expr (.literal v t.loc) (.literal v' t'.loc)) t.value? t'.value?
  reference : ∀ {n n'}, name n n' → expr (.reference n none) (.reference n' none)
  grouping : ∀ {e e'} l l', expr e e' → expr (.grouping e l) (.grouping e' l')
  unary : ∀ {t t' e e'}, rel t t' → expr e e' → expr (.unary t.operator e) (.unary t'.operator e')
  join : ∀ {t t' l l' r r'} tier, rel t t' → expr l l' → expr r r' →
    expr (Tier.join tier t.operator l r) (Tier.join tier t'.operator l' r')
  call : ∀ {f f' args args'} l l', expr f f' → List.Forall₂ expr args args' →
    expr (.call f args l) (.call f' args' l')
  assignment : ∀ {e e' v v'}, expr e e' → expr v v' →
    Option.Rel expr (e.assignment? v) (e'.assignment? v')
  var : ∀ {n n' e e'}, name n n' → Option.Rel expr e e' → stmt (.var n e) (.var n' e')
  function : ∀ {n n' ps ps' b b'}, name n n' → List.Forall₂ name ps ps' → List.Forall₂ stmt b b' →
    stmt (.function n ps b) (.function n' ps' b')
  expression : ∀ {e e'} l l', expr e e' → stmt (.expression e l) (.expression e' l')
  print : ∀ {e e'} l l', expr e e' → stmt (.print e l) (.print e' l')
  returnStmt : ∀ {e e'} l l', Option.Rel expr e e' → stmt (.returnStmt e l) (.returnStmt e' l')
  block : ∀ {b b'} l l', List.Forall₂ stmt b b' → stmt (.block b l) (.block b' l')
  ifThen : ∀ {c c' s s'} l l', expr c c' → stmt s s' → stmt (.ifThen c s l) (.ifThen c' s' l')
  ifElse : ∀ {c c' s s' o o'} l l', expr c c' → stmt s s' → stmt o o' →
    stmt (.ifElse c s o l) (.ifElse c' s' o' l')
  whileLoop : ∀ {c c' s s'} l l', expr c c' → stmt s s' →
    stmt (.whileLoop c s l) (.whileLoop c' s' l')
  forLoop : ∀ {i i' c c' a a' s s'} l l', Option.Rel stmt i i' → Option.Rel expr c c' →
    Option.Rel stmt a a' → stmt s s' → stmt (.forLoop i c a s l) (.forLoop i' c' a' s' l')

variable {K : Likeness}

/-- Every parser of the grammar gives what is alike on tokens that are alike. -/
structure Moves (K : Likeness) (G : Grammar) : Prop where
  assignment : Parser.Moves K.toLikeness K.expr G.assignment G.assignment
  operand : ∀ tiers, Parser.Moves K.toLikeness K.expr (G.operand tiers) (G.operand tiers)
  chain : ∀ tier tighter l l', K.expr l l' →
    Parser.Moves K.toLikeness K.expr (G.chain tier tighter l) (G.chain tier tighter l')
  unary : Parser.Moves K.toLikeness K.expr G.unary G.unary
  calls : ∀ f f', K.expr f f' → Parser.Moves K.toLikeness K.expr (G.calls f) (G.calls f')
  arguments : Parser.Moves K.toLikeness (List.Forall₂ K.expr) G.arguments G.arguments
  statement : Parser.Moves K.toLikeness K.stmt G.statement G.statement
  function : Parser.Moves K.toLikeness K.stmt G.function G.function

theorem moves_tooDeep : tooDeep.Moves K :=
  ⟨moves_fail _, fun _ => moves_fail _, fun _ _ _ _ _ => moves_fail _, moves_fail _,
    fun _ _ _ => moves_fail _, moves_fail _, moves_fail _, moves_fail _⟩

namespace Moves

variable {G : Grammar}

/-! ### Expressions -/

/-- A primary expression is what its first token stands for, a name or an expression in parentheses. -/
theorem primary_eq (G : Grammar) : Parser.primary G = (do
    let t ← peek
    match t.value? with
    | some v => do
      skip
      return .literal v t.loc
    | none =>
      if t.kind = .identifier then do
        skip
        return .reference t.named none
      else if t.kind = .leftParen then do
        skip
        let e ← Parser.expression G
        let _ ← expect .closeGrouping
        return .grouping e t.loc
      else fail .expectedExpression) := by
  refine congrArg (peek >>= ·) (funext fun t => ?_)
  unfold Token.value?
  split <;> simp_all

theorem primary (h : G.Moves K) :
    Parser.Moves K.toLikeness K.expr (Parser.primary G) (Parser.primary G) := by
  rw [primary_eq]
  refine moves_peek.bind fun t t' ht => ?_
  have hvalue := K.value ht
  revert hvalue
  generalize t.value? = v, t'.value? = v'
  rintro (hv | _)
  · exact moves_skip.bind fun _ _ _ => moves_pure hv
  · refine .ite (by rw [K.kind ht])
      (moves_skip.bind fun _ _ _ => moves_pure (K.reference (K.named ht))) ?_
    refine .ite (by rw [K.kind ht]) (moves_skip.bind fun _ _ _ => ?_) (moves_fail _)
    exact h.assignment.bind fun _ _ he => (moves_expect _).bind fun _ _ _ =>
      moves_pure (K.grouping _ _ he)

theorem calls_above (h : G.Moves K) {f f' : Expr} (hf : K.expr f f') :
    Parser.Moves K.toLikeness K.expr (Parser.calls G f) (Parser.calls G f') :=
  moves_choice (fun _ _ _ => h.arguments.bind fun _ _ hargs => (moves_expect _).bind fun _ _ _ =>
    h.calls _ _ (K.call _ _ hf hargs)) (moves_pure hf)

theorem unary_above (h : G.Moves K) :
    Parser.Moves K.toLikeness K.expr (Parser.unary G) (Parser.unary G) :=
  moves_choice (fun _ _ ht => h.unary.bind fun _ _ he => moves_pure (K.unary ht he))
    (h.primary.bind fun _ _ hf => h.calls_above hf)

theorem chain_above (h : G.Moves K) (tier : Tier) (tighter : List Tier) {l l' : Expr}
    (hl : K.expr l l') :
    Parser.Moves K.toLikeness K.expr (Parser.chain G tier tighter l)
      (Parser.chain G tier tighter l') :=
  moves_choice (fun _ _ ht => (h.operand tighter).bind fun _ _ hr =>
    h.chain tier tighter _ _ (K.join tier ht hl hr)) (moves_pure hl)

theorem operand_above (h : G.Moves K) : ∀ tiers,
    Parser.Moves K.toLikeness K.expr (Parser.operand G tiers) (Parser.operand G tiers)
  | [] => h.unary_above
  | tier :: tighter => (h.operand_above tighter).bind fun _ _ hl => h.chain_above tier tighter hl

/-- What stands in front of an equals sign is assigned to, or kept and reported. -/
theorem assignment_eq (G : Grammar) : Parser.assignment G = (do
    let target ← Parser.operand G Tier.all
    match ← accept .equal with
    | some equals =>
      let value ← G.assignment
      match target.assignment? value with
      | some e => return e
      | none =>
        report .invalidAssignmentTarget equals
        return target
    | none => return target) := by
  refine congrArg (Parser.operand G Tier.all >>= ·) (funext fun target => ?_)
  cases target <;> rfl

theorem assignment_above (h : G.Moves K) :
    Parser.Moves K.toLikeness K.expr (Parser.assignment G) (Parser.assignment G) := by
  rw [assignment_eq]
  refine (h.operand_above Tier.all).bind fun target target' htarget => ?_
  refine moves_choice (fun t t' _ => h.assignment.bind fun value value' hvalue => ?_)
    (moves_pure htarget)
  have hassignment := K.assignment htarget hvalue
  revert hassignment
  generalize target.assignment? value = e, target'.assignment? value' = e'
  rintro (he | _)
  · exact moves_pure he
  · exact (moves_report _ t t').bind fun _ _ _ => moves_pure htarget

/-! ### Statements -/

theorem varDeclaration (h : G.Moves K) :
    Parser.Moves K.toLikeness K.stmt (Parser.varDeclaration G) (Parser.varDeclaration G) :=
  (moves_expect _).bind fun _ _ ht => (h.assignment.behind _).bind fun _ _ he =>
    (moves_expect _).bind fun _ _ _ => moves_pure (K.var (K.named ht) he)

theorem expressionStatement (h : G.Moves K) :
    Parser.Moves K.toLikeness K.stmt (Parser.expressionStatement G) (Parser.expressionStatement G) :=
  moves_peek.bind fun _ _ _ => h.assignment.bind fun _ _ he => (moves_expect _).bind fun _ _ _ =>
    moves_pure (K.expression _ _ he)

theorem declaration (h : G.Moves K) :
    Parser.Moves K.toLikeness (Option.Rel K.stmt) (Parser.declaration G) (Parser.declaration G) :=
  Parser.Moves.recovering (moves_choice (fun _ _ _ => h.function)
    (moves_choice (fun _ _ _ => h.varDeclaration) h.statement))

theorem block (h : G.Moves K) :
    Parser.Moves K.toLikeness (List.Forall₂ K.stmt) (Parser.block G) (Parser.block G) :=
  (h.declaration.manyUntil _).bind fun _ _ hbody => (moves_expect _).bind fun _ _ _ =>
    moves_pure hbody

theorem moves_parameters :
    Parser.Moves K.toLikeness (List.Forall₂ K.name) Parser.parameters Parser.parameters := by
  refine (moves_check _).bind ?_
  rintro b _ rfl
  exact .ite .rfl (moves_pure .nil)
    (Parser.Moves.commaSeparated ((moves_expect _).map fun _ _ ht => K.named ht) _)

theorem function_above (h : G.Moves K) :
    Parser.Moves K.toLikeness K.stmt (Parser.function G) (Parser.function G) :=
  (moves_expect _).bind fun _ _ ht => (moves_expect _).bind fun _ _ _ =>
    moves_parameters.bind fun _ _ hparams => (moves_expect _).bind fun _ _ _ =>
    (moves_expect _).bind fun _ _ _ => h.block.bind fun _ _ hbody =>
    moves_pure (K.function (K.named ht) hparams hbody)

theorem printStatement (h : G.Moves K) (loc loc' : Location) :
    Parser.Moves K.toLikeness K.stmt (Parser.printStatement G loc) (Parser.printStatement G loc') :=
  h.assignment.bind fun _ _ he => (moves_expect _).bind fun _ _ _ => moves_pure (K.print _ _ he)

theorem ifStatement (h : G.Moves K) (loc loc' : Location) :
    Parser.Moves K.toLikeness K.stmt (Parser.ifStatement G loc) (Parser.ifStatement G loc') :=
  (moves_expect _).bind fun _ _ _ => h.assignment.bind fun _ _ hc => (moves_expect _).bind fun _ _ _ =>
    h.statement.bind fun _ _ hs => moves_choice
      (fun _ _ _ => h.statement.bind fun _ _ hs' => moves_pure (K.ifElse _ _ hc hs hs'))
      (moves_pure (K.ifThen _ _ hc hs))

theorem whileStatement (h : G.Moves K) (loc loc' : Location) :
    Parser.Moves K.toLikeness K.stmt (Parser.whileStatement G loc) (Parser.whileStatement G loc') :=
  (moves_expect _).bind fun _ _ _ => h.assignment.bind fun _ _ hc => (moves_expect _).bind fun _ _ _ =>
    h.statement.bind fun _ _ hs => moves_pure (K.whileLoop _ _ hc hs)

theorem forInitializer (h : G.Moves K) :
    Parser.Moves K.toLikeness (Option.Rel K.stmt) (Parser.forInitializer G)
      (Parser.forInitializer G) :=
  moves_choice (fun _ _ _ => moves_pure .none) (moves_choice
    (fun _ _ _ => h.varDeclaration.map fun _ _ hs => .some hs)
    (h.expressionStatement.map fun _ _ hs => .some hs))

theorem forCondition (h : G.Moves K) :
    Parser.Moves K.toLikeness (Option.Rel K.expr) (Parser.forCondition G) (Parser.forCondition G) :=
  (h.assignment.unlessNext _).bind fun _ _ hc => (moves_expect _).bind fun _ _ _ => moves_pure hc

theorem forStep (h : G.Moves K) :
    Parser.Moves K.toLikeness (Option.Rel K.stmt) (Parser.forStep G) (Parser.forStep G) := by
  refine moves_peek.bind fun _ _ _ => (h.assignment.unlessNext _).bind ?_
  rintro _ _ (he | _)
  · exact (moves_expect _).bind fun _ _ _ => moves_pure (.some (K.expression _ _ he))
  · exact (moves_expect _).bind fun _ _ _ => moves_pure .none

theorem forStatement (h : G.Moves K) (loc loc' : Location) :
    Parser.Moves K.toLikeness K.stmt (Parser.forStatement G loc) (Parser.forStatement G loc') :=
  (moves_expect _).bind fun _ _ _ => h.forInitializer.bind fun _ _ hstart =>
    h.forCondition.bind fun _ _ hcondition => h.forStep.bind fun _ _ hstep =>
    h.statement.bind fun _ _ hs => moves_pure (K.forLoop _ _ hstart hcondition hstep hs)

theorem returnStatement (h : G.Moves K) (loc loc' : Location) :
    Parser.Moves K.toLikeness K.stmt (Parser.returnStatement G loc) (Parser.returnStatement G loc') :=
  (h.assignment.unlessNext _).bind fun _ _ he => (moves_expect _).bind fun _ _ _ =>
    moves_pure (K.returnStmt _ _ he)

theorem statement_above (h : G.Moves K) :
    Parser.Moves K.toLikeness K.stmt (Parser.statement G) (Parser.statement G) := by
  refine moves_peek.bind fun t t' ht => ?_
  rw [K.kind ht]
  split
  · exact moves_skip.bind fun _ _ _ => h.printStatement _ _
  · exact moves_skip.bind fun _ _ _ => h.ifStatement _ _
  · exact moves_skip.bind fun _ _ _ => h.whileStatement _ _
  · exact moves_skip.bind fun _ _ _ => h.forStatement _ _
  · exact moves_skip.bind fun _ _ _ => h.returnStatement _ _
  · exact moves_skip.bind fun _ _ _ => h.block.bind fun _ _ hbody =>
      moves_pure (K.block _ _ hbody)
  · exact h.expressionStatement

theorem above (h : G.Moves K) : G.above.Moves K where
  assignment := h.assignment_above
  operand := h.operand_above
  chain tier tighter _ _ := h.chain_above tier tighter
  unary := h.unary_above
  calls _ _ := h.calls_above
  arguments := by
    refine (moves_check _).bind ?_
    rintro b _ rfl
    exact .ite .rfl (moves_pure .nil) (h.assignment.commaSeparated _)
  statement := h.statement_above
  function := h.function_above

end Moves

theorem moves_ofLevels (K : Likeness) (n : Nat) : (ofLevels n).Moves K := by
  induction n with
  | zero => exact moves_tooDeep
  | succ n ih => exact ih.above

end Grammar

/-! ## Programs -/

/-- Results of parsing that are alike: the programs are, and the same problems were found. -/
structure ParseResult.Matches (K : Grammar.Likeness) (r r' : ParseResult) : Prop where
  program : List.Forall₂ K.stmt r.program r'.program
  errors : r.errors.map ParseError.problem = r'.errors.map ParseError.problem

variable {K : Grammar.Likeness}

theorem parseFrom_matches {G : Grammar} (h : G.Moves K) (rounds : Nat) {ts ts' : List Token}
    (hts : K.Rows ts ts') : (parseFrom G rounds ts).Matches K (parseFrom G rounds ts') := by
  induction rounds generalizing ts ts' with
  | zero => exact ⟨.nil, rfl⟩
  | succ rounds ih =>
    rw [parseFrom, parseFrom, K.isEnd (K.headD hts)]
    split
    · exact ⟨.nil, rfl⟩
    have hfirst := h.declaration ts ts' hts
    revert hfirst
    generalize Parser.declaration G ts = r, Parser.declaration G ts' = r'
    rintro (⟨hab, hrest, hes⟩ | ⟨he, _, hes⟩)
    · have hothers := ih hrest
      refine ⟨?_, by rw [List.map_append, List.map_append, hes, hothers.errors]⟩
      cases hab with
      | some hs => exact .cons hs hothers.program
      | none => exact hothers.program
    · refine ⟨.nil, ?_⟩
      rw [List.map_append, List.map_append, hes, List.map_singleton, List.map_singleton, he]

theorem getLast?_matches {ts ts' : List Token} (h : K.Rows ts ts') :
    Option.Rel K.rel ts.getLast? ts'.getLast? := by
  induction h with
  | nil => exact .none
  | @cons _ _ ts ts' ht _ ih =>
    rw [List.getLast?_cons, List.getLast?_cons]
    revert ih
    generalize ts.getLast? = last, ts'.getLast? = last'
    rintro (hlast | _)
    · exact .some hlast
    · exact .some ht

theorem closed_matches {ts ts' : List Token} (h : K.Rows ts ts') : K.Rows (closed ts) (closed ts') := by
  have hlast := getLast?_matches h
  unfold closed
  revert hlast
  generalize ts.getLast? = last, ts'.getLast? = last'
  rintro (ht | _)
  · dsimp only
    rw [K.isEnd ht]
    split
    · exact h
    · exact List.rel_append h (.cons (K.endOfInput _ _) .nil)
  · exact .cons (K.endOfInput _ _) .nil

/-- **Tokens alike are parsed alike**, with the same problems. -/
theorem parse_matches (K : Grammar.Likeness) {ts ts' : List Token} (h : K.Rows ts ts') :
    (parse ts).Matches K (parse ts') := by
  unfold parse
  rw [h.length_eq]
  exact parseFrom_matches (Grammar.moves_ofLevels K maxNesting) _ (closed_matches h)

end Lox
