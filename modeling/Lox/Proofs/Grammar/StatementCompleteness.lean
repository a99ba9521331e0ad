import Lox.Proofs.Grammar.ExpressionCompleteness

/-!
# Statements and programs of the grammar are read

Tokens that form a statement or a declaration are read as it, given enough levels
(`Stmt.Derivation.read`), and so are programs (`Program.Derivation.read`). A statement that ends in
an `if` without an `else` must not be followed by one, and what follows a declaration never is one.
-/

namespace Lox

open Lox.Parser Filter

variable {mode : Mode} {ts : List Token}

/-! ## Parts of statements -/

theorem Expr.Derivation.headKind_ne {e : Expr} (h : Expr.Derivation mode .assignment ts e)
    {k : TokenKind} (hk : k ∉ Expr.starters) (rest : List Token) : headKind (ts ++ rest) ≠ k := by
  obtain ⟨t, us, rfl, ht⟩ := h.startsWith
  exact fun he => hk (he ▸ ht)

theorem Expr.Optional.runs {e : Option Expr} (h : Expr.Optional mode ts e) (stop : TokenKind)
    (hstop : stop ∈ Expr.ends) :
    ∀ᶠ n in atTop, ∀ rest, headKind rest = stop →
      Runs mode (unlessNext stop (expression (Grammar.ofLevels n))) (ts ++ rest) e rest := by
  cases h with
  | absent => exact Eventually.of_forall fun n rest hr => runs_unlessNext_none hr
  | present hd =>
    have hne : stop ∉ Expr.starters := by revert hstop; cases stop <;> decide
    filter_upwards [hd.runs] with n hn rest hr
    exact Runs.unlessNext (hd.headKind_ne hne rest) (hn rest (hr ▸ hstop))

theorem Stmt.VarDeclaration.runs {s : Stmt} (h : Stmt.VarDeclaration mode ts s) :
    ∃ k us, ts = k :: us ∧ k.kind = .kwVar ∧ ∀ᶠ n in atTop, ∀ rest,
      Runs mode (varDeclaration (Grammar.ofLevels n)) (us ++ rest) s rest := by
  cases h with
  | @plain k t s hk ht hs =>
    refine ⟨k, [t, s], rfl, hk, Eventually.of_forall fun n rest => ?_⟩
    exact Runs.expect ht ((runs_behind_none (by simp [hs])).bind
      (Runs.expect hs (runs_pure _ _)))
  | @initialized k t eq s us e hk ht heq hd hs =>
    refine ⟨k, t :: eq :: (us ++ [s]), rfl, hk, ?_⟩
    filter_upwards [hd.runs] with n hn rest
    have he := hn (s :: rest) (by rw [headKind_cons, hs]; decide)
    rw [show t :: eq :: (us ++ [s]) ++ rest = t :: eq :: (us ++ s :: rest) by simp]
    exact Runs.expect ht ((Runs.behind heq he).bind (Runs.expect hs (runs_pure _ _)))

theorem Stmt.Expression.runs {s : Stmt} (h : Stmt.Expression mode ts s) :
    ∀ᶠ n in atTop, ∀ rest,
      Runs mode (expressionStatement (Grammar.ofLevels n)) (ts ++ rest) s rest := by
  cases h with
  | @mk t s us e hd hs =>
    filter_upwards [hd.runs] with n hn rest
    have he := hn (s :: rest) (by rw [headKind_cons, hs]; decide)
    rw [show t :: us ++ [s] ++ rest = t :: us ++ s :: rest by simp]
    exact (runs_peek t _).bind (he.bind (Runs.expect hs (runs_pure _ _)))

theorem Stmt.Expression.headKind_mem {s : Stmt} (h : Stmt.Expression mode ts s)
    (rest : List Token) : headKind (ts ++ rest) ∈ Expr.starters := by
  cases h with
  | mk hd hs =>
    obtain ⟨t, us, hts, ht⟩ := hd.startsWith
    rw [hts]
    exact ht

theorem Stmt.ForStart.runs {s : Option Stmt} (h : Stmt.ForStart mode ts s) :
    ∀ᶠ n in atTop, ∀ rest,
      Runs mode (forInitializer (Grammar.ofLevels n)) (ts ++ rest) s rest := by
  cases h with
  | absent hs =>
    exact Eventually.of_forall fun n rest => Runs.acceptOne (by simp [hs]) (runs_pure _ _)
  | var hv =>
    obtain ⟨k, us, rfl, hk, hruns⟩ := hv.runs
    filter_upwards [hruns] with n hn rest
    exact Runs.acceptNone (by simp [hk]) (Runs.acceptOne (by simp [hk]) ((hn rest).map some))
  | expression he =>
    filter_upwards [he.runs] with n hn rest
    have hmem := he.headKind_mem rest
    refine Runs.acceptNone ?_ (Runs.acceptNone ?_ ((hn rest).map some))
    · exact fun h => by rw [List.mem_singleton.1 h] at hmem; revert hmem; decide
    · exact fun h => by rw [List.mem_singleton.1 h] at hmem; revert hmem; decide

theorem Stmt.ForStep.runs {s : Option Stmt} (h : Stmt.ForStep mode ts s) :
    ∀ᶠ n in atTop, ∀ r rest, r.kind = .rightParen →
      Runs mode (forStep (Grammar.ofLevels n)) (ts ++ r :: rest) s rest := by
  cases h with
  | absent =>
    refine Eventually.of_forall fun n r rest hr => (runs_peek r rest).bind ?_
    exact (runs_unlessNext_none (by exact hr)).bind (Runs.expect hr (runs_pure _ _))
  | @present t us e hd =>
    filter_upwards [hd.runs] with n hn r rest hr
    have he := hn (r :: rest) (by rw [headKind_cons, hr]; decide)
    exact (runs_peek t _).bind ((Runs.unlessNext (hd.headKind_ne (by decide) _) he).bind
      (Runs.expect hr (runs_pure _ _)))

/-! ## Dispatch on the first token -/

section Dispatch

variable {G : Grammar} {k : Token} {us rest : List Token} {s : Stmt}

theorem runs_statement_print (hk : k.kind = .kwPrint)
    (h : Runs mode (printStatement G k.loc) us s rest) : Runs mode (Parser.statement G) (k :: us) s rest := by
  refine (runs_peek k us).bind ?_
  simp only [hk]
  exact (runs_skip k us).bind h

theorem runs_statement_if (hk : k.kind = .kwIf)
    (h : Runs mode (ifStatement G k.loc) us s rest) : Runs mode (Parser.statement G) (k :: us) s rest := by
  refine (runs_peek k us).bind ?_
  simp only [hk]
  exact (runs_skip k us).bind h

theorem runs_statement_while (hk : k.kind = .kwWhile)
    (h : Runs mode (whileStatement G k.loc) us s rest) : Runs mode (Parser.statement G) (k :: us) s rest := by
  refine (runs_peek k us).bind ?_
  simp only [hk]
  exact (runs_skip k us).bind h

theorem runs_statement_for (hk : k.kind = .kwFor)
    (h : Runs mode (forStatement G k.loc) us s rest) : Runs mode (Parser.statement G) (k :: us) s rest := by
  refine (runs_peek k us).bind ?_
  simp only [hk]
  exact (runs_skip k us).bind h

theorem runs_statement_return (hk : k.kind = .kwReturn)
    (h : Runs mode (returnStatement G k.loc) us s rest) : Runs mode (Parser.statement G) (k :: us) s rest := by
  refine (runs_peek k us).bind ?_
  simp only [hk]
  exact (runs_skip k us).bind h

theorem runs_statement_block {body : List Stmt} (hk : k.kind = .leftBrace)
    (h : Runs mode (block G) us body rest) :
    Runs mode (Parser.statement G) (k :: us) (.block body k.loc) rest := by
  refine (runs_peek k us).bind ?_
  simp only [hk]
  exact (runs_skip k us).bind (h.bind (runs_pure _ _))

theorem runs_statement_expression {after : List Token}
    (hk : headKind rest ∈ Expr.starters) (h : Runs mode (expressionStatement G) rest s after) :
    Runs mode (Parser.statement G) rest s after := by
  cases rest with
  | nil => exact absurd hk (by decide)
  | cons t us =>
    refine (runs_peek t us).bind ?_
    rw [headKind_cons] at hk
    split
    case h_7 => exact h
    all_goals next heq => rw [heq] at hk; exact absurd hk (by decide)

theorem runs_declaration_statement {after : List Token}
    (hfun : headKind rest ≠ .kwFun) (hvar : headKind rest ≠ .kwVar)
    (h : Runs mode G.statement rest s after) :
    Runs mode (declaration G) rest (some s) after :=
  Runs.recovering (Runs.acceptNone (by simpa using hfun) (Runs.acceptNone (by simpa using hvar) h))

end Dispatch

/-! ## Statements -/

/-- What holds of the parsers in front of a statement. -/
def Stmt.Read (mode : Mode) (position : Position) (ts : List Token) (s : Stmt) : Prop :=
  match position with
  | .declaration => ∀ᶠ n in atTop, ∀ rest, headKind rest ≠ .kwElse →
      Runs mode (declaration (Grammar.ofLevels n)) (ts ++ rest) (some s) rest
  | .statement o => ∀ᶠ n in atTop, ∀ rest, (o = true → headKind rest ≠ .kwElse) →
      Runs mode (Parser.statement (Grammar.ofLevels n)) (ts ++ rest) s rest

/-- A branch or a body, one level further in. -/
theorem Stmt.Read.inner {o : Bool} {s : Stmt} (h : Stmt.Read mode (.statement o) ts s) :
    ∀ᶠ n in atTop, ∀ rest, (o = true → headKind rest ≠ .kwElse) →
      Runs mode (Grammar.ofLevels n).statement (ts ++ rest) s rest :=
  eventually_of_add 1 h

theorem Stmt.Derivation.statement_headKind {o : Bool} {s : Stmt}
    (h : Stmt.Derivation mode (.statement o) ts s) (rest : List Token) :
    headKind (ts ++ rest) ≠ .kwFun ∧ headKind (ts ++ rest) ≠ .kwVar := by
  cases h with
  | expression he =>
    have hmem := he.headKind_mem rest
    exact ⟨fun h => by rw [h] at hmem; exact absurd hmem (by decide),
      fun h => by rw [h] at hmem; exact absurd hmem (by decide)⟩
  | print hk | block hk | ifThen hk | ifElse hk | whileLoop hk | forLoop hk | returnStmt hk =>
    rw [List.cons_append, headKind_cons, hk]
    decide

/-- Declarations in a row, in front of a closing brace. -/
theorem runs_block {body : List (List Token × Stmt)}
    (hd : ∀ d ∈ body, Stmt.Derivation mode .declaration d.1 d.2)
    (h : ∀ d ∈ body, Stmt.Read mode .declaration d.1 d.2) {c : Token} (hc : c.kind = .rightBrace) :
    ∀ᶠ n in atTop, ∀ rest, Runs mode (block (Grammar.ofLevels n))
      (body.flatMap Prod.fst ++ c :: rest) (body.map Prod.snd) rest := by
  filter_upwards [(eventually_all_finite (List.finite_toSet body)).2 h] with n hn rest
  refine (runs_manyUntil Stmt.starters (by decide) (by decide)
    (fun d hd' => (hd d hd').startsWith) (fun d hd' after hafter => hn d hd' after ?_)
    (by exact hc)).bind (Runs.expect hc (runs_pure _ _))
  intro he
  rw [he] at hafter
  exact absurd hafter (by decide)

theorem runs_parameters {ps : List Token} (hp : ∀ p ∈ ps, p.kind = .identifier)
    (hs : CommaSeparated (ps.map fun p => [p]) ts) (hb : mode.Allows ps.length)
    {rest : List Token} (hrest : headKind rest = .rightParen) :
    Runs mode parameters (ts ++ rest) (ps.map Token.named) rest := by
  have hlist : Runs mode parameters (ts ++ rest)
      ((ps.map fun p => ([p], p.named)).map Prod.snd) rest := by
    refine runs_list (.inr rfl) ?_ ?_ ?_ ?_ hrest
    · simp only [List.mem_map, forall_exists_index, and_imp]
      rintro _ p hp' rfl after _
      exact (runs_expect (hp p hp') after).map _
    · simp only [List.mem_map, forall_exists_index, and_imp]
      rintro _ p hp' rfl
      exact ⟨p, [], rfl, by rw [hp p hp']; decide⟩
    · rw [List.map_map]
      exact hs
    · rw [Mode.Allows, List.length_map]
      exact hb
  rw [List.map_map] at hlist
  exact hlist

/-- **Statements are read as the grammar says.** -/
theorem Stmt.Derivation.read {position : Position} {s : Stmt}
    (h : Stmt.Derivation mode position ts s) : Stmt.Read mode position ts s := by
  induction h with
  | var hv =>
    obtain ⟨k, us, rfl, hk, hruns⟩ := hv.runs
    filter_upwards [hruns] with n hn rest _
    exact Runs.recovering (Runs.acceptNone (by simp [hk]) (Runs.acceptOne (by simp [hk]) (hn rest)))
  | @function k t l r b c ps us body hk ht hl hb hp hs hr hbrace hd hc ih =>
    have hfun : ∀ᶠ n in atTop, ∀ rest, Runs mode (Grammar.ofLevels n).function
        (t :: l :: (us ++ r :: b :: (body.flatMap Prod.fst ++ c :: rest)))
        (.function t.named (ps.map Token.named) (body.map Prod.snd)) rest := by
      refine eventually_of_add 1 ?_
      filter_upwards [runs_block hd ih hc] with n hn rest
      exact Runs.expect ht (Runs.expect hl ((runs_parameters hp hs hb (by exact hr)).bind
        (Runs.expect hr (Runs.expect hbrace ((hn rest).bind (runs_pure _ _))))))
    filter_upwards [hfun] with n hn rest _
    refine Runs.recovering (Runs.acceptOne (by simp [hk]) ?_)
    simpa using hn rest
  | statement hd ih =>
    filter_upwards [ih.inner] with n hn rest hr
    obtain ⟨hfun, hvar⟩ := hd.statement_headKind rest
    exact runs_declaration_statement hfun hvar (hn rest fun _ => hr)
  | expression he =>
    filter_upwards [he.runs] with n hn rest _
    exact runs_statement_expression (he.headKind_mem rest) (hn rest)
  | @print k s us e hk hd hs =>
    filter_upwards [hd.runs] with n hn rest _
    have he := hn (s :: rest) (by rw [headKind_cons, hs]; decide)
    rw [show k :: (us ++ [s]) ++ rest = k :: (us ++ s :: rest) by simp]
    exact runs_statement_print hk (he.bind (Runs.expect hs (runs_pure _ _)))
  | @block b c body hb hd hc ih =>
    filter_upwards [runs_block hd ih hc] with n hn rest _
    rw [show b :: (body.flatMap Prod.fst ++ [c]) ++ rest =
      b :: (body.flatMap Prod.fst ++ c :: rest) by simp]
    exact runs_statement_block hb (hn rest)
  | @ifThen o k l r us vs e s hk hl hd hr _ ih =>
    filter_upwards [hd.runs, ih.inner] with n hn hin rest hrest
    have he := hn (r :: (vs ++ rest)) (by rw [headKind_cons, hr]; decide)
    rw [show k :: l :: (us ++ r :: vs) ++ rest = k :: l :: (us ++ r :: (vs ++ rest)) by simp]
    exact runs_statement_if hk (Runs.expect hl (he.bind (Runs.expect hr
      ((hin rest fun _ => hrest rfl).bind (Runs.acceptNone (by simpa using hrest rfl)
        (runs_pure _ _))))))
  | @ifElse o k l r m us vs ws e s s' hk hl hd hr _ hm _ ih ih' =>
    filter_upwards [hd.runs, ih.inner, ih'.inner] with n hn hin hin' rest hrest
    have he := hn (r :: (vs ++ m :: (ws ++ rest))) (by rw [headKind_cons, hr]; decide)
    rw [show k :: l :: (us ++ r :: (vs ++ m :: ws)) ++ rest =
      k :: l :: (us ++ r :: (vs ++ m :: (ws ++ rest))) by simp]
    exact runs_statement_if hk (Runs.expect hl (he.bind (Runs.expect hr
      ((hin _ nofun).bind (Runs.acceptOne (by simp [hm])
        ((hin' rest hrest).bind (runs_pure _ _)))))))
  | @whileLoop o k l r us vs e s hk hl hd hr _ ih =>
    filter_upwards [hd.runs, ih.inner] with n hn hin rest hrest
    have he := hn (r :: (vs ++ rest)) (by rw [headKind_cons, hr]; decide)
    rw [show k :: l :: (us ++ r :: vs) ++ rest = k :: l :: (us ++ r :: (vs ++ rest)) by simp]
    exact runs_statement_while hk (Runs.expect hl (he.bind (Runs.expect hr
      ((hin rest hrest).bind (runs_pure _ _)))))
  | @forLoop o k l m r is cs ss us start step condition body round loop hk hl hi hc hm hs hr _
      hround hloop ih =>
    filter_upwards [hi.runs, hc.runs .semicolon (by decide), hs.runs, ih.inner] with n
      hi hc hs hin rest hrest
    have hcondition : Runs mode (forCondition (Grammar.ofLevels n))
        (cs ++ m :: (ss ++ r :: (us ++ rest))) condition (ss ++ r :: (us ++ rest)) :=
      (hc (m :: (ss ++ r :: (us ++ rest))) hm).bind (Runs.expect hm (runs_pure _ _))
    rw [show k :: l :: (is ++ (cs ++ m :: (ss ++ r :: us))) ++ rest =
      k :: l :: (is ++ (cs ++ m :: (ss ++ r :: (us ++ rest)))) by simp]
    subst hround hloop
    have hfor : Runs mode (forStatement (Grammar.ofLevels n) k.loc)
        (l :: (is ++ (cs ++ m :: (ss ++ r :: (us ++ rest)))))
        (.forLoop start condition step body k.loc) rest :=
      Runs.expect hl ((hi _).bind (hcondition.bind ((hs r _ hr).bind
        ((hin rest hrest).bind (runs_pure _ _)))))
    have := runs_statement_for hk hfor
    cases start <;> cases step <;> exact this
  | @returnStmt k s us e hk hd hs =>
    filter_upwards [hd.runs .semicolon (by decide)] with n hn rest _
    rw [show k :: (us ++ [s]) ++ rest = k :: (us ++ s :: rest) by simp]
    exact runs_statement_return hk ((hn (s :: rest) hs).bind (Runs.expect hs (runs_pure _ _)))

/-! ## Programs -/

/-- Declarations in a row up to the end of the input; the rounds suffice, for each takes one. -/
theorem parseFrom_of_runs {G : Grammar} {eof : Token} (he : eof.isEnd = true)
    {body : List (List Token × Stmt)} (hstart : ∀ d ∈ body, StartsWith Stmt.starters d.1)
    (h : ∀ d ∈ body, ∀ rest, headKind rest ≠ .kwElse →
      Runs mode (declaration G) (d.1 ++ rest) (some d.2) rest)
    (rounds : Nat) (hr : body.length ≤ rounds) :
    ∃ errors, mode.Lenient errors ∧
      parseFrom G rounds (body.flatMap Prod.fst ++ [eof]) = ⟨body.map Prod.snd, errors⟩ := by
  have hend : eof.kind = .endOfInput := by simpa [Token.isEnd] using he
  induction body generalizing rounds with
  | nil =>
    refine ⟨[], Mode.lenient_nil mode, ?_⟩
    cases rounds with
    | zero => rfl
    | succ rounds => simp [parseFrom, he]
  | cons d body ih =>
    obtain ⟨rounds, rfl⟩ : ∃ m, rounds = m + 1 := ⟨rounds - 1, by simp at hr; omega⟩
    obtain ⟨⟨t, us, hd, ht⟩, hstart⟩ := List.forall_mem_cons.1 hstart
    obtain ⟨hrun, h⟩ := List.forall_mem_cons.1 h
    obtain ⟨errors, hl, hparse⟩ := ih hstart h rounds (by simpa using hr)
    have hnext : headKind (body.flatMap Prod.fst ++ [eof]) ≠ .kwElse := by
      have hmem := headKind_flatMap hstart [eof]
      intro hk
      rw [hk, headKind_cons, hend] at hmem
      exact absurd hmem (by decide)
    obtain ⟨errors', hl', hdecl⟩ := hrun _ hnext
    refine ⟨errors' ++ errors, hl'.append hl, ?_⟩
    have hne : t.isEnd = false := Token.isEnd_of_mem ht (by decide)
    rw [List.flatMap_cons, List.append_assoc, parseFrom, hdecl, if_neg (by rw [hd]; simp [hne])]
    simp only [hparse]
    rfl

/-- **Programs are read as the grammar says.** -/
theorem Program.Derivation.read {p : Program} (h : Program.Derivation mode ts p) {eof : Token}
    (he : eof.isEnd = true) :
    ∀ᶠ n in atTop, ∀ rounds, ts.length ≤ rounds → ∃ errors, mode.Lenient errors ∧
      parseFrom (Grammar.ofLevels n) rounds (ts ++ [eof]) = ⟨p, errors⟩ := by
  cases h with
  | @mk body hd =>
    have hstart : ∀ d ∈ body, StartsWith Stmt.starters d.1 := fun d hm => (hd d hm).startsWith
    filter_upwards [(eventually_all_finite (List.finite_toSet body)).2 fun d hm => (hd d hm).read]
      with n hn rounds hr
    exact parseFrom_of_runs he hstart hn rounds ((length_le_flatMap hstart).trans hr)

end Lox
