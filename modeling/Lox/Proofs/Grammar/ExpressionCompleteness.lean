import Lox.Proofs.Grammar.Expression
import Lox.Proofs.Grammar.Run
import Mathlib.Order.Filter.AtTopBot.Basic
import Mathlib.Order.Filter.Finite

/-!
# Expressions of the grammar are read

Tokens that form an expression are read as it, given enough levels, wherever no token follows that
the parser would go on with (`Expr.Derivation.read`). At the levels that group to the left the parser has the
whole left operand before it meets the operator, so there the statement is about runs behind the
operand: whatever comes of going on behind it comes of parsing its tokens first (`Leads`).
-/

namespace Lox

open Lox.Parser Filter

variable {mode : Mode}

/-! ## Tokens that a parser goes on with -/

/-- The tokens that an operand of the given tiers goes on with. -/
def operandStops : List Tier → List TokenKind
  | [] => [.leftParen]
  | tier :: tighter => tier.operators ++ operandStops tighter

/-- The tokens that an expression goes on with. -/
def expressionStops : List TokenKind := .equal :: operandStops Tier.all

/-- The tiers of the operators that bind tighter. -/
def Tier.tighter : Tier → List Tier
  | .or => [.and, .equality, .comparison, .sum, .product]
  | .and => [.equality, .comparison, .sum, .product]
  | .equality => [.comparison, .sum, .product]
  | .comparison => [.sum, .product]
  | .sum => [.product]
  | .product => []

/-- No operator of a tier is one that an operand of the tighter tiers goes on with. -/
theorem Tier.operator_notMem_stops {tier : Tier} {k : TokenKind} (h : k ∈ tier.operators) :
    k ∉ operandStops tier.tighter := by
  revert k
  cases tier <;> decide

theorem Level.exists_tier {level : Level} {k : TokenKind} (h : k ∈ level.operators) :
    ∃ tier : Tier, tier.level = level := by
  cases level with
  | disjunction => exact ⟨.or, rfl⟩
  | conjunction => exact ⟨.and, rfl⟩
  | equality => exact ⟨.equality, rfl⟩
  | comparison => exact ⟨.comparison, rfl⟩
  | sum => exact ⟨.sum, rfl⟩
  | product => exact ⟨.product, rfl⟩
  | _ => cases h

theorem Tier.tighter?_level (tier : Tier) :
    tier.level.tighter? = some (Level.ofTiers tier.tighter) := by
  cases tier <;> rfl

/-! ## Complete parsers -/

/-- With enough levels the tokens are read as the expression, if none of the stops follows. -/
def Complete (mode : Mode) (p : Grammar → Parser Expr) (stops : List TokenKind) (ts : List Token)
    (e : Expr) : Prop :=
  ∀ᶠ n in atTop, ∀ rest, headKind rest ∉ stops →
    Runs mode (p (Grammar.ofLevels n)) (ts ++ rest) e rest

/-- With enough levels, what comes of going on behind the expression comes of parsing the tokens
first. -/
def Leads (mode : Mode) (p : Grammar → Parser Expr) (more : Grammar → Expr → Parser Expr)
    (stops : List TokenKind) (ts : List Token) (e : Expr) : Prop :=
  ∃ k, ∀ᶠ n in atTop, ∀ rest x after, headKind rest ∉ stops →
    Runs mode (more (Grammar.ofLevels n) e) rest x after →
      Runs mode (p (Grammar.ofLevels (n + k))) (ts ++ rest) x after

variable {p : Grammar → Parser Expr} {more : Grammar → Expr → Parser Expr}
  {stops stops' : List TokenKind} {ts : List Token} {e : Expr}

theorem Complete.leads (h : Complete mode p stops ts e) :
    Leads mode (fun G => p G >>= more G) more stops ts e := by
  refine ⟨0, ?_⟩
  filter_upwards [h] with n hn rest x after hs hm
  exact (hn rest hs).bind hm

theorem eventually_of_add {P : Nat → Prop} (k : Nat) (h : ∀ᶠ n in atTop, P (n + k)) :
    ∀ᶠ n in atTop, P n := by
  rw [← map_add_atTop_eq_nat k]
  exact eventually_map.2 h

/-- Where nothing goes on behind the expression, its tokens are read as it. -/
theorem Leads.complete (h : Leads mode p more stops ts e)
    (hend : ∀ G rest, headKind rest ∉ stops' → Runs mode (more G e) rest e rest)
    (hs : ∀ k ∈ stops, k ∈ stops') : Complete mode p stops' ts e := by
  obtain ⟨k, h⟩ := h
  refine eventually_of_add k ?_
  filter_upwards [h] with n hn rest hr
  exact hn rest e rest (fun hm => hr (hs _ hm)) (hend _ rest hr)

/-! ## Expressions, level by level -/

/-- The parser of an operand of the call level, with its argument lists. -/
def callee (G : Grammar) : Parser Expr := primary G >>= Parser.calls G

/-- What holds of the parser of a tier in front of an expression of its level. -/
def Tier.Read (mode : Mode) (tier : Tier) (ts : List Token) (e : Expr) : Prop :=
  Leads mode (fun G => Parser.operand G (tier :: tier.tighter))
    (fun G => Parser.chain G tier tier.tighter) (operandStops tier.tighter) ts e

/-- What holds of the parser of a level in front of an expression of it. -/
def Expr.Read (mode : Mode) : Level → List Token → Expr → Prop
  | .assignment => Complete mode Parser.assignment expressionStops
  | .disjunction => Tier.Read mode .or
  | .conjunction => Tier.Read mode .and
  | .equality => Tier.Read mode .equality
  | .comparison => Tier.Read mode .comparison
  | .sum => Tier.Read mode .sum
  | .product => Tier.Read mode .product
  | .unary => Complete mode Parser.unary [.leftParen]
  | .call => Leads mode callee Parser.calls []
  | .primary => Complete mode primary []

theorem Tier.read_level (mode : Mode) (tier : Tier) :
    Expr.Read mode tier.level = Tier.Read mode tier := by
  cases tier <;> rfl

theorem runs_chain_end (G : Grammar) {tier : Tier} {tighter : List Tier} {rest : List Token}
    (h : headKind rest ∉ tier.operators) : Runs mode (Parser.chain G tier tighter e) rest e rest :=
  Runs.acceptNone h (runs_pure _ _)

theorem Tier.Read.complete {tier : Tier} (h : tier.Read mode ts e) :
    Complete mode (fun G => Parser.operand G (tier :: tier.tighter))
      (operandStops (tier :: tier.tighter)) ts e := by
  refine Leads.complete h (fun G rest hr => runs_chain_end G fun hm => hr ?_) fun k hk => ?_
  · exact List.mem_append_left _ hm
  · exact List.mem_append_right _ hk

theorem Expr.Read.operand {tier : Tier} (h : Expr.Read mode (Level.ofTiers tier.tighter) ts e) :
    Complete mode (fun G => Parser.operand G tier.tighter) (operandStops tier.tighter) ts e := by
  cases tier with
  | product => exact h
  | or => exact (show Tier.Read mode .and ts e from h).complete
  | and => exact (show Tier.Read mode .equality ts e from h).complete
  | equality => exact (show Tier.Read mode .comparison ts e from h).complete
  | comparison => exact (show Tier.Read mode .sum ts e from h).complete
  | sum => exact (show Tier.Read mode .product ts e from h).complete

/-! ### From one level to the next -/

theorem Expr.Read.toTier (tier : Tier) (h : Expr.Read mode (Level.ofTiers tier.tighter) ts e) :
    tier.Read mode ts e := h.operand.leads

theorem Expr.Read.toUnary (h : Expr.Read mode .call ts e) (hs : ∃ t us, ts = t :: us ∧
    t.kind ∉ prefixedOperators) : Expr.Read mode .unary ts e := by
  have hcall : Complete mode callee [.leftParen] ts e :=
    Leads.complete h (fun G rest hr => Runs.acceptNone (by simpa using hr) (runs_pure _ _)) nofun
  obtain ⟨t, us, rfl, ht⟩ := hs
  filter_upwards [hcall] with n hn rest hr
  exact Runs.acceptNone ht (hn rest hr)

theorem Expr.Read.toAssignment (h : Expr.Read mode .disjunction ts e) :
    Expr.Read mode .assignment ts e := by
  filter_upwards [(show Tier.Read mode .or ts e from h).complete] with n hn rest hr
  obtain ⟨heq, hstop⟩ : headKind rest ≠ .equal ∧ headKind rest ∉ operandStops Tier.all := by
    simpa [expressionStops] using hr
  exact (hn rest hstop).bind (Runs.acceptNone (by simpa using heq) (runs_pure _ _))

/-! ### One production each -/

theorem Complete.toExpression (h : Complete mode Parser.assignment stops ts e) :
    Complete mode expression stops ts e :=
  eventually_of_add 1 h

/-- A primary expression of one token. -/
theorem complete_leaf {t : Token} {v : Value} (h : t.value? = some v) :
    Complete mode primary [] [t] (.literal v t.loc) := by
  refine Eventually.of_forall fun n rest _ => (runs_peek t rest).bind ?_
  unfold Token.value? at h
  split at h
  all_goals simp_all only [Option.some.injEq, reduceCtorEq]
  all_goals subst h; exact (runs_skip t rest).bind (runs_pure _ _)

theorem complete_name {t : Token} (h : t.kind = .identifier) :
    Complete mode primary [] [t] (.reference t.named none) := by
  refine Eventually.of_forall fun n rest _ => (runs_peek t rest).bind ?_
  simp only [h]
  exact (runs_skip t rest).bind (runs_pure _ _)

theorem Complete.grouping {l r : Token} (hl : l.kind = .leftParen)
    (h : Complete mode expression expressionStops ts e) (hr : r.kind = .rightParen) :
    Complete mode primary [] (l :: (ts ++ [r])) (.grouping e l.loc) := by
  filter_upwards [h] with n hn rest _
  have hin := hn (r :: rest) (by rw [headKind_cons, hr]; decide)
  rw [show l :: (ts ++ [r]) ++ rest = l :: (ts ++ r :: rest) by simp]
  refine (runs_peek l _).bind ?_
  simp only [hl]
  exact (runs_skip l _).bind (hin.bind (Runs.expect hr (runs_pure _ _)))

theorem Complete.unary {t : Token} (ht : t.kind ∈ prefixedOperators)
    (h : Complete mode Parser.unary [.leftParen] ts e) :
    Complete mode Parser.unary [.leftParen] (t :: ts) (.unary t.operator e) := by
  have h : Complete mode Grammar.unary [.leftParen] ts e := eventually_of_add 1 h
  filter_upwards [h] with n hn rest hr
  exact Runs.acceptOne ht ((hn rest hr).bind (runs_pure _ _))

/-- A name is an operand of every tier. -/
theorem complete_target {t : Token} (h : t.kind = .identifier) :
    Complete mode (fun G => Parser.operand G Tier.all) (operandStops Tier.all) [t]
      (.reference t.named none) := by
  have hcall : Expr.Read mode .call [t] (.reference t.named none) := (complete_name h).leads
  have hunary := hcall.toUnary ⟨t, [], rfl, by rw [h]; decide⟩
  have hsum : Expr.Read mode .sum [t] (.reference t.named none) :=
    Expr.Read.toTier .sum (Expr.Read.toTier .product hunary)
  have hequality : Expr.Read mode .equality [t] (.reference t.named none) :=
    Expr.Read.toTier .equality (Expr.Read.toTier .comparison hsum)
  have hor : Tier.Read mode .or [t] (.reference t.named none) :=
    Expr.Read.toTier .or (Expr.Read.toTier .and hequality)
  exact hor.complete

theorem Complete.assigned {t eq : Token} (ht : t.kind = .identifier) (heq : eq.kind = .equal)
    (h : Complete mode Parser.assignment expressionStops ts e) :
    Complete mode Parser.assignment expressionStops (t :: eq :: ts) (.assign t.named none e) := by
  filter_upwards [complete_target ht, h.toExpression] with n htarget hn rest hr
  refine (htarget (eq :: (ts ++ rest)) ?_).bind
    (Runs.acceptOne (by simp [heq]) ((hn rest hr).bind (runs_pure _ _)))
  rw [headKind_cons, heq]
  decide

/-! ### Expressions that group to the left -/

/-- An operator of a tier and its right operand, behind a left one. -/
theorem Tier.Read.joined {tier : Tier} {t : Token} {us : List Token} {l r : Expr}
    (hl : tier.Read mode ts l) (ht : t.kind ∈ tier.operators)
    (hr : Expr.Read mode (Level.ofTiers tier.tighter) us r) :
    tier.Read mode (ts ++ t :: us) (tier.join t.operator l r) := by
  obtain ⟨k, hl⟩ := hl
  refine ⟨k + 1, ?_⟩
  filter_upwards [(tendsto_add_atTop_nat 1).eventually hl, hr.operand] with n hn hr rest x after
    hs hmore
  have := hn (t :: (us ++ rest)) x after (Tier.operator_notMem_stops ht)
    (Runs.acceptOne ht ((hr rest hs).bind hmore))
  rw [List.append_assoc, Nat.add_comm k, ← Nat.add_assoc]
  exact this

/-- An argument list behind a callee. -/
theorem Leads.call {l r : Token} {us : List Token} {f : Expr} {args : List (List Token × Expr)}
    (hf : Leads mode callee Parser.calls [] ts f) (hl : l.kind = .leftParen)
    (hb : mode.Allows args.length) (hs : CommaSeparated (args.map Prod.fst) us)
    (hstart : ∀ a ∈ args, StartsWith Expr.starters a.1)
    (hargs : ∀ a ∈ args, Complete mode expression expressionStops a.1 a.2)
    (hr : r.kind = .rightParen) :
    Leads mode callee Parser.calls [] (ts ++ l :: (us ++ [r]))
      (.call f (args.map Prod.snd) r.loc) := by
  obtain ⟨k, hf⟩ := hf
  have hargs : ∀ᶠ n in atTop, ∀ a ∈ args, ∀ rest, headKind rest ∈ listEnds →
      Runs mode (expression (Grammar.ofLevels n)) (a.1 ++ rest) a.2 rest := by
    refine (eventually_all_finite (List.finite_toSet args)).2 fun a ha => ?_
    filter_upwards [hargs a ha] with n hn rest hrest
    refine hn rest fun hstop => ?_
    revert hrest hstop
    generalize headKind rest = k
    cases k <;> decide
  refine ⟨k + 1, ?_⟩
  filter_upwards [(tendsto_add_atTop_nat 1).eventually hf, hargs] with n hn hargs rest x after hs'
    hmore
  have harguments : Runs mode (Parser.arguments (Grammar.ofLevels n)) (us ++ r :: rest)
      (args.map Prod.snd) (r :: rest) := by
    refine runs_list (.inl rfl) hargs (fun a ha => ?_) hs hb hr
    obtain ⟨t, vs, ht, hk⟩ := hstart a ha
    exact ⟨t, vs, ht, fun h => by rw [h] at hk; exact absurd hk (by decide)⟩
  have := hn (l :: (us ++ r :: rest)) x after List.not_mem_nil
    (Runs.acceptOne (by simp [hl]) (harguments.bind (Runs.expect hr hmore)))
  rw [Nat.add_comm k, ← Nat.add_assoc]
  simpa using this

/-- **Expressions are read as the grammar says.** -/
theorem Expr.Derivation.read {level : Level} (h : Expr.Derivation mode level ts e) :
    Expr.Read mode level ts e := by
  induction h with
  | literal hv => exact complete_leaf hv
  | name hk => exact complete_name hk
  | grouping hl _ hr ih => exact Complete.grouping hl (Complete.toExpression ih) hr
  | call _ hl hb hargs hs hr ih ihargs =>
    exact Leads.call ih hl hb hs (fun a ha => (hargs a ha).startsWith)
      (fun a ha => Complete.toExpression (ihargs a ha)) hr
  | unary ht _ ih => exact Complete.unary (by simpa [prefixedOperators] using ht) ih
  | @joined level tighter t _ _ _ _ ht htighter _ _ ihl ihr =>
    obtain ⟨tier, rfl⟩ := Level.exists_tier ht
    rw [Tier.tighter?_level, Option.some.injEq] at htighter
    subst htighter
    rw [Tier.read_level] at ihl ⊢
    rw [Tier.operators_level] at ht
    rw [Tier.node_level]
    exact ihl.joined ht ihr
  | assignment ht heq _ ih => exact Complete.assigned ht heq ih
  | @tighter level tighter ts e hlevel hd ih =>
    cases level with
    | primary => cases hlevel
    | call => cases hlevel; exact Complete.leads ih
    | unary =>
      cases hlevel
      obtain ⟨t, us, hts, ht⟩ := hd.startsWith_primary (.inr rfl)
      refine ih.toUnary ⟨t, us, hts, fun hm => ?_⟩
      revert ht hm
      generalize t.kind = k
      cases k <;> decide
    | assignment => cases hlevel; exact ih.toAssignment
    | disjunction => cases hlevel; exact ih.toTier .or
    | conjunction => cases hlevel; exact ih.toTier .and
    | equality => cases hlevel; exact ih.toTier .equality
    | comparison => cases hlevel; exact ih.toTier .comparison
    | sum => cases hlevel; exact ih.toTier .sum
    | product => cases hlevel; exact ih.toTier .product

/-- The tokens that can stand behind an expression. -/
def Expr.ends : List TokenKind := [.comma, .rightParen, .semicolon]

theorem Expr.Derivation.runs (h : Expr.Derivation mode .assignment ts e) :
    ∀ᶠ n in atTop, ∀ rest, headKind rest ∈ Expr.ends →
      Runs mode (expression (Grammar.ofLevels n)) (ts ++ rest) e rest := by
  filter_upwards [Complete.toExpression h.read] with n hn rest hrest
  refine hn rest fun hstop => ?_
  revert hrest hstop
  generalize headKind rest = k
  cases k <;> decide

end Lox
