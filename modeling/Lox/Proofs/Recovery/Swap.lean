import Lox.Proofs.Grammar.ExpressionCompleteness
import Lox.Proofs.Recovery.Lookahead

/-!
# Other tokens in place of the rest

Where a parser succeeds and leaves just the tokens `v`, it does the same in front of other tokens `v'`
that nothing goes on with: that begin with the end of the input, say, or with a keyword that begins a
statement (`Parser.Swaps`). A parser that *closes* takes a token at least where it does so. Whoever
ends with a token of their own need only be frugal up to there, so that lists, blocks and optional parts
are not looked into again.

A declaration at the top of a program may be passed over instead, and the parser resumes in front of
`v`; it then resumes at the end of the input, if that is there instead (`swaps_declaration`).
-/

namespace Lox

namespace Parser

variable {α β : Type}

/-- A frugal parser that, where it takes just the tokens in front of `v`, takes the same ones in front
of `v'` and gives the same. -/
structure Swaps (v v' : List Token) (p : Parser α) : Prop where
  frugal : Frugal p
  swaps : ∀ us a errors, p (us ++ v) = ⟨.ok a, v, errors⟩ → p (us ++ v') = ⟨.ok a, v', errors⟩

/-- A parser that swaps and takes a token at least where it takes just those in front of `v`. -/
structure Closes (v v' : List Token) (p : Parser α) : Prop extends Swaps v v' p where
  takes_one : ∀ us a errors, p (us ++ v) = ⟨.ok a, v, errors⟩ → us ≠ []

variable {v v' : List Token}

/-! ## Runs in a row -/

section Runs

variable {p : Parser α} {f : α → Parser β}

/-- A run of two parsers in a row that takes just the tokens `us` in front of `v`: the first takes some
of them, and they are all of them if it does not do the same in front of `v'`. -/
theorem Frugal.bind_parts (hp : Frugal p) (v' : List Token) (hf : ∀ a, Frugal (f a))
    {us : List Token} {b : β} {errors : List ParseError} (h : (p >>= f) (us ++ v) = ⟨.ok b, v, errors⟩) :
    ∃ a ws es es', p (us ++ v) = ⟨.ok a, ws ++ v, es⟩ ∧ f a (ws ++ v) = ⟨.ok b, v, es'⟩ ∧
      errors = es ++ es' ∧ ws.length ≤ us.length ∧
      (ws ≠ [] → p (us ++ v') = ⟨.ok a, ws ++ v', es⟩) := by
  obtain ⟨a, mid, es, es', hpa, hfb, herrors⟩ := bind_ok h
  obtain ⟨ws, hmid⟩ := (hf a).suffix mid
  rw [hfb] at hmid
  obtain rfl : ws ++ v = mid := hmid
  refine ⟨a, ws, es, es', hpa, hfb, herrors, hp.length_le (by rw [hpa]), fun hne => ?_⟩
  have hlooks := hp.looks us ws v v' hne (by rw [hpa])
  rwa [hpa] at hlooks

theorem Swaps.bind (hp : Swaps v v' p) (hf : ∀ a, Swaps v v' (f a)) : Swaps v v' (p >>= f) := by
  refine ⟨hp.frugal.bind fun a => (hf a).frugal, fun us b errors h => ?_⟩
  obtain ⟨a, ws, es, es', hpa, hfb, rfl, _, hswap⟩ :=
    hp.frugal.bind_parts v' (fun a => (hf a).frugal) h
  have hpa' : p (us ++ v') = ⟨.ok a, ws ++ v', es⟩ := by
    by_cases hne : ws = []
    · rw [hne] at hpa ⊢
      exact hp.swaps us a es hpa
    · exact hswap hne
  rw [bind_of_ok hpa', (hf a).swaps ws b es' hfb]

theorem Closes.bind (hp : Closes v v' p) (hf : ∀ a, Swaps v v' (f a)) : Closes v v' (p >>= f) := by
  refine ⟨hp.toSwaps.bind hf, fun us b errors h => ?_⟩
  obtain ⟨a, ws, es, _, hpa, _, _, hlen, _⟩ :=
    hp.frugal.bind_parts v' (fun a => (hf a).frugal) h
  by_cases hne : ws = []
  · rw [hne] at hpa
    exact hp.takes_one us a es hpa
  · rintro rfl
    exact hne (List.length_eq_zero_iff.1 (Nat.le_zero.1 hlen))

/-- What stands in front of a parser that closes need only be frugal. -/
theorem Frugal.bindCloses (hp : Frugal p) (hf : ∀ a, Closes v v' (f a)) : Closes v v' (p >>= f) := by
  have parts {us b errors} (h : (p >>= f) (us ++ v) = ⟨.ok b, v, errors⟩) :=
    hp.bind_parts v' (fun a => (hf a).frugal) h
  refine ⟨⟨hp.bind fun a => (hf a).frugal, fun us b errors h => ?_⟩, fun us b errors h => ?_⟩
  · obtain ⟨a, ws, es, es', _, hfb, rfl, _, hswap⟩ := parts h
    rw [bind_of_ok (hswap ((hf a).takes_one ws b es' hfb)), (hf a).swaps ws b es' hfb]
  · obtain ⟨a, ws, _, es', _, hfb, _, hlen, _⟩ := parts h
    rintro rfl
    exact (hf a).takes_one ws b es' hfb (List.length_eq_zero_iff.1 (Nat.le_zero.1 hlen))

end Runs

/-! ## Single steps -/

/-- A parser that gives the same everywhere and takes nothing. -/
theorem swaps_of_eq {p : Parser α} {a : α} {errors : List ParseError} (h : Frugal p)
    (heq : ∀ ts, p ts = ⟨.ok a, ts, errors⟩) : Swaps v v' p := by
  refine ⟨h, fun us b errors' hrun => ?_⟩
  rw [heq] at hrun
  obtain rfl : us = [] := List.append_left_eq_self.1 (congrArg Parsed.rest hrun)
  cases hrun
  exact heq v'

theorem swaps_pure (a : α) : Swaps v v' (pure a) := swaps_of_eq (frugal_pure a) fun _ => rfl

theorem swaps_report {problem : ParseProblem} (h : problem ≠ .nestingTooDeep) (found : Token) :
    Swaps v v' (report problem found) := swaps_of_eq (frugal_report h found) fun _ => rfl

theorem closes_fail (problem : ParseProblem) : Closes v v' (fail problem : Parser α) :=
  ⟨⟨frugal_fail problem, fun _ _ _ h => nomatch h⟩, fun _ _ _ h => nomatch h⟩

/-- A parser that looks at the next token: where that is of `v`, it does not succeed without taking it,
so it does not matter that another one stands there in `v'`. -/
theorem closes_dispatch {f : Token → Parser α}
    (h : ∀ t, Closes v v' (f t) ∨
      t.isEnd = false ∧ ∃ g : Unit → Parser α, f t = skip >>= g ∧ Swaps v v' (g ())) :
    Closes v v' (peek >>= f) := by
  have hfrugal : Frugal (peek >>= f) := frugal_dispatch fun t => (h t).imp (·.frugal)
    fun ⟨ht, g, hg, hswaps⟩ => ⟨ht, g, hg, hswaps.frugal⟩
  have takes_one (us : List Token) (a : α) (errors : List ParseError)
      (hrun : (peek >>= f) (us ++ v) = ⟨.ok a, v, errors⟩) : us ≠ [] := by
    rintro rfl
    cases v with
    | nil =>
      have hclose := (h (.endOfInput .nowhere)).resolve_right fun hne => nomatch hne.1
      exact hclose.takes_one [] a errors hrun rfl
    | cons t ts =>
      rcases h t with hf | ⟨_, g, hg, hf⟩
      · exact hf.takes_one [] a errors hrun rfl
      · rw [List.nil_append, peek_skip hg] at hrun
        have hlen := (hf.frugal.suffix ts).length_le
        rw [hrun, List.length_cons] at hlen
        omega
  refine ⟨⟨hfrugal, fun us a errors hrun => ?_⟩, takes_one⟩
  cases us with
  | nil => exact absurd rfl (takes_one [] a errors hrun)
  | cons t us =>
    rcases h t with hf | ⟨_, g, hg, hf⟩
    · exact hf.swaps (t :: us) a errors hrun
    · rw [List.cons_append, peek_skip hg] at hrun ⊢
      exact hf.swaps us a errors hrun

/-! ## Optional tokens -/

section Tokens

variable {kinds : List TokenKind} {f : Option Token → Parser α}

theorem choice_of_mem {t : Token} (h : t.kind ∈ kinds) (ts : List Token) :
    (acceptOne kinds >>= f) (t :: ts) = f (some t) ts :=
  (bind_of_ok (acceptOne_of_mem h ts)).trans rfl

theorem choice_of_notMem {ts : List Token} (h : headKind ts ∉ kinds) :
    (acceptOne kinds >>= f) ts = f none ts :=
  (bind_of_ok (acceptOne_of_notMem h)).trans rfl

variable (hend : .endOfInput ∉ kinds)
include hend

/-- A run that takes the next token takes one of those in front of `v`. -/
theorem choice_takes_one (hsome : ∀ t, Frugal (f (some t))) {a : α} {errors : List ParseError}
    (hhead : headKind v ∈ kinds) : (acceptOne kinds >>= f) v ≠ ⟨.ok a, v, errors⟩ := by
  intro hrun
  cases v with
  | nil => exact hend hhead
  | cons t ts =>
    rw [headKind_cons] at hhead
    rw [choice_of_mem hhead] at hrun
    have hlen := ((hsome t).suffix ts).length_le
    rw [hrun, List.length_cons] at hlen
    omega

omit hend in
theorem choice_swaps_cons (hsome : ∀ t, Swaps v v' (f (some t))) (hnone : Swaps v v' (f none))
    {t : Token} {us : List Token} {a : α} {errors : List ParseError}
    (hrun : (acceptOne kinds >>= f) (t :: us ++ v) = ⟨.ok a, v, errors⟩) :
    (acceptOne kinds >>= f) (t :: us ++ v') = ⟨.ok a, v', errors⟩ := by
  rw [List.cons_append] at hrun ⊢
  by_cases ht : t.kind ∈ kinds
  · rw [choice_of_mem ht] at hrun ⊢
    exact (hsome t).swaps us a errors hrun
  · rw [choice_of_notMem (by simpa using ht)] at hrun ⊢
    exact hnone.swaps (t :: us) a errors hrun

/-- Going on differently behind a token of the given kinds, if nothing goes on at `v'`. -/
theorem swaps_choice (hv' : headKind v' ∉ kinds) (hsome : ∀ t, Swaps v v' (f (some t)))
    (hnone : Swaps v v' (f none)) : Swaps v v' (acceptOne kinds >>= f) := by
  refine ⟨frugal_choice hend (fun t => (hsome t).frugal) hnone.frugal, fun us a errors hrun => ?_⟩
  cases us with
  | nil =>
    have hhead : headKind v ∉ kinds := fun hmem =>
      choice_takes_one hend (fun t => (hsome t).frugal) hmem hrun
    rw [List.nil_append, choice_of_notMem hhead] at hrun
    rw [List.nil_append, choice_of_notMem hv']
    exact hnone.swaps [] a errors hrun
  | cons t us => exact choice_swaps_cons hsome hnone hrun

/-- Where none of the tokens is of use, the parser that goes on takes one. -/
theorem closes_choice (hsome : ∀ t, Swaps v v' (f (some t))) (hnone : Closes v v' (f none)) :
    Closes v v' (acceptOne kinds >>= f) := by
  have takes_one (us : List Token) (a : α) (errors : List ParseError)
      (hrun : (acceptOne kinds >>= f) (us ++ v) = ⟨.ok a, v, errors⟩) : us ≠ [] := by
    rintro rfl
    by_cases hhead : headKind v ∈ kinds
    · exact choice_takes_one hend (fun t => (hsome t).frugal) hhead hrun
    · rw [List.nil_append, choice_of_notMem hhead] at hrun
      exact hnone.takes_one [] a errors hrun rfl
  refine ⟨⟨frugal_choice hend (fun t => (hsome t).frugal) hnone.frugal, fun us a errors hrun => ?_⟩,
    takes_one⟩
  cases us with
  | nil => exact absurd rfl (takes_one [] a errors hrun)
  | cons t us => exact choice_swaps_cons hsome hnone.toSwaps hrun

end Tokens

theorem closes_expect (what : Expectation) : Closes v v' (expect what) :=
  closes_choice (by cases what <;> decide) (fun t => swaps_pure t) (closes_fail _)

/-! ## Recovery -/

/-- The parser resumes in front of other tokens too, if they begin with a token of the same kind or with
the end of the input. -/
theorem resumeAfter_swap {last : Token} {us : List Token}
    (hv' : headKind v' = .endOfInput ∨ headKind v' = headKind v)
    (h : resumeAfter last (us ++ v) = v) : resumeAfter last (us ++ v') = v' := by
  induction us generalizing last with
  | nil =>
    cases v' with
    | nil => rfl
    | cons t' r' =>
      refine if_pos ?_
      rcases hv' with hend | hsame
      · simp [Token.isEnd, show t'.kind = .endOfInput from hend]
      · cases v with
        | nil => simp [Token.isEnd, show t'.kind = .endOfInput from hsame]
        | cons t r =>
          rw [List.nil_append, resumeAfter] at h
          split at h
          · next hstop =>
            rwa [Token.isEnd, show t'.kind = t.kind from hsame]
          · have hlen := (resumeAfter_suffix t r).length_le
            rw [h, List.length_cons] at hlen
            omega
  | cons t us ih =>
    rw [List.cons_append, resumeAfter] at h ⊢
    split at h
    · exact absurd (List.append_left_eq_self.1 (show (t :: us) ++ v = v from h))
        (List.cons_ne_nil _ _)
    · next hstop =>
      rw [if_neg hstop]
      exact ih h

theorem resume_swap {us : List Token} (hne : us ≠ [])
    (hv' : headKind v' = .endOfInput ∨ headKind v' = headKind v)
    (h : resume (us ++ v) = v) : resume (us ++ v') = v' := by
  obtain ⟨t, us, rfl⟩ := List.exists_cons_of_ne_nil hne
  rw [List.cons_append, resume] at h ⊢
  split at h
  · exact absurd (List.append_left_eq_self.1 (show (t :: us) ++ v = v from h)) (List.cons_ne_nil _ _)
  · next hend =>
    rw [if_neg hend]
    exact resumeAfter_swap hv' h

/-- The parser passes over a token, unless it is at the end. -/
theorem resume_ne (hv : headKind v ≠ .endOfInput) : resume v ≠ v := by
  intro h
  cases v with
  | nil => exact hv rfl
  | cons t ts =>
    have hend : ¬ t.isEnd = true := fun hend => hv (beq_iff_eq.1 hend)
    have hlen := congrArg List.length h
    rw [resume, if_neg hend] at hlen
    have hle := (resumeAfter_suffix t ts).length_le
    rw [hlen, List.length_cons] at hle
    omega

/-- Where a declaration has come to nothing, the tokens passed over include the one that was wrong, so
the first token of `v` has not been looked at but to resume in front of it. -/
theorem Swaps.recovering {p : Parser α} (hv : headKind v ≠ .endOfInput)
    (hv' : headKind v' = .endOfInput) (h : Swaps v v' p) : Swaps v v' p.recovering := by
  refine ⟨h.frugal.recovering, fun us o errors hrun => ?_⟩
  rcases hp : p (us ++ v) with ⟨e | a, rest, es⟩
  · cases he : e.isFinal with
    | true =>
      rw [recovering_of_final hp he] at hrun
      cases hrun
    | false =>
      rw [recovering_of_error hp he] at hrun
      obtain ⟨rfl, hrest, rfl⟩ : none = o ∧ resume rest = v ∧ es ++ [e] = errors := by
        simpa using hrun
      obtain ⟨lost, hlost, _⟩ := resume_takes rest
      rw [hrest] at hlost
      subst hlost
      have hne : lost ≠ [] := by
        rintro rfl
        exact resume_ne hv hrest
      have hlooks := h.frugal.looks us lost v v' hne (by rw [hp])
      rw [hp] at hlooks
      rw [recovering_of_error hlooks he, resume_swap hne (.inl hv') hrest]
  · rw [recovering_of_ok hp] at hrun
    obtain ⟨rfl, rfl, rfl⟩ : some a = o ∧ rest = v ∧ es = errors := by simpa using hrun
    exact recovering_of_ok (h.swaps us a es hp)

end Parser

/-! ## The grammar -/

theorem Tier.operators_subset_stops (tier : Tier) : ∀ k ∈ tier.operators, k ∈ expressionStops := by
  cases tier <;> decide

namespace Grammar

open Lox.Parser

/-- Expressions and statements swap, and those that take a token close. -/
structure Swaps (v v' : List Token) (G : Grammar) : Prop where
  frugal : G.Frugal
  assignment : Closes v v' G.assignment
  operand : ∀ tiers, Closes v v' (G.operand tiers)
  chain : ∀ tier tighter left, Parser.Swaps v v' (G.chain tier tighter left)
  unary : Closes v v' G.unary
  calls : ∀ callee, Parser.Swaps v v' (G.calls callee)
  statement : Closes v v' G.statement
  function : Closes v v' G.function

variable {v v' : List Token}

theorem swaps_tooDeep : tooDeep.Swaps v v' :=
  ⟨frugal_tooDeep, closes_fail _, fun _ => closes_fail _, fun _ _ _ => (closes_fail _).toSwaps,
    closes_fail _, fun _ => (closes_fail _).toSwaps, closes_fail _, closes_fail _⟩

namespace Swaps

variable {G : Grammar} (h : G.Swaps v v')
include h

/-! ### Expressions -/

theorem primary : Closes v v' (Parser.primary G) := by
  refine closes_dispatch fun t => ?_
  split
  case h_7 hk =>
    refine .inr ⟨Token.isEnd_of_kind hk (by decide), _, rfl, ?_⟩
    exact (h.frugal.assignment.bindCloses fun _ => (closes_expect _).bind fun _ => swaps_pure _).toSwaps
  case h_8 => exact .inl (closes_fail _)
  all_goals
    exact .inr ⟨Token.isEnd_of_kind ‹t.kind = _› (by decide), _, rfl, swaps_pure _⟩

section Expressions

variable (hv' : headKind v' ∉ expressionStops)
include hv'

theorem calls_above (callee : Expr) : Parser.Swaps v v' (Parser.calls G callee) :=
  swaps_choice (by decide) (fun hmem => hv' (by rw [List.mem_singleton.1 hmem]; decide))
    (fun _ => (h.frugal.arguments.bindCloses fun _ => (closes_expect _).bind fun _ => h.calls _).toSwaps)
    (swaps_pure _)

theorem unary_above : Closes v v' (Parser.unary G) :=
  closes_choice (by decide) (fun _ => h.unary.toSwaps.bind fun _ => swaps_pure _)
    (h.primary.bind fun _ => h.calls_above hv' _)

theorem chain_above (tier : Tier) (tighter : List Tier) (left : Expr) :
    Parser.Swaps v v' (Parser.chain G tier tighter left) :=
  swaps_choice (by cases tier <;> decide) (fun hmem => hv' (tier.operators_subset_stops _ hmem))
    (fun _ => (h.operand tighter).toSwaps.bind fun _ => h.chain _ _ _) (swaps_pure _)

theorem operand_above : ∀ tiers, Closes v v' (Parser.operand G tiers)
  | [] => h.unary_above hv'
  | tier :: tighter => (operand_above tighter).bind fun _ => h.chain_above hv' tier tighter _

theorem assignment_above : Closes v v' (Parser.assignment G) := by
  refine (h.operand_above hv' _).bind fun target =>
    swaps_choice (by decide) (fun hmem => hv' (by rw [List.mem_singleton.1 hmem]; decide))
      (fun eq => ?_) (swaps_pure _)
  refine h.assignment.toSwaps.bind fun value => ?_
  split
  · exact swaps_pure _
  · exact (swaps_report (by decide) _).bind fun _ => swaps_pure _

end Expressions

/-! ### Statements -/

theorem varDeclaration : Closes v v' (Parser.varDeclaration G) :=
  (frugal_expect _).bindCloses fun _ => (h.frugal.assignment.behind (by decide)).bindCloses fun _ =>
    (closes_expect _).bind fun _ => swaps_pure _

theorem expressionStatement : Closes v v' (Parser.expressionStatement G) :=
  frugal_peek.bindCloses fun _ => h.frugal.assignment.bindCloses fun _ =>
    (closes_expect _).bind fun _ => swaps_pure _

theorem ifStatement (helse : headKind v' ≠ .kwElse) (loc : Location) :
    Closes v v' (Parser.ifStatement G loc) :=
  (closes_expect _).bind fun _ => h.assignment.toSwaps.bind fun _ => (closes_expect _).toSwaps.bind
    fun _ => h.statement.toSwaps.bind fun _ => swaps_choice (by decide) (by simpa using helse)
      (fun _ => h.statement.toSwaps.bind fun _ => swaps_pure _) (swaps_pure _)

theorem block (hstep : Progresses (Parser.declaration G)) : Closes v v' (Parser.block G) :=
  (h.frugal.declaration.manyUntil hstep _).bindCloses fun _ => (closes_expect _).bind fun _ =>
    swaps_pure _

theorem function_above (hstep : Progresses (Parser.declaration G)) :
    Closes v v' (Parser.function G) :=
  (frugal_expect _).bindCloses fun _ => (frugal_expect _).bindCloses fun _ =>
    frugal_parameters.bindCloses fun _ => (frugal_expect _).bindCloses fun _ =>
    (frugal_expect _).bindCloses fun _ => (h.block hstep).bind fun _ => swaps_pure _

theorem statement_above (hstep : Progresses (Parser.declaration G)) (helse : headKind v' ≠ .kwElse) :
    Closes v v' (Parser.statement G) := by
  refine closes_dispatch fun t => ?_
  have taking {k : TokenKind} (hk : t.kind = k) (hend : k ≠ .endOfInput) {p : Parser Stmt}
      (hp : Closes v v' p) : Closes v v' (skip >>= fun _ => p) ∨ t.isEnd = false ∧
        ∃ g : Unit → Parser Stmt, (skip >>= fun _ => p) = skip >>= g ∧ Parser.Swaps v v' (g ()) :=
    .inr ⟨Token.isEnd_of_kind hk hend, _, rfl, hp.toSwaps⟩
  split
  · exact taking ‹t.kind = _› (by decide) (h.frugal.assignment.bindCloses fun _ =>
      (closes_expect _).bind fun _ => swaps_pure _)
  · exact taking ‹t.kind = _› (by decide) (h.ifStatement helse _)
  · exact taking ‹t.kind = _› (by decide) ((frugal_expect _).bindCloses fun _ =>
      h.frugal.assignment.bindCloses fun _ => (frugal_expect _).bindCloses fun _ =>
      h.statement.bind fun _ => swaps_pure _)
  · exact taking ‹t.kind = _› (by decide) ((frugal_expect _).bindCloses fun _ =>
      h.frugal.forInitializer.bindCloses fun _ => h.frugal.forCondition.bindCloses fun _ =>
      h.frugal.forStep.bindCloses fun _ => h.statement.bind fun _ => swaps_pure _)
  · exact taking ‹t.kind = _› (by decide) ((h.frugal.assignment.unlessNext _).bindCloses fun _ =>
      (closes_expect _).bind fun _ => swaps_pure _)
  · exact taking ‹t.kind = _› (by decide) ((h.block hstep).bind fun _ => swaps_pure _)
  · exact .inl h.expressionStatement

end Swaps

/-- Nothing goes on at the tokens: neither an expression nor an `if`. -/
def Stops (v' : List Token) : Prop := headKind v' ∉ .kwElse :: expressionStops

theorem swaps_ofLevels (hv' : Stops v') (n : Nat) : (ofLevels n).Swaps v v' := by
  obtain ⟨helse, hstops⟩ : headKind v' ≠ .kwElse ∧ headKind v' ∉ expressionStops := by
    simpa [Stops] using hv'
  induction n with
  | zero => exact swaps_tooDeep
  | succ n ih =>
    have hstep := progresses_declaration n
    exact ⟨ih.frugal.above hstep, ih.assignment_above hstops, ih.operand_above hstops,
      ih.chain_above hstops, ih.unary_above hstops, ih.calls_above hstops,
      ih.statement_above hstep helse, ih.function_above hstep⟩

/-- **The end in place of the rest.** A declaration that is parsed, or passed over, in front of other
tokens comes to the same in front of the end of the input. -/
theorem swaps_declaration (hv : headKind v ≠ .endOfInput) (hv' : headKind v' = .endOfInput)
    (n : Nat) : Parser.Swaps v v' (Parser.declaration (ofLevels n)) := by
  have h : (ofLevels n).Swaps v v' := swaps_ofLevels (by rw [Stops, hv']; decide) n
  refine .recovering hv hv' (closes_choice (by decide) (fun _ => h.function.toSwaps) ?_).toSwaps
  exact closes_choice (by decide) (fun _ => h.varDeclaration.toSwaps) h.statement

end Grammar

end Lox
