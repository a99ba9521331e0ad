import Lox.Proofs.Grammar.Run

/-!
# How far parsers look

A parser that succeeds without an error at the end of the input gives the same where other tokens
follow in place of the end, if it did not have to look at it: an operand is over only where no operator
follows, but a declaration ends with a token of its own, except that behind an `if` an `else` goes with
it. `LocalOn` says so of one run, with a lemma for each way of building parsers. So declarations that
are parsed without an error are parsed in front of other tokens, unless these begin with `else`, and
then the parse goes on with those (`parseFrom_append`).
-/

namespace Lox

namespace Parser

variable {α β : Type}

/-- Where a run of `p` in front of the end of the input succeeds without an error, it has taken some of
the tokens, at least `least` of them, and a run of `q` in front of the tail gives the same and leaves
the same in front of it. A run that may look ahead is free not to do so if it took all tokens. -/
def LocalOn (eof : Token) (tail : List Token) (ahead : Bool) (least : Nat) (p q : Parser α)
    (us : List Token) : Prop :=
  ∀ a rest, p (us ++ [eof]) = ⟨.ok a, rest, []⟩ →
    ∃ taken vs, us = taken ++ vs ∧ least ≤ taken.length ∧ rest = vs ++ [eof] ∧
      (ahead = true ∧ vs = [] ∨ q (us ++ tail) = ⟨.ok a, vs ++ tail, []⟩)

/-- A parser that may look at the token behind what it takes. -/
def Open (eof : Token) (tail : List Token) (p : Parser α) : Prop :=
  ∀ us, LocalOn eof tail true 0 p p us

/-- A parser that does not look at the token behind what it takes. -/
def Local (eof : Token) (tail : List Token) (p : Parser α) : Prop :=
  ∀ us, LocalOn eof tail false 0 p p us

/-- A parser that takes a token at least and does not look at the one behind what it takes. -/
def Closed (eof : Token) (tail : List Token) (p : Parser α) : Prop :=
  ∀ us, LocalOn eof tail false 1 p p us

variable {eof : Token} {tail us : List Token} {ahead ahead' : Bool} {least least' k : Nat}

section Runs

variable {p q : Parser α} {f g : α → Parser β}

theorem LocalOn.mono (h : LocalOn eof tail ahead least p q us) (hahead : ahead = true → ahead' = true)
    (hleast : least' ≤ least) : LocalOn eof tail ahead' least' p q us := by
  intro a rest hrun
  obtain ⟨taken, vs, hus, htaken, hrest, hq⟩ := h a rest hrun
  exact ⟨taken, vs, hus, Nat.le_trans hleast htaken, hrest, hq.imp_left fun hq => ⟨hahead hq.1, hq.2⟩⟩

/-- If the first parser looks ahead, the second one must look ahead too or take a token. -/
theorem LocalOn.bind (hp : LocalOn eof tail ahead least p q us)
    (hf : ∀ a vs, vs.length + least ≤ us.length → LocalOn eof tail ahead' least' (f a) (g a) vs)
    (hahead : ahead = true → ahead' = true ∨ 1 ≤ least') (hk : k ≤ least + least') :
    LocalOn eof tail ahead' k (p >>= f) (q >>= g) us := by
  intro b rest hrun
  obtain ⟨a, mid, es, es', hpa, hfb, hes⟩ := bind_ok hrun
  obtain ⟨rfl, rfl⟩ := List.append_eq_nil_iff.1 hes.symm
  obtain ⟨taken, vs, rfl, htaken, rfl, hqa⟩ := hp a mid hpa
  obtain ⟨taken', ws, rfl, htaken', rfl, hgb⟩ :=
    hf a vs (by rw [List.length_append]; omega) b rest hfb
  refine ⟨taken ++ taken', ws, by rw [List.append_assoc], by rw [List.length_append]; omega, rfl, ?_⟩
  rcases hqa with ⟨htrue, hvs⟩ | hqa
  · obtain ⟨rfl, rfl⟩ := List.append_eq_nil_iff.1 hvs
    rcases hahead htrue with htrue' | hone
    · exact .inl ⟨htrue', rfl⟩
    · exact absurd (Nat.le_trans hone htaken') (Nat.not_succ_le_zero 0)
  · refine hgb.imp_right fun hgb => ?_
    rw [bind_apply, andThen, hqa]
    simp only [hgb, List.append_nil]

theorem LocalOn.bindOpen (hp : LocalOn eof tail ahead least p q us)
    (hf : ∀ a vs, vs.length + least ≤ us.length → LocalOn eof tail true 0 (f a) (g a) vs) :
    LocalOn eof tail true 0 (p >>= f) (q >>= g) us :=
  hp.bind hf (fun _ => .inl rfl) (Nat.zero_le _)

theorem localOn_pure (a : α) : LocalOn eof tail ahead 0 (pure a) (pure a) us := by
  intro b rest hrun
  cases hrun
  exact ⟨[], us, rfl, Nat.le_refl _, rfl, .inr rfl⟩

theorem localOn_fail (problem : ParseProblem) :
    LocalOn eof tail ahead least (fail problem) q us := fun _ _ hrun => nomatch hrun

/-- A run that reports an error is not asked for anything. -/
theorem localOn_report (problem : ParseProblem) (t : Token) (f : Unit → Parser α) :
    LocalOn eof tail ahead least (report problem t >>= f) q us := by
  intro a rest hrun
  obtain ⟨_, _, es, es', hreport, _, hes⟩ := bind_ok hrun
  cases hreport
  cases hes

theorem localOn_skip {f g : Unit → Parser α} (t : Token)
    (h : LocalOn eof tail ahead least (f ()) (g ()) us) :
    LocalOn eof tail ahead (least + 1) (skip >>= f) (skip >>= g) (t :: us) := by
  intro a rest hrun
  obtain ⟨taken, vs, rfl, htaken, rfl, hg⟩ := h a rest hrun
  exact ⟨t :: taken, vs, rfl, Nat.succ_le_succ htaken, rfl, hg⟩

/-- Going on differently behind a token of the given kinds. Where all tokens are taken, the tail may
begin with one of these kinds only if the parser may look ahead. -/
theorem localOn_choice (heof : eof.kind = .endOfInput) {kinds : List TokenKind}
    (hend : .endOfInput ∉ kinds) {f g : Option Token → Parser α}
    (hsome : ∀ t vs, vs.length < us.length →
      LocalOn eof tail ahead (least - 1) (f (some t)) (g (some t)) vs)
    (hnone : LocalOn eof tail ahead least (f none) (g none) us)
    (hside : ahead = true ∨ headKind tail ∉ kinds ∨ 1 ≤ least) :
    LocalOn eof tail ahead least (acceptOne kinds >>= f) (acceptOne kinds >>= g) us := by
  intro a rest hrun
  rw [bind_apply, andThen] at hrun ⊢
  cases us with
  | nil =>
    rw [acceptOne_of_notMem (by simpa [heof] using hend)] at hrun
    obtain ⟨taken, vs, hus, htaken, rfl, hg⟩ := hnone a rest hrun
    obtain ⟨rfl, rfl⟩ := List.append_eq_nil_iff.1 hus.symm
    refine ⟨[], [], rfl, htaken, rfl, ?_⟩
    rcases hside with htrue | htail | hone
    · exact .inl ⟨htrue, rfl⟩
    · rw [List.nil_append, acceptOne_of_notMem htail]
      exact hg
    · exact absurd (Nat.le_trans hone htaken) (Nat.not_succ_le_zero 0)
  | cons t us =>
    rw [List.cons_append] at hrun ⊢
    by_cases ht : t.kind ∈ kinds
    · rw [acceptOne_of_mem ht] at hrun ⊢
      obtain ⟨taken, vs, rfl, htaken, rfl, hg⟩ := hsome t us (Nat.lt_succ_self _) a rest hrun
      exact ⟨t :: taken, vs, rfl, by rw [List.length_cons]; omega, rfl, hg⟩
    · rw [acceptOne_of_notMem (by simpa using ht)] at hrun ⊢
      exact hnone a rest hrun

end Runs

/-! ### Parsers that end with a token of their own -/

variable {p : Parser α} {f : α → Parser β}

theorem Local.toOpen (h : Local eof tail p) : Open eof tail p :=
  fun us => (h us).mono nofun (Nat.le_refl _)

theorem Closed.toLocal (h : Closed eof tail p) : Local eof tail p :=
  fun us => (h us).mono id (Nat.zero_le _)

theorem Closed.toOpen (h : Closed eof tail p) : Open eof tail p := h.toLocal.toOpen

theorem local_pure (a : α) : Local eof tail (pure a) := fun _ => localOn_pure a

theorem open_pure (a : α) : Open eof tail (pure a) := (local_pure a).toOpen

theorem Open.bind (hp : Open eof tail p) (hf : ∀ a, Open eof tail (f a)) : Open eof tail (p >>= f) :=
  fun us => (hp us).bindOpen fun a vs _ => hf a vs

theorem Open.bindClosed (hp : Open eof tail p) (hf : ∀ a, Closed eof tail (f a)) :
    Closed eof tail (p >>= f) :=
  fun us => (hp us).bind (fun a vs _ => hf a vs) (fun _ => .inr (Nat.le_refl _)) (Nat.le_add_left _ _)

theorem Local.bind (hp : Local eof tail p) (hf : ∀ a, Local eof tail (f a)) :
    Local eof tail (p >>= f) :=
  fun us => (hp us).bind (fun a vs _ => hf a vs) nofun (Nat.zero_le _)

theorem Closed.bind (hp : Closed eof tail p) (hf : ∀ a, Local eof tail (f a)) :
    Closed eof tail (p >>= f) :=
  fun us => (hp us).bind (fun a vs _ => hf a vs) nofun (Nat.le_add_right _ _)

theorem Closed.map (h : Closed eof tail p) (f : α → β) : Closed eof tail (f <$> p) :=
  h.bind fun _ => local_pure _

/-- What a parser that takes a token does at the end of the input is not asked for. -/
theorem Closed.localOn_nil (h : Closed eof tail p) (q : Parser α) :
    LocalOn eof tail ahead least p q [] := by
  intro a rest hrun
  obtain ⟨taken, vs, hus, htaken, _, _⟩ := h [] a rest hrun
  obtain ⟨rfl, rfl⟩ := List.append_eq_nil_iff.1 hus.symm
  cases htaken

/-- A look at the next token, of which there is one. -/
theorem closed_peek {f : Token → Parser α} (hnil : ∀ q, LocalOn eof tail false 1 (f eof) q [])
    (hcons : ∀ t us, LocalOn eof tail false 1 (f t) (f t) (t :: us)) :
    Closed eof tail (peek >>= f) := by
  intro us
  cases us with
  | nil => exact hnil _
  | cons t us => exact hcons t us

theorem Closed.peek {f : Token → Parser α} (h : ∀ t, Closed eof tail (f t)) :
    Closed eof tail (peek >>= f) :=
  closed_peek (h eof).localOn_nil fun t _ => h t _

theorem open_check (kind : TokenKind) : Open eof tail (check kind) := by
  intro us a rest hrun
  cases us with
  | nil => exact ⟨[], [], rfl, Nat.le_refl _, by cases hrun; rfl, .inl ⟨rfl, rfl⟩⟩
  | cons t us => exact ⟨[], t :: us, rfl, Nat.le_refl _, by cases hrun; rfl, .inr (by cases hrun; rfl)⟩

theorem Open.unlessNext (h : Open eof tail p) (stop : TokenKind) :
    Open eof tail (unlessNext stop p) := by
  refine (open_check stop).bind fun b => ?_
  cases b with
  | true => exact open_pure _
  | false => exact h.bind fun _ => open_pure _

section Choices

variable (heof : eof.kind = .endOfInput)
include heof

theorem open_choice {kinds : List TokenKind} (hend : .endOfInput ∉ kinds)
    {f : Option Token → Parser α} (hsome : ∀ t, Open eof tail (f (some t)))
    (hnone : Open eof tail (f none)) : Open eof tail (acceptOne kinds >>= f) :=
  fun us => localOn_choice heof hend (fun t vs _ => hsome t vs) (hnone us) (.inl rfl)

theorem closed_choice {kinds : List TokenKind} (hend : .endOfInput ∉ kinds)
    {f : Option Token → Parser α} (hsome : ∀ t, Local eof tail (f (some t)))
    (hnone : Closed eof tail (f none)) : Closed eof tail (acceptOne kinds >>= f) :=
  fun us => localOn_choice heof hend (fun t vs _ => hsome t vs) (hnone us) (.inr (.inr (Nat.le_refl _)))

theorem local_choice {kinds : List TokenKind} (hend : .endOfInput ∉ kinds)
    (htail : headKind tail ∉ kinds) {f : Option Token → Parser α}
    (hsome : ∀ t, Local eof tail (f (some t))) (hnone : Local eof tail (f none)) :
    Local eof tail (acceptOne kinds >>= f) :=
  fun us => localOn_choice heof hend (fun t vs _ => hsome t vs) (hnone us) (.inr (.inl htail))

theorem closed_expect (what : Expectation) : Closed eof tail (expect what) :=
  closed_choice heof (by cases what <;> decide) (fun t => local_pure t) fun _ => localOn_fail _

theorem Open.behind (h : Open eof tail p) {kind : TokenKind} (hend : kind ≠ .endOfInput) :
    Open eof tail (behind kind p) :=
  open_choice heof (by simpa using hend.symm) (fun _ => h.bind fun _ => open_pure _) (open_pure _)

/-! ### Lists -/

/-- Rounds are only counted, so it does not matter how many there are. -/
theorem localOn_commaSeparatedFrom (excess : ParseProblem) (h : Open eof tail p) (rounds : Nat) :
    ∀ rounds' count us, us.length < rounds → us.length < rounds' →
      LocalOn eof tail true 0 (commaSeparatedFrom excess p rounds count)
        (commaSeparatedFrom excess p rounds' count) us := by
  induction rounds with
  | zero => exact fun _ _ us hlen => absurd hlen (Nat.not_lt_zero _)
  | succ rounds ih =>
    intro rounds' count us hlen hlen'
    obtain ⟨rounds', rfl⟩ : ∃ n, rounds' = n + 1 := ⟨rounds' - 1, by omega⟩
    unfold commaSeparatedFrom checkCount
    split
    · intro a rest hrun
      obtain ⟨_, _, es, es', hreport, _, hes⟩ := bind_ok hrun
      cases hreport
      cases hes
    · show LocalOn eof tail true 0 (p >>= _) (p >>= _) us
      refine (h us).bindOpen fun first vs hvs => ?_
      refine localOn_choice heof (by decide) (fun _ ws hws => ?_) (localOn_pure _) (.inl rfl)
      exact (ih rounds' (count + 1) ws (by omega) (by omega)).bindOpen fun _ _ _ => localOn_pure _

theorem Open.commaSeparated (h : Open eof tail p) (excess : ParseProblem) :
    Open eof tail (commaSeparated excess p) := fun us =>
  localOn_commaSeparatedFrom heof excess h ((us ++ [eof]).length + 1) ((us ++ tail).length + 1) 0 us
    (by rw [List.length_append]; omega) (by rw [List.length_append]; omega)

theorem localOn_manyUntilFrom (stop : TokenKind) {item : Parser (Option α)}
    (h : Closed eof tail item) (rounds : Nat) :
    ∀ rounds' us, us.length ≤ rounds → us.length ≤ rounds' →
      LocalOn eof tail true 0 (manyUntilFrom stop item rounds) (manyUntilFrom stop item rounds') us := by
  induction rounds with
  | zero =>
    intro rounds' us hlen _
    obtain rfl := List.eq_nil_of_length_eq_zero (Nat.le_zero.1 hlen)
    intro a rest hrun
    cases hrun
    exact ⟨[], [], rfl, Nat.le_refl _, rfl, .inl ⟨rfl, rfl⟩⟩
  | succ rounds ih =>
    intro rounds' us hlen hlen'
    cases us with
    | nil =>
      intro a rest hrun
      have hdone : (manyUntilFrom stop item (rounds + 1)) [eof] = ⟨.ok [], [eof], []⟩ := by
        simp [manyUntilFrom, bind_apply, andThen, Parser.peek, Token.isEnd, heof, pure_apply]
      rw [List.nil_append, hdone] at hrun
      cases hrun
      exact ⟨[], [], rfl, Nat.le_refl _, rfl, .inl ⟨rfl, rfl⟩⟩
    | cons t us =>
      obtain ⟨rounds', rfl⟩ : ∃ n, rounds' = n + 1 := ⟨rounds' - 1, by simp at hlen'; omega⟩
      have items : LocalOn eof tail true 0
          (if t.kind == stop || t.isEnd then pure [] else do
            let first ← item
            let others ← manyUntilFrom stop item rounds
            return first.toList ++ others)
          (if t.kind == stop || t.isEnd then pure [] else do
            let first ← item
            let others ← manyUntilFrom stop item rounds'
            return first.toList ++ others) (t :: us) := by
        split
        · exact localOn_pure _
        · refine (h (t :: us)).bindOpen fun first vs hvs => ?_
          rw [List.length_cons] at hlen hlen' hvs
          exact (ih rounds' vs (by omega) (by omega)).bindOpen fun _ _ _ => localOn_pure _
      exact items

theorem Closed.manyUntil {item : Parser (Option α)} (h : Closed eof tail item) (stop : TokenKind) :
    Open eof tail (manyUntil stop item) := fun us =>
  localOn_manyUntilFrom heof stop h (us ++ [eof]).length (us ++ tail).length us (by simp) (by simp)

end Choices

theorem Closed.recovering (h : Closed eof tail p) : Closed eof tail p.recovering := by
  intro us o rest hrun
  unfold Parser.recovering at hrun ⊢
  split at hrun
  · next a rest' errors hp =>
    cases hrun
    obtain ⟨taken, vs, hus, htaken, hrest, hq⟩ := h us a rest hp
    refine ⟨taken, vs, hus, htaken, hrest, .inr ?_⟩
    rw [hq.resolve_left fun hq => nomatch hq.1]
  · split at hrun
    · cases hrun
    · simp at hrun

end Parser

/-! ## The grammar -/

namespace Grammar

open Lox.Parser

/-- Expressions may look at the token behind them, statements do not. -/
structure Local (eof : Token) (tail : List Token) (G : Grammar) : Prop where
  assignment : Open eof tail G.assignment
  operand : ∀ tiers, Open eof tail (G.operand tiers)
  chain : ∀ tier tighter left, Open eof tail (G.chain tier tighter left)
  unary : Open eof tail G.unary
  calls : ∀ callee, Open eof tail (G.calls callee)
  arguments : Open eof tail G.arguments
  statement : Closed eof tail G.statement
  function : Closed eof tail G.function

variable {eof : Token} {tail : List Token}

theorem local_tooDeep : tooDeep.Local eof tail :=
  ⟨fun _ => localOn_fail _, fun _ _ => localOn_fail _, fun _ _ _ _ => localOn_fail _,
    fun _ => localOn_fail _, fun _ _ => localOn_fail _, fun _ => localOn_fail _,
    fun _ => localOn_fail _, fun _ => localOn_fail _⟩

namespace Local

variable {G : Grammar} (heof : eof.kind = .endOfInput)
include heof

/-! ### Expressions -/

theorem primary (h : G.Local eof tail) : Closed eof tail (Parser.primary G) := by
  refine closed_peek (fun q => ?_) fun t us => ?_
  · rw [heof]
    exact localOn_fail _
  · split
    case h_7 =>
      refine localOn_skip t ?_
      exact (h.assignment.bindClosed fun _ => (closed_expect heof _).bind fun _ => local_pure _).toLocal us
    case h_8 => exact localOn_fail _
    all_goals exact localOn_skip t (localOn_pure _)

theorem calls_above (h : G.Local eof tail) (callee : Expr) :
    Open eof tail (Parser.calls G callee) := by
  refine open_choice heof (by decide) (fun _ => ?_) (open_pure _)
  exact h.arguments.bind fun _ => (closed_expect heof _).toOpen.bind fun _ => h.calls _

theorem unary_above (h : G.Local eof tail) : Open eof tail (Parser.unary G) :=
  open_choice heof (by decide) (fun _ => h.unary.bind fun _ => open_pure _)
    ((h.primary heof).toOpen.bind fun _ => h.calls_above heof _)

theorem chain_above (h : G.Local eof tail) (tier : Tier) (tighter : List Tier) (left : Expr) :
    Open eof tail (Parser.chain G tier tighter left) :=
  open_choice heof (by cases tier <;> decide)
    (fun _ => (h.operand tighter).bind fun _ => h.chain tier tighter _) (open_pure _)

theorem operand_above (h : G.Local eof tail) : ∀ tiers, Open eof tail (Parser.operand G tiers)
  | [] => h.unary_above heof
  | tier :: tighter => (h.operand_above tighter).bind fun _ => h.chain_above heof tier tighter _

theorem assignment_above (h : G.Local eof tail) : Open eof tail (Parser.assignment G) := by
  refine (h.operand_above heof Tier.all).bind fun target => ?_
  refine open_choice heof (by decide) (fun t => h.assignment.bind fun value => ?_) (open_pure _)
  cases target with
  | reference name _ => exact open_pure _
  | _ => exact fun _ => localOn_report _ t _

/-! ### Statements -/

theorem varDeclaration (h : G.Local eof tail) : Closed eof tail (Parser.varDeclaration G) :=
  (closed_expect heof _).bind fun _ => Closed.toLocal <|
    (h.assignment.behind heof (by decide)).bindClosed fun _ => (closed_expect heof _).bind fun _ =>
      local_pure _

theorem expressionStatement (h : G.Local eof tail) :
    Closed eof tail (Parser.expressionStatement G) :=
  .peek fun _ => h.assignment.bindClosed fun _ => (closed_expect heof _).bind fun _ => local_pure _

theorem declaration (h : G.Local eof tail) : Closed eof tail (Parser.declaration G) :=
  .recovering <| closed_choice heof (by decide) (fun _ => h.function.toLocal)
    (closed_choice heof (by decide) (fun _ => (h.varDeclaration heof).toLocal) h.statement)

theorem block (h : G.Local eof tail) : Closed eof tail (Parser.block G) :=
  ((h.declaration heof).manyUntil heof _).bindClosed fun _ => (closed_expect heof _).bind fun _ =>
    local_pure _

theorem parameters : Open eof tail Parser.parameters := by
  refine (open_check _).bind fun b => ?_
  cases b with
  | true => exact open_pure _
  | false => exact ((closed_expect heof _).map _).toOpen.commaSeparated heof _

theorem arguments_above (h : G.Local eof tail) : Open eof tail (Parser.arguments G) := by
  refine (open_check _).bind fun b => ?_
  cases b with
  | true => exact open_pure _
  | false => exact h.assignment.commaSeparated heof _

theorem function_above (h : G.Local eof tail) : Closed eof tail (Parser.function G) :=
  (closed_expect heof _).bind fun _ => Closed.toLocal <| (closed_expect heof _).bind fun _ =>
    Closed.toLocal <| (parameters heof).bindClosed fun _ => (closed_expect heof _).bind fun _ =>
    Closed.toLocal <| (closed_expect heof _).bind fun _ => ((h.block heof).bind fun _ =>
    local_pure _).toLocal

theorem printStatement (h : G.Local eof tail) (loc : Location) :
    Closed eof tail (Parser.printStatement G loc) :=
  h.assignment.bindClosed fun _ => (closed_expect heof _).bind fun _ => local_pure _

/-- An `else` in the tail would go with the conditional. -/
theorem ifStatement (htail : headKind tail ≠ .kwElse) (h : G.Local eof tail) (loc : Location) :
    Closed eof tail (Parser.ifStatement G loc) := by
  refine (closed_expect heof _).bind fun _ => Closed.toLocal <| h.assignment.bindClosed fun _ =>
    (closed_expect heof _).bind fun _ => Local.bind h.statement.toLocal fun _ => ?_
  exact local_choice heof (by decide) (by simpa using htail)
    (fun _ => h.statement.toLocal.bind fun _ => local_pure _) (local_pure _)

theorem whileStatement (h : G.Local eof tail) (loc : Location) :
    Closed eof tail (Parser.whileStatement G loc) :=
  (closed_expect heof _).bind fun _ => Closed.toLocal <| h.assignment.bindClosed fun _ =>
    (closed_expect heof _).bind fun _ => h.statement.toLocal.bind fun _ => local_pure _

theorem forInitializer (h : G.Local eof tail) : Closed eof tail (Parser.forInitializer G) :=
  closed_choice heof (by decide) (fun _ => local_pure _)
    (closed_choice heof (by decide) (fun _ => ((h.varDeclaration heof).map some).toLocal)
      ((h.expressionStatement heof).map some))

theorem forStatement (h : G.Local eof tail) (loc : Location) :
    Closed eof tail (Parser.forStatement G loc) := by
  have condition : Closed eof tail (Parser.forCondition G) :=
    (h.assignment.unlessNext _).bindClosed fun _ => (closed_expect heof _).bind fun _ => local_pure _
  have step : Closed eof tail (Parser.forStep G) :=
    .peek fun _ => (h.assignment.unlessNext _).bindClosed fun _ => (closed_expect heof _).bind fun _ =>
      local_pure _
  exact (closed_expect heof _).bind fun _ => (h.forInitializer heof).toLocal.bind fun _ =>
    condition.toLocal.bind fun _ => step.toLocal.bind fun _ => h.statement.toLocal.bind fun _ => local_pure _

theorem returnStatement (h : G.Local eof tail) (loc : Location) :
    Closed eof tail (Parser.returnStatement G loc) :=
  (h.assignment.unlessNext _).bindClosed fun _ => (closed_expect heof _).bind fun _ => local_pure _

theorem statement_above (htail : headKind tail ≠ .kwElse) (h : G.Local eof tail) :
    Closed eof tail (Parser.statement G) := by
  refine closed_peek (fun q => ?_) fun t us => ?_
  · rw [heof]
    exact (h.expressionStatement heof).localOn_nil q
  · split
    · exact localOn_skip t ((h.printStatement heof _).toLocal us)
    · exact localOn_skip t ((h.ifStatement heof htail _).toLocal us)
    · exact localOn_skip t ((h.whileStatement heof _).toLocal us)
    · exact localOn_skip t ((h.forStatement heof _).toLocal us)
    · exact localOn_skip t ((h.returnStatement heof _).toLocal us)
    · exact localOn_skip t (((h.block heof).bind fun _ => local_pure _).toLocal us)
    · exact h.expressionStatement heof (t :: us)

theorem above (htail : headKind tail ≠ .kwElse) (h : G.Local eof tail) : G.above.Local eof tail where
  assignment := h.assignment_above heof
  operand := h.operand_above heof
  chain := h.chain_above heof
  unary := h.unary_above heof
  calls := h.calls_above heof
  arguments := h.arguments_above heof
  statement := h.statement_above heof htail
  function := h.function_above heof

end Local

theorem local_ofLevels (heof : eof.kind = .endOfInput) (htail : headKind tail ≠ .kwElse) (n : Nat) :
    (ofLevels n).Local eof tail := by
  induction n with
  | zero => exact local_tooDeep
  | succ n ih => exact ih.above heof htail

end Grammar

/-! ## Programs -/

/-- Declarations parsed without an error up to the end of the input are parsed in front of other tokens
too, and then the parse goes on with those. One round goes to a declaration, which takes a token. -/
theorem parseFrom_append {eof : Token} {tail : List Token} {G : Grammar}
    (heof : eof.kind = .endOfInput) (h : G.Local eof tail) {us : List Token} {p : Program}
    (hus : NoEnd us) {rounds : Nat} (hrounds : us.length ≤ rounds)
    (hrun : parseFrom G rounds (us ++ [eof]) = ⟨p, []⟩) (rounds' : Nat) (hrounds' : us.length ≤ rounds') :
    ∃ left, rounds' ≤ left + us.length ∧
      parseFrom G rounds' (us ++ tail) =
        ⟨p ++ (parseFrom G left tail).program, (parseFrom G left tail).errors⟩ := by
  induction rounds generalizing us p rounds' with
  | zero =>
    obtain rfl := List.eq_nil_of_length_eq_zero (Nat.le_zero.1 hrounds)
    cases hrun
    exact ⟨rounds', Nat.le_refl _, rfl⟩
  | succ rounds ih =>
    cases us with
    | nil =>
      have hend : eof.isEnd = true := by rw [Token.isEnd, heof]; rfl
      rw [List.nil_append, parseFrom, List.headD_cons, if_pos hend] at hrun
      cases hrun
      exact ⟨rounds', Nat.le_refl _, rfl⟩
    | cons t us =>
      obtain ⟨rounds', rfl⟩ : ∃ n, rounds' = n + 1 := ⟨rounds' - 1, by simp at hrounds'; omega⟩
      have ht : ¬ t.isEnd = true := by simp [hus t List.mem_cons_self]
      rw [List.cons_append, parseFrom, List.headD_cons, if_neg ht] at hrun
      split at hrun
      · next first rest errors hfirst =>
        obtain ⟨rfl, hothers⟩ := List.append_eq_nil_iff.1 (congrArg ParseResult.errors hrun)
        obtain ⟨taken, vs, htaken, hone, rfl, hmoved⟩ :=
          h.declaration heof (t :: us) first rest hfirst
        have hlen := congrArg List.length htaken
        rw [List.length_append, List.length_cons] at hlen
        rw [List.length_cons] at hrounds hrounds'
        have hrest : parseFrom G rounds (vs ++ [eof]) =
            ⟨(parseFrom G rounds (vs ++ [eof])).program, []⟩ := by rw [← hothers]
        obtain ⟨left, hleft, hparse⟩ :=
          ih (fun u hu => hus u (htaken ▸ List.mem_append_right _ hu)) (by omega) hrest rounds'
            (by omega)
        refine ⟨left, by rw [List.length_cons]; omega, ?_⟩
        obtain rfl : first.toList ++ (parseFrom G rounds (vs ++ [eof])).program = p :=
          congrArg ParseResult.program hrun
        rw [List.cons_append, parseFrom, List.headD_cons, if_neg ht,
          ← List.cons_append, hmoved.resolve_left fun hm => absurd hm.1 (by decide)]
        simp only [hparse, List.nil_append, List.append_assoc]
      · simp at hrun

end Lox
