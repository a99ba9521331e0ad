import Lox.Parse.Statement

/-!
# The number of levels is a cut-off

A parser with fewer levels gives what one with more levels gives, or fails because the nesting is too
deep (`Grammar.ofLevels_below`): such a failure passes through every way of building parsers, and
recovery does not stop it.
-/

namespace Lox

namespace Parser

variable {α β : Type}

/-- The first parser does as the second, except where it fails for good. -/
def Below (p q : Parser α) : Prop :=
  ∀ ts, p ts = q ts ∨ ∃ e rest errors, p ts = ⟨.error e, rest, errors⟩ ∧ e.isFinal = true

theorem Below.refl (p : Parser α) : Below p p := fun _ => .inl rfl

theorem Below.trans {p q r : Parser α} (h : Below p q) (h' : Below q r) : Below p r := by
  intro ts
  rcases h ts with he | he
  · rw [he]
    exact h' ts
  · exact .inr he

theorem below_tooDeep (p : Parser α) : Below (fail .nestingTooDeep) p :=
  fun ts => .inr ⟨_, ts, [], rfl, rfl⟩

theorem Below.bind {p q : Parser α} {f g : α → Parser β} (h : Below p q)
    (hf : ∀ a, Below (f a) (g a)) : Below (p >>= f) (q >>= g) := by
  intro ts
  rw [bind_apply, bind_apply, andThen, andThen]
  rcases h ts with he | ⟨e, rest, errors, he, hfinal⟩
  · rw [he]
    split
    · next a rest errors _ =>
      rcases hf a rest with he' | ⟨e, rest', errors', he', hfinal⟩
      · exact .inl (by rw [he'])
      · exact .inr ⟨e, rest', errors ++ errors', by rw [he'], hfinal⟩
    · exact .inl rfl
  · rw [he]
    exact .inr ⟨e, rest, errors, rfl, hfinal⟩

theorem Below.map {p q : Parser α} (h : Below p q) (f : α → β) : Below (f <$> p) (f <$> q) :=
  h.bind fun _ => .refl _

theorem Below.ite {c : Prop} [Decidable c] {p q p' q' : Parser α} (h : Below p q)
    (h' : Below p' q') : Below (if c then p else p') (if c then q else q') := by
  split
  · exact h
  · exact h'

theorem Below.recovering {p q : Parser α} (h : Below p q) : Below p.recovering q.recovering := by
  intro ts
  rw [Parser.recovering, Parser.recovering]
  rcases h ts with he | ⟨e, rest, errors, he, hfinal⟩
  · rw [he]
    exact .inl rfl
  · rw [he]
    simp only [hfinal, if_true]
    exact .inr ⟨e, rest, errors, rfl, hfinal⟩

theorem Below.unlessNext {p q : Parser α} (h : Below p q) (stop : TokenKind) :
    Below (unlessNext stop p) (unlessNext stop q) :=
  (Below.refl _).bind fun _ => .ite (.refl _) (h.bind fun _ => .refl _)

theorem Below.behind {p q : Parser α} (h : Below p q) (kind : TokenKind) :
    Below (behind kind p) (behind kind q) := by
  refine (Below.refl _).bind fun o => ?_
  cases o with
  | none => exact .refl _
  | some t => exact h.bind fun _ => .refl _

theorem Below.commaSeparatedFrom {p q : Parser α} (h : Below p q) (excess : ParseProblem)
    (rounds : Nat) : ∀ count,
    Below (commaSeparatedFrom excess p rounds count) (commaSeparatedFrom excess q rounds count) := by
  induction rounds with
  | zero => exact fun _ => .refl _
  | succ rounds ih =>
    intro count
    refine (Below.refl _).bind fun _ => h.bind fun first => (Below.refl _).bind fun o => ?_
    cases o with
    | none => exact .refl _
    | some t => exact (ih (count + 1)).bind fun _ => .refl _

theorem Below.commaSeparated {p q : Parser α} (h : Below p q) (excess : ParseProblem) :
    Below (commaSeparated excess p) (commaSeparated excess q) :=
  (Below.refl _).bind fun _ => h.commaSeparatedFrom excess _ 0

theorem Below.manyUntil {p q : Parser (Option α)} (h : Below p q) (stop : TokenKind) :
    Below (manyUntil stop p) (manyUntil stop q) := by
  have rounds (n : Nat) : Below (manyUntilFrom stop p n) (manyUntilFrom stop q n) := by
    induction n with
    | zero => exact .refl _
    | succ n ih =>
      exact (Below.refl _).bind fun t => .ite (.refl _)
        (h.bind fun _ => ih.bind fun _ => .refl _)
  exact (Below.refl _).bind rounds

end Parser

namespace Grammar

open Parser

/-- Every parser of one grammar is below that of another. -/
structure Below (G H : Grammar) : Prop where
  assignment : G.assignment.Below H.assignment
  operand : ∀ tiers, (G.operand tiers).Below (H.operand tiers)
  chain : ∀ tier tighter left, (G.chain tier tighter left).Below (H.chain tier tighter left)
  unary : G.unary.Below H.unary
  calls : ∀ callee, (G.calls callee).Below (H.calls callee)
  arguments : G.arguments.Below H.arguments
  statement : G.statement.Below H.statement
  function : G.function.Below H.function

theorem tooDeep_below (G : Grammar) : tooDeep.Below G :=
  ⟨below_tooDeep _, fun _ => below_tooDeep _, fun _ _ _ => below_tooDeep _, below_tooDeep _,
    fun _ => below_tooDeep _, below_tooDeep _, below_tooDeep _, below_tooDeep _⟩

theorem Below.trans {G H K : Grammar} (h : G.Below H) (h' : H.Below K) : G.Below K :=
  ⟨h.assignment.trans h'.assignment, fun t => (h.operand t).trans (h'.operand t),
    fun t ts l => (h.chain t ts l).trans (h'.chain t ts l), h.unary.trans h'.unary,
    fun c => (h.calls c).trans (h'.calls c), h.arguments.trans h'.arguments,
    h.statement.trans h'.statement, h.function.trans h'.function⟩

namespace Below

variable {G H : Grammar}

theorem primary (h : G.Below H) : (Parser.primary G).Below (Parser.primary H) := by
  refine (Parser.Below.refl _).bind fun t => ?_
  split
  case h_7 => exact (Parser.Below.refl _).bind fun _ => h.assignment.bind fun _ => .refl _
  all_goals exact .refl _

theorem calls_above (h : G.Below H) (callee : Expr) :
    (Parser.calls G callee).Below (Parser.calls H callee) := by
  refine (Parser.Below.refl _).bind fun o => ?_
  cases o with
  | none => exact .refl _
  | some l => exact h.arguments.bind fun _ => (Parser.Below.refl _).bind fun _ => h.calls _

theorem unary_above (h : G.Below H) : (Parser.unary G).Below (Parser.unary H) := by
  refine (Parser.Below.refl _).bind fun o => ?_
  cases o with
  | none => exact h.primary.bind fun _ => h.calls_above _
  | some t => exact h.unary.bind fun _ => .refl _

theorem chain_above (h : G.Below H) (tier : Tier) (tighter : List Tier) (left : Expr) :
    (Parser.chain G tier tighter left).Below (Parser.chain H tier tighter left) := by
  refine (Parser.Below.refl _).bind fun o => ?_
  cases o with
  | none => exact .refl _
  | some t => exact (h.operand _).bind fun _ => h.chain _ _ _

theorem operand_above (h : G.Below H) : ∀ tiers, (Parser.operand G tiers).Below (Parser.operand H tiers)
  | [] => h.unary_above
  | tier :: tighter => (h.operand_above tighter).bind fun _ => h.chain_above tier tighter _

theorem assignment_above (h : G.Below H) : (Parser.assignment G).Below (Parser.assignment H) := by
  refine (h.operand_above _).bind fun target => (Parser.Below.refl _).bind fun o => ?_
  cases o with
  | none => exact .refl _
  | some eq => exact h.assignment.bind fun _ => .refl _

theorem expressionStatement (h : G.Below H) :
    (Parser.expressionStatement G).Below (Parser.expressionStatement H) :=
  (Parser.Below.refl _).bind fun _ => h.assignment.bind fun _ => .refl _

theorem varDeclaration (h : G.Below H) :
    (Parser.varDeclaration G).Below (Parser.varDeclaration H) :=
  (Parser.Below.refl _).bind fun _ => (h.assignment.behind _).bind fun _ => .refl _

theorem declaration (h : G.Below H) : (Parser.declaration G).Below (Parser.declaration H) := by
  refine Parser.Below.recovering ((Parser.Below.refl _).bind fun o => ?_)
  cases o with
  | some k => exact h.function
  | none =>
    refine (Parser.Below.refl _).bind fun o => ?_
    cases o with
    | some k => exact h.varDeclaration
    | none => exact h.statement

theorem block (h : G.Below H) : (Parser.block G).Below (Parser.block H) :=
  (h.declaration.manyUntil _).bind fun _ => .refl _

theorem function_above (h : G.Below H) : (Parser.function G).Below (Parser.function H) :=
  (Parser.Below.refl _).bind fun _ => (Parser.Below.refl _).bind fun _ =>
    (Parser.Below.refl _).bind fun _ => (Parser.Below.refl _).bind fun _ =>
    (Parser.Below.refl _).bind fun _ => h.block.bind fun _ => .refl _

theorem ifStatement (h : G.Below H) (loc : Location) :
    (Parser.ifStatement G loc).Below (Parser.ifStatement H loc) := by
  refine (Parser.Below.refl _).bind fun _ => h.assignment.bind fun _ =>
    (Parser.Below.refl _).bind fun _ => h.statement.bind fun _ =>
    (Parser.Below.refl _).bind fun o => ?_
  cases o with
  | none => exact .refl _
  | some m => exact h.statement.bind fun _ => .refl _

theorem forInitializer (h : G.Below H) :
    (Parser.forInitializer G).Below (Parser.forInitializer H) := by
  refine (Parser.Below.refl _).bind fun o => ?_
  cases o with
  | some t => exact .refl _
  | none =>
    refine (Parser.Below.refl _).bind fun o => ?_
    cases o with
    | some k => exact h.varDeclaration.map some
    | none => exact h.expressionStatement.map some

theorem forStatement (h : G.Below H) (loc : Location) :
    (Parser.forStatement G loc).Below (Parser.forStatement H loc) :=
  (Parser.Below.refl _).bind fun _ => h.forInitializer.bind fun _ =>
    ((h.assignment.unlessNext _).bind fun _ => .refl _).bind fun _ =>
    ((Parser.Below.refl _).bind fun _ => (h.assignment.unlessNext _).bind fun _ => .refl _).bind
      fun _ => h.statement.bind fun _ => .refl _

theorem statement_above (h : G.Below H) : (Parser.statement G).Below (Parser.statement H) := by
  refine (Parser.Below.refl _).bind fun t => ?_
  split
  · exact (Parser.Below.refl _).bind fun _ => h.assignment.bind fun _ => .refl _
  · exact (Parser.Below.refl _).bind fun _ => h.ifStatement _
  · exact (Parser.Below.refl _).bind fun _ => (Parser.Below.refl _).bind fun _ =>
      h.assignment.bind fun _ => (Parser.Below.refl _).bind fun _ => h.statement.bind fun _ => .refl _
  · exact (Parser.Below.refl _).bind fun _ => h.forStatement _
  · exact (Parser.Below.refl _).bind fun _ => (h.assignment.unlessNext _).bind fun _ => .refl _
  · exact (Parser.Below.refl _).bind fun _ => h.block.bind fun _ => .refl _
  · exact h.expressionStatement

theorem above (h : G.Below H) : G.above.Below H.above where
  assignment := h.assignment_above
  operand := h.operand_above
  chain := h.chain_above
  unary := h.unary_above
  calls := h.calls_above
  arguments := (Parser.Below.refl _).bind fun _ => .ite (.refl _) (h.assignment.commaSeparated _)
  statement := h.statement_above
  function := h.function_above

end Below

theorem ofLevels_below_succ (n : Nat) : (ofLevels n).Below (ofLevels (n + 1)) := by
  induction n with
  | zero => exact tooDeep_below _
  | succ n ih => exact ih.above

theorem ofLevels_below {n m : Nat} (h : n ≤ m) : (ofLevels n).Below (ofLevels m) := by
  induction h with
  | refl =>
    exact ⟨.refl _, fun _ => .refl _, fun _ _ _ => .refl _, .refl _, fun _ => .refl _, .refl _,
      .refl _, .refl _⟩
  | step _ ih => exact ih.trans (ofLevels_below_succ _)

end Grammar

/-- A parse with fewer levels gives what one with more levels gives, or ends in nesting too deep. -/
theorem parseFrom_below {G H : Grammar} (h : G.Below H) (rounds : Nat) (ts : List Token) :
    parseFrom G rounds ts = parseFrom H rounds ts ∨
      ∃ e ∈ (parseFrom G rounds ts).errors, e.problem = .nestingTooDeep := by
  induction rounds generalizing ts with
  | zero => exact .inl rfl
  | succ rounds ih =>
    rw [parseFrom, parseFrom]
    split
    · exact .inl rfl
    · rcases h.declaration ts with he | ⟨e, rest, errors, he, hfinal⟩
      · rw [he]
        split
        · next first rest errors _ =>
          rcases ih rest with he' | ⟨e, hmem, hdeep⟩
          · exact .inl (by rw [he'])
          · exact .inr ⟨e, List.mem_append_right _ hmem, hdeep⟩
        · exact .inl rfl
      · rw [he]
        exact .inr ⟨e, by simp, by simpa [ParseError.isFinal] using hfinal⟩

end Lox
