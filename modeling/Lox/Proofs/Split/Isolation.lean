import Lox.Proofs.Split.Parsing

/-!
# Errors stay where they are

One declaration at the top of a program has no effect on the parse of the next: not how deep it nested,
nor how far the parser looked behind it, nor what was wrong with it. Tokens that are parsed without an
error can stand in front of any others that do not begin with `else`, and tokens that are none of a
program cost one error where they stand between the two (`parse_isolates`). They have to begin with a
token that no declaration begins with, and to end where the parser takes up again, behind a semicolon.
-/

namespace Lox

open Lox.Parser

/-! ## Tokens that begin nothing -/

namespace Parser

variable {α β : Type} {g : Token} {ts : List Token}

/-- In front of the token the parser expects an expression, and it has not taken anything. -/
def Rejects (p : Parser α) (g : Token) (ts : List Token) : Prop :=
  p (g :: ts) = ⟨.error ⟨.expectedExpression, g⟩, g :: ts, []⟩

theorem Rejects.bind {p : Parser α} (h : Rejects p g ts) (f : α → Parser β) :
    Rejects (p >>= f) g ts := by
  rw [Rejects, bind_apply, andThen, h]

theorem Rejects.after {p : Parser α} {a : α} (h : p (g :: ts) = ⟨.ok a, g :: ts, []⟩)
    {f : α → Parser β} (hf : Rejects (f a) g ts) : Rejects (p >>= f) g ts := by
  rw [Rejects, bind_apply, andThen, h]
  simp only [show f a (g :: ts) = _ from hf, List.append_nil]

theorem Rejects.acceptOne {kinds : List TokenKind} (h : g.kind ∉ kinds)
    {f : Option Token → Parser β} (hf : Rejects (f none) g ts) :
    Rejects (Parser.acceptOne kinds >>= f) g ts :=
  .after (acceptOne_of_notMem (by simpa using h)) hf

section Expressions

variable (hg : g.kind ∉ Expr.starters)

include hg

theorem rejects_primary (inner : Grammar) : Rejects (primary inner) g ts := by
  have hne (k : TokenKind) (hk : k ∈ Expr.starters) : g.kind ≠ k := fun h => hg (h ▸ hk)
  refine .after (a := g) rfl ?_
  split
  case h_8 => rfl
  all_goals exact absurd ‹g.kind = _› (hne _ (by decide))

theorem rejects_operand (inner : Grammar) (tiers : List Tier) :
    Rejects (operand inner tiers) g ts := by
  induction tiers with
  | nil =>
    refine .acceptOne (fun hm => hg ?_) ((rejects_primary hg inner).bind _)
    exact List.mem_append_right _ hm
  | cons tier tighter ih => exact ih.bind _

end Expressions

variable (hg : g.kind ∉ Stmt.starters)

include hg

theorem rejects_statement (inner : Grammar) : Rejects (statement inner.above) g ts := by
  have hne (k : TokenKind) (hk : k ∈ Stmt.starters) : g.kind ≠ k := fun h => hg (h ▸ hk)
  have hexpression : g.kind ∉ Expr.starters := fun h => hg (List.mem_append_right _ h)
  refine .after (a := g) rfl ?_
  split
  case h_7 =>
    exact .after (a := g) rfl (((rejects_operand hexpression inner Tier.all).bind _).bind _)
  all_goals exact absurd ‹g.kind = _› (hne _ (by decide))

/-- **Where no declaration begins.** The parser expects an expression, says so, and takes up again where
a statement may begin. -/
theorem declaration_eq_of_notMem (inner : Grammar) :
    declaration inner.above.above (g :: ts) =
      ⟨.ok none, resume (g :: ts), [⟨.expectedExpression, g⟩]⟩ := by
  have hkind (k : TokenKind) (hk : k ∈ Stmt.starters) : g.kind ∉ [k] := fun h =>
    hg (List.mem_singleton.1 h ▸ hk)
  have recovers {p : Parser Stmt} (hp : Rejects p g ts) :
      recovering p (g :: ts) = ⟨.ok none, resume (g :: ts), [⟨.expectedExpression, g⟩]⟩ := by
    rw [recovering, hp]
    rfl
  exact recovers (.acceptOne (hkind .kwFun (by decide)) (.acceptOne (hkind .kwVar (by decide))
    (rejects_statement hg inner)))

end Parser

/-! ## Garbage -/

/-- Tokens that are none of a program, and behind which the parser takes up again: the first begins no
declaration, the last is the only semicolon, and in between is no keyword that begins a statement. -/
structure Garbage (first : Token) (others : List Token) : Prop where
  noEnd : NoEnd (first :: others)
  begins_nothing : first.kind ∉ Stmt.starters
  first_ne_else : first.kind ≠ .kwElse
  no_keyword : ∀ t ∈ others, t.kind ∉ statementStarts
  ends : ∃ before last, first :: others = before ++ [last] ∧ last.kind = .semicolon ∧
    ∀ t ∈ before, t.kind ≠ .semicolon

/-- The parser passes over the tokens up to the first semicolon if it meets no keyword on the way. -/
theorem resumeAfter_eq {before : List Token} {last : Token} (hlast : last.kind = .semicolon)
    (hbefore : ∀ t ∈ before, t.kind ≠ .semicolon) {first : Token} {others : List Token}
    (heq : first :: others = before ++ [last]) (hend : NoEnd others)
    (hkeyword : ∀ t ∈ others, t.kind ∉ statementStarts) (rest : List Token) :
    resumeAfter first (others ++ rest) = rest := by
  induction before generalizing first others with
  | nil =>
    obtain ⟨rfl, rfl⟩ := List.cons.inj heq
    cases rest with
    | nil => rfl
    | cons t rest =>
      rw [List.nil_append, resumeAfter, if_pos (by simp [hlast])]
  | cons b before ih =>
    obtain ⟨rfl, hothers⟩ := List.cons.inj heq
    obtain ⟨hb, hbefore⟩ := List.forall_mem_cons.1 hbefore
    cases others with
    | nil => simp at hothers
    | cons t others =>
      obtain ⟨ht, hend⟩ := noEnd_cons.1 hend
      obtain ⟨htk, hkeyword⟩ := List.forall_mem_cons.1 hkeyword
      rw [List.cons_append, resumeAfter, if_neg (by simp [ht, hb, htk])]
      exact ih hbefore hothers hend hkeyword

theorem Garbage.resume_eq {first : Token} {others : List Token} (h : Garbage first others)
    (rest : List Token) : resume (first :: (others ++ rest)) = rest := by
  obtain ⟨before, last, heq, hlast, hbefore⟩ := h.ends
  obtain ⟨hfirst, hothers⟩ := noEnd_cons.1 h.noEnd
  rw [resume, if_neg (by simp [hfirst])]
  exact resumeAfter_eq hlast hbefore heq hothers h.no_keyword rest

/-- Garbage costs one error, at its first token. -/
theorem Garbage.parse_append {first : Token} {others : List Token} (h : Garbage first others)
    {tail : List Token} (hne : tail ≠ []) (hended : Ended tail) :
    parse (first :: (others ++ tail)) =
      ⟨(parse tail).program, ⟨.expectedExpression, first⟩ :: (parse tail).errors⟩ := by
  have hfirst : ¬ first.isEnd = true := by simp [(noEnd_cons.1 h.noEnd).1]
  have hclosed : closed (first :: (others ++ tail)) = first :: (others ++ tail) := by
    refine closed_of_ended (List.cons_ne_nil _ _) fun t ht => hended t ?_
    rwa [← List.cons_append, List.getLast?_append_of_ne_nil _ hne] at ht
  have hrest : parseFrom (Grammar.ofLevels maxNesting) (others ++ tail).length tail = parse tail := by
    rw [parse_eq_parseFrom (others ++ tail).length, closed_of_ended hne hended]
    rw [closed_of_ended hne hended, List.length_append]
    omega
  rw [parse_eq_parseFrom ((others ++ tail).length + 1) (by rw [hclosed]; simp), hclosed,
    parseFrom, List.headD_cons, if_neg hfirst]
  simp only [maxNesting] at hrest ⊢
  rw [show Grammar.ofLevels 256 = (Grammar.ofLevels 254).above.above from rfl] at hrest ⊢
  rw [declaration_eq_of_notMem h.begins_nothing, h.resume_eq]
  simp only [hrest]
  rfl

/-! ## Declarations in a row -/

theorem parse_nil : parse [] = ⟨[], []⟩ := rfl

theorem exists_closed_eq {us : List Token} (hus : NoEnd us) :
    ∃ eof : Token, eof.isEnd = true ∧ closed us = us ++ [eof] := by
  refine (closed_eq us).resolve_left fun ⟨_, hne, hended⟩ => ?_
  have hlast := hended (us.getLast hne) (List.getLast?_eq_getLast_of_ne_nil hne)
  rw [hus _ (List.getLast_mem hne)] at hlast
  exact absurd hlast (by decide)

/-- What closes a list of tokens closes the last of them, however it is parted. -/
theorem exists_closed_append (us vs : List Token) (h : NoEnd (us ++ vs)) :
    ∃ tail, closed (us ++ vs) = us ++ tail ∧ tail ≠ [] ∧ Ended tail ∧ headKind tail = headKind vs ∧
      parse tail = parse vs := by
  obtain ⟨eof, heof, hclosed⟩ := exists_closed_eq h
  refine ⟨vs ++ [eof], by rw [hclosed, List.append_assoc], by simp, ended_append_singleton vs heof, ?_⟩
  cases vs with
  | nil =>
    refine ⟨beq_iff_eq.1 heof, ?_⟩
    rw [parse, closed_of_isEnd [] heof, List.nil_append, List.length_singleton, parseFrom,
      List.headD_cons, if_pos heof, parse_nil]
  | cons v vs =>
    refine ⟨rfl, ?_⟩
    have hlast : closed (us ++ v :: vs) = us ++ closed (v :: vs) := by
      rw [closed, closed, List.getLast?_append_of_ne_nil us (List.cons_ne_nil v vs),
        List.getLast?_eq_getLast_of_ne_nil (List.cons_ne_nil v vs)]
      dsimp only
      split <;> simp
    rw [hlast, List.append_assoc, List.append_cancel_left_eq] at hclosed
    rw [← hclosed, parse_closed]

/-- Tokens parsed without an error are parsed in front of others too, and these as on their own. -/
theorem parse_append_of_noEnd {us vs : List Token} (hus : NoEnd us) (hvs : NoEnd vs)
    (hp : (parse us).errors = []) (helse : headKind vs ≠ .kwElse) :
    parse (us ++ vs) = ⟨(parse us).program ++ (parse vs).program, (parse vs).errors⟩ := by
  obtain ⟨eof, heof, hclosed⟩ := exists_closed_eq hus
  obtain ⟨tail, htail, hne, hended, hhead, hparse⟩ :=
    exists_closed_append us vs (noEnd_append.2 ⟨hus, hvs⟩)
  have hus' : parse (us ++ [eof]) = ⟨(parse us).program, []⟩ := by
    rw [← hclosed, parse_closed, ← hp]
  rw [← parse_closed (us ++ vs), htail, ← hparse]
  exact parse_append_ended heof hus hus' hne hended (hhead ▸ helse)

/-- Garbage in front of other tokens costs one error, and these are parsed as on their own. -/
theorem Garbage.parse_eq {first : Token} {others vs : List Token} (h : Garbage first others)
    (hvs : NoEnd vs) : parse (first :: others ++ vs) =
      ⟨(parse vs).program, ⟨.expectedExpression, first⟩ :: (parse vs).errors⟩ := by
  obtain ⟨tail, htail, hne, hended, _, hparse⟩ :=
    exists_closed_append (first :: others) vs (noEnd_append.2 ⟨h.noEnd, hvs⟩)
  rw [← parse_closed, htail, ← hparse]
  exact h.parse_append hne hended

/-- **Errors stay where they are.** Tokens parsed without an error and others that do not begin with
`else` are parsed, in a row, as the statements of the first and those of the others, with the errors of
the others; and garbage between the two costs one error more, in front of these: an expression is
expected at the first token of the garbage. -/
theorem parse_isolates (us vs : List Token) (hus : NoEnd us) (hvs : NoEnd vs)
    (hp : (parse us).errors = []) (helse : headKind vs ≠ .kwElse) :
    parse (us ++ vs) = ⟨(parse us).program ++ (parse vs).program, (parse vs).errors⟩ ∧
    ∀ first others, Garbage first others →
      parse (us ++ (first :: others ++ vs)) =
        ⟨(parse us).program ++ (parse vs).program,
          ⟨.expectedExpression, first⟩ :: (parse vs).errors⟩ := by
  refine ⟨parse_append_of_noEnd hus hvs hp helse, fun first others h => ?_⟩
  rw [parse_append_of_noEnd hus (noEnd_append.2 ⟨h.noEnd, hvs⟩) hp h.first_ne_else, h.parse_eq hvs]

/-- The tokens `);` between those of `if (a) if (b) c;` and those of `= nil;`, where nothing begins. -/
theorem parse_isolates_brokenAssignment :
    let us := danglingElse.take 10
    let vs := danglingElse.drop 12
    let first : Token := ⟨.rightParen, utf8 ")", none, .nowhere⟩
    let others : List Token := [⟨.semicolon, utf8 ";", none, .nowhere⟩]
    NoEnd us ∧ NoEnd vs ∧ (parse us).errors = [] ∧ headKind vs ≠ .kwElse ∧ Garbage first others ∧
      parse (us ++ (first :: others ++ vs)) =
        ⟨(parse us).program ++ (parse vs).program,
          ⟨.expectedExpression, first⟩ :: (parse vs).errors⟩ ∧
      (parse vs).errors.map (·.found.lexeme) = [utf8 "="] := by
  intro us vs first others
  have hus : NoEnd us := by
    unfold NoEnd
    decide
  have hvs : NoEnd vs := by
    unfold NoEnd
    decide
  have hgarbage : Garbage first others := by
    refine ⟨by simp [first, others, Token.isEnd], by decide, by decide, by decide, [first], ?_⟩
    exact ⟨_, rfl, rfl, by decide⟩
  have hp : (parse us).errors = [] := by decide +kernel
  have helse : headKind vs ≠ .kwElse := by decide
  exact ⟨hus, hvs, hp, helse, hgarbage, (parse_isolates us vs hus hvs hp helse).2 _ _ hgarbage,
    by decide +kernel⟩

end Lox
