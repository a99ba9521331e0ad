import Lox.Proofs.Recovery.CutShort

/-!
# No further than the first end of the input

Every loop of the parser ends because of what it meets, never because its rounds have run out: each
number of rounds that is not too small gives the same (`Grammar.LoopsEnd`). And the parser stays within
the tokens. No parser of the grammar goes past an end of the input, nor does it matter what stands
behind that (`Grammar.StopsAtEnd`), so a parse looks at tokens up to the first end of the input only
(`parse_stops_at_end`).
-/

namespace Lox

open Lox.Parser

/-! ## Parsers in front of an end of the input -/

namespace Parser

variable {α : Type} {p : Parser α}

/-- The parser leaves each end of the input with all that stands behind it, and what that is makes no
difference. -/
def StopsAtEnd (p : Parser α) : Prop :=
  ∀ us eof, eof.isEnd = true → ∃ result ws errors, ws <:+ us ∧
    ∀ v, p (us ++ eof :: v) = ⟨result, ws ++ eof :: v, errors⟩

/-- Begun in front of a token, the parser takes at least one, or the nesting is too deep. -/
def Advances (p : Parser α) : Prop :=
  ∀ ts, headKind ts ≠ .endOfInput →
    (∃ a us, (p ts).result = .ok a ∧ us ≠ [] ∧ NoEnd us ∧ ts = us ++ (p ts).rest) ∨
    ∃ e, (p ts).result = .error e ∧ e.problem = .nestingTooDeep

theorem Frugal.stopsAtEnd (h : Frugal p) : StopsAtEnd p := by
  intro us eof heof
  obtain ⟨taken, htaken, hnoEnd⟩ := h.takes (us ++ [eof])
  -- The end of the input is not among the tokens taken, so these are all in front of it.
  obtain ⟨ws, rfl, hrest⟩ : ∃ ws, us = taken ++ ws ∧ (p (us ++ [eof])).rest = ws ++ [eof] := by
    rcases List.append_eq_append_iff.1 htaken with ⟨ws, hws, hrest⟩ | h
    · cases ws with
      | nil => exact ⟨[], by simpa using hws.symm, hrest.symm⟩
      | cons t ws =>
        obtain rfl : eof = t := (List.cons.inj hrest).1
        rw [hnoEnd eof (by simp [hws])] at heof
        cases heof
    · exact h
  exact ⟨_, ws, _, List.suffix_append taken ws, fun v => h.looks_cons _ ws v hrest⟩

end Parser

/-- That the parsers of a grammar stop at the end of the input. -/
structure Grammar.StopsAtEnd (G : Grammar) : Prop where
  assignment : G.assignment.StopsAtEnd
  operand : ∀ tiers, (G.operand tiers).StopsAtEnd
  chain : ∀ tier tighter left, (G.chain tier tighter left).StopsAtEnd
  unary : G.unary.StopsAtEnd
  calls : ∀ callee, (G.calls callee).StopsAtEnd
  arguments : G.arguments.StopsAtEnd
  statement : G.statement.StopsAtEnd
  function : G.function.StopsAtEnd
  declaration : (Parser.declaration G).StopsAtEnd

theorem Grammar.stopsAtEnd_ofLevels (n : Nat) : (ofLevels n).StopsAtEnd :=
  have h := frugal_ofLevels n
  { assignment := h.assignment.stopsAtEnd
    operand := fun tiers => (h.operand tiers).stopsAtEnd
    chain := fun tier tighter left => (h.chain tier tighter left).stopsAtEnd
    unary := h.unary.stopsAtEnd
    calls := fun callee => (h.calls callee).stopsAtEnd
    arguments := h.arguments.stopsAtEnd
    statement := h.statement.stopsAtEnd
    function := h.function.stopsAtEnd
    declaration := h.declaration.stopsAtEnd }

theorem Grammar.advances_declaration (n : Nat) : (declaration (ofLevels n)).Advances := by
  intro ts hts
  rcases h : declaration (ofLevels n) ts with ⟨e | o, rest, errors⟩
  · exact .inr ⟨e, rfl, problem_of_declaration h⟩
  · obtain ⟨us, hne, hend, heq⟩ := exists_of_declaration hts h
    exact .inl ⟨o, us, rfl, hne, hend, heq⟩

/-! ## Loops -/

/-- That the loops of a grammar, over the declarations of a block, the arguments of a call and the
parameters of a function, give the same for all numbers of rounds that are not too small. -/
structure Grammar.LoopsEnd (G : Grammar) : Prop where
  block : ∀ ts rounds, ts.length ≤ rounds →
    manyUntilFrom .rightBrace (declaration G) rounds ts = manyUntil .rightBrace (declaration G) ts
  arguments : ∀ ts rounds, ts.length < rounds →
    commaSeparatedFrom .tooManyArguments (expression G) rounds 0 ts =
      commaSeparated .tooManyArguments (expression G) ts
  parameters : ∀ ts rounds, ts.length < rounds →
    commaSeparatedFrom .tooManyParameters (Token.named <$> expect .parameterName) rounds 0 ts =
      commaSeparated .tooManyParameters (Token.named <$> expect .parameterName) ts

theorem Parser.commaSeparatedFrom_eq {α : Type} {item : Parser α} (h : Frugal item)
    (excess : ParseProblem) {ts : List Token} {rounds : Nat} (hrounds : ts.length < rounds) :
    commaSeparatedFrom excess item rounds 0 ts = commaSeparated excess item ts :=
  ((bind_of_ok (p := remaining) rfl).trans
    (commaSeparatedFrom_rounds h _ rounds 0 ts (Nat.lt_succ_self _) hrounds)).symm

theorem Grammar.loopsEnd_ofLevels (n : Nat) : (ofLevels n).LoopsEnd where
  block ts rounds h :=
    ((bind_of_ok (p := remaining) rfl).trans (manyUntilFrom_rounds .rightBrace
      (progresses_declaration n) _ rounds ts (Nat.le_refl _) h)).symm
  arguments _ _ h := commaSeparatedFrom_eq (frugal_ofLevels n).assignment _ h
  parameters _ _ h := commaSeparatedFrom_eq ((frugal_expect _).map Token.named) _ h

/-! ## Programs -/

theorem headKind_append_cons (us : List Token) (t : Token) (v v' : List Token) :
    headKind (us ++ t :: v) = headKind (us ++ t :: v') := by
  cases us <;> rfl

/-- What stands behind an end of the input makes no difference to the declarations up to there. -/
theorem parseFrom_append_end {eof : Token} (heof : eof.isEnd = true) (n rounds : Nat)
    (us v v' : List Token) : parseFrom (Grammar.ofLevels n) rounds (us ++ eof :: v) =
      parseFrom (Grammar.ofLevels n) rounds (us ++ eof :: v') := by
  induction rounds generalizing us with
  | zero => rfl
  | succ rounds ih =>
    have hhead := headKind_append_cons us eof v v'
    by_cases hend : headKind (us ++ eof :: v) = .endOfInput
    · rw [parseFrom_of_end hend, parseFrom_of_end (hhead ▸ hend)]
    · obtain ⟨result, ws, errors, _, hws⟩ :=
        (Grammar.stopsAtEnd_ofLevels n).declaration us eof heof
      cases result with
      | error e => rw [parseFrom_of_error hend (hws v), parseFrom_of_error (hhead ▸ hend) (hws v')]
      | ok o => rw [parseFrom_of_ok hend (hws v), parseFrom_of_ok (hhead ▸ hend) (hws v'), ih ws]

theorem exists_closed (ts : List Token) : ∃ us eof, eof.isEnd = true ∧ closed ts = us ++ [eof] := by
  rcases closed_eq ts with ⟨h, hne, hended⟩ | ⟨eof, heof, h⟩
  · rw [h]
    exact ⟨ts.dropLast, ts.getLast hne, hended _ (List.getLast?_eq_getLast_of_ne_nil hne),
      (List.dropLast_concat_getLast hne).symm⟩
  · exact ⟨ts, eof, heof, h⟩

theorem parseFrom_closed_append {ts : List Token} {rounds : Nat} (h : ts.length ≤ rounds)
    (behind : List Token) :
    parseFrom (Grammar.ofLevels maxNesting) rounds (closed ts ++ behind) = parse ts := by
  obtain ⟨us, eof, heof, hclosed⟩ := exists_closed ts
  have hlen := closed_length_le ts
  rw [parse_eq_parseFrom rounds (by omega), hclosed, List.append_assoc, List.singleton_append]
  exact parseFrom_append_end heof maxNesting rounds us behind []

theorem parse_append_end {us : List Token} {eof : Token} (heof : eof.isEnd = true)
    (vs : List Token) : parse (us ++ eof :: vs) = parse (us ++ [eof]) := by
  obtain ⟨vs', hclosed⟩ : ∃ vs', closed (us ++ eof :: vs) = us ++ eof :: vs' := by
    rcases closed_eq (us ++ eof :: vs) with ⟨h, _⟩ | ⟨eof', _, h⟩
    · exact ⟨vs, h⟩
    · exact ⟨vs ++ [eof'], by rw [h, List.append_assoc, List.cons_append]⟩
  have hlen : (closed (us ++ eof :: vs)).length ≤ (us ++ eof :: vs).length + 1 + 1 :=
    Nat.le_succ_of_le (closed_length_le _)
  have hlen' : (closed (us ++ [eof])).length ≤ (us ++ eof :: vs).length + 1 + 1 := by
    simp only [closed_of_isEnd us heof, List.length_append, List.length_cons, List.length_nil]
    omega
  rw [parse_eq_parseFrom _ hlen, parse_eq_parseFrom _ hlen', hclosed, closed_of_isEnd us heof]
  exact parseFrom_append_end heof maxNesting _ us vs' []

/-- Another token at the index makes a difference. -/
def LooksAt {α : Type} (f : List Token → α) (ts : List Token) (i : Nat) : Prop :=
  ∃ t, f (ts.set i t) ≠ f ts

theorem exists_first_end {ts : List Token} (h : ∃ t ∈ ts, t.isEnd = true) :
    ∃ us eof v, ts = us ++ eof :: v ∧ NoEnd us ∧ eof.isEnd = true := by
  obtain ⟨eof, hfind⟩ := Option.isSome_iff_exists.1 (List.find?_isSome.2 h)
  obtain ⟨heof, us, v, hts, hus⟩ := List.find?_eq_some_iff_append.1 hfind
  exact ⟨us, eof, v, hts, fun t ht => by simpa using hus t ht, heof⟩

/-- The declarations of a program look at no token behind the first end of the input. -/
theorem LooksAt.range {n rounds i : Nat} {ts behind : List Token}
    (h : LooksAt (parseFrom (Grammar.ofLevels n) rounds) (closed ts ++ behind) i) :
    i < (closed ts).length ∧ NoEnd ((closed ts).take i) := by
  obtain ⟨vs, last, hlast, hclosed⟩ := exists_closed ts
  have hmem : last ∈ closed ts := by
    rw [hclosed]
    exact List.mem_append_right vs (List.mem_singleton_self last)
  obtain ⟨us, eof, v, hts, hus, heof⟩ := exists_first_end ⟨last, hmem, hlast⟩
  rw [hts] at h ⊢
  by_cases hi : i ≤ us.length
  · refine ⟨by rw [List.length_append, List.length_cons]; omega, fun t ht => hus t ?_⟩
    rw [List.take_append_of_le_length hi] at ht
    exact List.mem_of_mem_take ht
  · obtain ⟨t, hne⟩ := h
    obtain ⟨k, rfl⟩ : ∃ k, i = us.length + (k + 1) := ⟨i - us.length - 1, by omega⟩
    refine absurd ?_ hne
    rw [List.append_assoc, List.cons_append, List.set_append_right _ _ (Nat.le_add_right _ _),
      Nat.add_sub_cancel_left, List.set_cons_succ]
    exact parseFrom_append_end heof n rounds us _ _

/-- **Parsing ends, and stays within the tokens.** However many more rounds they are given, the
declarations of a program, those of a block, arguments and parameters come to the same. A parse depends
on no token beyond the closed list of tokens nor behind the first end of the input in it, and no parser
of the grammar goes past an end of the input. A declaration that is begun in front of a token takes at
least one, or the nesting is too deep. Hence tokens are parsed as those up to the first end of the
input. -/
theorem parse_stops_at_end (ts : List Token) :
    (∀ rounds behind, ts.length ≤ rounds →
      parseFrom (Grammar.ofLevels maxNesting) rounds (closed ts ++ behind) = parse ts) ∧
    (∀ n, (Grammar.ofLevels n).LoopsEnd) ∧
    (∀ rounds behind i,
      LooksAt (parseFrom (Grammar.ofLevels maxNesting) rounds) (closed ts ++ behind) i →
        i < (closed ts).length ∧ NoEnd ((closed ts).take i)) ∧
    (∀ n, (Grammar.ofLevels n).StopsAtEnd) ∧
    (∀ n, (declaration (Grammar.ofLevels n)).Advances) ∧
    ∀ us eof vs, eof.isEnd = true → ts = us ++ eof :: vs → parse ts = parse (us ++ [eof]) := by
  refine ⟨fun rounds behind h => parseFrom_closed_append h behind, Grammar.loopsEnd_ofLevels,
    fun rounds behind i => LooksAt.range, Grammar.stopsAtEnd_ofLevels,
    Grammar.advances_declaration, ?_⟩
  rintro us eof vs heof rfl
  exact parse_append_end heof vs

/-- The statement `nil;`, an end of the input, and a parenthesis without a partner behind it. -/
def behindEnd : List Token :=
  [⟨.kwNil, utf8 "nil", none, .nowhere⟩, ⟨.semicolon, utf8 ";", none, .nowhere⟩,
    .endOfInput .nowhere, ⟨.rightParen, utf8 ")", none, .nowhere⟩]

/-- The parenthesis is not an error. -/
theorem parse_stops_at_end_behindEnd :
    parse behindEnd = parse (behindEnd.take 3) ∧
      parse (behindEnd.take 3) = ⟨[.expression (.literal .nil .nowhere) .nowhere], []⟩ ∧
      ¬LooksAt (parseFrom (Grammar.ofLevels maxNesting) 4) (closed behindEnd ++ []) 3 := by
  obtain ⟨-, -, hrange, -, -, hcut⟩ := parse_stops_at_end behindEnd
  refine ⟨hcut (behindEnd.take 2) (.endOfInput .nowhere) _ rfl rfl, rfl, fun h => ?_⟩
  have hend := (hrange 4 [] 3 h).2 (.endOfInput .nowhere) (by decide)
  cases hend

end Lox
