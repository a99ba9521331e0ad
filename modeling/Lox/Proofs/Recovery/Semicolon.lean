import Lox.Proofs.Recovery.CutShort

/-!
# A missing semicolon

An expression, `print`, `var` or `return` statement that lacks its semicolon is noticed at the first
token behind it. The parser passes over one token at least before it resumes, and that token is the one
where it has noticed the error. So where this is a keyword that begins a statement, the statement behind
is lost too, up to the next place where one may begin: `parse_missing_semicolon` says what comes of it.
-/

namespace Lox

open Lox.Parser

variable {v v' r : List Token}

/-! ## Where the parser does not resume -/

namespace Parser

/-- Tokens at none of which, and behind none of which, the parser resumes. -/
def NoStop (ts : List Token) : Prop := ∀ t ∈ ts, t.kind ∉ .semicolon :: statementStarts

theorem noStop_nil : NoStop [] := fun _ h => nomatch h

theorem noStop_cons {t : Token} {ts : List Token} :
    NoStop (t :: ts) ↔ t.kind ∉ .semicolon :: statementStarts ∧ NoStop ts := List.forall_mem_cons

theorem noStop_append {us ts : List Token} : NoStop (us ++ ts) ↔ NoStop us ∧ NoStop ts :=
  List.forall_mem_append

theorem noStop_commaSeparated {phrases : List (List Token)} {ts : List Token}
    (h : CommaSeparated phrases ts) (hp : ∀ p ∈ phrases, NoStop p) : NoStop ts := by
  induction h with
  | none => exact noStop_nil
  | one ts => exact hp ts (List.mem_singleton_self ts)
  | cons hk _ ih =>
    obtain ⟨hfirst, hothers⟩ := List.forall_mem_cons.1 hp
    exact noStop_append.2 ⟨hfirst, noStop_cons.2 ⟨by rw [hk]; decide, ih hothers⟩⟩

end Parser

/-- No expression has a semicolon in it, or a keyword that begins a statement. -/
theorem Expr.Derivation.noStop {mode : Mode} {level : Level} {ts : List Token} {e : Expr}
    (h : Expr.Derivation mode level ts e) : NoStop ts := by
  have kind {t : Token} {k : TokenKind} (ht : t.kind = k) (hk : k ∉ .semicolon :: statementStarts) :
      t.kind ∉ .semicolon :: statementStarts := ht ▸ hk
  have kinds {t : Token} {ks : List TokenKind} (ht : t.kind ∈ ks)
      (hks : ∀ k ∈ ks, k ∉ .semicolon :: statementStarts) :
      t.kind ∉ .semicolon :: statementStarts := hks _ ht
  induction h with
  | literal hv => exact noStop_cons.2 ⟨kinds (Token.value?_kind hv) (by decide), noStop_nil⟩
  | name hk => exact noStop_cons.2 ⟨kind hk (by decide), noStop_nil⟩
  | grouping hl _ hr ih =>
    refine noStop_cons.2 ⟨kind hl (by decide), noStop_append.2 ⟨ih, noStop_cons.2 ?_⟩⟩
    exact ⟨kind hr (by decide), noStop_nil⟩
  | call _ hl _ _ hs hr ih ihargs =>
    have hargs := noStop_commaSeparated hs (by simpa using fun ts e => ihargs (ts, e))
    refine noStop_append.2 ⟨ih, noStop_cons.2 ⟨kind hl (by decide), noStop_append.2 ⟨hargs, ?_⟩⟩⟩
    exact noStop_cons.2 ⟨kind hr (by decide), noStop_nil⟩
  | unary hk _ ih =>
    exact noStop_cons.2 ⟨hk.elim (kind · (by decide)) (kind · (by decide)), ih⟩
  | @joined level _ _ _ _ _ _ hk _ _ _ ihl ihr =>
    exact noStop_append.2 ⟨ihl, noStop_cons.2 ⟨kinds hk (by cases level <;> decide), ihr⟩⟩
  | assignment ht heq _ ih =>
    exact noStop_cons.2 ⟨kind ht (by decide), noStop_cons.2 ⟨kind heq (by decide), ih⟩⟩
  | tighter _ _ ih => exact ih

/-! ## Statements without their semicolon -/

/-- What is wrong at the first token behind a statement without its semicolon, if it ends with one. -/
def Stmt.unfinished? : Stmt → Option ParseProblem
  | .expression .. => some (.expected .endExpression)
  | .print .. => some (.expected .endPrint)
  | .var .. => some (.expected .endVar)
  | .returnStmt (some _) _ => some (.expected .endReturn)
  | .returnStmt none _ => some .expectedExpression
  | _ => none

/-- The tokens of a statement without the semicolon that it ends with, and what is wrong at the first
one behind them. -/
inductive Unfinished : List Token → ParseProblem → Prop
  | expression {k : Token} {us : List Token} : k.kind ∈ Expr.starters → NoStop us →
      Unfinished (k :: us) (.expected .endExpression)
  | print {k : Token} {us : List Token} : k.kind = .kwPrint → NoStop us →
      Unfinished (k :: us) (.expected .endPrint)
  | var {k t : Token} {us : List Token} : k.kind = .kwVar → t.kind = .identifier → NoStop us →
      Unfinished (k :: t :: us) (.expected .endVar)
  | value {k t : Token} {us : List Token} : k.kind = .kwReturn → t.kind ∈ Expr.starters →
      NoStop us → Unfinished (k :: t :: us) (.expected .endReturn)
  | bare {k : Token} : k.kind = .kwReturn → Unfinished [k] .expectedExpression

theorem Unfinished.of_derivation {mode : Mode} {ss : List Token} {semi : Token} {s : Stmt}
    {problem : ParseProblem} (h : Stmt.Derivation mode .declaration (ss ++ [semi]) s)
    (hproblem : s.unfinished? = some problem) : Unfinished ss problem ∧ semi.kind = .semicolon := by
  -- All forms end with one token, so that is the semicolon, and what is in front of it is `ss`.
  have split (us : List Token) {t : Token} (h : ss ++ [semi] = us ++ [t]) : ss = us ∧ semi = t := by
    simpa using List.append_inj' h rfl
  generalize hts : ss ++ [semi] = ts at h
  cases h with
  | var h =>
    cases h with
    | @plain k t _ hk ht hsemi =>
      obtain ⟨rfl, rfl⟩ := split [k, t] hts
      cases hproblem
      exact ⟨.var hk ht noStop_nil, hsemi⟩
    | @initialized k t eq _ us _ hk ht heq he hsemi =>
      obtain ⟨rfl, rfl⟩ := split (k :: t :: eq :: us) hts
      cases hproblem
      exact ⟨.var hk ht (noStop_cons.2 ⟨by rw [heq]; decide, he.noStop⟩), hsemi⟩
  | function => cases hproblem
  | statement h =>
    cases h with
    | expression h =>
      cases h with
      | mk he hsemi =>
        obtain ⟨rfl, rfl⟩ := split _ hts
        cases hproblem
        obtain ⟨t, us, heq, ht⟩ := he.startsWith
        cases heq
        exact ⟨.expression ht (noStop_cons.1 he.noStop).2, hsemi⟩
    | @print k _ us _ hk he hsemi =>
      obtain ⟨rfl, rfl⟩ := split (k :: us) hts
      cases hproblem
      exact ⟨.print hk he.noStop, hsemi⟩
    | @returnStmt k _ us _ hk he hsemi =>
      obtain ⟨rfl, rfl⟩ := split (k :: us) hts
      cases he with
      | absent =>
        cases hproblem
        exact ⟨.bare hk, hsemi⟩
      | present he =>
        cases hproblem
        obtain ⟨t, us, rfl, ht⟩ := he.startsWith
        exact ⟨.value hk ht (noStop_cons.1 he.noStop).2, hsemi⟩
    | @forLoop _ _ _ _ _ _ _ _ _ start _ _ _ _ _ _ _ _ _ _ _ _ _ _ hloop =>
      subst hloop
      cases start <;> cases hproblem
    | _ => cases hproblem

theorem Unfinished.goesOn {ss : List Token} {problem : ParseProblem} (h : Unfinished ss problem)
    {found : Token} : (⟨problem, found⟩ : ParseError).isFinal = false := by
  cases h <;> rfl

theorem Unfinished.eq_cons {ss : List Token} {problem : ParseProblem} (h : Unfinished ss problem) :
    ∃ k us, ss = k :: us ∧ k.kind ∈ Stmt.starters ∧ NoStop us := by
  cases h with
  | expression hk hus => exact ⟨_, _, rfl, List.mem_append_right _ hk, hus⟩
  | print hk hus => exact ⟨_, _, rfl, by rw [hk]; decide, hus⟩
  | var hk ht hus =>
    exact ⟨_, _, rfl, by rw [hk]; decide, noStop_cons.2 ⟨by rw [ht]; decide, hus⟩⟩
  | value hk ht hus =>
    have hstarters : ∀ k ∈ Expr.starters, k ∉ .semicolon :: statementStarts := by decide
    exact ⟨_, _, rfl, by rw [hk]; decide, noStop_cons.2 ⟨hstarters _ ht, hus⟩⟩
  | bare hk => exact ⟨_, [], rfl, by rw [hk]; decide, noStop_nil⟩

/-! ## Parsers that end with a token -/

namespace Parser

variable {α β : Type}

theorem expect_of_ne {what : Expectation} {ts : List Token} (h : headKind ts ≠ what.kind) :
    expect what ts = ⟨.error ⟨.expected what, ts.headD (.endOfInput .nowhere)⟩, ts, []⟩ :=
  choice_of_notMem (fun hmem => h (List.mem_singleton.1 hmem))

theorem expect_of_eq {what : Expectation} {t : Token} (h : t.kind = what.kind) (ts : List Token) :
    expect what (t :: ts) = ⟨.ok t, ts, []⟩ :=
  choice_of_mem (List.mem_singleton.2 h) ts

/-- A parser that ends by expecting a token, and gives what it has read in front of it. -/
def closing (p : Parser α) (what : Expectation) (f : α → β) : Parser β := do
  let a ← p
  let _ ← expect what
  return f a

/-- Where the token is missing, it is expected at the first one that stands there instead. -/
theorem Swaps.closing_fails {p : Parser α} {what : Expectation} {f : α → β} {semi : Token}
    (hp : Swaps (semi :: r) v' p) (us : List Token) {b : β}
    (hrun : closing p what f (us ++ semi :: r) = ⟨.ok b, r, []⟩) (hv' : headKind v' ≠ what.kind) :
    closing p what f (us ++ v') =
      ⟨.error ⟨.expected what, v'.headD (.endOfInput .nowhere)⟩, v', []⟩ := by
  obtain ⟨a, mid, es, es', hpa, hrest, hes⟩ := bind_ok hrun
  obtain ⟨rfl, rfl⟩ := List.append_eq_nil_iff.1 hes.symm
  obtain ⟨t, left, es, es', hexpect, hpure, hes⟩ := bind_ok hrest
  obtain ⟨rfl, -⟩ := List.append_eq_nil_iff.1 hes.symm
  obtain rfl : left = r := congrArg Parsed.rest hpure
  have hgives : Gives .tolerant (expect what) _ := gives_expect what
  have hmid : mid = t :: left := (hgives.result _ _ _ _ hexpect nofun).1
  have hsame : mid = semi :: left := by
    have hsuffix : mid <:+ us ++ semi :: left := by
      have := hp.frugal.suffix (us ++ semi :: left)
      rwa [hpa] at this
    refine (List.suffix_of_suffix_length_le hsuffix (List.suffix_append us _) ?_).eq_of_length ?_ <;>
      simp [hmid]
  rw [hsame] at hpa
  refine (bind_of_ok (hp.swaps us a [] hpa)).trans ?_
  rw [bind_of_error (expect_of_ne hv'), List.nil_append]

/-! ## Declarations by their first token -/

/-- A declaration that is not recovered from. -/
def unguarded (inner : Grammar) : Parser Stmt := do
  match ← accept .kwFun with
  | some _ => inner.function
  | none =>
    match ← accept .kwVar with
    | some _ => varDeclaration inner
    | none => inner.statement

theorem declaration_eq (inner : Grammar) : declaration inner = recovering (unguarded inner) := rfl

section FirstToken

variable {inner : Grammar} {k : Token} {ts : List Token}

theorem unguarded_of_var (hk : k.kind = .kwVar) :
    unguarded inner (k :: ts) = varDeclaration inner ts :=
  (choice_of_notMem (by simp [hk])).trans (choice_of_mem (by simp [hk]) ts)

theorem unguarded_of_statement (hfun : k.kind ≠ .kwFun) (hvar : k.kind ≠ .kwVar) :
    unguarded inner (k :: ts) = inner.statement (k :: ts) :=
  (choice_of_notMem (by simpa using hfun)).trans (choice_of_notMem (by simpa using hvar))

theorem statement_of_print (hk : k.kind = .kwPrint) :
    statement inner (k :: ts) = printStatement inner k.loc ts := by
  refine peek_skip (g := fun _ => printStatement inner k.loc) ?_ ts
  rw [hk]

theorem statement_of_return (hk : k.kind = .kwReturn) :
    statement inner (k :: ts) = returnStatement inner k.loc ts := by
  refine peek_skip (g := fun _ => returnStatement inner k.loc) ?_ ts
  rw [hk]

theorem statement_of_expression (hk : k.kind ∈ Expr.starters) :
    statement inner (k :: ts) =
      closing (expression inner) .endExpression (Stmt.expression · k.loc) (k :: ts) := by
  have hne (other : TokenKind) (h : other ∉ Expr.starters) : k.kind ≠ other := fun he => h (he ▸ hk)
  refine (peek_bind (p := expressionStatement inner) ?_ ts).trans (peek_bind rfl ts)
  split
  case h_7 => rfl
  all_goals exact absurd ‹k.kind = _› (hne _ (by decide))

theorem varDeclaration_of_name (hk : k.kind = .identifier) :
    varDeclaration inner (k :: ts) =
      closing (behind .equal (expression inner)) .endVar (Stmt.var k.named) ts :=
  (bind_of_ok (expect_of_eq hk ts)).trans rfl

theorem unlessNext_of_ne {stop : TokenKind} {p : Parser α} (h : headKind ts ≠ stop) :
    unlessNext stop p ts = (some <$> p) ts := by
  refine (bind_of_ok (check_eq stop ts)).trans ?_
  rw [if_neg (by simpa using h)]
  rfl

/-- Where there is no semicolon, there is a value to return. -/
theorem returnStatement_of_value (h : headKind ts ≠ .semicolon) (loc : Location) :
    returnStatement inner loc ts =
      closing (some <$> expression inner) .endReturn (Stmt.returnStmt · loc) ts :=
  bind_congr_at (unlessNext_of_ne h) fun _ _ _ _ => rfl

end FirstToken

/-! ## What is noticed -/

section Noticed

variable {n : Nat} {ss rest : List Token} {semi first : Token} {s : Stmt} {problem : ParseProblem}

/-- At a keyword that begins a statement nothing goes on, and no expression begins. -/
theorem stops_of_statementStart (h : headKind v' ∈ statementStarts) :
    Grammar.Stops v' ∧ headKind v' ∉ Expr.starters ∧ headKind v' ≠ .semicolon := by
  have hall : ∀ k ∈ statementStarts,
      k ∉ .kwElse :: expressionStops ∧ k ∉ Expr.starters ∧ k ≠ .semicolon := by decide
  exact hall _ h

/-- An expression that is read in front of a semicolon is read in front of a keyword too. -/
theorem swaps_expression (h : headKind v' ∈ statementStarts) (n : Nat) :
    Swaps v v' (expression (Grammar.ofLevels n)) :=
  (Grammar.swaps_ofLevels (stops_of_statementStart h).1 n).assignment.toSwaps

theorem swaps_initializer (h : headKind v' ∈ statementStarts) (n : Nat) :
    Swaps v v' (behind .equal (expression (Grammar.ofLevels n))) := by
  have hequal : headKind v' ∉ [.equal] := fun hmem =>
    (stops_of_statementStart h).1 (by rw [List.mem_singleton.1 hmem]; decide)
  exact swaps_choice (by decide) hequal (fun _ => (swaps_expression h n).bind fun _ => swaps_pure _)
    (swaps_pure _)

/-- Where the semicolon is missing, a statement that ends with one fails at the keyword that stands
there instead, and has not reported anything. -/
theorem unguarded_fails (h : Unfinished ss problem) (hv' : headKind v' ∈ statementStarts)
    (hrun : unguarded (Grammar.ofLevels (n + 2)) (ss ++ semi :: r) = ⟨.ok s, r, []⟩) :
    unguarded (Grammar.ofLevels (n + 2)) (ss ++ v') =
      ⟨.error ⟨problem, v'.headD (.endOfInput .nowhere)⟩, v', []⟩ := by
  obtain ⟨_, hbegins, hsemicolon⟩ := stops_of_statementStart hv'
  have hexpression := swaps_expression (v := semi :: r) hv' (n + 1)
  have statement {k : Token} (ts : List Token) (hk : k.kind ∉ [.kwFun, .kwVar]) :
      unguarded (Grammar.ofLevels (n + 2)) (k :: ts) =
        Parser.statement (Grammar.ofLevels (n + 1)) (k :: ts) := by
    simp only [List.mem_cons, List.not_mem_nil, or_false, not_or] at hk
    exact unguarded_of_statement hk.1 hk.2
  cases h with
  | @expression k us hk _ =>
    have hstatement : k.kind ∉ [.kwFun, .kwVar] := fun hmem => by
      revert hk
      rcases List.mem_pair.1 hmem with h | h <;> rw [h] <;> decide
    simp only [List.cons_append, statement _ hstatement, statement_of_expression hk] at hrun ⊢
    exact hexpression.closing_fails (k :: us) hrun hsemicolon
  | print hk _ =>
    simp only [List.cons_append, statement _ (by rw [hk]; decide), statement_of_print hk] at hrun ⊢
    exact hexpression.closing_fails _ hrun hsemicolon
  | var hk ht _ =>
    simp only [List.cons_append, unguarded_of_var hk, varDeclaration_of_name ht] at hrun ⊢
    exact (swaps_initializer hv' (n + 2)).closing_fails _ hrun hsemicolon
  | @value k t us hk ht _ =>
    have hvalue (ts : List Token) : headKind (t :: ts) ≠ .semicolon := fun h => by
      rw [headKind_cons] at h
      rw [h] at ht
      exact absurd ht (by decide)
    simp only [List.cons_append, statement _ (by rw [hk]; decide), statement_of_return hk,
      returnStatement_of_value (hvalue _)] at hrun ⊢
    exact (hexpression.bind fun _ => swaps_pure _).closing_fails (t :: us) hrun hsemicolon
  | bare hk =>
    simp only [List.cons_append, List.nil_append, statement _ (by rw [hk]; decide),
      statement_of_return hk, returnStatement_of_value hsemicolon]
    cases v' with
    | nil => exact absurd hv' (by decide)
    | cons t ts =>
      have hrejects : Rejects (expression (Grammar.ofLevels (n + 1))) t ts :=
        (rejects_operand hbegins (Grammar.ofLevels n) Tier.all).bind _
      exact (hrejects.bind _).bind _

end Noticed

end Parser

/-! ## One statement, one declaration -/

/-- Recovery is reported. -/
theorem Parser.recovering_clean {α : Type} {p : Parser α} {ts rest : List Token} {o : Option α}
    (h : recovering p ts = ⟨.ok o, rest, []⟩) : ∃ a, o = some a ∧ p ts = ⟨.ok a, rest, []⟩ := by
  rcases hp : p ts with ⟨e | a, left, es⟩
  · cases he : e.isFinal with
    | true =>
      rw [recovering_of_final hp he] at h
      cases h
    | false =>
      rw [recovering_of_error hp he] at h
      exact absurd (congrArg Parsed.errors h) (List.append_ne_nil_of_right_ne_nil _ (List.cons_ne_nil e []))
  · rw [recovering_of_ok hp] at h
    cases h
    exact ⟨a, rfl, rfl⟩

theorem Program.Derivation.eq_nil {mode : Mode} {ts : List Token}
    (h : Program.Derivation mode ts []) : ts = [] := by
  generalize hprogram : ([] : Program) = program at h
  cases h with
  | mk => rw [List.map_eq_nil_iff.1 hprogram.symm, List.flatMap_nil]

theorem Program.Derivation.of_singleton {mode : Mode} {ts : List Token} {s : Stmt}
    (h : Program.Derivation mode ts [s]) : Stmt.Derivation mode .declaration ts s := by
  generalize hprogram : [s] = program at h
  cases h with
  | @mk body hbody =>
    obtain ⟨d, rfl, rfl⟩ := List.map_eq_singleton_iff.1 hprogram.symm
    simpa using hbody d (List.mem_singleton_self d)

/-- Where some tokens are taken in front of the end of the input, the end is left. -/
theorem exists_left {ts taken rest : List Token} {eof : Token} (heof : eof.isEnd = true)
    (htaken : NoEnd taken) (h : ts ++ [eof] = taken ++ rest) :
    ∃ left, ts = taken ++ left ∧ rest = left ++ [eof] := by
  rcases List.append_eq_append_iff.1 h with ⟨us, rfl, hus⟩ | ⟨left, rfl, rfl⟩
  · rcases List.singleton_eq_append_iff.1 hus with ⟨rfl, rfl⟩ | ⟨rfl, rfl⟩
    · exact ⟨[], by simp, rfl⟩
    · rw [htaken eof (by simp)] at heof
      cases heof
  · exact ⟨left, rfl, rfl⟩

/-- Tokens that are parsed as one statement, without an error, are one declaration, and it takes them
all. -/
theorem exists_unguarded_of_parse {ts : List Token} {s : Stmt} (hts : NoEnd ts)
    (hp : parse ts = ⟨[s], []⟩) : Stmt.Derivation .exact .declaration ts s ∧
      ∃ eof : Token, unguarded (Grammar.ofLevels maxNesting) (ts ++ [eof]) = ⟨.ok s, [eof], []⟩ := by
  obtain ⟨eof, heof, hclosed⟩ := exists_closed_eq hts
  have hp' : parse (ts ++ [eof]) = ⟨[s], []⟩ := by rw [← hclosed, parse_closed, hp]
  have hderivation := derivation_of_parse hts heof (by rw [hp'])
  rw [hp'] at hderivation
  refine ⟨hderivation.of_singleton, eof, ?_⟩
  have hhead : headKind (ts ++ [eof]) ≠ .endOfInput := by
    cases ts with
    | nil => cases hp
    | cons t ts => exact beq_eq_false_iff_ne.1 (noEnd_cons.1 hts).1
  have hrun : parseFrom (Grammar.ofLevels maxNesting) (ts.length + 1) (ts ++ [eof]) = ⟨[s], []⟩ := by
    rw [← hp, parse_eq_parseFrom (ts.length + 1) (by rw [hclosed]; simp), hclosed]
  rcases hd : declaration (Grammar.ofLevels maxNesting) (ts ++ [eof]) with ⟨e | o, mid, es⟩
  · rw [parseFrom_of_error hhead hd] at hrun
    cases hrun
  · obtain ⟨taken, _, htaken, hmid⟩ := exists_of_declaration hhead hd
    rw [parseFrom_of_ok hhead hd] at hrun
    obtain ⟨hprogram, herrors⟩ := ParseResult.mk.inj hrun
    obtain ⟨rfl, hothers⟩ := List.append_eq_nil_iff.1 herrors
    obtain ⟨s', rfl, hunguarded⟩ := recovering_clean hd
    obtain ⟨rfl, hnone⟩ := List.cons.inj hprogram
    obtain ⟨left, rfl, rfl⟩ := exists_left heof htaken hmid
    -- What is left is the end of the input, for a parse of more tokens would give more.
    have hleft := derivation_of_parseFrom _ _ (noEnd_append.1 hts).2 heof (by simp) hothers
    rw [show (parseFrom _ _ _).program = [] from hnone] at hleft
    obtain rfl := hleft.eq_nil
    exact hunguarded

/-! ## Parsing on -/

theorem Rounds.parse_append {ts rest : List Token} {program : Program} {errors : List ParseError}
    (h : Rounds (Grammar.ofLevels maxNesting) (closed ts) program errors rest) (hrest : rest ≠ []) :
    parse ts = ⟨program ++ (parse rest).program, errors ++ (parse rest).errors⟩ := by
  have hended : Ended rest := by
    obtain ⟨us, hus, _⟩ := h.swap (Grammar.frugal_ofLevels maxNesting).declaration.swaps_refl
    exact (ended_closed ts).suffix ⟨us, hus.symm⟩
  obtain ⟨count, hcount, hparse⟩ := h.parseFrom_eq
  have hclosed := closed_of_ended hrest hended
  rw [parse_eq_parseFrom (count + (closed ts).length) (by omega), hparse,
    parse_eq_parseFrom (closed ts).length (by rw [hclosed]; omega), hclosed]

/-- A statement without its semicolon, in front of a keyword that begins a statement, is one error at
that keyword, and the parse goes on where the parser resumes. -/
theorem parse_unfinished {ss vs : List Token} {semi : Token} {s : Stmt} {problem : ParseProblem}
    (hss : NoEnd (ss ++ [semi])) (hvs : NoEnd vs) (hs : parse (ss ++ [semi]) = ⟨[s], []⟩)
    (hproblem : s.unfinished? = some problem) (hkeyword : headKind vs ∈ statementStarts) :
    parse (ss ++ vs) = ⟨(parse (resume vs)).program,
      ⟨problem, vs.headD (.endOfInput .nowhere)⟩ :: (parse (resume vs)).errors⟩ := by
  obtain ⟨hderivation, eof, hrun⟩ := exists_unguarded_of_parse hss hs
  rw [List.append_assoc, List.singleton_append] at hrun
  obtain ⟨hunfinished, _⟩ := Unfinished.of_derivation hderivation hproblem
  -- The tokens that are lost stand in front of the same tokens as before, and of the end behind these.
  obtain ⟨lost, hlost, _⟩ := resume_takes vs
  have hvsEnd : headKind vs ≠ .endOfInput := fun h => by
    rw [h] at hkeyword
    exact absurd hkeyword (by decide)
  have hne : lost ≠ [] := by
    rintro rfl
    exact resume_ne hvsEnd hlost.symm
  obtain ⟨tail, hclosed, htail, _, hhead, hparse⟩ :=
    exists_closed_append (ss ++ lost) (resume vs) (by
      rw [List.append_assoc, ← hlost]
      exact noEnd_append.2 ⟨(noEnd_append.1 hss).1, hvs⟩)
  rw [List.append_assoc, List.append_assoc, ← hlost] at hclosed
  have hresume : resume (lost ++ tail) = tail :=
    resume_swap hne (.inr hhead) (v := resume vs) (by rw [← hlost])
  have hfirst : (lost ++ tail).headD (.endOfInput .nowhere) = vs.headD (.endOfInput .nowhere) := by
    rw [hlost]
    cases lost with
    | nil => exact absurd rfl hne
    | cons t lost => rfl
  have hstart : headKind (lost ++ tail) ∈ statementStarts := by rwa [headKind, hfirst]
  have hfails : unguarded (Grammar.ofLevels maxNesting) (ss ++ (lost ++ tail)) =
      ⟨.error ⟨problem, vs.headD (.endOfInput .nowhere)⟩, lost ++ tail, []⟩ := by
    rw [← hfirst]
    exact unguarded_fails (n := 254) hunfinished hstart hrun
  have hd : declaration (Grammar.ofLevels maxNesting) (closed (ss ++ vs)) =
      ⟨.ok none, tail, [⟨problem, vs.headD (.endOfInput .nowhere)⟩]⟩ := by
    rw [hclosed, declaration_eq, recovering_of_error hfails hunfinished.goesOn, hresume]
    rfl
  obtain ⟨k, us, rfl, hk, _⟩ := hunfinished.eq_cons
  have hbegins : headKind (closed (k :: us ++ vs)) ≠ .endOfInput := by
    rw [hclosed]
    exact fun h => absurd (h ▸ hk : TokenKind.endOfInput ∈ Stmt.starters) (by decide)
  have hparsed := (Rounds.cons hbegins hd (.none tail)).parse_append htail
  rw [hparsed, hparse]
  rfl

/-! ## What is lost -/

/-- Behind a statement without a semicolon, another one up to its semicolon is passed over. -/
theorem Unfinished.resume_eq {bs rest : List Token} {semi : Token} {problem : ParseProblem}
    (h : Unfinished bs problem) (hbs : NoEnd (bs ++ [semi])) (hsemi : semi.kind = .semicolon) :
    resume (bs ++ semi :: rest) = rest := by
  obtain ⟨k, us, rfl, hk, hus⟩ := h.eq_cons
  obtain ⟨hkEnd, husEnd⟩ := noEnd_cons.1 hbs
  have hkSemi : k.kind ≠ .semicolon := fun h => absurd (h ▸ hk : TokenKind.semicolon ∈ Stmt.starters)
    (by decide)
  have hbefore : ∀ t ∈ k :: us, t.kind ≠ .semicolon := List.forall_mem_cons.2
    ⟨hkSemi, fun t ht hmem => hus t ht (hmem ▸ List.mem_cons_self)⟩
  have hkeyword : ∀ t ∈ us ++ [semi], t.kind ∉ statementStarts := List.forall_mem_append.2
    ⟨fun t ht hmem => hus t ht (List.mem_cons_of_mem _ hmem), by simp [hsemi, statementStarts]⟩
  rw [List.cons_append, resume, if_neg (by simp [hkEnd])]
  have hresume : resumeAfter k (us ++ [semi] ++ rest) = rest :=
    resumeAfter_eq hsemi hbefore rfl husEnd hkeyword rest
  rwa [← List.append_cons] at hresume

/-- **A missing semicolon costs the statement behind it.** Let nothing be wrong with some tokens, nor
with a statement that ends with a semicolon, and let a keyword that begins a statement stand where the
semicolon of that statement is missing. Then there is an error at the keyword, and the parse goes on
where the parser resumes, which is behind the keyword: the tokens up to there are lost. If a statement
that ends with a semicolon begins at the keyword, it is lost, and nothing else. -/
theorem parse_missing_semicolon (us ss vs : List Token) (semi : Token) (s : Stmt)
    (problem : ParseProblem) (hus : NoEnd us) (hss : NoEnd (ss ++ [semi])) (hvs : NoEnd vs)
    (hp : (parse us).errors = []) (hs : parse (ss ++ [semi]) = ⟨[s], []⟩)
    (hproblem : s.unfinished? = some problem) (hkeyword : headKind vs ∈ statementStarts) :
    parse (us ++ (ss ++ vs)) = ⟨(parse us).program ++ (parse (resume vs)).program,
      ⟨problem, vs.headD (.endOfInput .nowhere)⟩ :: (parse (resume vs)).errors⟩ ∧
    (∃ lost, lost ≠ [] ∧ vs = lost ++ resume vs) ∧
    ∀ bs last rest s', vs = bs ++ last :: rest → parse (bs ++ [last]) = ⟨[s'], []⟩ →
      s'.unfinished?.isSome = true → resume vs = rest := by
  obtain ⟨hderivation, _⟩ := exists_unguarded_of_parse hss hs
  obtain ⟨hunfinished, _⟩ := Unfinished.of_derivation hderivation hproblem
  refine ⟨?_, ?_, ?_⟩
  · have helse : headKind (ss ++ vs) ≠ .kwElse := by
      obtain ⟨k, ts, rfl, hk, _⟩ := hunfinished.eq_cons
      exact fun h => absurd (h ▸ hk : TokenKind.kwElse ∈ Stmt.starters) (by decide)
    rw [parse_append_of_noEnd hus (noEnd_append.2 ⟨(noEnd_append.1 hss).1, hvs⟩) hp helse,
      parse_unfinished hss hvs hs hproblem hkeyword]
  · obtain ⟨lost, hlost, _⟩ := resume_takes vs
    refine ⟨lost, ?_, hlost⟩
    rintro rfl
    exact resume_ne (fun h => absurd (h ▸ hkeyword) (by decide)) hlost.symm
  · rintro bs last rest s' rfl hbs hsome
    obtain ⟨hbsEnd, hlast⟩ := noEnd_append.1 hvs
    have hend : NoEnd (bs ++ [last]) :=
      noEnd_append.2 ⟨hbsEnd, noEnd_cons.2 ⟨(noEnd_cons.1 hlast).1, noEnd_nil⟩⟩
    obtain ⟨problem', hproblem'⟩ := Option.isSome_iff_exists.1 hsome
    obtain ⟨hderivation', _⟩ := exists_unguarded_of_parse hend hbs
    obtain ⟨hunfinished', hsemi⟩ := Unfinished.of_derivation hderivation' hproblem'
    exact hunfinished'.resume_eq hend hsemi

/-- A semicolon. -/
def semicolon : Token := ⟨.semicolon, utf8 ";", none, .nowhere⟩

/-- The tokens of `var a = b`, without a semicolon. -/
def unfinishedVar : List Token :=
  let token (kind : TokenKind) (text : String) : Token := ⟨kind, utf8 text, none, .nowhere⟩
  [token .kwVar "var", token .identifier "a", token .equal "=", token .identifier "b"]

/-- The tokens of `print a`, without a semicolon. -/
def unfinishedPrint : List Token :=
  let token (kind : TokenKind) (text : String) : Token := ⟨kind, utf8 text, none, .nowhere⟩
  [token .kwPrint "print", token .identifier "a"]

/-- The tokens of `var a = b print a; var a = b;` behind those of `print a;`: the second statement with
`print` is lost, and the one behind it is not. -/
theorem parse_missing_semicolon_var :
    let us := unfinishedPrint ++ [semicolon]
    let vs := unfinishedPrint ++ semicolon :: (unfinishedVar ++ [semicolon])
    let s : Stmt := .var ⟨utf8 "a", .nowhere⟩ (some (.reference ⟨utf8 "b", .nowhere⟩ none))
    let s' : Stmt := .print (.reference ⟨utf8 "a", .nowhere⟩ none) .nowhere
    (NoEnd us ∧ NoEnd (unfinishedVar ++ [semicolon]) ∧ NoEnd vs ∧ (parse us).errors = [] ∧
      parse (unfinishedVar ++ [semicolon]) = ⟨[s], []⟩ ∧
      s.unfinished? = some (.expected .endVar) ∧ headKind vs ∈ statementStarts ∧
      parse us = ⟨[s'], []⟩ ∧ s'.unfinished?.isSome = true) ∧
    resume vs = unfinishedVar ++ [semicolon] ∧
    parse (us ++ (unfinishedVar ++ vs)) =
      ⟨[s', s], [⟨.expected .endVar, ⟨.kwPrint, utf8 "print", none, .nowhere⟩⟩]⟩ := by
  intro us vs s s'
  have hus : NoEnd us := by
    unfold NoEnd
    decide
  have hss : NoEnd (unfinishedVar ++ [semicolon]) := by
    unfold NoEnd
    decide
  have hvs : NoEnd vs := by
    unfold NoEnd
    decide
  have hprint : parse (unfinishedPrint ++ [semicolon]) = ⟨[s'], []⟩ := by rfl
  have hvar : parse (unfinishedVar ++ [semicolon]) = ⟨[s], []⟩ := by rfl
  have hp : (parse us).errors = [] := by rw [hprint]
  have hkeyword : headKind vs ∈ statementStarts := by decide
  obtain ⟨hparse, _, hlost⟩ := parse_missing_semicolon us unfinishedVar vs semicolon s
    (.expected .endVar) hus hss hvs hp hvar rfl hkeyword
  have hrest := hlost unfinishedPrint semicolon (unfinishedVar ++ [semicolon]) s' rfl hprint rfl
  rw [hrest, hvar, hprint] at hparse
  exact ⟨⟨hus, hss, hvs, hp, hvar, rfl, hkeyword, hprint, rfl⟩, hrest, hparse⟩

/-- Where the semicolon of `a` is missing in front of `print b;`, the second statement is lost, though
nothing is wrong with it. -/
theorem parse_missing_semicolon_loses :
    let token (kind : TokenKind) (text : String) : Token := ⟨kind, utf8 text, none, .nowhere⟩
    let semi := token .semicolon ";"
    let ss := [token .identifier "a"]
    let vs := [token .kwPrint "print", token .identifier "b", semi]
    let s : Stmt := .expression (.reference ⟨utf8 "a", .nowhere⟩ none) .nowhere
    let s' : Stmt := .print (.reference ⟨utf8 "b", .nowhere⟩ none) .nowhere
    parse (ss ++ [semi]) = ⟨[s], []⟩ ∧ s.unfinished? = some (.expected .endExpression) ∧
      headKind vs ∈ statementStarts ∧ parse vs = ⟨[s'], []⟩ ∧
      parse (ss ++ vs) = ⟨[], [⟨.expected .endExpression, token .kwPrint "print"⟩]⟩ ∧
      parse (ss ++ vs) ≠ ⟨[s'], [⟨.expected .endExpression, token .kwPrint "print"⟩]⟩ := by
  refine ⟨rfl, rfl, by decide, rfl, rfl, fun h => ?_⟩
  exact List.cons_ne_nil _ _ (congrArg ParseResult.program h).symm

end Lox
