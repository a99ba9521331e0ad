import Lox.Proofs.Grammar.Statement
import Lox.Proofs.Grammar.StatementCompleteness
import Lox.Proofs.Grammar.Levels
import Lox.Program.Similar

/-!
# The parser accepts its grammar

For tokens with one end of input behind them: a parse without errors gives a program that the tokens
form, all of them, and tokens that form a program are parsed as it without an error, unless the
nesting is too deep (`parse_accepts_grammar`). The grammar is unambiguous, because every derivation is
what the parser finds given enough levels.
-/

namespace Lox

open Lox.Parser Filter

/-! ## Soundness of whole parses -/

theorem gives_declaration_ofLevels (mode : Mode) (n : Nat) :
    Gives mode (declaration (Grammar.ofLevels n))
      (Reads mode.Picks (OrLeft mode (Stmt.Derivation mode .declaration))) :=
  (Grammar.sound_ofLevels mode n).gives_declaration

theorem Program.Derivation.nil (mode : Mode) : Program.Derivation mode [] [] :=
  @Program.Derivation.mk mode [] fun _ h => absurd h List.not_mem_nil

theorem Program.Derivation.cons {mode : Mode} {us ts : List Token} {s : Stmt} {p : Program}
    (hs : Stmt.Derivation mode .declaration us s) (h : Program.Derivation mode ts p) :
    Program.Derivation mode (us ++ ts) (s :: p) := by
  cases h with
  | @mk body hd => exact @mk mode ((us, s) :: body) (List.forall_mem_cons.2 ⟨hs, hd⟩)

/-- Whatever the errors, the program has a derivation from some of the tokens. -/
theorem parseFrom_tolerant (n rounds : Nat) (ts : List Token) :
    ∃ us, us.Sublist ts ∧
      Program.Derivation .tolerant us (parseFrom (Grammar.ofLevels n) rounds ts).program := by
  have hdecl := gives_declaration_ofLevels .tolerant n
  induction rounds generalizing ts with
  | zero => exact ⟨[], List.nil_sublist ts, .nil _⟩
  | succ rounds ih =>
    rw [parseFrom]
    split
    · exact ⟨[], List.nil_sublist ts, .nil _⟩
    · split
      · next first rest errors h =>
        obtain ⟨us, cs, rfl, hu, hfirst⟩ := hdecl.result _ _ _ _ h (by rintro ⟨⟩)
        obtain ⟨vs, hv, hothers⟩ := ih rest
        cases first with
        | none => exact ⟨vs, hv.trans (List.sublist_append_right cs rest), hothers⟩
        | some s => exact ⟨us ++ vs, List.Sublist.append hu hv, .cons hfirst hothers⟩
      · exact ⟨[], List.nil_sublist ts, .nil _⟩

theorem mem_of_mem_closed {ts : List Token} {t : Token} (h : t ∈ closed ts) :
    t ∈ ts ∨ t.isEnd = true := by
  unfold closed at h
  split at h
  · rw [List.mem_singleton.1 h]
    exact .inr rfl
  · split at h
    · exact .inl h
    · rcases List.mem_append.1 h with h | h
      · exact .inl h
      · rw [List.mem_singleton.1 h]
        exact .inr rfl

/-- Whatever the errors, what is parsed has a derivation from some of the tokens. -/
theorem exists_derivation_of_parse (ts : List Token) :
    ∃ us ⊆ ts, Program.Derivation .tolerant us (parse ts).program := by
  obtain ⟨us, hsub, h⟩ := parseFrom_tolerant maxNesting ts.length (closed ts)
  refine ⟨us, fun t ht => (mem_of_mem_closed (hsub.subset ht)).resolve_right ?_, h⟩
  rw [h.noEnd t ht]
  exact Bool.false_ne_true

/-- What is left when tokens other than the end are taken from in front of the end. -/
theorem eq_append_of_noEnd {us rest body : List Token} {eof : Token} (hu : NoEnd us)
    (he : eof.isEnd = true) (h : body ++ [eof] = us ++ rest) :
    ∃ body', body = us ++ body' ∧ rest = body' ++ [eof] := by
  rcases List.append_eq_append_iff.1 h with ⟨as, rfl, hrest⟩ | ⟨as, rfl, rfl⟩
  · cases as with
    | nil => exact ⟨[], by simp, by simpa using hrest.symm⟩
    | cons a as =>
      obtain ⟨rfl, _⟩ : eof = a ∧ _ := by simpa using hrest
      rw [noEnd_append, noEnd_cons, he] at hu
      exact absurd hu.2.1 (by decide)
  · exact ⟨as, rfl, rfl⟩

/-- A parse without errors gives a program that the tokens form. Every declaration takes a token and
none takes the end, so the rounds suffice to reach it. -/
theorem derivation_of_parseFrom (n rounds : Nat) {body : List Token} {eof : Token}
    (hb : NoEnd body) (he : eof.isEnd = true) (hr : body.length ≤ rounds)
    (h : (parseFrom (Grammar.ofLevels n) rounds (body ++ [eof])).errors = []) :
    Program.Derivation .exact body
      (parseFrom (Grammar.ofLevels n) rounds (body ++ [eof])).program := by
  have hdecl := gives_declaration_ofLevels .exact n
  induction rounds generalizing body with
  | zero =>
    obtain rfl : body = [] := List.eq_nil_of_length_eq_zero (Nat.le_zero.1 hr)
    exact .nil _
  | succ rounds ih =>
    cases body with
    | nil =>
      rw [parseFrom, if_pos (by exact he)]
      exact .nil _
    | cons t body =>
      have ht : t.isEnd = false := (noEnd_cons.1 hb).1
      rw [parseFrom, if_neg (by simp [ht])] at h ⊢
      split at h
      · next first rest errors hrun =>
        obtain ⟨rfl, hothers⟩ := List.append_eq_nil_iff.1 h
        obtain ⟨us, cs, hts, rfl, hfirst⟩ := hdecl.result _ _ _ _ hrun fun _ => rfl
        cases first with
        | none => cases hfirst.1
        | some s =>
          obtain ⟨body', hbody, rfl⟩ := eq_append_of_noEnd hfirst.noEnd he hts
          have hlen : body'.length ≤ rounds := by
            obtain ⟨u, us, rfl, _⟩ := hfirst.startsWith
            have := congrArg List.length hbody
            simp at this hr
            omega
          rw [hbody] at hb ⊢
          exact .cons hfirst (ih (noEnd_append.1 hb).2 hlen hothers)
      · exact absurd h (by simp)

theorem closed_of_isEnd (body : List Token) {eof : Token} (he : eof.isEnd = true) :
    closed (body ++ [eof]) = body ++ [eof] := by
  simp [closed, he]

theorem derivation_of_parse {body : List Token} {eof : Token} (hb : NoEnd body)
    (he : eof.isEnd = true) (h : (parse (body ++ [eof])).errors = []) :
    Program.Derivation .exact body (parse (body ++ [eof])).program := by
  unfold parse at h ⊢
  rw [closed_of_isEnd body he] at h ⊢
  exact derivation_of_parseFrom _ _ hb he (by simp) h

/-! ## The parser and the grammar -/

/-- The grammar assigns at most one program to a list of tokens. -/
theorem Program.Derivation.unique {ts : List Token} {p q : Program}
    (hp : Program.Derivation .exact ts p) (hq : Program.Derivation .exact ts q) : p = q := by
  have he : (Token.endOfInput .nowhere).isEnd = true := rfl
  obtain ⟨n, hn, hn'⟩ := ((hp.read he).and (hq.read he)).exists
  obtain ⟨es, hes, h⟩ := hn ts.length (Nat.le_refl _)
  obtain ⟨es', hes', h'⟩ := hn' ts.length (Nat.le_refl _)
  rw [h] at h'
  exact congrArg ParseResult.program h'

/-- Tokens of a program are parsed as it, with no error that the grammar does not allow for, unless
the nesting is too deep. -/
theorem Program.Derivation.parse {mode : Mode} {body : List Token} {p : Program}
    (h : Program.Derivation mode body p) {eof : Token} (he : eof.isEnd = true) :
    ((parse (body ++ [eof])).program = p ∧ mode.Lenient (parse (body ++ [eof])).errors) ∨
      ∃ e ∈ (parse (body ++ [eof])).errors, e.problem = .nestingTooDeep := by
  obtain ⟨n, hlarge, hn⟩ := ((h.read he).and (eventually_ge_atTop maxNesting)).exists
  obtain ⟨errors, hl, hparse⟩ := hlarge (body ++ [eof]).length (by simp)
  unfold Lox.parse
  rw [closed_of_isEnd body he]
  rcases parseFrom_below (Grammar.ofLevels_below hn) (body ++ [eof]).length (body ++ [eof]) with
    heq | hdeep
  · rw [heq, hparse]
    exact .inl ⟨rfl, hl⟩
  · exact .inr hdeep

/-- **The parser accepts its grammar.** A parse without errors gives a program that the tokens in
front of the end form, all of them; tokens that form a program are parsed as it and without an error,
unless the nesting is too deep; and they form no other program. -/
theorem parse_accepts_grammar (body : List Token) (eof : Token) (hb : NoEnd body)
    (he : eof.isEnd = true) :
    ((parse (body ++ [eof])).errors = [] →
      Program.Derivation .exact body (parse (body ++ [eof])).program) ∧
    (∀ p, Program.Derivation .exact body p →
      parse (body ++ [eof]) = ⟨p, []⟩ ∨
        ∃ e ∈ (parse (body ++ [eof])).errors, e.problem = .nestingTooDeep) ∧
    (∀ p q, Program.Derivation .exact body p → Program.Derivation .exact body q → p = q) := by
  refine ⟨fun h => ?_, fun p hp => ?_, fun p q => Program.Derivation.unique⟩
  · unfold parse at h ⊢
    rw [closed_of_isEnd body he] at h ⊢
    exact derivation_of_parseFrom _ _ hb he (by simp) h
  · rcases hp.parse he with ⟨hprogram, hl⟩ | hdeep
    · exact .inl (by rw [← hprogram, ← hl.eq_nil])
    · exact .inr hdeep

/-- The tokens of `if (a) if (b) c; else d = nil;`. -/
def danglingElse : List Token :=
  let token (kind : TokenKind) (text : String) : Token := ⟨kind, utf8 text, none, .nowhere⟩
  [token .kwIf "if", token .leftParen "(", token .identifier "a", token .rightParen ")",
   token .kwIf "if", token .leftParen "(", token .identifier "b", token .rightParen ")",
   token .identifier "c", token .semicolon ";", token .kwElse "else", token .identifier "d",
   token .equal "=", token .kwNil "nil", token .semicolon ";"]

/-- The `else` goes with the inner `if`. -/
theorem parse_accepts_danglingElse :
    NoEnd danglingElse ∧ (Token.endOfInput .nowhere).isEnd = true ∧
      Program.similar (parse (danglingElse ++ [.endOfInput .nowhere])).program
        [.ifThen (.reference ⟨utf8 "a", .nowhere⟩ none)
          (.ifElse (.reference ⟨utf8 "b", .nowhere⟩ none)
            (.expression (.reference ⟨utf8 "c", .nowhere⟩ none) .nowhere)
            (.expression (.assign ⟨utf8 "d", .nowhere⟩ none (.literal .nil .nowhere)) .nowhere)
            .nowhere) .nowhere] = true ∧
      Program.Derivation .exact danglingElse
        (parse (danglingElse ++ [.endOfInput .nowhere])).program := by
  have hb : NoEnd danglingElse := by
    unfold NoEnd
    decide
  have h := (parse_accepts_grammar danglingElse (.endOfInput .nowhere) hb rfl).1
  exact ⟨hb, rfl, by decide +kernel, h (by decide +kernel)⟩

end Lox
