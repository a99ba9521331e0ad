import Lox.Proofs.Likeness.Grammar
import Lox.Proofs.Printing.Kinds
import Lox.Proofs.Split.Scanning

/-!
# What is accepted after printing

A source without loops with `for` that is parsed without an error is still parsed without one when its
program was printed, for the parser sees no difference: its text has the tokens of the source, kind by
kind. A loop with `for` is printed as blocks and a loop with `while`, and these nest deeper than it did.
So with such loops the nesting of the text may be too deep; nothing else can be wrong with it
(`parse_text_accepted`).
-/

namespace Lox

/-! ## Tokens of the same kinds -/

/-- Whether an expression is a bare name. -/
def Expr.isName : Expr → Bool
  | .reference _ _ => true
  | _ => false

/-- Tokens of one kind that both stand for a value, or neither does. Of the trees nothing matters but
whether an expression can be assigned to. -/
def Grammar.Likeness.kinds : Grammar.Likeness where
  rel t t' := t.kind = t'.kind ∧ t.value?.isSome = t'.value?.isSome
  kind h := h.1
  endOfInput _ _ := ⟨rfl, rfl⟩
  name _ _ := True
  expr e e' := e.isName = e'.isName
  stmt _ _ := True
  named _ := trivial
  value {t t'} h := by
    have hsome := h.2
    revert hsome
    cases t.value? <;> cases t'.value? <;> simp [Expr.isName]
  reference _ := rfl
  grouping _ _ _ := rfl
  unary _ _ := rfl
  join tier _ _ _ := by cases tier <;> rfl
  call _ _ _ _ := rfl
  assignment {e e' _ _} he _ := by
    revert he
    cases e <;> cases e' <;> simp [Expr.isName, Expr.assignment?]
  var _ _ := trivial
  function _ _ _ := trivial
  expression _ _ _ := trivial
  print _ _ _ := trivial
  returnStmt _ _ _ := trivial
  block _ _ _ := trivial
  ifThen _ _ _ _ := trivial
  ifElse _ _ _ _ _ := trivial
  whileLoop _ _ _ _ := trivial
  forLoop _ _ _ _ _ _ := trivial

/-- Spelled tokens of one kind both stand for a value, or neither does. -/
theorem Token.Spelled.matches {t t' : Token} (h : t.Spelled) (h' : t'.Spelled)
    (hk : t.kind = t'.kind) : Grammar.Likeness.kinds.rel t t' := by
  have hsome {u : Token} (hu : u.Spelled) :
      u.value?.isSome = [TokenKind.kwFalse, .kwTrue, .kwNil, .number, .string].contains u.kind := by
    obtain ⟨kind, lexeme, constant, loc⟩ := u
    obtain ⟨hs, hc⟩ := hu
    dsimp only at hs hc
    subst hc
    cases kind <;> rfl
  exact ⟨hk, by rw [hsome h, hsome h', hk]⟩

/-- Lists of spelled tokens of the same kinds are parsed with the same problems. -/
theorem parse_of_kinds {us vs : List Token} (hus : ∀ t ∈ us, t.Spelled) (hvs : ∀ t ∈ vs, t.Spelled)
    (h : vs.map Token.kind = us.map Token.kind) {eof eof' : Token} (heof : eof.isEnd = true)
    (heof' : eof'.isEnd = true) :
    (parse (us ++ [eof])).errors.map ParseError.problem =
      (parse (vs ++ [eof'])).errors.map ParseError.problem := by
  have hrows : Grammar.Likeness.kinds.Rows us vs := by
    induction us generalizing vs with
    | nil =>
      rw [List.map_nil, List.map_eq_nil_iff] at h
      rw [h]
      exact .nil
    | cons u us ih =>
      obtain ⟨v, vs, rfl, hv, hrest⟩ := List.map_eq_cons_iff.1 h
      obtain ⟨hu, hus⟩ := List.forall_mem_cons.1 hus
      obtain ⟨hv', hvs⟩ := List.forall_mem_cons.1 hvs
      exact .cons (hu.matches hv' hv.symm) (ih hus hvs hrest)
  have hend : Grammar.Likeness.kinds.rel eof eof' := by
    have hk : eof.kind = .endOfInput := beq_iff_eq.1 heof
    have hk' : eof'.kind = .endOfInput := beq_iff_eq.1 heof'
    exact ⟨hk.trans hk'.symm, by rw [Token.value?, Token.value?, hk, hk']⟩
  exact (parse_matches .kinds (List.rel_append hrows (.cons hend .nil))).errors

/-! ## Printed programs -/

/-- The tokens of a source without its end. -/
theorem tokenize_ended (source : Text) : ∃ us eof, (tokenize source).tokens = us ++ [eof] ∧
    NoEnd us ∧ eof.isEnd = true ∧ ∀ t ∈ us, t.Spelled := by
  obtain ⟨us, eof, htokens, hus, heof⟩ := readAll_ended source .start
  refine ⟨us, eof, htokens, hus, heof, fun t ht => ?_⟩
  refine (spelled_tokenize source t ?_).resolve_left (by simp [hus t ht])
  rw [tokenize, htokens]
  exact List.mem_append_left _ ht

/-- The text of a program is read without an error, and parsed with the problems of tokens that form the
program. These are the tokens that it was parsed from, if there is no loop with `for` among them. -/
theorem Program.Derivation.exists_tokens {mode : Mode} {ts : List Token} {p : Program}
    (h : Program.Derivation mode ts p) (hs : ∀ t ∈ ts, t.Spelled) :
    (tokenize p.text).errors = [] ∧ ∃ us, Program.Derivation mode us p ∧
      ((∀ t ∈ ts, t.kind ≠ .kwFor) → us = ts) ∧ ∀ eof : Token, eof.isEnd = true →
        (Lox.parse (tokenize p.text).tokens).errors.map ParseError.problem =
          (Lox.parse (us ++ [eof])).errors.map ParseError.problem := by
  obtain ⟨us, hd, hus, hreads, hsame⟩ := h.writtenOut hs
  obtain ⟨vs, loc, hkinds, hscan⟩ := hreads [] .start trivial
  rw [List.append_nil] at hscan
  have htokens := hscan.tokenize_eq
  refine ⟨by rw [htokens], us, hd, hsame, fun eof heof => ?_⟩
  obtain ⟨vs', eof', htokens', _, heof', hvs⟩ := tokenize_ended p.text
  have heq : vs ++ [Token.endOfInput loc] = vs' ++ [eof'] := by rw [← htokens', htokens]
  obtain ⟨rfl, _⟩ := List.append_inj' heq rfl
  rw [htokens']
  exact (parse_of_kinds hus hvs hkinds heof heof').symm

/-- **What is accepted after printing.** The text of a program that was parsed without an error is read
as tokens without one. They are parsed without an error too, unless the nesting is too deep; and that it
can only be if there is a loop with `for` in the source. -/
theorem parse_text_accepted (source : Text) (hok : (parse (tokenize source).tokens).errors = []) :
    let p : Program := (parse (tokenize source).tokens).program
    let parsed := parse (tokenize p.text).tokens
    (tokenize p.text).errors = [] ∧
      (parsed.errors = [] ∨ ∃ e ∈ parsed.errors, e.problem = .nestingTooDeep) ∧
        ((∀ t ∈ (tokenize source).tokens, t.kind ≠ .kwFor) → parsed.errors = []) := by
  intro p parsed
  obtain ⟨ts, eof, htokens, hts, heof, hspelled⟩ := tokenize_ended source
  rw [htokens] at hok
  have hd : Program.Derivation .exact ts p := by
    have h := derivation_of_parse hts heof hok
    rwa [← htokens] at h
  obtain ⟨hscan, us, hd', hsame, hproblems⟩ := hd.exists_tokens hspelled
  have hnone {es : List ParseError} (h : parsed.errors.map ParseError.problem = es.map ParseError.problem)
      (hes : es = []) : parsed.errors = [] := by
    rwa [hes, List.map_nil, List.map_eq_nil_iff] at h
  refine ⟨hscan, ?_, fun hno => ?_⟩
  · rcases hd'.parse heof with ⟨_, hlenient⟩ | ⟨e, he, hdeep⟩
    · exact .inl (hnone (hproblems eof heof) hlenient.eq_nil)
    · have hmem : ParseProblem.nestingTooDeep ∈ parsed.errors.map ParseError.problem := by
        rw [hproblems eof heof, ← hdeep]
        exact List.mem_map_of_mem he
      obtain ⟨e', he', hdeep'⟩ := List.mem_map.1 hmem
      exact .inr ⟨e', he', hdeep'⟩
  · rw [htokens] at hno
    rw [hsame fun t ht => hno t (List.mem_append_left _ ht)] at hproblems
    exact hnone (hproblems eof heof) hok

/-- A source with every kind of nesting but loops with `for`. -/
def plainSource : Text :=
  utf8 "fun f(x) \x7b if (!-x) return (x + 2.50) * 3; else while (x) x = \"a\"; \x7d f(nil)(1, 2);"

/-- Nothing is wrong with it after printing. -/
theorem parse_text_accepted_plainSource :
    (parse (tokenize plainSource).tokens).errors = [] ∧
      (∀ t ∈ (tokenize plainSource).tokens, t.kind ≠ .kwFor) ∧
        (parse (tokenize plainSource).tokens).program.length = 2 ∧
          (parse (tokenize (Program.text
            (parse (tokenize plainSource).tokens).program)).tokens).errors = [] := by
  have hok : (parse (tokenize plainSource).tokens).errors = [] := by decide +kernel
  have hno : ∀ t ∈ (tokenize plainSource).tokens, t.kind ≠ .kwFor := by decide +kernel
  exact ⟨hok, hno, by decide +kernel, (parse_text_accepted plainSource hok).2.2 hno⟩

/-- A loop with 253 signs in front of the last name of its step. -/
def steepLoop : Text :=
  utf8 "for (;;" ++ List.replicate 253 (ascii '!') ++ utf8 "a) b;"

/-- The loop is accepted, and its text is not. -/
theorem parse_text_rejected :
    (tokenize steepLoop).errors = [] ∧ (parse (tokenize steepLoop).tokens).errors = [] ∧
      (parse (tokenize (Program.text (parse (tokenize steepLoop).tokens).program)).tokens).errors.map
        ParseError.problem = [.nestingTooDeep] := by
  exact ⟨by decide +kernel, by decide +kernel, by decide +kernel⟩

end Lox
