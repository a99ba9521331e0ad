import Lox.Proofs.Printing.Statement

/-!
# Programs are read back

The program that the parser returned, whatever was wrong with the source, is read back from its text:
without errors in the tokens, with no other errors in the program than for too many arguments or
parameters, and as the same program but for locations and numbers that were read again. The only other
thing that can happen is that the nesting is too deep, because loops with `for` are written as blocks.
-/

namespace Lox

/-- A number of a source is read again from its literal. -/
theorem tokenize_literal (t : Text) :
    tokenize (Number.ofNumeral t).literal =
      ⟨[⟨.number, (Number.ofNumeral t).literal, some (.number (Number.ofNumeral t).reread), .start⟩,
        .endOfInput (Location.start.after (Number.ofNumeral t).literal)], []⟩ := by
  have hscan := scans_token (t := []) (.numeral (Number.numeral_literal_ofNumeral t)) nofun .start
  rw [List.append_nil] at hscan
  exact hscan.tokenize_eq

/-- The tokens of a program that the parser returned are tokens of the source. -/
theorem spelled_of_derivation {source : Text} {us : List Token} {mode : Mode} {p : Program}
    (h : Program.Derivation mode us p) (hs : us.Sublist (closed (tokenize source).tokens)) :
    ∀ t ∈ us, t.Spelled := by
  intro t ht
  have hend : t.isEnd = false := h.noEnd t ht
  have hspelled : t.isEnd = true ∨ t.Spelled := by
    rcases mem_of_mem_closed (hs.subset ht) with hmem | heof
    · exact spelled_tokenize source t hmem
    · exact .inl heof
  exact hspelled.resolve_left (by rw [hend]; exact Bool.false_ne_true)

/-- **A program is read back from its text.** -/
theorem Program.Derivation.rereads {mode : Mode} {us : List Token} {p : Program}
    (h : Program.Derivation mode us p) (hs : ∀ t ∈ us, t.Spelled) :
    ReadsAs p.text Anything p.Rereading := by
  cases h with
  | mk hd => exact reads_lines (rereads_flatMap (fun d hd' => (hd d hd').rereads) hs) 0

/-- **A printed program is read back.** Whatever the source, the text of the program that the parser
returns for it is read as tokens without an error. Unless the nesting is too deep, they are parsed
without errors other than for too many arguments or parameters, and the program they form is the same
one, but for locations, distances and numbers that were read again from their literals. -/
theorem parse_tokenize_text (source : Text) :
    let p : Program := (parse (tokenize source).tokens).program
    let parsed := parse (tokenize p.text).tokens
    (tokenize p.text).errors = [] ∧
      ((∀ e ∈ parsed.errors, e.problem ≠ .nestingTooDeep) →
        (∀ e ∈ parsed.errors, e.problem = .tooManyArguments ∨ e.problem = .tooManyParameters) ∧
          parsed.program.outline id = p.outline Number.reread) := by
  intro p parsed
  obtain ⟨us, hsub, hd⟩ := parseFrom_tolerant maxNesting (tokenize source).tokens.length
    (closed (tokenize source).tokens)
  have hreads : ReadsAs p.text Anything p.Rereading :=
    hd.rereads (spelled_of_derivation hd hsub)
  obtain ⟨vs, loc, ⟨p', hd', houtline⟩, hscan⟩ := hreads [] .start trivial
  rw [List.append_nil] at hscan
  have hparsed : parsed = parse (vs ++ [.endOfInput loc]) := by
    show parse (tokenize p.text).tokens = _
    rw [hscan.tokenize_eq]
  refine ⟨by rw [hscan.tokenize_eq], fun hdepth => ?_⟩
  rw [hparsed] at hdepth ⊢
  have hend : (Token.endOfInput loc).isEnd = true := rfl
  rcases hd'.parse hend with ⟨hprogram, hlenient⟩ | ⟨e, he, hdeep⟩
  · exact ⟨fun e he => (hlenient e he).2, by rw [hprogram, houtline]⟩
  · exact absurd hdeep (hdepth e he)

/-- A source with a loop, a branch and mistakes both in its tokens and in its statements. -/
def flawedLoop : Text :=
  utf8 "for (var i = 0; i < 2.50; i = i + 1) if (!-i) print \"a\"; else f(i)(); @ var = 3;"

/-- The mistakes are passed over, and what is left is read back. -/
theorem parse_tokenize_text_flawedLoop :
    (tokenize flawedLoop).errors.length = 1 ∧ (parse (tokenize flawedLoop).tokens).errors.length = 1 ∧
      let p : Program := (parse (tokenize flawedLoop).tokens).program
      let parsed := parse (tokenize p.text).tokens
      p.length = 1 ∧ (∀ e ∈ parsed.errors, e.problem ≠ .nestingTooDeep) ∧
        parsed.program.outline id = p.outline Number.reread := by
  have hdepth : ∀ e ∈ (parse (tokenize (Program.text
      (parse (tokenize flawedLoop).tokens).program)).tokens).errors,
      e.problem ≠ .nestingTooDeep := by decide +kernel
  exact ⟨by decide +kernel, by decide +kernel, by decide +kernel, hdepth,
    ((parse_tokenize_text flawedLoop).2 hdepth).2⟩

end Lox
