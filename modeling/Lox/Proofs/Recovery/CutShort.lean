import Lox.Proofs.Recovery.Swap
import Lox.Proofs.Split.Isolation

/-!
# Where nesting too deep ends the parse

Nesting too deep is the one error after which nothing more is parsed. A parse that meets it is the parse
of the declarations before, and then the errors of the one that it is in, of which it is the last
(`parse_cut_short`). The tokens behind the one at which it is noticed have no part in that.

A parse is followed as declarations in a row (`Rounds`), each parsed or passed over. Other tokens
can be put behind them, if the first token there is the same or the end of the input.
-/

namespace Lox

open Lox.Parser

variable {n : Nat} {ts mid rest v v' : List Token} {program : Program} {errors : List ParseError}

/-! ## One round -/

theorem parseFrom_of_end {G : Grammar} (hts : headKind ts = .endOfInput) (rounds : Nat) :
    parseFrom G rounds ts = ⟨[], []⟩ := by
  cases rounds with
  | zero => rfl
  | succ rounds =>
    have hend : (ts.headD (.endOfInput .nowhere)).isEnd = true := beq_iff_eq.2 hts
    rw [parseFrom, if_pos hend]

section Round

variable {G : Grammar} (hts : headKind ts ≠ .endOfInput)
include hts

theorem parseFrom_of_ok {o : Option Stmt} (h : declaration G ts = ⟨.ok o, mid, errors⟩)
    (rounds : Nat) : parseFrom G (rounds + 1) ts =
      ⟨o.toList ++ (parseFrom G rounds mid).program, errors ++ (parseFrom G rounds mid).errors⟩ := by
  have hend : ¬ (ts.headD (.endOfInput .nowhere)).isEnd = true := fun hend => hts (beq_iff_eq.1 hend)
  rw [parseFrom, if_neg hend, h]

theorem parseFrom_of_error {e : ParseError} (h : declaration G ts = ⟨.error e, rest, errors⟩)
    (rounds : Nat) : parseFrom G (rounds + 1) ts = ⟨[], errors ++ [e]⟩ := by
  have hend : ¬ (ts.headD (.endOfInput .nowhere)).isEnd = true := fun hend => hts (beq_iff_eq.1 hend)
  rw [parseFrom, if_neg hend, h]

theorem exists_of_declaration {o : Option Stmt}
    (h : declaration (Grammar.ofLevels n) ts = ⟨.ok o, mid, errors⟩) :
    ∃ us, us ≠ [] ∧ NoEnd us ∧ ts = us ++ mid := by
  obtain ⟨us, hus, hend⟩ := (Grammar.frugal_ofLevels n).declaration.takes ts
  rw [h] at hus
  refine ⟨us, ?_, hend, hus⟩
  rintro rfl
  cases ts with
  | nil => exact hts rfl
  | cons t ts =>
    have hlen := (suffix_of_declaration (beq_false_of_ne hts) h).length_le
    rw [← show t :: ts = mid from hus, List.length_cons] at hlen
    omega

end Round

/-- A declaration fails for good only where the nesting is too deep. -/
theorem problem_of_declaration {G : Grammar} {e : ParseError}
    (h : declaration G ts = ⟨.error e, rest, errors⟩) : e.problem = .nestingTooDeep := by
  unfold declaration recovering at h
  split at h
  · cases h
  · split at h
    · next hfinal =>
      cases h
      exact beq_iff_eq.1 hfinal
    · cases h

/-! ## Declarations in a row -/

/-- Declarations in a row, each parsed or passed over: the tokens that they begin at, the statements and
the errors that they come to, and the tokens behind them. -/
inductive Rounds (G : Grammar) : List Token → Program → List ParseError → List Token → Prop
  | none (ts : List Token) : Rounds G ts [] [] ts
  | cons {ts mid rest : List Token} {o : Option Stmt} {program : Program}
      {errors errors' : List ParseError} : headKind ts ≠ .endOfInput →
      declaration G ts = ⟨.ok o, mid, errors⟩ → Rounds G mid program errors' rest →
      Rounds G ts (o.toList ++ program) (errors ++ errors') rest

/-- The parse of tokens that begin with declarations in a row goes on behind them. -/
theorem Rounds.parseFrom_eq (h : Rounds (Grammar.ofLevels n) ts program errors rest) :
    ∃ count, count + rest.length ≤ ts.length ∧ ∀ rounds,
      parseFrom (Grammar.ofLevels n) (count + rounds) ts =
        ⟨program ++ (parseFrom (Grammar.ofLevels n) rounds rest).program,
          errors ++ (parseFrom (Grammar.ofLevels n) rounds rest).errors⟩ := by
  induction h with
  | none ts => exact ⟨0, by simp, fun rounds => by simp⟩
  | @cons ts mid rest o program errors errors' hts hd _ ih =>
    obtain ⟨count, hcount, hparse⟩ := ih
    obtain ⟨us, hne, _, rfl⟩ := exists_of_declaration hts hd
    have hpos := List.length_pos_of_ne_nil hne
    refine ⟨count + 1, by rw [List.length_append]; omega, fun rounds => ?_⟩
    rw [Nat.add_right_comm, parseFrom_of_ok hts hd, hparse, List.append_assoc, List.append_assoc]

/-- Declarations do not fail for good. -/
theorem Rounds.goesOn (h : Rounds (Grammar.ofLevels n) ts program errors rest) :
    ∀ e ∈ errors, e.isFinal = false := by
  induction h with
  | none => exact fun _ he => nomatch he
  | cons _ hd _ ih =>
    intro e he
    rcases List.mem_append.1 he with he | he
    · exact (Grammar.frugal_ofLevels n).declaration.goesOn _ e (by rwa [hd])
    · exact ih e he

/-- **Other tokens behind declarations.** Declarations in a row come to the same in front of other
tokens, if a declaration swaps the ones for the others. -/
theorem Rounds.swap (hswap : Swaps v v' (declaration (Grammar.ofLevels n)))
    (h : Rounds (Grammar.ofLevels n) ts program errors v) :
    ∃ us, ts = us ++ v ∧ NoEnd us ∧
      Rounds (Grammar.ofLevels n) (us ++ v') program errors v' := by
  generalize hv : v = rest at h
  induction h with
  | none ts =>
    subst hv
    exact ⟨[], rfl, noEnd_nil, .none v'⟩
  | @cons ts mid rest o program errors errors' hts hd _ ih =>
    obtain ⟨us, hmid, hend, hrest⟩ := ih hv
    obtain ⟨taken, hne, hend', rfl⟩ := exists_of_declaration hts hd
    subst hmid hv
    have hd' : declaration (Grammar.ofLevels n) (taken ++ (us ++ v')) = ⟨.ok o, us ++ v', errors⟩ := by
      rw [← List.append_assoc] at hd ⊢
      by_cases hus : us = []
      · subst hus
        exact hswap.swaps _ o errors hd
      · have hlooks := hswap.frugal.looks (taken ++ us) us v v' hus (by rw [hd])
        rwa [hd] at hlooks
    refine ⟨taken ++ us, (List.append_assoc ..).symm, noEnd_append.2 ⟨hend', hend⟩, ?_⟩
    rw [List.append_assoc]
    refine .cons ?_ hd' hrest
    obtain ⟨t, taken, rfl⟩ := List.exists_cons_of_ne_nil hne
    exact beq_eq_false_iff_ne.1 (noEnd_cons.1 hend').1

theorem Parser.Frugal.swaps_refl {α : Type} {p : Parser α} (h : Frugal p) : Swaps v v p :=
  ⟨h, fun _ _ _ hrun => hrun⟩

/-- What stands behind the first token left has no influence. -/
theorem Parser.Frugal.looks_cons {α : Type} {p : Parser α} (h : Frugal p) (us ws : List Token)
    {x : List Token} {t : Token} (x' : List Token) (hrest : (p (us ++ t :: x)).rest = ws ++ t :: x) :
    p (us ++ t :: x') = ⟨(p (us ++ t :: x)).result, ws ++ t :: x', (p (us ++ t :: x)).errors⟩ := by
  simpa using h.looks (us ++ [t]) (ws ++ [t]) x x' (by simp) (by simpa using hrest)

theorem Parser.Frugal.swaps_cons {α : Type} {p : Parser α} (h : Frugal p) (w : List Token)
    (t : Token) (x x' : List Token) : Swaps (w ++ t :: x) (w ++ t :: x') p := by
  refine ⟨h, fun us a errors hrun => ?_⟩
  rw [← List.append_assoc] at hrun ⊢
  have hlooks := h.looks_cons (us ++ w) w x' (congrArg Parsed.rest hrun)
  rwa [hrun] at hlooks

/-! ## The end of a parse -/

/-- A parse goes on to its end, or a declaration fails for good. -/
theorem parseFrom_cases (n rounds : Nat) (ts : List Token) :
    (∀ e ∈ (parseFrom (Grammar.ofLevels n) rounds ts).errors, e.isFinal = false) ∨
    ∃ program reported rest e left errors,
      Rounds (Grammar.ofLevels n) ts program reported rest ∧ headKind rest ≠ .endOfInput ∧
      declaration (Grammar.ofLevels n) rest = ⟨.error e, left, errors⟩ ∧
      parseFrom (Grammar.ofLevels n) rounds ts = ⟨program, reported ++ errors ++ [e]⟩ := by
  induction rounds generalizing ts with
  | zero => exact .inl fun _ he => nomatch he
  | succ rounds ih =>
    by_cases hts : headKind ts = .endOfInput
    · rw [parseFrom_of_end hts]
      exact .inl fun _ he => nomatch he
    · rcases hd : declaration (Grammar.ofLevels n) ts with ⟨e | o, mid, es⟩
      · exact .inr ⟨[], [], ts, e, mid, es, .none ts, hts, hd, parseFrom_of_error hts hd rounds⟩
      · have hgoes := (Grammar.frugal_ofLevels n).declaration.goesOn ts
        rw [hd] at hgoes
        rw [parseFrom_of_ok hts hd]
        rcases ih mid with hok | ⟨program, reported, rest, e, left, errors, hrow, hrest, hfail, heq⟩
        · refine .inl fun e he => ?_
          rcases List.mem_append.1 he with he | he
          · exact hgoes e he
          · exact hok e he
        · refine .inr ⟨_, _, rest, e, left, errors, .cons hts hd hrow, hrest, hfail, ?_⟩
          simp only [heq, List.append_assoc]

/-- The parse of the tokens ends for good in the declaration that begins at index `q`: it has reported
`errors` when it fails with `e` at index `o`. -/
structure CutShort (ts : List Token) (q o : Nat) (errors : List ParseError) (e : ParseError) :
    Prop where
  begins : ∃ program reported,
    Rounds (Grammar.ofLevels maxNesting) (closed ts) program reported ((closed ts).drop q)
  goesOn : headKind ((closed ts).drop q) ≠ .endOfInput
  fails : declaration (Grammar.ofLevels maxNesting) ((closed ts).drop q) =
    ⟨.error e, (closed ts).drop o, errors⟩

theorem Rounds.parse_eq (h : Rounds (Grammar.ofLevels maxNesting) (closed ts) program errors rest)
    (hrest : headKind rest ≠ .endOfInput) {e : ParseError} {errors' : List ParseError}
    (hfail : declaration (Grammar.ofLevels maxNesting) rest = ⟨.error e, mid, errors'⟩) :
    parse ts = ⟨program, errors ++ errors' ++ [e]⟩ := by
  obtain ⟨count, hcount, hparse⟩ := h.parseFrom_eq
  rw [parse_eq_parseFrom (count + (ts.length + 1)) ?_, hparse, parseFrom_of_error hrest hfail,
    List.append_nil, List.append_assoc]
  have := closed_length_le ts
  omega

theorem Rounds.parse_eq_of_end
    (h : Rounds (Grammar.ofLevels maxNesting) (closed ts) program errors rest)
    (hrest : headKind rest = .endOfInput) : parse ts = ⟨program, errors⟩ := by
  obtain ⟨count, hcount, hparse⟩ := h.parseFrom_eq
  rw [parse_eq_parseFrom (count + (ts.length + 1)) ?_, hparse, parseFrom_of_end hrest,
    List.append_nil, List.append_nil]
  have := closed_length_le ts
  omega

namespace CutShort

variable {q o : Nat} {e : ParseError}

/-- The tokens in front of the declaration, those that it takes, the offending token and those behind
that one. -/
theorem parts (h : CutShort ts q o errors e) : ∃ before during behind program reported,
    closed ts = before ++ (during ++ e.found :: behind) ∧ NoEnd before ∧
    before.length = q ∧ q + during.length = o ∧
    Rounds (Grammar.ofLevels maxNesting) (closed ts) program reported (during ++ e.found :: behind) ∧
    headKind (during ++ e.found :: behind) ≠ .endOfInput ∧
    declaration (Grammar.ofLevels maxNesting) (during ++ e.found :: behind) =
      ⟨.error e, e.found :: behind, errors⟩ := by
  obtain ⟨⟨program, reported, hrow⟩, hhead, hfail⟩ := h
  have hfrugal := (Grammar.frugal_ofLevels maxNesting).declaration
  obtain ⟨before, hbefore, hend, _⟩ := hrow.swap (hfrugal.swaps_refl)
  obtain ⟨during, hduring, hend'⟩ := hfrugal.takes ((closed ts).drop q)
  have hfound := hfrugal.found ((closed ts).drop q) e (by rw [hfail])
  rw [hfail] at hduring hfound
  have hne : (closed ts).drop q ≠ [] := fun hnil => hhead (by rw [hnil, headKind_nil])
  -- The end of the input is among the tokens left, so there is an offending one.
  have hleft : (closed ts).drop o ≠ [] := by
    intro hnil
    simp only [hnil, List.append_nil] at hduring
    have hlast := (ended_closed ts).suffix (List.drop_suffix q _) _
      (List.getLast?_eq_getLast_of_ne_nil hne)
    rw [hend' _ (hduring ▸ List.getLast_mem hne)] at hlast
    cases hlast
  obtain ⟨t, behind, hbehind⟩ := List.exists_cons_of_ne_nil hleft
  have hlen := congrArg List.length hduring
  have hlen' := congrArg List.length hbefore
  simp only [List.length_append, List.length_drop] at hlen hlen'
  have hq : q < (closed ts).length := by simpa using hne
  have ho : o < (closed ts).length := by simpa using hleft
  simp only [hbehind] at hduring hfound hfail
  rw [List.headD_cons] at hfound
  subst hfound
  rw [hduring] at hbefore hrow hhead hfail
  exact ⟨before, during, behind, program, reported, hbefore, hend, by omega, by omega, hrow, hhead,
    hfail⟩

/-- The tokens in front of the declaration, on their own, come to what they come to here. -/
theorem parse_eq (h : CutShort ts q o errors e) : parse ts =
    ⟨(parse (ts.take q)).program, (parse (ts.take q)).errors ++ errors ++ [e]⟩ := by
  obtain ⟨before, during, behind, program, reported, hclosed, hend, rfl, _, hrow, hhead, hfail⟩ :=
    h.parts
  have hbefore : ts.take before.length = before := by
    rcases closed_eq ts with ⟨hts, _, _⟩ | ⟨eof, _, hts⟩
    · rw [← hts, hclosed, List.take_left]
    · have hle : before.length ≤ ts.length := by
        have hlen := congrArg List.length (hclosed.symm.trans hts)
        simp only [List.length_append, List.length_cons, List.length_nil] at hlen
        omega
      have htake : (ts ++ [eof]).take before.length = ts.take before.length :=
        List.take_append_of_le_length hle
      rw [← htake, ← hts, hclosed, List.take_left]
  obtain ⟨eof, heof, hbeforeClosed⟩ := exists_closed_eq hend
  have hkind : headKind [eof] = .endOfInput := beq_iff_eq.1 heof
  obtain ⟨us, hus, _, hrow'⟩ := hrow.swap (Grammar.swaps_declaration hhead hkind maxNesting)
  obtain rfl : us = before := List.append_cancel_right (hus.symm.trans hclosed)
  rw [← hbeforeClosed] at hrow'
  rw [hbefore, hrow'.parse_eq_of_end hkind, hrow.parse_eq hhead hfail]

/-- The tokens behind the offending one have no influence. -/
theorem parse_congr (h : CutShort ts q o errors e) {us : List Token}
    (hus : (closed us).take (o + 1) = (closed ts).take (o + 1)) : parse us = parse ts := by
  obtain ⟨before, during, behind, program, reported, hclosed, _, rfl, rfl, hrow, hhead, hfail⟩ :=
    h.parts
  have hfrugal := (Grammar.frugal_ofLevels maxNesting).declaration
  obtain ⟨behind', hclosed'⟩ : ∃ behind', closed us = before ++ (during ++ e.found :: behind') := by
    refine ⟨(closed us).drop (before.length + during.length + 1), ?_⟩
    conv_lhs => rw [← List.take_append_drop (before.length + during.length + 1) (closed us), hus,
      hclosed, List.append_cons during, ← List.append_assoc]
    rw [List.take_left' (by simp; omega)]
    simp
  obtain ⟨before', hbefore', _, hrow'⟩ := hrow.swap (hfrugal.swaps_cons during e.found behind behind')
  obtain rfl : before' = before := List.append_cancel_right (hbefore'.symm.trans hclosed)
  have hfail' := hfrugal.looks_cons during [] behind' (by rw [hfail]; rfl)
  rw [hfail] at hfail'
  rw [← hclosed'] at hrow'
  have hhead' : headKind (during ++ e.found :: behind') ≠ .endOfInput := by
    cases during <;> exact hhead
  rw [hrow'.parse_eq hhead' hfail', hrow.parse_eq hhead hfail]

end CutShort

/-- An error that the nesting is too deep is the last one, and cuts the parse short. -/
theorem exists_cutShort {e : ParseError} (he : e ∈ (parse ts).errors)
    (hdeep : e.problem = .nestingTooDeep) : ∃ others q o errors,
      (parse ts).errors = others ++ [e] ∧ (∀ e' ∈ others, e'.problem ≠ .nestingTooDeep) ∧
      CutShort ts q o errors e := by
  have hfrugal := (Grammar.frugal_ofLevels maxNesting).declaration
  have goesOn {es : List ParseError} (h : ∀ e ∈ es, e.isFinal = false) :
      ∀ e ∈ es, e.problem ≠ .nestingTooDeep := fun e he => beq_eq_false_iff_ne.1 (h e he)
  rcases parseFrom_cases maxNesting ts.length (closed ts) with
    hok | ⟨program, reported, rest, e', left, errors, hrow, hhead, hfail, heq⟩
  · exact absurd hdeep (goesOn hok e he)
  · have hreported := goesOn hrow.goesOn
    have herrors := goesOn (hfrugal.goesOn rest)
    rw [hfail] at herrors
    have hothers : ∀ e' ∈ reported ++ errors, e'.problem ≠ .nestingTooDeep := fun e' he' =>
      (List.mem_append.1 he').elim (hreported e') (herrors e')
    have hparse : (parse ts).errors = reported ++ errors ++ [e'] := congrArg ParseResult.errors heq
    obtain rfl : e = e' := by
      rw [hparse] at he
      rcases List.mem_append.1 he with he | he
      · exact absurd hdeep (hothers e he)
      · exact List.mem_singleton.1 he
    obtain ⟨before, hbefore, _, _⟩ := hrow.swap hfrugal.swaps_refl
    obtain ⟨during, hduring, _⟩ := hfrugal.takes rest
    rw [hfail] at hduring
    have hrest : (closed ts).drop before.length = rest := by rw [hbefore, List.drop_left]
    have hleft : (closed ts).drop (before.length + during.length) = left := by
      rw [← List.drop_drop, hrest, hduring, List.drop_left]
    exact ⟨_, before.length, before.length + during.length, errors, hparse, hothers,
      ⟨program, reported, by rwa [hrest]⟩, by rwa [hrest], by rw [hrest, hleft, hfail]⟩

/-- **Nesting too deep ends the parse.** At most one error is that the nesting is too deep, and it is
the last one: the parse is cut short in the declaration that begins at some index `q`, at the token of
some index `o`. Then it is the parse of the first `q` tokens on their own, with the errors of that
declaration behind theirs, and it is the same for all tokens that begin alike, the offending one
included. -/
theorem parse_cut_short (ts : List Token) :
    (∀ e ∈ (parse ts).errors, e.problem = .nestingTooDeep →
      ∃ others q o errors, (parse ts).errors = others ++ [e] ∧
        (∀ e' ∈ others, e'.problem ≠ .nestingTooDeep) ∧ CutShort ts q o errors e) ∧
    ∀ q o errors e, CutShort ts q o errors e →
      e.problem = .nestingTooDeep ∧ q ≤ o ∧ (closed ts)[o]? = some e.found ∧
      parse ts = ⟨(parse (ts.take q)).program, (parse (ts.take q)).errors ++ errors ++ [e]⟩ ∧
      ∀ us, (closed us).take (o + 1) = (closed ts).take (o + 1) → parse us = parse ts := by
  refine ⟨fun e he hdeep => exists_cutShort he hdeep, fun q o errors e h => ?_⟩
  obtain ⟨before, during, behind, _, _, hclosed, _, hq, ho, _⟩ := h.parts
  refine ⟨problem_of_declaration h.fails, by omega, ?_, h.parse_eq, fun us hus => h.parse_congr hus⟩
  rw [hclosed, ← List.append_assoc, List.getElem?_append_right (by simp; omega)]
  rw [List.length_append, show o - (before.length + during.length) = 0 by omega]
  rfl

/-- The tokens of `a;` and of as many opening parentheses as there are levels. -/
def parenthesesOpen : List Token :=
  let token (kind : TokenKind) (text : String) : Token := ⟨kind, utf8 text, none, .nowhere⟩
  [token .identifier "a", token .semicolon ";"] ++
    List.replicate maxNesting (token .leftParen "(")

/-- The last parenthesis is one too many, for the statement is a level too. It does not matter what
stands behind it. -/
theorem parse_cut_short_parentheses :
    let e : ParseError := ⟨.nestingTooDeep, ⟨.leftParen, utf8 "(", none, .nowhere⟩⟩
    let ts := parenthesesOpen ++ [⟨.semicolon, utf8 ";", none, .nowhere⟩]
    let us := parenthesesOpen ++ [⟨.kwPrint, utf8 "print", none, .nowhere⟩]
    e ∈ (parse ts).errors ∧ e.problem = .nestingTooDeep ∧ ∃ q o errors, CutShort ts q o errors e ∧
      parse ts = ⟨(parse (ts.take q)).program, (parse (ts.take q)).errors ++ errors ++ [e]⟩ ∧
      (closed us).take (o + 1) = (closed ts).take (o + 1) ∧ parse us = parse ts := by
  intro e ts us
  have he : e ∈ (parse ts).errors := by decide +kernel
  obtain ⟨_, q, o, errors, _, _, hcut⟩ := (parse_cut_short ts).1 e he rfl
  obtain ⟨_, _, hfound, hparse, hcongr⟩ := (parse_cut_short ts).2 q o errors e hcut
  have hclosed (t : Token) (ht : t.isEnd = false) : closed (parenthesesOpen ++ [t]) =
      parenthesesOpen ++ [t, .endOfInput t.loc] := by
    simp [closed, ht]
  rw [hclosed _ rfl] at hfound
  have ho : o < parenthesesOpen.length := by
    by_contra hle
    rw [List.getElem?_append_right (Nat.le_of_not_lt hle)] at hfound
    exact absurd (List.mem_of_getElem? hfound) (by decide)
  have hus : (closed us).take (o + 1) = (closed ts).take (o + 1) := by
    rw [hclosed _ rfl, hclosed _ rfl, List.take_append_of_le_length ho,
      List.take_append_of_le_length ho]
  exact ⟨he, rfl, q, o, errors, hcut, hparse, hus, hcongr us hus⟩

end Lox
