import Lox.Proofs.Likeness.Parse
import Lox.Proofs.Printing.Scanning
import Mathlib.Data.List.Find

/-!
# Scanning across a line break

A line break ends every token that a source without errors can end in, and every comment. So the
tokens of two sources with a line break between them are those of the first without its end of input,
and then those of the second, moved to where it begins (`tokenize_append`). Where a text begins makes
no difference to its tokens but their locations (`readAll_moved`).
-/

namespace Lox

/-! ## One token -/

section Reading

variable {s rest : Text} {kind : TokenKind} {spelling : Text}

theorem readToken_end (h : Lexeme.ofText? (splitGap false s).2 = none) (loc : Location) :
    readToken s loc =
      ⟨.endOfInput (loc.after (splitGap false s).1), [], [], loc.after (splitGap false s).1⟩ := by
  rw [readToken]
  dsimp only
  split
  · rfl
  all_goals next h' => cases h.symm.trans h'

theorem readToken_token (h : Lexeme.ofText? (splitGap false s).2 = some (.token kind spelling, rest))
    (loc : Location) :
    readToken s loc =
      ⟨⟨kind, spelling, Lexeme.constant? kind spelling, loc.after (splitGap false s).1⟩, [], rest,
        (loc.after (splitGap false s).1).after spelling⟩ := by
  rw [readToken]
  dsimp only
  split
  · next h' => cases h.symm.trans h'
  · next h' =>
    cases h.symm.trans h'
    rfl
  all_goals next h' => cases h.symm.trans h'

theorem readToken_stray {b : UInt8} (h : Lexeme.ofText? (splitGap false s).2 = some (.stray b, rest))
    (loc : Location) :
    readToken s loc =
      let next := readToken rest ((loc.after (splitGap false s).1).step b)
      { next with
        errors := ⟨.unexpectedCharacter b, loc.after (splitGap false s).1⟩ :: next.errors } := by
  rw [readToken]
  dsimp only
  split
  · next h' => cases h.symm.trans h'
  · next h' => cases h.symm.trans h'
  · next h' =>
    cases h.symm.trans h'
    rfl
  · next h' => cases h.symm.trans h'

theorem readToken_unclosed
    (h : Lexeme.ofText? (splitGap false s).2 = some (.unclosed spelling, rest)) (loc : Location) :
    readToken s loc =
      let next := readToken rest ((loc.after (splitGap false s).1).after spelling)
      { next with
        errors := ⟨.unterminatedString, loc.after (splitGap false s).1⟩ :: next.errors } := by
  rw [readToken]
  dsimp only
  split
  · next h' => cases h.symm.trans h'
  · next h' => cases h.symm.trans h'
  · next h' => cases h.symm.trans h'
  · next h' =>
    cases h.symm.trans h'
    rfl

theorem readAll_end {loc : Location} (h : (readToken s loc).token.isEnd = true) :
    readAll s loc = (⟨[(readToken s loc).token], (readToken s loc).errors⟩, (readToken s loc).loc) := by
  rw [readAll]
  dsimp only
  split
  · rfl
  · next h' => cases h.symm.trans h'

theorem readAll_token {loc : Location} (h : (readToken s loc).token.isEnd = false) :
    readAll s loc =
      let first := readToken s loc
      let others := readAll first.rest first.loc
      (⟨first.token :: others.1.tokens, first.errors ++ others.1.errors⟩, others.2) := by
  rw [readAll]
  dsimp only
  split
  · next h' => cases h.symm.trans h'
  · rfl

end Reading

/-- Readings of the same text at two places. -/
structure Reading.Moved (r r' : Reading) : Prop where
  token : r.token.Alike r'.token
  rest : r.rest = r'.rest
  errors : r.errors.map ScanError.problem = r'.errors.map ScanError.problem

theorem readToken_moved (s : Text) (loc loc' : Location) :
    (readToken s loc).Moved (readToken s loc') := by
  fun_induction readToken s loc generalizing loc' with
  | case1 s loc gap start h =>
    rw [readToken_end h]
    exact ⟨⟨rfl, rfl, rfl⟩, rfl, rfl⟩
  | case2 s loc gap start kind spelling rest h =>
    rw [readToken_token h]
    exact ⟨⟨rfl, rfl, rfl⟩, rfl, rfl⟩
  | case3 s loc gap start b rest h next ih =>
    have hmoved := ih ((loc'.after gap.1).step b)
    rw [readToken_stray h]
    exact ⟨hmoved.token, hmoved.rest, congrArg (_ :: ·) hmoved.errors⟩
  | case4 s loc gap start spelling rest h next ih =>
    have hmoved := ih ((loc'.after gap.1).after spelling)
    rw [readToken_unclosed h]
    exact ⟨hmoved.token, hmoved.rest, congrArg (_ :: ·) hmoved.errors⟩

/-- Where a text begins makes no difference to its tokens and to what is wrong with it. -/
theorem readAll_moved (s : Text) (loc loc' : Location) :
    Token.ListAlike (readAll s loc).1.tokens (readAll s loc').1.tokens ∧
      (readAll s loc).1.errors.map ScanError.problem =
        (readAll s loc').1.errors.map ScanError.problem := by
  fun_induction readAll s loc generalizing loc' with
  | case1 s loc first h =>
    have hmoved := readToken_moved s loc loc'
    rw [readAll_end (hmoved.token.isEnd.symm.trans h)]
    exact ⟨.cons hmoved.token .nil, hmoved.errors⟩
  | case2 s loc first h others finish hothers ih =>
    have hmoved := readToken_moved s loc loc'
    obtain ⟨htokens, herrors⟩ := ih (readToken s loc').loc
    rw [hothers, show first.rest = (readToken s loc').rest from hmoved.rest] at htokens herrors
    rw [readAll_token (hmoved.token.isEnd.symm.trans h)]
    refine ⟨.cons hmoved.token htokens, ?_⟩
    rw [List.map_append, List.map_append, hmoved.errors, herrors]

/-! ## Line breaks behind lexemes -/

section LineBreak

variable (t : Text)

theorem takeWhile_lineBreak {p : UInt8 → Bool} (hp : p newline = false) (s : Text) :
    (s ++ newline :: t).takeWhile p = s.takeWhile p := by
  rw [List.takeWhile_append, List.takeWhile_cons_of_neg (by simp [hp]), List.append_nil]
  split
  · next h => exact ((List.takeWhile_prefix p).eq_of_length h).symm
  · rfl

theorem dropWhile_lineBreak {p : UInt8 → Bool} (hp : p newline = false) (s : Text) :
    (s ++ newline :: t).dropWhile p = s.dropWhile p ++ newline :: t := by
  rw [List.dropWhile_append, List.dropWhile_cons_of_neg (by simp [hp])]
  split
  · next h => rw [List.isEmpty_iff.1 h, List.nil_append]
  · rfl

theorem numeral_lineBreak (s : Text) : Lexeme.numeral (s ++ newline :: t) = Lexeme.numeral s := by
  have hdigit : isDigit newline = false := by decide
  have hpoint : (newline == ascii '.') = false := by decide
  unfold Lexeme.numeral
  rw [takeWhile_lineBreak t hdigit, dropWhile_lineBreak t hdigit]
  rcases s.dropWhile isDigit with _ | ⟨p, _ | ⟨d, rest⟩⟩
  · cases t with
    | nil => rfl
    | cons d rest => simp only [List.nil_append, hpoint, Bool.false_and, Bool.false_eq_true, if_false]
  · simp only [List.cons_append, List.nil_append, hdigit, Bool.and_false, Bool.false_eq_true, if_false]
  · simp only [List.cons_append]
    rw [← List.cons_append, takeWhile_lineBreak t hdigit]

theorem isPrefixOf_lineBreak {p : Text} (hp : newline ∉ p) (s : Text) :
    p.isPrefixOf (s ++ newline :: t) = p.isPrefixOf s := by
  induction p generalizing s with
  | nil => simp
  | cons b p ih =>
    rw [List.mem_cons, not_or] at hp
    obtain ⟨hb, hp⟩ := hp
    cases s with
    | nil => simp [List.isPrefixOf, beq_false_of_ne (Ne.symm hb)]
    | cons c s => simp only [List.cons_append, List.isPrefixOf, ih hp]

theorem symbol?_lineBreak (s : Text) : Lexeme.symbol? (s ++ newline :: t) = Lexeme.symbol? s := by
  have hsymbols : ∀ e ∈ TokenKind.symbols, newline ∉ e.1 := by decide +kernel
  exact List.find?_congr fun e he => isPrefixOf_lineBreak t (hsymbols e he) s

/-- A line break is no part of a token in front of it. -/
theorem first?_lineBreak {s : Text} {kind : TokenKind} {spelling : Text}
    (h : Lexeme.first? s = some (.token kind spelling)) :
    Lexeme.first? (s ++ newline :: t) = some (.token kind spelling) := by
  cases s with
  | nil => cases h
  | cons b rest =>
    have hnumeral := numeral_lineBreak t (b :: rest)
    have hword := @takeWhile_lineBreak t isNamePart (by decide) (b :: rest)
    have hsymbol := symbol?_lineBreak t (b :: rest)
    simp only [List.cons_append] at hnumeral hword hsymbol
    rw [List.cons_append]
    simp only [Lexeme.first?, hnumeral, hword, hsymbol] at h ⊢
    by_cases hdigit : isDigit b = true
    · rw [if_pos hdigit] at h ⊢
      exact h
    rw [if_neg hdigit] at h ⊢
    by_cases hname : isNameStart b = true
    · rw [if_pos hname] at h ⊢
      exact h
    rw [if_neg hname] at h ⊢
    by_cases hquote : (b == quote) = true
    · rw [if_pos hquote] at h ⊢
      by_cases hlt : (rest.takeWhile (· != quote)).length < rest.length
      · have hbody : (rest ++ newline :: t).takeWhile (· != quote) =
            rest.takeWhile (· != quote) := by
          rw [List.takeWhile_append, if_neg (Nat.ne_of_lt hlt)]
        rw [if_pos hlt] at h
        rw [hbody, if_pos (by rw [List.length_append]; omega)]
        exact h
      · rw [if_neg hlt] at h
        cases h
    · rw [if_neg hquote] at h ⊢
      exact h

theorem ofText?_lineBreak {s rest : Text} {kind : TokenKind} {spelling : Text}
    (h : Lexeme.ofText? s = some (.token kind spelling, rest)) :
    Lexeme.ofText? (s ++ newline :: t) = some (.token kind spelling, rest ++ newline :: t) := by
  obtain ⟨l, hl, he⟩ := Option.map_eq_some_iff.1 h
  cases he
  have hlength := (Lexeme.first?_isPrefix hl).1.length_le
  rw [Lexeme.ofText?, first?_lineBreak t hl, Option.map_some, List.drop_append_of_le_length hlength]

/-- A gap up to the end of a text goes on behind a line break, outside of comments. -/
theorem splitGap_lineBreak (comment : Bool) (s : Text) :
    splitGap comment (s ++ newline :: t) =
      if (splitGap comment s).2 = [] then (s ++ newline :: (splitGap false t).1, (splitGap false t).2)
      else ((splitGap comment s).1, (splitGap comment s).2 ++ newline :: t) := by
  fun_induction splitGap comment s with
  | case1 comment =>
    cases comment <;> rfl
  | case2 b rest gap behind hgap ih =>
    rw [List.cons_append, splitGap, ih, hgap]
    by_cases hbehind : behind = [] <;> simp only [hbehind, if_true, if_false, List.cons_append]
  | case3 b rest hblank gap behind hgap ih =>
    rw [List.cons_append, splitGap, if_pos hblank, ih, hgap]
    by_cases hbehind : behind = [] <;> simp only [hbehind, if_true, if_false, List.cons_append]
  | case4 b rest hblank hcomment gap behind hgap ih =>
    have hhead : (b == ascii '/' && (rest ++ newline :: t).head? == some (ascii '/')) = true := by
      cases rest with
      | nil => simp at hcomment
      | cons c rest => exact hcomment
    rw [List.cons_append, splitGap, if_neg hblank, if_pos hhead, ih, hgap]
    by_cases hbehind : behind = [] <;> simp only [hbehind, if_true, if_false, List.cons_append]
  | case5 b rest hblank hcomment =>
    have hhead : ¬(b == ascii '/' && (rest ++ newline :: t).head? == some (ascii '/')) = true := by
      cases rest with
      | nil =>
        have hne : (some newline == some (ascii '/')) = false := by decide
        rw [List.nil_append, List.head?_cons, hne, Bool.and_false]
        exact Bool.false_ne_true
      | cons c rest => exact hcomment
    rw [List.cons_append, splitGap, if_neg hblank, if_neg hhead, if_neg (List.cons_ne_nil _ _)]

/-! ## Line breaks behind sources -/

theorem eq_nil_of_ofText? {s : Text} (h : Lexeme.ofText? s = none) : s = [] := by
  cases s with
  | nil => rfl
  | cons b rest =>
    have hfirst := Option.map_eq_none_iff.1 h
    simp only [Lexeme.first?] at hfirst
    repeat' split at hfirst
    all_goals cases hfirst

/-- Where nothing is wrong at the front of a text, there is a token, or nothing but a gap. -/
theorem readToken_cases {s : Text} {loc : Location} (herrors : (readToken s loc).errors = []) :
    ((splitGap false s).2 = [] ∧ (readToken s loc).token.isEnd = true) ∨
      ∃ kind spelling rest, Lexeme.ofText? (splitGap false s).2 = some (.token kind spelling, rest) ∧
        (readToken s loc).token.isEnd = false := by
  cases h : Lexeme.ofText? (splitGap false s).2 with
  | none =>
    rw [readToken_end h]
    exact .inl ⟨eq_nil_of_ofText? h, rfl⟩
  | some result =>
    obtain ⟨l, rest⟩ := result
    cases l with
    | stray b =>
      rw [readToken_stray h] at herrors
      cases herrors
    | unclosed spelling =>
      rw [readToken_unclosed h] at herrors
      cases herrors
    | token kind spelling =>
      obtain ⟨l, hl, he⟩ := Option.map_eq_some_iff.1 h
      cases he
      rw [readToken_token h]
      exact .inr ⟨kind, spelling, _, rfl, beq_false_of_ne (spells_of_first? hl).ne_endOfInput⟩

/-- The first token of a text is read in front of a line break as it is at the end. -/
theorem readToken_lineBreak {s : Text} {loc : Location} (herrors : (readToken s loc).errors = [])
    (htoken : (readToken s loc).token.isEnd = false) :
    readToken (s ++ newline :: t) loc =
      { readToken s loc with rest := (readToken s loc).rest ++ newline :: t } := by
  rcases readToken_cases herrors with ⟨_, hend⟩ | ⟨kind, spelling, rest, h, _⟩
  · cases htoken.symm.trans hend
  · have hgap : (splitGap false s).2 ≠ [] := by
      intro hnil
      rw [hnil] at h
      cases h
    have hbreak := splitGap_lineBreak t false s
    rw [if_neg hgap] at hbreak
    have hlexeme : Lexeme.ofText? (splitGap false (s ++ newline :: t)).2 =
        some (.token kind spelling, rest ++ newline :: t) := by
      rw [hbreak]
      exact ofText?_lineBreak t h
    rw [readToken_token h, readToken_token hlexeme, hbreak]

/-- A text without tokens and a line break behind it are passed over. -/
theorem readToken_lineBreak_gap {s : Text} (hgap : (splitGap false s).2 = []) (loc : Location) :
    readToken (s ++ newline :: t) loc = readToken t ((loc.after s).step newline) := by
  have hbreak := splitGap_lineBreak t false s
  rw [if_pos hgap] at hbreak
  rw [readToken.eq_def (s ++ newline :: t), readToken.eq_def t, hbreak]
  dsimp only
  rw [Location.after_append, Location.after_cons]

/-- A source without errors is read in front of a line break as it is at the end, and reading goes on
behind the line break. -/
theorem scans_lineBreak {s : Text} {loc : Location} (herrors : (readAll s loc).1.errors = []) :
    ∃ us finish, (readAll s loc).1.tokens = us ++ [Token.endOfInput finish] ∧
      ∃ loc', Scans (s ++ newline :: t) loc us t loc' := by
  fun_induction readAll s loc with
  | case1 s loc first h =>
    rcases readToken_cases herrors with ⟨hgap, _⟩ | ⟨_, _, _, _, hend⟩
    · have hnone : Lexeme.ofText? (splitGap false s).2 = none := by rw [hgap]; rfl
      refine ⟨[], loc.after (splitGap false s).1, ?_, (loc.after s).step newline, ?_⟩
      · show [(readToken s loc).token] = _
        rw [readToken_end hnone]
        rfl
      · unfold Scans
        rw [List.nil_append, readAll.eq_def (s ++ newline :: t), readAll.eq_def t,
          readToken_lineBreak_gap t hgap]
    · cases hend.symm.trans h
  | case2 s loc first h others finish hothers ih =>
    obtain ⟨hfirst, hrest⟩ := List.append_eq_nil_iff.1 herrors
    rw [hothers] at ih
    obtain ⟨us, finish', htokens, loc', hscan⟩ := ih hrest
    have hread := readToken_lineBreak t hfirst h
    refine ⟨first.token :: us, finish', congrArg (_ :: ·) htokens, loc', ?_⟩
    unfold Scans at hscan ⊢
    have hall := @readAll_token (s ++ newline :: t) loc (by rw [hread]; exact h)
    rw [hall, hread]
    dsimp only
    rw [hscan, show (readToken s loc).errors = [] from hfirst]
    rfl

end LineBreak

/-- The end of the input is the last token and no other. -/
theorem readAll_ended (s : Text) (loc : Location) :
    ∃ us eof, (readAll s loc).1.tokens = us ++ [eof] ∧ NoEnd us ∧ eof.isEnd = true := by
  fun_induction readAll s loc with
  | case1 s loc first h => exact ⟨[], first.token, rfl, noEnd_nil, h⟩
  | case2 s loc first h others finish hothers ih =>
    obtain ⟨us, eof, htokens, hus, heof⟩ := ih
    rw [hothers] at htokens
    exact ⟨first.token :: us, eof, congrArg (_ :: ·) htokens, noEnd_cons.2 ⟨h, hus⟩, heof⟩

/-- **Scanning across a line break.** If nothing is wrong with two sources, nothing is wrong with the
one that has a line break between them, and its tokens are those of the first without the end of its
input, and then those of the second at other places. -/
theorem tokenize_append {a b : Text} (ha : (tokenize a).errors = []) (hb : (tokenize b).errors = []) :
    ∃ us eof vs eof', NoEnd us ∧ eof.isEnd = true ∧ NoEnd vs ∧ eof'.isEnd = true ∧
      (tokenize a).tokens = us ++ [eof] ∧ Token.ListAlike (tokenize b).tokens (vs ++ [eof']) ∧
        tokenize (a ++ newline :: b) = ⟨us ++ (vs ++ [eof']), []⟩ := by
  obtain ⟨us, finish, htokens, loc, hscan⟩ := scans_lineBreak b ha
  obtain ⟨us', eof, htokens', hus, heof⟩ := readAll_ended a .start
  obtain ⟨rfl, _⟩ := List.append_inj' (htokens.symm.trans htokens') rfl
  obtain ⟨vs, eof', hvs', hvs, heof'⟩ := readAll_ended b loc
  obtain ⟨hmoved, herrors⟩ := readAll_moved b .start loc
  have hnone : (readAll b loc).1.errors = [] := by
    rw [tokenize] at hb
    rw [hb] at herrors
    exact List.map_eq_nil_iff.1 herrors.symm
  rw [hvs'] at hmoved
  refine ⟨us, eof, vs, eof', hus, heof, hvs, heof', htokens', hmoved, ?_⟩
  unfold Scans at hscan
  rw [tokenize, hscan, hnone, hvs']

end Lox
