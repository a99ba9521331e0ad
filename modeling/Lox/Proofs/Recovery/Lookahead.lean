import Lox.Proofs.Split.Parsing

/-!
# One token of look-ahead

A parser decides by the next token alone, and the token it decides by is the one that it takes or the
first one that it leaves. `Parser.Frugal` says what follows of a single run, whether it succeeds or
fails: tokens behind the first one that is left have no influence, and an error that ends the run is at
that token. There is one lemma for each way of building parsers, and so all parsers of the grammar are
frugal (`Grammar.frugal_ofLevels`).
-/

namespace Lox

namespace Parser

variable {α β : Type}

/-- The parser takes tokens from the front, none of them the end of the input, and the tokens behind the
first one that it leaves have no influence. The errors that it goes on after are not final, and an error
that it fails with is at the first token that it leaves. -/
structure Frugal (p : Parser α) : Prop where
  takes : ∀ ts, ∃ taken, ts = taken ++ (p ts).rest ∧ NoEnd taken
  looks : ∀ us ws v v', ws ≠ [] → (p (us ++ v)).rest = ws ++ v →
    p (us ++ v') = ⟨(p (us ++ v)).result, ws ++ v', (p (us ++ v)).errors⟩
  goesOn : ∀ ts, ∀ e ∈ (p ts).errors, e.isFinal = false
  found : ∀ ts e, (p ts).result = .error e → e.found = (p ts).rest.headD (.endOfInput .nowhere)

/-! ## Runs in a row -/

section Runs

variable {p : Parser α} {f : α → Parser β} {ts rest : List Token} {errors : List ParseError}

theorem bind_of_ok {a : α} (h : p ts = ⟨.ok a, rest, errors⟩) :
    (p >>= f) ts = ⟨(f a rest).result, (f a rest).rest, errors ++ (f a rest).errors⟩ := by
  rw [bind_apply, andThen, h]

theorem bind_of_error {e : ParseError} (h : p ts = ⟨.error e, rest, errors⟩) :
    (p >>= f) ts = ⟨.error e, rest, errors⟩ := by
  rw [bind_apply, andThen, h]

/-- Parsers that do the same, each where the one before has ended. -/
theorem bind_congr_at {q : Parser α} {g : α → Parser β} (hpq : p ts = q ts)
    (h : ∀ a rest errors, q ts = ⟨.ok a, rest, errors⟩ → f a rest = g a rest) :
    (p >>= f) ts = (q >>= g) ts := by
  rcases hq : q ts with ⟨e | a, rest, errors⟩
  · rw [bind_of_error (hpq.trans hq), bind_of_error hq]
  · rw [bind_of_ok (hpq.trans hq), bind_of_ok hq, h a rest errors hq]

theorem Frugal.suffix (h : Frugal p) (ts : List Token) : (p ts).rest <:+ ts := by
  obtain ⟨taken, hts, _⟩ := h.takes ts
  exact ⟨taken, hts.symm⟩

/-- A run that leaves as many tokens as were there behind some of them has not taken those. -/
theorem Frugal.length_le (h : Frugal p) {us v ws : List Token} (hrest : (p (us ++ v)).rest = ws ++ v) :
    ws.length ≤ us.length := by
  have hle := (h.suffix (us ++ v)).length_le
  rw [hrest, List.length_append, List.length_append] at hle
  omega

theorem Frugal.bind (hp : Frugal p) (hf : ∀ a, Frugal (f a)) : Frugal (p >>= f) where
  takes ts := by
    obtain ⟨taken, hts, hend⟩ := hp.takes ts
    rcases h : p ts with ⟨e | a, rest, errors⟩
    · rw [h] at hts
      rw [bind_of_error h]
      exact ⟨taken, hts, hend⟩
    · rw [h] at hts
      obtain ⟨taken', hrest, hend'⟩ := (hf a).takes rest
      rw [bind_of_ok h]
      refine ⟨taken ++ taken', ?_, noEnd_append.2 ⟨hend, hend'⟩⟩
      rw [List.append_assoc, ← hrest]
      exact hts
  looks us ws v v' hne hrest := by
    rcases h : p (us ++ v) with ⟨e | a, mid, errors⟩
    · rw [bind_of_error h] at hrest ⊢
      have hlooks := hp.looks us ws v v' hne (by rw [h]; exact hrest)
      rw [h] at hlooks
      exact bind_of_error hlooks
    · rw [bind_of_ok h] at hrest ⊢
      obtain ⟨taken, hmid, _⟩ := (hf a).takes mid
      have hmid : mid = (taken ++ ws) ++ v := by
        rw [List.append_assoc, ← show (f a mid).rest = ws ++ v from hrest]
        exact hmid
      subst hmid
      have hlooks := hp.looks us (taken ++ ws) v v' (by simp [hne]) (by rw [h])
      rw [h] at hlooks
      rw [bind_of_ok hlooks, (hf a).looks (taken ++ ws) ws v v' hne hrest]
  goesOn ts e he := by
    rcases h : p ts with ⟨e' | a, rest, errors⟩
    · rw [bind_of_error h] at he
      exact hp.goesOn ts e (by rwa [h])
    · rw [bind_of_ok h] at he
      rcases List.mem_append.1 he with he | he
      · exact hp.goesOn ts e (by rwa [h])
      · exact (hf a).goesOn rest e he
  found ts e he := by
    rcases h : p ts with ⟨e' | a, rest, errors⟩
    · rw [bind_of_error h] at he ⊢
      obtain rfl : e' = e := Except.error.inj he
      have hfound := hp.found ts e' (by rw [h])
      rwa [h] at hfound
    · rw [bind_of_ok h] at he ⊢
      exact (hf a).found rest e he

end Runs

/-! ## Single steps -/

theorem frugal_pure (a : α) : Frugal (pure a) where
  takes ts := ⟨[], rfl, noEnd_nil⟩
  looks us ws v v' _ hrest := by
    obtain rfl : us = ws := List.append_cancel_right hrest
    rfl
  goesOn _ _ he := nomatch he
  found _ _ he := nomatch he

theorem frugal_fail (problem : ParseProblem) : Frugal (fail problem : Parser α) where
  takes ts := ⟨[], rfl, noEnd_nil⟩
  looks us ws v v' hne hrest := by
    obtain rfl : us = ws := List.append_cancel_right hrest
    cases us with
    | nil => exact absurd rfl hne
    | cons t us => rfl
  goesOn _ _ he := nomatch he
  found ts e he := by
    cases he
    rfl

theorem frugal_report {problem : ParseProblem} (h : problem ≠ .nestingTooDeep) (found : Token) :
    Frugal (report problem found) where
  takes ts := ⟨[], rfl, noEnd_nil⟩
  looks us ws v v' _ hrest := by
    obtain rfl : us = ws := List.append_cancel_right hrest
    rfl
  goesOn ts e he := by
    obtain rfl := List.mem_singleton.1 he
    exact beq_false_of_ne h
  found _ _ he := nomatch he

theorem frugal_peek : Frugal peek where
  takes ts := ⟨[], rfl, noEnd_nil⟩
  looks us ws v v' hne hrest := by
    obtain rfl : us = ws := List.append_cancel_right hrest
    cases us with
    | nil => exact absurd rfl hne
    | cons t us => rfl
  goesOn _ _ he := nomatch he
  found _ _ he := nomatch he

theorem frugal_check (kind : TokenKind) : Frugal (check kind) :=
  frugal_peek.bind fun _ => frugal_pure _

theorem Frugal.map {p : Parser α} (h : Frugal p) (f : α → β) : Frugal (f <$> p) :=
  h.bind fun _ => frugal_pure _

theorem Frugal.ite {c : Prop} [Decidable c] {p q : Parser α} (hp : Frugal p) (hq : Frugal q) :
    Frugal (if c then p else q) := by
  split
  · exact hp
  · exact hq

theorem peek_bind {f : Token → Parser α} {t : Token} {p : Parser α} (hp : f t = p)
    (ts : List Token) : (peek >>= f) (t :: ts) = p (t :: ts) := by
  rw [← hp]
  rfl

/-- Where the next token is looked at and taken, the run is one of the parser that goes on behind it. -/
theorem peek_skip {f : Token → Parser α} {t : Token} {g : Unit → Parser α} (hg : f t = skip >>= g)
    (ts : List Token) : (peek >>= f) (t :: ts) = g () ts := by
  have hskip : skip (t :: ts) = ⟨.ok (), ts, []⟩ := rfl
  rw [peek_bind hg, bind_of_ok hskip]
  rfl

/-- A parser that looks at the next token and may take it, unless it is the end of the input. -/
theorem frugal_dispatch {f : Token → Parser α}
    (h : ∀ t, Frugal (f t) ∨
      t.isEnd = false ∧ ∃ g : Unit → Parser α, f t = skip >>= g ∧ Frugal (g ())) :
    Frugal (peek >>= f) := by
  have hend : Frugal (f (.endOfInput .nowhere)) := (h _).resolve_right fun hne => nomatch hne.1
  have takes (ts : List Token) : ∃ taken, ts = taken ++ ((peek >>= f) ts).rest ∧ NoEnd taken := by
    cases ts with
    | nil => exact hend.takes []
    | cons t ts =>
      rcases h t with hf | ⟨ht, g, hg, hf⟩
      · exact hf.takes (t :: ts)
      · obtain ⟨us, hts, hus⟩ := hf.takes ts
        rw [peek_skip hg]
        exact ⟨t :: us, congrArg (t :: ·) hts, noEnd_cons.2 ⟨ht, hus⟩⟩
  refine ⟨takes, fun us ws v v' hne hrest => ?_, fun ts => ?_, fun ts => ?_⟩
  · cases us with
    | nil =>
      obtain ⟨taken, hts, _⟩ := takes v
      rw [show ((peek >>= f) v).rest = ws ++ v from hrest] at hts
      have hlen := congrArg List.length hts
      rw [List.length_append, List.length_append] at hlen
      exact absurd (List.length_eq_zero_iff.1 (by omega)) hne
    | cons t us =>
      rcases h t with hf | ⟨_, g, hg, hf⟩
      · exact hf.looks (t :: us) ws v v' hne hrest
      · rw [List.cons_append, peek_skip hg] at hrest ⊢
        rw [List.cons_append, peek_skip hg]
        exact hf.looks us ws v v' hne hrest
  · cases ts with
    | nil => exact hend.goesOn []
    | cons t ts =>
      rcases h t with hf | ⟨_, g, hg, hf⟩
      · exact hf.goesOn (t :: ts)
      · rw [peek_skip hg]
        exact hf.goesOn ts
  · cases ts with
    | nil => exact hend.found []
    | cons t ts =>
      rcases h t with hf | ⟨_, g, hg, hf⟩
      · exact hf.found (t :: ts)
      · rw [peek_skip hg]
        exact hf.found ts

/-! ## Optional tokens -/

section Tokens

variable {kinds : List TokenKind} (hend : .endOfInput ∉ kinds)
include hend

theorem frugal_acceptOne : Frugal (acceptOne kinds) := by
  refine frugal_dispatch fun t => ?_
  by_cases h : t.kind ∈ kinds
  · exact .inr ⟨Token.isEnd_of_mem h hend, _, if_pos (List.contains_iff_mem.2 h), frugal_pure _⟩
  · rw [if_neg fun hc => h (List.contains_iff_mem.1 hc)]
    exact .inl (frugal_pure _)

theorem frugal_choice {f : Option Token → Parser α} (hsome : ∀ t, Frugal (f (some t)))
    (hnone : Frugal (f none)) : Frugal (acceptOne kinds >>= f) :=
  (frugal_acceptOne hend).bind fun o => match o with
    | some t => hsome t
    | none => hnone

end Tokens

theorem frugal_expect (what : Expectation) : Frugal (expect what) :=
  frugal_choice (by cases what <;> decide) (fun t => frugal_pure t) (frugal_fail _)

theorem Frugal.unlessNext {p : Parser α} (h : Frugal p) (stop : TokenKind) :
    Frugal (unlessNext stop p) :=
  (frugal_check stop).bind fun _ => .ite (frugal_pure _) (h.bind fun _ => frugal_pure _)

theorem Frugal.behind {p : Parser α} (h : Frugal p) {kind : TokenKind} (hend : .endOfInput ≠ kind) :
    Frugal (behind kind p) :=
  frugal_choice (by simpa using hend) (fun _ => h.bind fun _ => frugal_pure _) (frugal_pure _)

/-! ## Lists -/

section Lists

variable {excess : ParseProblem} {item : Parser α}

/-- Rounds are only counted. -/
theorem frugal_of_rounds {p : Parser α} {q : Nat → Parser α} (hq : ∀ rounds, Frugal (q rounds))
    (h : ∀ ts rounds, ts.length < rounds → p ts = q rounds ts) : Frugal p := by
  have heq (ts : List Token) : p ts = q (ts.length + 1) ts := h ts _ (Nat.lt_succ_self _)
  refine ⟨fun ts => ?_, fun us ws v v' hne hrest => ?_, fun ts => ?_, fun ts => ?_⟩
  · rw [heq]
    exact (hq _).takes ts
  · have hboth (w : List Token) (hw : w = v ∨ w = v') :
        p (us ++ w) = q (us.length + v.length + v'.length + 1) (us ++ w) := by
      refine h _ _ ?_
      rw [List.length_append]
      rcases hw with rfl | rfl <;> omega
    rw [hboth v (.inl rfl)] at hrest ⊢
    rw [hboth v' (.inr rfl)]
    exact (hq _).looks us ws v v' hne hrest
  · rw [heq]
    exact (hq _).goesOn ts
  · rw [heq]
    exact (hq _).found ts

theorem frugal_commaSeparatedFrom (hx : excess ≠ .nestingTooDeep) (hi : Frugal item) (rounds : Nat) :
    ∀ count, Frugal (commaSeparatedFrom excess item rounds count) := by
  induction rounds with
  | zero => exact fun _ => frugal_pure _
  | succ rounds ih =>
    intro count
    have hcount : Frugal (checkCount excess count) :=
      .ite (frugal_peek.bind fun _ => frugal_report hx _) (frugal_pure _)
    exact hcount.bind fun _ => hi.bind fun first => frugal_choice (by decide)
      (fun _ => (ih (count + 1)).bind fun _ => frugal_pure _) (frugal_pure _)

/-- There is a comma in front of every item but the first, so there are rounds enough. -/
theorem commaSeparatedFrom_rounds (hi : Frugal item) (rounds : Nat) :
    ∀ (rounds' count : Nat) (ts : List Token), ts.length < rounds → ts.length < rounds' →
      commaSeparatedFrom excess item rounds count ts =
        commaSeparatedFrom excess item rounds' count ts := by
  induction rounds with
  | zero => exact fun _ _ _ h => absurd h (Nat.not_lt_zero _)
  | succ rounds ih =>
    intro rounds' count ts h h'
    obtain ⟨rounds', rfl⟩ : ∃ n, rounds' = n + 1 := ⟨rounds' - 1, by omega⟩
    refine bind_congr_at rfl fun _ mid es hcount => bind_congr_at rfl fun first rest es' hitem =>
      bind_congr_at rfl fun o rest' es'' ho => ?_
    have hmid : mid = ts := by
      unfold checkCount at hcount
      split at hcount <;> cases hcount <;> rfl
    have hrest := (hi.suffix mid).length_le
    rw [hitem, hmid] at hrest
    cases o with
    | none => rfl
    | some t =>
      have haccept : Gives .tolerant (accept .comma) (Accepts [.comma]) := gives_acceptOne (by decide)
      obtain ⟨hcomma, _⟩ := haccept.result _ _ _ _ ho nofun
      rw [hcomma, List.length_cons] at hrest
      exact bind_congr_at (ih rounds' (count + 1) rest' (by omega) (by omega)) fun _ _ _ _ => rfl

theorem Frugal.commaSeparated (hi : Frugal item) (hx : excess ≠ .nestingTooDeep) :
    Frugal (commaSeparated excess item) :=
  frugal_of_rounds (fun rounds => frugal_commaSeparatedFrom hx hi rounds 0) fun ts _ h =>
    (bind_of_ok (p := remaining) rfl).trans
      (commaSeparatedFrom_rounds hi _ _ 0 ts (Nat.lt_succ_self _) h)

theorem frugal_manyUntilFrom (stop : TokenKind) {item : Parser (Option α)} (hi : Frugal item)
    (rounds : Nat) : Frugal (manyUntilFrom stop item rounds) := by
  induction rounds with
  | zero => exact frugal_pure _
  | succ rounds ih =>
    exact frugal_peek.bind fun _ => .ite (frugal_pure _)
      (hi.bind fun _ => ih.bind fun _ => frugal_pure _)

/-- A parser that takes a token wherever it succeeds before the end of the input. -/
def Progresses (p : Parser α) : Prop :=
  ∀ t ts a rest errors, t.isEnd = false → p (t :: ts) = ⟨.ok a, rest, errors⟩ → rest <:+ ts

/-- Each item takes a token, so there are rounds enough. -/
theorem manyUntilFrom_rounds (stop : TokenKind) {item : Parser (Option α)} (hi : Progresses item)
    (rounds : Nat) : ∀ (rounds' : Nat) (ts : List Token), ts.length ≤ rounds → ts.length ≤ rounds' →
      manyUntilFrom stop item rounds ts = manyUntilFrom stop item rounds' ts := by
  have hnil (rounds : Nat) : manyUntilFrom stop item rounds [] = ⟨.ok [], [], []⟩ := by
    cases rounds with
    | zero => rfl
    | succ rounds =>
      refine (bind_of_ok (p := peek) rfl).trans ?_
      rw [if_pos (by simp [Token.isEnd, Token.endOfInput])]
      rfl
  induction rounds with
  | zero =>
    intro rounds' ts h _
    rw [List.length_eq_zero_iff.1 (Nat.le_zero.1 h), hnil, hnil]
  | succ rounds ih =>
    intro rounds' ts h h'
    cases ts with
    | nil => rw [hnil, hnil]
    | cons t ts =>
      obtain ⟨rounds', rfl⟩ : ∃ n, rounds' = n + 1 :=
        ⟨rounds' - 1, by rw [List.length_cons] at h'; omega⟩
      refine bind_congr_at rfl fun u us es hpeek => ?_
      obtain ⟨rfl, rfl⟩ : t = u ∧ t :: ts = us := by
        cases hpeek
        exact ⟨rfl, rfl⟩
      split
      · rfl
      · next hstop =>
        refine bind_congr_at rfl fun first rest es' hitem => ?_
        have hlen := (hi t ts first rest es' (by simp at hstop; exact hstop.2) hitem).length_le
        rw [List.length_cons] at h h'
        exact bind_congr_at (ih rounds' rest (by omega) (by omega)) fun _ _ _ _ => rfl

theorem Frugal.manyUntil {item : Parser (Option α)} (hi : Frugal item) (hstep : Progresses item)
    (stop : TokenKind) : Frugal (manyUntil stop item) :=
  frugal_of_rounds (frugal_manyUntilFrom stop hi) fun ts _ h =>
    (bind_of_ok (p := remaining) rfl).trans
      (manyUntilFrom_rounds stop hstep _ _ ts (Nat.le_refl _) (Nat.le_of_lt h))

end Lists

/-! ## Recovery -/

theorem resumeAfter_takes (last : Token) (ts : List Token) :
    ∃ taken, ts = taken ++ resumeAfter last ts ∧ NoEnd taken := by
  induction ts generalizing last with
  | nil => exact ⟨[], rfl, noEnd_nil⟩
  | cons t ts ih =>
    rw [resumeAfter]
    split
    · exact ⟨[], rfl, noEnd_nil⟩
    · next h =>
      obtain ⟨taken, hts, hend⟩ := ih t
      simp only [Bool.or_eq_true, not_or, Bool.not_eq_true] at h
      exact ⟨t :: taken, congrArg (t :: ·) hts, noEnd_cons.2 ⟨h.1.1, hend⟩⟩

theorem resume_takes (ts : List Token) : ∃ taken, ts = taken ++ resume ts ∧ NoEnd taken := by
  cases ts with
  | nil => exact ⟨[], rfl, noEnd_nil⟩
  | cons t ts =>
    rw [resume]
    split
    · exact ⟨[], rfl, noEnd_nil⟩
    · next h =>
      obtain ⟨taken, hts, hend⟩ := resumeAfter_takes t ts
      exact ⟨t :: taken, congrArg (t :: ·) hts, noEnd_cons.2 ⟨Bool.eq_false_iff.2 h, hend⟩⟩

/-- Where the parser resumes at a token, what stands behind that token has no influence. -/
theorem resumeAfter_looks {last : Token} {us ws v : List Token} (v' : List Token) (hne : ws ≠ [])
    (h : resumeAfter last (us ++ v) = ws ++ v) : resumeAfter last (us ++ v') = ws ++ v' := by
  induction us generalizing last with
  | nil =>
    have hle := (resumeAfter_suffix last v).length_le
    rw [show resumeAfter last v = ws ++ v from h, List.length_append] at hle
    exact absurd (List.length_eq_zero_iff.1 (by omega)) hne
  | cons t us ih =>
    rw [List.cons_append, resumeAfter] at h ⊢
    split at h
    · next hstop =>
      obtain rfl : t :: us = ws := List.append_cancel_right h
      exact if_pos hstop
    · next hstop =>
      rw [if_neg hstop]
      exact ih h

theorem resume_looks {us ws v : List Token} (v' : List Token) (hne : ws ≠ [])
    (h : resume (us ++ v) = ws ++ v) : resume (us ++ v') = ws ++ v' := by
  cases us with
  | nil =>
    have hle := (resume_suffix v).length_le
    rw [show resume v = ws ++ v from h, List.length_append] at hle
    exact absurd (List.length_eq_zero_iff.1 (by omega)) hne
  | cons t us =>
    rw [List.cons_append, resume] at h ⊢
    split at h
    · next hend =>
      obtain rfl : t :: us = ws := List.append_cancel_right h
      exact if_pos hend
    · next hend =>
      rw [if_neg hend]
      exact resumeAfter_looks v' hne h

section Recovering

variable {p : Parser α} {ts rest : List Token} {errors : List ParseError}

theorem recovering_of_ok {a : α} (h : p ts = ⟨.ok a, rest, errors⟩) :
    recovering p ts = ⟨.ok (some a), rest, errors⟩ := by
  rw [recovering, h]

theorem recovering_of_final {e : ParseError} (h : p ts = ⟨.error e, rest, errors⟩)
    (he : e.isFinal = true) : recovering p ts = ⟨.error e, rest, errors⟩ := by
  rw [recovering, h]
  exact if_pos he

theorem recovering_of_error {e : ParseError} (h : p ts = ⟨.error e, rest, errors⟩)
    (he : e.isFinal = false) : recovering p ts = ⟨.ok none, resume rest, errors ++ [e]⟩ := by
  rw [recovering, h]
  exact if_neg (by simp [he])

end Recovering

theorem Frugal.recovering {p : Parser α} (h : Frugal p) : Frugal p.recovering where
  takes ts := by
    obtain ⟨taken, hts, hend⟩ := h.takes ts
    rcases hp : p ts with ⟨e | a, rest, errors⟩
    · rw [hp] at hts
      cases he : e.isFinal with
      | true =>
        rw [recovering_of_final hp he]
        exact ⟨taken, hts, hend⟩
      | false =>
        rw [recovering_of_error hp he]
        obtain ⟨lost, hrest, hend'⟩ := resume_takes rest
        refine ⟨taken ++ lost, ?_, noEnd_append.2 ⟨hend, hend'⟩⟩
        rw [List.append_assoc, ← hrest]
        exact hts
    · rw [hp] at hts
      rw [recovering_of_ok hp]
      exact ⟨taken, hts, hend⟩
  looks us ws v v' hne hrest := by
    rcases hp : p (us ++ v) with ⟨e | a, rest, errors⟩
    · cases he : e.isFinal with
      | true =>
        rw [recovering_of_final hp he] at hrest ⊢
        have hlooks := h.looks us ws v v' hne (by rw [hp]; exact hrest)
        rw [hp] at hlooks
        exact recovering_of_final hlooks he
      | false =>
        rw [recovering_of_error hp he] at hrest ⊢
        obtain ⟨lost, hlost, _⟩ := resume_takes rest
        have hlost : rest = (lost ++ ws) ++ v := by
          rw [List.append_assoc, ← show resume rest = ws ++ v from hrest]
          exact hlost
        subst hlost
        have hlooks := h.looks us (lost ++ ws) v v' (by simp [hne]) (by rw [hp])
        rw [hp] at hlooks
        rw [recovering_of_error hlooks he, resume_looks v' hne hrest]
    · rw [recovering_of_ok hp] at hrest ⊢
      have hlooks := h.looks us ws v v' hne (by rw [hp]; exact hrest)
      rw [hp] at hlooks
      exact recovering_of_ok hlooks
  goesOn ts e he := by
    have hgoes := h.goesOn ts
    rcases hp : p ts with ⟨e' | a, rest, errors⟩
    · rw [hp] at hgoes
      cases he' : e'.isFinal with
      | true =>
        rw [recovering_of_final hp he'] at he
        exact hgoes e he
      | false =>
        rw [recovering_of_error hp he'] at he
        rcases List.mem_append.1 he with he | he
        · exact hgoes e he
        · rwa [List.mem_singleton.1 he]
    · rw [hp] at hgoes
      rw [recovering_of_ok hp] at he
      exact hgoes e he
  found ts e he := by
    rcases hp : p ts with ⟨e' | a, rest, errors⟩
    · cases he' : e'.isFinal with
      | true =>
        rw [recovering_of_final hp he'] at he ⊢
        obtain rfl : e' = e := Except.error.inj he
        have hfound := h.found ts e' (by rw [hp])
        rwa [hp] at hfound
      | false =>
        rw [recovering_of_error hp he'] at he
        cases he
    · rw [recovering_of_ok hp] at he
      cases he

end Parser

/-! ## The grammar -/

namespace Grammar

/-- Every parser of the grammar is frugal. -/
structure Frugal (G : Grammar) : Prop where
  assignment : G.assignment.Frugal
  operand : ∀ tiers, (G.operand tiers).Frugal
  chain : ∀ tier tighter left, (G.chain tier tighter left).Frugal
  unary : G.unary.Frugal
  calls : ∀ callee, (G.calls callee).Frugal
  arguments : G.arguments.Frugal
  statement : G.statement.Frugal
  function : G.function.Frugal

open Lox.Parser

theorem frugal_tooDeep : tooDeep.Frugal :=
  ⟨frugal_fail _, fun _ => frugal_fail _, fun _ _ _ => frugal_fail _, frugal_fail _,
    fun _ => frugal_fail _, frugal_fail _, frugal_fail _, frugal_fail _⟩

theorem frugal_parameters : parameters.Frugal :=
  (frugal_check _).bind fun _ => .ite (frugal_pure _)
    (((frugal_expect _).map Token.named).commaSeparated (by decide))

namespace Frugal

variable {G : Grammar} (h : G.Frugal)
include h

/-! ### Expressions -/

theorem primary : (Parser.primary G).Frugal := by
  refine frugal_dispatch fun t => ?_
  split
  case h_7 hk =>
    refine .inr ⟨Token.isEnd_of_kind hk (by decide), _, rfl, ?_⟩
    exact h.assignment.bind fun _ => (frugal_expect _).bind fun _ => frugal_pure _
  case h_8 => exact .inl (frugal_fail _)
  all_goals
    exact .inr ⟨Token.isEnd_of_kind ‹t.kind = _› (by decide), _, rfl, frugal_pure _⟩

theorem arguments_above : (Parser.arguments G).Frugal :=
  (frugal_check _).bind fun _ => .ite (frugal_pure _) (h.assignment.commaSeparated (by decide))

theorem calls_above (callee : Expr) : (Parser.calls G callee).Frugal :=
  frugal_choice (by decide)
    (fun _ => h.arguments.bind fun _ => (frugal_expect _).bind fun _ => h.calls _) (frugal_pure _)

theorem unary_above : (Parser.unary G).Frugal :=
  frugal_choice (by decide) (fun _ => h.unary.bind fun _ => frugal_pure _)
    (h.primary.bind fun _ => h.calls_above _)

theorem chain_above (tier : Tier) (tighter : List Tier) (left : Expr) :
    (Parser.chain G tier tighter left).Frugal :=
  frugal_choice (by cases tier <;> decide)
    (fun _ => (h.operand tighter).bind fun _ => h.chain _ _ _) (frugal_pure _)

theorem operand_above : ∀ tiers, (Parser.operand G tiers).Frugal
  | [] => h.unary_above
  | tier :: tighter => (operand_above tighter).bind fun _ => h.chain_above tier tighter _

theorem assignment_above : (Parser.assignment G).Frugal := by
  refine (h.operand_above _).bind fun target =>
    frugal_choice (by decide) (fun eq => ?_) (frugal_pure _)
  refine h.assignment.bind fun value => ?_
  split
  · exact frugal_pure _
  · exact (frugal_report (by decide) _).bind fun _ => frugal_pure _

/-! ### Statements -/

theorem varDeclaration : (Parser.varDeclaration G).Frugal :=
  (frugal_expect _).bind fun _ => (h.assignment.behind (by decide)).bind fun _ =>
    (frugal_expect _).bind fun _ => frugal_pure _

theorem expressionStatement : (Parser.expressionStatement G).Frugal :=
  frugal_peek.bind fun _ => h.assignment.bind fun _ => (frugal_expect _).bind fun _ => frugal_pure _

theorem printStatement (loc : Location) : (Parser.printStatement G loc).Frugal :=
  h.assignment.bind fun _ => (frugal_expect _).bind fun _ => frugal_pure _

theorem ifStatement (loc : Location) : (Parser.ifStatement G loc).Frugal :=
  (frugal_expect _).bind fun _ => h.assignment.bind fun _ => (frugal_expect _).bind fun _ =>
    h.statement.bind fun _ => frugal_choice (by decide)
      (fun _ => h.statement.bind fun _ => frugal_pure _) (frugal_pure _)

theorem whileStatement (loc : Location) : (Parser.whileStatement G loc).Frugal :=
  (frugal_expect _).bind fun _ => h.assignment.bind fun _ => (frugal_expect _).bind fun _ =>
    h.statement.bind fun _ => frugal_pure _

theorem forInitializer : (Parser.forInitializer G).Frugal :=
  frugal_choice (by decide) (fun _ => frugal_pure _)
    (frugal_choice (by decide) (fun _ => h.varDeclaration.map some) (h.expressionStatement.map some))

theorem forCondition : (Parser.forCondition G).Frugal :=
  (h.assignment.unlessNext _).bind fun _ => (frugal_expect _).bind fun _ => frugal_pure _

theorem forStep : (Parser.forStep G).Frugal :=
  frugal_peek.bind fun _ => (h.assignment.unlessNext _).bind fun _ =>
    (frugal_expect _).bind fun _ => frugal_pure _

theorem forStatement (loc : Location) : (Parser.forStatement G loc).Frugal :=
  (frugal_expect _).bind fun _ => h.forInitializer.bind fun _ => h.forCondition.bind fun _ =>
    h.forStep.bind fun _ => h.statement.bind fun _ => frugal_pure _

theorem returnStatement (loc : Location) : (Parser.returnStatement G loc).Frugal :=
  (h.assignment.unlessNext _).bind fun _ => (frugal_expect _).bind fun _ => frugal_pure _

theorem declaration : (Parser.declaration G).Frugal :=
  .recovering <| frugal_choice (by decide) (fun _ => h.function) <|
    frugal_choice (by decide) (fun _ => h.varDeclaration) h.statement

theorem block (hstep : Progresses (Parser.declaration G)) : (Parser.block G).Frugal :=
  (h.declaration.manyUntil hstep _).bind fun _ => (frugal_expect _).bind fun _ => frugal_pure _

theorem function_above (hstep : Progresses (Parser.declaration G)) : (Parser.function G).Frugal :=
  (frugal_expect _).bind fun _ => (frugal_expect _).bind fun _ => frugal_parameters.bind
    fun _ => (frugal_expect _).bind fun _ => (frugal_expect _).bind fun _ =>
    (h.block hstep).bind fun _ => frugal_pure _

theorem statement_above (hstep : Progresses (Parser.declaration G)) :
    (Parser.statement G).Frugal := by
  refine frugal_dispatch fun t => ?_
  have taking {k : TokenKind} (hk : t.kind = k) (hend : k ≠ .endOfInput) {p : Parser Stmt}
      (hp : p.Frugal) : (skip >>= fun _ => p).Frugal ∨ t.isEnd = false ∧
        ∃ g : Unit → Parser Stmt, (skip >>= fun _ => p) = skip >>= g ∧ (g ()).Frugal :=
    .inr ⟨Token.isEnd_of_kind hk hend, _, rfl, hp⟩
  split
  · exact taking ‹t.kind = _› (by decide) (h.printStatement _)
  · exact taking ‹t.kind = _› (by decide) (h.ifStatement _)
  · exact taking ‹t.kind = _› (by decide) (h.whileStatement _)
  · exact taking ‹t.kind = _› (by decide) (h.forStatement _)
  · exact taking ‹t.kind = _› (by decide) (h.returnStatement _)
  · exact taking ‹t.kind = _› (by decide) ((h.block hstep).bind fun _ => frugal_pure _)
  · exact .inl h.expressionStatement

theorem above (hstep : Progresses (Parser.declaration G)) : G.above.Frugal where
  assignment := h.assignment_above
  operand := h.operand_above
  chain := h.chain_above
  unary := h.unary_above
  calls := h.calls_above
  arguments := h.arguments_above
  statement := h.statement_above hstep
  function := h.function_above hstep

end Frugal

theorem progresses_declaration (n : Nat) : Progresses (Parser.declaration (ofLevels n)) :=
  fun _ _ _ _ _ ht h => suffix_of_declaration ht h

/-- **One token of look-ahead.** Whatever the number of levels, every parser of the grammar is
frugal. -/
theorem frugal_ofLevels (n : Nat) : (ofLevels n).Frugal := by
  induction n with
  | zero => exact frugal_tooDeep
  | succ n ih => exact ih.above (progresses_declaration n)

end Grammar

end Lox
