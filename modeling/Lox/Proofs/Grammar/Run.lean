import Lox.Proofs.Grammar.Triple

/-!
# Runs that succeed

`Parser.Runs mode p ts a rest` says that `p`, in front of the tokens `ts`, gives `a` and leaves
`rest`. In the exact mode it reports nothing; in the tolerant mode it may report that a list of
arguments or parameters is too long. Runs follow one another as the parsers do, and the lemmas of
this module run every way of building a parser on the tokens that it is meant for.
-/

namespace Lox

/-- The errors that a reading as the grammar says may come with. -/
def Mode.Lenient (mode : Mode) (errors : List ParseError) : Prop :=
  ∀ e ∈ errors, mode = .tolerant ∧
    (e.problem = .tooManyArguments ∨ e.problem = .tooManyParameters)

theorem Mode.lenient_nil (mode : Mode) : mode.Lenient [] := by simp [Mode.Lenient]

theorem Mode.Lenient.append {mode : Mode} {es es' : List ParseError} (h : mode.Lenient es)
    (h' : mode.Lenient es') : mode.Lenient (es ++ es') := by
  intro e he
  rcases List.mem_append.1 he with he | he
  · exact h e he
  · exact h' e he

theorem Mode.Lenient.eq_nil {es : List ParseError} (h : Mode.exact.Lenient es) : es = [] :=
  List.eq_nil_iff_forall_not_mem.2 fun e he => nomatch (h e he).1

theorem CommaSeparated.length_le {phrases : List (List Token)} {ts : List Token}
    (h : CommaSeparated phrases ts) : phrases.length ≤ ts.length + 1 := by
  induction h with
  | none | one => simp
  | cons _ _ ih => simp at ih ⊢; omega

theorem CommaSeparated.first {t : Token} {us ts : List Token} {phrases : List (List Token)}
    (h : CommaSeparated ((t :: us) :: phrases) ts) : ∃ vs, ts = t :: vs := by
  cases h with
  | one => exact ⟨us, rfl⟩
  | cons => exact ⟨_, rfl⟩

namespace Parser

variable {α β : Type} {mode : Mode}

/-- In front of `ts` the parser gives `a` and leaves `rest`. -/
def Runs (mode : Mode) (p : Parser α) (ts : List Token) (a : α) (rest : List Token) : Prop :=
  ∃ errors, mode.Lenient errors ∧ p ts = ⟨.ok a, rest, errors⟩

theorem runs_of_eq {p : Parser α} {ts rest : List Token} {a : α} (h : p ts = ⟨.ok a, rest, []⟩) :
    Runs mode p ts a rest := ⟨[], Mode.lenient_nil mode, h⟩

theorem Runs.bind {p : Parser α} {f : α → Parser β} {ts mid rest : List Token} {a : α} {b : β}
    (h : Runs mode p ts a mid) (h' : Runs mode (f a) mid b rest) :
    Runs mode (p >>= f) ts b rest := by
  obtain ⟨es, hes, hp⟩ := h
  obtain ⟨es', hes', hf⟩ := h'
  refine ⟨es ++ es', hes.append hes', ?_⟩
  rw [bind_apply, andThen, hp]
  simp only [hf]

theorem runs_pure (a : α) (ts : List Token) : Runs mode (pure a) ts a ts := runs_of_eq rfl

theorem Runs.map {p : Parser α} {ts rest : List Token} {a : α} (h : Runs mode p ts a rest)
    (f : α → β) : Runs mode (f <$> p) ts (f a) rest :=
  h.bind (f := fun a => pure (f a)) (runs_pure _ _)

theorem runs_peek (t : Token) (ts : List Token) : Runs mode peek (t :: ts) t (t :: ts) :=
  runs_of_eq rfl

theorem runs_skip (t : Token) (ts : List Token) : Runs mode skip (t :: ts) () ts := runs_of_eq rfl

/-! ## Optional tokens -/

theorem check_eq (kind : TokenKind) (ts : List Token) :
    check kind ts = ⟨.ok (headKind ts == kind), ts, []⟩ := rfl

theorem acceptOne_of_mem {kinds : List TokenKind} {t : Token} (h : t.kind ∈ kinds)
    (ts : List Token) : acceptOne kinds (t :: ts) = ⟨.ok (some t), ts, []⟩ := by
  have h : kinds.contains t.kind = true := List.contains_iff_mem.2 h
  simp only [acceptOne, bind_apply, andThen, peek, List.headD_cons, h]
  rfl

theorem acceptOne_of_notMem {kinds : List TokenKind} {ts : List Token}
    (h : headKind ts ∉ kinds) : acceptOne kinds ts = ⟨.ok none, ts, []⟩ := by
  have h : kinds.contains (headKind ts) = false := by simpa using h
  unfold headKind at h
  simp only [acceptOne, bind_apply, andThen, peek, h]
  rfl

/-- Taking a token that the parser has a use for. -/
theorem Runs.acceptOne {kinds : List TokenKind} {f : Option Token → Parser α} {t : Token}
    {ts rest : List Token} {a : α} (ht : t.kind ∈ kinds) (h : Runs mode (f (some t)) ts a rest) :
    Runs mode (acceptOne kinds >>= f) (t :: ts) a rest :=
  (runs_of_eq (acceptOne_of_mem ht ts)).bind h

/-- Passing by where the next token is of no use. -/
theorem Runs.acceptNone {kinds : List TokenKind} {f : Option Token → Parser α}
    {ts rest : List Token} {a : α} (ht : headKind ts ∉ kinds) (h : Runs mode (f none) ts a rest) :
    Runs mode (Parser.acceptOne kinds >>= f) ts a rest :=
  (runs_of_eq (acceptOne_of_notMem ht)).bind h

theorem Runs.expect {what : Expectation} {f : Token → Parser α} {t : Token} {ts rest : List Token}
    {a : α} (ht : t.kind = what.kind) (h : Runs mode (f t) ts a rest) :
    Runs mode (expect what >>= f) (t :: ts) a rest :=
  Runs.bind (Runs.acceptOne (by simpa using ht) (runs_pure t ts)) h

theorem runs_expect {what : Expectation} {t : Token} (ht : t.kind = what.kind) (ts : List Token) :
    Runs mode (Parser.expect what) (t :: ts) t ts :=
  Runs.acceptOne (by simpa using ht) (runs_pure t ts)

theorem Runs.unlessNext {stop : TokenKind} {p : Parser α} {ts rest : List Token} {a : α}
    (ht : headKind ts ≠ stop) (h : Runs mode p ts a rest) :
    Runs mode (unlessNext stop p) ts (some a) rest := by
  refine (runs_of_eq (check_eq stop ts)).bind ?_
  rw [if_neg (by simpa using ht)]
  exact h.bind (runs_pure _ _)

theorem runs_unlessNext_none {stop : TokenKind} {p : Parser α} {ts : List Token}
    (ht : headKind ts = stop) : Runs mode (Parser.unlessNext stop p) ts none ts := by
  refine (runs_of_eq (check_eq stop ts)).bind ?_
  rw [if_pos (by simpa using ht)]
  exact runs_pure _ _

theorem Runs.behind {kind : TokenKind} {p : Parser α} {t : Token} {ts rest : List Token} {a : α}
    (ht : t.kind = kind) (h : Runs mode p ts a rest) :
    Runs mode (behind kind p) (t :: ts) (some a) rest :=
  Runs.acceptOne (by simpa using ht) (h.bind (runs_pure _ _))

theorem runs_behind_none {kind : TokenKind} {p : Parser α} {ts : List Token}
    (ht : headKind ts ≠ kind) : Runs mode (Parser.behind kind p) ts none ts :=
  Runs.acceptNone (by simpa using ht) (runs_pure _ _)

/-! ## Lists -/

/-- What stands behind an item of a list in parentheses. -/
def listEnds : List TokenKind := [.comma, .rightParen]

variable {excess : ParseProblem} {item : Parser α}

theorem runs_checkCount (hx : excess = .tooManyArguments ∨ excess = .tooManyParameters)
    {count : Nat} (hc : mode = .exact → count < 255) (ts : List Token) :
    Runs mode (checkCount excess count) ts () ts := by
  unfold checkCount
  split
  · next h =>
    refine ⟨[⟨excess, ts.headD (.endOfInput .nowhere)⟩], ?_, rfl⟩
    intro e he
    obtain rfl := List.mem_singleton.1 he
    cases mode with
    | exact => exact absurd (hc rfl) (Nat.not_lt_of_le h)
    | tolerant => exact ⟨rfl, hx⟩
  · exact runs_pure _ _

/-- The rounds do not run out, for each item takes one. -/
theorem runs_commaSeparatedFrom (hx : excess = .tooManyArguments ∨ excess = .tooManyParameters)
    (items : List (List Token × α))
    (hi : ∀ i ∈ items, ∀ rest, headKind rest ∈ listEnds → Runs mode item (i.1 ++ rest) i.2 rest) :
    ∀ (ts : List Token) (rounds count : Nat), items ≠ [] → CommaSeparated (items.map Prod.fst) ts →
      items.length ≤ rounds → (mode = .exact → count + items.length ≤ 255) →
      ∀ rest, headKind rest = .rightParen →
        Runs mode (commaSeparatedFrom excess item rounds count) (ts ++ rest)
          (items.map Prod.snd) rest := by
  induction items with
  | nil => exact fun _ _ _ h => absurd rfl h
  | cons i items ih =>
    intro ts rounds count _ hs hr hb rest hrest
    obtain ⟨hfirst, his⟩ := List.forall_mem_cons.1 hi
    obtain ⟨rounds, rfl⟩ : ∃ m, rounds = m + 1 := ⟨rounds - 1, by simp at hr; omega⟩
    have hcount : mode = .exact → count < 255 := fun h => by have := hb h; simp at this; omega
    cases items with
    | nil =>
      obtain rfl : ts = i.1 := by cases hs; rfl
      exact (runs_checkCount hx hcount _).bind ((hfirst rest (by simp [hrest, listEnds])).bind
        (Runs.acceptNone (by simp [hrest]) (runs_pure _ _)))
    | cons j items =>
      obtain ⟨us, comma, hk, hs', rfl⟩ : ∃ us comma, comma.kind = TokenKind.comma ∧
          CommaSeparated ((j :: items).map Prod.fst) us ∧ ts = i.1 ++ comma :: us := by
        cases hs with
        | cons hk hs => exact ⟨_, _, hk, hs, rfl⟩
      have others := ih his us rounds (count + 1) (List.cons_ne_nil _ _) hs'
        (by simp at hr ⊢; omega) (fun h => by have := hb h; simp at this ⊢; omega) rest hrest
      rw [List.append_assoc, List.cons_append]
      exact (runs_checkCount hx hcount _).bind ((hfirst (comma :: (us ++ rest))
        (by simp [hk, listEnds])).bind (Runs.acceptOne (by simp [hk])
          (others.bind (runs_pure _ _))))

/-- A list of arguments or parameters, in front of the closing parenthesis. -/
theorem runs_list (hx : excess = .tooManyArguments ∨ excess = .tooManyParameters)
    {items : List (List Token × α)} {ts : List Token}
    (hi : ∀ i ∈ items, ∀ rest, headKind rest ∈ listEnds → Runs mode item (i.1 ++ rest) i.2 rest)
    (hfirst : ∀ i ∈ items, ∃ t us, i.1 = t :: us ∧ t.kind ≠ .rightParen)
    (hs : CommaSeparated (items.map Prod.fst) ts) (hb : mode.Allows items.length)
    {rest : List Token} (hrest : headKind rest = .rightParen) :
    Runs mode (do if ← check .rightParen then return [] else commaSeparated excess item)
      (ts ++ rest) (items.map Prod.snd) rest := by
  refine (runs_of_eq (check_eq _ _)).bind ?_
  cases items with
  | nil =>
    have hts : ts = [] := by
      rw [List.map_nil] at hs
      cases hs
      rfl
    rw [hts, if_pos (by simp [hrest])]
    exact runs_pure _ _
  | cons i items =>
    obtain ⟨t, us, hi', ht⟩ := hfirst i List.mem_cons_self
    have hhead : headKind (ts ++ rest) = t.kind := by
      rw [List.map_cons, hi'] at hs
      obtain ⟨vs, rfl⟩ := hs.first
      rfl
    rw [if_neg (by simpa [hhead] using ht)]
    have hlen := hs.length_le
    refine (runs_of_eq rfl).bind (runs_commaSeparatedFrom hx (i :: items) hi ts _ 0
      (List.cons_ne_nil _ _) hs ?_ (fun h => by simpa using hb h) rest hrest)
    simp at hlen ⊢
    omega

/-! ## Rows of declarations -/

theorem Runs.recovering {p : Parser α} {ts rest : List Token} {a : α}
    (h : Runs mode p ts a rest) : Runs mode p.recovering ts (some a) rest := by
  obtain ⟨es, hes, hp⟩ := h
  exact ⟨es, hes, by rw [Parser.recovering, hp]⟩

theorem headKind_flatMap {kinds : List TokenKind} {items : List (List Token × α)}
    (hfirst : ∀ i ∈ items, StartsWith kinds i.1) (rest : List Token) :
    headKind (items.flatMap Prod.fst ++ rest) ∈ headKind rest :: kinds := by
  cases items with
  | nil => exact List.mem_cons_self
  | cons i items =>
    obtain ⟨t, us, hi, ht⟩ := hfirst i List.mem_cons_self
    rw [List.flatMap_cons, hi]
    exact List.mem_cons_of_mem _ ht

theorem length_le_flatMap {kinds : List TokenKind} {items : List (List Token × α)}
    (hfirst : ∀ i ∈ items, StartsWith kinds i.1) :
    items.length ≤ (items.flatMap Prod.fst).length := by
  induction items with
  | nil => exact Nat.zero_le _
  | cons i items ih =>
    obtain ⟨⟨t, us, hi, _⟩, hfirst⟩ := List.forall_mem_cons.1 hfirst
    have := ih hfirst
    rw [List.flatMap_cons, List.length_append, hi, List.length_cons, List.length_cons]
    omega

/-- Items that begin with one of the given kinds, up to a token that none begins with. -/
theorem runs_manyUntil {stop : TokenKind} {item : Parser (Option α)} (kinds : List TokenKind)
    (hstop : stop ∉ kinds) (hend : TokenKind.endOfInput ∉ kinds) {items : List (List Token × α)}
    (hfirst : ∀ i ∈ items, StartsWith kinds i.1)
    (hi : ∀ i ∈ items, ∀ rest, headKind rest ∈ stop :: kinds →
      Runs mode item (i.1 ++ rest) (some i.2) rest)
    {rest : List Token} (hrest : headKind rest = stop) :
    Runs mode (manyUntil stop item) (items.flatMap Prod.fst ++ rest) (items.map Prod.snd) rest := by
  have rounds (n : Nat) (hn : items.length ≤ n) :
      Runs mode (manyUntilFrom stop item n) (items.flatMap Prod.fst ++ rest)
        (items.map Prod.snd) rest := by
    induction items generalizing n with
    | nil =>
      cases n with
      | zero => exact runs_pure _ _
      | succ n =>
        refine (runs_of_eq (a := rest.headD (.endOfInput .nowhere)) rfl).bind ?_
        rw [if_pos ?_]
        · exact runs_pure _ _
        · exact (Bool.or_eq_true _ _).mpr (.inl (beq_iff_eq.mpr hrest))
    | cons i items ih =>
      obtain ⟨n, rfl⟩ : ∃ m, n = m + 1 := ⟨n - 1, by simp at hn; omega⟩
      obtain ⟨⟨t, us, hi', ht⟩, hfirst⟩ := List.forall_mem_cons.1 hfirst
      obtain ⟨hi, his⟩ := List.forall_mem_cons.1 hi
      have hrun := hi (items.flatMap Prod.fst ++ rest) (hrest ▸ headKind_flatMap hfirst rest)
      rw [List.flatMap_cons, List.append_assoc, manyUntilFrom]
      have hpeek : Runs mode peek (i.1 ++ (items.flatMap Prod.fst ++ rest)) t
          (i.1 ++ (items.flatMap Prod.fst ++ rest)) := by
        rw [hi']
        exact runs_peek t _
      refine hpeek.bind ?_
      rw [if_neg ?_]
      · exact hrun.bind ((ih hfirst his n (by simpa using hn)).bind (runs_pure _ _))
      · have h₁ : t.kind ≠ stop := fun h => hstop (h ▸ ht)
        simp [h₁, Token.isEnd_of_mem ht hend]
  have hlen := length_le_flatMap hfirst
  refine (runs_of_eq rfl).bind (rounds _ ?_)
  rw [List.length_append]
  omega

end Parser

end Lox
