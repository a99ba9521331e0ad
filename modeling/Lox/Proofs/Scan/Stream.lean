import Lox.Proofs.Split.Scanning

/-!
# Looking ahead

A stream is asked for its next token, for a look at it, or for all tokens that are left. Whatever it
has been asked, what it still gives is a matter of how many tokens have been taken
(`TokenStream.Tracks`): each request takes it from one such state to the next, so looking ahead changes
neither the tokens nor the errors that are found (`TokenStream.after_requests`).
-/

namespace Lox

/-- What a stream can be asked for. -/
inductive Request
  | next
  | peek
  | takeAll
  deriving DecidableEq

namespace TokenStream

/-- The tokens that answer a request, and the stream behind it. -/
def serve (s : TokenStream) : Request → List Token × TokenStream
  | .next => ([s.next.1], s.next.2)
  | .peek => ([s.peek.1], s.peek.2)
  | .takeAll => s.takeAll

/-- The stream behind requests. -/
def after (s : TokenStream) (rs : List Request) : TokenStream := rs.foldl (fun s r => (s.serve r).2) s

/-- Requests with their answers. -/
def answers : TokenStream → List Request → List (Request × List Token)
  | _, [] => []
  | s, r :: rs => (r, (s.serve r).1) :: (s.serve r).2.answers rs

/-- The tokens that requests take: the answers, but those to looks ahead. -/
def taken (s : TokenStream) (rs : List Request) : List Token :=
  ((s.answers rs).filter (·.1 ≠ .peek)).flatMap (·.2)

/-! ## What is ahead -/

/-- What a stream still gives: the tokens up to the end of the input, and the errors on the way. -/
def ahead (s : TokenStream) : Tokens :=
  match s.peeked with
  | none => (readAll s.rest s.loc).1
  | some t =>
    if t.isEnd then ⟨[t], []⟩
    else ⟨t :: (readAll s.rest s.loc).1.tokens, (readAll s.rest s.loc).1.errors⟩

/-- Behind the end of the input, nothing is left to be read. -/
def Ready (s : TokenStream) : Prop :=
  ∀ t ∈ s.peeked, t.isEnd = true → s.rest = [] ∧ t = .endOfInput s.loc

end TokenStream

/-- The end of the input is where nothing is left. -/
theorem readToken_of_isEnd {s : Text} {loc : Location} (h : (readToken s loc).token.isEnd = true) :
    (readToken s loc).rest = [] ∧ (readToken s loc).token = .endOfInput (readToken s loc).loc := by
  fun_induction readToken s loc with
  | case1 => exact ⟨rfl, rfl⟩
  | case2 s loc gap start kind spelling rest hl =>
    obtain ⟨l, hfirst, he⟩ := Option.map_eq_some_iff.1 hl
    cases he
    exact absurd (beq_iff_eq.1 h) (spells_of_first? hfirst).ne_endOfInput
  | case3 s loc gap start b rest hl next ih => exact ih h
  | case4 s loc gap start spelling rest hl next ih => exact ih h

/-- The last token is the end of the input, at the location behind the last byte. -/
theorem readAll_last (s : Text) (loc : Location) :
    ∃ us, (readAll s loc).1.tokens = us ++ [.endOfInput (readAll s loc).2] := by
  fun_induction readAll s loc with
  | case1 s loc first h => exact ⟨[], by rw [(readToken_of_isEnd h).2]; rfl⟩
  | case2 s loc first h others finish hothers ih =>
    obtain ⟨us, htokens⟩ := ih
    rw [hothers] at htokens
    exact ⟨first.token :: us, congrArg (_ :: ·) htokens⟩

namespace TokenStream

section Ahead

variable {rest : Text} {loc : Location} {t : Token} {errors : List ScanError}

theorem ahead_none : ahead ⟨rest, loc, none, errors⟩ = (readAll rest loc).1 := rfl

theorem ahead_end (h : t.isEnd = true) : ahead ⟨rest, loc, some t, errors⟩ = ⟨[t], []⟩ := if_pos h

theorem ahead_token (h : t.isEnd = false) :
    ahead ⟨rest, loc, some t, errors⟩ =
      ⟨t :: (readAll rest loc).1.tokens, (readAll rest loc).1.errors⟩ :=
  if_neg (by rw [h]; exact Bool.false_ne_true)

end Ahead

variable {s : TokenStream}

theorem next_peeked (s : TokenStream) : s.next.2.peeked = none := by
  obtain ⟨rest, loc, peeked, errors⟩ := s
  cases peeked <;> rfl

theorem ready_of_peeked (h : s.peeked = none) : s.Ready := by
  intro t ht
  rw [h] at ht
  cases ht

/-- What taking a token does: it gives what was ahead, and the end of the input again and again. -/
structure Next (s : TokenStream) : Prop where
  ready : s.next.2.Ready
  found : s.errors <+: s.next.2.errors
  errors : s.next.2.errors ++ s.next.2.ahead.errors = s.errors ++ s.ahead.errors
  token : s.next.1.isEnd = false → s.ahead.tokens = s.next.1 :: s.next.2.ahead.tokens
  finish : s.next.1.isEnd = true → s.ahead.tokens = [s.next.1] ∧ s.next.2.ahead = ⟨[s.next.1], []⟩

theorem Ready.next (h : s.Ready) : s.Next := by
  obtain ⟨rest, loc, peeked, errors⟩ := s
  cases peeked with
  | some t =>
    cases hend : t.isEnd with
    | true =>
      obtain ⟨hrest, ht⟩ : rest = [] ∧ t = .endOfInput loc := h t rfl hend
      subst hrest ht
      have hnext : ahead ⟨[], loc, none, errors⟩ = ⟨[.endOfInput loc], []⟩ :=
        congrArg Prod.fst (readAll_nil loc)
      exact {
        ready := ready_of_peeked (next_peeked _)
        found := List.prefix_rfl
        errors := congrArg (errors ++ ·) (congrArg Tokens.errors hnext)
        token := nofun
        finish := fun _ => ⟨rfl, hnext⟩ }
    | false =>
      have hahead := @ahead_token rest loc t errors hend
      exact {
        ready := ready_of_peeked (next_peeked _)
        found := List.prefix_rfl
        errors := by rw [hahead]; rfl
        token := fun _ => congrArg Tokens.tokens hahead
        finish := fun h => absurd (hend.symm.trans h) Bool.false_ne_true }
  | none =>
    cases hend : (readToken rest loc).token.isEnd with
    | true =>
      obtain ⟨hrest, htoken⟩ := readToken_of_isEnd hend
      have hnext : ahead ⟨(readToken rest loc).rest, (readToken rest loc).loc, none,
          errors ++ (readToken rest loc).errors⟩ = ⟨[(readToken rest loc).token], []⟩ := by
        rw [ahead_none, hrest, readAll_nil, htoken]
      exact {
        ready := ready_of_peeked (next_peeked _)
        found := List.prefix_append _ _
        errors := by
          show _ ++ (ahead ⟨_, _, none, _⟩).errors = _
          rw [hnext, ahead_none, readAll_end hend, List.append_nil]
          rfl
        token := fun h => absurd (hend.symm.trans h) Bool.false_ne_true.symm
        finish := fun _ => ⟨congrArg (fun r => r.1.tokens) (readAll_end hend), hnext⟩ }
    | false =>
      have hall := readAll_token hend
      exact {
        ready := ready_of_peeked (next_peeked _)
        found := List.prefix_append _ _
        errors := by
          rw [ahead_none, hall]
          exact List.append_assoc _ _ _
        token := fun _ => congrArg (fun r => r.1.tokens) hall
        finish := fun h => absurd (hend.symm.trans h) Bool.false_ne_true }

/-- What looking at a token does: nothing to what is ahead. -/
structure Peek (s : TokenStream) : Prop where
  ready : s.peek.2.Ready
  found : s.errors <+: s.peek.2.errors
  errors : s.peek.2.errors ++ s.peek.2.ahead.errors = s.errors ++ s.ahead.errors
  tokens : s.peek.2.ahead.tokens = s.ahead.tokens
  head : s.ahead.tokens.head? = some s.peek.1
  finish : s.peek.1.isEnd = true → s.peek.2.ahead.errors = []

theorem Ready.peek (h : s.Ready) : s.Peek := by
  have hnext := h.next
  obtain ⟨rest, loc, peeked, errors⟩ := s
  cases peeked with
  | some t =>
    exact {
      ready := h
      found := List.prefix_rfl
      errors := rfl
      tokens := rfl
      head := by
        cases hend : t.isEnd with
        | true => rw [ahead_end hend]; rfl
        | false => rw [ahead_token hend]; rfl
      finish := fun hend => congrArg Tokens.errors (ahead_end hend) }
  | none =>
    have hready : (TokenStream.peek ⟨rest, loc, none, errors⟩).2.Ready := by
      intro t ht hend
      obtain rfl := Option.some.inj ht
      exact readToken_of_isEnd hend
    cases hend : (readToken rest loc).token.isEnd with
    | true =>
      obtain ⟨htokens, hahead⟩ := hnext.finish hend
      have hpeek : (TokenStream.peek ⟨rest, loc, none, errors⟩).2.ahead = _ := ahead_end hend
      exact {
        ready := hready
        found := hnext.found
        errors := by
          rw [hpeek, ← hnext.errors, hahead]
          rfl
        tokens := by rw [hpeek, htokens]; rfl
        head := by rw [htokens]; rfl
        finish := fun _ => congrArg Tokens.errors hpeek }
    | false =>
      have hpeek : (TokenStream.peek ⟨rest, loc, none, errors⟩).2.ahead = _ := ahead_token hend
      exact {
        ready := hready
        found := hnext.found
        errors := by
          rw [hpeek, ← hnext.errors]
          rfl
        tokens := by rw [hpeek, hnext.token hend]; rfl
        head := by rw [hnext.token hend]; rfl
        finish := fun h => absurd (hend.symm.trans h) Bool.false_ne_true }

/-- What taking all tokens does: it gives all that is ahead, and only the end of the input is left. -/
structure TakeAll (s : TokenStream) : Prop where
  ready : s.takeAll.2.Ready
  errors : s.takeAll.2.errors = s.errors ++ s.ahead.errors
  tokens : s.takeAll.1 = s.ahead.tokens
  finish : ∃ us eof, s.ahead.tokens = us ++ [eof] ∧ s.takeAll.2.ahead = ⟨[eof], []⟩

theorem Ready.takeAll (h : s.Ready) : s.TakeAll := by
  have hnext := h.next
  cases hend : s.next.1.isEnd with
  | true =>
    obtain ⟨htokens, hahead⟩ := hnext.finish hend
    have htake : s.takeAll = ([s.next.1], s.next.2) := if_pos hend
    have herrors := hnext.errors
    rw [hahead, List.append_nil] at herrors
    exact {
      ready := by rw [htake]; exact hnext.ready
      errors := by rw [htake]; exact herrors
      tokens := by rw [htake, htokens]
      finish := ⟨[], s.next.1, htokens, by rw [htake]; exact hahead⟩ }
  | false =>
    have hrest : s.next.2.ahead = (readAll s.next.2.rest s.next.2.loc).1 := by
      rw [ahead, next_peeked]
    have htake : s.takeAll = (s.next.1 :: s.next.2.ahead.tokens,
        ⟨[], (readAll s.next.2.rest s.next.2.loc).2, none,
          s.next.2.errors ++ s.next.2.ahead.errors⟩) := by
      rw [hrest]
      exact if_neg fun h => Bool.false_ne_true (hend.symm.trans h)
    obtain ⟨us, hlast⟩ := readAll_last s.next.2.rest s.next.2.loc
    exact {
      ready := by rw [htake]; exact ready_of_peeked rfl
      errors := by rw [htake]; exact hnext.errors
      tokens := by rw [htake, hnext.token hend]
      finish := ⟨s.next.1 :: us, _, by rw [hnext.token hend, hrest, hlast]; rfl,
        by rw [htake]; exact congrArg Prod.fst (readAll_nil _)⟩ }

/-! ## Along requests -/

/-- The tokens go on from the `k`-th of the given ones, and then with the end of the input. -/
def GoesOn (ts : List Token) (eof : Token) (k : Nat) (us : List Token) : Prop :=
  ∃ n, us <+: ts.drop k ++ List.replicate n eof

/-- How far a stream is along the given tokens, with the end of the input behind them, and the given
errors: the number of tokens that have been taken says what is ahead. -/
structure Tracks (ts : List Token) (eof : Token) (es : List ScanError) (k : Nat) (s : TokenStream) :
    Prop where
  ready : s.Ready
  tokens : s.ahead.tokens = ts.drop k ++ [eof]
  errors : s.errors ++ s.ahead.errors = es

/-- The tokens that a request takes. -/
def takenBy (s : TokenStream) (r : Request) : List Token := if r = .peek then [] else (s.serve r).1

/-- What a request does to a stream that is `k` tokens along. -/
structure Served (ts : List Token) (eof : Token) (es : List ScanError) (k : Nat) (s : TokenStream)
    (r : Request) : Prop where
  tracks : (s.serve r).2.Tracks ts eof es (k + (s.takenBy r).length)
  taken : GoesOn ts eof k (s.takenBy r)
  found : s.errors <+: (s.serve r).2.errors
  finish : (∃ t ∈ (s.serve r).1, t.isEnd = true) → (s.serve r).2.errors = es

section Tracks

variable {ts us vs : List Token} {eof : Token} {es : List ScanError} {k : Nat}

theorem goesOn_nil : GoesOn ts eof k [] := ⟨0, List.nil_prefix⟩

theorem GoesOn.append (h : GoesOn ts eof k us) (h' : GoesOn ts eof (k + us.length) vs) :
    GoesOn ts eof k (us ++ vs) := by
  obtain ⟨n, tail, hus⟩ := h
  obtain ⟨m, hvs⟩ := h'
  obtain ⟨j, rfl⟩ : ∃ j, tail = ts.drop (k + us.length) ++ List.replicate j eof := by
    have htail := congrArg (List.drop us.length) hus
    rw [List.drop_left, List.drop_append, List.drop_drop, List.drop_replicate] at htail
    exact ⟨_, htail⟩
  refine ⟨n + m, ?_⟩
  rw [← List.replicate_append_replicate, ← List.append_assoc, ← hus, List.append_assoc us,
    List.append_assoc (List.drop _ _), List.replicate_append_replicate, Nat.add_comm j m,
    ← List.replicate_append_replicate, ← List.append_assoc (List.drop _ _)]
  exact (List.prefix_append_right_inj us).2 (hvs.trans (List.prefix_append _ _))

theorem Tracks.next (heof : eof.isEnd = true) (h : Tracks ts eof es k s) :
    Served ts eof es k s .next := by
  have hnext := h.ready.next
  have htokens := h.tokens
  have herrors := hnext.errors.trans h.errors
  have hdrop : ts.drop (k + 1) = (ts.drop k).tail := List.drop_add_one_eq_tail_drop
  cases hend : s.next.1.isEnd with
  | true =>
    obtain ⟨hahead, hrest⟩ := hnext.finish hend
    have hfinal : [] ++ [s.next.1] = ts.drop k ++ [eof] := hahead.symm.trans htokens
    obtain ⟨hnil, he⟩ := List.append_inj' hfinal rfl
    obtain rfl := List.singleton_inj.1 he
    exact {
      tracks := ⟨hnext.ready, by
        show s.next.2.ahead.tokens = ts.drop (k + 1) ++ _
        rw [hdrop, ← hnil, hrest]
        rfl, herrors⟩
      taken := ⟨1, by rw [← hnil]; exact List.prefix_rfl⟩
      found := hnext.found
      finish := fun _ => by rwa [hrest, List.append_nil] at herrors }
  | false =>
    rw [hnext.token hend] at htokens
    cases hk : ts.drop k with
    | nil =>
      rw [hk] at htokens
      obtain ⟨rfl, _⟩ := List.cons_eq_cons.1 htokens
      cases hend.symm.trans heof
    | cons t rest =>
      rw [hk, List.cons_append, List.cons_eq_cons] at htokens
      obtain ⟨rfl, hrest⟩ := htokens
      exact {
        tracks := ⟨hnext.ready, by
          show s.next.2.ahead.tokens = ts.drop (k + 1) ++ _
          rw [hdrop, hk, hrest]
          rfl, herrors⟩
        taken := ⟨0, by rw [hk]; exact ⟨rest ++ [], rfl⟩⟩
        found := hnext.found
        finish := by
          rintro ⟨t, ht, hend'⟩
          obtain rfl := List.mem_singleton.1 ht
          cases hend.symm.trans hend' }

theorem Tracks.peek (h : Tracks ts eof es k s) : Served ts eof es k s .peek := by
  have hpeek := h.ready.peek
  exact {
    tracks := ⟨hpeek.ready, hpeek.tokens.trans h.tokens, hpeek.errors.trans h.errors⟩
    taken := goesOn_nil
    found := hpeek.found
    finish := by
      rintro ⟨t, ht, hend⟩
      obtain rfl := List.mem_singleton.1 ht
      have herrors := hpeek.errors
      rw [hpeek.finish hend, List.append_nil] at herrors
      exact herrors.trans h.errors }

theorem Tracks.takeAll (h : Tracks ts eof es k s) : Served ts eof es k s .takeAll := by
  have htake := h.ready.takeAll
  have htokens : s.takenBy .takeAll = ts.drop k ++ [eof] := htake.tokens.trans h.tokens
  obtain ⟨us, eof', hus, hahead⟩ := htake.finish
  obtain ⟨_, he⟩ := List.append_inj' (h.tokens.symm.trans hus) rfl
  obtain rfl := List.singleton_inj.1 he
  have herrors : s.takeAll.2.errors = es := htake.errors.trans h.errors
  have hdrop : ts.drop (k + (s.takenBy .takeAll).length) = [] := by
    rw [htokens, List.length_append, List.length_drop, List.drop_eq_nil_iff]
    omega
  exact {
    tracks := ⟨htake.ready, by rw [hdrop]; exact congrArg Tokens.tokens hahead, by
      show s.takeAll.2.errors ++ s.takeAll.2.ahead.errors = es
      rw [hahead, List.append_nil, herrors]⟩
    taken := ⟨1, by rw [htokens]; exact List.prefix_rfl⟩
    found := by
      show s.errors <+: s.takeAll.2.errors
      rw [htake.errors]
      exact List.prefix_append _ _
    finish := fun _ => herrors }

theorem Tracks.serve (heof : eof.isEnd = true) (h : Tracks ts eof es k s) (r : Request) :
    Served ts eof es k s r := by
  cases r with
  | next => exact h.next heof
  | peek => exact h.peek
  | takeAll => exact h.takeAll

theorem taken_cons (s : TokenStream) (r : Request) (rs : List Request) :
    s.taken (r :: rs) = s.takenBy r ++ (s.serve r).2.taken rs := by
  cases r <;> rfl

theorem taken_peeks (s : TokenStream) (n : Nat) : s.taken (List.replicate n .peek) = [] := by
  induction n generalizing s with
  | zero => rfl
  | succ n ih => rw [List.replicate_succ, taken_cons, ih]; rfl

/-- What requests do to a stream that is `k` tokens along. -/
theorem Tracks.after (heof : eof.isEnd = true) (h : Tracks ts eof es k s) (rs : List Request) :
    (s.after rs).Tracks ts eof es (k + (s.taken rs).length) ∧ GoesOn ts eof k (s.taken rs) ∧
      s.errors <+: (s.after rs).errors ∧
      ((∃ a ∈ s.answers rs, ∃ t ∈ a.2, t.isEnd = true) → (s.after rs).errors = es) := by
  induction rs generalizing s k with
  | nil => exact ⟨h, goesOn_nil, List.prefix_rfl, nofun⟩
  | cons r rs ih =>
    have hserved := h.serve heof r
    obtain ⟨htracks, htaken, hfound, hfinish⟩ := ih hserved.tracks
    rw [taken_cons, List.length_append, ← Nat.add_assoc]
    refine ⟨htracks, hserved.taken.append htaken, hserved.found.trans hfound, ?_⟩
    rintro ⟨a, ha, t, ht, hend⟩
    rcases List.mem_cons.1 ha with rfl | ha
    · -- all errors have been found, and none are lost
      have hes : (s.serve r).2.errors = es := hserved.finish ⟨t, ht, hend⟩
      have hprefix : (s.after (r :: rs)).errors <+: es := ⟨_, htracks.errors⟩
      exact hprefix.eq_of_length_le (hes ▸ hfound.length_le)
    · exact hfinish ⟨a, ha, t, ht, hend⟩

/-- What is looked at is what is given next, by either way of taking it. -/
theorem Tracks.head (h : Tracks ts eof es k s) :
    s.ahead.tokens.head? = some s.next.1 ∧ s.ahead.tokens.head? = some s.peek.1 ∧
      s.takeAll.1 = s.ahead.tokens := by
  refine ⟨?_, h.ready.peek.head, h.ready.takeAll.tokens⟩
  have hnext := h.ready.next
  cases hend : s.next.1.isEnd with
  | true => rw [(hnext.finish hend).1]; rfl
  | false => rw [hnext.token hend]; rfl

theorem Tracks.peeks (heof : eof.isEnd = true) (h : Tracks ts eof es k s) (n : Nat) :
    (s.after (List.replicate n .peek)).Tracks ts eof es k := by
  have htracks := (h.after heof (List.replicate n .peek)).1
  rwa [taken_peeks] at htracks

end Tracks

theorem tracks_ofSource {source : Text} {ts : List Token} {eof : Token}
    (h : (tokenize source).tokens = ts ++ [eof]) :
    (ofSource source).Tracks ts eof (tokenize source).errors 0 :=
  ⟨ready_of_peeked rfl, h, rfl⟩

/-- **Looking ahead disturbs nothing.** Whatever a stream has been asked, the tokens it has given away
are the first ones of its source, with the end of the input again and again behind them; what it shows
is what it gives next, however often it is looked at; it gives away all at once exactly the tokens that
are left; and the errors it has found are the first ones of its source, and all of them once it has
given or shown the end of the input. -/
theorem after_requests (source : Text) (rs : List Request) :
    let s := (ofSource source).after rs
    let taken := (ofSource source).taken rs
    ∃ ts eof, (tokenize source).tokens = ts ++ [eof] ∧ (∀ t ∈ ts, t.kind ≠ .endOfInput) ∧
      eof.kind = .endOfInput ∧ (∃ n, taken <+: ts ++ List.replicate n eof) ∧
      (∀ n, (s.peek.2.after (List.replicate n .peek)).next.1 = s.peek.1 ∧
        (s.peek.2.after (List.replicate n .peek)).takeAll.1.head? = some s.peek.1) ∧
      s.takeAll.1 = ts.drop taken.length ++ [eof] ∧ s.errors <+: (tokenize source).errors ∧
      ((∃ a ∈ (ofSource source).answers rs, ∃ t ∈ a.2, t.kind = .endOfInput) →
        s.errors = (tokenize source).errors) := by
  intro s taken
  obtain ⟨ts, eof, htokens, hts, heof⟩ := readAll_ended source .start
  obtain ⟨htracks, htaken, _, hfinish⟩ := (tracks_ofSource htokens).after heof rs
  rw [Nat.zero_add] at htracks
  obtain ⟨_, hpeek, htakeAll⟩ := htracks.head
  refine ⟨ts, eof, htokens, fun t ht => beq_eq_false_iff_ne.1 (hts t ht), beq_iff_eq.1 heof,
    htaken, fun n => ?_, htakeAll.trans htracks.tokens, ⟨_, htracks.errors⟩, ?_⟩
  · have hlooked := htracks.peek.tracks.peeks heof n
    obtain ⟨hnext, _, htakeAll'⟩ := hlooked.head
    have hahead := hlooked.tokens.trans htracks.tokens.symm
    rw [hahead] at hnext htakeAll'
    exact ⟨Option.some.inj (hnext.symm.trans hpeek), htakeAll' ▸ hpeek⟩
  · rintro ⟨a, ha, t, ht, hend⟩
    exact hfinish ⟨a, ha, t, ht, beq_iff_eq.2 hend⟩

end TokenStream

end Lox
