import Lox.Proofs.Grammar.Expression

/-!
# Statements are read as the grammar says

The parsers of statements and declarations, one level above sound ones, are sound
(`Grammar.Sound.above`); so all parsers are, whatever the number of levels (`Grammar.sound_ofLevels`).
A statement that ends in an `if` without an `else` is only given where no `else` follows, which is
what binds an `else` to the nearest `if`.
-/

namespace Lox

namespace Parser

variable {α : Type} {mode : Mode} {D : List Token → α → Prop}

/-! ## Recovery -/

theorem resumeAfter_suffix (last : Token) (ts : List Token) : resumeAfter last ts <:+ ts := by
  induction ts generalizing last with
  | nil => exact List.suffix_refl _
  | cons t ts ih =>
    rw [resumeAfter]
    split
    · exact List.suffix_refl _
    · exact (ih t).trans (List.suffix_cons t ts)

theorem resume_suffix (ts : List Token) : resume ts <:+ ts := by
  cases ts with
  | nil => exact List.suffix_refl _
  | cons t ts =>
    rw [resume]
    split
    · exact List.suffix_refl _
    · exact (resumeAfter_suffix t ts).trans (List.suffix_cons t ts)

/-- An item, or nothing where a tolerant reading passed over one. -/
def OrLeft (mode : Mode) (D : List Token → α → Prop) (us : List Token) : Option α → Prop
  | some a => D us a
  | none => mode = .tolerant ∧ us = []

theorem gives_recovering {p : Parser α} (hp : Gives mode p (Reads mode.Picks D)) :
    Gives mode (recovering p) (Reads mode.Picks (OrLeft mode D)) := by
  have cut {ts rest : List Token} {errors : List ParseError} {e : ParseError}
      (h : p ts = ⟨.error e, rest, errors⟩) : rest <:+ ts := by
    have := hp.suffix ts
    rwa [h] at this
  refine ⟨fun ts => ?_, fun ts o rest errors h hc => ?_⟩
  · rw [recovering]
    split
    · next a rest errors h =>
      have := hp.suffix ts
      rwa [h] at this
    · next e rest errors h =>
      split
      · exact cut h
      · exact (resume_suffix rest).trans (cut h)
  · rw [recovering] at h
    split at h
    · next a mid es hok =>
      cases h
      exact hp.result _ _ _ _ hok hc
    · next e mid es herr =>
      split at h
      · cases h
      · cases h
        cases mode with
        | exact => exact absurd (hc rfl) (by simp)
        | tolerant =>
          obtain ⟨cs, hcs⟩ := (resume_suffix mid).trans (cut herr)
          exact ⟨[], cs, hcs.symm, List.nil_sublist cs, rfl, rfl⟩

/-- Whoever recovers passes over a token at least: the one that the failed parser began with, if no
other. -/
theorem suffix_of_recovering {p : Parser α} (hp : ∀ ts, (p ts).rest <:+ ts)
    (hsome : ∀ ts a rest errors, p ts = ⟨.ok a, rest, errors⟩ → ∃ us, us ≠ [] ∧ ts = us ++ rest)
    {t : Token} (ht : t.isEnd = false) {ts rest : List Token} {o : Option α} {errors : List ParseError}
    (h : recovering p (t :: ts) = ⟨.ok o, rest, errors⟩) : rest <:+ ts := by
  rw [recovering] at h
  split at h
  · next a mid es hok =>
    cases h
    obtain ⟨us, hne, hts⟩ := hsome _ _ _ _ hok
    cases us with
    | nil => exact absurd rfl hne
    | cons u us => exact ⟨us, (List.cons.inj hts).2.symm⟩
  · next e mid es herr =>
    split at h
    · cases h
    · cases h
      have hmid : mid <:+ t :: ts := by
        have := hp (t :: ts)
        rwa [herr] at this
      rcases List.suffix_cons_iff.1 hmid with rfl | hmid
      · rw [resume, if_neg (by simp [ht])]
        exact resumeAfter_suffix t ts
      · exact (resume_suffix mid).trans hmid

/-- Items in a row. -/
def Row (D : List Token → α → Prop) (ts : List Token) (as : List α) : Prop :=
  ∃ items : List (List Token × α), (∀ i ∈ items, D i.1 i.2) ∧
    ts = items.flatMap Prod.fst ∧ as = items.map Prod.snd

theorem gives_manyUntilFrom {stop : TokenKind} {item : Parser (Option α)}
    (hi : Gives mode item (Reads mode.Picks (OrLeft mode D))) :
    ∀ rounds, Gives mode (manyUntilFrom stop item rounds) (Reads mode.Picks (Row D))
  | 0 => by
    refine (gives_pure []).mono ?_
    rintro ts _ rest ⟨rfl, rfl⟩
    exact ⟨[], [], rfl, Mode.picks_refl _ _, [], by simp, rfl, rfl⟩
  | rounds + 1 => by
    refine (gives_peek.bind (S := fun _ => Reads mode.Picks (Row D)) fun t => Gives.ite
      (fun _ => ?_) fun _ => ?_).mono ?_
    · refine (gives_pure []).mono ?_
      rintro ts _ rest ⟨rfl, rfl⟩
      exact ⟨[], [], rfl, Mode.picks_refl _ _, [], by simp, rfl, rfl⟩
    · refine (hi.bind fun first => (gives_manyUntilFrom hi rounds).bind fun others =>
        gives_pure _).mono ?_
      rintro ts _ rest ⟨_, first, ⟨us, cs, rfl, hu, hd⟩, _, others,
        ⟨vs, ds, rfl, hv, items, hitems, rfl, rfl⟩, rfl, rfl⟩
      refine ⟨us ++ items.flatMap Prod.fst, cs ++ ds, by simp, hu.append hv, ?_⟩
      cases first with
      | none =>
        obtain ⟨_, rfl⟩ := hd
        exact ⟨items, hitems, rfl, rfl⟩
      | some a =>
        exact ⟨(us, a) :: items, List.forall_mem_cons.2 ⟨hd, hitems⟩, rfl, rfl⟩
    · rintro ts as rest ⟨mid, t, ⟨_, rfl⟩, h⟩
      exact h

theorem gives_manyUntil {stop : TokenKind} {item : Parser (Option α)}
    (hi : Gives mode item (Reads mode.Picks (OrLeft mode D))) :
    Gives mode (manyUntil stop item) (Reads mode.Picks (Row D)) := by
  refine (gives_remaining.bind fun n => gives_manyUntilFrom hi n).mono ?_
  rintro ts as rest ⟨mid, n, ⟨_, rfl⟩, h⟩
  exact h

/-! ## Optional parts -/

theorem gives_unlessNext {stop : TokenKind} {p : Parser α} {R : Effect α}
    (hp : Gives mode p R) :
    Gives mode (unlessNext stop p) fun ts o rest => match o with
      | some a => R ts a rest
      | none => rest = ts := by
  refine ((gives_check stop).bind (S := fun _ ts o rest => match o with
      | some a => R ts a rest
      | none => rest = ts) fun b => Gives.ite (fun _ => ?_) fun _ => ?_).mono ?_
  · refine (gives_pure none).mono ?_
    rintro ts _ rest ⟨rfl, rfl⟩
    rfl
  · refine (hp.bind fun a => gives_pure (some a)).mono ?_
    rintro ts _ rest ⟨_, a, ha, rfl, rfl⟩
    exact ha
  · rintro ts o rest ⟨mid, b, ⟨_, rfl⟩, h⟩
    exact h

theorem gives_behind {kind : TokenKind} {p : Parser α} {R : Effect α} (hk : .endOfInput ≠ kind)
    (hp : Gives mode p R) :
    Gives mode (behind kind p) fun ts o rest => match o with
      | some a => ∃ t us, ts = t :: us ∧ t.kind = kind ∧ R us a rest
      | none => rest = ts := by
  refine gives_choice (by simpa using hk) (fun t => ?_) ?_
  · refine (hp.bind fun a => gives_pure (some a)).mono ?_
    rintro ts _ rest ⟨_, a, ha, rfl, rfl⟩ ht
    exact ⟨t, ts, rfl, by simpa using ht, ha⟩
  · refine (gives_pure none).mono ?_
    rintro ts _ rest ⟨rfl, rfl⟩ _
    rfl

/-- The effect of a parser of statements: a statement that ends in an `if` without an `else` is not
followed by one. -/
def Ends (mode : Mode) (D : Bool → List Token → Stmt → Prop) : Effect Stmt := fun ts s rest =>
  ∃ o, Reads mode.Picks (D o) ts s rest ∧ (o = true → headKind rest ≠ .kwElse)

end Parser

namespace Grammar.Sound

open Parser

variable {mode : Mode} {inner : Grammar}

/-! ## Parts of statements -/

theorem gives_optionalExpression (h : inner.Sound mode) (stop : TokenKind) :
    Gives mode (unlessNext stop (expression inner)) (Reads mode.Keeps (Expr.Optional mode)) := by
  refine (gives_unlessNext (gives_expression h)).mono ?_
  intro ts o rest ho
  cases o with
  | none =>
    obtain rfl : rest = ts := ho
    exact ⟨[], [], rfl, Mode.keeps_refl _ _, .absent⟩
  | some e =>
    obtain ⟨us, cs, rfl, hu, hd⟩ := ho
    exact ⟨us, cs, rfl, hu, .present hd⟩

theorem gives_varDeclaration (h : inner.Sound mode) :
    Gives mode (varDeclaration inner) (Reads mode.Keeps fun us s =>
      ∀ k : Token, k.kind = .kwVar → Stmt.VarDeclaration mode (k :: us) s) := by
  refine ((gives_expect .variableName).bind fun t =>
    (gives_behind (by decide) (gives_expression h)).bind fun e =>
    (gives_expect .endVar).bind fun _ => gives_pure _).mono ?_
  rintro ts _ rest ⟨_, t, ⟨rfl, ht⟩, mid, o, ho, _, s, ⟨rfl, hs⟩, rfl, rfl⟩
  cases o with
  | none =>
    obtain rfl : s :: rest = _ := ho
    exact ⟨[t, s], [t, s], rfl, Mode.keeps_refl _ _, fun k hk => .plain hk ht hs⟩
  | some e =>
    obtain ⟨eq, _, rfl, heq, us, cs, rfl, hu, hd⟩ := ho
    exact ⟨t :: eq :: (us ++ [s]), t :: eq :: (cs ++ [s]), by simp,
      ((hu.append (Mode.keeps_refl _ _)).cons eq).cons t,
      fun k hk => .initialized hk ht heq hd hs⟩

/-- An expression begins with the token that was next, also where tokens are left out. -/
theorem first_of_keeps {us cs : List Token} {e : Expr} (hu : mode.Keeps us cs)
    (hd : Expr.Derivation mode .assignment us e) (rest : List Token) :
    ∃ vs, us = (cs ++ rest).headD (.endOfInput .nowhere) :: vs := by
  obtain ⟨t, vs, rfl, _⟩ := hd.startsWith
  cases cs with
  | nil => exact absurd hu.head? (by simp)
  | cons c cs =>
    obtain rfl : t = c := by simpa using hu.head?
    exact ⟨vs, rfl⟩

theorem gives_expressionStatement (h : inner.Sound mode) :
    Gives mode (expressionStatement inner) (Reads mode.Keeps (Stmt.Expression mode)) := by
  refine gives_seen fun t => ((gives_expression h).bind fun e =>
    (gives_expect .endExpression).bind fun _ => gives_pure _).mono ?_
  rintro ts _ rest ⟨_, e, ⟨us, cs, rfl, hu, hd⟩, _, s, ⟨rfl, hs⟩, rfl, rfl⟩ rfl
  obtain ⟨vs, hvs⟩ := first_of_keeps hu hd (s :: rest)
  rw [hvs] at hu hd
  exact ⟨_ :: vs ++ [s], cs ++ [s], by simp, hu.append (Mode.keeps_refl _ _), .mk hd hs⟩

theorem gives_printStatement (h : inner.Sound mode) {k : Token} (hk : k.kind = .kwPrint) :
    Gives mode (printStatement inner k.loc)
      (Reads mode.Picks fun us s => Stmt.Derivation mode (.statement false) (k :: us) s) := by
  refine ((gives_expression h).bind fun e => (gives_expect .endPrint).bind fun _ =>
    gives_pure _).mono ?_
  rintro ts _ rest ⟨_, e, ⟨us, cs, rfl, hu, hd⟩, _, s, ⟨rfl, hs⟩, rfl, rfl⟩
  exact ⟨us ++ [s], cs ++ [s], by simp, hu.picks.append (Mode.picks_refl _ _), .print hk hd hs⟩

theorem gives_returnStatement (h : inner.Sound mode) {k : Token} (hk : k.kind = .kwReturn) :
    Gives mode (returnStatement inner k.loc)
      (Reads mode.Picks fun us s => Stmt.Derivation mode (.statement false) (k :: us) s) := by
  refine ((gives_optionalExpression h .semicolon).bind fun e =>
    (gives_expect .endReturn).bind fun _ => gives_pure _).mono ?_
  rintro ts _ rest ⟨_, e, ⟨us, cs, rfl, hu, hd⟩, _, s, ⟨rfl, hs⟩, rfl, rfl⟩
  exact ⟨us ++ [s], cs ++ [s], by simp, hu.picks.append (Mode.picks_refl _ _),
    .returnStmt hk hd hs⟩

/-! ## Statements with statements inside -/

theorem gives_ifStatement (h : inner.Sound mode) {k : Token} (hk : k.kind = .kwIf) :
    Gives mode (ifStatement inner k.loc)
      (Ends mode fun o us s => Stmt.Derivation mode (.statement o) (k :: us) s) := by
  refine ((gives_expect .openIf).bind fun _ => (gives_expression h).bind fun e =>
    (gives_expect .closeIf).bind fun _ => h.statement.bind fun s => gives_choice (R := fun ts b rest =>
      headKind ts ≠ .kwElse ∧ b = Stmt.ifThen e s k.loc ∧ rest = ts ∨
      ∃ m vs s', ts = m :: vs ∧ m.kind = .kwElse ∧ b = Stmt.ifElse e s s' k.loc ∧
        Ends mode (fun o => Stmt.Derivation mode (.statement o)) vs s' rest)
    (by decide) (fun m => ?_) ?_).mono ?_
  · refine (h.statement.bind fun s' => gives_pure _).mono ?_
    rintro ts _ rest ⟨_, s', hs, rfl, rfl⟩ hm
    exact .inr ⟨m, ts, s', rfl, by simpa using hm, rfl, hs⟩
  · refine (gives_pure _).mono ?_
    rintro ts _ rest ⟨rfl, rfl⟩ hm
    exact .inl ⟨by simpa using hm, rfl, rfl⟩
  · rintro ts b rest ⟨_, l, ⟨rfl, hl⟩, _, e, ⟨us, cs, rfl, hu, he⟩, _, r, ⟨rfl, hr⟩, _, s,
      ⟨o, ⟨vs, ds, rfl, hv, hs⟩, hopen⟩, hb⟩
    rcases hb with ⟨hne, rfl, rfl⟩ | ⟨m, _, s', rfl, hm, rfl, o', ⟨ws, es, rfl, hw, hs'⟩, hopen'⟩
    · exact ⟨true, ⟨l :: (us ++ r :: vs), l :: (cs ++ r :: ds), by simp,
        (hu.picks.append (hv.cons r)).cons l, .ifThen hk hl he hr hs⟩, fun _ => hne⟩
    · obtain rfl : o = false := Bool.eq_false_iff.2 fun ho => hopen ho hm
      exact ⟨o', ⟨l :: (us ++ r :: (vs ++ m :: ws)), l :: (cs ++ r :: (ds ++ m :: es)), by simp,
        (hu.picks.append ((hv.append (hw.cons m)).cons r)).cons l,
        .ifElse hk hl he hr hs hm hs'⟩, hopen'⟩

theorem gives_whileStatement (h : inner.Sound mode) {k : Token} (hk : k.kind = .kwWhile) :
    Gives mode (whileStatement inner k.loc)
      (Ends mode fun o us s => Stmt.Derivation mode (.statement o) (k :: us) s) := by
  refine ((gives_expect .openWhile).bind fun _ => (gives_expression h).bind fun e =>
    (gives_expect .closeWhile).bind fun _ => h.statement.bind fun s => gives_pure _).mono ?_
  rintro ts _ rest ⟨_, l, ⟨rfl, hl⟩, _, e, ⟨us, cs, rfl, hu, he⟩, _, r, ⟨rfl, hr⟩, _, s,
    ⟨o, ⟨vs, ds, rfl, hv, hs⟩, hopen⟩, rfl, rfl⟩
  exact ⟨o, ⟨l :: (us ++ r :: vs), l :: (cs ++ r :: ds), by simp,
    (hu.picks.append (hv.cons r)).cons l, .whileLoop hk hl he hr hs⟩, hopen⟩

theorem gives_forInitializer (h : inner.Sound mode) :
    Gives mode (forInitializer inner) (Reads mode.Keeps (Stmt.ForStart mode)) := by
  refine gives_choice (by decide) (fun t => ?_) (.mono (gives_choice (by decide)
    (R := Reads mode.Keeps (Stmt.ForStart mode)) (fun k => ?_) ?_) fun _ _ _ hs _ => hs)
  · refine (gives_pure none).mono ?_
    rintro ts _ rest ⟨rfl, rfl⟩ ht
    exact ⟨[t], [t], rfl, Mode.keeps_refl _ _, .absent (by simpa using ht)⟩
  · refine ((gives_varDeclaration h).map some).mono ?_
    rintro ts _ rest ⟨s, ⟨us, cs, rfl, hu, hs⟩, rfl⟩ hk
    exact ⟨k :: us, k :: cs, rfl, hu.cons k, .var (hs k (by simpa using hk))⟩
  · refine ((gives_expressionStatement h).map some).mono ?_
    rintro ts _ rest ⟨s, ⟨us, cs, rfl, hu, hs⟩, rfl⟩ _
    exact ⟨us, cs, rfl, hu, .expression hs⟩

theorem gives_forStep (h : inner.Sound mode) :
    Gives mode (forStep inner) fun ts s rest => ∃ r : Token, r.kind = .rightParen ∧
      Reads mode.Keeps (fun us s => ∃ vs, us = vs ++ [r] ∧ Stmt.ForStep mode vs s) ts s rest := by
  refine gives_seen fun t => ((gives_unlessNext (gives_expression h)).bind fun o =>
    (gives_expect .closeFor).bind fun _ => gives_pure _).mono ?_
  rintro ts _ rest ⟨mid, o, ho, _, r, ⟨rfl, hr⟩, rfl, rfl⟩ rfl
  refine ⟨r, hr, ?_⟩
  cases o with
  | none =>
    obtain rfl : r :: rest = ts := ho
    exact ⟨[r], [r], rfl, Mode.keeps_refl _ _, [], rfl, .absent⟩
  | some e =>
    obtain ⟨us, cs, rfl, hu, hd⟩ := ho
    obtain ⟨vs, hvs⟩ := first_of_keeps hu hd (r :: rest)
    rw [hvs] at hu hd
    exact ⟨_ :: vs ++ [r], cs ++ [r], by simp, hu.append (Mode.keeps_refl _ _), _, rfl,
      .present hd⟩

theorem gives_forStatement (h : inner.Sound mode) {k : Token} (hk : k.kind = .kwFor) :
    Gives mode (forStatement inner k.loc)
      (Ends mode fun o us s => Stmt.Derivation mode (.statement o) (k :: us) s) := by
  have condition : Gives mode (forCondition inner) fun ts e rest => ∃ m : Token,
      m.kind = .semicolon ∧
      Reads mode.Keeps (fun us e => ∃ vs, us = vs ++ [m] ∧ Expr.Optional mode vs e) ts e rest := by
    refine ((gives_optionalExpression h .semicolon).bind fun e =>
      (gives_expect .endForCondition).bind fun _ => gives_pure _).mono ?_
    rintro ts _ rest ⟨_, e, ⟨us, cs, rfl, hu, hd⟩, _, m, ⟨rfl, hm⟩, rfl, rfl⟩
    exact ⟨m, hm, us ++ [m], cs ++ [m], by simp, hu.append (Mode.keeps_refl _ _), us, rfl, hd⟩
  refine ((gives_expect .openFor).bind fun _ => (gives_forInitializer h).bind fun start =>
    condition.bind fun e => (gives_forStep h).bind fun step => h.statement.bind fun s =>
    gives_pure _).mono ?_
  rintro ts _ rest ⟨_, l, ⟨rfl, hl⟩, _, start, ⟨is, ds₁, rfl, hi, hstart⟩, _, e,
    ⟨m, hm, _, ds₂, rfl, hc, cs, rfl, he⟩, _, step, ⟨r, hr, _, ds₃, rfl, hs, ss, rfl, hstep⟩,
    _, s, ⟨o, ⟨us, ds₄, rfl, hu, hd⟩, hopen⟩, rfl, rfl⟩
  refine ⟨o, ⟨l :: (is ++ (cs ++ m :: (ss ++ r :: us))), l :: (ds₁ ++ (ds₂ ++ (ds₃ ++ ds₄))),
    by simp, ?_, ?_⟩, hopen⟩
  · have := hi.picks.append (hc.picks.append (hs.picks.append hu))
    simpa using this.cons l
  · have := Stmt.Derivation.forLoop hk hl hstart he hm hstep hr hd rfl rfl
    cases start <;> cases step <;> exact this

/-! ## Declarations -/

/-- A declaration is read as the grammar says, or else the parser recovers. -/
theorem exists_recovering_eq_declaration (h : inner.Sound mode) :
    ∃ p, declaration inner = recovering p ∧
      Gives mode p (Reads mode.Picks (Stmt.Derivation mode .declaration)) := by
  refine ⟨_, rfl, gives_choice (by decide) (fun k => ?_) (.mono (gives_choice (by decide)
    (R := Reads mode.Picks (Stmt.Derivation mode .declaration)) (fun k => ?_) ?_)
    fun _ _ _ hs _ => hs)⟩
  · refine h.function.mono ?_
    rintro ts s rest ⟨us, cs, rfl, hu, hd⟩ hk
    exact ⟨k :: us, k :: cs, rfl, hu.cons k, hd k (by simpa using hk)⟩
  · refine (gives_varDeclaration h).mono ?_
    rintro ts s rest ⟨us, cs, rfl, hu, hd⟩ hk
    exact ⟨k :: us, k :: cs, rfl, hu.picks.cons k, .var (hd k (by simpa using hk))⟩
  · refine h.statement.mono ?_
    rintro ts s rest ⟨o, ⟨us, cs, rfl, hu, hd⟩, _⟩ _
    exact ⟨us, cs, rfl, hu, .statement hd⟩

theorem gives_declaration (h : inner.Sound mode) :
    Gives mode (declaration inner)
      (Reads mode.Picks (OrLeft mode (Stmt.Derivation mode .declaration))) := by
  obtain ⟨p, hp, hgives⟩ := exists_recovering_eq_declaration h
  rw [hp]
  exact gives_recovering hgives

theorem gives_block (h : inner.Sound mode) :
    Gives mode (block inner) fun ts ss rest => ∃ c : Token, c.kind = .rightBrace ∧
      Reads mode.Picks (fun us ss => ∃ vs, us = vs ++ [c] ∧
        Row (Stmt.Derivation mode .declaration) vs ss) ts ss rest := by
  refine ((gives_manyUntil (gives_declaration h)).bind fun ss =>
    (gives_expect .closeBlock).bind fun _ => gives_pure _).mono ?_
  rintro ts _ rest ⟨_, ss, ⟨us, cs, rfl, hu, hd⟩, _, c, ⟨rfl, hc⟩, rfl, rfl⟩
  exact ⟨c, hc, us ++ [c], cs ++ [c], by simp, hu.append (Mode.picks_refl _ _), us, rfl, hd⟩

theorem gives_parameters :
    Gives mode parameters (Reads mode.Keeps fun us names => ∃ ps : List Token,
      mode.Allows ps.length ∧ (∀ p ∈ ps, p.kind = .identifier) ∧
      CommaSeparated (ps.map fun p => [p]) us ∧ names = ps.map Token.named) := by
  have tokens (items : List (List Token × Name))
      (h : ∀ i ∈ items, ∃ t : Token, i.1 = [t] ∧ t.kind = .identifier ∧ i.2 = t.named) :
      ∃ ps : List Token, (∀ p ∈ ps, p.kind = .identifier) ∧
        items.map Prod.fst = ps.map (fun p => [p]) ∧ items.map Prod.snd = ps.map Token.named := by
    induction items with
    | nil => exact ⟨[], by simp, rfl, rfl⟩
    | cons i items ih =>
      obtain ⟨⟨t, hi, ht, hn⟩, h⟩ := List.forall_mem_cons.1 h
      obtain ⟨ps, hp, hf, hs⟩ := ih h
      exact ⟨t :: ps, List.forall_mem_cons.2 ⟨ht, hp⟩, by simp [hi, hf], by simp [hn, hs]⟩
  have item : Gives mode (Token.named <$> expect .parameterName) (Reads mode.Keeps fun us name =>
      ∃ t : Token, us = [t] ∧ t.kind = .identifier ∧ name = t.named) := by
    refine ((gives_expect .parameterName).map Token.named).mono ?_
    rintro ts _ rest ⟨t, ⟨rfl, ht⟩, rfl⟩
    exact ⟨[t], [t], rfl, Mode.keeps_refl _ _, t, rfl, ht, rfl⟩
  refine (gives_list item).mono ?_
  rintro ts _ rest ⟨us, cs, rfl, hu, hallow, items, hi, hs, rfl⟩
  obtain ⟨ps, hp, hf, hn⟩ := tokens items hi
  rw [hf] at hs
  rw [hn, List.length_map] at hallow
  exact ⟨us, cs, rfl, hu, ps, hallow, hp, hs, hn⟩

theorem gives_function (h : inner.Sound mode) :
    Gives mode (Parser.function inner) (Reads mode.Picks fun us s =>
      ∀ k : Token, k.kind = .kwFun → Stmt.Derivation mode .declaration (k :: us) s) := by
  refine ((gives_expect .functionName).bind fun t => (gives_expect .openParameters).bind fun _ =>
    gives_parameters.bind fun names => (gives_expect .closeParameters).bind fun _ =>
    (gives_expect .openBody).bind fun _ => (gives_block h).bind fun body => gives_pure _).mono ?_
  rintro ts _ rest ⟨_, t, ⟨rfl, ht⟩, _, l, ⟨rfl, hl⟩, _, _,
    ⟨us, cs, rfl, hu, ps, hallow, hp, hs, rfl⟩, _, r, ⟨rfl, hr⟩, _, b, ⟨rfl, hb⟩, _, _,
    ⟨c, hc, _, ds, rfl, hv, vs, rfl, items, hitems, rfl, rfl⟩, rfl, rfl⟩
  refine ⟨t :: l :: (us ++ r :: b :: (items.flatMap Prod.fst ++ [c])),
    t :: l :: (cs ++ r :: b :: ds), by simp, ?_, fun k hk =>
    .function hk ht hl hallow hp hs hr hb hitems hc⟩
  exact ((hu.picks.append ((hv.cons b).cons r)).cons l).cons t

theorem gives_statement (h : inner.Sound mode) :
    Gives mode (Parser.statement inner)
      (Ends mode fun o us s => Stmt.Derivation mode (.statement o) us s) := by
  have closed {us cs rest : List Token} {s : Stmt} (k : Token) (hu : mode.Picks us cs)
      (hd : Stmt.Derivation mode (.statement false) (k :: us) s) :
      Ends mode (fun o us s => Stmt.Derivation mode (.statement o) us s) (k :: (cs ++ rest)) s rest :=
    ⟨false, ⟨k :: us, k :: cs, rfl, hu.cons k, hd⟩, nofun⟩
  have behind {ts rest : List Token} {s : Stmt} (k : Token)
      (hs : Ends mode (fun o us s => Stmt.Derivation mode (.statement o) (k :: us) s) ts s rest) :
      Ends mode (fun o us s => Stmt.Derivation mode (.statement o) us s) (k :: ts) s rest := by
    obtain ⟨o, ⟨us, cs, rfl, hu, hd⟩, hopen⟩ := hs
    exact ⟨o, ⟨k :: us, k :: cs, rfl, hu.cons k, hd⟩, hopen⟩
  refine gives_seen fun k => ?_
  split
  · next hk =>
    refine gives_taken (by rw [hk]; decide) (gives_printStatement h hk) ?_
    rintro ts s rest ⟨us, cs, rfl, hu, hd⟩
    exact closed k hu hd
  · next hk =>
    exact gives_taken (by rw [hk]; decide) (gives_ifStatement h hk) fun _ _ _ => behind k
  · next hk =>
    exact gives_taken (by rw [hk]; decide) (gives_whileStatement h hk) fun _ _ _ => behind k
  · next hk =>
    exact gives_taken (by rw [hk]; decide) (gives_forStatement h hk) fun _ _ _ => behind k
  · next hk =>
    refine gives_taken (by rw [hk]; decide) (gives_returnStatement h hk) ?_
    rintro ts s rest ⟨us, cs, rfl, hu, hd⟩
    exact closed k hu hd
  · next hk =>
    refine gives_taken (by rw [hk]; decide) ((gives_block h).bind fun body => gives_pure _) ?_
    rintro ts _ rest ⟨_, _, ⟨c, hc, _, cs, rfl, hu, us, rfl, items, hitems, rfl, rfl⟩, rfl, rfl⟩
    exact closed k hu (.block hk hitems hc)
  · refine (gives_expressionStatement h).mono ?_
    rintro ts s rest ⟨us, cs, rfl, hu, hd⟩ _
    exact ⟨false, ⟨us, cs, rfl, hu.picks, .expression hd⟩, nofun⟩

/-- **One level up.** The parsers above sound ones are sound. -/
theorem above (h : inner.Sound mode) : inner.above.Sound mode where
  assignment := gives_assignment h
  operand := gives_operand h
  chain _ _ left hs := gives_chain h hs left
  unary := gives_unary h
  calls := gives_calls h
  arguments := gives_arguments h
  statement := gives_statement h
  function := gives_function h

end Grammar.Sound

theorem Grammar.sound_ofLevels (mode : Mode) (n : Nat) : (Grammar.ofLevels n).Sound mode := by
  induction n with
  | zero => exact Grammar.sound_tooDeep mode
  | succ n ih => exact ih.above

end Lox
