import Lox.Proofs.Grammar.Basic

/-!
# What parsers give

`Parser.Gives mode p R` says that `p` only takes tokens from the front, also when it fails, and that
a result `a` of `p` stands in the relation `R` to the tokens before and after it. In the exact mode
this is said of runs that report no error, in the tolerant mode of all runs. One lemma for each way
of building a parser carries the relation through; relations are composed by `After`.
-/

namespace Lox

/-- Whether a run that reports the given errors counts. -/
def Mode.Clean (mode : Mode) (errors : List ParseError) : Prop := mode = .exact → errors = []

theorem Mode.clean_append {mode : Mode} {es es' : List ParseError} :
    mode.Clean (es ++ es') ↔ mode.Clean es ∧ mode.Clean es' := by
  simp [Mode.Clean, forall_and]

/-- The relation between the tokens before a parser, its result and the tokens behind it. -/
abbrev Effect (α : Type) := List Token → α → List Token → Prop

namespace Parser

variable {α β : Type} {mode : Mode}

/-- What is true of the results of a parser. -/
structure Gives (mode : Mode) (p : Parser α) (R : Effect α) : Prop where
  suffix : ∀ ts, (p ts).rest <:+ ts
  result : ∀ ts a rest errors, p ts = ⟨.ok a, rest, errors⟩ → mode.Clean errors → R ts a rest

/-- First one relation, then another that depends on the result. -/
def After (R : Effect α) (S : α → Effect β) : Effect β :=
  fun ts b rest => ∃ mid a, R ts a mid ∧ S a mid b rest

theorem Gives.mono {p : Parser α} {R S : Effect α} (h : Gives mode p R)
    (hs : ∀ ts a rest, R ts a rest → S ts a rest) : Gives mode p S :=
  ⟨h.suffix, fun ts a rest errors he hc => hs _ _ _ (h.result ts a rest errors he hc)⟩

/-! ## Runs in a row -/

theorem bind_ok {p : Parser α} {f : α → Parser β} {ts rest : List Token} {b : β}
    {errors : List ParseError} (h : (p >>= f) ts = ⟨.ok b, rest, errors⟩) :
    ∃ a mid es es', p ts = ⟨.ok a, mid, es⟩ ∧ f a mid = ⟨.ok b, rest, es'⟩ ∧ errors = es ++ es' := by
  rw [bind_apply, andThen] at h
  split at h
  · next a mid es hp =>
    refine ⟨a, mid, es, (f a mid).errors, hp, ?_, ?_⟩
    · cases hf : f a mid
      simp_all
    · simp_all
  · cases h

theorem bind_suffix {p : Parser α} {f : α → Parser β} (hp : ∀ ts, (p ts).rest <:+ ts)
    (hf : ∀ a ts, (f a ts).rest <:+ ts) (ts : List Token) : ((p >>= f) ts).rest <:+ ts := by
  have h := hp ts
  rw [bind_apply, andThen]
  split
  · next a mid es he =>
    rw [he] at h
    exact (hf a mid).trans h
  · next e mid es he =>
    rw [he] at h
    exact h

theorem Gives.bind {p : Parser α} {f : α → Parser β} {R : Effect α} {S : α → Effect β}
    (hp : Gives mode p R) (hf : ∀ a, Gives mode (f a) (S a)) : Gives mode (p >>= f) (After R S) := by
  refine ⟨bind_suffix hp.suffix fun a => (hf a).suffix, ?_⟩
  intro ts b rest errors h hc
  obtain ⟨a, mid, es, es', h₁, h₂, rfl⟩ := bind_ok h
  obtain ⟨hc₁, hc₂⟩ := Mode.clean_append.1 hc
  exact ⟨mid, a, hp.result _ _ _ _ h₁ hc₁, (hf a).result _ _ _ _ h₂ hc₂⟩

theorem Gives.map {p : Parser α} {R : Effect α} (hp : Gives mode p R) (f : α → β) :
    Gives mode (f <$> p) (fun ts b rest => ∃ a, R ts a rest ∧ b = f a) := by
  refine (hp.bind (f := fun a => pure (f a)) (S := fun a ts b rest => b = f a ∧ rest = ts)
    fun a => ⟨fun ts => List.suffix_refl ts, ?_⟩).mono ?_
  · intro ts b rest errors h _
    cases h
    exact ⟨rfl, rfl⟩
  · rintro ts b rest ⟨mid, a, hR, rfl, rfl⟩
    exact ⟨a, hR, rfl⟩

theorem Gives.ite {c : Prop} [Decidable c] {p q : Parser α} {R : Effect α}
    (hp : c → Gives mode p R) (hq : ¬c → Gives mode q R) :
    Gives mode (if c then p else q) R := by
  split
  · next h => exact hp h
  · next h => exact hq h

/-! ## Single steps -/

theorem gives_pure (a : α) : Gives mode (pure a) (fun ts b rest => b = a ∧ rest = ts) := by
  refine ⟨fun ts => List.suffix_refl ts, ?_⟩
  intro ts b rest errors h _
  cases h
  exact ⟨rfl, rfl⟩

theorem gives_fail (problem : ParseProblem) :
    Gives mode (fail problem : Parser α) (fun _ _ _ => False) := by
  refine ⟨fun ts => List.suffix_refl ts, ?_⟩
  intro ts b rest errors h _
  cases h

theorem gives_report (problem : ParseProblem) (found : Token) :
    Gives mode (report problem found) (fun ts _ rest => mode = .tolerant ∧ rest = ts) := by
  refine ⟨fun ts => List.suffix_refl ts, ?_⟩
  intro ts b rest errors h hc
  cases h
  refine ⟨?_, rfl⟩
  cases mode with
  | exact => exact absurd (hc rfl) (List.cons_ne_nil _ _)
  | tolerant => rfl

theorem gives_peek :
    Gives mode peek (fun ts t rest => t = ts.headD (.endOfInput .nowhere) ∧ rest = ts) := by
  refine ⟨fun ts => List.suffix_refl ts, ?_⟩
  intro ts t rest errors h _
  cases h
  exact ⟨rfl, rfl⟩

theorem gives_remaining : Gives mode remaining (fun ts n rest => n = ts.length ∧ rest = ts) := by
  refine ⟨fun ts => List.suffix_refl ts, ?_⟩
  intro ts t rest errors h _
  cases h
  exact ⟨rfl, rfl⟩

theorem gives_skip : Gives mode skip (fun ts _ rest => rest = ts.tail) := by
  refine ⟨fun ts => List.tail_suffix ts, ?_⟩
  intro ts t rest errors h _
  cases h
  rfl

/-- The kind of the next token. -/
def headKind (ts : List Token) : TokenKind := (ts.headD (.endOfInput .nowhere)).kind

@[simp] theorem headKind_nil : headKind [] = .endOfInput := rfl

@[simp] theorem headKind_cons (t : Token) (ts : List Token) : headKind (t :: ts) = t.kind := rfl

theorem eq_cons_of_headKind {ts : List Token} (h : headKind ts ≠ .endOfInput) :
    ∃ us, ts = ts.headD (.endOfInput .nowhere) :: us := by
  cases ts with
  | nil => exact absurd rfl h
  | cons t us => exact ⟨us, rfl⟩

theorem gives_check (kind : TokenKind) :
    Gives mode (check kind) (fun ts b rest => b = (headKind ts == kind) ∧ rest = ts) := by
  refine (gives_peek.bind fun t => gives_pure _).mono ?_
  rintro ts b rest ⟨mid, t, ⟨rfl, rfl⟩, rfl, rfl⟩
  exact ⟨rfl, rfl⟩

/-- A token of one of the given kinds was taken, or the next token is of none of them. -/
def Accepts (kinds : List TokenKind) : Effect (Option Token) := fun ts o rest =>
  match o with
  | some t => ts = t :: rest ∧ t.kind ∈ kinds
  | none => rest = ts ∧ headKind ts ∉ kinds

theorem gives_acceptOne {kinds : List TokenKind} (h : .endOfInput ∉ kinds) :
    Gives mode (acceptOne kinds) (Accepts kinds) := by
  refine ⟨?_, ?_⟩
  · refine bind_suffix (fun ts => List.suffix_refl ts) fun t ts => ?_
    split
    · exact List.tail_suffix ts
    · exact List.suffix_refl ts
  · intro ts o rest errors he _
    obtain ⟨t, mid, es, es', h₁, h₂, rfl⟩ := bind_ok he
    cases h₁
    split at h₂
    · next hk =>
      have hk : headKind ts ∈ kinds := List.contains_iff_mem.1 hk
      obtain ⟨us, hts⟩ := eq_cons_of_headKind fun hn => h (hn ▸ hk)
      cases h₂
      refine ⟨?_, hk⟩
      rw [hts]
      rfl
    · next hk =>
      cases h₂
      exact ⟨rfl, fun hm => hk (List.contains_iff_mem.2 hm)⟩

/-- A parser that goes on differently behind a token of the given kinds. -/
theorem gives_choice {kinds : List TokenKind} {f : Option Token → Parser α} {R : Effect α}
    (h : .endOfInput ∉ kinds)
    (hsome : ∀ t, Gives mode (f (some t)) fun ts a rest => t.kind ∈ kinds → R (t :: ts) a rest)
    (hnone : Gives mode (f none) fun ts a rest => headKind ts ∉ kinds → R ts a rest) :
    Gives mode (acceptOne kinds >>= f) R := by
  refine ((gives_acceptOne h).bind (S := fun o ts a rest => match o with
    | some t => t.kind ∈ kinds → R (t :: ts) a rest
    | none => headKind ts ∉ kinds → R ts a rest) fun o => ?_).mono ?_
  · cases o with
    | some t => exact hsome t
    | none => exact hnone
  · rintro ts a rest ⟨mid, o, ho, ha⟩
    cases o with
    | some t =>
      obtain ⟨rfl, ht⟩ := ho
      exact ha ht
    | none =>
      obtain ⟨rfl, ht⟩ := ho
      exact ha ht

theorem gives_expect (what : Expectation) :
    Gives mode (expect what) (fun ts t rest => ts = t :: rest ∧ t.kind = what.kind) := by
  refine gives_choice (by cases what <;> decide) (fun t => ?_) ?_
  · refine (gives_pure t).mono ?_
    rintro ts _ rest ⟨rfl, rfl⟩ ht
    exact ⟨rfl, by simpa using ht⟩
  · exact (gives_fail _).mono fun _ _ _ h => h.elim

end Parser

end Lox
