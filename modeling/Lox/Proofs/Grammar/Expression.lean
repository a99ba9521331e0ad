import Lox.Proofs.Grammar.Triple

/-!
# Expressions are read as the grammar says

`Grammar.Sound` says of the parsers of one depth that what they give has a derivation. The tokens
of the derivation are those that were taken, in an exact reading; in a tolerant one, tokens may be
left out where an assignment has no target or where recovery passed over a statement.
This module carries the property one level up for the parsers of expressions.
-/

namespace Lox

/-! ## Tokens used and tokens taken -/

/-- How the tokens of an expression lie in those taken: in a tolerant reading some may be left out,
but not the first. -/
def Mode.Keeps (mode : Mode) (used taken : List Token) : Prop :=
  match mode with
  | .exact => used = taken
  | .tolerant => used.Sublist taken ∧ used.head? = taken.head?

/-- How the tokens of statements lie in those taken. -/
def Mode.Picks (mode : Mode) (used taken : List Token) : Prop :=
  match mode with
  | .exact => used = taken
  | .tolerant => used.Sublist taken

namespace Mode

variable {mode : Mode} {us cs vs ds : List Token}

theorem keeps_refl (mode : Mode) (us : List Token) : mode.Keeps us us := by
  cases mode with
  | exact => rfl
  | tolerant => exact ⟨List.Sublist.refl us, rfl⟩

theorem Keeps.append (h : mode.Keeps us cs) (h' : mode.Keeps vs ds) :
    mode.Keeps (us ++ vs) (cs ++ ds) := by
  cases mode with
  | exact =>
    cases h
    cases h'
    rfl
  | tolerant => exact ⟨h.1.append h'.1, by rw [List.head?_append, List.head?_append, h.2, h'.2]⟩

theorem Keeps.head? (h : mode.Keeps us cs) : us.head? = cs.head? := by
  cases mode with
  | exact => exact congrArg List.head? h
  | tolerant => exact h.2

theorem Keeps.picks (h : mode.Keeps us cs) : mode.Picks us cs := by
  cases mode with
  | exact => exact h
  | tolerant => exact h.1

theorem picks_refl (mode : Mode) (us : List Token) : mode.Picks us us := (keeps_refl mode us).picks

theorem Picks.append (h : mode.Picks us cs) (h' : mode.Picks vs ds) :
    mode.Picks (us ++ vs) (cs ++ ds) := by
  cases mode with
  | exact =>
    cases h
    cases h'
    rfl
  | tolerant => exact List.Sublist.append h h'

theorem Keeps.cons (h : mode.Keeps us cs) (t : Token) : mode.Keeps (t :: us) (t :: cs) :=
  (keeps_refl mode [t]).append h

theorem Picks.cons (h : mode.Picks us cs) (t : Token) : mode.Picks (t :: us) (t :: cs) :=
  (picks_refl mode [t]).append h

/-- Recovery and a missing assignment target leave tokens out of a tolerant reading. -/
theorem Keeps.leave (h : Mode.tolerant.Keeps us cs) (hu : us ≠ []) (ds : List Token) :
    Mode.tolerant.Keeps us (cs ++ ds) := by
  refine ⟨h.1.trans (List.sublist_append_left cs ds), ?_⟩
  cases cs with
  | nil => exact absurd (List.head?_eq_none_iff.1 h.2) hu
  | cons c cs => exact h.2

end Mode

namespace Parser

variable {α : Type} {mode : Mode}

/-- The result has a derivation from the tokens taken, up to those left out. -/
def Reads (keeps : List Token → List Token → Prop) (D : List Token → α → Prop) : Effect α :=
  fun ts a rest => ∃ us cs, ts = cs ++ rest ∧ keeps us cs ∧ D us a

/-! ## Lists -/

/-- Items with commas between neighbours. -/
def Items (D : List Token → α → Prop) (ts : List Token) (as : List α) : Prop :=
  ∃ items : List (List Token × α), (∀ i ∈ items, D i.1 i.2) ∧
    CommaSeparated (items.map Prod.fst) ts ∧ as = items.map Prod.snd

theorem Items.one {D : List Token → α → Prop} {ts : List Token} {a : α} (h : D ts a) :
    Items D ts [a] := ⟨[(ts, a)], by simpa using h, .one ts, rfl⟩

theorem Items.cons {D : List Token → α → Prop} {ts us : List Token} {a : α} {as : List α}
    {comma : Token} (h : D ts a) (hk : comma.kind = .comma) (hs : Items D us as) (ha : as ≠ []) :
    Items D (ts ++ comma :: us) (a :: as) := by
  obtain ⟨items, hi, hc, rfl⟩ := hs
  cases items with
  | nil => exact absurd rfl ha
  | cons i items =>
    exact ⟨(ts, a) :: i :: items, List.forall_mem_cons.2 ⟨h, hi⟩, .cons hk hc, rfl⟩

variable {excess : ParseProblem} {item : Parser α} {D : List Token → α → Prop}

/-- In an exact reading the list has not reached its bound. -/
theorem gives_checkCount (count : Nat) :
    Gives mode (checkCount excess count) fun ts _ rest => (mode = .exact → count < 255) ∧ rest = ts := by
  refine Gives.ite (fun _ => ?_) fun h => ?_
  · refine (gives_peek.bind fun t => gives_report excess t).mono ?_
    rintro ts _ rest ⟨mid, t, ⟨_, rfl⟩, rfl, rfl⟩
    exact ⟨nofun, rfl⟩
  · refine (gives_pure ()).mono ?_
    rintro ts _ rest ⟨_, rfl⟩
    exact ⟨fun _ => Nat.lt_of_not_le h, rfl⟩

/-- A list that goes on has one round less to go and a comma less in front of it, so the rounds do
not run out before the tokens. -/
theorem gives_commaSeparatedFrom (hi : Gives mode item (Reads mode.Keeps D)) :
    ∀ rounds count, Gives mode (commaSeparatedFrom excess item rounds count) fun ts as rest =>
      ts.length < rounds → Reads mode.Keeps
        (fun us as => as ≠ [] ∧ (mode = .exact → count + as.length ≤ 255) ∧ Items D us as) ts as rest
  | 0, _ => (gives_pure []).mono fun _ _ _ _ h => absurd h (Nat.not_lt_zero _)
  | rounds + 1, count => by
    refine ((gives_checkCount count).bind fun _ => hi.bind fun first =>
      gives_choice (R := fun ts as rest => ts.length ≤ rounds → (mode = .exact → count < 255) →
        ∀ us cs, mode.Keeps us cs → D us first → Reads mode.Keeps
          (fun us as => as ≠ [] ∧ (mode = .exact → count + as.length ≤ 255) ∧ Items D us as)
          (cs ++ ts) as rest) (by decide) (fun comma => ?_) ?_).mono ?_
    · refine ((gives_commaSeparatedFrom hi rounds (count + 1)).bind fun bs => gives_pure _).mono ?_
      rintro ts _ rest ⟨_, bs, hb, rfl, rfl⟩ hk hlen _ us cs hu hd
      obtain ⟨vs, ds, rfl, hv, hne, hbound, hitems⟩ := hb hlen
      refine ⟨us ++ comma :: vs, cs ++ comma :: ds, by simp, hu.append (hv.cons comma),
        List.cons_ne_nil _ _, fun h => ?_, .cons hd (by simpa using hk) hitems hne⟩
      have := hbound h
      rw [List.length_cons]
      omega
    · refine (gives_pure [first]).mono ?_
      rintro ts _ rest ⟨rfl, rfl⟩ _ _ hcount us cs hu hd
      exact ⟨us, cs, rfl, hu, List.cons_ne_nil _ _, fun h => hcount h, .one hd⟩
    · rintro ts as rest ⟨_, _, ⟨hcount, rfl⟩, mid, first, ⟨us, cs, rfl, hu, hd⟩, ha⟩ hlen
      have := hd
      refine ha ?_ hcount us cs hu hd
      rw [List.length_append] at hlen
      omega

theorem gives_commaSeparated (hi : Gives mode item (Reads mode.Keeps D)) :
    Gives mode (commaSeparated excess item)
      (Reads mode.Keeps fun us as => mode.Allows as.length ∧ Items D us as) := by
  refine (gives_remaining.bind fun n => gives_commaSeparatedFrom hi (n + 1) 0).mono ?_
  rintro ts as rest ⟨_, n, ⟨rfl, rfl⟩, h⟩
  obtain ⟨us, cs, rfl, hk, _, hbound, hitems⟩ := h (Nat.lt_succ_self _)
  exact ⟨us, cs, rfl, hk, fun hm => by simpa using hbound hm, hitems⟩

/-- A list of arguments or parameters, possibly empty, in front of the closing parenthesis. -/
theorem gives_list (hi : Gives mode item (Reads mode.Keeps D)) :
    Gives mode
      (do if ← check .rightParen then return [] else commaSeparated excess item)
      (Reads mode.Keeps fun us as => mode.Allows as.length ∧ Items D us as) := by
  refine ((gives_check .rightParen).bind fun b => Gives.ite
    (R := Reads mode.Keeps fun us as => mode.Allows as.length ∧ Items D us as)
    (fun _ => ?_) fun _ => gives_commaSeparated hi).mono ?_
  · refine (gives_pure []).mono ?_
    rintro ts as rest ⟨rfl, rfl⟩
    exact ⟨[], [], rfl, Mode.keeps_refl _ _, fun _ => Nat.zero_le _, [], by simp, .none, rfl⟩
  · rintro ts as rest ⟨mid, b, ⟨_, rfl⟩, h⟩
    exact h

end Parser

/-! ## Tiers are levels -/

/-- The level of a tier of binary operators. -/
def Tier.level : Tier → Level
  | .or => .disjunction
  | .and => .conjunction
  | .equality => .equality
  | .comparison => .comparison
  | .sum => .sum
  | .product => .product

/-- The level of operands of the given tiers. -/
def Level.ofTiers : List Tier → Level
  | [] => .unary
  | tier :: _ => tier.level

theorem Tier.operators_level (tier : Tier) : tier.level.operators = tier.operators := by
  cases tier <;> rfl

theorem Tier.node_level (tier : Tier) : tier.level.node = tier.join := by
  cases tier <;> rfl

theorem tighter?_ofTiers {tier : Tier} {tighter : List Tier} (h : tier :: tighter <:+ Tier.all) :
    tier.level.tighter? = some (Level.ofTiers tighter) := by
  simp only [Tier.all, List.suffix_cons_iff, List.cons.injEq, List.suffix_nil, reduceCtorEq] at h
  rcases h with ⟨rfl, rfl⟩ | ⟨rfl, rfl⟩ | ⟨rfl, rfl⟩ | ⟨rfl, rfl⟩ | ⟨rfl, rfl⟩ | ⟨rfl, rfl⟩ | h <;>
    first | rfl | exact h.elim

theorem suffix_of_cons {tier : Tier} {tighter : List Tier} (h : tier :: tighter <:+ Tier.all) :
    tighter <:+ Tier.all := (List.suffix_cons tier tighter).trans h

/-! ## The parsers of one depth -/

open Parser

/-- What the parsers of one depth give has a derivation. -/
structure Grammar.Sound (mode : Mode) (G : Grammar) : Prop where
  assignment : Gives mode G.assignment (Reads mode.Keeps (Expr.Derivation mode .assignment))
  operand : ∀ tiers, tiers <:+ Tier.all →
    Gives mode (G.operand tiers) (Reads mode.Keeps (Expr.Derivation mode (.ofTiers tiers)))
  chain : ∀ tier tighter left, tier :: tighter <:+ Tier.all →
    Gives mode (G.chain tier tighter left) (Reads mode.Keeps fun us e =>
      ∀ ls, Expr.Derivation mode tier.level ls left → Expr.Derivation mode tier.level (ls ++ us) e)
  unary : Gives mode G.unary (Reads mode.Keeps (Expr.Derivation mode .unary))
  calls : ∀ callee, Gives mode (G.calls callee) (Reads mode.Keeps fun us e =>
      ∀ fs, Expr.Derivation mode .call fs callee → Expr.Derivation mode .call (fs ++ us) e)
  arguments : Gives mode G.arguments (Reads mode.Keeps fun us es =>
      mode.Allows es.length ∧ Items (Expr.Derivation mode .assignment) us es)
  statement : Gives mode G.statement fun ts s rest =>
      ∃ o, Reads mode.Picks (Stmt.Derivation mode (.statement o)) ts s rest ∧
        (o = true → headKind rest ≠ .kwElse)
  function : Gives mode G.function (Reads mode.Picks fun us s =>
      ∀ k : Token, k.kind = .kwFun → Stmt.Derivation mode .declaration (k :: us) s)

theorem Grammar.sound_tooDeep (mode : Mode) : Grammar.tooDeep.Sound mode := by
  have fails {α : Type} {R : Effect α} : Gives mode (Parser.fail .nestingTooDeep) R :=
    (gives_fail _).mono fun _ _ _ h => h.elim
  exact ⟨fails, fun _ _ => fails, fun _ _ _ _ => fails, fails, fun _ => fails, fails, fails, fails⟩

namespace Grammar.Sound

variable {mode : Mode} {inner : Grammar}

/-- What holds of a parser that has seen the next token. -/
def Seen {α : Type} (t : Token) (R : Effect α) : Effect α := fun ts a rest =>
  t = ts.headD (.endOfInput .nowhere) → R ts a rest

theorem gives_seen {α : Type} {f : Token → Parser α} {R : Effect α}
    (h : ∀ t, Gives mode (f t) (Seen t R)) : Gives mode (peek >>= f) R := by
  refine (gives_peek.bind h).mono ?_
  rintro ts a rest ⟨mid, t, ⟨rfl, rfl⟩, ha⟩
  exact ha rfl

/-- Taking the token that was seen. -/
theorem gives_taken {α : Type} {t : Token} {p : Parser α} {R S : Effect α}
    (ht : t.kind ≠ .endOfInput) (hp : Gives mode p S)
    (hs : ∀ ts a rest, S ts a rest → R (t :: ts) a rest) :
    Gives mode (skip >>= fun _ => p) (Seen t R) := by
  refine (gives_skip.bind fun _ => hp).mono ?_
  rintro ts a rest ⟨_, _, rfl, ha⟩ rfl
  obtain ⟨us, hus⟩ := eq_cons_of_headKind ht
  rw [hus] at ha ⊢
  exact hs _ _ _ ha

theorem gives_expression (h : inner.Sound mode) :
    Gives mode (expression inner) (Reads mode.Keeps (Expr.Derivation mode .assignment)) :=
  h.assignment

theorem gives_primary (h : inner.Sound mode) :
    Gives mode (primary inner) (Reads mode.Keeps (Expr.Derivation mode .primary)) := by
  refine gives_seen fun t => ?_
  have leaf {e : Expr} (hd : Expr.Derivation mode .primary [t] e) :
      Gives mode (skip >>= fun _ => pure e)
        (Seen t (Reads mode.Keeps (Expr.Derivation mode .primary))) := by
    refine gives_taken (fun hk => ?_) (gives_pure e) ?_
    · simpa [Token.isEnd, hk] using hd.noEnd
    · rintro ts _ rest ⟨rfl, rfl⟩
      exact ⟨[t], [t], rfl, Mode.keeps_refl _ _, hd⟩
  split
  · next hk => exact leaf (.literal (by simp [Token.value?, hk]))
  · next hk => exact leaf (.literal (by simp [Token.value?, hk]))
  · next hk => exact leaf (.literal (by simp [Token.value?, hk]))
  · next hk hc => exact leaf (.literal (by simp [Token.value?, hk, hc]))
  · next hk hc => exact leaf (.literal (by simp [Token.value?, hk, hc]))
  · next hk => exact leaf (.name hk)
  · next hk =>
    refine gives_taken (by rw [hk]; decide) ((gives_expression h).bind fun e =>
      (gives_expect .closeGrouping).bind fun _ => gives_pure _) ?_
    rintro ts _ rest ⟨_, e, ⟨us, cs, rfl, hu, hd⟩, _, r, ⟨rfl, hr⟩, rfl, rfl⟩
    exact ⟨t :: (us ++ [r]), t :: (cs ++ [r]), by simp, (hu.append (Mode.keeps_refl _ _)).cons t,
      .grouping hk hd hr⟩
  · exact (gives_fail _).mono fun _ _ _ h => h.elim

theorem gives_arguments (h : inner.Sound mode) :
    Gives mode (Parser.arguments inner) (Reads mode.Keeps fun us es =>
      mode.Allows es.length ∧ Items (Expr.Derivation mode .assignment) us es) :=
  gives_list (gives_expression h)

theorem gives_calls (h : inner.Sound mode) (callee : Expr) :
    Gives mode (Parser.calls inner callee) (Reads mode.Keeps fun us e =>
      ∀ fs, Expr.Derivation mode .call fs callee → Expr.Derivation mode .call (fs ++ us) e) := by
  refine gives_choice (by decide) (fun l => ?_) ?_
  · refine (h.arguments.bind fun args => (gives_expect .closeArguments).bind fun r =>
      h.calls (.call callee args r.loc)).mono ?_
    rintro ts e rest ⟨_, args, ⟨us, cs, rfl, hu, hallow, items, hi, hs, rfl⟩, _, r, ⟨rfl, hr⟩,
      vs, ds, rfl, hv, hd⟩ hl
    refine ⟨l :: (us ++ r :: vs), l :: (cs ++ r :: ds), by simp, (hu.append (hv.cons r)).cons l,
      fun fs hf => ?_⟩
    have := hd _ (.call hf (by simpa using hl) (by simpa using hallow) hi hs hr)
    simpa using this
  · refine (gives_pure callee).mono ?_
    rintro ts _ rest ⟨rfl, rfl⟩ _
    exact ⟨[], [], rfl, Mode.keeps_refl _ _, by simp⟩

theorem gives_unary (h : inner.Sound mode) :
    Gives mode (Parser.unary inner) (Reads mode.Keeps (Expr.Derivation mode .unary)) := by
  refine gives_choice (by decide) (fun t => ?_) ?_
  · refine (h.unary.bind fun e => gives_pure _).mono ?_
    rintro ts _ rest ⟨_, e, ⟨us, cs, rfl, hu, hd⟩, rfl, rfl⟩ ht
    exact ⟨t :: us, t :: cs, rfl, hu.cons t, .unary (by simpa [prefixedOperators] using ht) hd⟩
  · refine ((gives_primary h).bind fun e => gives_calls h e).mono ?_
    rintro ts e rest ⟨_, f, ⟨us, cs, rfl, hu, hf⟩, vs, ds, rfl, hv, hd⟩ _
    exact ⟨us ++ vs, cs ++ ds, by simp, hu.append hv, .tighter rfl (hd us (.tighter rfl hf))⟩

theorem gives_chain (h : inner.Sound mode) {tier : Tier} {tighter : List Tier}
    (hs : tier :: tighter <:+ Tier.all) (left : Expr) :
    Gives mode (Parser.chain inner tier tighter left) (Reads mode.Keeps fun us e =>
      ∀ ls, Expr.Derivation mode tier.level ls left →
        Expr.Derivation mode tier.level (ls ++ us) e) := by
  refine gives_choice (by cases tier <;> decide) (fun t => ?_) ?_
  · refine ((h.operand tighter (suffix_of_cons hs)).bind fun right =>
      h.chain tier tighter (tier.join t.operator left right) hs).mono ?_
    rintro ts e rest ⟨_, right, ⟨us, cs, rfl, hu, hr⟩, vs, ds, rfl, hv, hd⟩ ht
    rw [← Tier.operators_level] at ht
    rw [← Tier.node_level] at hd
    refine ⟨t :: (us ++ vs), t :: (cs ++ ds), by simp, (hu.append hv).cons t, fun ls hl => ?_⟩
    simpa using hd _ (.joined ht (tighter?_ofTiers hs) hl hr)
  · refine (gives_pure left).mono ?_
    rintro ts _ rest ⟨rfl, rfl⟩ _
    exact ⟨[], [], rfl, Mode.keeps_refl _ _, by simp⟩

theorem gives_operand (h : inner.Sound mode) : ∀ tiers, tiers <:+ Tier.all →
    Gives mode (Parser.operand inner tiers)
      (Reads mode.Keeps (Expr.Derivation mode (.ofTiers tiers)))
  | [], _ => gives_unary h
  | tier :: tighter, hs => by
    refine ((gives_operand h tighter (suffix_of_cons hs)).bind fun left =>
      gives_chain h hs left).mono ?_
    rintro ts e rest ⟨_, left, ⟨us, cs, rfl, hu, hl⟩, vs, ds, rfl, hv, hd⟩
    exact ⟨us ++ vs, cs ++ ds, by simp, hu.append hv, hd us (.tighter (tighter?_ofTiers hs) hl)⟩

/-- The value behind an equals sign, and what becomes of the target in front of it. A target that
is no name is all that a tolerant reading keeps. -/
theorem gives_assigned (h : inner.Sound mode) (eq : Token) (target : Expr) :
    Gives mode
      (inner.assignment >>= fun value => match target with
        | .reference name _ => pure (.assign name none value)
        | _ => do
          report .invalidAssignmentTarget eq
          return target)
      (fun ts e rest => eq.kind = .equal → ∀ us cs, mode.Keeps us cs →
        Expr.Derivation mode .disjunction us target →
        Reads mode.Keeps (Expr.Derivation mode .assignment) (cs ++ eq :: ts) e rest) := by
  refine (h.assignment.bind (S := fun value ts e rest => rest = ts ∧
    ((∃ name d, target = .reference name d ∧ e = .assign name none value) ∨
      (mode = .tolerant ∧ e = target))) fun value => ?_).mono ?_
  · split
    · next name d =>
      refine (gives_pure _).mono ?_
      rintro ts _ rest ⟨rfl, rfl⟩
      exact ⟨rfl, .inl ⟨name, d, rfl, rfl⟩⟩
    · refine ((gives_report _ _).bind fun _ => gives_pure _).mono ?_
      rintro ts _ rest ⟨_, _, ⟨hm, rfl⟩, rfl, rfl⟩
      exact ⟨rfl, .inr ⟨hm, rfl⟩⟩
  · rintro ts e rest ⟨_, value, ⟨vs, ds, rfl, hv, hd⟩, rfl, he⟩ heq us cs hu ht
    rcases he with ⟨name, d, rfl, rfl⟩ | ⟨rfl, rfl⟩
    · obtain ⟨t, rfl, hk, rfl, rfl⟩ := ht.of_reference
      exact ⟨t :: eq :: vs, cs ++ eq :: ds, by simp, hu.append (hv.cons eq),
        .assignment hk heq hd⟩
    · exact ⟨us, cs ++ eq :: ds, by simp, hu.leave ht.ne_nil _, .tighter rfl ht⟩

theorem gives_assignment (h : inner.Sound mode) :
    Gives mode (Parser.assignment inner)
      (Reads mode.Keeps (Expr.Derivation mode .assignment)) := by
  refine ((gives_operand h Tier.all (List.suffix_refl _)).bind fun target =>
    gives_choice (R := fun ts e rest => ∀ us cs, mode.Keeps us cs →
      Expr.Derivation mode .disjunction us target →
      Reads mode.Keeps (Expr.Derivation mode .assignment) (cs ++ ts) e rest)
    (by decide) (fun eq => ?_) ?_).mono ?_
  · refine (gives_assigned h eq target).mono ?_
    intro ts e rest he heq
    exact he (by simpa using heq)
  · refine (gives_pure target).mono ?_
    rintro ts _ rest ⟨rfl, rfl⟩ _ us cs hu ht
    exact ⟨us, cs, rfl, hu, .tighter rfl ht⟩
  · rintro ts e rest ⟨_, target, ⟨us, cs, rfl, hu, ht⟩, he⟩
    exact he us cs hu ht

end Grammar.Sound

end Lox
