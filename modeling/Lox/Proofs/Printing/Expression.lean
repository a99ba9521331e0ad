import Lox.Proofs.Printing.Literal
import Lox.Proofs.Printing.Outline
import Lox.Proofs.Printing.Scanning
import Lox.Proofs.Grammar.Basic
import Mathlib.Data.List.Forall2

/-!
# Expressions are read back

The text of an expression that the parser returned is read as tokens that form an expression of the
same level with the same outline, in front of every byte that no token goes on with
(`Expr.Derivation.rereads`). No parentheses are needed for that: the tokens are those of the
derivation again, and an operator before an operand is not read together with it, because no
expression begins with an equals sign.
-/

namespace Lox

variable {ts us : List Token} {level tighter : Level}

/-! ## Tokens -/

theorem Spells.exists_body {k : TokenKind} {s : Text} (h : Spells k s) (hk : k = .string) :
    ∃ body, quote ∉ body ∧ s = quote :: (body ++ [quote]) := by
  have hkeyword : ∀ e ∈ TokenKind.keywords, e.2 ≠ .string := by decide +kernel
  have hsymbol : ∀ e ∈ TokenKind.symbols, e.2 ≠ .string := by decide +kernel
  cases h with
  | numeral => cases hk
  | @word b rest =>
    rcases ofWord_cases (b :: rest) with hw | hw
    · rw [hw] at hk
      cases hk
    · exact absurd hk (hkeyword _ hw)
  | @string body hbody => exact ⟨body, hbody, rfl⟩
  | symbol he => exact absurd hk (hsymbol _ he)

/-- A token that an expression can begin with is not read together with a `!` in front of it. -/
theorem Spells.follows_bang {k : TokenKind} {s : Text} (h : Spells k s) (hk : k ∈ Expr.starters)
    (t : Text) : TokenKind.bang.Follows (s ++ t) := by
  obtain ⟨b, rest, rfl, _, _, hequal⟩ := h.head
  intro c hc
  obtain rfl := Option.some.inj hc
  refine beq_false_of_ne fun hb => ?_
  rcases hequal hb with rfl | rfl <;> exact absurd hk (by decide)

/-- The text of a literal is that of a token, which stands for the value that was read again. -/
theorem spells_literalText {t : Token} {v : Value} (hv : t.value? = some v) (ht : t.Spelled) :
    ∃ k ∈ Expr.starters, Spells k v.literalText ∧
      ∀ u : Token, u.kind = k → u.constant = Lexeme.constant? k v.literalText →
        u.value? = some (v.mapNumber Number.reread) := by
  have hvalue (u : Token) {k : TokenKind} (hk : u.kind = k) : u.value? =
      (⟨k, u.lexeme, u.constant, u.loc⟩ : Token).value? := by rw [← hk]
  obtain ⟨kind, lexeme, constant, loc⟩ := t
  obtain ⟨hs, hc⟩ := ht
  dsimp only at hs hc
  unfold Token.value? at hv
  split at hv
  · next h =>
    obtain rfl := Option.some.inj hv
    exact ⟨.kwFalse, by decide, spells_keyword (by decide), fun u hu _ => hvalue u hu⟩
  · next h =>
    obtain rfl := Option.some.inj hv
    exact ⟨.kwTrue, by decide, spells_keyword (by decide), fun u hu _ => hvalue u hu⟩
  · next h =>
    obtain rfl := Option.some.inj hv
    exact ⟨.kwNil, by decide, spells_keyword (by decide), fun u hu _ => hvalue u hu⟩
  · next x h h' =>
    obtain rfl := Option.some.inj hv
    dsimp only at h h'
    subst h
    cases hc.symm.trans h'
    refine ⟨.number, by decide, .numeral (Number.numeral_literal_ofNumeral lexeme), fun u hu hc => ?_⟩
    rw [hvalue u hu, hc]
    rfl
  · next s h h' =>
    obtain rfl := Option.some.inj hv
    dsimp only at h h'
    obtain ⟨body, hbody, rfl⟩ := hs.exists_body h
    subst h
    cases (constant?_string body).symm.trans (hc.symm.trans h')
    refine ⟨.string, by decide, .string hbody, fun u hu hc => ?_⟩
    rw [hvalue u hu, hc, Value.literalText, constant?_string]
    rfl
  · cases hv

/-! ## Lists with commas -/

theorem Text.joined_cons_cons (separator s s' : Text) (rest : List Text) :
    Text.joined separator (s :: s' :: rest) = s ++ (separator ++ Text.joined separator (s' :: rest)) := by
  simp [Text.joined, List.intercalate]

/-- Texts with commas between neighbours are read one by one. -/
theorem reads_joined {α : Type} {text : α → Text} {Form : α → List Token → Prop} {parts : List α}
    (h : ∀ a ∈ parts, ReadsAs (text a) Delimits (Form a)) :
    ReadsAs (Text.joined (utf8 ", ") (parts.map text)) Delimits fun us =>
      ∃ phrases, List.Forall₂ Form parts phrases ∧ CommaSeparated phrases us := by
  induction parts with
  | nil =>
    refine (reads_blanks (List.forall_mem_nil _)).mono (fun _ _ => trivial) fun us hus => ?_
    rw [kinds_nil.1 hus]
    exact ⟨[], .nil, .none⟩
  | cons a parts ih =>
    obtain ⟨ha, hparts⟩ := List.forall_mem_cons.1 h
    cases parts with
    | nil =>
      rw [List.map_singleton, Text.joined, List.intercalate_singleton]
      exact ha.mono (fun _ hd => hd) fun us hus => ⟨[us], .cons hus .nil, .one us⟩
    | cons b parts =>
      have hcomma : ReadsAs (utf8 ", ") Anything (Kinds [.comma]) :=
        reads_words [(utf8 ",", .comma, utf8 " ")] (by decide +kernel)
      rw [List.map_cons, List.map_cons, Text.joined_cons_cons]
      refine (ha.append (hcomma.then (ih hparts)) fun _ _ => rfl).mono (fun _ hd => hd) ?_
      rintro _ ⟨us, _, rfl, hus, _, vs, rfl, hc, phrases, hphrases, hvs⟩
      obtain ⟨c, rfl, hck⟩ := hc.one
      cases hphrases with
      | cons hb hrest => exact ⟨us :: _, .cons hus (.cons hb hrest), .cons hck hvs⟩

/-! ## Expressions -/

theorem Expr.texts_eq_map (es : List Expr) : Expr.texts es = es.map Expr.text := by
  induction es with
  | nil => rfl
  | cons e es ih => rw [Expr.texts, ih, List.map_cons]

theorem Level.text_node (level : Level) (op : Operator) (l r : Expr) :
    (level.node op l r).text = l.text ++ utf8 " " ++ op.lexeme ++ utf8 " " ++ r.text := by
  cases level <;> rfl

theorem Level.outline_node (f : Number → Number) (level : Level) (op : Operator) (l r : Expr) :
    (level.node op l r).outline f = level.node op.outline (l.outline f) (r.outline f) := by
  cases level <;> rfl

/-- Tokens that form an expression of the level with the outline of the given one, after its numbers
were read again. -/
def Expr.Rereading (level : Level) (e : Expr) (us : List Token) : Prop :=
  ∃ e', Expr.Derivation .tolerant level us e' ∧ e'.outline id = e.outline Number.reread

/-- The text of an expression is read as an expression of the level, and not together with a `!` in
front of it. -/
structure Expr.Rereads (level : Level) (e : Expr) : Prop where
  head (t : Text) : TokenKind.bang.Follows (e.text ++ t)
  reads : ReadsAs e.text Delimits (e.Rereading level)

theorem Token.Spelled.reads_name {t : Token} (h : t.Spelled) (hk : t.kind = .identifier) :
    ReadsAs t.lexeme Delimits fun us =>
      ∃ u : Token, us = [u] ∧ u.kind = .identifier ∧ u.named.outline = t.named.outline := by
  refine (reads_token h.1).mono (fun _ hd => hd.follows t.kind) ?_
  rintro _ ⟨u, rfl, hu, hlexeme, _⟩
  exact ⟨u, rfl, hu.trans hk, congrArg (Name.mk · .nowhere) hlexeme⟩

theorem Expr.rereads_literal {t : Token} {v : Value} (hv : t.value? = some v) (ht : t.Spelled) :
    Expr.Rereads .primary (.literal v t.loc) := by
  obtain ⟨k, hk, hs, hvalue⟩ := spells_literalText hv ht
  refine ⟨hs.follows_bang hk, (reads_token hs).mono (fun _ hd => hd.follows k) ?_⟩
  rintro _ ⟨u, rfl, hu, _, hc⟩
  refine ⟨_, .literal (hvalue u hu hc), ?_⟩
  rw [Expr.outline, Expr.outline, Value.mapNumber_id]

theorem Expr.rereads_name {t : Token} (hk : t.kind = .identifier) (ht : t.Spelled) :
    Expr.Rereads .primary (.reference t.named none) := by
  refine ⟨ht.1.follows_bang (by rw [hk]; decide),
    (ht.reads_name hk).mono (fun _ hd => hd) ?_⟩
  rintro _ ⟨u, rfl, hu, hname⟩
  refine ⟨_, .name hu, ?_⟩
  rw [Expr.outline, Expr.outline, hname]

theorem Expr.Rereads.grouping {e : Expr} (h : Expr.Rereads .assignment e) (loc : Location) :
    Expr.Rereads .primary (.grouping e loc) := by
  refine ⟨fun t b hb => ?_, ((reads_leftParen.then h.reads).delimited reads_rightParen rfl).mono
    (fun _ _ => trivial) ?_⟩
  · obtain rfl := Option.some.inj hb
    rfl
  · rintro _ ⟨_, _, rfl, ⟨_, _, rfl, hl, e', he, houtline⟩, hr⟩
    obtain ⟨l, rfl, hlk⟩ := hl.one
    obtain ⟨r, rfl, hrk⟩ := hr.one
    refine ⟨_, .grouping hlk he hrk, ?_⟩
    rw [Expr.outline, Expr.outline, houtline]

theorem Expr.Rereads.unary {t : Token} {e : Expr} (hk : t.kind = .bang ∨ t.kind = .minus)
    (ht : t.Spelled) (h : Expr.Rereads .unary e) : Expr.Rereads .unary (.unary t.operator e) := by
  have hfollows (u : Text) (_ : Delimits u) : t.kind.Follows (e.text ++ u) := by
    rcases hk with hk | hk <;> rw [hk]
    · exact h.head u
    · exact fun _ _ => rfl
  refine ⟨fun u => ?_, ((reads_token ht.1).append h.reads hfollows).mono (fun _ hd => hd) ?_⟩
  · rw [Expr.text, List.append_assoc]
    exact ht.1.follows_bang (by rcases hk with hk | hk <;> rw [hk] <;> decide) _
  · rintro _ ⟨_, _, rfl, ⟨u, rfl, hu, hlexeme, _⟩, e', he, houtline⟩
    refine ⟨_, .unary (by rwa [hu]) he, ?_⟩
    rw [Expr.outline, Expr.outline, houtline, Operator.outline, Operator.outline]
    exact congrArg₂ (fun k s => Expr.unary ⟨k, s, .nowhere⟩ _) hu hlexeme

theorem Expr.Rereads.joined {t : Token} {l r : Expr} (hk : t.kind ∈ level.operators)
    (ht : t.Spelled) (htighter : level.tighter? = some tighter) (hl : Expr.Rereads level l)
    (hr : Expr.Rereads tighter r) : Expr.Rereads level (level.node t.operator l r) := by
  have htoken := (reads_token ht.1).mono (fun _ hd => Delimits.follows hd t.kind) fun _ hus => hus
  refine ⟨fun u => ?_, ?_⟩
  · rw [Level.text_node]
    simp only [List.append_assoc]
    exact hl.head _
  · rw [Level.text_node]
    refine ((((hl.reads.delimited reads_space rfl).then htoken).delimited reads_space rfl).then
      hr.reads).mono (fun _ hd => hd) ?_
    rintro _ ⟨_, _, rfl, ⟨_, _, rfl, ⟨_, _, rfl, ⟨_, _, rfl, ⟨l', hl', hlo⟩, hs⟩, u, rfl, hu,
      hlexeme, _⟩, hs'⟩, r', hr', hro⟩
    rw [kinds_nil.1 hs, kinds_nil.1 hs', List.append_nil, List.append_nil, List.append_assoc]
    refine ⟨_, .joined (by rwa [hu]) htighter hl' hr', ?_⟩
    rw [Level.outline_node, Level.outline_node, hlo, hro, Operator.outline, Operator.outline]
    exact congrArg₂ (fun k s => level.node ⟨k, s, .nowhere⟩ _ _) hu hlexeme

theorem Expr.Rereads.assignment {t : Token} {e : Expr} (hk : t.kind = .identifier)
    (ht : t.Spelled) (h : Expr.Rereads .assignment e) :
    Expr.Rereads .assignment (.assign t.named none e) := by
  refine ⟨fun u => ?_, (((ht.reads_name hk).delimited reads_equal rfl).then h.reads).mono
    (fun _ hd => hd) ?_⟩
  · rw [Expr.text, List.append_assoc, List.append_assoc]
    exact ht.1.follows_bang (by rw [hk]; decide) _
  · rintro _ ⟨_, _, rfl, ⟨_, _, rfl, ⟨u, rfl, hu, hname⟩, heq⟩, e', he, houtline⟩
    obtain ⟨eq, rfl, heqk⟩ := heq.one
    refine ⟨_, .assignment hu heqk he, ?_⟩
    rw [Expr.outline, Expr.outline, houtline, hname]

theorem exists_arguments {es : List Expr} {phrases : List (List Token)}
    (h : List.Forall₂ (Expr.Rereading .assignment) es phrases) :
    ∃ args : List (List Token × Expr), args.map Prod.fst = phrases ∧
      (∀ a ∈ args, Expr.Derivation .tolerant .assignment a.1 a.2) ∧
      Expr.outlines id (args.map Prod.snd) = Expr.outlines Number.reread es := by
  induction h with
  | nil => exact ⟨[], rfl, List.forall_mem_nil _, by rw [List.map_nil, Expr.outlines, Expr.outlines]⟩
  | @cons e us es phrases h _ ih =>
    obtain ⟨e', he, houtline⟩ := h
    obtain ⟨args, rfl, hargs, houtlines⟩ := ih
    refine ⟨(us, e') :: args, rfl, List.forall_mem_cons.2 ⟨he, hargs⟩, ?_⟩
    rw [List.map_cons, Expr.outlines, Expr.outlines, houtline, houtlines]

theorem Expr.Rereads.call {f : Expr} {es : List Expr} (hf : Expr.Rereads .call f)
    (hes : ∀ e ∈ es, Expr.Rereads .assignment e) (loc : Location) :
    Expr.Rereads .call (.call f es loc) := by
  have hargs := reads_joined fun e he => (hes e he).reads
  refine ⟨fun t => ?_, ?_⟩
  · rw [Expr.text]
    simp only [List.append_assoc]
    exact hf.head _
  · rw [Expr.text, Expr.texts_eq_map]
    refine (((hf.reads.delimited reads_leftParen rfl).then hargs).delimited reads_rightParen
      rfl).mono (fun _ _ => trivial) ?_
    rintro _ ⟨_, _, rfl, ⟨_, us, rfl, ⟨fs, _, rfl, ⟨f', hf', hfo⟩, hl⟩, phrases, hphrases, hus⟩, hr⟩
    obtain ⟨l, rfl, hlk⟩ := hl.one
    obtain ⟨r, rfl, hrk⟩ := hr.one
    obtain ⟨args, rfl, hargs, houtlines⟩ := exists_arguments hphrases
    rw [List.append_assoc, List.append_assoc]
    refine ⟨_, .call hf' hlk nofun hargs hus hrk, ?_⟩
    rw [Expr.outline, Expr.outline, hfo, houtlines]

/-- **An expression is read back from its text.** -/
theorem Expr.Derivation.rereads {mode : Mode} {e : Expr} (h : Expr.Derivation mode level ts e)
    (hs : ∀ t ∈ ts, t.Spelled) : Expr.Rereads level e := by
  induction h with
  | literal hv => exact rereads_literal hv (hs _ List.mem_cons_self)
  | name hk => exact rereads_name hk (hs _ List.mem_cons_self)
  | grouping _ _ _ ih => exact (ih fun t ht => hs t (by simp [ht])).grouping _
  | @call l r fs ts f args _ _ _ _ hcomma _ ihf ihargs =>
    have hargs : ∀ a ∈ args, Expr.Rereads .assignment a.2 := fun a ha =>
      ihargs a ha fun t ht => hs t (by
        have := hcomma.subset _ (List.mem_map_of_mem ha) ht
        simp [this])
    refine (ihf fun t ht => hs t (by simp [ht])).call (fun e he => ?_) _
    obtain ⟨a, ha, rfl⟩ := List.mem_map.1 he
    exact hargs a ha
  | unary hk _ ih =>
    exact .unary hk (hs _ List.mem_cons_self) (ih fun t ht => hs t (List.mem_cons_of_mem _ ht))
  | joined hk htighter _ _ ihl ihr =>
    exact .joined hk (hs _ (by simp)) htighter (ihl fun t ht => hs t (by simp [ht]))
      (ihr fun t ht => hs t (by simp [ht]))
  | assignment hk _ _ ih =>
    exact .assignment hk (hs _ List.mem_cons_self) (ih fun t ht => hs t (by simp [ht]))
  | tighter htighter _ ih =>
    obtain ⟨hhead, hreads⟩ := ih hs
    refine ⟨hhead, hreads.mono (fun _ hd => hd) ?_⟩
    rintro us ⟨e', he, houtline⟩
    exact ⟨e', .tighter htighter he, houtline⟩

end Lox
