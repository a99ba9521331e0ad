import Lox.Proofs.Printing.Spelling

/-!
# Scanning a text piece by piece

`Scans` says what the front of a text is read as, and where reading goes on; it composes along the
text. What a spelling in front of other text is read as does not depend on that text, except that its
first byte must not belong to the token (`scans_token`). `ReadsAs` says so of pieces of a text, with a
condition on what stands behind; pieces are put together by `ReadsAs.append`.
-/

namespace Lox

/-- Reading the first text, from its location, gives tokens and no errors and then goes on with the
second text. -/
def Scans (s : Text) (loc : Location) (us : List Token) (t : Text) (loc' : Location) : Prop :=
  readAll s loc =
    (⟨us ++ (readAll t loc').1.tokens, (readAll t loc').1.errors⟩, (readAll t loc').2)

variable {s t u : Text} {loc loc' loc'' : Location} {us vs : List Token}

theorem Scans.refl (s : Text) (loc : Location) : Scans s loc [] s loc := rfl

theorem Scans.trans (h : Scans s loc us t loc') (h' : Scans t loc' vs u loc'') :
    Scans s loc (us ++ vs) u loc'' := by
  unfold Scans at *
  rw [h, h', List.append_assoc]

theorem readAll_nil (loc : Location) : readAll [] loc = (⟨[Token.endOfInput loc], []⟩, loc) := by
  rw [readAll, readToken]
  rfl

/-- A text that is read to its end. -/
theorem Scans.tokenize_eq (h : Scans s .start us [] loc) :
    tokenize s = ⟨us ++ [Token.endOfInput loc], []⟩ := by
  unfold tokenize
  rw [h, readAll_nil]

/-! ## Gaps -/

theorem readToken_blank {b : UInt8} (hb : isBlank b = true) (t : Text) (loc : Location) :
    readToken (b :: t) loc = readToken t (loc.step b) := by
  have hgap : splitGap false (b :: t) = (b :: (splitGap false t).1, (splitGap false t).2) := by
    rw [splitGap, if_pos hb]
  rw [readToken.eq_def (b :: t), readToken.eq_def t, hgap]
  rfl

theorem scans_blank {b : UInt8} (hb : isBlank b = true) (t : Text) (loc : Location) :
    Scans (b :: t) loc [] t (loc.step b) := by
  unfold Scans
  rw [List.nil_append, readAll.eq_def (b :: t), readAll.eq_def t, readToken_blank hb]

theorem scans_blanks (hs : ∀ b ∈ s, isBlank b = true) (t : Text) (loc : Location) :
    Scans (s ++ t) loc [] t (loc.after s) := by
  induction s generalizing loc with
  | nil => exact .refl t loc
  | cons b s ih =>
    have hrest := ih (fun c hc => hs c (List.mem_cons_of_mem b hc)) (loc.step b)
    exact (scans_blank (hs b List.mem_cons_self) (s ++ t) loc).trans hrest

/-! ## Tokens -/

theorem Spells.ne_endOfInput {kind : TokenKind} (h : Spells kind s) : kind ≠ .endOfInput := by
  have hkeyword : ∀ e ∈ TokenKind.keywords, e.2 ≠ .endOfInput := by decide +kernel
  have hsymbol : ∀ e ∈ TokenKind.symbols, e.2 ≠ .endOfInput := by decide +kernel
  cases h with
  | numeral | string => exact nofun
  | @word b rest =>
    rcases ofWord_cases (b :: rest) with hw | hw
    · rw [hw]
      exact nofun
    · exact hkeyword _ hw
  | symbol he => exact hsymbol _ he

/-- A token begins with a byte that is not blank, with a slash only if it is a slash, and with an
equals sign only if it is one or two of them. -/
theorem Spells.head {kind : TokenKind} (h : Spells kind s) :
    ∃ b rest, s = b :: rest ∧ isBlank b = false ∧ (b = ascii '/' → kind = .slash ∧ rest = []) ∧
      (b = ascii '=' → kind = .equal ∨ kind = .equalEqual) := by
  cases h with
  | numeral ht =>
    cases ht with
    | whole hne hds | fraction hne hds =>
      obtain ⟨b, rest, rfl⟩ := List.exists_cons_of_ne_nil hne
      obtain ⟨hb, hslash, hequal⟩ := not_isBlank_of_isDigit (hds b List.mem_cons_self)
      exact ⟨b, _, rfl, hb, fun he => absurd he hslash, fun he => absurd he hequal⟩
  | @word b rest hb =>
    obtain ⟨hb, hslash, hequal⟩ := not_isBlank_of_isNameStart hb
    exact ⟨b, rest, rfl, hb, fun he => absurd he hslash, fun he => absurd he hequal⟩
  | @string body => exact ⟨quote, body ++ [quote], rfl, rfl, nofun, nofun⟩
  | @symbol e he =>
    obtain ⟨b, rest, hb, _, _, _, hblank⟩ := symbol_head he
    have hall : ∀ e ∈ TokenKind.symbols,
        (e.1.head? = some (ascii '/') → e.2 = .slash ∧ e.1.tail = []) ∧
          (e.1.head? = some (ascii '=') → e.2 = .equal ∨ e.2 = .equalEqual) := by decide +kernel
    obtain ⟨hslash, hequal⟩ := hall e he
    rw [hb] at hslash hequal ⊢
    exact ⟨b, rest, rfl, hblank, fun hbyte => hslash (congrArg some hbyte),
      fun hbyte => hequal (congrArg some hbyte)⟩

/-- No gap begins with a token. -/
theorem splitGap_of_spells {kind : TokenKind} (hs : Spells kind s) (ht : kind.Follows t) :
    splitGap false (s ++ t) = ([], s ++ t) := by
  obtain ⟨b, rest, rfl, hblank, hslash, _⟩ := hs.head
  have hcomment : ¬(b == ascii '/' && (rest ++ t).head? == some (ascii '/')) = true := by
    intro h
    rw [Bool.and_eq_true, beq_iff_eq, beq_iff_eq] at h
    obtain ⟨rfl, rfl⟩ := hslash h.1
    have hjoins := ht (ascii '/') h.2
    cases hjoins
  rw [List.cons_append, splitGap, if_neg (by rw [hblank]; exact Bool.false_ne_true),
    if_neg hcomment]

/-- A token is read in front of everything that does not go on with it. -/
theorem scans_token {kind : TokenKind} (hs : Spells kind s) (ht : kind.Follows t) (loc : Location) :
    Scans (s ++ t) loc [⟨kind, s, Lexeme.constant? kind s, loc⟩] t (loc.after s) := by
  have hlexeme : Lexeme.ofText? (s ++ t) = some (.token kind s, t) := by
    rw [Lexeme.ofText?, first?_append hs ht]
    simp [Lexeme.bytes]
  have hread : readToken (s ++ t) loc =
      ⟨⟨kind, s, Lexeme.constant? kind s, loc⟩, [], t, loc.after s⟩ := by
    rw [readToken, splitGap_of_spells hs ht]
    dsimp only
    split
    · next h => cases h.symm.trans hlexeme
    · next h =>
      cases h.symm.trans hlexeme
      rfl
    · next h => cases h.symm.trans hlexeme
    · next h => cases h.symm.trans hlexeme
  have hend : (⟨kind, s, Lexeme.constant? kind s, loc⟩ : Token).isEnd = false :=
    beq_false_of_ne hs.ne_endOfInput
  unfold Scans
  rw [readAll.eq_def (s ++ t), hread]
  dsimp only
  split
  · next h => cases h.symm.trans hend
  · rfl

/-! ## The tokens of a source -/

/-- The token is spelled as its kind asks, and its value is that of its spelling. -/
def Token.Spelled (t : Token) : Prop :=
  Spells t.kind t.lexeme ∧ t.constant = Lexeme.constant? t.kind t.lexeme

theorem spelled_readToken (s : Text) (loc : Location) :
    (readToken s loc).token.isEnd = true ∨ (readToken s loc).token.Spelled := by
  fun_induction readToken s loc with
  | case1 => exact .inl rfl
  | case2 s loc gap start kind spelling rest h =>
    obtain ⟨l, hl, he⟩ := Option.map_eq_some_iff.1 h
    cases he
    exact .inr ⟨spells_of_first? hl, rfl⟩
  | case3 s loc gap start b rest h next ih => exact ih
  | case4 s loc gap start spelling rest h next ih => exact ih

/-- Every token of a source is spelled as its kind asks, but the end. -/
theorem spelled_tokenize (source : Text) :
    ∀ t ∈ (tokenize source).tokens, t.isEnd = true ∨ t.Spelled := by
  unfold tokenize
  generalize Location.start = loc
  fun_induction readAll source loc with
  | case1 s loc first h =>
    intro t ht
    rw [List.mem_singleton.1 ht]
    exact spelled_readToken s loc
  | case2 s loc first h others finish hrest ih =>
    rw [hrest] at ih
    exact List.forall_mem_cons.2 ⟨spelled_readToken s loc, ih⟩

/-! ## What is read of a piece of text -/

/-- In front of the texts that may stand behind it, a text is read as tokens of the given form. -/
def ReadsAs (s : Text) (Behind : Text → Prop) (Form : List Token → Prop) : Prop :=
  ∀ t loc, Behind t → ∃ us loc', Form us ∧ Scans (s ++ t) loc us t loc'

/-- Every text may stand behind it. -/
def Anything (_ : Text) : Prop := True

/-- A text that begins with a byte that no token goes on with. -/
def Delimits (t : Text) : Prop := t.head?.any (utf8 " (),;").contains = true

instance : DecidablePred Delimits := fun _ => by unfold Delimits; infer_instance

/-- Tokens of one form with tokens of another form behind them. -/
def Then (P Q : List Token → Prop) (us : List Token) : Prop := ∃ vs ws, us = vs ++ ws ∧ P vs ∧ Q ws

/-- Tokens of the given kinds. -/
def Kinds (ks : List TokenKind) (us : List Token) : Prop := us.map Token.kind = ks

variable {B B' : Text → Prop} {P Q : List Token → Prop} {k : TokenKind} {ks ks' : List TokenKind}

theorem kinds_nil : Kinds [] us ↔ us = [] := List.map_eq_nil_iff

theorem kinds_cons : Kinds (k :: ks) us ↔ ∃ t vs, us = t :: vs ∧ t.kind = k ∧ Kinds ks vs :=
  List.map_eq_cons_iff

theorem Kinds.one (h : Kinds [k] us) : ∃ t, us = [t] ∧ t.kind = k := by
  obtain ⟨t, vs, rfl, ht, hvs⟩ := kinds_cons.1 h
  rw [kinds_nil.1 hvs]
  exact ⟨t, rfl, ht⟩

theorem Kinds.two {k' : TokenKind} (h : Kinds [k, k'] us) :
    ∃ t t', us = [t, t'] ∧ t.kind = k ∧ t'.kind = k' := by
  obtain ⟨t, vs, rfl, ht, hvs⟩ := kinds_cons.1 h
  obtain ⟨t', rfl, ht'⟩ := hvs.one
  exact ⟨t, t', rfl, ht, ht'⟩

theorem Delimits.append (h : Delimits s) (t : Text) : Delimits (s ++ t) := by
  cases s with
  | nil => cases h
  | cons b s => exact h

theorem Delimits.follows (h : Delimits t) (k : TokenKind) : k.Follows t := by
  have hjoins : ∀ k ∈ TokenKind.all, ∀ b ∈ utf8 " (),;", k.joins b = false := by decide +kernel
  intro b hb
  rw [Delimits, Option.mem_def.1 hb] at h
  exact hjoins k k.mem_all b (by simpa using h)

theorem ReadsAs.mono (h : ReadsAs s B P) (hb : ∀ t, B' t → B t) (hp : ∀ us, P us → Q us) :
    ReadsAs s B' Q := by
  intro t loc ht
  obtain ⟨us, loc', hus, hscan⟩ := h t loc (hb t ht)
  exact ⟨us, loc', hp us hus, hscan⟩

theorem ReadsAs.append (h : ReadsAs s B P) (h' : ReadsAs t B' Q) (hb : ∀ u, B' u → B (t ++ u)) :
    ReadsAs (s ++ t) B' (Then P Q) := by
  intro u loc hu
  obtain ⟨vs, loc', hvs, hscan⟩ := h (t ++ u) loc (hb u hu)
  obtain ⟨ws, loc'', hws, hscan'⟩ := h' u loc' hu
  rw [← List.append_assoc] at hscan
  exact ⟨vs ++ ws, loc'', ⟨vs, ws, rfl, hvs, hws⟩, hscan.trans hscan'⟩

/-- Behind a delimiter nothing more is asked. -/
theorem ReadsAs.delimited (h : ReadsAs s Delimits P) (h' : ReadsAs t Anything Q) (ht : Delimits t) :
    ReadsAs (s ++ t) Anything (Then P Q) :=
  h.append h' fun u _ => ht.append u

/-- Behind a text that anything may stand behind nothing more is asked. -/
theorem ReadsAs.then (h : ReadsAs s Anything P) (h' : ReadsAs t B Q) :
    ReadsAs (s ++ t) B (Then P Q) :=
  h.append h' fun _ _ => trivial

theorem ReadsAs.kinds (h : ReadsAs s B (Then (Kinds ks) (Kinds ks'))) :
    ReadsAs s B (Kinds (ks ++ ks')) := by
  refine h.mono (fun _ ht => ht) ?_
  rintro _ ⟨vs, ws, rfl, hvs, hws⟩
  rw [Kinds, List.map_append, hvs, hws]

/-! ## Fixed pieces of text -/

theorem reads_token (hs : Spells k s) :
    ReadsAs s k.Follows fun us => ∃ t : Token, us = [t] ∧ t.kind = k ∧ t.lexeme = s ∧
      t.constant = Lexeme.constant? k s :=
  fun _ loc ht => ⟨_, _, ⟨_, rfl, rfl, rfl, rfl⟩, scans_token hs ht loc⟩

theorem reads_kind (hs : Spells k s) : ReadsAs s k.Follows (Kinds [k]) := by
  refine (reads_token hs).mono (fun _ ht => ht) ?_
  rintro _ ⟨t, rfl, hk, _⟩
  rw [Kinds, List.map_singleton, hk]

theorem reads_blanks (hs : ∀ b ∈ s, isBlank b = true) : ReadsAs s Anything (Kinds []) :=
  fun t loc _ => ⟨[], _, rfl, scans_blanks hs t loc⟩

theorem spells_keyword (h : (s, k) ∈ TokenKind.keywords) : Spells k s := by
  have hwords : ∀ e ∈ TokenKind.keywords, TokenKind.ofWord e.1 = e.2 ∧
      e.1.head?.any isNameStart = true ∧ e.1.tail.all isNamePart = true := by decide +kernel
  obtain ⟨hkind, hstart, hpart⟩ := hwords (s, k) h
  cases s with
  | nil => cases hstart
  | cons b rest =>
    have hword : Spells (TokenKind.ofWord (b :: rest)) (b :: rest) :=
      .word hstart (List.all_eq_true.1 hpart)
    rwa [hkind] at hword

/-- The symbols that no other symbol begins with. -/
def TokenKind.punctuation : List TokenKind :=
  [.leftParen, .rightParen, .leftBrace, .rightBrace, .comma, .semicolon]

theorem TokenKind.follows_of_mem_punctuation (h : k ∈ TokenKind.punctuation) (t : Text) :
    k.Follows t := by
  intro b _
  simp only [punctuation, List.mem_cons, List.not_mem_nil, or_false] at h
  rcases h with rfl | rfl | rfl | rfl | rfl | rfl <;> rfl

/-- Symbols and reserved words, each with white space behind it where it needs some. -/
theorem reads_words (ws : List (Text × TokenKind × Text))
    (h : ∀ w ∈ ws, (w.1, w.2.1) ∈ TokenKind.symbols ++ TokenKind.keywords ∧
      (∀ b ∈ w.2.2, isBlank b = true) ∧ (Delimits w.2.2 ∨ w.2.1 ∈ TokenKind.punctuation)) :
    ReadsAs (ws.flatMap fun w => w.1 ++ w.2.2) Anything (Kinds (ws.map fun w => w.2.1)) := by
  induction ws with
  | nil => exact reads_blanks nofun
  | cons w ws ih =>
    obtain ⟨⟨hmem, hblank, hbehind⟩, hws⟩ := List.forall_mem_cons.1 h
    have hs : Spells w.2.1 w.1 := (List.mem_append.1 hmem).elim .symbol spells_keyword
    have hfollows (t : Text) (_ : Anything t) : w.2.1.Follows (w.2.2 ++ t) :=
      hbehind.elim (fun hd => (hd.append t).follows w.2.1) fun hp =>
        TokenKind.follows_of_mem_punctuation hp _
    have hword := ((reads_kind hs).append (reads_blanks hblank) hfollows).kinds
    exact (hword.then (ih hws)).kinds

theorem reads_symbol (s : Text) (k : TokenKind) (h : (s, k) ∈ TokenKind.symbols)
    (hk : k ∈ TokenKind.punctuation) : ReadsAs s Anything (Kinds [k]) :=
  (reads_kind (.symbol h)).mono (fun t _ => TokenKind.follows_of_mem_punctuation hk t)
    fun _ hus => hus

theorem reads_leftParen : ReadsAs (utf8 "(") Anything (Kinds [.leftParen]) :=
  reads_symbol (utf8 "(") .leftParen (by decide) (by decide)

theorem reads_rightParen : ReadsAs (utf8 ")") Anything (Kinds [.rightParen]) :=
  reads_symbol (utf8 ")") .rightParen (by decide) (by decide)

theorem reads_semicolon : ReadsAs (utf8 ";") Anything (Kinds [.semicolon]) :=
  reads_symbol (utf8 ";") .semicolon (by decide) (by decide)

theorem reads_space : ReadsAs (utf8 " ") Anything (Kinds []) :=
  reads_blanks (List.forall_mem_singleton.2 rfl)

theorem reads_equal : ReadsAs (utf8 " = ") Anything (Kinds [.equal]) :=
  (reads_space.then (reads_words [(utf8 "=", .equal, utf8 " ")] (by decide +kernel))).kinds

end Lox
