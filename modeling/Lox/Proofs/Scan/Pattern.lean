import Lox.Proofs.Split.Scanning

/-!
# The token grammar

`Pattern` says which texts make a token, of which kind and with which value, apart from any reader. The
longest text at the front that makes a token is what is read there (`longest_iff`); a byte is reported
where no token begins (`first?_eq_stray`), and a string is cut off where none of its bytes closes it
(`first?_eq_unclosed`).
-/

namespace Lox

/-- The texts that make a token, with its kind and its value. -/
inductive Pattern : TokenKind → Text → Option Constant → Prop
  | whole {ds : Text} : ds ≠ [] → (∀ b ∈ ds, isDigit b = true) →
    Pattern .number ds (some (.number (.ofDecimal ⟨Text.toNat ds, 0⟩)))
  | fraction {ds fs : Text} : ds ≠ [] → (∀ b ∈ ds, isDigit b = true) →
    fs ≠ [] → (∀ b ∈ fs, isDigit b = true) →
    Pattern .number (ds ++ ascii '.' :: fs)
      (some (.number (.ofDecimal ⟨Text.toNat (ds ++ fs), -fs.length⟩)))
  | reserved {t : Text} {k : TokenKind} : (t, k) ∈ TokenKind.keywords → Pattern k t none
  | identifier {b : UInt8} {rest : Text} : isNameStart b = true → (∀ c ∈ rest, isNamePart c = true) →
    (∀ k, (b :: rest, k) ∉ TokenKind.keywords) → Pattern .identifier (b :: rest) none
  | string {body : Text} : quote ∉ body →
    Pattern .string (quote :: (body ++ [quote])) (some (.string body))
  | symbol {t : Text} {k : TokenKind} : (t, k) ∈ TokenKind.symbols → Pattern k t none

/-- The kind of a name is that of the reserved word it is spelled as, if it is spelled as one. -/
theorem ofWord_of_mem_keywords {t : Text} {k : TokenKind} (h : (t, k) ∈ TokenKind.keywords) :
    TokenKind.ofWord t = k := by
  have hwords : ∀ e ∈ TokenKind.keywords, TokenKind.ofWord e.1 = e.2 := by decide +kernel
  exact hwords (t, k) h

/-- Symbols and reserved words have no value. -/
theorem constant?_eq_none {t : Text} {k : TokenKind}
    (h : (t, k) ∈ TokenKind.symbols ++ TokenKind.keywords) : Lexeme.constant? k t = none := by
  have hvalue : ∀ e ∈ TokenKind.symbols ++ TokenKind.keywords, e.2 ≠ .number ∧ e.2 ≠ .string := by
    decide +kernel
  obtain ⟨hnumber, hstring⟩ := hvalue _ h
  unfold Lexeme.constant?
  split
  · exact absurd rfl hnumber
  · exact absurd rfl hstring
  · rfl

theorem ofNumeral_whole {ds : Text} (h : ∀ b ∈ ds, isDigit b = true) :
    Number.ofNumeral ds = .ofDecimal ⟨Text.toNat ds, 0⟩ := by
  have hwhole : ds.takeWhile isDigit = ds := List.takeWhile_eq_self_iff.2 h
  have hfraction : ds.dropWhile isDigit = [] := List.dropWhile_eq_nil_iff.2 h
  simp only [Number.ofNumeral, hwhole, hfraction, List.drop_nil, List.append_nil, List.length_nil]
  rfl

/-- Digits end at a point. -/
theorem isDigit_head_point (rest : Text) : ∀ b ∈ (ascii '.' :: rest).head?, isDigit b = false := by
  intro b hb
  obtain rfl := Option.some.inj hb
  rfl

theorem ofNumeral_fraction {ds fs : Text} (h : ∀ b ∈ ds, isDigit b = true) :
    Number.ofNumeral (ds ++ ascii '.' :: fs) = .ofDecimal ⟨Text.toNat (ds ++ fs), -fs.length⟩ := by
  simp only [Number.ofNumeral, takeWhile_append_of_head h (isDigit_head_point fs),
    dropWhile_append_of_head h (isDigit_head_point fs), List.drop_succ_cons, List.drop_zero]

theorem Pattern.spells {k : TokenKind} {t : Text} {v : Option Constant} (h : Pattern k t v) :
    Spells k t ∧ v = Lexeme.constant? k t := by
  cases h with
  | whole hne hds =>
    exact ⟨.numeral (.whole hne hds), by rw [Lexeme.constant?, ofNumeral_whole hds]⟩
  | fraction hne hds hfs hfd =>
    exact ⟨.numeral (.fraction hne hds hfs hfd), by rw [Lexeme.constant?, ofNumeral_fraction hds]⟩
  | reserved h => exact ⟨spells_keyword h, (constant?_eq_none (List.mem_append_right _ h)).symm⟩
  | @identifier b rest hb hrest hword =>
    have hspells := Spells.word hb hrest
    rw [(ofWord_cases _).resolve_right (hword _)] at hspells
    exact ⟨hspells, rfl⟩
  | string hbody => exact ⟨.string hbody, (constant?_string _).symm⟩
  | symbol h => exact ⟨.symbol h, (constant?_eq_none (List.mem_append_left _ h)).symm⟩

theorem Spells.pattern {k : TokenKind} {t : Text} (h : Spells k t) :
    Pattern k t (Lexeme.constant? k t) := by
  cases h with
  | numeral ht =>
    cases ht with
    | whole hne hds =>
      rw [Lexeme.constant?, ofNumeral_whole hds]
      exact .whole hne hds
    | fraction hne hds hfs hfd =>
      rw [Lexeme.constant?, ofNumeral_fraction hds]
      exact .fraction hne hds hfs hfd
  | @word b rest hb hrest =>
    rcases ofWord_cases (b :: rest) with hkind | hkeyword
    · have hword (k : TokenKind) : (b :: rest, k) ∉ TokenKind.keywords := by
        intro hk
        have hidentifier : ∀ e ∈ TokenKind.keywords, e.2 ≠ .identifier := by decide +kernel
        exact hidentifier _ hk ((ofWord_of_mem_keywords hk).symm.trans hkind)
      rw [hkind]
      exact .identifier hb hrest hword
    · rw [constant?_eq_none (List.mem_append_right _ hkeyword)]
      exact .reserved hkeyword
  | string hbody =>
    rw [constant?_string]
    exact .string hbody
  | symbol h =>
    rw [constant?_eq_none (List.mem_append_left _ h)]
    exact .symbol h

/-! ## The longest token at the front -/

/-- The text makes a token, and no longer text at the front of `s` makes one. -/
structure Longest (k : TokenKind) (t : Text) (v : Option Constant) (s : Text) : Prop where
  pattern : Pattern k t v
  front : t <+: s
  le : ∀ k' t' v', Pattern k' t' v' → t' <+: s → t'.length ≤ t.length

theorem Numeral.head {t : Text} (h : Numeral t) : ∃ b rest, t = b :: rest ∧ isDigit b = true := by
  cases h with
  | whole hne hds | fraction hne hds =>
    obtain ⟨b, rest, rfl⟩ := List.exists_cons_of_ne_nil hne
    exact ⟨b, _, rfl, hds b List.mem_cons_self⟩

theorem length_le_numeral {t : Text} (ht : Numeral t) (tail : Text) :
    t.length ≤ (Lexeme.numeral (t ++ tail)).length := by
  cases ht with
  | whole hne hds =>
    have hwhole : t <+: (t ++ tail).takeWhile isDigit := by
      rw [List.takeWhile_append_of_pos hds]
      exact List.prefix_append _ _
    refine hwhole.length_le.trans ?_
    unfold Lexeme.numeral
    split
    · split
      · simp
      · exact le_rfl
    · exact le_rfl
  | @fraction ds fs hne hds hfs hfd =>
    obtain ⟨d, fs', rfl⟩ := List.exists_cons_of_ne_nil hfs
    have hd : isDigit d = true := hfd d List.mem_cons_self
    have hfraction : (d :: (fs' ++ tail)).takeWhile isDigit = d :: fs' ++ tail.takeWhile isDigit :=
      List.takeWhile_append_of_pos hfd
    have hread : Lexeme.numeral (ds ++ ascii '.' :: (d :: fs' ++ tail)) =
        ds ++ ascii '.' :: (d :: fs' ++ tail.takeWhile isDigit) := by
      unfold Lexeme.numeral
      rw [takeWhile_append_of_head hds (isDigit_head_point _),
        dropWhile_append_of_head hds (isDigit_head_point _), List.cons_append, ← hfraction]
      exact if_pos (by rw [hd]; rfl)
    rw [List.append_assoc, List.cons_append, hread]
    simp only [List.length_append, List.length_cons]
    omega

/-- The symbol that is read is the longest one at the front, for the table lists the longer symbols
first. -/
theorem length_le_symbol? {e : Text × TokenKind} (he : e ∈ TokenKind.symbols) (tail : Text) :
    ∃ e', Lexeme.symbol? (e.1 ++ tail) = some e' ∧ e.1.length ≤ e'.1.length := by
  have hsorted : TokenKind.symbols.Pairwise fun a b => b.1.length ≤ a.1.length := by decide +kernel
  have hfront : e.1.isPrefixOf (e.1 ++ tail) = true :=
    List.isPrefixOf_iff_prefix.2 (List.prefix_append _ _)
  cases h : Lexeme.symbol? (e.1 ++ tail) with
  | none => exact absurd hfront (List.find?_eq_none.1 h e he)
  | some e' =>
    obtain ⟨_, before, behind, hsplit, hbefore⟩ := List.find?_eq_some_iff_append.1 h
    refine ⟨e', rfl, ?_⟩
    rw [hsplit] at he hsorted
    rcases List.mem_append.1 he with hmem | hmem
    · simpa [hfront] using hbefore e hmem
    · rcases List.mem_cons.1 hmem with rfl | hmem
      · exact le_rfl
      · exact (List.pairwise_cons.1 (List.pairwise_append.1 hsorted).2.1).1 e hmem

/-- Where a token stands at the front, a token is read that is no shorter. -/
theorem first?_of_spells {k : TokenKind} {t : Text} (h : Spells k t) (tail : Text) :
    ∃ k' t', Lexeme.first? (t ++ tail) = some (.token k' t') ∧ t.length ≤ t'.length := by
  cases h with
  | numeral ht =>
    obtain ⟨b, rest, rfl, hb⟩ := ht.head
    refine ⟨.number, Lexeme.numeral (b :: rest ++ tail), ?_, length_le_numeral ht tail⟩
    rw [List.cons_append, Lexeme.first?, if_pos hb]
  | @word b rest hb hrest =>
    have hpart : ∀ c ∈ b :: rest, isNamePart c = true :=
      List.forall_mem_cons.2 ⟨by simp [isNamePart, hb], hrest⟩
    have hdigit : ¬ isDigit b = true := by simp [not_isDigit_of_isNameStart hb]
    have hread : Lexeme.first? (b :: rest ++ tail) =
        some (.token (.ofWord ((b :: rest ++ tail).takeWhile isNamePart))
          ((b :: rest ++ tail).takeWhile isNamePart)) := by
      rw [List.cons_append, Lexeme.first?, if_neg hdigit, if_pos hb]
    refine ⟨_, _, hread, ?_⟩
    rw [List.takeWhile_append_of_pos hpart, List.length_append]
    exact Nat.le_add_right _ _
  | string hbody => exact ⟨_, _, first?_append (.string hbody) (fun _ _ => rfl), le_rfl⟩
  | @symbol e he =>
    obtain ⟨e', hread, hle⟩ := length_le_symbol? he tail
    obtain ⟨b, rest, hb, hdigit, hname, hquote, _⟩ := symbol_head he
    refine ⟨e'.2, e'.1, ?_, hle⟩
    rw [hb, List.cons_append] at hread ⊢
    simp only [Lexeme.first?, hdigit, hname, hquote, hread, Bool.false_eq_true, if_false]

section First

variable {s t u : Text} {k : TokenKind} {v : Option Constant}

theorem first?_of_front (h : Spells k t) (hfront : t <+: s) :
    ∃ k' t', Lexeme.first? s = some (.token k' t') ∧ t.length ≤ t'.length := by
  obtain ⟨tail, rfl⟩ := hfront
  exact first?_of_spells h tail

/-- Two tokens of the same spelling are of the same kind. -/
theorem Spells.kind_unique {k' : TokenKind} (h : Spells k t) (h' : Spells k' t) : k = k' := by
  have hread := @first?_append k t [] h nofun
  have hread' := @first?_append k' t [] h' nofun
  cases hread.symm.trans hread'
  rfl

/-- What is read as a token is the longest token at the front, and the other way round. -/
theorem longest_iff :
    Longest k t v s ↔ Lexeme.first? s = some (.token k t) ∧ v = Lexeme.constant? k t := by
  constructor
  · intro h
    obtain ⟨hspells, hv⟩ := h.pattern.spells
    obtain ⟨k', t', hread, hle⟩ := first?_of_front hspells h.front
    have hspells' := spells_of_first? hread
    have hfront' : t' <+: s := (Lexeme.first?_isPrefix hread).1
    have hle' := h.le _ _ _ hspells'.pattern hfront'
    obtain rfl : t = t' :=
      (List.prefix_of_prefix_length_le h.front hfront' hle).eq_of_length (Nat.le_antisymm hle hle')
    obtain rfl := hspells.kind_unique hspells'
    exact ⟨hread, hv⟩
  · rintro ⟨hread, rfl⟩
    refine ⟨(spells_of_first? hread).pattern, (Lexeme.first?_isPrefix hread).1, ?_⟩
    intro k' t' v' h' hfront'
    obtain ⟨k'', t'', hread', hle⟩ := first?_of_front h'.spells.1 hfront'
    cases hread.symm.trans hread'
    exact hle

/-- A string without a closing quote is everything behind its quote. -/
theorem first?_eq_unclosed :
    Lexeme.first? s = some (.unclosed u) ↔ ∃ body, s = quote :: body ∧ u = s ∧ quote ∉ body := by
  constructor
  · intro h
    cases s with
    | nil => cases h
    | cons b rest =>
      simp only [Lexeme.first?] at h
      split at h
      · cases h
      split at h
      · cases h
      split at h
      · next hquote =>
        split at h
        · cases h
        · next hlt =>
          cases h
          obtain rfl := beq_iff_eq.1 hquote
          refine ⟨rest, rfl, rfl, fun hmem => ?_⟩
          have hlength : (rest.takeWhile (· != quote)).length = rest.length :=
            Nat.le_antisymm (List.takeWhile_prefix _).length_le (Nat.le_of_not_lt hlt)
          have hall := List.takeWhile_eq_self_iff.1
            ((List.takeWhile_prefix (· != quote)).eq_of_length hlength)
          simpa using hall quote hmem
      · split at h <;> cases h
  · rintro ⟨body, rfl, rfl, hbody⟩
    have hall : body.takeWhile (· != quote) = body := by
      refine List.takeWhile_eq_self_iff.2 fun c hc => ?_
      simpa using fun he : c = quote => hbody (he ▸ hc)
    show (if (body.takeWhile (· != quote)).length < body.length then _ else _) = _
    rw [hall, if_neg (Nat.lt_irrefl _)]

/-- A byte is passed over where no token begins, nor a string. -/
theorem first?_eq_stray {b : UInt8} :
    Lexeme.first? s = some (.stray b) ↔
      ∃ rest, s = b :: rest ∧ b ≠ quote ∧ ∀ k t v, Pattern k t v → ¬ t <+: s := by
  constructor
  · intro h
    obtain ⟨rest, hs⟩ := (Lexeme.first?_isPrefix h).1
    refine ⟨rest, hs.symm, ?_, ?_⟩
    · rintro rfl
      rw [← hs] at h
      change (if _ then _ else _) = _ at h
      split at h <;> cases h
    · intro k t v hpattern hfront
      obtain ⟨k', t', hread, _⟩ := first?_of_front hpattern.spells.1 hfront
      cases h.symm.trans hread
  · rintro ⟨rest, rfl, hquote, hnone⟩
    cases h : Lexeme.first? (b :: rest) with
    | none => cases eq_nil_of_ofText? (Option.map_eq_none_iff.2 h)
    | some l =>
      cases l with
      | token k t =>
        exact absurd (Lexeme.first?_isPrefix h).1 (hnone k t _ (spells_of_first? h).pattern)
      | unclosed u =>
        obtain ⟨body, he, _, _⟩ := first?_eq_unclosed.1 h
        cases he
        exact absurd rfl hquote
      | stray b' =>
        obtain ⟨_, he⟩ := (Lexeme.first?_isPrefix h).1
        cases he
        rfl

end First

end Lox
