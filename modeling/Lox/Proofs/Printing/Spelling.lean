import Lox.TokenStream
import Mathlib.Data.List.TakeWhile

/-!
# Spellings

`Spells` describes the texts that are read as a token of a kind, apart from any reader: numerals,
words, strings and symbols. What is read is spelled so (`spells_of_first?`), and what is spelled so is
read in front of everything that does not go on with it (`first?_append`).
-/

namespace Lox

/-! ## Runs of bytes -/

theorem takeWhile_append_of_head {α : Type} {p : α → Bool} {s tail : List α}
    (hs : ∀ b ∈ s, p b = true) (ht : ∀ b ∈ tail.head?, p b = false) :
    (s ++ tail).takeWhile p = s := by
  rw [List.takeWhile_append_of_pos hs]
  cases tail with
  | nil => rw [List.takeWhile_nil, List.append_nil]
  | cons b tail => rw [List.takeWhile_cons_of_neg (by simp [ht b rfl]), List.append_nil]

theorem dropWhile_append_of_head {α : Type} {p : α → Bool} {s tail : List α}
    (hs : ∀ b ∈ s, p b = true) (ht : ∀ b ∈ tail.head?, p b = false) :
    (s ++ tail).dropWhile p = tail := by
  rw [List.dropWhile_append_of_pos hs]
  cases tail with
  | nil => rfl
  | cons b tail => rw [List.dropWhile_cons_of_neg (by simp [ht b rfl])]

theorem isDigit_of_mem_takeWhile {s : Text} : ∀ b ∈ s.takeWhile isDigit, isDigit b = true :=
  fun _ => List.mem_takeWhile_imp

/-! ## Classes of bytes -/

/-- What holds of the bytes one by one holds of all. -/
theorem forall_byte {p : UInt8 → Bool}
    (h : (List.range 256).all (fun n => p (UInt8.ofNat n)) = true) (b : UInt8) : p b = true := by
  have hb := List.all_eq_true.1 h b.toNat (List.mem_range.2 b.toNat_lt)
  rwa [UInt8.ofNat_toNat] at hb

theorem not_isDigit_of_isNameStart {b : UInt8} (h : isNameStart b = true) : isDigit b = false := by
  have hb := @forall_byte (fun b => !isNameStart b || !isDigit b) (by decide +kernel) b
  simpa [h] using hb

/-- A byte that a numeral or a word begins with is not blank, nor a slash or an equals sign. -/
theorem not_isBlank_of_isDigit {b : UInt8} (h : isDigit b = true) :
    isBlank b = false ∧ b ≠ ascii '/' ∧ b ≠ ascii '=' := by
  have hb := @forall_byte (fun b => !isDigit b || (!isBlank b && (b != ascii '/' && b != ascii '=')))
    (by decide +kernel) b
  simpa [h] using hb

theorem not_isBlank_of_isNameStart {b : UInt8} (h : isNameStart b = true) :
    isBlank b = false ∧ b ≠ ascii '/' ∧ b ≠ ascii '=' := by
  have hb := @forall_byte
    (fun b => !isNameStart b || (!isBlank b && (b != ascii '/' && b != ascii '=')))
    (by decide +kernel) b
  simpa [h] using hb

/-! ## Spellings -/

/-- Digits, or digits with a point between them. -/
inductive Numeral : Text → Prop
  | whole {ds : Text} : ds ≠ [] → (∀ b ∈ ds, isDigit b = true) → Numeral ds
  | fraction {ds fs : Text} : ds ≠ [] → (∀ b ∈ ds, isDigit b = true) → fs ≠ [] →
    (∀ b ∈ fs, isDigit b = true) → Numeral (ds ++ ascii '.' :: fs)

/-- The texts that are read as a token of a kind. -/
inductive Spells : TokenKind → Text → Prop
  | numeral {t : Text} : Numeral t → Spells .number t
  | word {b : UInt8} {rest : Text} : isNameStart b = true → (∀ c ∈ rest, isNamePart c = true) →
    Spells (TokenKind.ofWord (b :: rest)) (b :: rest)
  | string {body : Text} : quote ∉ body → Spells .string (quote :: (body ++ [quote]))
  | symbol {e : Text × TokenKind} : e ∈ TokenKind.symbols → Spells e.2 e.1

/-- Whether a byte behind a token of the kind would be read as part of it. -/
def TokenKind.joins (k : TokenKind) (b : UInt8) : Bool :=
  match k with
  | .number => isDigit b || b == ascii '.'
  | .bang | .equal | .less | .greater => b == ascii '='
  | .slash => b == ascii '/'
  | .leftParen | .rightParen | .leftBrace | .rightBrace | .comma | .dot | .minus | .plus
  | .semicolon | .star | .bangEqual | .equalEqual | .lessEqual | .greaterEqual | .string
  | .endOfInput => false
  | _ => isNamePart b

/-- The text in front of another one is not read together with its first byte. -/
def TokenKind.Follows (k : TokenKind) (tail : Text) : Prop := ∀ b ∈ tail.head?, k.joins b = false

/-- The value of a string is what is between its quotes. -/
theorem constant?_string (body : Text) :
    Lexeme.constant? .string (quote :: (body ++ [quote])) = some (.string body) := by
  rw [Lexeme.constant?, List.drop_one, List.tail_cons, List.dropLast_concat]

/-! ## What is read is spelled so -/

theorem numeral_numeral {b : UInt8} {rest : Text} (h : isDigit b = true) :
    Numeral (Lexeme.numeral (b :: rest)) := by
  have hne : (b :: rest).takeWhile isDigit ≠ [] := by simp [h]
  unfold Lexeme.numeral
  split
  · next p d tail _ =>
    split
    · next hpoint =>
      rw [Bool.and_eq_true, beq_iff_eq] at hpoint
      obtain ⟨rfl, hd⟩ := hpoint
      exact Numeral.fraction hne isDigit_of_mem_takeWhile (by simp [hd]) isDigit_of_mem_takeWhile
    · exact .whole hne isDigit_of_mem_takeWhile
  · exact .whole hne isDigit_of_mem_takeWhile

/-- Every token is spelled as its kind asks. -/
theorem spells_of_first? {s spelling : Text} {kind : TokenKind}
    (h : Lexeme.first? s = some (.token kind spelling)) : Spells kind spelling := by
  cases s with
  | nil => cases h
  | cons b rest =>
    simp only [Lexeme.first?] at h
    split at h
    · next hd =>
      cases h
      exact .numeral (numeral_numeral hd)
    · split at h
      · next hn =>
        have hword : (b :: rest).takeWhile isNamePart = b :: rest.takeWhile isNamePart :=
          List.takeWhile_cons_of_pos (by simp [isNamePart, hn])
        rw [hword] at h
        cases h
        exact .word hn fun _ => List.mem_takeWhile_imp
      · split at h
        · next hq =>
          obtain rfl := beq_iff_eq.1 hq
          split at h
          · cases h
            refine .string fun hmem => ?_
            simpa using List.mem_takeWhile_imp hmem
          · cases h
        · split at h
          · next hs =>
            cases h
            exact .symbol (List.mem_of_find?_eq_some hs)
          · cases h

/-! ## What is spelled so is read -/

/-- A word is an identifier or one of the reserved words. -/
theorem ofWord_cases (t : Text) :
    TokenKind.ofWord t = .identifier ∨ (t, TokenKind.ofWord t) ∈ TokenKind.keywords := by
  unfold TokenKind.ofWord
  cases h : TokenKind.keywords.lookup t with
  | none => exact .inl rfl
  | some k =>
    obtain ⟨l₁, l₂, hl, _⟩ := List.lookup_eq_some_iff.1 h
    rw [hl]
    exact .inr (List.mem_append_right l₁ List.mem_cons_self)

theorem joins_ofWord (t : Text) (b : UInt8) : (TokenKind.ofWord t).joins b = isNamePart b := by
  have hkeyword : ∀ e ∈ TokenKind.keywords, e.2.joins b = isNamePart b := by
    simp [TokenKind.keywords, TokenKind.joins]
  rcases ofWord_cases t with h | h
  · rw [h]
    rfl
  · exact hkeyword _ h

theorem numeral_append {t tail : Text} (ht : Numeral t) (h : TokenKind.number.Follows tail) :
    Lexeme.numeral (t ++ tail) = t := by
  have htail : ∀ b ∈ tail.head?, isDigit b = false ∧ b ≠ ascii '.' := by
    intro b hb
    simpa [TokenKind.joins] using h b hb
  have hdigit : ∀ b ∈ tail.head?, isDigit b = false := fun b hb => (htail b hb).1
  cases ht with
  | whole hne hds =>
    unfold Lexeme.numeral
    rw [takeWhile_append_of_head hds hdigit, dropWhile_append_of_head hds hdigit]
    split
    · next p d rest =>
      have hp : (p == ascii '.') = false := beq_false_of_ne (htail p rfl).2
      rw [hp]
      rfl
    · rfl
  | @fraction ds fs hne hds hfs hfd =>
    have hpoint : ∀ b ∈ (ascii '.' :: (fs ++ tail)).head?, isDigit b = false := by
      intro b hb
      obtain rfl := Option.some.inj hb
      rfl
    obtain ⟨d, fs', rfl⟩ := List.exists_cons_of_ne_nil hfs
    have hd : isDigit d = true := hfd d List.mem_cons_self
    unfold Lexeme.numeral
    rw [List.append_assoc, List.cons_append, takeWhile_append_of_head hds hpoint,
      dropWhile_append_of_head hds hpoint]
    show (if (ascii '.' == ascii '.' && isDigit d) = true then _ else _) = _
    rw [if_pos (by rw [hd]; rfl)]
    show ds ++ ascii '.' :: (d :: fs' ++ tail).takeWhile isDigit = _
    rw [takeWhile_append_of_head hfd hdigit]

/-- A symbol that is the beginning of another one is read where no equals sign follows. -/
theorem symbol?_beginning {e : Text × TokenKind}
    (he : e ∈ [(utf8 "!", .bang), (utf8 "=", .equal), (utf8 "<", .less), (utf8 ">", .greater)])
    {tail : Text} (h : ∀ b ∈ tail.head?, b ≠ ascii '=') :
    Lexeme.symbol? (e.1 ++ tail) = some e := by
  simp only [List.mem_cons, List.not_mem_nil, or_false] at he
  cases tail with
  | nil => rcases he with rfl | rfl | rfl | rfl <;> rfl
  | cons b rest =>
    have hb : (ascii '=' == b) = false := beq_false_of_ne (h b rfl).symm
    rcases he with rfl | rfl | rfl | rfl
    all_goals
      show (match (ascii '=' == b && true) with | true => _ | false => _) = _
      rw [hb]
      rfl

/-- A symbol is read in front of what does not go on with it. -/
theorem symbol?_append {e : Text × TokenKind} (he : e ∈ TokenKind.symbols) {tail : Text}
    (h : e.2.Follows tail) : Lexeme.symbol? (e.1 ++ tail) = some e := by
  by_cases hb : e ∈ [(utf8 "!", .bang), (utf8 "=", .equal), (utf8 "<", .less), (utf8 ">", .greater)]
  · refine symbol?_beginning hb fun b hb' => ?_
    have hjoins : e.2.joins b = (b == ascii '=') := by
      simp only [List.mem_cons, List.not_mem_nil, or_false] at hb
      rcases hb with rfl | rfl | rfl | rfl <;> rfl
    simpa [hjoins] using h b hb'
  · simp only [TokenKind.symbols, List.mem_cons, List.not_mem_nil, or_false] at he
    rcases he with rfl | rfl | rfl | rfl | rfl | rfl | rfl | rfl | rfl | rfl | rfl | rfl | rfl | rfl |
      rfl | rfl | rfl | rfl | rfl
    all_goals first | rfl | exact absurd (by simp) hb

/-- The first byte of a symbol begins neither a numeral nor a word nor a string. -/
theorem symbol_head {e : Text × TokenKind} (he : e ∈ TokenKind.symbols) :
    ∃ b rest, e.1 = b :: rest ∧ isDigit b = false ∧ isNameStart b = false ∧
      (b == quote) = false ∧ isBlank b = false := by
  have hall : ∀ e ∈ TokenKind.symbols, ∀ b ∈ e.1.head?, isDigit b = false ∧
      isNameStart b = false ∧ (b == quote) = false ∧ isBlank b = false := by decide +kernel
  obtain ⟨b, rest, hb⟩ := List.exists_cons_of_ne_nil (Lexeme.symbols_ne_nil e he)
  exact ⟨b, rest, hb, hall e he b (by rw [hb]; rfl)⟩

/-- A token is read in front of everything that does not go on with it. -/
theorem first?_append {kind : TokenKind} {spelling tail : Text} (hs : Spells kind spelling)
    (h : kind.Follows tail) :
    Lexeme.first? (spelling ++ tail) = some (.token kind spelling) := by
  cases hs with
  | numeral ht =>
    have hread := numeral_append ht h
    obtain ⟨b, rest, hb, hd⟩ : ∃ b rest, spelling = b :: rest ∧ isDigit b = true := by
      cases ht with
      | whole hne hds =>
        obtain ⟨b, rest, rfl⟩ := List.exists_cons_of_ne_nil hne
        exact ⟨b, rest, rfl, hds b List.mem_cons_self⟩
      | fraction hne hds =>
        obtain ⟨b, rest, rfl⟩ := List.exists_cons_of_ne_nil hne
        exact ⟨b, _, rfl, hds b List.mem_cons_self⟩
    rw [hb, List.cons_append] at hread ⊢
    simp only [Lexeme.first?, hd, if_true, hread]
  | @word b rest hb hrest =>
    have hd := not_isDigit_of_isNameStart hb
    have htail : ∀ c ∈ tail.head?, isNamePart c = false := fun c hc => by
      rw [← joins_ofWord (b :: rest)]
      exact h c hc
    have hpart : ∀ c ∈ b :: rest, isNamePart c = true :=
      List.forall_mem_cons.2 ⟨by simp [isNamePart, hb], hrest⟩
    have hread : (b :: (rest ++ tail)).takeWhile isNamePart = b :: rest :=
      takeWhile_append_of_head hpart htail
    simp only [List.cons_append, Lexeme.first?, hd, hb, hread, Bool.false_eq_true, if_false, if_true]
  | @string body hbody =>
    have hall : ∀ c ∈ body, (c != quote) = true := fun c hc => by
      simpa using fun he : c = quote => hbody (he ▸ hc)
    have hread : (body ++ quote :: tail).takeWhile (· != quote) = body :=
      takeWhile_append_of_head hall (by simp)
    have hdigit : isDigit quote = false := rfl
    have hname : isNameStart quote = false := rfl
    have hlt : body.length < (body ++ quote :: tail).length := by
      rw [List.length_append, List.length_cons]
      omega
    simp only [List.cons_append, List.append_assoc, List.nil_append, Lexeme.first?, hdigit, hname,
      hread, hlt, beq_self_eq_true, Bool.false_eq_true, if_false, if_true]
  | symbol he =>
    obtain ⟨b, rest, hb, hdigit, hname, hquote, _⟩ := symbol_head he
    have hsymbol := symbol?_append he h
    rw [hb, List.cons_append] at hsymbol ⊢
    simp only [Lexeme.first?, hdigit, hname, hquote, hsymbol, Bool.false_eq_true, if_false, hb]

end Lox
