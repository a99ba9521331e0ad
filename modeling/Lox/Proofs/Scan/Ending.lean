import Lox.Proofs.Scan.Munch
import Lox.Proofs.Scan.Stream

/-!
# Noticing the end

A stream that has looked ahead knows whether the end of the input comes next. One that has not knows
whether bytes are left. The two differ where bytes are left but no token among them: white space,
comments, stray bytes and a string without a closing quote (`Tokenless`). There the end goes unnoticed
until it is looked at, and nowhere else (`TokenStream.atEnd_after_requests`); a single space is such a
place (`TokenStream.atEnd_space`).
-/

namespace Lox

/-! ## Texts without tokens -/

/-- No piece of the text is a token. -/
def Tokenless (s : Text) : Prop := ∃ ps, Munches s ps ∧ ∀ p ∈ ps, p.content? = none

theorem piecesRead_tokens_eq_nil {ps : List Piece} (before : Text) :
    (piecesRead before ps).tokens = [] ↔ ∀ p ∈ ps, p.content? = none := by
  induction ps generalizing before with
  | nil => simp [piecesRead, placed]
  | cons p ps ih =>
    rw [piecesRead_cons, List.append_eq_nil_iff, ih, List.forall_mem_cons, Option.toList_eq_nil_iff,
      Piece.token?, Option.map_eq_none_iff]

/-- All that is read is the end of the input exactly if the first token is. -/
theorem readAll_length_eq_one (s : Text) (loc : Location) :
    (readAll s loc).1.tokens.length = 1 ↔ (readToken s loc).token.isEnd = true := by
  by_cases hend : (readToken s loc).token.isEnd = true
  · simp [readAll_end hend, hend]
  · have hmore : (readToken s loc).token.isEnd = false := Bool.eq_false_iff.2 hend
    obtain ⟨us, hothers⟩ := readAll_last (readToken s loc).rest (readToken s loc).loc
    simp [readAll_token hmore, hothers, hend]

/-- The end of the input is what is read of a text without tokens. -/
theorem readToken_isEnd_iff (s : Text) (loc : Location) :
    (readToken s loc).token.isEnd = true ↔ Tokenless s := by
  have hread {ps : List Piece} (hps : Munches s ps) :
      (readToken s loc).token.isEnd = true ↔ ∀ p ∈ ps, p.content? = none := by
    -- where the text begins makes no difference
    have hmoved := (readToken_moved s loc .start).token.isEnd
    have hall := hps.readAll_eq []
    rw [hmoved, ← readAll_length_eq_one, ← piecesRead_tokens_eq_nil []]
    show (readAll s (Location.start.after [])).1.tokens.length = 1 ↔ _
    rw [hall, List.length_append, List.length_singleton, Nat.add_eq_right,
      List.length_eq_zero_iff]
  constructor
  · intro hend
    obtain ⟨ps, hps⟩ := exists_munches s
    exact ⟨ps, hps, (hread hps).1 hend⟩
  · rintro ⟨ps, hps, hnone⟩
    exact (hread hps).2 hnone

theorem tokenless_nil : Tokenless [] := ⟨[], .done, nofun⟩

/-! ## What is left -/

/-- What is behind the first lexeme is the end of the text. -/
theorem ofText?_suffix {s rest : Text} {l : Lexeme}
    (h : Lexeme.ofText? (splitGap false s).2 = some (l, rest)) : rest <:+ s := by
  refine ⟨(splitGap false s).1 ++ l.bytes, ?_⟩
  rw [List.append_assoc, Lexeme.ofText?_append h, splitGap_append]

theorem readToken_rest_suffix (s : Text) (loc : Location) : (readToken s loc).rest <:+ s := by
  fun_induction readToken s loc with
  | case1 => exact List.nil_suffix
  | case2 s loc gap start kind spelling rest hl => exact ofText?_suffix hl
  | case3 s loc gap start b rest hl next ih => exact ih.trans (ofText?_suffix hl)
  | case4 s loc gap start spelling rest hl next ih => exact ih.trans (ofText?_suffix hl)

namespace TokenStream

theorem next_rest_suffix (s : TokenStream) : s.next.2.rest <:+ s.rest := by
  obtain ⟨rest, loc, peeked, errors⟩ := s
  cases peeked with
  | some t => exact List.suffix_rfl
  | none => exact readToken_rest_suffix rest loc

theorem serve_rest_suffix (s : TokenStream) (r : Request) : (s.serve r).2.rest <:+ s.rest := by
  cases r with
  | next => exact s.next_rest_suffix
  | peek =>
    have hnext := s.next_rest_suffix
    obtain ⟨rest, loc, peeked, errors⟩ := s
    cases peeked with
    | some t => exact List.suffix_rfl
    | none => exact hnext
  | takeAll =>
    show s.takeAll.2.rest <:+ s.rest
    unfold takeAll
    dsimp only
    split
    · exact s.next_rest_suffix
    · exact List.nil_suffix

/-- What is left is the end of what was there. -/
theorem after_rest_suffix (s : TokenStream) (rs : List Request) : (s.after rs).rest <:+ s.rest := by
  induction rs generalizing s with
  | nil => exact List.suffix_rfl
  | cons r rs ih => exact (ih (s.serve r).2).trans (s.serve_rest_suffix r)

/-- A request leaves a token that has been looked at if it is a look ahead, and none otherwise. -/
theorem serve_peeked_eq_none (s : TokenStream) (r : Request) :
    (s.serve r).2.peeked = none ↔ r ≠ .peek := by
  cases r with
  | next => simp [serve, s.next_peeked]
  | peek =>
    obtain ⟨rest, loc, peeked, errors⟩ := s
    cases peeked <;> simp [serve, peek]
  | takeAll =>
    have hnone : s.takeAll.2.peeked = none := by
      unfold takeAll
      dsimp only
      split
      · exact s.next_peeked
      · rfl
    simp [serve, hnone]

/-- A token has been looked at if the last request was a look ahead. -/
theorem after_peeked_eq_none {s : TokenStream} (h : s.peeked = none) (rs : List Request) :
    (s.after rs).peeked = none ↔ rs.getLast? ≠ some .peek := by
  induction rs using List.reverseRecOn with
  | nil => simpa [after] using h
  | append_singleton rs r =>
    have hlast : s.after (rs ++ [r]) = ((s.after rs).serve r).2 := by simp [after]
    rw [hlast, serve_peeked_eq_none, List.getLast?_concat, ne_eq, ne_eq, Option.some_inj]

/-! ## The end -/

/-- The end comes next but has not been looked at, and there are bytes in front of it. -/
structure EndUnnoticed (s : TokenStream) : Prop where
  unpeeked : s.peeked = none
  left : s.rest ≠ []
  tokenless : Tokenless s.rest

theorem next_isEnd_iff {s : TokenStream} (h : s.peeked = none) :
    s.next.1.isEnd = true ↔ Tokenless s.rest := by
  obtain ⟨rest, loc, peeked, errors⟩ := s
  obtain rfl : peeked = none := h
  exact readToken_isEnd_iff rest loc

/-- The end is reached when it comes next, unless it goes unnoticed. -/
theorem atEnd_iff (s : TokenStream) :
    s.atEnd = true ↔ s.next.1.isEnd = true ∧ ¬ s.EndUnnoticed := by
  cases hpeeked : s.peeked with
  | some t =>
    have hnoticed : ¬ s.EndUnnoticed := by
      intro h
      cases hpeeked.symm.trans h.unpeeked
    simp [atEnd, next, hpeeked, hnoticed]
  | none =>
    rw [next_isEnd_iff hpeeked]
    have hatEnd : s.atEnd = true ↔ s.rest = [] := by simp [atEnd, hpeeked]
    rw [hatEnd]
    constructor
    · intro hrest
      exact ⟨hrest ▸ tokenless_nil, fun h => h.left hrest⟩
    · rintro ⟨htokenless, hnoticed⟩
      by_contra hrest
      exact hnoticed ⟨hpeeked, hrest, htokenless⟩

/-- Behind a look ahead the end is reached when it comes next. -/
theorem peek_atEnd (s : TokenStream) : s.peek.2.atEnd = s.next.1.isEnd := by
  obtain ⟨rest, loc, peeked, errors⟩ := s
  cases peeked <;> rfl

theorem EndUnnoticed.next_isEnd {s : TokenStream} (h : s.EndUnnoticed) : s.next.1.isEnd = true :=
  (next_isEnd_iff h.unpeeked).2 h.tokenless

/-- **When the end is noticed.** Whatever a stream has been asked, it says that the end has been reached
exactly when the end of the input comes next, unless what is left of the source is not empty, has no
token in it, and the last request was no look ahead. Only then does a look ahead change the answer, and
behind a look ahead it is right. -/
theorem atEnd_after_requests (source : Text) (rs : List Request) :
    let s := (ofSource source).after rs
    s.rest <:+ source ∧
      (s.EndUnnoticed ↔ rs.getLast? ≠ some .peek ∧ s.rest ≠ [] ∧ Tokenless s.rest) ∧
      (s.atEnd = true ↔ s.next.1.kind = .endOfInput ∧ ¬ s.EndUnnoticed) ∧
      (s.peek.2.atEnd = true ↔ s.next.1.kind = .endOfInput) ∧
      (s.peek.2.atEnd = s.atEnd ↔ ¬ s.EndUnnoticed) := by
  intro s
  have hkind : s.next.1.isEnd = true ↔ s.next.1.kind = .endOfInput := beq_iff_eq
  have hlast : s.peeked = none ↔ rs.getLast? ≠ some .peek := after_peeked_eq_none rfl rs
  refine ⟨after_rest_suffix (ofSource source) rs, ?_, ?_, ?_, ?_⟩
  · rw [← hlast]
    exact ⟨fun h => ⟨h.unpeeked, h.left, h.tokenless⟩, fun ⟨hnone, hleft, hno⟩ => ⟨hnone, hleft, hno⟩⟩
  · rw [← hkind]
    exact s.atEnd_iff
  · rw [peek_atEnd]
    exact hkind
  · rw [peek_atEnd, Bool.eq_iff_iff, s.atEnd_iff]
    constructor
    · intro h hunnoticed
      exact (h.1 hunnoticed.next_isEnd).2 hunnoticed
    · intro hnoticed
      exact ⟨fun hend => ⟨hend, hnoticed⟩, And.left⟩

/-- In front of a single space the end comes next, but only a look ahead notices it. -/
theorem atEnd_space :
    let s := ofSource (utf8 " ")
    s.next.1.kind = .endOfInput ∧ s.atEnd = false ∧ s.peek.2.atEnd = true :=
  ⟨by decide +kernel, by decide +kernel, by decide +kernel⟩

end TokenStream

end Lox
