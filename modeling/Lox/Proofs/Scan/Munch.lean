import Lox.Proofs.Scan.Pattern

/-!
# Maximal munch

`Munches` says how a source falls into pieces: white space and comments are passed over, and what
stands at the front otherwise is the longest text that makes a token; a byte that no token begins with
and a string without a closing quote are pieces of their own. Every source falls into pieces
(`exists_munches`), and however it does, they are what is read (`Munches.readAll_eq`).
-/

namespace Lox

/-! ## Pieces -/

/-- What a source is made of. -/
inductive Piece
  /-- A token with its value. -/
  | token (kind : TokenKind) (spelling : Text) (value : Option Constant)
  /-- White space. -/
  | blank (byte : UInt8)
  /-- Two slashes and what is behind them on the line. -/
  | comment (body : Text)
  /-- A byte that no token begins with. -/
  | stray (byte : UInt8)
  /-- A quote without a closing one, and everything behind it. -/
  | unclosed (body : Text)

/-- The bytes of a piece. -/
def Piece.bytes : Piece → Text
  | .token _ spelling _ => spelling
  | .blank b => [b]
  | .comment body => utf8 "//" ++ body
  | .stray b => [b]
  | .unclosed body => quote :: body

/-- What a piece says about a token: its kind, its bytes and its value. -/
def Piece.content? : Piece → Option (TokenKind × Text × Option Constant)
  | .token k t v => some (k, t, v)
  | _ => none

/-- The kind, the bytes and the value of a token. -/
def Token.content (t : Token) : TokenKind × Text × Option Constant := (t.kind, t.lexeme, t.constant)

/-- The token that a piece at the given location is read as. -/
def Piece.token? (loc : Location) (p : Piece) : Option Token :=
  p.content?.map fun c => ⟨c.1, c.2.1, c.2.2, loc⟩

/-- What is wrong with a piece at the given location. -/
def Piece.error? (loc : Location) : Piece → Option ScanError
  | .stray b => some ⟨.unexpectedCharacter b, loc⟩
  | .unclosed _ => some ⟨.unterminatedString, loc⟩
  | _ => none

/-- The pieces, each with the text in front of it. -/
def placed (before : Text) : List Piece → List (Text × Piece)
  | [] => []
  | p :: ps => (before, p) :: placed (before ++ p.bytes) ps

/-- What is read of pieces with the given text in front of them. -/
def piecesRead (before : Text) (ps : List Piece) : Tokens :=
  ⟨(placed before ps).filterMap fun x => x.2.token? (Location.start.after x.1),
    (placed before ps).filterMap fun x => x.2.error? (Location.start.after x.1)⟩

/-- The piece stands in front of a text: a comment ends with its line, a token is the longest one, a
byte is passed over where no token and no string begins, and a string that is not closed is the end of
the source. -/
def Piece.Fits : Piece → Text → Prop
  | .token k t v, rest => ¬ utf8 "//" <+: t ++ rest ∧ Longest k t v (t ++ rest)
  | .blank b, _ => b ∈ utf8 " \t\r\n"
  | .comment body, rest => newline ∉ body ∧ ∀ b ∈ rest.head?, b = newline
  | .stray b, rest =>
    b ∉ utf8 " \t\r\n" ∧ b ≠ quote ∧ ∀ k t v, Pattern k t v → ¬ t <+: b :: rest
  | .unclosed body, rest => quote ∉ body ∧ rest = []

/-- How a source falls into pieces, from its front on. -/
inductive Munches : Text → List Piece → Prop
  | done : Munches [] []
  | next {p : Piece} {ps : List Piece} {rest : Text} : p.Fits rest → Munches rest ps →
    Munches (p.bytes ++ rest) (p :: ps)

/-- White space is four bytes. -/
theorem isBlank_iff {b : UInt8} : isBlank b = true ↔ b ∈ utf8 " \t\r\n" := by
  have hbytes : utf8 " \t\r\n" = [ascii ' ', ascii '\t', ascii '\r', newline] := by decide
  rw [hbytes]
  simp [isBlank, or_assoc]

/-! ## Every source falls into pieces -/

theorem newline_notMem_takeWhile (s : Text) : newline ∉ s.takeWhile (· != newline) := by
  intro hmem
  simpa using List.mem_takeWhile_imp hmem

theorem head_dropWhile_newline (s : Text) :
    ∀ b ∈ (s.dropWhile (· != newline)).head?, b = newline := by
  intro b hb
  have hhead := List.head?_dropWhile_not (· != newline) s
  rw [Option.mem_def.1 hb] at hhead
  simpa using hhead

/-- What stands at the front of a source that is not empty is a piece. -/
theorem exists_fits (b : UInt8) (rest : Text) :
    ∃ p behind, b :: rest = Piece.bytes p ++ behind ∧ p.Fits behind ∧
      behind.length < (b :: rest).length := by
  by_cases hblank : b ∈ utf8 " \t\r\n"
  · exact ⟨.blank b, rest, rfl, hblank, Nat.lt_succ_self _⟩
  by_cases hcomment : utf8 "//" <+: b :: rest
  · obtain ⟨tail, htail⟩ := hcomment
    have hsplit : tail.takeWhile (· != newline) ++ tail.dropWhile (· != newline) = tail :=
      List.takeWhile_append_dropWhile
    refine ⟨.comment (tail.takeWhile (· != newline)), tail.dropWhile (· != newline), ?_,
      ⟨newline_notMem_takeWhile tail, head_dropWhile_newline tail⟩, ?_⟩
    · rw [Piece.bytes, List.append_assoc, hsplit, htail]
    · have hlength := (List.dropWhile_suffix (l := tail) (· != newline)).length_le
      have hslashes : (utf8 "//").length = 2 := by decide
      rw [← htail, List.length_append]
      omega
  cases hfirst : Lexeme.first? (b :: rest) with
  | none => cases eq_nil_of_ofText? (Option.map_eq_none_iff.2 hfirst)
  | some l =>
    obtain ⟨⟨tail, htail⟩, hne⟩ := Lexeme.first?_isPrefix hfirst
    have hlength : tail.length < (b :: rest).length := by
      have hpos := List.length_pos_iff.2 hne
      rw [← htail, List.length_append]
      omega
    cases l with
    | token k t =>
      have hlongest := longest_iff.2 ⟨hfirst, rfl⟩
      rw [← htail] at hlongest hcomment
      exact ⟨.token k t _, tail, htail.symm, ⟨hcomment, hlongest⟩, hlength⟩
    | stray b' =>
      obtain ⟨_, he, hquote, hnone⟩ := first?_eq_stray.1 hfirst
      cases he
      exact ⟨.stray b, rest, rfl, ⟨hblank, hquote, hnone⟩, Nat.lt_succ_self _⟩
    | unclosed u =>
      obtain ⟨body, he, _, hbody⟩ := first?_eq_unclosed.1 hfirst
      exact ⟨.unclosed body, [], by rw [he, List.append_nil]; rfl, ⟨hbody, rfl⟩, Nat.succ_pos _⟩

theorem exists_munches (s : Text) : ∃ ps, Munches s ps := by
  induction hlength : s.length using Nat.strong_induction_on generalizing s with
  | _ n ih =>
    cases s with
    | nil => exact ⟨[], .done⟩
    | cons b rest =>
      obtain ⟨p, behind, hsplit, hfits, hlt⟩ := exists_fits b rest
      obtain ⟨ps, hps⟩ := ih behind.length (hlength ▸ hlt) behind rfl
      rw [hsplit]
      exact ⟨p :: ps, .next hfits hps⟩

/-! ## The pieces are what is read -/

theorem splitGap_true {body s : Text} (hbody : newline ∉ body) (hs : ∀ b ∈ s.head?, b = newline) :
    splitGap true (body ++ s) = (body ++ (splitGap false s).1, (splitGap false s).2) := by
  induction body with
  | nil =>
    cases s with
    | nil => rfl
    | cons b s =>
      obtain rfl := hs b rfl
      rfl
  | cons b body ih =>
    rw [List.mem_cons, not_or] at hbody
    have hb : (b != newline) = true := bne_iff_ne.2 (Ne.symm hbody.1)
    rw [List.cons_append, splitGap, hb, ih hbody.2]
    rfl

theorem splitGap_comment {body s : Text} (hbody : newline ∉ body) (hs : ∀ b ∈ s.head?, b = newline) :
    splitGap false (utf8 "//" ++ body ++ s) =
      (utf8 "//" ++ body ++ (splitGap false s).1, (splitGap false s).2) := by
  have hcomment : splitGap true (ascii '/' :: body ++ s) =
      (ascii '/' :: body ++ (splitGap false s).1, (splitGap false s).2) :=
    splitGap_true (by simpa using ⟨by decide, hbody⟩) hs
  show splitGap false (ascii '/' :: (ascii '/' :: body ++ s)) = _
  rw [splitGap, if_neg (by decide), if_pos (by rfl), hcomment]
  rfl

theorem readToken_comment {body s : Text} (hbody : newline ∉ body)
    (hs : ∀ b ∈ s.head?, b = newline) (loc : Location) :
    readToken (utf8 "//" ++ body ++ s) loc = readToken s (loc.after (utf8 "//" ++ body)) := by
  rw [readToken.eq_def (utf8 "//" ++ body ++ s), readToken.eq_def s, splitGap_comment hbody hs]
  simp only [Location.after_append]

/-- Nothing is passed over in front of what is neither white space nor a comment. -/
theorem splitGap_eq_nil {b : UInt8} {rest : Text} (hblank : isBlank b = false)
    (hcomment : ¬ utf8 "//" <+: b :: rest) : splitGap false (b :: rest) = ([], b :: rest) := by
  have hhead : ¬ (b == ascii '/' && rest.head? == some (ascii '/')) = true := by
    intro h
    rw [Bool.and_eq_true, beq_iff_eq, beq_iff_eq] at h
    obtain ⟨tail, rfl⟩ := List.head?_eq_some_iff.1 h.2
    exact hcomment ⟨tail, by rw [h.1]; rfl⟩
  rw [splitGap, if_neg (by simp [hblank]), if_neg hhead]

/-- What is passed over in front of a text is passed over when all of it is read. -/
theorem readAll_passed {s t : Text} {loc loc' : Location} {es : List ScanError}
    (h : readToken s loc = { readToken t loc' with errors := es ++ (readToken t loc').errors }) :
    readAll s loc = (⟨(readAll t loc').1.tokens, es ++ (readAll t loc').1.errors⟩,
      (readAll t loc').2) := by
  cases hend : (readToken t loc').token.isEnd with
  | true =>
    rw [readAll_end hend, readAll_end (by rw [h]; exact hend), h]
  | false =>
    have hall := @readAll_token s loc (by rw [h]; exact hend)
    rw [hall, readAll_token hend, h]
    simp only [List.append_assoc]

/-- In front of the given text, wherever it begins, a piece is read as what it is. -/
def Piece.ReadAs (p : Piece) (s : Text) : Prop :=
  ∀ loc, readAll (p.bytes ++ s) loc =
    (⟨(p.token? loc).toList ++ (readAll s (loc.after p.bytes)).1.tokens,
      (p.error? loc).toList ++ (readAll s (loc.after p.bytes)).1.errors⟩,
      (readAll s (loc.after p.bytes)).2)

section ReadAs

variable {b : UInt8} {body s t : Text} {k : TokenKind} {v : Option Constant}

theorem Piece.readAs_blank (hb : b ∈ utf8 " \t\r\n") (s : Text) : (Piece.blank b).ReadAs s :=
  fun loc => scans_blank (isBlank_iff.2 hb) s loc

theorem Piece.readAs_comment (hbody : newline ∉ body) (hs : ∀ b ∈ s.head?, b = newline) :
    (Piece.comment body).ReadAs s := by
  intro loc
  exact @readAll_passed _ _ _ _ [] (readToken_comment hbody hs loc)

theorem Piece.readAs_token (hcomment : ¬ utf8 "//" <+: t ++ s) (h : Longest k t v (t ++ s)) :
    (Piece.token k t v).ReadAs s := by
  intro loc
  obtain ⟨hfirst, rfl⟩ := longest_iff.1 h
  have hspells := spells_of_first? hfirst
  obtain ⟨b, rest, rfl, hblank, _⟩ := hspells.head
  have hgap : splitGap false (b :: rest ++ s) = ([], b :: rest ++ s) := splitGap_eq_nil hblank hcomment
  have hlexeme : Lexeme.ofText? (splitGap false (b :: rest ++ s)).2 =
      some (.token k (b :: rest), s) := by
    rw [hgap, Lexeme.ofText?, hfirst]
    simp [Lexeme.bytes]
  have hread := readToken_token hlexeme loc
  rw [hgap] at hread
  have hall := @readAll_token (b :: rest ++ s) loc
    (by rw [hread]; exact beq_false_of_ne hspells.ne_endOfInput)
  rw [hread] at hall
  exact hall

theorem Piece.readAs_stray (hblank : b ∉ utf8 " \t\r\n") (hquote : b ≠ quote)
    (hnone : ∀ k t v, Pattern k t v → ¬ t <+: b :: s) : (Piece.stray b).ReadAs s := by
  intro loc
  have hcomment : ¬ utf8 "//" <+: b :: s := by
    intro hfront
    have hslash : utf8 "/" <+: utf8 "//" := ⟨utf8 "/", by decide⟩
    exact hnone .slash (utf8 "/") none (.symbol (by decide)) (hslash.trans hfront)
  have hgap := splitGap_eq_nil (Bool.eq_false_iff.2 (mt isBlank_iff.1 hblank)) hcomment
  have hlexeme : Lexeme.ofText? (splitGap false (b :: s)).2 = some (.stray b, s) := by
    rw [hgap, Lexeme.ofText?, first?_eq_stray.2 ⟨s, rfl, hquote, hnone⟩]
    rfl
  have hread := readToken_stray hlexeme loc
  rw [hgap] at hread
  exact @readAll_passed _ _ _ _ [_] hread

theorem Piece.readAs_unclosed (hbody : quote ∉ body) : (Piece.unclosed body).ReadAs [] := by
  intro loc
  have hcomment : ¬ utf8 "//" <+: quote :: body := by
    intro hfront
    exact absurd (List.cons_prefix_cons.1 hfront).1 (by decide)
  have hgap := splitGap_eq_nil (b := quote) (by decide) hcomment
  have hlexeme : Lexeme.ofText? (splitGap false (quote :: body)).2 =
      some (.unclosed (quote :: body), []) := by
    rw [hgap, Lexeme.ofText?, first?_eq_unclosed.2 ⟨body, rfl, rfl, hbody⟩]
    simp [Lexeme.bytes]
  have hread := readToken_unclosed hlexeme loc
  rw [hgap] at hread
  rw [Piece.bytes, List.append_nil]
  exact @readAll_passed _ _ _ _ [_] hread

/-- A piece is read as what it is in front of every text that it stands in front of. -/
theorem Piece.Fits.readAs {p : Piece} (h : p.Fits s) : p.ReadAs s := by
  cases p with
  | token k t v => exact readAs_token h.1 h.2
  | blank b => exact readAs_blank h s
  | comment body => exact readAs_comment h.1 h.2
  | stray b => exact readAs_stray h.1 h.2.1 h.2.2
  | unclosed body =>
    obtain ⟨hbody, rfl⟩ := h
    exact readAs_unclosed hbody

end ReadAs

theorem piecesRead_cons (before : Text) (p : Piece) (ps : List Piece) :
    piecesRead before (p :: ps) =
      ⟨(p.token? (Location.start.after before)).toList ++
          (piecesRead (before ++ p.bytes) ps).tokens,
        (p.error? (Location.start.after before)).toList ++
          (piecesRead (before ++ p.bytes) ps).errors⟩ := by
  simp only [piecesRead, placed, List.filterMap_cons]
  cases p.token? (Location.start.after before) <;>
    cases p.error? (Location.start.after before) <;> rfl

/-- However a source falls into pieces, they are what is read. -/
theorem Munches.readAll_eq {s : Text} {ps : List Piece} (h : Munches s ps) (before : Text) :
    readAll s (Location.start.after before) =
      (⟨(piecesRead before ps).tokens ++ [.endOfInput (Location.start.after (before ++ s))],
        (piecesRead before ps).errors⟩, Location.start.after (before ++ s)) := by
  induction h generalizing before with
  | done =>
    rw [readAll_nil, List.append_nil]
    rfl
  | @next p ps rest hfits _ ih =>
    rw [hfits.readAs, ← Location.after_append, ih, piecesRead_cons]
    simp only [List.append_assoc]

theorem map_content_piecesRead (before : Text) (ps : List Piece) :
    (piecesRead before ps).tokens.map Token.content = ps.filterMap Piece.content? := by
  induction ps generalizing before with
  | nil => rfl
  | cons p ps ih =>
    rw [piecesRead_cons, List.map_append, ih, List.filterMap_cons]
    unfold Piece.token?
    cases p.content? <;> rfl

/-- **Maximal munch.** Every source falls into pieces: white space, comments, bytes that no token
begins with, a string at the end that is not closed, and tokens, each of them the longest text at its
place that the token grammar allows. However it falls into such pieces, its tokens are those among
them, with the kinds and values of the grammar, and then the end of the input. -/
theorem tokenize_munches (source : Text) :
    (∃ ps, Munches source ps) ∧ ∀ ps, Munches source ps →
      (tokenize source).tokens.map Token.content =
        ps.filterMap Piece.content? ++ [(.endOfInput, [], none)] := by
  refine ⟨exists_munches source, fun ps h => ?_⟩
  have hread : readAll source .start = _ := h.readAll_eq []
  rw [tokenize, hread, List.map_append, map_content_piecesRead]
  rfl

end Lox
