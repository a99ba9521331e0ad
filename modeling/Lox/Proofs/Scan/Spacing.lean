import Lox.Proofs.Printing.Expression
import Lox.Proofs.Scan.Munch
import Lox.Proofs.Scan.Stream

/-!
# White space makes no difference

`Gap` says what may stand between tokens, and `Spaced` how lexemes are written down with gaps behind
them. No token goes on with white space, so each lexeme is read again whatever gaps are around it:
however the lexemes of a source are spaced, the same tokens are read (`tokenize_spaced`).
-/

namespace Lox

/-- White space, and comments that end with their line. -/
inductive Gap : Text → Prop
  | empty : Gap []
  | blank {b : UInt8} {g : Text} : isBlank b = true → Gap g → Gap (b :: g)
  | comment {body g : Text} : newline ∉ body → Gap g → Gap (utf8 "//" ++ body ++ newline :: g)

/-- Lexemes with a gap behind each. The gap begins with white space, but the last one may be empty. -/
inductive Spaced : List Text → Text → Prop
  | nil : Spaced [] []
  | cons {l g s : Text} {ls : List Text} :
    Gap g → g.head?.any isBlank = true ∨ g = [] ∧ ls = [] → Spaced ls s →
    Spaced (l :: ls) (l ++ (g ++ s))

/-- Nothing is wrong with a text, and the kinds, lexemes and values of its tokens are those of the
source. -/
def SameTokens (source s : Text) : Prop :=
  (tokenize s).errors = [] ∧
    (tokenize s).tokens.map Token.content = (tokenize source).tokens.map Token.content

/-! ## Gaps -/

/-- White space goes on with no token. -/
theorem follows_blank {b : UInt8} (hb : isBlank b = true) (k : TokenKind) (t : Text) :
    k.Follows (b :: t) := by
  have hjoins : ∀ k ∈ TokenKind.all, ∀ b ∈ utf8 " \t\r\n", k.joins b = false := by decide +kernel
  intro c hc
  obtain rfl := Option.some.inj hc
  exact hjoins k k.mem_all b (isBlank_iff.1 hb)

theorem scans_comment {body t : Text} (hbody : newline ∉ body) (loc : Location) :
    Scans (utf8 "//" ++ body ++ newline :: t) loc [] (newline :: t)
      (loc.after (utf8 "//" ++ body)) := by
  have hline : ∀ b ∈ (newline :: t).head?, b = newline := fun b hb => (Option.some.inj hb).symm
  exact Piece.readAs_comment hbody hline loc

/-- A gap is passed over. -/
theorem Gap.scans {g : Text} (h : Gap g) (t : Text) (loc : Location) :
    ∃ loc', Scans (g ++ t) loc [] t loc' := by
  induction h generalizing loc with
  | empty => exact ⟨loc, .refl t loc⟩
  | @blank b g hb _ ih =>
    obtain ⟨loc', hscan⟩ := ih (loc.step b)
    exact ⟨loc', (scans_blank hb (g ++ t) loc).trans hscan⟩
  | @comment body g hbody _ ih =>
    obtain ⟨loc', hscan⟩ := ih ((loc.after (utf8 "//" ++ body)).step newline)
    have hblank := scans_blank (b := newline) rfl (g ++ t) (loc.after (utf8 "//" ++ body))
    refine ⟨loc', ?_⟩
    rw [List.append_assoc, List.cons_append]
    exact ((scans_comment hbody loc).trans hblank).trans hscan

/-! ## Lexemes -/

/-- Lexemes are read again with gaps around them. -/
theorem Spaced.scans {us : List Token} (hus : ∀ t ∈ us, t.Spelled) {s : Text}
    (h : Spaced (us.map Token.lexeme) s) (loc : Location) :
    ∃ vs loc', Scans s loc vs [] loc' ∧ vs.map Token.content = us.map Token.content := by
  induction us generalizing s loc with
  | nil =>
    cases h
    exact ⟨[], loc, .refl [] loc, rfl⟩
  | cons t us ih =>
    obtain ⟨⟨hspells, hvalue⟩, hrest⟩ := List.forall_mem_cons.1 hus
    rw [List.map_cons] at h
    cases h with
    | @cons _ g s _ hgap hsep hspaced =>
      have hfollows : t.kind.Follows (g ++ s) := by
        rcases hsep with hblank | ⟨rfl, hnone⟩
        · obtain ⟨b, g, rfl⟩ : ∃ b g', g = b :: g' := List.exists_cons_of_ne_nil fun hnil => by
            rw [hnil] at hblank
            cases hblank
          exact follows_blank hblank t.kind (g ++ s)
        · -- nothing at all is behind the last lexeme
          rw [hnone] at hspaced
          cases hspaced
          exact nofun
      have htoken := scans_token hspells hfollows loc
      obtain ⟨loc', hpassed⟩ := hgap.scans s (loc.after t.lexeme)
      obtain ⟨vs, loc'', hothers, hcontent⟩ := ih hrest hspaced loc'
      refine ⟨_, loc'', (htoken.trans hpassed).trans hothers, ?_⟩
      simp only [List.append_nil, List.singleton_append, List.map_cons, hcontent, Token.content,
        hvalue]

/-- Single spaces space lexemes. -/
theorem spaced_joined (ls : List Text) : Spaced ls (Text.joined (utf8 " ") ls) := by
  induction ls with
  | nil => exact .nil
  | cons l ls ih =>
    cases ls with
    | nil =>
      have h := Spaced.cons (l := l) .empty (.inr ⟨rfl, rfl⟩) .nil
      simpa [Text.joined] using h
    | cons l' ls =>
      rw [Text.joined_cons_cons]
      exact .cons (.blank rfl .empty) (.inl rfl) ih

/-! ## Sources -/

/-- The tokens of a source, but the end of the input, are spelled as their kinds ask. -/
theorem exists_spelled (source : Text) :
    ∃ us loc, (tokenize source).tokens = us ++ [.endOfInput loc] ∧ ∀ t ∈ us, t.Spelled := by
  obtain ⟨us, hlast⟩ := readAll_last source .start
  obtain ⟨us', eof, hended, hnone, _⟩ := readAll_ended source .start
  obtain ⟨rfl, _⟩ := List.append_inj' (hlast.symm.trans hended) rfl
  refine ⟨us, _, hlast, ?_⟩
  intro t ht
  have hmem : t ∈ (tokenize source).tokens := hlast ▸ List.mem_append_left _ ht
  refine (spelled_tokenize source t hmem).resolve_left ?_
  rw [hnone t ht]
  exact Bool.false_ne_true

/-- **White space makes no difference.** However the lexemes of a source are spaced, with a gap in front
of the first, nothing is wrong with the text and its tokens have the kinds, lexemes and values of those
of the source, also where they are joined by single spaces. -/
theorem tokenize_spaced (source : Text) :
    let lexemes := (tokenize source).tokens.dropLast.map Token.lexeme
    (∀ front s, Gap front → Spaced lexemes s → SameTokens source (front ++ s)) ∧
      SameTokens source (Text.joined (utf8 " ") lexemes) := by
  intro lexemes
  have hspaced : ∀ front s, Gap front → Spaced lexemes s → SameTokens source (front ++ s) := by
    intro front s hfront hs
    obtain ⟨us, loc, htokens, hspelled⟩ := exists_spelled source
    have hlexemes : lexemes = us.map Token.lexeme := by
      show (tokenize source).tokens.dropLast.map _ = _
      rw [htokens, List.dropLast_concat]
    obtain ⟨loc', hpassed⟩ := hfront.scans s .start
    obtain ⟨vs, loc'', hscan, hcontent⟩ := Spaced.scans hspelled (hlexemes ▸ hs) loc'
    have hall := (hpassed.trans hscan).tokenize_eq
    refine ⟨by rw [hall], ?_⟩
    rw [hall, htokens, List.nil_append, List.map_append, List.map_append, hcontent]
    rfl
  exact ⟨hspaced, hspaced [] _ .empty (spaced_joined lexemes)⟩

/-- A comment in front, another one before a division sign, and nothing behind a string that looks like
a comment. -/
theorem tokenize_spaced_comments :
    Gap (utf8 "//\n") ∧
      Spaced ((tokenize (utf8 "1.5/\"//\"")).tokens.dropLast.map Token.lexeme)
        (utf8 "1.5 // half\n/\t\"//\"") ∧
      SameTokens (utf8 "1.5/\"//\"") (utf8 "//\n" ++ utf8 "1.5 // half\n/\t\"//\"") := by
  have hlexemes : (tokenize (utf8 "1.5/\"//\"")).tokens.dropLast.map Token.lexeme =
      [utf8 "1.5", utf8 "/", utf8 "\"//\""] := by decide +kernel
  have hfront : Gap (utf8 "//\n") := @Gap.comment [] [] List.not_mem_nil .empty
  have hcomment : Gap (utf8 " // half\n") :=
    @Gap.blank (ascii ' ') _ rfl (@Gap.comment (utf8 " half") [] (by decide) .empty)
  have htab : Gap (utf8 "\t") := @Gap.blank (ascii '\t') [] rfl .empty
  have hspaced : Spaced [utf8 "1.5", utf8 "/", utf8 "\"//\""]
      (utf8 "1.5" ++ (utf8 " // half\n" ++ (utf8 "/" ++ (utf8 "\t" ++ (utf8 "\"//\"" ++ ([] ++ [])))))) :=
    .cons hcomment (.inl rfl) (.cons htab (.inl rfl) (.cons .empty (.inr ⟨rfl, rfl⟩) .nil))
  have htext : utf8 "1.5" ++ (utf8 " // half\n" ++ (utf8 "/" ++ (utf8 "\t" ++ (utf8 "\"//\"" ++
      ([] ++ []))))) = utf8 "1.5 // half\n/\t\"//\"" := by decide +kernel
  rw [htext, ← hlexemes] at hspaced
  exact ⟨hfront, hspaced, (tokenize_spaced (utf8 "1.5/\"//\"")).1 _ _ hfront hspaced⟩

end Lox
