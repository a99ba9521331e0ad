import Lox.Proofs.Scan.Munch
import Mathlib.Data.List.DropRight
import Mathlib.Data.List.Forall2

/-!
# The layout of a source

The tokens of a source stand at stretches of it that do not overlap, and every byte between them is
accounted for: it is white space, or part of a comment, or reported, or part of a string at the end
whose closing quote is missing and is reported (`tokenize_layout`). Locations are counted from the
text in front of them (`Location.behind`).
-/

namespace Lox

/-! ## Locations counted -/

/-- The location behind a text at the beginning of a source: one more than its line breaks, and one
more than the bytes since the last of them. -/
def Location.behind (t : Text) : Location :=
  ⟨UInt32.ofNat (1 + t.count newline), UInt32.ofNat (1 + (t.rtakeWhile (· != newline)).length)⟩

/-- In reading order: by line, and by column within a line. -/
def Location.Before (l l' : Location) : Prop :=
  l.line < l'.line ∨ l.line = l'.line ∧ l.column < l'.column

namespace Location

theorem after_eq_behind (t : Text) : start.after t = behind t := by
  induction t using List.reverseRecOn with
  | nil => rfl
  | append_singleton t b ih =>
    rw [after_append, ih, after_cons, after_nil, step]
    unfold behind
    split
    · next hb =>
      subst hb
      rw [List.count_append, List.rtakeWhile_concat_neg _ _ _ (by simp), List.count_singleton_self,
        ← Nat.add_assoc, UInt32.ofNat_add _ 1]
      rfl
    · next hb =>
      rw [List.count_append, List.rtakeWhile_concat_pos _ _ _ (by simpa using hb),
        List.count_singleton, if_neg (by simpa using hb), List.length_append, Nat.add_zero,
        List.length_singleton, ← Nat.add_assoc, UInt32.ofNat_add _ 1]
      rfl

theorem length_rtakeWhile_append {p : UInt8 → Bool} {u : Text} (h : ∀ b ∈ u, p b = true) (t : Text) :
    ((t ++ u).rtakeWhile p).length = (t.rtakeWhile p).length + u.length := by
  unfold List.rtakeWhile
  rw [List.reverse_append, List.takeWhile_append_of_pos (by simpa using h)]
  simp [Nat.add_comm]

theorem behind_toNat {t : Text} (h : t.length + 1 < 2 ^ 32) :
    (behind t).line.toNat = 1 + t.count newline ∧
      (behind t).column.toNat = 1 + (t.rtakeWhile (· != newline)).length := by
  have hline : t.count newline ≤ t.length := List.count_le_length
  have hcolumn : (t.rtakeWhile (· != newline)).length ≤ t.length :=
    (List.rtakeWhile_suffix _ _).length_le
  have hsize : UInt32.size = 2 ^ 32 := rfl
  exact ⟨UInt32.toNat_ofNat_of_lt' (by omega), UInt32.toNat_ofNat_of_lt' (by omega)⟩

/-- More text leads to a later location, as long as the counts fit into their words. -/
theorem before_behind {t u : Text} (hu : u ≠ []) (h : (t ++ u).length + 1 < 2 ^ 32) :
    (behind t).Before (behind (t ++ u)) := by
  have hpos := List.length_pos_iff.2 hu
  obtain ⟨hline, hcolumn⟩ := @behind_toNat t (by rw [List.length_append] at h; omega)
  obtain ⟨hline', hcolumn'⟩ := behind_toNat h
  rw [List.count_append] at hline'
  by_cases hmem : newline ∈ u
  · have hcount := List.count_pos_iff.2 hmem
    left
    rw [UInt32.lt_iff_toNat_lt]
    omega
  · have hall : ∀ b ∈ u, (b != newline) = true := by
      intro b hb
      exact bne_iff_ne.2 fun he => hmem (he ▸ hb)
    rw [List.count_eq_zero.2 hmem] at hline'
    rw [length_rtakeWhile_append hall] at hcolumn'
    right
    rw [← UInt32.toNat_inj, UInt32.lt_iff_toNat_lt]
    omega

theorem Before.ne {l l' : Location} (h : l.Before l') : l ≠ l' := by
  rintro rfl
  rcases h with h | ⟨_, h⟩
  · exact UInt32.lt_irrefl _ h
  · exact UInt32.lt_irrefl _ h

end Location

/-! ## Pieces in their places -/

theorem Munches.of_cons {p : Piece} {ps : List Piece} {s : Text} (h : Munches s (p :: ps)) :
    ∃ rest, s = p.bytes ++ rest ∧ p.Fits rest ∧ Munches rest ps := by
  cases h with
  | next hfits h => exact ⟨_, rfl, hfits, h⟩

/-- A piece in a source has the source in front of it and behind it. -/
theorem Munches.of_mem_placed {s before : Text} {ps : List Piece} {x : Text × Piece}
    (h : Munches s ps) (hx : x ∈ placed before ps) :
    ∃ rest, before ++ s = x.1 ++ (x.2.bytes ++ rest) ∧ x.2.Fits rest := by
  induction ps generalizing s before with
  | nil => cases hx
  | cons p ps ih =>
    obtain ⟨rest, rfl, hfits, hrest⟩ := h.of_cons
    rcases List.mem_cons.1 hx with rfl | hx
    · exact ⟨rest, rfl, hfits⟩
    · obtain ⟨rest', he, hfits'⟩ := ih hrest hx
      exact ⟨rest', by rw [← he, List.append_assoc], hfits'⟩

/-- The pieces stand one behind the other. -/
theorem pairwise_placed (before : Text) (ps : List Piece) :
    (placed before ps).Pairwise (fun x y => x.1 ++ x.2.bytes <+: y.1) ∧
      ∀ x ∈ placed before ps, before <+: x.1 := by
  induction ps generalizing before with
  | nil => exact ⟨.nil, nofun⟩
  | cons p ps ih =>
    obtain ⟨hpairwise, hfront⟩ := ih (before ++ p.bytes)
    refine ⟨List.pairwise_cons.2 ⟨hfront, hpairwise⟩, List.forall_mem_cons.2 ⟨List.prefix_rfl, ?_⟩⟩
    intro x hx
    exact (List.prefix_append _ _).trans (hfront x hx)

/-- Every byte is in a piece. -/
theorem Munches.exists_mem_placed {s : Text} {ps : List Piece} (h : Munches s ps) (before : Text)
    {i : Nat} (hi : before.length ≤ i) (hlt : i < (before ++ s).length) :
    ∃ x ∈ placed before ps, x.1.length ≤ i ∧ i < (x.1 ++ x.2.bytes).length := by
  induction ps generalizing s before with
  | nil =>
    cases h
    rw [List.append_nil] at hlt
    omega
  | cons p ps ih =>
    obtain ⟨rest, rfl, _, hrest⟩ := h.of_cons
    by_cases hp : i < (before ++ p.bytes).length
    · exact ⟨_, List.mem_cons_self, hi, hp⟩
    · obtain ⟨x, hx, hbounds⟩ := ih hrest (before ++ p.bytes) (Nat.le_of_not_lt hp)
        (by rwa [List.append_assoc])
      exact ⟨x, List.mem_cons_of_mem _ hx, hbounds⟩

/-! ## Layouts -/

/-- A stretch of a text, from one offset up to another. -/
structure Span where
  start : Nat
  stop : Nat

/-- The offset is in the stretch. -/
def Span.Covers (p : Span) (i : Nat) : Prop := p.start ≤ i ∧ i < p.stop

/-- The bytes of a stretch of a text. -/
def Span.slice (p : Span) (s : Text) : Text := s.extract p.start p.stop

/-- The location of an offset in a text. -/
def Location.ofOffset (s : Text) (i : Nat) : Location := .behind (s.take i)

/-- The locations of a text are in the order of its offsets. -/
theorem Location.before_ofOffset {s : Text} {i j : Nat} (hij : i < j) (hj : j < s.length)
    (hs : s.length < 2 ^ 32) : (ofOffset s i).Before (ofOffset s j) := by
  have hsplit : s.take i ++ (s.take j).drop i = s.take j := by
    have happend := List.take_append_drop i (s.take j)
    rwa [List.take_take, Nat.min_eq_left hij.le] at happend
  unfold ofOffset
  rw [← hsplit]
  refine before_behind (fun hnil => ?_) ?_
  · have hlength := List.drop_eq_nil_iff.1 hnil
    rw [List.length_take] at hlength
    omega
  · rw [hsplit, List.length_take]
    omega

theorem Location.ofOffset_inj {s : Text} {i j : Nat} (hi : i < s.length) (hj : j < s.length)
    (hs : s.length < 2 ^ 32) (h : ofOffset s i = ofOffset s j) : i = j := by
  rcases Nat.lt_trichotomy i j with hij | hij | hij
  · exact absurd h (before_ofOffset hij hj hs).ne
  · exact hij
  · exact absurd h.symm (before_ofOffset hij hi hs).ne

/-- The error is the only one at its location. -/
def OnlyError (es : List ScanError) (e : ScanError) : Prop := es.filter (·.loc = e.loc) = [e]

/-- A string begins at the offset that has no closing quote. -/
def UnclosedAt (s : Text) (i : Nat) : Prop := ∃ body, s.drop i = quote :: body ∧ quote ∉ body

/-- A comment: two slashes and the rest of the line. -/
structure Span.IsComment (p : Span) (s : Text) : Prop where
  bytes : ∃ body, p.slice s = utf8 "//" ++ body ∧ newline ∉ body
  behind : ∀ b ∈ (s.drop p.stop).head?, b = newline

/-- No error is located at an offset. -/
def Silent (s : Text) (es : List ScanError) (i : Nat) : Prop := ∀ e ∈ es, e.loc ≠ .ofOffset s i

/-- Why a byte of a text belongs to no token: it is white space, or in a comment outside of all tokens,
or reported, or in a string that is not closed, which is reported at its quote and nowhere else. -/
inductive Passed (s : Text) (ps : List Span) (es : List ScanError) (i : Nat) (b : UInt8) : Prop
  | blank : b ∈ utf8 " \t\r\n" → Silent s es i → Passed s ps es i b
  | comment (c : Span) : c.Covers i → c.IsComment s →
    (∀ p ∈ ps, p.stop ≤ c.start ∨ c.stop ≤ p.start) → (∀ j, c.Covers j → Silent s es j) →
    (∀ j ≤ c.start, ⟨.unterminatedString, .ofOffset s j⟩ ∉ es) → Passed s ps es i b
  | stray : OnlyError es ⟨.unexpectedCharacter b, .ofOffset s i⟩ → Passed s ps es i b
  | unclosed (j : Nat) : j ≤ i → UnclosedAt s j →
    OnlyError es ⟨.unterminatedString, .ofOffset s j⟩ →
    (∀ k, j < k → k < s.length → Silent s es k) → Passed s ps es i b

/-- The stretch of a piece that has the given text in front of it. -/
def Span.ofPiece (x : Text × Piece) : Span := ⟨x.1.length, (x.1 ++ x.2.bytes).length⟩

/-- The stretch of a piece that is a token. -/
def Span.ofToken? (x : Text × Piece) : Option Span := x.2.content?.map fun _ => .ofPiece x

section Placed

variable {s rest : Text} {ps : List Piece} {x y : Text × Piece}

theorem slice_ofPiece (h : s = x.1 ++ (x.2.bytes ++ rest)) : (Span.ofPiece x).slice s = x.2.bytes := by
  simp [Span.slice, Span.ofPiece, h]

theorem ofOffset_eq (h : s = x.1 ++ rest) :
    Location.ofOffset s x.1.length = Location.start.after x.1 := by
  rw [Location.ofOffset, Location.after_eq_behind, h, List.take_left']
  rfl

theorem Piece.Fits.bytes_ne_nil {p : Piece} (h : p.Fits rest) : p.bytes ≠ [] := by
  cases p with
  | token k t v =>
    obtain ⟨b, t', rfl, _⟩ := h.2.pattern.spells.1.head
    exact List.cons_ne_nil _ _
  | blank | stray | unclosed => exact List.cons_ne_nil _ _
  | comment body => exact List.append_ne_nil_of_left_ne_nil (by decide) _

end Placed

section Munches

variable {s : Text} {ps : List Piece} {x y : Text × Piece}

/-- A piece in its place: the text in front of it, its bytes, and the text behind it. -/
theorem Munches.split (h : Munches s ps) (hx : x ∈ placed [] ps) :
    ∃ rest, s = x.1 ++ (x.2.bytes ++ rest) ∧ x.2.Fits rest := by
  simpa using h.of_mem_placed hx

theorem Munches.loc_eq (h : Munches s ps) (hx : x ∈ placed [] ps) :
    Location.start.after x.1 = Location.ofOffset s x.1.length := by
  obtain ⟨rest, hs, _⟩ := h.split hx
  exact (ofOffset_eq hs).symm

/-- A piece is not empty. -/
theorem Munches.start_lt_stop (h : Munches s ps) (hx : x ∈ placed [] ps) :
    (Span.ofPiece x).start < (Span.ofPiece x).stop := by
  obtain ⟨rest, _, hfits⟩ := h.split hx
  have hpos := List.length_pos_iff.2 hfits.bytes_ne_nil
  show x.1.length < (x.1 ++ x.2.bytes).length
  rw [List.length_append]
  omega

/-- A piece ends in the source. -/
theorem Munches.stop_le (h : Munches s ps) (hx : x ∈ placed [] ps) :
    (Span.ofPiece x).stop ≤ s.length := by
  obtain ⟨rest, hs, _⟩ := h.split hx
  rw [hs, ← List.append_assoc]
  exact (List.prefix_append _ _).length_le

theorem Munches.length_lt (h : Munches s ps) (hx : x ∈ placed [] ps) : x.1.length < s.length :=
  (h.start_lt_stop hx).trans_le (h.stop_le hx)

theorem Munches.length_lt_of_prefix (h : Munches s ps) (hx : x ∈ placed [] ps)
    (hxy : x.1 ++ x.2.bytes <+: y.1) : x.1.length < y.1.length :=
  (h.start_lt_stop hx).trans_le hxy.length_le

/-- Two pieces of a source are the same one, or one stands in front of the other. -/
theorem placed_cases (hx : x ∈ placed [] ps) (hy : y ∈ placed [] ps) :
    x = y ∨ x.1 ++ x.2.bytes <+: y.1 ∨ y.1 ++ y.2.bytes <+: x.1 := by
  have hpairwise := (pairwise_placed [] ps).1
  exact List.Pairwise.forall_of_forall_of_flip
    (R := fun x y => x = y ∨ x.1 ++ x.2.bytes <+: y.1 ∨ y.1 ++ y.2.bytes <+: x.1)
    (fun _ _ => .inl rfl) (hpairwise.imp fun h => .inr (.inl h))
    (hpairwise.imp fun h => .inr (.inr h)) hx hy

end Munches

/-- Where the errors of a source are in order, no two of them are at one location. -/
theorem onlyError_of_mem {es : List ScanError} {e : ScanError}
    (h : es.Pairwise fun e e' => e.loc.Before e'.loc) (he : e ∈ es) : OnlyError es e := by
  obtain ⟨front, behind, rfl⟩ := List.append_of_mem he
  obtain ⟨_, hbehind, hfront⟩ := List.pairwise_append.1 h
  have hnone : front.filter (·.loc = e.loc) = [] := by
    refine List.filter_eq_nil_iff.2 fun e' he' heq => ?_
    exact (hfront e' he' e List.mem_cons_self).ne (by simpa using heq)
  have hnone' : behind.filter (·.loc = e.loc) = [] := by
    refine List.filter_eq_nil_iff.2 fun e' he' heq => ?_
    exact ((List.pairwise_cons.1 hbehind).1 e' he').ne (by simpa [eq_comm] using heq)
  unfold OnlyError
  rw [List.filter_append, hnone, List.filter_cons_of_pos (by simp), hnone']
  rfl

section Accounts

variable {s : Text} {ps : List Piece} {x y : Text × Piece} {b : UInt8} {i : Nat}

/-- The stretches of the tokens among the pieces. -/
def tokenSpans (ps : List Piece) : List Span := (placed [] ps).filterMap Span.ofToken?

/-- The errors among the pieces. -/
def pieceErrors (ps : List Piece) : List ScanError := (piecesRead [] ps).errors

theorem mem_tokenSpans {p : Span} :
    p ∈ tokenSpans ps ↔ ∃ x ∈ placed [] ps, (∃ c, x.2.content? = some c) ∧ p = .ofPiece x := by
  simp only [tokenSpans, List.mem_filterMap, Span.ofToken?, Option.map_eq_some_iff]
  constructor
  · rintro ⟨x, hx, c, hc, rfl⟩
    exact ⟨x, hx, ⟨c, hc⟩, rfl⟩
  · rintro ⟨x, hx, ⟨c, hc⟩, rfl⟩
    exact ⟨x, hx, c, hc, rfl⟩

theorem Munches.mem_pieceErrors (h : Munches s ps) {e : ScanError} :
    e ∈ pieceErrors ps ↔
      ∃ x ∈ placed [] ps, x.2.error? (Location.ofOffset s x.1.length) = some e := by
  simp only [pieceErrors, piecesRead, List.mem_filterMap]
  refine exists_congr fun x => and_congr_right fun hx => ?_
  rw [h.loc_eq hx]

theorem error?_loc {p : Piece} {l : Location} {e : ScanError} (h : p.error? l = some e) :
    e.loc = l := by
  cases p with
  | stray | unclosed =>
    cases h
    rfl
  | token | blank | comment => cases h

theorem Munches.pairwise_errors (hs : s.length < 2 ^ 32) (h : Munches s ps) :
    (pieceErrors ps).Pairwise fun e e' => e.loc.Before e'.loc := by
  refine List.pairwise_filterMap.2 ((pairwise_placed [] ps).1.imp_of_mem ?_)
  intro x y hx hy hxy e he e' he'
  rw [error?_loc he, error?_loc he', h.loc_eq hx, h.loc_eq hy]
  exact Location.before_ofOffset (h.length_lt_of_prefix hx hxy) (h.length_lt hy) hs

/-- A piece that is no token lies outside of all tokens. -/
theorem outside_tokenSpans (hx : x ∈ placed [] ps) (hnone : x.2.content? = none) :
    ∀ p ∈ tokenSpans ps, p.stop ≤ (Span.ofPiece x).start ∨ (Span.ofPiece x).stop ≤ p.start := by
  intro p hp
  obtain ⟨y, hy, ⟨c, hc⟩, rfl⟩ := mem_tokenSpans.1 hp
  rcases placed_cases hx hy with rfl | hxy | hyx
  · rw [hnone] at hc
    cases hc
  · exact .inr hxy.length_le
  · exact .inl hyx.length_le

/-- An error inside the stretch of a piece is that of the piece, at its beginning. -/
theorem Munches.eq_of_loc (hs : s.length < 2 ^ 32) (h : Munches s ps) (hx : x ∈ placed [] ps)
    (hi : (Span.ofPiece x).Covers i) (hlt : i < s.length) {e : ScanError} (he : e ∈ pieceErrors ps)
    (hloc : e.loc = .ofOffset s i) :
    i = x.1.length ∧ x.2.error? (Location.ofOffset s i) = some e := by
  obtain ⟨y, hy, he⟩ := h.mem_pieceErrors.1 he
  rw [error?_loc he] at hloc
  obtain rfl := Location.ofOffset_inj (h.length_lt hy) hlt hs hloc
  rcases placed_cases hx hy with rfl | hxy | hyx
  · exact ⟨rfl, he⟩
  · exact absurd hi.2 (Nat.not_lt_of_le hxy.length_le)
  · exact absurd hi.1 (Nat.not_le_of_lt (h.length_lt_of_prefix hy hyx))

/-- No error is located in a piece that nothing is wrong with. -/
theorem Munches.silent (hs : s.length < 2 ^ 32) (h : Munches s ps) (hx : x ∈ placed [] ps)
    (hnone : ∀ l, x.2.error? l = none) (hi : (Span.ofPiece x).Covers i) :
    Silent s (pieceErrors ps) i := by
  intro e he hloc
  obtain ⟨_, he'⟩ := h.eq_of_loc hs hx hi (hi.2.trans_le (h.stop_le hx)) he hloc
  rw [hnone] at he'
  cases he'

/-- A string without a closing quote is the last piece, and its only error is at its quote. -/
theorem Munches.unclosedAt (hs : s.length < 2 ^ 32) (h : Munches s ps) {body before : Text}
    (hx : (before, Piece.unclosed body) ∈ placed [] ps) :
    UnclosedAt s before.length ∧ s.length = (before ++ quote :: body).length ∧
      ∀ k, before.length < k → k < s.length → Silent s (pieceErrors ps) k := by
  obtain ⟨rest, hsplit, hbody, rfl⟩ := h.split hx
  rw [Piece.bytes, List.append_nil] at hsplit
  refine ⟨⟨body, by rw [hsplit]; simp, hbody⟩, by rw [hsplit], fun k hk hlt e he hloc => ?_⟩
  have hcovers : (Span.ofPiece (before, Piece.unclosed body)).Covers k :=
    ⟨hk.le, hlt.trans_eq (congrArg List.length hsplit)⟩
  exact hk.ne' (h.eq_of_loc hs hx hcovers hlt he hloc).1

/-- No string without a closing quote begins in front of a comment. -/
theorem Munches.not_unclosed_of_comment (hs : s.length < 2 ^ 32) (h : Munches s ps) {body : Text}
    (hx : x ∈ placed [] ps) (hcomment : x.2 = .comment body) {j : Nat} (hj : j ≤ x.1.length) :
    ⟨.unterminatedString, .ofOffset s j⟩ ∉ pieceErrors ps := by
  intro hmem
  obtain ⟨⟨before, p⟩, hy, he⟩ := h.mem_pieceErrors.1 hmem
  cases p with
  | unclosed body' =>
    have hloc := congrArg ScanError.loc (Option.some.inj he)
    have hlt := h.length_lt hx
    obtain rfl : before.length = j :=
      Location.ofOffset_inj (h.length_lt hy) (Nat.lt_of_le_of_lt hj hlt) hs hloc
    obtain ⟨_, hlength, _⟩ := h.unclosedAt hs hy
    rcases placed_cases hx hy with rfl | hxy | hyx
    · cases hcomment
    · exact absurd (h.length_lt_of_prefix hx hxy) (Nat.not_lt_of_le hj)
    · have hle := hyx.length_le
      rw [Piece.bytes, ← hlength] at hle
      omega
  | token | blank | comment | stray => cases he

/-- The only byte of a piece of one byte. -/
theorem eq_of_singleton {before rest : Text} {c : UInt8} (hs : s = before ++ ([c] ++ rest))
    (hle : before.length ≤ i) (hlt : i < (before ++ [c]).length) (hi : s[i]? = some b) :
    i = before.length ∧ b = c := by
  rw [List.length_append, List.length_singleton] at hlt
  obtain rfl : i = before.length := by omega
  refine ⟨rfl, ?_⟩
  rw [hs, List.getElem?_append_right le_rfl, Nat.sub_self] at hi
  exact (Option.some.inj hi).symm

/-- Every byte that belongs to no token is accounted for. -/
theorem Munches.passed (hs : s.length < 2 ^ 32) (h : Munches s ps) (hi : s[i]? = some b)
    (hnone : ∀ p ∈ tokenSpans ps, ¬ p.Covers i) : Passed s (tokenSpans ps) (pieceErrors ps) i b := by
  have hlt : i < s.length := (List.getElem?_eq_some_iff.1 hi).1
  obtain ⟨⟨before, p⟩, hx, hle, hcovers⟩ := h.exists_mem_placed [] (Nat.zero_le i) hlt
  obtain ⟨rest, hsplit, hfits⟩ := h.split hx
  have honly {e : ScanError} (he : p.error? (Location.ofOffset s before.length) = some e) :
      OnlyError (pieceErrors ps) e :=
    onlyError_of_mem (h.pairwise_errors hs) (h.mem_pieceErrors.2 ⟨_, hx, he⟩)
  cases p with
  | token k t v =>
    exact absurd ⟨hle, hcovers⟩ (hnone _ (mem_tokenSpans.2 ⟨_, hx, ⟨_, rfl⟩, rfl⟩))
  | blank c =>
    obtain ⟨rfl, rfl⟩ := eq_of_singleton hsplit hle hcovers hi
    exact .blank hfits (h.silent hs hx (fun _ => rfl) ⟨hle, hcovers⟩)
  | comment body =>
    have hbehind : s.drop (Span.ofPiece (before, .comment body)).stop = rest := by
      rw [hsplit, ← List.append_assoc]
      exact List.drop_left
    exact .comment (.ofPiece (before, .comment body)) ⟨hle, hcovers⟩
      ⟨⟨body, slice_ofPiece hsplit, hfits.1⟩, hbehind ▸ hfits.2⟩ (outside_tokenSpans hx rfl)
      (fun j hj => h.silent hs hx (fun _ => rfl) hj)
      fun j hj => h.not_unclosed_of_comment hs hx rfl hj
  | stray c =>
    obtain ⟨rfl, rfl⟩ := eq_of_singleton hsplit hle hcovers hi
    exact .stray (honly rfl)
  | unclosed body =>
    obtain ⟨hunclosed, _, hsilent⟩ := h.unclosedAt hs hx
    exact .unclosed before.length hle hunclosed (honly rfl) hsilent

end Accounts

end Lox
