import Lox.Proofs.Printing.Statement

/-!
# The tokens of a text are those of the source, kind by kind

The text of an expression has the tokens that the expression was parsed from, kind by kind
(`Expr.Derivation.reads_kinds`), for it is written without parentheses or anything else that was not
there. So has the text of a statement, but for loops with `for`, which are written out: as a loop with
`while`, in a block if it has a first clause, and around a block if it has a third one
(`Stmt.Derivation.writtenOut`).
-/

namespace Lox

variable {mode : Mode} {ts us : List Token} {level : Level} {o : Bool} {position : Position} {s : Stmt}

/-! ## Expressions -/

/-- The kind of token that a literal is written as. -/
def Value.literalKind : Value → TokenKind
  | .bool false => .kwFalse
  | .bool true => .kwTrue
  | .number _ => .number
  | .string _ => .string
  | _ => .kwNil

theorem Token.kind_eq_literalKind {t : Token} {v : Value} (h : t.value? = some v) :
    t.kind = v.literalKind := by
  unfold Token.value? at h
  split at h <;> cases h <;> assumption

theorem Value.literalKind_mapNumber (f : Number → Number) (v : Value) :
    (v.mapNumber f).literalKind = v.literalKind := by
  cases v <;> rfl

theorem Expr.reads_kinds_literal {t : Token} {v : Value} (hv : t.value? = some v) (ht : t.Spelled) :
    ReadsAs v.literalText Delimits (Kinds [t.kind]) := by
  obtain ⟨k, _, hs, hvalue⟩ := spells_literalText hv ht
  have hk : k = t.kind := by
    have hread := hvalue ⟨k, v.literalText, Lexeme.constant? k v.literalText, .nowhere⟩ rfl rfl
    have hkind : k = _ := Token.kind_eq_literalKind hread
    rw [hkind, Value.literalKind_mapNumber, Token.kind_eq_literalKind hv]
  rw [← hk]
  exact (reads_kind hs).mono (fun _ hd => hd.follows k) fun _ hus => hus

theorem Token.Spelled.reads_kind {t : Token} (h : t.Spelled) :
    ReadsAs t.lexeme Delimits (Kinds [t.kind]) :=
  (Lox.reads_kind h.1).mono (fun _ hd => hd.follows t.kind) fun _ hus => hus

/-- Lists with commas have the same kinds if their phrases do. -/
theorem CommaSeparated.kinds {phrases phrases' : List (List Token)} (h : CommaSeparated phrases us)
    (h' : CommaSeparated phrases' ts)
    (hkinds : List.Forall₂ (fun p p' => Kinds (p'.map Token.kind) p) phrases phrases') :
    Kinds (ts.map Token.kind) us := by
  induction h generalizing phrases' ts with
  | none =>
    cases hkinds
    cases h'
    rfl
  | one us =>
    cases hkinds with
    | cons hp hrest =>
      cases hrest
      cases h'
      exact hp
  | cons hc _ ih =>
    cases hkinds with
    | cons hp hrest =>
      cases hrest with
      | cons hq hrest =>
        cases h' with
        | cons hc' hts =>
          have := ih hts (.cons hq hrest)
          simp only [Kinds, List.map_append, List.map_cons] at hp this ⊢
          rw [hp, this, hc, hc']

/-- The phrases of a list with commas, read one by one. -/
theorem reads_kinds_joined {α : Type} {text : α → Text} {parts : List (List Token × α)}
    (h : ∀ a ∈ parts, ReadsAs (text a.2) Delimits (Kinds (a.1.map Token.kind)))
    (hs : CommaSeparated (parts.map Prod.fst) ts) :
    ReadsAs (Text.joined (utf8 ", ") (parts.map fun a => text a.2)) Delimits
      (Kinds (ts.map Token.kind)) := by
  refine (reads_joined h).mono (fun _ hd => hd) ?_
  rintro us ⟨phrases, hphrases, hus⟩
  refine hus.kinds hs ?_
  rw [List.forall₂_map_right_iff]
  exact hphrases.flip

/-- **The text of an expression has the tokens of the expression**, kind by kind. -/
theorem Expr.Derivation.reads_kinds {e : Expr} (h : Expr.Derivation mode level ts e)
    (hs : ∀ t ∈ ts, t.Spelled) : ReadsAs e.text Delimits (Kinds (ts.map Token.kind)) := by
  induction h with
  | literal hv => exact reads_kinds_literal hv (hs _ List.mem_cons_self)
  | name => exact (hs _ List.mem_cons_self).reads_kind
  | @grouping l r ts e hl _ hr ih =>
    have hin := ih fun t ht => hs t (by simp [ht])
    refine ((reads_leftParen.then hin).kinds.delimited reads_rightParen rfl).kinds.mono
      (fun _ _ => trivial) fun us hus => ?_
    simpa [hl, hr] using hus
  | @call l r fs ts f args _ hl _ _ hcomma hr ihf ihargs =>
    have hf := ihf fun t ht => hs t (by simp [ht])
    have hargs := reads_kinds_joined (fun a ha => ihargs a ha fun t ht => hs t (by
      have := hcomma.subset _ (List.mem_map_of_mem ha) ht
      simp [this])) hcomma
    rw [Expr.text, Expr.texts_eq_map, List.map_map]
    refine (((hf.delimited reads_leftParen rfl).kinds.then hargs).kinds.delimited reads_rightParen
      rfl).kinds.mono (fun _ _ => trivial) fun us hus => ?_
    simpa [hl, hr] using hus
  | @unary t ts e hk hd ih =>
    have hts : ∀ t ∈ ts, t.Spelled := fun t ht => hs t (List.mem_cons_of_mem _ ht)
    have hfollows (u : Text) (_ : Delimits u) : t.kind.Follows (e.text ++ u) := by
      rcases hk with hk | hk <;> rw [hk]
      · exact (hd.rereads hts).head u
      · exact fun _ _ => rfl
    exact ((Lox.reads_kind (hs t List.mem_cons_self).1).append (ih hts) hfollows).kinds
  | @joined level tighter t ts us l r _ _ _ _ ihl ihr =>
    have ht := (hs t (by simp)).reads_kind
    rw [Level.text_node]
    refine ((((((ihl fun t ht => hs t (by simp [ht])).delimited reads_space rfl).kinds.then
      ht).kinds.delimited reads_space rfl).kinds.then
      (ihr fun t ht => hs t (by simp [ht]))).kinds).mono (fun _ hd => hd) fun us hus => ?_
    simpa using hus
  | @assignment t eq ts e _ heq _ ih =>
    have ht := (hs t List.mem_cons_self).reads_kind
    refine ((ht.delimited reads_equal rfl).kinds.then
      (ih fun t ht => hs t (by simp [ht]))).kinds.mono (fun _ hd => hd) fun us hus => ?_
    simpa [heq] using hus
  | tighter _ _ ih => exact ih hs

/-! ## Statements -/

/-- Tokens that form a statement without any loop with `for`, and that its text has, kind by kind. If
there was no such loop they are those that it was parsed from. -/
structure Stmt.WrittenOut (mode : Mode) (position : Position) (ts : List Token) (s : Stmt)
    (us : List Token) : Prop where
  derivation : Stmt.Derivation mode position us s
  spelled : ∀ t ∈ us, t.Spelled
  reads : ∀ depth, ReadsAs (s.textAt depth) Anything (Kinds (us.map Token.kind))
  same : (∀ t ∈ ts, t.kind ≠ .kwFor) → us = ts

/-- A row of statements, one below the other. -/
structure Stmt.RowWrittenOut (mode : Mode) (body : List (List Token × Stmt))
    (row : List (List Token × Stmt)) : Prop where
  statements : row.map Prod.snd = body.map Prod.snd
  derivation : ∀ d ∈ row, Stmt.Derivation mode .declaration d.1 d.2
  spelled : ∀ t ∈ row.flatMap Prod.fst, t.Spelled
  reads : ∀ depth, ReadsAs (Stmt.linesAt depth (row.map Prod.snd)) Anything
    (Kinds ((row.flatMap Prod.fst).map Token.kind))
  same : (∀ t ∈ body.flatMap Prod.fst, t.kind ≠ .kwFor) → row = body

namespace Stmt.WrittenOut

theorem declaration (h : WrittenOut mode (.statement o) ts s us) :
    WrittenOut mode .declaration ts s us :=
  ⟨.statement h.derivation, h.spelled, h.reads, h.same⟩

/-- Where there was a loop with `for`, nothing is said of the tokens it was parsed from. -/
theorem of_for {vs : List Token} (h : WrittenOut mode position vs s us) {k : Token}
    (hk : k.kind = .kwFor) : WrittenOut mode position (k :: ts) s us :=
  ⟨h.derivation, h.spelled, h.reads, fun hno => absurd hk (hno k List.mem_cons_self)⟩

/-- Statements without statements inside are written as they are. -/
theorem of_reads (hd : Stmt.Derivation mode position ts s) (hs : ∀ t ∈ ts, t.Spelled)
    (h : ∀ depth, ReadsAs (s.textAt depth) Anything (Kinds (ts.map Token.kind))) :
    WrittenOut mode position ts s ts := ⟨hd, hs, h, fun _ => rfl⟩

end Stmt.WrittenOut

/-! ### Simple statements -/

theorem Stmt.Expression.writtenOut (h : Stmt.Expression mode ts s) (hs : ∀ t ∈ ts, t.Spelled) :
    Stmt.WrittenOut mode (.statement false) ts s ts := by
  refine .of_reads (.expression h) hs fun depth => ?_
  cases h with
  | mk he hsemi =>
    have hreads := he.reads_kinds fun t ht => hs t (List.mem_append_left _ ht)
    refine (hreads.delimited reads_semicolon rfl).kinds.mono (fun _ _ => trivial) fun us hus => ?_
    simpa [hsemi] using hus

theorem Stmt.VarDeclaration.writtenOut (h : Stmt.VarDeclaration mode ts s)
    (hs : ∀ t ∈ ts, t.Spelled) : Stmt.WrittenOut mode .declaration ts s ts := by
  refine .of_reads (.var h) hs fun depth => ?_
  have hvar : ReadsAs (utf8 "var ") Anything (Kinds [.kwVar]) :=
    reads_words [(utf8 "var", .kwVar, utf8 " ")] (by decide +kernel)
  cases h with
  | @plain k t s hk _ hsemi =>
    have hname := (hvar.then (hs t (by simp)).reads_kind).kinds
    refine (hname.delimited reads_semicolon rfl).kinds.mono (fun _ _ => trivial) fun us hus => ?_
    simpa [hk, hsemi] using hus
  | @initialized k t eq s ts e hk _ heq he hsemi =>
    have hname := (hvar.then (hs t (by simp)).reads_kind).kinds
    have hreads := he.reads_kinds fun t ht => hs t (by simp [ht])
    refine (((hname.delimited reads_equal rfl).kinds.then hreads).kinds.delimited reads_semicolon
      rfl).kinds.mono (fun _ _ => trivial) fun us hus => ?_
    simpa [hk, heq, hsemi] using hus

theorem Stmt.writtenOut_print {k semi : Token} {e : Expr} (hk : k.kind = .kwPrint)
    (he : Expr.Derivation mode .assignment ts e) (hsemi : semi.kind = .semicolon)
    (hs : ∀ t ∈ k :: (ts ++ [semi]), t.Spelled) :
    Stmt.WrittenOut mode (.statement false) (k :: (ts ++ [semi])) (.print e k.loc)
      (k :: (ts ++ [semi])) := by
  refine .of_reads (.print hk he hsemi) hs fun depth => ?_
  have hprint : ReadsAs (utf8 "print ") Anything (Kinds [.kwPrint]) :=
    reads_words [(utf8 "print", .kwPrint, utf8 " ")] (by decide +kernel)
  have hreads := he.reads_kinds fun t ht => hs t (by simp [ht])
  refine ((hprint.then hreads).kinds.delimited reads_semicolon rfl).kinds.mono (fun _ _ => trivial)
    fun us hus => ?_
  simpa [hk, hsemi] using hus

theorem Stmt.writtenOut_return {k semi : Token} {e : Option Expr} (hk : k.kind = .kwReturn)
    (he : Expr.Optional mode ts e) (hsemi : semi.kind = .semicolon)
    (hs : ∀ t ∈ k :: (ts ++ [semi]), t.Spelled) :
    Stmt.WrittenOut mode (.statement false) (k :: (ts ++ [semi])) (.returnStmt e k.loc)
      (k :: (ts ++ [semi])) := by
  refine .of_reads (.returnStmt hk he hsemi) hs fun depth => ?_
  cases he with
  | absent =>
    have hreturn : ReadsAs (utf8 "return") Delimits (Kinds [.kwReturn]) :=
      (reads_kind (spells_keyword (by decide))).mono (fun _ hd => hd.follows _) fun _ hus => hus
    refine (hreturn.delimited reads_semicolon rfl).kinds.mono (fun _ _ => trivial) fun us hus => ?_
    simpa [hk, hsemi] using hus
  | present he =>
    have hreturn : ReadsAs (utf8 "return ") Anything (Kinds [.kwReturn]) :=
      reads_words [(utf8 "return", .kwReturn, utf8 " ")] (by decide +kernel)
    have hreads := he.reads_kinds fun t ht => hs t (by simp [ht])
    refine ((hreturn.then hreads).kinds.delimited reads_semicolon rfl).kinds.mono
      (fun _ _ => trivial) fun us hus => ?_
    simpa [hk, hsemi] using hus

/-! ### Statements with statements inside -/

/-- A condition in parentheses behind a reserved word. -/
theorem reads_kinds_condition {opening : Text} {k l r : Token} {e : Expr}
    (hopen : ReadsAs opening Anything (Kinds [k.kind, .leftParen])) (hl : l.kind = .leftParen)
    (he : Expr.Derivation mode .assignment ts e) (hs : ∀ t ∈ ts, t.Spelled)
    (hr : r.kind = .rightParen) : ReadsAs (opening ++ e.text ++ utf8 ") ") Anything
      (Kinds ((k :: l :: (ts ++ [r])).map Token.kind)) := by
  have hclose : ReadsAs (utf8 ") ") Anything (Kinds [.rightParen]) :=
    reads_words [(utf8 ")", .rightParen, utf8 " ")] (by decide +kernel)
  refine ((hopen.then (he.reads_kinds hs)).kinds.delimited hclose rfl).kinds.mono
    (fun _ _ => trivial) fun us hus => ?_
  simpa [hl, hr] using hus

namespace Stmt.WrittenOut

variable {k l m r : Token} {us' vs vs' : List Token} {e : Expr} {s' : Stmt}

theorem ifThen (hk : k.kind = .kwIf) (hl : l.kind = .leftParen)
    (he : Expr.Derivation mode .assignment ts e) (hr : r.kind = .rightParen)
    (hs : ∀ t ∈ k :: l :: (ts ++ [r]), t.Spelled) (h : WrittenOut mode (.statement o) us s us') :
    WrittenOut mode (.statement true) (k :: l :: (ts ++ r :: us)) (.ifThen e s k.loc)
      (k :: l :: (ts ++ r :: us')) where
  derivation := .ifThen hk hl he hr h.derivation
  spelled t ht := by
    have := h.spelled t
    have := hs t
    simp only [List.mem_cons, List.mem_append, List.not_mem_nil, or_false] at ht this
    tauto
  reads depth := by
    have hopen : ReadsAs (utf8 "if (") Anything (Kinds [k.kind, .leftParen]) := hk ▸ reads_if
    refine ((reads_kinds_condition hopen hl he (fun t ht => hs t (by simp [ht])) hr).then
      (h.reads depth)).kinds.mono (fun _ _ => trivial) fun us hus => ?_
    simpa using hus
  same hno := by rw [h.same fun t ht => hno t (by simp [ht])]

theorem ifElse (hk : k.kind = .kwIf) (hl : l.kind = .leftParen)
    (he : Expr.Derivation mode .assignment ts e) (hr : r.kind = .rightParen)
    (hs : ∀ t ∈ k :: l :: (ts ++ [r, m]), t.Spelled)
    (h : WrittenOut mode (.statement false) us s us') (hm : m.kind = .kwElse)
    (h' : WrittenOut mode (.statement o) vs s' vs') :
    WrittenOut mode (.statement o) (k :: l :: (ts ++ r :: (us ++ m :: vs))) (.ifElse e s s' k.loc)
      (k :: l :: (ts ++ r :: (us' ++ m :: vs'))) where
  derivation := .ifElse hk hl he hr h.derivation hm h'.derivation
  spelled t ht := by
    have := h.spelled t
    have := h'.spelled t
    have := hs t
    simp only [List.mem_cons, List.mem_append, List.not_mem_nil, or_false] at ht this
    tauto
  reads depth := by
    have hopen : ReadsAs (utf8 "if (") Anything (Kinds [k.kind, .leftParen]) := hk ▸ reads_if
    have helse : ReadsAs (utf8 " else ") Anything (Kinds [.kwElse]) :=
      (reads_space.then (reads_words [(utf8 "else", .kwElse, utf8 " ")] (by decide +kernel))).kinds
    have hcondition := reads_kinds_condition hopen hl he (fun t ht => hs t (by simp [ht])) hr
    refine ((((hcondition.then (h.reads depth)).kinds.then helse).kinds.then
      (h'.reads depth)).kinds).mono (fun _ _ => trivial) fun us hus => ?_
    simpa [hm] using hus
  same hno := by
    rw [h.same fun t ht => hno t (by simp [ht]), h'.same fun t ht => hno t (by simp [ht])]

theorem whileLoop (hk : k.kind = .kwWhile) (hl : l.kind = .leftParen)
    (he : Expr.Derivation mode .assignment ts e) (hr : r.kind = .rightParen)
    (hs : ∀ t ∈ k :: l :: (ts ++ [r]), t.Spelled) (h : WrittenOut mode (.statement o) us s us') :
    WrittenOut mode (.statement o) (k :: l :: (ts ++ r :: us)) (.whileLoop e s k.loc)
      (k :: l :: (ts ++ r :: us')) where
  derivation := .whileLoop hk hl he hr h.derivation
  spelled t ht := by
    have := h.spelled t
    have := hs t
    simp only [List.mem_cons, List.mem_append, List.not_mem_nil, or_false] at ht this
    tauto
  reads depth := by
    have hopen : ReadsAs (utf8 "while (") Anything (Kinds [k.kind, .leftParen]) :=
      hk ▸ reads_words [(utf8 "while", .kwWhile, utf8 " "), (utf8 "(", .leftParen, [])]
        (by decide +kernel)
    refine ((reads_kinds_condition hopen hl he (fun t ht => hs t (by simp [ht])) hr).then
      (h.reads depth)).kinds.mono (fun _ _ => trivial) fun us hus => ?_
    simpa using hus
  same hno := by rw [h.same fun t ht => hno t (by simp [ht])]

end Stmt.WrittenOut

/-! ### Rows of statements -/

namespace Stmt

variable {body row : List (List Token × Stmt)} {b c : Token}

theorem RowWrittenOut.nil : RowWrittenOut mode [] [] where
  statements := rfl
  derivation := List.forall_mem_nil _
  spelled := List.forall_mem_nil _
  reads _ := reads_blanks (List.forall_mem_nil _)
  same _ := rfl

theorem RowWrittenOut.cons (hs : WrittenOut mode .declaration ts s us)
    (h : RowWrittenOut mode body row) : RowWrittenOut mode ((ts, s) :: body) ((us, s) :: row) where
  statements := by rw [List.map_cons, List.map_cons, h.statements]
  derivation := List.forall_mem_cons.2 ⟨hs.derivation, h.derivation⟩
  spelled t ht := (List.mem_append.1 ht).elim (hs.spelled t) (h.spelled t)
  reads depth := by
    have hnewline : ReadsAs [newline] Anything (Kinds []) :=
      reads_blanks (List.forall_mem_singleton.2 rfl)
    refine ((((reads_indentation depth).then (hs.reads depth)).kinds.then hnewline).kinds.then
      (h.reads depth)).kinds.mono (fun _ _ => trivial) fun us hus => ?_
    simpa using hus
  same hno := by
    rw [hs.same fun t ht => hno t (List.mem_append_left _ ht),
      h.same fun t ht => hno t (List.mem_append_right _ ht)]

theorem exists_rowWrittenOut
    (ih : ∀ d ∈ body, (∀ t ∈ d.1, t.Spelled) → ∃ us, WrittenOut mode .declaration d.1 d.2 us)
    (hs : ∀ t ∈ body.flatMap Prod.fst, t.Spelled) : ∃ row, RowWrittenOut mode body row := by
  induction body with
  | nil => exact ⟨[], .nil⟩
  | cons d body ihb =>
    obtain ⟨hd, hbody⟩ := List.forall_mem_cons.1 ih
    obtain ⟨us, hus⟩ := hd fun t ht => hs t (List.mem_append_left _ ht)
    obtain ⟨row, hrow⟩ := ihb hbody fun t ht => hs t (List.mem_append_right _ ht)
    exact ⟨_, .cons hus hrow⟩

/-- The lines of a block, from the brace that opens it to the one that closes it. -/
theorem RowWrittenOut.reads_body {opening : Text} {ks : List TokenKind}
    (h : RowWrittenOut mode body row) (hopen : ReadsAs opening Anything (Kinds ks))
    (hc : c.kind = .rightBrace) (depth : Nat) :
    ReadsAs (opening ++ linesAt (depth + 1) (body.map Prod.snd) ++ indentation depth ++ utf8 "\x7d")
      Anything (Kinds (ks ++ (row.flatMap Prod.fst ++ [c]).map Token.kind)) := by
  have hclose := reads_symbol (utf8 "\x7d") .rightBrace (by decide) (by decide)
  rw [← h.statements]
  refine ((((hopen.then (h.reads (depth + 1))).kinds.then (reads_indentation depth)).kinds.then
    hclose).kinds).mono (fun _ _ => trivial) fun us hus => ?_
  simpa [hc] using hus

theorem RowWrittenOut.block (h : RowWrittenOut mode body row) (hb : b.kind = .leftBrace)
    (hc : c.kind = .rightBrace) (hbs : b.Spelled) (hcs : c.Spelled) :
    WrittenOut mode (.statement false) (b :: (body.flatMap Prod.fst ++ [c]))
      (.block (body.map Prod.snd) b.loc) (b :: (row.flatMap Prod.fst ++ [c])) where
  derivation := h.statements ▸ .block hb h.derivation hc
  spelled t ht := by
    have := h.spelled t
    simp only [List.mem_cons, List.mem_append, List.not_mem_nil, or_false] at ht
    rcases ht with rfl | ht | rfl
    · exact hbs
    · exact this ht
    · exact hcs
  reads depth := by
    have hopen : ReadsAs (utf8 "\x7b\n") Anything (Kinds [.leftBrace]) :=
      reads_words [(utf8 "\x7b", .leftBrace, utf8 "\n")] (by decide +kernel)
    refine (h.reads_body hopen hc depth).mono (fun _ _ => trivial) fun us hus => ?_
    simpa [hb] using hus
  same hno := by rw [h.same fun t ht => hno t (by simp only [List.mem_cons, List.mem_append]; tauto)]

/-- The block of two statements. -/
theorem WrittenOut.pair {vs vs' : List Token} {s' : Stmt} (h : WrittenOut mode .declaration ts s us)
    (h' : WrittenOut mode .declaration vs s' vs') (loc : Location) :
    ∃ ws ws', WrittenOut mode (.statement false) ws (.block [s, s'] loc) ws' := by
  have hopens : Spells .leftBrace (utf8 "\x7b") := .symbol (e := (utf8 "\x7b", .leftBrace)) (by decide)
  have hcloses : Spells .rightBrace (utf8 "\x7d") := .symbol (e := (utf8 "\x7d", .rightBrace)) (by decide)
  exact ⟨_, _, @RowWrittenOut.block mode _ _ ⟨.leftBrace, utf8 "\x7b", none, loc⟩
    ⟨.rightBrace, utf8 "\x7d", none, loc⟩ (.cons h (.cons h' .nil)) rfl rfl ⟨hopens, rfl⟩
    ⟨hcloses, rfl⟩⟩

theorem RowWrittenOut.function {k t l r : Token} {ps : List Token} (h : RowWrittenOut mode body row)
    (hk : k.kind = .kwFun) (ht : t.kind = .identifier) (hl : l.kind = .leftParen)
    (hallow : mode.Allows ps.length) (hp : ∀ p ∈ ps, p.kind = .identifier)
    (hcomma : CommaSeparated (ps.map fun p => [p]) ts) (hr : r.kind = .rightParen)
    (hb : b.kind = .leftBrace) (hc : c.kind = .rightBrace)
    (hs : ∀ u ∈ k :: t :: l :: (ts ++ [r, b, c]), u.Spelled) :
    WrittenOut mode .declaration (k :: t :: l :: (ts ++ r :: b :: (body.flatMap Prod.fst ++ [c])))
      (.function t.named (ps.map Token.named) (body.map Prod.snd))
      (k :: t :: l :: (ts ++ r :: b :: (row.flatMap Prod.fst ++ [c]))) where
  derivation := h.statements ▸ .function hk ht hl hallow hp hcomma hr hb h.derivation hc
  spelled u hu := by
    have := h.spelled u
    have := hs u
    simp only [List.mem_cons, List.mem_append, List.not_mem_nil, or_false] at hu this
    tauto
  reads depth := by
    have hfun : ReadsAs (utf8 "fun ") Anything (Kinds [.kwFun]) :=
      reads_words [(utf8 "fun", .kwFun, utf8 " ")] (by decide +kernel)
    have hright : ReadsAs (utf8 ") \x7b\n") Anything (Kinds [.rightParen, .leftBrace]) :=
      reads_words [(utf8 ")", .rightParen, utf8 " "), (utf8 "\x7b", .leftBrace, utf8 "\n")]
        (by decide +kernel)
    have hparams : ReadsAs (Text.joined (utf8 ", ") (ps.map Token.lexeme)) Delimits
        (Kinds (ts.map Token.kind)) := by
      have hparts : ∀ p ∈ ps.map fun p => ([p], p),
          ReadsAs p.2.lexeme Delimits (Kinds (p.1.map Token.kind)) := by
        refine List.forall_mem_map.2 fun p hp => (hs p ?_).reads_kind
        have := hcomma.singletons_subset hp
        simp [this]
      have hjoined := reads_kinds_joined hparts (by rwa [List.map_map])
      rwa [List.map_map] at hjoined
    have hname := (hfun.then (hs t (by simp)).reads_kind).kinds
    have hopen := ((((hname.delimited reads_leftParen rfl).kinds.then hparams).kinds).delimited
      hright rfl).kinds
    rw [Stmt.textAt, List.map_map]
    refine (h.reads_body hopen hc depth).mono (fun _ _ => trivial) fun us hus => ?_
    simpa [hk, hl, hr, hb] using hus
  same hno := by
    rw [h.same fun u hu => hno u (by simp only [List.mem_cons, List.mem_append]; tauto)]

/-! ### Loops with three clauses -/

theorem ForStart.writtenOut {start : Option Stmt} (h : Stmt.ForStart mode ts start)
    (hs : ∀ t ∈ ts, t.Spelled) :
    ∀ s ∈ start, ∃ us, WrittenOut mode .declaration us s us := by
  rintro s rfl
  cases h with
  | var hv => exact ⟨ts, hv.writtenOut hs⟩
  | expression he => exact ⟨ts, (he.writtenOut hs).declaration⟩

theorem ForStep.writtenOut {step : Option Stmt} {m : Token} (h : Stmt.ForStep mode ts step)
    (hm : m.kind = .semicolon) (hs : ∀ t ∈ ts, t.Spelled) (hms : m.Spelled) :
    ∀ s ∈ step, ∃ us, WrittenOut mode .declaration us s us := by
  rintro s rfl
  cases h with
  | present he =>
    refine ⟨_, (Stmt.Expression.writtenOut (.mk he hm) fun t ht => ?_).declaration⟩
    rcases List.mem_append.1 ht with ht | ht
    · exact hs t ht
    · rwa [List.mem_singleton.1 ht]

/-- The condition of a loop, or the one that stands for none. -/
theorem exists_condition {condition : Option Expr} (h : Expr.Optional mode ts condition)
    (hs : ∀ t ∈ ts, t.Spelled) (loc : Location) : ∃ us, (∀ t ∈ us, t.Spelled) ∧
      Expr.Derivation mode .assignment us (condition.getD (.literal (.bool true) loc)) := by
  cases h with
  | absent =>
    have hspells : Spells .kwTrue (utf8 "true") := spells_keyword (by decide)
    exact ⟨[⟨.kwTrue, utf8 "true", none, loc⟩], List.forall_mem_singleton.2 ⟨hspells, rfl⟩,
      Expr.Derivation.of_primary (.literal rfl)⟩
  | present he => exact ⟨ts, hs, he⟩

/-- Written out for the position; the statement may have become one that takes no `else`. -/
def WrittenOutAt (mode : Mode) (position : Position) (ts : List Token) (s : Stmt) : Prop :=
  match position with
  | .declaration => ∃ us, WrittenOut mode .declaration ts s us
  | .statement o => ∃ o' us, (o' = true → o = true) ∧ WrittenOut mode (.statement o') ts s us

theorem WrittenOutAt.of_closed (h : WrittenOut mode (.statement false) ts s us) :
    WrittenOutAt mode (.statement o) ts s := ⟨false, us, nofun, h⟩

/-- The statement that a loop with `for` stands for. -/
theorem WrittenOutAt.forLoop {k l r : Token} {start step : Option Stmt} {condition : Expr}
    {cs : List Token} {round loop : Stmt} (hk : k.kind = .kwFor) (hl : l.kind = .leftParen)
    (hstart : ∀ s ∈ start, ∃ us, WrittenOut mode .declaration us s us) (hls : l.Spelled)
    (hcondition : Expr.Derivation mode .assignment cs condition) (hcs : ∀ t ∈ cs, t.Spelled)
    (hstep : ∀ s ∈ step, ∃ us, WrittenOut mode .declaration us s us) (hr : r.kind = .rightParen)
    (hrs : r.Spelled) (h : WrittenOutAt mode (.statement o) us s)
    (hround : round = step.elim s fun s' => .block [s, s'] k.loc)
    (hloop : loop = .whileLoop condition round k.loc) :
    WrittenOutAt mode (.statement o) (k :: ts) (start.elim loop fun s' => .block [s', loop] k.loc) := by
  have hround' : ∃ ws, WrittenOutAt mode (.statement o) ws round := by
    subst hround
    cases step with
    | none => exact ⟨us, h⟩
    | some s' =>
      obtain ⟨o', vs, _, h⟩ := h
      obtain ⟨ws, hs'⟩ := hstep s' rfl
      obtain ⟨_, _, hpair⟩ := h.declaration.pair hs' k.loc
      exact ⟨_, .of_closed hpair⟩
  obtain ⟨ws, o', ws', ho, hround'⟩ := hround'
  have hspells : Spells .kwWhile (utf8 "while") := spells_keyword (by decide)
  have hloop' := hround'.whileLoop (k := ⟨.kwWhile, utf8 "while", none, k.loc⟩) rfl hl hcondition hr
    (by
      simp only [List.mem_cons, List.mem_append, List.not_mem_nil, or_false]
      rintro t (rfl | rfl | ht | rfl)
      · exact ⟨hspells, rfl⟩
      · exact hls
      · exact hcs t ht
      · exact hrs)
  rw [← hloop] at hloop'
  cases start with
  | none => exact ⟨o', _, ho, hloop'.of_for hk⟩
  | some s' =>
    obtain ⟨vs, hs'⟩ := hstart s' rfl
    obtain ⟨_, _, hpair⟩ := hs'.pair hloop'.declaration k.loc
    exact .of_closed (hpair.of_for hk)

/-! ### All statements -/

section

variable (k l m r t b c : Token) (ts us vs : List Token)

theorem subset_clause : k :: l :: (ts ++ [r]) ⊆ k :: l :: (ts ++ r :: us) := by
  intro u hu
  simp only [List.mem_cons, List.mem_append, List.not_mem_nil, or_false] at hu ⊢
  tauto

theorem subset_branches : k :: l :: (ts ++ [r, m]) ⊆ k :: l :: (ts ++ r :: (us ++ m :: vs)) := by
  intro u hu
  simp only [List.mem_cons, List.mem_append, List.not_mem_nil, or_false] at hu ⊢
  tauto

theorem subset_function :
    k :: t :: l :: (ts ++ [r, b, c]) ⊆ k :: t :: l :: (ts ++ r :: b :: (us ++ [c])) := by
  intro u hu
  simp only [List.mem_cons, List.mem_append, List.not_mem_nil, or_false] at hu ⊢
  tauto

end

/-- **The text of a statement has the tokens of the statement**, kind by kind, when its loops with `for`
are written out. -/
theorem Derivation.writtenOut (h : Stmt.Derivation mode position ts s) (hs : ∀ t ∈ ts, t.Spelled) :
    WrittenOutAt mode position ts s := by
  induction h with
  | var hv => exact ⟨_, hv.writtenOut hs⟩
  | function hk ht hl hallow hp hcomma hr hb _ hc ih =>
    obtain ⟨row, hrow⟩ := exists_rowWrittenOut ih fun t ht => hs t (by simp [List.mem_flatMap.1 ht])
    exact ⟨_, hrow.function hk ht hl hallow hp hcomma hr hb hc fun u hu =>
      hs u (subset_function _ _ _ _ _ _ _ _ hu)⟩
  | statement _ ih =>
    obtain ⟨_, us, _, h⟩ := ih hs
    exact ⟨us, h.declaration⟩
  | expression he => exact .of_closed (he.writtenOut hs)
  | print hk he hsemi => exact .of_closed (writtenOut_print hk he hsemi hs)
  | block hb _ hc ih =>
    obtain ⟨row, hrow⟩ := exists_rowWrittenOut ih fun t ht => hs t (by simp [List.mem_flatMap.1 ht])
    exact .of_closed (hrow.block hb hc (hs _ (by simp)) (hs _ (by simp)))
  | ifThen hk hl he hr _ ih =>
    obtain ⟨_, us, _, h⟩ := ih fun t ht => hs t (by simp [ht])
    exact ⟨true, _, fun _ => rfl, h.ifThen hk hl he hr fun t ht => hs t (subset_clause _ _ _ _ _ ht)⟩
  | ifElse hk hl he hr _ hm _ ih ih' =>
    obtain ⟨o, us, ho, h⟩ := ih fun t ht => hs t (by simp [ht])
    obtain ⟨o', us', ho', h'⟩ := ih' fun t ht => hs t (by simp [ht])
    obtain rfl : o = false := Bool.eq_false_iff.2 fun htrue => Bool.false_ne_true (ho htrue)
    exact ⟨o', _, ho', h.ifElse hk hl he hr (fun t ht => hs t (subset_branches _ _ _ _ _ _ _ ht)) hm h'⟩
  | whileLoop hk hl he hr _ ih =>
    obtain ⟨o', us, ho, h⟩ := ih fun t ht => hs t (by simp [ht])
    exact ⟨o', _, ho, h.whileLoop hk hl he hr fun t ht => hs t (subset_clause _ _ _ _ _ ht)⟩
  | @forLoop o k l m r is cs ss us _ _ _ _ _ _ hk hl hi hc hm hstep hr _ hround hloop ih =>
    obtain ⟨ws, hws, hcondition⟩ := exists_condition hc (fun t ht => hs t (by simp [ht])) k.loc
    exact .forLoop hk hl (hi.writtenOut fun t ht => hs t (by simp [ht])) (hs l (by simp))
      hcondition hws (hstep.writtenOut hm (fun t ht => hs t (by simp [ht])) (hs m (by simp))) hr
      (hs r (by simp)) (ih fun t ht => hs t (by simp [ht])) hround hloop
  | returnStmt hk he hsemi => exact .of_closed (writtenOut_return hk he hsemi hs)

end Stmt

/-- The text of a program has tokens that form the program, kind by kind, and if no loop with `for` was
in it they are those that it was parsed from. -/
theorem Program.Derivation.writtenOut {p : Program} (h : Program.Derivation mode ts p)
    (hs : ∀ t ∈ ts, t.Spelled) : ∃ us, Program.Derivation mode us p ∧ (∀ t ∈ us, t.Spelled) ∧
      ReadsAs p.text Anything (Kinds (us.map Token.kind)) ∧
        ((∀ t ∈ ts, t.kind ≠ .kwFor) → us = ts) := by
  cases h with
  | @mk body hd =>
    obtain ⟨row, hrow⟩ := Stmt.exists_rowWrittenOut (fun d hd' => (hd d hd').writtenOut) hs
    have hp := Program.Derivation.mk hrow.derivation
    have hreads := hrow.reads 0
    rw [hrow.statements] at hp hreads
    exact ⟨_, hp, hrow.spelled, hreads, fun hno => by rw [hrow.same hno]⟩

end Lox
