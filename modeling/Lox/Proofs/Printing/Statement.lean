import Lox.Proofs.Printing.Expression
import Lox.Proofs.Grammar.Parse

/-!
# Statements are read back

The text of a statement that the parser returned is read as tokens that form a statement with the
same outline, in front of everything (`Stmt.Derivation.rereads`): a statement ends with a semicolon
or a brace. Loops with `for` are read back as the blocks and loops with `while` that they stand for.
What cannot take an `else` cannot take one after it was read back either, so a branch in front of an
`else` stays one.
-/

namespace Lox

variable {o : Bool} {ts : List Token} {position : Position} {s : Stmt} {body : List Stmt}

/-- Tokens that form a statement with the outline of the given one, after its numbers were read
again. -/
def Stmt.Rereading (position : Position) (s : Stmt) (us : List Token) : Prop :=
  ∃ s', Stmt.Derivation .tolerant position us s' ∧ s'.outline id = s.outline Number.reread

/-- The text of a statement, at any depth, is read as a statement. -/
def Stmt.Rereads (position : Position) (s : Stmt) : Prop :=
  ∀ depth, ReadsAs (s.textAt depth) Anything (s.Rereading position)

theorem Stmt.Rereads.declaration (h : Stmt.Rereads (.statement o) s) :
    Stmt.Rereads .declaration s := by
  intro depth
  refine (h depth).mono (fun _ ht => ht) ?_
  rintro us ⟨s', hs, houtline⟩
  exact ⟨s', .statement hs, houtline⟩

/-! ## Pieces of statements -/

theorem reads_if : ReadsAs (utf8 "if (") Anything (Kinds [.kwIf, .leftParen]) :=
  reads_words [(utf8 "if", .kwIf, utf8 " "), (utf8 "(", .leftParen, [])] (by decide +kernel)

theorem reads_indentation (depth : Nat) : ReadsAs (indentation depth) Anything (Kinds []) :=
  reads_blanks fun b hb => by rw [List.eq_of_mem_replicate hb]; rfl

/-- An expression with a semicolon behind it. -/
theorem reads_clause {opening : Text} {P : List Token → Prop} {e : Expr}
    (hopen : ReadsAs opening Anything P) (h : Expr.Rereads .assignment e) :
    ReadsAs (opening ++ e.text ++ utf8 ";") Anything fun us => ∃ vs ts s e',
      us = vs ++ (ts ++ [s]) ∧ P vs ∧ Expr.Derivation .tolerant .assignment ts e' ∧
        s.kind = .semicolon ∧ e'.outline id = e.outline Number.reread := by
  refine ((hopen.then h.reads).delimited reads_semicolon rfl).mono (fun _ ht => ht) ?_
  rintro _ ⟨_, _, rfl, ⟨vs, ts, rfl, hvs, e', he, houtline⟩, hs⟩
  obtain ⟨s, rfl, hsk⟩ := hs.one
  exact ⟨vs, ts, s, e', List.append_assoc _ _ _, hvs, he, hsk, houtline⟩

/-- A condition in parentheses behind a reserved word. -/
theorem reads_condition {opening : Text} {k : TokenKind} {e : Expr}
    (hopen : ReadsAs opening Anything (Kinds [k, .leftParen])) (h : Expr.Rereads .assignment e) :
    ReadsAs (opening ++ e.text ++ utf8 ") ") Anything fun us => ∃ t l ts r e',
      us = t :: l :: (ts ++ [r]) ∧ t.kind = k ∧ l.kind = .leftParen ∧
        Expr.Derivation .tolerant .assignment ts e' ∧ r.kind = .rightParen ∧
          e'.outline id = e.outline Number.reread := by
  have hclose : ReadsAs (utf8 ") ") Anything (Kinds [.rightParen]) :=
    reads_words [(utf8 ")", .rightParen, utf8 " ")] (by decide +kernel)
  refine ((hopen.then h.reads).delimited hclose rfl).mono (fun _ ht => ht) ?_
  rintro _ ⟨_, _, rfl, ⟨_, ts, rfl, htl, e', he, houtline⟩, hr⟩
  obtain ⟨t, l, rfl, htk, hlk⟩ := htl.two
  obtain ⟨r, rfl, hrk⟩ := hr.one
  exact ⟨t, l, ts, r, e', rfl, htk, hlk, he, hrk, houtline⟩

/-! ## Simple statements -/

theorem Stmt.rereads_expression {e : Expr} (h : Expr.Rereads .assignment e) (loc : Location) :
    Stmt.Rereads (.statement false) (.expression e loc) := by
  intro depth
  refine (h.reads.delimited reads_semicolon rfl).mono (fun _ ht => ht) ?_
  rintro _ ⟨us, _, rfl, ⟨e', he, houtline⟩, hs⟩
  obtain ⟨s, rfl, hk⟩ := hs.one
  obtain ⟨t, us, rfl⟩ := List.exists_cons_of_ne_nil he.ne_nil
  refine ⟨_, .expression (.mk he hk), ?_⟩
  rw [Stmt.outline, Stmt.outline, houtline]

theorem Stmt.rereads_print {e : Expr} (h : Expr.Rereads .assignment e) (loc : Location) :
    Stmt.Rereads (.statement false) (.print e loc) := by
  intro depth
  have hprint : ReadsAs (utf8 "print ") Anything (Kinds [.kwPrint]) :=
    reads_words [(utf8 "print", .kwPrint, utf8 " ")] (by decide +kernel)
  refine (reads_clause hprint h).mono (fun _ ht => ht) ?_
  rintro _ ⟨_, ts, s, e', rfl, hk, he, hs, houtline⟩
  obtain ⟨k, rfl, hkk⟩ := hk.one
  refine ⟨_, .print hkk he hs, ?_⟩
  rw [Stmt.outline, Stmt.outline, houtline]

theorem Stmt.rereads_return {e : Option Expr} (h : ∀ e' ∈ e, Expr.Rereads .assignment e')
    (loc : Location) : Stmt.Rereads (.statement false) (.returnStmt e loc) := by
  intro depth
  cases e with
  | none =>
    have hreturn : ReadsAs (utf8 "return") Delimits (Kinds [.kwReturn]) :=
      (reads_kind (spells_keyword (by decide))).mono (fun _ hd => hd.follows _) fun _ hus => hus
    refine (hreturn.delimited reads_semicolon rfl).mono (fun _ ht => ht) ?_
    rintro _ ⟨_, _, rfl, hk, hs⟩
    obtain ⟨k, rfl, hkk⟩ := hk.one
    obtain ⟨s, rfl, hsk⟩ := hs.one
    refine ⟨_, .returnStmt hkk .absent hsk, ?_⟩
    rw [Stmt.outline, Stmt.outline, Option.map_none, Option.map_none]
  | some e =>
    have hreturn : ReadsAs (utf8 "return ") Anything (Kinds [.kwReturn]) :=
      reads_words [(utf8 "return", .kwReturn, utf8 " ")] (by decide +kernel)
    refine (reads_clause hreturn (h e rfl)).mono (fun _ ht => ht) ?_
    rintro _ ⟨_, ts, s, e', rfl, hk, he, hs, houtline⟩
    obtain ⟨k, rfl, hkk⟩ := hk.one
    refine ⟨_, .returnStmt hkk (.present he) hs, ?_⟩
    rw [Stmt.outline, Stmt.outline, Option.map_some, Option.map_some, houtline]

theorem Stmt.rereads_var {t : Token} (hk : t.kind = .identifier) (ht : t.Spelled)
    {e : Option Expr} (h : ∀ e' ∈ e, Expr.Rereads .assignment e') :
    Stmt.Rereads .declaration (.var t.named e) := by
  intro depth
  have hvar : ReadsAs (utf8 "var ") Anything (Kinds [.kwVar]) :=
    reads_words [(utf8 "var", .kwVar, utf8 " ")] (by decide +kernel)
  have hname := hvar.then (ht.reads_name hk)
  cases e with
  | none =>
    refine (hname.delimited reads_semicolon rfl).mono (fun _ ht => ht) ?_
    rintro _ ⟨_, _, rfl, ⟨_, _, rfl, hk, u, rfl, hu, hname⟩, hs⟩
    obtain ⟨k, rfl, hkk⟩ := hk.one
    obtain ⟨s, rfl, hsk⟩ := hs.one
    refine ⟨_, .var (.plain hkk hu hsk), ?_⟩
    rw [Stmt.outline, Stmt.outline, hname, Option.map_none, Option.map_none]
  | some e =>
    refine (reads_clause (hname.delimited reads_equal rfl) (h e rfl)).mono (fun _ ht => ht) ?_
    rintro _ ⟨_, ts, s, e', rfl, ⟨_, _, rfl, ⟨_, _, rfl, hk, u, rfl, hu, hname⟩, heq⟩, he, hs,
      houtline⟩
    obtain ⟨k, rfl, hkk⟩ := hk.one
    obtain ⟨eq, rfl, heqk⟩ := heq.one
    refine ⟨_, .var (.initialized hkk hu heqk he hs), ?_⟩
    rw [Stmt.outline, Stmt.outline, hname, Option.map_some, Option.map_some, houtline]

/-! ## Lists of statements -/

/-- Tokens that form a program with the outline of the given one, after its numbers were read
again. -/
def Program.Rereading (p : Program) (us : List Token) : Prop :=
  ∃ p', Program.Derivation .tolerant us p' ∧ p'.outline id = p.outline Number.reread

theorem reads_lines (h : ∀ s ∈ body, Stmt.Rereads .declaration s) (depth : Nat) :
    ReadsAs (Stmt.linesAt depth body) Anything (Program.Rereading body) := by
  induction body with
  | nil =>
    refine (reads_blanks (List.forall_mem_nil _)).mono (fun _ ht => ht) fun us hus => ?_
    rw [kinds_nil.1 hus]
    refine ⟨[], .nil _, ?_⟩
    rw [Program.outline, Program.outline, Stmt.outlines, Stmt.outlines]
  | cons s body ih =>
    obtain ⟨hs, hbody⟩ := List.forall_mem_cons.1 h
    have hnewline : ReadsAs [newline] Anything (Kinds []) :=
      reads_blanks (List.forall_mem_singleton.2 rfl)
    refine ((((reads_indentation depth).then (hs depth)).then hnewline).then (ih hbody)).mono
      (fun _ ht => ht) ?_
    rintro _ ⟨_, us, rfl, ⟨_, _, rfl, ⟨_, vs, rfl, hi, s', hs', houtline⟩, hn⟩, p', hp', houtlines⟩
    rw [kinds_nil.1 hi, kinds_nil.1 hn, List.append_nil, List.nil_append]
    refine ⟨s' :: p', .cons hs' hp', ?_⟩
    rw [Program.outline, Program.outline] at houtlines ⊢
    rw [Stmt.outlines, Stmt.outlines, houtline, houtlines]

/-- The lines of a block, from the brace that opens it to the one that closes it. -/
theorem reads_body {opening : Text} {P : List Token → Prop} (hopen : ReadsAs opening Anything P)
    (h : ∀ s ∈ body, Stmt.Rereads .declaration s) (depth : Nat) :
    ReadsAs (opening ++ Stmt.linesAt (depth + 1) body ++ indentation depth ++ utf8 "\x7d") Anything
      fun us => ∃ vs ws c, us = vs ++ (ws ++ [c]) ∧ P vs ∧ c.kind = .rightBrace ∧
        Program.Rereading body ws := by
  have hclose := reads_symbol (utf8 "\x7d") .rightBrace (by decide) (by decide)
  refine (((hopen.then (reads_lines h (depth + 1))).then (reads_indentation depth)).then
    hclose).mono (fun _ ht => ht) ?_
  rintro _ ⟨_, _, rfl, ⟨_, _, rfl, ⟨vs, ws, rfl, hvs, hws⟩, hi⟩, hc⟩
  obtain ⟨c, rfl, hck⟩ := hc.one
  rw [kinds_nil.1 hi, List.append_nil, List.append_assoc]
  exact ⟨vs, ws, c, rfl, hvs, hck, hws⟩

theorem Stmt.rereads_block (h : ∀ s ∈ body, Stmt.Rereads .declaration s) (loc : Location) :
    Stmt.Rereads (.statement false) (.block body loc) := by
  intro depth
  have hopen : ReadsAs (utf8 "\x7b\n") Anything (Kinds [.leftBrace]) :=
    reads_words [(utf8 "\x7b", .leftBrace, utf8 "\n")] (by decide +kernel)
  refine (reads_body hopen h depth).mono (fun _ ht => ht) ?_
  rintro _ ⟨_, _, c, rfl, hb, hc, p', ⟨hd⟩, houtlines⟩
  obtain ⟨b, rfl, hbk⟩ := hb.one
  refine ⟨_, .block hbk hd hc, ?_⟩
  rw [Program.outline, Program.outline] at houtlines
  rw [Stmt.outline, Stmt.outline, houtlines]

theorem exists_parameters {ps : List Token} {phrases : List (List Token)}
    (h : List.Forall₂ (fun p us => ∃ u : Token, us = [u] ∧ u.kind = .identifier ∧
      u.named.outline = p.named.outline) ps phrases) :
    ∃ qs : List Token, (qs.map fun q => [q]) = phrases ∧ (∀ q ∈ qs, q.kind = .identifier) ∧
      (qs.map Token.named).map Name.outline = (ps.map Token.named).map Name.outline := by
  induction h with
  | nil => exact ⟨[], rfl, List.forall_mem_nil _, rfl⟩
  | @cons p _ ps _ h _ ih =>
    obtain ⟨q, rfl, hq, houtline⟩ := h
    obtain ⟨qs, rfl, hqs, houtlines⟩ := ih
    exact ⟨q :: qs, rfl, List.forall_mem_cons.2 ⟨hq, hqs⟩,
      congrArg₂ List.cons houtline houtlines⟩

theorem Stmt.rereads_function {t : Token} (hk : t.kind = .identifier) (ht : t.Spelled)
    {ps : List Token} (hps : ∀ p ∈ ps, p.kind = .identifier ∧ p.Spelled)
    (h : ∀ s ∈ body, Stmt.Rereads .declaration s) :
    Stmt.Rereads .declaration (.function t.named (ps.map Token.named) body) := by
  intro depth
  have hfun : ReadsAs (utf8 "fun ") Anything (Kinds [.kwFun]) :=
    reads_words [(utf8 "fun", .kwFun, utf8 " ")] (by decide +kernel)
  have hright : ReadsAs (utf8 ") \x7b\n") Anything (Kinds [.rightParen, .leftBrace]) :=
    reads_words [(utf8 ")", .rightParen, utf8 " "), (utf8 "\x7b", .leftBrace, utf8 "\n")]
      (by decide +kernel)
  have hparams := reads_joined fun p hp => (hps p hp).2.reads_name (hps p hp).1
  have hopen := (((hfun.then (ht.reads_name hk)).delimited reads_leftParen rfl).then hparams).delimited
    hright rfl
  rw [Stmt.textAt, List.map_map]
  refine (reads_body hopen h depth).mono (fun _ ht => ht) ?_
  rintro _ ⟨_, _, c, rfl, ⟨_, _, rfl, ⟨_, us, rfl, ⟨_, _, rfl, ⟨_, _, rfl, hf, u, rfl, hu, hname⟩,
    hl⟩, phrases, hphrases, hus⟩, hrb⟩, hc, p', ⟨hd⟩, houtlines⟩
  obtain ⟨f, rfl, hfk⟩ := hf.one
  obtain ⟨l, rfl, hlk⟩ := hl.one
  obtain ⟨r, b, rfl, hrk, hbk⟩ := hrb.two
  obtain ⟨qs, rfl, hqs, hqso⟩ := exists_parameters hphrases
  simp only [List.append_assoc, List.cons_append, List.nil_append]
  refine ⟨_, .function hfk hu hlk nofun hqs hus hrk hbk hd hc, ?_⟩
  rw [Program.outline, Program.outline] at houtlines
  rw [Stmt.outline, Stmt.outline, hname, hqso, houtlines]

/-! ## Statements with a condition -/

theorem Stmt.Rereads.ifThen {e : Expr} (he : Expr.Rereads .assignment e)
    (h : Stmt.Rereads (.statement o) s) (loc : Location) :
    Stmt.Rereads (.statement true) (.ifThen e s loc) := by
  intro depth
  refine ((reads_condition reads_if he).then (h depth)).mono (fun _ ht => ht) ?_
  rintro _ ⟨_, us, rfl, ⟨k, l, ts, r, e', rfl, hk, hl, he', hr, heo⟩, s', hs', hso⟩
  simp only [List.append_assoc, List.cons_append, List.nil_append]
  refine ⟨_, .ifThen hk hl he' hr hs', ?_⟩
  rw [Stmt.outline, Stmt.outline, heo, hso]

theorem Stmt.Rereads.ifElse {e : Expr} {s' : Stmt} (he : Expr.Rereads .assignment e)
    (h : Stmt.Rereads (.statement false) s) (h' : Stmt.Rereads (.statement o) s')
    (loc : Location) : Stmt.Rereads (.statement o) (.ifElse e s s' loc) := by
  intro depth
  have helse : ReadsAs (utf8 " else ") Anything (Kinds [.kwElse]) :=
    (reads_space.then (reads_words [(utf8 "else", .kwElse, utf8 " ")] (by decide +kernel))).kinds
  refine ((((reads_condition reads_if he).then (h depth)).then helse).then (h' depth)).mono
    (fun _ ht => ht) ?_
  rintro _ ⟨_, vs, rfl, ⟨_, _, rfl, ⟨_, us, rfl, ⟨k, l, ts, r, e', rfl, hk, hl, he', hr, heo⟩,
    b, hb, hbo⟩, hm⟩, b', hb', hbo'⟩
  obtain ⟨m, rfl, hmk⟩ := hm.one
  simp only [List.append_assoc, List.cons_append, List.nil_append]
  refine ⟨_, .ifElse hk hl he' hr hb hmk hb', ?_⟩
  rw [Stmt.outline, Stmt.outline, heo, hbo, hbo']

theorem Stmt.Rereads.whileLoop {e : Expr} (he : Expr.Rereads .assignment e)
    (h : Stmt.Rereads (.statement o) s) (loc : Location) :
    Stmt.Rereads (.statement o) (.whileLoop e s loc) := by
  intro depth
  have hwhile : ReadsAs (utf8 "while (") Anything (Kinds [.kwWhile, .leftParen]) :=
    reads_words [(utf8 "while", .kwWhile, utf8 " "), (utf8 "(", .leftParen, [])] (by decide +kernel)
  refine ((reads_condition hwhile he).then (h depth)).mono (fun _ ht => ht) ?_
  rintro _ ⟨_, us, rfl, ⟨k, l, ts, r, e', rfl, hk, hl, he', hr, heo⟩, s', hs', hso⟩
  simp only [List.append_assoc, List.cons_append, List.nil_append]
  refine ⟨_, .whileLoop hk hl he' hr hs', ?_⟩
  rw [Stmt.outline, Stmt.outline, heo, hso]

/-! ## Parts of a derivation -/

variable {mode : Mode}

theorem Expr.Optional.rereads {e : Option Expr} (h : Expr.Optional mode ts e)
    (hs : ∀ t ∈ ts, t.Spelled) : ∀ e' ∈ e, Expr.Rereads .assignment e' := by
  cases h with
  | absent => exact nofun
  | present he =>
    intro e' h
    obtain rfl := Option.some.inj h
    exact he.rereads hs

theorem Stmt.VarDeclaration.rereads (h : Stmt.VarDeclaration mode ts s)
    (hs : ∀ t ∈ ts, t.Spelled) : Stmt.Rereads .declaration s := by
  cases h with
  | @plain k t _ _ ht => exact rereads_var ht (hs t (by simp)) nofun
  | @initialized k t eq _ us e _ ht _ he =>
    refine rereads_var ht (hs t (by simp)) fun e' h => ?_
    obtain rfl := Option.some.inj h
    exact he.rereads fun u hu => hs u (by simp [hu])

theorem Stmt.Expression.rereads (h : Stmt.Expression mode ts s) (hs : ∀ t ∈ ts, t.Spelled) :
    Stmt.Rereads (.statement false) s := by
  cases h with
  | mk he => exact rereads_expression (he.rereads fun u hu => hs u (List.mem_append_left _ hu)) _

theorem Stmt.ForStart.rereads {start : Option Stmt} (h : Stmt.ForStart mode ts start)
    (hs : ∀ t ∈ ts, t.Spelled) : ∀ s ∈ start, Stmt.Rereads .declaration s := by
  cases h with
  | absent => exact nofun
  | var hv =>
    intro s h
    obtain rfl := Option.some.inj h
    exact hv.rereads hs
  | expression he =>
    intro s h
    obtain rfl := Option.some.inj h
    exact (he.rereads hs).declaration

theorem Stmt.ForStep.rereads {step : Option Stmt} (h : Stmt.ForStep mode ts step)
    (hs : ∀ t ∈ ts, t.Spelled) : ∀ s ∈ step, Stmt.Rereads .declaration s := by
  cases h with
  | absent => exact nofun
  | present he =>
    intro s h
    obtain rfl := Option.some.inj h
    exact (rereads_expression (he.rereads hs) _).declaration

theorem Expr.Derivation.of_primary {e : Expr} (h : Expr.Derivation mode .primary ts e) :
    Expr.Derivation mode .assignment ts e := by
  have hproduct : Expr.Derivation mode .product ts e := .tighter rfl (.tighter rfl (.tighter rfl h))
  have hequality : Expr.Derivation mode .equality ts e :=
    .tighter rfl (.tighter rfl (.tighter rfl hproduct))
  exact .tighter rfl (.tighter rfl (.tighter rfl hequality))

/-- The condition of a loop that has none. -/
theorem Expr.rereads_true (loc : Location) :
    Expr.Rereads .assignment (.literal (.bool true) loc) := by
  let t : Token := ⟨.kwTrue, utf8 "true", none, loc⟩
  have hspells : Spells .kwTrue (utf8 "true") := spells_keyword (by decide)
  have ht : t.Spelled := ⟨hspells, rfl⟩
  have hd : Expr.Derivation .exact .primary [t] (.literal (.bool true) loc) := .literal rfl
  exact hd.of_primary.rereads (List.forall_mem_singleton.2 ht)

/-! ## All statements -/

/-- The statement is read back as one for the position; it may have become one that takes no `else`. -/
def Stmt.RereadsAt : Position → Stmt → Prop
  | .declaration, s => Stmt.Rereads .declaration s
  | .statement o, s => ∃ o', (o' = true → o = true) ∧ Stmt.Rereads (.statement o') s

theorem Stmt.RereadsAt.declaration (h : Stmt.RereadsAt position s) :
    Stmt.Rereads .declaration s := by
  cases position with
  | declaration => exact h
  | statement o =>
    obtain ⟨o', _, h⟩ := h
    exact h.declaration

theorem Stmt.RereadsAt.of_closed (h : Stmt.Rereads (.statement false) s) :
    Stmt.RereadsAt (.statement o) s := ⟨false, nofun, h⟩

theorem Stmt.RereadsAt.closed (h : Stmt.RereadsAt (.statement false) s) :
    Stmt.Rereads (.statement false) s := by
  obtain ⟨o, ho, h⟩ := h
  cases o with
  | false => exact h
  | true => cases ho rfl

/-- A block of two statements. -/
theorem Stmt.rereads_pair {s' : Stmt} (h : Stmt.Rereads .declaration s)
    (h' : Stmt.Rereads .declaration s') (loc : Location) :
    Stmt.Rereads (.statement false) (.block [s, s'] loc) :=
  rereads_block (List.forall_mem_cons.2 ⟨h, List.forall_mem_singleton.2 h'⟩) loc

/-- The statement that a loop with `for` stands for. -/
theorem Stmt.RereadsAt.forLoop {start step : Option Stmt} {condition : Option Expr}
    (hstart : ∀ s ∈ start, Stmt.Rereads .declaration s)
    (hcondition : ∀ e ∈ condition, Expr.Rereads .assignment e)
    (hstep : ∀ s ∈ step, Stmt.Rereads .declaration s) (h : Stmt.RereadsAt (.statement o) s)
    {loc : Location} {round loop : Stmt}
    (hround : round = step.elim s fun s' => .block [s, s'] loc)
    (hloop : loop = .whileLoop (condition.getD (.literal (.bool true) loc)) round loc) :
    Stmt.RereadsAt (.statement o) (start.elim loop fun s' => .block [s', loop] loc) := by
  have hround' : Stmt.RereadsAt (.statement o) round := by
    subst hround
    cases step with
    | none => exact h
    | some s' => exact .of_closed (rereads_pair h.declaration (hstep s' rfl) loc)
  have htest : Expr.Rereads .assignment (condition.getD (.literal (.bool true) loc)) := by
    cases condition with
    | none => exact Expr.rereads_true loc
    | some e => exact hcondition e rfl
  have hloop' : Stmt.RereadsAt (.statement o) loop := by
    obtain ⟨o', ho, hr⟩ := hround'
    subst hloop
    exact ⟨o', ho, .whileLoop htest hr loc⟩
  cases start with
  | none => exact hloop'
  | some s' => exact .of_closed (rereads_pair (hstart s' rfl) hloop'.declaration loc)

theorem rereads_flatMap {body : List (List Token × Stmt)}
    (ih : ∀ d ∈ body, (∀ t ∈ d.1, t.Spelled) → Stmt.RereadsAt .declaration d.2)
    (hs : ∀ t ∈ body.flatMap Prod.fst, t.Spelled) :
    ∀ s ∈ body.map Prod.snd, Stmt.Rereads .declaration s := by
  intro s h
  obtain ⟨d, hd, rfl⟩ := List.mem_map.1 h
  exact ih d hd fun t ht => hs t (List.mem_flatMap.2 ⟨d, hd, ht⟩)

/-- **A statement is read back from its text.** -/
theorem Stmt.Derivation.rereads (h : Stmt.Derivation mode position ts s)
    (hs : ∀ t ∈ ts, t.Spelled) : Stmt.RereadsAt position s := by
  induction h with
  | var hv => exact hv.rereads hs
  | @function k t l r b c ps ts body _ ht _ _ hp hcomma _ _ _ _ ih =>
    refine rereads_function ht (hs t (by simp)) (fun p hp' => ⟨hp p hp', hs p ?_⟩)
      (rereads_flatMap ih fun t ht => hs t (by simp [ht]))
    have := hcomma.subset [p] (List.mem_map_of_mem hp') List.mem_cons_self
    simp [this]
  | statement _ ih => exact (ih hs).declaration
  | expression he => exact .of_closed (he.rereads hs)
  | print _ he => exact .of_closed (rereads_print (he.rereads fun t ht => hs t (by simp [ht])) _)
  | block _ _ _ ih => exact .of_closed (rereads_block (rereads_flatMap ih fun t ht => hs t (by simp [ht])) _)
  | ifThen _ _ he _ _ ih =>
    obtain ⟨_, _, h⟩ := ih fun t ht => hs t (by simp [ht])
    exact ⟨true, fun _ => rfl, .ifThen (he.rereads fun t ht => hs t (by simp [ht])) h _⟩
  | ifElse _ _ he _ _ _ _ ih ih' =>
    have h := (ih fun t ht => hs t (by simp [ht])).closed
    obtain ⟨o', ho, h'⟩ := ih' fun t ht => hs t (by simp [ht])
    exact ⟨o', ho, .ifElse (he.rereads fun t ht => hs t (by simp [ht])) h h' _⟩
  | whileLoop _ _ he _ _ ih =>
    obtain ⟨o', ho, h⟩ := ih fun t ht => hs t (by simp [ht])
    exact ⟨o', ho, .whileLoop (he.rereads fun t ht => hs t (by simp [ht])) h _⟩
  | forLoop _ _ hi hc _ hstep _ _ hround hloop ih =>
    exact .forLoop (hi.rereads fun t ht => hs t (by simp [ht]))
      (hc.rereads fun t ht => hs t (by simp [ht])) (hstep.rereads fun t ht => hs t (by simp [ht]))
      (ih fun t ht => hs t (by simp [ht])) hround hloop
  | returnStmt _ he => exact .of_closed (rereads_return (he.rereads fun t ht => hs t (by simp [ht])) _)

end Lox
