import Lox.Parse.Statement

/-!
# The grammar

The grammar of the language as relations between tokens and trees: `Expr.Derivation` for
expressions at their ten levels, `Stmt.Derivation` for statements and declarations, and
`Program.Derivation` for programs. They say nothing of parsers, of look-ahead or of depth. Operators
group to the left, except assignment and the operators before an operand; an `else` belongs to the
nearest `if`, because the branch in front of it must not end in an `if` that could take it.

A derivation is *exact* if lists of arguments and parameters keep to their bound, and *tolerant* if
they may be of any length.
-/

namespace Lox

/-- How strictly the grammar is taken. -/
inductive Mode
  | exact
  | tolerant
  deriving DecidableEq

/-- Whether a list of arguments or parameters may have the given length. -/
def Mode.Allows (mode : Mode) (count : Nat) : Prop := mode = .exact → count ≤ 255

/-- The phrases with a comma between neighbours. -/
inductive CommaSeparated : List (List Token) → List Token → Prop
  | none : CommaSeparated [] []
  | one (ts : List Token) : CommaSeparated [ts] ts
  | cons {ts us : List Token} {phrase : List Token} {phrases : List (List Token)} {comma : Token} :
    comma.kind = .comma → CommaSeparated (phrase :: phrases) us →
      CommaSeparated (ts :: phrase :: phrases) (ts ++ comma :: us)

/-! ## Expressions -/

/-- The levels of expressions, from loose to tight. -/
inductive Level
  | assignment
  | disjunction
  | conjunction
  | equality
  | comparison
  | sum
  | product
  | unary
  | call
  | primary
  deriving DecidableEq

namespace Level

/-- The operators between two operands. -/
def operators : Level → List TokenKind
  | .disjunction => [.kwOr]
  | .conjunction => [.kwAnd]
  | .equality => [.bangEqual, .equalEqual]
  | .comparison => [.greater, .greaterEqual, .less, .lessEqual]
  | .sum => [.minus, .plus]
  | .product => [.slash, .star]
  | _ => []

/-- The next tighter level. -/
def tighter? : Level → Option Level
  | .assignment => some .disjunction
  | .disjunction => some .conjunction
  | .conjunction => some .equality
  | .equality => some .comparison
  | .comparison => some .sum
  | .sum => some .product
  | .product => some .unary
  | .unary => some .call
  | .call => some .primary
  | .primary => none

/-- The node that joins two operands. -/
def node : Level → Operator → Expr → Expr → Expr
  | .disjunction, op, l, r | .conjunction, op, l, r => .logical op l r
  | _, op, l, r => .binary op l r

end Level

/-- The value that a token stands for. -/
def Token.value? (t : Token) : Option Value :=
  match t.kind, t.constant with
  | .kwFalse, _ => some (.bool false)
  | .kwTrue, _ => some (.bool true)
  | .kwNil, _ => some .nil
  | .number, some (.number x) => some (.number x)
  | .string, some (.string s) => some (.string s)
  | _, _ => none

/-- Tokens that form an expression of a level. -/
inductive Expr.Derivation (mode : Mode) : Level → List Token → Expr → Prop
  | literal {t : Token} {v : Value} : t.value? = some v → Derivation mode .primary [t] (.literal v t.loc)
  | name {t : Token} : t.kind = .identifier → Derivation mode .primary [t] (.reference t.named none)
  | grouping {l r : Token} {ts : List Token} {e : Expr} :
    l.kind = .leftParen → Derivation mode .assignment ts e → r.kind = .rightParen →
      Derivation mode .primary (l :: (ts ++ [r])) (.grouping e l.loc)
  | call {l r : Token} {fs ts : List Token} {f : Expr} {args : List (List Token × Expr)} :
    Derivation mode .call fs f → l.kind = .leftParen → mode.Allows args.length →
      (∀ a ∈ args, Derivation mode .assignment a.1 a.2) →
      CommaSeparated (args.map Prod.fst) ts → r.kind = .rightParen →
      Derivation mode .call (fs ++ l :: (ts ++ [r])) (.call f (args.map Prod.snd) r.loc)
  | unary {t : Token} {ts : List Token} {e : Expr} :
    t.kind = .bang ∨ t.kind = .minus → Derivation mode .unary ts e →
      Derivation mode .unary (t :: ts) (.unary t.operator e)
  | joined {level tighter : Level} {t : Token} {ts us : List Token} {l r : Expr} :
    t.kind ∈ level.operators → level.tighter? = some tighter → Derivation mode level ts l →
      Derivation mode tighter us r → Derivation mode level (ts ++ t :: us) (level.node t.operator l r)
  | assignment {t eq : Token} {ts : List Token} {e : Expr} :
    t.kind = .identifier → eq.kind = .equal → Derivation mode .assignment ts e →
      Derivation mode .assignment (t :: eq :: ts) (.assign t.named none e)
  | tighter {level tighter : Level} {ts : List Token} {e : Expr} :
    level.tighter? = some tighter → Derivation mode tighter ts e → Derivation mode level ts e

/-- Tokens that form an expression, or nothing. -/
inductive Expr.Optional (mode : Mode) : List Token → Option Expr → Prop
  | absent : Optional mode [] none
  | present {ts : List Token} {e : Expr} :
    Expr.Derivation mode .assignment ts e → Optional mode ts (some e)

/-! ## Statements -/

/-- The declaration of a variable. -/
inductive Stmt.VarDeclaration (mode : Mode) : List Token → Stmt → Prop
  | plain {k t s : Token} :
    k.kind = .kwVar → t.kind = .identifier → s.kind = .semicolon →
      VarDeclaration mode [k, t, s] (.var t.named none)
  | initialized {k t eq s : Token} {ts : List Token} {e : Expr} :
    k.kind = .kwVar → t.kind = .identifier → eq.kind = .equal →
      Expr.Derivation mode .assignment ts e → s.kind = .semicolon →
      VarDeclaration mode (k :: t :: eq :: (ts ++ [s])) (.var t.named (some e))

/-- An expression as a statement. It is located at its first token. -/
inductive Stmt.Expression (mode : Mode) : List Token → Stmt → Prop
  | mk {t s : Token} {ts : List Token} {e : Expr} :
    Expr.Derivation mode .assignment (t :: ts) e → s.kind = .semicolon →
      Expression mode (t :: ts ++ [s]) (.expression e t.loc)

/-- The first clause of a `for` loop. -/
inductive Stmt.ForStart (mode : Mode) : List Token → Option Stmt → Prop
  | absent {s : Token} : s.kind = .semicolon → ForStart mode [s] none
  | var {ts : List Token} {s : Stmt} : Stmt.VarDeclaration mode ts s → ForStart mode ts (some s)
  | expression {ts : List Token} {s : Stmt} : Stmt.Expression mode ts s → ForStart mode ts (some s)

/-- The third clause of a `for` loop. -/
inductive Stmt.ForStep (mode : Mode) : List Token → Option Stmt → Prop
  | absent : ForStep mode [] none
  | present {t : Token} {ts : List Token} {e : Expr} :
    Expr.Derivation mode .assignment (t :: ts) e →
      ForStep mode (t :: ts) (some (.expression e t.loc))

/-- The places where a statement can stand. -/
inductive Position
  /-- In a list of declarations. -/
  | declaration
  /-- In a branch or as the body of a loop. `open` statements end in an `if` without an `else`. -/
  | statement (isOpen : Bool)
  deriving DecidableEq

/-- Tokens that form a statement or a declaration. A loop with `for` is a loop with `while` whose
body goes on with the third clause, in a block with the first clause in front of it. -/
inductive Stmt.Derivation (mode : Mode) : Position → List Token → Stmt → Prop
  | var {ts : List Token} {s : Stmt} :
    Stmt.VarDeclaration mode ts s → Derivation mode .declaration ts s
  | function {k t l r b c : Token} {ps : List Token} {ts : List Token}
      {body : List (List Token × Stmt)} :
    k.kind = .kwFun → t.kind = .identifier → l.kind = .leftParen → mode.Allows ps.length →
      (∀ p ∈ ps, p.kind = .identifier) → CommaSeparated (ps.map fun p => [p]) ts →
      r.kind = .rightParen → b.kind = .leftBrace →
      (∀ d ∈ body, Derivation mode .declaration d.1 d.2) → c.kind = .rightBrace →
      Derivation mode .declaration
        (k :: t :: l :: (ts ++ r :: b :: (body.flatMap Prod.fst ++ [c])))
        (.function t.named (ps.map Token.named) (body.map Prod.snd))
  | statement {o : Bool} {ts : List Token} {s : Stmt} :
    Derivation mode (.statement o) ts s → Derivation mode .declaration ts s
  | expression {ts : List Token} {s : Stmt} :
    Stmt.Expression mode ts s → Derivation mode (.statement false) ts s
  | print {k s : Token} {ts : List Token} {e : Expr} :
    k.kind = .kwPrint → Expr.Derivation mode .assignment ts e → s.kind = .semicolon →
      Derivation mode (.statement false) (k :: (ts ++ [s])) (.print e k.loc)
  | block {b c : Token} {body : List (List Token × Stmt)} :
    b.kind = .leftBrace → (∀ d ∈ body, Derivation mode .declaration d.1 d.2) →
      c.kind = .rightBrace →
      Derivation mode (.statement false) (b :: (body.flatMap Prod.fst ++ [c]))
        (.block (body.map Prod.snd) b.loc)
  | ifThen {o : Bool} {k l r : Token} {ts us : List Token} {e : Expr} {s : Stmt} :
    k.kind = .kwIf → l.kind = .leftParen → Expr.Derivation mode .assignment ts e →
      r.kind = .rightParen → Derivation mode (.statement o) us s →
      Derivation mode (.statement true) (k :: l :: (ts ++ r :: us)) (.ifThen e s k.loc)
  | ifElse {o : Bool} {k l r m : Token} {ts us vs : List Token} {e : Expr} {s s' : Stmt} :
    k.kind = .kwIf → l.kind = .leftParen → Expr.Derivation mode .assignment ts e →
      r.kind = .rightParen → Derivation mode (.statement false) us s → m.kind = .kwElse →
      Derivation mode (.statement o) vs s' →
      Derivation mode (.statement o) (k :: l :: (ts ++ r :: (us ++ m :: vs))) (.ifElse e s s' k.loc)
  | whileLoop {o : Bool} {k l r : Token} {ts us : List Token} {e : Expr} {s : Stmt} :
    k.kind = .kwWhile → l.kind = .leftParen → Expr.Derivation mode .assignment ts e →
      r.kind = .rightParen → Derivation mode (.statement o) us s →
      Derivation mode (.statement o) (k :: l :: (ts ++ r :: us)) (.whileLoop e s k.loc)
  | forLoop {o : Bool} {k l m r : Token} {is cs ss us : List Token} {start step : Option Stmt}
      {condition : Option Expr} {body round loop : Stmt} :
    k.kind = .kwFor → l.kind = .leftParen → Stmt.ForStart mode is start →
      Expr.Optional mode cs condition → m.kind = .semicolon → Stmt.ForStep mode ss step →
      r.kind = .rightParen → Derivation mode (.statement o) us body →
      round = step.elim body (fun s => .block [body, s] k.loc) →
      loop = .whileLoop (condition.getD (.literal (.bool true) k.loc)) round k.loc →
      Derivation mode (.statement o) (k :: l :: (is ++ (cs ++ m :: (ss ++ r :: us))))
        (start.elim loop fun s => .block [s, loop] k.loc)
  | returnStmt {k s : Token} {ts : List Token} {e : Option Expr} :
    k.kind = .kwReturn → Expr.Optional mode ts e → s.kind = .semicolon →
      Derivation mode (.statement false) (k :: (ts ++ [s])) (.returnStmt e k.loc)

/-- Tokens that form a program: declarations in a row. -/
inductive Program.Derivation (mode : Mode) : List Token → Program → Prop
  | mk {body : List (List Token × Stmt)} :
    (∀ d ∈ body, Stmt.Derivation mode .declaration d.1 d.2) →
      Program.Derivation mode (body.flatMap Prod.fst) (body.map Prod.snd)

/-! ## First tokens -/

/-- The kinds of token that an expression without operators before it begins with. -/
def Expr.primaryStarters : List TokenKind :=
  [.kwFalse, .kwTrue, .kwNil, .number, .string, .identifier, .leftParen]

/-- The kinds of token that an expression begins with. -/
def Expr.starters : List TokenKind := Expr.primaryStarters ++ [.bang, .minus]

/-- The kinds of token that a declaration begins with. -/
def Stmt.starters : List TokenKind :=
  [.kwVar, .kwFun, .kwPrint, .leftBrace, .kwIf, .kwWhile, .kwFor, .kwReturn] ++ Expr.starters

/-- The tokens begin with one of the given kinds. -/
def StartsWith (kinds : List TokenKind) (ts : List Token) : Prop :=
  ∃ t us, ts = t :: us ∧ t.kind ∈ kinds

theorem StartsWith.append {kinds : List TokenKind} {ts : List Token} (h : StartsWith kinds ts)
    (us : List Token) : StartsWith kinds (ts ++ us) := by
  obtain ⟨t, vs, rfl, ht⟩ := h
  exact ⟨t, vs ++ us, rfl, ht⟩

theorem StartsWith.mono {kinds kinds' : List TokenKind} {ts : List Token}
    (h : StartsWith kinds ts) (hk : ∀ k ∈ kinds, k ∈ kinds') : StartsWith kinds' ts := by
  obtain ⟨t, vs, rfl, ht⟩ := h
  exact ⟨t, vs, rfl, hk _ ht⟩

theorem StartsWith.cons {kinds : List TokenKind} {t : Token} (h : t.kind ∈ kinds)
    (ts : List Token) : StartsWith kinds (t :: ts) := ⟨t, ts, rfl, h⟩

theorem Token.value?_kind {t : Token} {v : Value} (h : t.value? = some v) :
    t.kind ∈ Expr.primaryStarters := by
  unfold Token.value? at h
  split at h <;> simp_all [Expr.primaryStarters]

theorem Token.isCallable_of_value? {t : Token} {v : Value} (h : t.value? = some v) :
    v.isCallable = false := by
  unfold Token.value? at h
  split at h <;> cases h <;> rfl

variable {mode : Mode} {ts : List Token}

theorem Expr.Derivation.startsWith {level : Level} {e : Expr}
    (h : Expr.Derivation mode level ts e) : StartsWith Expr.starters ts := by
  induction h with
  | literal hv => exact .cons (List.mem_append_left _ (Token.value?_kind hv)) _
  | name hk | grouping hk => exact .cons (by rw [hk]; decide) _
  | call _ _ _ _ _ _ ih => exact ih.append _
  | unary hk => exact .cons (by rcases hk with hk | hk <;> rw [hk] <;> decide) _
  | joined _ _ _ _ ih => exact ih.append _
  | assignment hk => exact .cons (by rw [hk]; decide) _
  | tighter _ _ ih => exact ih

theorem Expr.Derivation.startsWith_primary {level : Level} {e : Expr}
    (h : Expr.Derivation mode level ts e) (hl : level = .primary ∨ level = .call) :
    StartsWith Expr.primaryStarters ts := by
  induction h with
  | literal hv => exact .cons (Token.value?_kind hv) _
  | name hk | grouping hk => exact .cons (by rw [hk]; decide) _
  | call _ _ _ _ _ _ ih => exact (ih hl).append _
  | unary | assignment => simp at hl
  | joined hk => rcases hl with rfl | rfl <;> cases hk
  | tighter ht _ ih => rcases hl with rfl | rfl <;> cases ht; exact ih (.inl rfl)

theorem Expr.Derivation.ne_nil {level : Level} {e : Expr}
    (h : Expr.Derivation mode level ts e) : ts ≠ [] := by
  obtain ⟨t, us, rfl, _⟩ := h.startsWith
  exact List.cons_ne_nil t us

/-- A bare name is one token, whatever the level. -/
theorem Expr.Derivation.of_reference {level : Level} {name : Name} {distance : Option Nat}
    (h : Expr.Derivation mode level ts (.reference name distance)) :
    ∃ t : Token, ts = [t] ∧ t.kind = .identifier ∧ name = t.named ∧ distance = none := by
  generalize he : Expr.reference name distance = e at h
  induction h with
  | @name t hk =>
    cases he
    exact ⟨t, rfl, hk, rfl, rfl⟩
  | @joined level => cases level <;> cases he
  | tighter _ _ ih => exact ih he
  | _ => cases he

theorem Stmt.VarDeclaration.startsWith {s : Stmt} (h : Stmt.VarDeclaration mode ts s) :
    StartsWith Stmt.starters ts := by
  cases h with
  | plain hk | initialized hk => exact .cons (by rw [hk]; decide) _

theorem Stmt.Expression.startsWith {s : Stmt} (h : Stmt.Expression mode ts s) :
    StartsWith Stmt.starters ts := by
  cases h with
  | mk he => exact (he.startsWith.append _).mono (by decide)

theorem Stmt.Derivation.startsWith {position : Position} {s : Stmt}
    (h : Stmt.Derivation mode position ts s) : StartsWith Stmt.starters ts := by
  induction h with
  | var hv => exact hv.startsWith
  | statement _ ih => exact ih
  | expression he => exact he.startsWith
  | function hk | print hk | block hk | ifThen hk | ifElse hk | whileLoop hk | forLoop hk
  | returnStmt hk => exact .cons (by rw [hk]; decide) _

/-! ## No end of input -/

/-- None of the tokens is the end of the input. -/
def NoEnd (ts : List Token) : Prop := ∀ t ∈ ts, t.isEnd = false

@[simp] theorem noEnd_nil : NoEnd [] := by simp [NoEnd]

@[simp] theorem noEnd_cons {t : Token} : NoEnd (t :: ts) ↔ t.isEnd = false ∧ NoEnd ts := by
  simp [NoEnd]

@[simp] theorem noEnd_append {us : List Token} : NoEnd (ts ++ us) ↔ NoEnd ts ∧ NoEnd us := by
  simp [NoEnd, or_imp, forall_and]

theorem Token.isEnd_of_kind {t : Token} {k : TokenKind} (h : t.kind = k) (hk : k ≠ .endOfInput) :
    t.isEnd = false := by
  rw [Token.isEnd, h]
  exact beq_false_of_ne hk

theorem Token.isEnd_of_mem {t : Token} {kinds : List TokenKind} (h : t.kind ∈ kinds)
    (hk : TokenKind.endOfInput ∉ kinds) : t.isEnd = false :=
  t.isEnd_of_kind rfl fun he => hk (he ▸ h)

theorem CommaSeparated.noEnd {phrases : List (List Token)} (h : CommaSeparated phrases ts)
    (hp : ∀ p ∈ phrases, NoEnd p) : NoEnd ts := by
  induction h with
  | none => exact noEnd_nil
  | one ts => exact hp ts (by simp)
  | cons hk _ ih =>
    simp only [List.forall_mem_cons] at hp
    simp only [noEnd_append, noEnd_cons]
    exact ⟨hp.1, Token.isEnd_of_kind hk nofun, ih (by simpa using hp.2)⟩

theorem CommaSeparated.subset {phrases : List (List Token)} (h : CommaSeparated phrases ts) :
    ∀ phrase ∈ phrases, phrase ⊆ ts := by
  induction h with
  | none => exact nofun
  | one ts => simp
  | cons _ _ ih =>
    intro phrase hphrase
    rcases List.mem_cons.1 hphrase with rfl | hphrase
    · exact List.subset_append_left _ _
    · exact List.Subset.trans (ih phrase hphrase) fun t ht =>
        List.mem_append_right _ (List.mem_cons_of_mem _ ht)

/-- The parameters of a function are among its tokens. -/
theorem CommaSeparated.singletons_subset {ps : List Token}
    (h : CommaSeparated (ps.map fun p => [p]) ts) : ps ⊆ ts :=
  fun p hp => h.subset [p] (List.mem_map_of_mem hp) List.mem_cons_self

theorem noEnd_flatMap {α : Type} {body : List (List Token × α)} (h : ∀ d ∈ body, NoEnd d.1) :
    NoEnd (body.flatMap Prod.fst) := by
  intro t ht
  obtain ⟨d, hd, hd'⟩ := List.mem_flatMap.1 ht
  exact h d hd t hd'

theorem Expr.Derivation.noEnd {level : Level} {e : Expr}
    (h : Expr.Derivation mode level ts e) : NoEnd ts := by
  induction h with
  | literal hv => simpa using Token.isEnd_of_mem (Token.value?_kind hv) (by decide)
  | name hk => simpa using Token.isEnd_of_kind hk nofun
  | grouping hl _ hr ih =>
    simpa using ⟨Token.isEnd_of_kind hl nofun, ih, Token.isEnd_of_kind hr nofun⟩
  | call _ hl _ _ hs hr ih iha =>
    have := hs.noEnd (by simpa using fun a b => iha (a, b))
    simpa using ⟨ih, Token.isEnd_of_kind hl nofun, this, Token.isEnd_of_kind hr nofun⟩
  | unary hk _ ih =>
    simpa using ⟨hk.elim (Token.isEnd_of_kind · nofun) (Token.isEnd_of_kind · nofun), ih⟩
  | @joined level _ _ _ _ _ _ hk _ _ _ ihl ihr =>
    have := Token.isEnd_of_mem hk (by cases level <;> decide)
    simpa using ⟨ihl, this, ihr⟩
  | assignment ht heq _ ih =>
    simpa using ⟨Token.isEnd_of_kind ht nofun, Token.isEnd_of_kind heq nofun, ih⟩
  | tighter _ _ ih => exact ih

theorem Expr.Optional.noEnd {e : Option Expr} (h : Expr.Optional mode ts e) : NoEnd ts := by
  cases h with
  | absent => exact noEnd_nil
  | present he => exact he.noEnd

theorem Stmt.VarDeclaration.noEnd {s : Stmt} (h : Stmt.VarDeclaration mode ts s) : NoEnd ts := by
  cases h with
  | plain hk ht hs =>
    simpa using ⟨Token.isEnd_of_kind hk nofun, Token.isEnd_of_kind ht nofun,
      Token.isEnd_of_kind hs nofun⟩
  | initialized hk ht heq he hs =>
    simpa using ⟨Token.isEnd_of_kind hk nofun, Token.isEnd_of_kind ht nofun,
      Token.isEnd_of_kind heq nofun, he.noEnd, Token.isEnd_of_kind hs nofun⟩

theorem Stmt.Expression.noEnd {s : Stmt} (h : Stmt.Expression mode ts s) : NoEnd ts := by
  cases h with
  | mk he hs => exact noEnd_append.2 ⟨he.noEnd, by simpa using Token.isEnd_of_kind hs nofun⟩

theorem Stmt.ForStart.noEnd {s : Option Stmt} (h : Stmt.ForStart mode ts s) : NoEnd ts := by
  cases h with
  | absent hs => simpa using Token.isEnd_of_kind hs nofun
  | var hv => exact hv.noEnd
  | expression he => exact he.noEnd

theorem Stmt.ForStep.noEnd {s : Option Stmt} (h : Stmt.ForStep mode ts s) : NoEnd ts := by
  cases h with
  | absent => exact noEnd_nil
  | present he => exact he.noEnd

theorem Stmt.Derivation.noEnd {position : Position} {s : Stmt}
    (h : Stmt.Derivation mode position ts s) : NoEnd ts := by
  have kind {t : Token} {k : TokenKind} (ht : t.kind = k) (hk : k ≠ .endOfInput) :
      t.isEnd = false := Token.isEnd_of_kind ht hk
  induction h with
  | var hv => exact hv.noEnd
  | function hk ht hl _ hp hs hr hb _ hc ih =>
    have hps := hs.noEnd (by
      simp only [List.mem_map, forall_exists_index, and_imp]
      rintro _ p hp' rfl
      simpa using kind (hp p hp') nofun)
    simpa using ⟨kind hk nofun, kind ht nofun, kind hl nofun, hps,
      kind hr nofun, kind hb nofun, noEnd_flatMap ih, kind hc nofun⟩
  | statement _ ih => exact ih
  | expression he => exact he.noEnd
  | print hk he hs => simpa using ⟨kind hk nofun, he.noEnd, kind hs nofun⟩
  | block hb _ hc ih => simpa using ⟨kind hb nofun, noEnd_flatMap ih, kind hc nofun⟩
  | ifThen hk hl he hr _ ih | whileLoop hk hl he hr _ ih =>
    simpa using ⟨kind hk nofun, kind hl nofun, he.noEnd, kind hr nofun, ih⟩
  | ifElse hk hl he hr _ hm _ ih ih' =>
    simpa using ⟨kind hk nofun, kind hl nofun, he.noEnd, kind hr nofun, ih,
      kind hm nofun, ih'⟩
  | forLoop hk hl hi hc hm hs hr _ _ _ ih =>
    simpa using ⟨kind hk nofun, kind hl nofun, hi.noEnd, hc.noEnd, kind hm nofun,
      hs.noEnd, kind hr nofun, ih⟩
  | returnStmt hk he hs => simpa using ⟨kind hk nofun, he.noEnd, kind hs nofun⟩

theorem Program.Derivation.noEnd {p : Program} (h : Program.Derivation mode ts p) : NoEnd ts := by
  cases h with
  | mk hd => exact noEnd_flatMap fun d hm => (hd d hm).noEnd

end Lox
