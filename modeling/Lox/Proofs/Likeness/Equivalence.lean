import Lox.Proofs.Likeness.Parallel
import Lox.Proofs.Number.Order

/-!
# Similarity is an equivalence

`Program.similar` compares two programs node by node. Programs are similar if and only if they are
parallel with equal literals (`Program.similar_iff`). The equality of the language is symmetric and
transitive on literals, and a literal equals itself unless it is not a number; the same then holds of
programs, and programs that are similar have the same text.
-/

namespace Lox

/-! ## Equal values -/

namespace Value

/-- A number whose bits are those of no number. -/
def isNaN : Value → Bool
  | .number x => x.isNaN
  | _ => false

/-- A handle is what a table has under its identity: one table is of the functions of scripts, the other of
those of the host. -/
def HandleOf (functions natives : Nat → Callable) : Value → Prop
  | .function f => functions f.id = f
  | .native f => natives f.id = f
  | _ => True

/-- The equality of the language, as a relation. -/
def Equal (v w : Value) : Prop := v.equal w = true

variable {u v w : Value}

theorem equal_self (v : Value) : v.equal v = !v.isNaN := by
  cases v with
  | number x => exact x.equal_self
  | _ => simp [equal, isNaN]

theorem equal_trans (h : u.equal v = true) (h' : v.equal w = true) : u.equal w = true := by
  cases u <;> cases v <;> try cases h
  all_goals cases w <;> try cases h'
  case number.number.number => exact Number.equal_trans h h'
  all_goals simp_all [equal]

/-- Equal literals have the same text, if those that are handles are what the tables have. -/
theorem literalText_eq_of_equal {functions natives : Nat → Callable} (h : v.equal w = true)
    (hv : v.HandleOf functions natives) (hw : w.HandleOf functions natives) :
    v.literalText = w.literalText := by
  cases v <;> cases w <;> try cases h
  case nil.nil => rfl
  case bool.bool => rw [beq_iff_eq.1 h]
  case number.number => exact Number.literal_eq_of_equal h
  case string.string => rw [beq_iff_eq.1 h]
  case function.function f g =>
    have hfg : f = g := by rw [← hv, ← hw, beq_iff_eq.1 h]
    rw [hfg]
  case native.native f g =>
    have hfg : f = g := by rw [← hv, ← hw, beq_iff_eq.1 h]
    rw [hfg]

end Value

/-! ## Similar trees are parallel -/

theorem Operator.similar_iff {p q : Operator} : p.similar q = true ↔ p.content = q.content := by
  simp only [similar, content, Bool.and_eq_true, beq_iff_eq, Prod.mk.injEq]

theorem Name.similar_iff {m n : Name} : m.similar n = true ↔ m.text = n.text := beq_iff_eq

theorem Name.allSimilar_iff {as bs : List Name} :
    allSimilar as bs = true ↔ as.map Name.text = bs.map Name.text := by
  induction as generalizing bs with
  | nil => cases bs <;> simp [allSimilar]
  | cons a as ih => cases bs <;> simp [allSimilar, ih, Name.similar_iff]

theorem Expr.allSimilar_iff {as bs : List Expr} :
    allSimilar as bs = true ↔ List.Forall₂ (fun a b => a.similar b = true) as bs := by
  induction as generalizing bs with
  | nil => cases bs <;> simp [allSimilar]
  | cons a as ih => cases bs <;> simp [allSimilar, ih]

theorem Stmt.allSimilar_iff {as bs : List Stmt} :
    allSimilar as bs = true ↔ List.Forall₂ (fun a b => a.similar b = true) as bs := by
  induction as generalizing bs with
  | nil => cases bs <;> simp [allSimilar]
  | cons a as ih => cases bs <;> simp [allSimilar, ih]

theorem Expr.parallel_of_similar :
    (∀ a b : Expr, a.similar b = true → a.Parallel Value.Equal b) ∧
      ∀ as bs, allSimilar as bs = true → List.Forall₂ (Parallel Value.Equal) as bs := by
  apply Expr.similar.mutual_induct
  case case1 => exact fun _ _ _ _ h => .literal h
  case case2 => exact fun _ _ _ _ ih h => .grouping (ih h)
  case case3 =>
    intro p a q b ih h
    rw [similar, Bool.and_eq_true] at h
    exact .unary (Operator.similar_iff.1 h.1) (ih h.2)
  case case4 =>
    intro p a c q b d ih ih' h
    rw [similar, Bool.and_eq_true, Bool.and_eq_true] at h
    exact .binary (Operator.similar_iff.1 h.1.1) (ih h.1.2) (ih' h.2)
  case case5 =>
    intro p a c q b d ih ih' h
    rw [similar, Bool.and_eq_true, Bool.and_eq_true] at h
    exact .logical (Operator.similar_iff.1 h.1.1) (ih h.1.2) (ih' h.2)
  case case6 => exact fun _ _ _ _ h => .reference (Name.similar_iff.1 h)
  case case7 =>
    intro m d a n d' b ih h
    rw [similar, Bool.and_eq_true] at h
    exact .assign (Name.similar_iff.1 h.1) (ih h.2)
  case case8 =>
    intro f as l g bs l' ih ihs h
    rw [similar, Bool.and_eq_true] at h
    exact .call (ih h.1) (ihs h.2)
  case case9 =>
    -- expressions of different sorts
    intro a b _ _ _ _ _ _ _ _ h
    rw [similar] at h
    · cases h
    all_goals assumption
  case case10 => exact fun _ => .nil
  case case11 =>
    intro a as b bs ih ihs h
    rw [allSimilar, Bool.and_eq_true] at h
    exact .cons (ih h.1) (ihs h.2)
  case case12 =>
    -- lists of different lengths
    intro as bs _ _ h
    rw [allSimilar] at h
    · cases h
    all_goals assumption

theorem Expr.Parallel.similar {a b : Expr} (h : a.Parallel Value.Equal b) : a.similar b = true := by
  induction h using Expr.Parallel.induct with
  | literal hv => exact hv
  | grouping _ ih => exact ih
  | unary hp _ ih => exact Bool.and_eq_true_iff.2 ⟨Operator.similar_iff.2 hp, ih⟩
  | binary hp _ _ ih ih' | logical hp _ _ ih ih' =>
    exact Bool.and_eq_true_iff.2 ⟨Bool.and_eq_true_iff.2 ⟨Operator.similar_iff.2 hp, ih⟩, ih'⟩
  | reference hm => exact Name.similar_iff.2 hm
  | assign hm _ ih => exact Bool.and_eq_true_iff.2 ⟨Name.similar_iff.2 hm, ih⟩
  | call _ _ ih ihs =>
    exact Bool.and_eq_true_iff.2 ⟨ih, allSimilar_iff.2 (forall₂_of_exists ihs)⟩

/-- Expressions are similar if and only if they are parallel with equal literals. -/
theorem Expr.similar_iff {a b : Expr} : a.similar b = true ↔ a.Parallel Value.Equal b :=
  ⟨Expr.parallel_of_similar.1 a b, Expr.Parallel.similar⟩

theorem Expr.optionSimilar_iff {a b : Option Expr} :
    optionSimilar a b = true ↔ Option.Rel (Expr.Parallel Value.Equal) a b := by
  cases a <;> cases b <;> simp [optionSimilar, Expr.similar_iff]

theorem Stmt.parallel_of_similar :
    (∀ a b : Stmt, a.similar b = true → a.Parallel Value.Equal b) ∧
      ∀ as bs, allSimilar as bs = true → List.Forall₂ (Parallel Value.Equal) as bs := by
  apply Stmt.similar.mutual_induct
  case case1 => exact fun _ _ _ _ h => .expression (Expr.similar_iff.1 h)
  case case2 => exact fun _ _ _ _ h => .print (Expr.similar_iff.1 h)
  case case3 =>
    intro m a n b h
    rw [similar, Bool.and_eq_true] at h
    exact .var (Name.similar_iff.1 h.1) (Expr.optionSimilar_iff.1 h.2)
  case case4 => exact fun _ _ _ _ ihs h => .block (ihs h)
  case case5 =>
    intro c a l d b l' ih h
    rw [similar, Bool.and_eq_true] at h
    exact .ifThen (Expr.similar_iff.1 h.1) (ih h.2)
  case case6 =>
    intro c a x l d b y l' ih ih' h
    rw [similar, Bool.and_eq_true, Bool.and_eq_true] at h
    exact .ifElse (Expr.similar_iff.1 h.1.1) (ih h.1.2) (ih' h.2)
  case case7 =>
    intro c a l d b l' ih h
    rw [similar, Bool.and_eq_true] at h
    exact .whileLoop (Expr.similar_iff.1 h.1) (ih h.2)
  case case8 =>
    intro m ps as n qs bs ihs h
    rw [similar, Bool.and_eq_true, Bool.and_eq_true] at h
    exact .function (Name.similar_iff.1 h.1.1) (Name.allSimilar_iff.1 h.1.2) (ihs h.2)
  case case9 => exact fun _ _ _ _ h => .returnStmt (Expr.optionSimilar_iff.1 h)
  case case10 =>
    -- statements of different sorts
    intro a b _ _ _ _ _ _ _ _ _ h
    rw [similar] at h
    · cases h
    all_goals assumption
  case case11 => exact fun _ => .nil
  case case12 =>
    intro a as b bs ih ihs h
    rw [allSimilar, Bool.and_eq_true] at h
    exact .cons (ih h.1) (ihs h.2)
  case case13 =>
    -- lists of different lengths
    intro as bs _ _ h
    rw [allSimilar] at h
    · cases h
    all_goals assumption

theorem Stmt.Parallel.similar {a b : Stmt} (h : a.Parallel Value.Equal b) : a.similar b = true := by
  induction h using Stmt.Parallel.induct with
  | expression h | print h => exact Expr.similar_iff.2 h
  | var hm h => exact Bool.and_eq_true_iff.2 ⟨Name.similar_iff.2 hm, Expr.optionSimilar_iff.2 h⟩
  | block _ ihs => exact allSimilar_iff.2 (forall₂_of_exists ihs)
  | ifThen hc _ ih | whileLoop hc _ ih => exact Bool.and_eq_true_iff.2 ⟨Expr.similar_iff.2 hc, ih⟩
  | ifElse hc _ _ ih ih' =>
    exact Bool.and_eq_true_iff.2 ⟨Bool.and_eq_true_iff.2 ⟨Expr.similar_iff.2 hc, ih⟩, ih'⟩
  | function hm hps _ ihs =>
    exact Bool.and_eq_true_iff.2 ⟨Bool.and_eq_true_iff.2 ⟨Name.similar_iff.2 hm,
      Name.allSimilar_iff.2 hps⟩, allSimilar_iff.2 (forall₂_of_exists ihs)⟩
  | returnStmt h => exact Expr.optionSimilar_iff.2 h

/-- Programs are similar if and only if they are parallel with equal literals. -/
theorem Program.similar_iff {p q : Program} : p.similar q = true ↔ p.Parallel Value.Equal q :=
  ⟨Stmt.parallel_of_similar.2 p q,
    fun h => Stmt.allSimilar_iff.2 (h.imp fun _ _ => Stmt.Parallel.similar)⟩

/-! ## The text of parallel trees -/

section Text

variable {V : Value → Value → Prop}

theorem Operator.lexeme_eq_of_content {p q : Operator} (h : p.content = q.content) :
    p.lexeme = q.lexeme :=
  (Prod.mk.inj h).2

theorem Expr.Parallel.text_eq (hV : ∀ v w, V v w → v.literalText = w.literalText) {a b : Expr}
    (h : a.Parallel V b) : a.text = b.text := by
  induction h using Expr.Parallel.induct with
  | literal hv => exact hV _ _ hv
  | grouping _ ih => rw [text, text, ih]
  | unary hp _ ih => rw [text, text, Operator.lexeme_eq_of_content hp, ih]
  | binary hp _ _ ih ih' | logical hp _ _ ih ih' =>
    rw [text, text, Operator.lexeme_eq_of_content hp, ih, ih']
  | reference hm => exact hm
  | assign hm _ ih => rw [text, text, hm, ih]
  | @call f g as bs _ _ _ _ ih ihs =>
    have hargs : as.map text = bs.map text := by
      rw [← List.forall₂_eq_eq_eq, List.forall₂_map_left_iff, List.forall₂_map_right_iff]
      exact forall₂_of_exists ihs
    rw [text, text, ih, texts_eq_map, texts_eq_map, hargs]

theorem Stmt.linesAt_eq_of_forall₂ {as bs : List Stmt} {depth : Nat}
    (h : List.Forall₂ (fun a b => a.textAt depth = b.textAt depth) as bs) :
    linesAt depth as = linesAt depth bs := by
  induction h with
  | nil => rfl
  | cons hs _ ih => rw [linesAt, linesAt, hs, ih]

theorem Stmt.Parallel.textAt_eq (hV : ∀ v w, V v w → v.literalText = w.literalText) {a b : Stmt}
    (h : a.Parallel V b) (depth : Nat) : a.textAt depth = b.textAt depth := by
  induction h using Stmt.Parallel.induct generalizing depth with
  | expression h | print h => rw [textAt, textAt, h.text_eq hV]
  | var hm h =>
    cases h with
    | none => rw [textAt, textAt, hm]
    | some h => rw [textAt, textAt, hm, h.text_eq hV]
  | block _ ihs =>
    have hlines := linesAt_eq_of_forall₂ ((forall₂_of_exists ihs).imp fun _ _ h => h (depth + 1))
    rw [textAt, textAt, hlines]
  | ifThen hc _ ih | whileLoop hc _ ih => rw [textAt, textAt, hc.text_eq hV, ih]
  | ifElse hc _ _ ih ih' => rw [textAt, textAt, hc.text_eq hV, ih, ih']
  | function hm hps _ ihs =>
    have hlines := linesAt_eq_of_forall₂ ((forall₂_of_exists ihs).imp fun _ _ h => h (depth + 1))
    rw [textAt, textAt, hm, hps, hlines]
  | returnStmt h =>
    cases h with
    | none => rfl
    | some h => rw [textAt, textAt, h.text_eq hV]

/-- Parallel programs have the same text if related literals have. -/
theorem Program.Parallel.text_eq (hV : ∀ v w, V v w → v.literalText = w.literalText)
    {p q : Program} (h : p.Parallel V q) : p.text = q.text :=
  Stmt.linesAt_eq_of_forall₂ (h.imp fun _ _ hs => hs.textAt_eq hV 0)

end Text

/-! ## Similarity is an equivalence -/

namespace Program

theorem similar_comm (p q : Program) : p.similar q = q.similar p := by
  rw [Bool.eq_iff_iff, similar_iff, similar_iff]
  have hcomm (v w : Value) (h : v.Equal w) : w.Equal v := by
    rw [Value.Equal, Value.equal_comm]
    exact h
  exact ⟨Parallel.symm hcomm, Parallel.symm hcomm⟩

theorem similar_trans {p q r : Program} (h : p.similar q = true) (h' : q.similar r = true) :
    p.similar r = true := by
  refine similar_iff.2 (Parallel.trans ?_ (similar_iff.1 h) (similar_iff.1 h'))
  exact fun _ _ _ => Value.equal_trans

/-- Programs with the same outline are similar to the same programs. -/
theorem similar_iff_of_outline {p p' q : Program} (h : p.outline id = p'.outline id) :
    p.similar q = true ↔ p'.similar q = true := by
  have hleft {p p' : Program} (h : p.outline id = p'.outline id) (hq : p.similar q = true) :
      p'.similar q = true := by
    refine similar_iff.2 (Parallel.trans ?_ (parallel_of_outline h.symm) (similar_iff.1 hq))
    rintro u v w rfl hvw
    exact hvw
  exact ⟨hleft h, hleft h.symm⟩

/-- A program is similar to itself if and only if no literal of it is not a number. -/
theorem similar_self_iff (p : Program) :
    p.similar p = true ↔ (Node.program p).Literals (·.isNaN = false) := by
  have hself (v : Value) : v.Equal v ↔ v.isNaN = false := by
    rw [Value.Equal, Value.equal_self, Bool.not_eq_true']
  constructor
  · intro h a v loc hat
    obtain ⟨d, hd, hparallel⟩ := Node.Parallel.at? (.program (similar_iff.1 h)) hat
    cases hat.symm.trans hd
    cases hparallel with
    | expr h =>
      cases h with
      | literal hv => exact (hself v).1 hv
  · intro h
    refine similar_iff.2 (Parallel.weaken ?_ (parallel_of_outline (p := p) rfl) h)
    rintro v w hv rfl
    exact (hself v).2 hv

theorem text_eq_of_similar {functions natives : Nat → Callable} {p q : Program}
    (h : p.similar q = true) (hp : (Node.program p).Literals (·.HandleOf functions natives))
    (hq : (Node.program q).Literals (·.HandleOf functions natives)) : p.text = q.text := by
  -- the tables hold for both programs, so for both sides of every pair of literals
  have hleft : p.Parallel (fun v w => v.equal w = true ∧ v.HandleOf functions natives) q :=
    (similar_iff.1 h).weaken (fun _ _ hv h => ⟨h, hv⟩) hp
  have hflip : q.Parallel (fun w v => v.equal w = true ∧ v.HandleOf functions natives) p :=
    hleft.symm fun _ _ h => h
  have hright : q.Parallel (fun w v => v.literalText = w.literalText) p :=
    hflip.weaken (fun _ _ (hw : Value.HandleOf functions natives _) h =>
      Value.literalText_eq_of_equal h.1 h.2 hw) hq
  exact (hright.text_eq fun _ _ h => h.symm).symm

end Program

/-- **Similarity is an equivalence that printing respects.** It is symmetric and transitive, and it is
reflexive on the programs without a literal that is not a number, and on no others. It sees neither
locations nor distances: programs that have the same outlines can stand for each other on both sides.
Programs that are similar have the same text, if a handle in them stands for one callable only. -/
theorem Program.similar_equivalence :
    (∀ p q : Program, p.similar q = q.similar p) ∧
      (∀ p q r : Program, p.similar q = true → q.similar r = true → p.similar r = true) ∧
      (∀ p : Program, p.similar p = true ↔ (Node.program p).Literals (·.isNaN = false)) ∧
      (∀ p p' q q' : Program, p.outline id = p'.outline id → q.outline id = q'.outline id →
        p.similar q = p'.similar q') ∧
      ∀ (functions natives : Nat → Callable) (p q : Program),
        (Node.program p).Literals (·.HandleOf functions natives) →
        (Node.program q).Literals (·.HandleOf functions natives) →
        p.similar q = true → p.text = q.text := by
  refine ⟨similar_comm, fun _ _ _ => similar_trans, similar_self_iff, ?_,
    fun _ _ _ _ hp hq h => text_eq_of_similar h hp hq⟩
  intro p p' q q' hp hq
  calc p.similar q = p'.similar q := Bool.eq_iff_iff.2 (similar_iff_of_outline hp)
    _ = q.similar p' := similar_comm p' q
    _ = q'.similar p' := Bool.eq_iff_iff.2 (similar_iff_of_outline hq)
    _ = p'.similar q' := similar_comm q' p'

/-- What the literals at and below a node are, from those at the node and below its children. -/
theorem Node.literals_of_children {P : Value → Prop} {n : Node}
    (hn : ∀ v l, n = .expr (.literal v l) → P v) (h : ∀ c ∈ n.children, c.Literals P) :
    n.Literals P := by
  intro a v loc hat
  cases a with
  | nil => exact hn v loc (Option.some.inj hat)
  | cons i a =>
    obtain ⟨c, hc, hat⟩ := Option.bind_eq_some_iff.1 hat
    exact h c (List.mem_of_getElem? hc) a v loc hat

/-- A function of a script. -/
def greeter : Callable := ⟨3, utf8 "greet", 2⟩

/-- Prints what the function gives for a number and a variable. -/
def greeting (x : Number) (loc : Location) (distance : Option Nat) : Program :=
  [.print (.call (.literal (.function greeter) loc)
    [.literal (.number x) loc, .reference ⟨utf8 "name", loc⟩ distance] loc) loc]

theorem literals_greeting {P : Value → Prop} (x : Number) (loc : Location) (distance : Option Nat)
    (hf : P (.function greeter)) (hx : P (.number x)) :
    (Node.program (greeting x loc distance)).Literals P := by
  refine Node.literals_of_children nofun ?_
  simp only [Node.children, greeting, List.map_cons, List.map_nil, List.forall_mem_singleton]
  refine Node.literals_of_children nofun ?_
  simp only [Node.children, Stmt.children, List.forall_mem_singleton]
  refine Node.literals_of_children nofun ?_
  simp only [Node.children, Expr.children, List.map_cons, List.map_nil, List.forall_mem_cons]
  refine ⟨?_, ?_, ?_, List.forall_mem_nil _⟩
  all_goals refine Node.literals_of_children ?_ (List.forall_mem_nil _)
  · rintro v l ⟨rfl, rfl⟩
    exact hf
  · rintro v l ⟨rfl, rfl⟩
    exact hx
  · exact nofun

/-- The two zeros are equal, and wherever the two calls stand they are printed as the same text. -/
theorem similar_equivalence_zeros :
    let p := greeting .zero .start none
    let q := greeting (.ofMagnitude true 0) .nowhere (some 1)
    p.similar q = true ∧ q.similar p = true ∧ p.similar p = true ∧
      p.similar q = Program.similar (greeting .zero .nowhere (some 2)) q ∧ p.text = q.text := by
  intro p q
  obtain ⟨hcomm, htrans, hself, houtline, htext⟩ := Program.similar_equivalence
  have hpq : p.similar q = true := by decide
  have hhandle {x : Number} {loc : Location} {distance : Option Nat} :
      (Node.program (greeting x loc distance)).Literals
        (·.HandleOf (fun _ => greeter) fun _ => greeter) :=
    literals_greeting x loc distance rfl trivial
  have hpp : p.similar p = true := (hself p).2 (literals_greeting _ _ _ rfl (by decide))
  exact ⟨hpq, htrans q p p (hcomm p q ▸ hpq) hpp, hpp, houtline p _ q q rfl rfl,
    htext _ _ p q hhandle hhandle hpq⟩

end Lox
