import Lox.Proofs.Grammar.Nodes
import Lox.Proofs.Likeness.Machine
import Lox.Proofs.Printing.Program
import Lox.Program.Similar

/-!
# Similar programs are alike

`Program.similar` compares literals by the equality of the language, which takes the two zeros for
equal. Where that tells literals apart, statements that are similar are alike
(`Stmt.alike_of_similar`), and every parsed program is like itself (`parse_alike_self`).
-/

namespace Lox

variable {L : Placing}

/-! ## Literals -/

namespace Node

/-- The literals at or below a node have a property. -/
def Literals (P : Value → Prop) (n : Node) : Prop :=
  ∀ a v loc, n.at? a = some (.expr (.literal v loc)) → P v

variable {P : Value → Prop} {n c : Node}

theorem Literals.child (h : n.Literals P) (hc : c ∈ n.children) : c.Literals P := by
  intro a v loc hat
  obtain ⟨i, hi⟩ := List.mem_iff_getElem?.1 hc
  refine h (i :: a) v loc ?_
  rw [at?, hi]
  exact hat

end Node

/-! ## Literals of parsed programs -/

/-- The values that tokens stand for have a property. -/
def TokenValues (P : Value → Prop) (ts : List Token) : Prop :=
  ∀ t ∈ ts, ∀ v, t.value? = some v → P v

/-- What the literals of a parsed program are. -/
theorem parse_literals {P : Value → Prop} (htrue : P (.bool true)) {ts : List Token}
    (hts : TokenValues P ts) : (Node.program (parse ts).program).Literals P := by
  intro a v loc hat
  obtain ⟨t, ht, -, -, hvalue⟩ := parse_madeFrom ts a _ hat
  rcases hvalue v loc rfl with hv | rfl
  · exact hts t ht v hv
  · exact htrue

/-! ## A program is like itself -/

/-- The literals at or below a node are no functions. -/
abbrev Node.Plain (n : Node) : Prop := n.Literals (·.isCallable = false)

theorem Name.Alike.refl (hL : ∀ l, L l l) (name : Name) : name.Alike L name := ⟨rfl, hL name.loc⟩

theorem Operator.Alike.refl (hL : ∀ l, L l l) (op : Operator) : op.Alike L op :=
  ⟨rfl, rfl, hL op.loc⟩

theorem Node.Literals.operand {P : Value → Prop} {e c : Expr} (h : (Node.expr e).Literals P)
    (hc : c ∈ e.children) : (Node.expr c).Literals P :=
  h.child (List.mem_map_of_mem hc)

theorem Node.Literals.inner {P : Value → Prop} {s : Stmt} {c : Node} (h : (Node.stmt s).Literals P)
    (hc : c ∈ s.children) : c.Literals P :=
  h.child hc

mutual

theorem Expr.Alike.refl (hL : ∀ l, L l l) {e : Expr} (h : (Node.expr e).Plain) : e.Alike L e := by
  have hfirst {c : Expr} {cs : List Expr} (hc : e.children = c :: cs) : (Node.expr c).Plain :=
    h.operand (hc ▸ List.mem_cons_self)
  cases e with
  | literal v l => exact .literal (h [] v l rfl) (hL l)
  | grouping e l => exact .grouping (Expr.Alike.refl hL (hfirst rfl)) (hL l)
  | unary op e => exact .unary (.refl hL op) (Expr.Alike.refl hL (hfirst rfl))
  | binary op l r =>
    have hr : (Node.expr r).Plain := h.operand (by simp [children])
    exact .binary (.refl hL op) (Expr.Alike.refl hL (hfirst rfl)) (Expr.Alike.refl hL hr)
  | logical op l r =>
    have hr : (Node.expr r).Plain := h.operand (by simp [children])
    exact .logical (.refl hL op) (Expr.Alike.refl hL (hfirst rfl)) (Expr.Alike.refl hL hr)
  | reference name d => exact .reference (.refl hL name)
  | assign name d e => exact .assign (.refl hL name) (Expr.Alike.refl hL (hfirst rfl))
  | call f args l =>
    have hargs : ∀ e ∈ args, (Node.expr e).Plain := fun c hc => h.operand (List.mem_cons_of_mem f hc)
    exact .calls (Expr.Alike.refl hL (hfirst rfl)) (Expr.forall₂_alike_self hL hargs) (hL l)

theorem Expr.forall₂_alike_self (hL : ∀ l, L l l) {es : List Expr}
    (h : ∀ e ∈ es, (Node.expr e).Plain) : List.Forall₂ (Expr.Alike L) es es := by
  cases es with
  | nil => exact .nil
  | cons e es =>
    exact .cons (Expr.Alike.refl hL (h e List.mem_cons_self))
      (Expr.forall₂_alike_self hL fun c hc => h c (List.mem_cons_of_mem e hc))

end

theorem Expr.OptionAlike.refl (hL : ∀ l, L l l) {e : Option Expr}
    (h : ∀ c ∈ (e.map Node.expr).toList, c.Plain) : Expr.OptionAlike L e e := by
  cases e with
  | none => exact .none
  | some e => exact .some (Expr.Alike.refl hL (h _ (by simp)))

mutual

theorem Stmt.Alike.refl (hL : ∀ l, L l l) {s : Stmt} (h : (Node.stmt s).Plain) : s.Alike L s := by
  cases s with
  | expression e l => exact .expression (Expr.Alike.refl hL (h.inner List.mem_cons_self)) (hL l)
  | print e l => exact .print (Expr.Alike.refl hL (h.inner List.mem_cons_self)) (hL l)
  | var name e => exact .var (.refl hL name) (Expr.OptionAlike.refl hL fun _ hc => h.inner hc)
  | block body l =>
    exact .blocks (Stmt.forall₂_alike_self hL fun _ hs => h.inner (List.mem_map_of_mem hs)) (hL l)
  | ifThen c s l =>
    exact .ifThen (Expr.Alike.refl hL (h.inner List.mem_cons_self))
      (Stmt.Alike.refl hL (h.inner (by simp [children]))) (hL l)
  | ifElse c s o l =>
    exact .ifElse (Expr.Alike.refl hL (h.inner List.mem_cons_self))
      (Stmt.Alike.refl hL (h.inner (by simp [children])))
      (Stmt.Alike.refl hL (h.inner (by simp [children]))) (hL l)
  | whileLoop c s l =>
    exact .whileLoop (Expr.Alike.refl hL (h.inner List.mem_cons_self))
      (Stmt.Alike.refl hL (h.inner (by simp [children]))) (hL l)
  | function name params body =>
    exact .functions (.refl hL name) (List.forall₂_same.2 fun p _ => .refl hL p)
      (Stmt.forall₂_alike_self hL fun _ hs => h.inner (List.mem_map_of_mem hs))
  | returnStmt e l => exact .returnStmt (Expr.OptionAlike.refl hL fun _ hc => h.inner hc) (hL l)

theorem Stmt.forall₂_alike_self (hL : ∀ l, L l l) {body : List Stmt}
    (h : ∀ s ∈ body, (Node.stmt s).Plain) : List.Forall₂ (Stmt.Alike L) body body := by
  cases body with
  | nil => exact .nil
  | cons s body =>
    exact .cons (Stmt.Alike.refl hL (h s List.mem_cons_self))
      (Stmt.forall₂_alike_self hL fun c hc => h c (List.mem_cons_of_mem s hc))

end

theorem parse_plain (ts : List Token) : (Node.program (parse ts).program).Plain :=
  @parse_literals (·.isCallable = false) rfl ts fun _ _ _ hv => Token.isCallable_of_value? hv

/-- A parsed program is like itself. -/
theorem parse_alike_self (hL : ∀ l, L l l) (ts : List Token) :
    Program.Alike L (parse ts).program (parse ts).program :=
  Stmt.forall₂_alike_self hL fun _ hs => (parse_plain ts).child (List.mem_map_of_mem hs)

/-! ## Similar programs -/

/-- Two literals with the property that are equal are the same, and no functions. -/
def Distinguishes (P : Value → Prop) : Prop :=
  ∀ v w, P v → P w → v.equal w = true → v = w ∧ v.isCallable = false

section Similar

variable {P : Value → Prop}

theorem Name.alike_of_similar {a b : Name} (h : a.similar b = true) : a.Alike anywhere b :=
  ⟨beq_iff_eq.1 h, trivial⟩

theorem Operator.alike_of_similar {p q : Operator} (h : p.similar q = true) :
    p.Alike anywhere q := by
  rw [similar, Bool.and_eq_true] at h
  exact ⟨beq_iff_eq.1 h.1, beq_iff_eq.1 h.2, trivial⟩

theorem Name.forall₂_alike_of_similar {as bs : List Name} (h : allSimilar as bs = true) :
    List.Forall₂ (Name.Alike anywhere) as bs := by
  induction as generalizing bs with
  | nil => cases bs with
    | nil => exact .nil
    | cons => cases h
  | cons a as ih => cases bs with
    | nil => cases h
    | cons b bs =>
      rw [allSimilar, Bool.and_eq_true] at h
      exact .cons (alike_of_similar h.1) (ih h.2)

mutual

theorem Expr.alike_of_similar (hP : Distinguishes P) {e e' : Expr} (he : (Node.expr e).Literals P)
    (he' : (Node.expr e').Literals P) (h : e.similar e' = true) :
    e.unbind.Alike anywhere e'.unbind := by
  cases e with
  | literal v l =>
    cases e' with
    | literal w l' =>
      obtain ⟨rfl, hv⟩ := hP v w (he [] v l rfl) (he' [] w l' rfl) h
      exact .literal hv trivial
    | _ => cases h
  | grouping a l =>
    cases e' with
    | grouping b l' =>
      have ha := Expr.alike_of_similar hP (he.operand (c := a) (by simp [children]))
        (he'.operand (c := b) (by simp [children])) h
      exact .grouping ha trivial
    | _ => cases h
  | unary p a =>
    cases e' with
    | unary q b =>
      rw [similar, Bool.and_eq_true] at h
      have ha := Expr.alike_of_similar hP (he.operand (c := a) (by simp [children]))
        (he'.operand (c := b) (by simp [children])) h.2
      exact .unary (Operator.alike_of_similar h.1) ha
    | _ => cases h
  | binary p a c =>
    cases e' with
    | binary q b d =>
      rw [similar, Bool.and_eq_true, Bool.and_eq_true] at h
      have ha := Expr.alike_of_similar hP (he.operand (c := a) (by simp [children]))
        (he'.operand (c := b) (by simp [children])) h.1.2
      have hc := Expr.alike_of_similar hP (he.operand (c := c) (by simp [children]))
        (he'.operand (c := d) (by simp [children])) h.2
      exact .binary (Operator.alike_of_similar h.1.1) ha hc
    | _ => cases h
  | logical p a c =>
    cases e' with
    | logical q b d =>
      rw [similar, Bool.and_eq_true, Bool.and_eq_true] at h
      have ha := Expr.alike_of_similar hP (he.operand (c := a) (by simp [children]))
        (he'.operand (c := b) (by simp [children])) h.1.2
      have hc := Expr.alike_of_similar hP (he.operand (c := c) (by simp [children]))
        (he'.operand (c := d) (by simp [children])) h.2
      exact .logical (Operator.alike_of_similar h.1.1) ha hc
    | _ => cases h
  | reference m d =>
    cases e' with
    | reference n d' => exact .reference (Name.alike_of_similar h)
    | _ => cases h
  | assign m d a =>
    cases e' with
    | assign n d' b =>
      rw [similar, Bool.and_eq_true] at h
      have ha := Expr.alike_of_similar hP (he.operand (c := a) (by simp [children]))
        (he'.operand (c := b) (by simp [children])) h.2
      exact .assign (Name.alike_of_similar h.1) ha
    | _ => cases h
  | call f as l =>
    cases e' with
    | call g bs l' =>
      rw [similar, Bool.and_eq_true] at h
      have hf := Expr.alike_of_similar hP (he.operand (c := f) (by simp [children]))
        (he'.operand (c := g) (by simp [children])) h.1
      have hargs := Expr.forall₂_alike_of_similar hP
        (fun a ha => he.operand (List.mem_cons_of_mem f ha))
        (fun b hb => he'.operand (List.mem_cons_of_mem g hb)) h.2
      rw [unbind, unbind, unbindAll_eq_map, unbindAll_eq_map]
      exact .calls hf hargs trivial
    | _ => cases h

theorem Expr.forall₂_alike_of_similar (hP : Distinguishes P) {es es' : List Expr}
    (he : ∀ e ∈ es, (Node.expr e).Literals P) (he' : ∀ e ∈ es', (Node.expr e).Literals P)
    (h : allSimilar es es' = true) :
    List.Forall₂ (Expr.Alike anywhere) (es.map unbind) (es'.map unbind) := by
  cases es with
  | nil =>
    cases es' with
    | nil => exact .nil
    | cons => cases h
  | cons e es =>
    cases es' with
    | nil => cases h
    | cons e' es' =>
      rw [allSimilar, Bool.and_eq_true] at h
      exact .cons (Expr.alike_of_similar hP (he e List.mem_cons_self) (he' e' List.mem_cons_self) h.1)
        (Expr.forall₂_alike_of_similar hP (fun a ha => he a (List.mem_cons_of_mem e ha))
          (fun b hb => he' b (List.mem_cons_of_mem e' hb)) h.2)

end

theorem Expr.optionAlike_of_similar (hP : Distinguishes P) {e e' : Option Expr}
    (he : ∀ c ∈ (e.map Node.expr).toList, c.Literals P)
    (he' : ∀ c ∈ (e'.map Node.expr).toList, c.Literals P) (h : optionSimilar e e' = true) :
    Expr.OptionAlike anywhere (e.map unbind) (e'.map unbind) := by
  cases e with
  | none =>
    cases e' with
    | none => exact .none
    | some => cases h
  | some e =>
    cases e' with
    | none => cases h
    | some e' => exact .some (Expr.alike_of_similar hP (he _ (by simp)) (he' _ (by simp)) h)

mutual

theorem Stmt.alike_of_similar (hP : Distinguishes P) {s s' : Stmt} (hs : (Node.stmt s).Literals P)
    (hs' : (Node.stmt s').Literals P) (h : s.similar s' = true) :
    s.unbind.Alike anywhere s'.unbind := by
  -- the condition of a statement, and a statement in it
  have expr {a b : Expr} (ha : .expr a ∈ s.children) (hb : .expr b ∈ s'.children)
      (hab : a.similar b = true) : a.unbind.Alike anywhere b.unbind :=
    Expr.alike_of_similar hP (hs.inner ha) (hs'.inner hb) hab
  cases s with
  | expression a l =>
    cases s' with
    | expression b l' => exact .expression (expr (by simp [children]) (by simp [children]) h) trivial
    | _ => cases h
  | print a l =>
    cases s' with
    | print b l' => exact .print (expr (by simp [children]) (by simp [children]) h) trivial
    | _ => cases h
  | var m a =>
    cases s' with
    | var n b =>
      rw [similar, Bool.and_eq_true] at h
      exact .var (Name.alike_of_similar h.1)
        (Expr.optionAlike_of_similar hP (fun _ => hs.inner) (fun _ => hs'.inner) h.2)
    | _ => cases h
  | block as l =>
    cases s' with
    | block bs l' =>
      have hbody := Stmt.forall₂_alike_of_similar hP (fun a ha => hs.inner (List.mem_map_of_mem ha))
        (fun b hb => hs'.inner (List.mem_map_of_mem hb)) h
      rw [unbind, unbind, unbindAll_eq_map, unbindAll_eq_map]
      exact .blocks hbody trivial
    | _ => cases h
  | ifThen c a l =>
    cases s' with
    | ifThen d b l' =>
      rw [similar, Bool.and_eq_true] at h
      have ha := Stmt.alike_of_similar hP (hs.inner (c := .stmt a) (by simp [children]))
        (hs'.inner (c := .stmt b) (by simp [children])) h.2
      exact .ifThen (expr (by simp [children]) (by simp [children]) h.1) ha trivial
    | _ => cases h
  | ifElse c a x l =>
    cases s' with
    | ifElse d b y l' =>
      rw [similar, Bool.and_eq_true, Bool.and_eq_true] at h
      have ha := Stmt.alike_of_similar hP (hs.inner (c := .stmt a) (by simp [children]))
        (hs'.inner (c := .stmt b) (by simp [children])) h.1.2
      have hx := Stmt.alike_of_similar hP (hs.inner (c := .stmt x) (by simp [children]))
        (hs'.inner (c := .stmt y) (by simp [children])) h.2
      exact .ifElse (expr (by simp [children]) (by simp [children]) h.1.1) ha hx trivial
    | _ => cases h
  | whileLoop c a l =>
    cases s' with
    | whileLoop d b l' =>
      rw [similar, Bool.and_eq_true] at h
      have ha := Stmt.alike_of_similar hP (hs.inner (c := .stmt a) (by simp [children]))
        (hs'.inner (c := .stmt b) (by simp [children])) h.2
      exact .whileLoop (expr (by simp [children]) (by simp [children]) h.1) ha trivial
    | _ => cases h
  | function m ps as =>
    cases s' with
    | function n qs bs =>
      rw [similar, Bool.and_eq_true, Bool.and_eq_true] at h
      have hbody := Stmt.forall₂_alike_of_similar hP (fun a ha => hs.inner (List.mem_map_of_mem ha))
        (fun b hb => hs'.inner (List.mem_map_of_mem hb)) h.2
      rw [unbind, unbind, unbindAll_eq_map, unbindAll_eq_map]
      exact .functions (Name.alike_of_similar h.1.1) (Name.forall₂_alike_of_similar h.1.2) hbody
    | _ => cases h
  | returnStmt a l =>
    cases s' with
    | returnStmt b l' =>
      exact .returnStmt
        (Expr.optionAlike_of_similar hP (fun _ => hs.inner) (fun _ => hs'.inner) h) trivial
    | _ => cases h

theorem Stmt.forall₂_alike_of_similar (hP : Distinguishes P) {body body' : List Stmt}
    (hb : ∀ s ∈ body, (Node.stmt s).Literals P) (hb' : ∀ s ∈ body', (Node.stmt s).Literals P)
    (h : allSimilar body body' = true) :
    List.Forall₂ (Stmt.Alike anywhere) (body.map unbind) (body'.map unbind) := by
  cases body with
  | nil =>
    cases body' with
    | nil => exact .nil
    | cons => cases h
  | cons s body =>
    cases body' with
    | nil => cases h
    | cons s' body' =>
      rw [allSimilar, Bool.and_eq_true] at h
      exact .cons (Stmt.alike_of_similar hP (hb s List.mem_cons_self) (hb' s' List.mem_cons_self) h.1)
        (Stmt.forall₂_alike_of_similar hP (fun a ha => hb a (List.mem_cons_of_mem s ha))
          (fun b hb => hb' b (List.mem_cons_of_mem s' hb)) h.2)

end

end Similar

end Lox
