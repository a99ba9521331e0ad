import Lox.Proofs.Likeness.Similar
import Lox.Proofs.Printing.Outline

/-!
# Parallel trees

`Expr.Parallel V` and `Stmt.Parallel V` relate trees that differ at most in locations, distances and
literals, where corresponding literals are related by `V`. With the equality of the language for `V`
that is similarity (`Program.similar_iff`). Whatever `V` is, the relation between the trees takes after
it: it is transitive or symmetric if `V` is, and a tree is parallel to itself if its literals are
related to themselves. Parallel trees have the same text if literals related by `V` have.
-/

namespace Lox

/-- The kind and the spelling of an operator. -/
def Operator.content (p : Operator) : TokenKind × Text := (p.kind, p.lexeme)

/-- Expressions that differ at most in locations, distances and literals. -/
inductive Expr.Parallel (V : Value → Value → Prop) : Expr → Expr → Prop
  | literal {v w : Value} {l l' : Location} : V v w → Parallel V (.literal v l) (.literal w l')
  | grouping {a b : Expr} {l l' : Location} :
    Parallel V a b → Parallel V (.grouping a l) (.grouping b l')
  | unary {p q : Operator} {a b : Expr} :
    p.content = q.content → Parallel V a b → Parallel V (.unary p a) (.unary q b)
  | binary {p q : Operator} {a b c d : Expr} :
    p.content = q.content → Parallel V a b → Parallel V c d →
      Parallel V (.binary p a c) (.binary q b d)
  | logical {p q : Operator} {a b c d : Expr} :
    p.content = q.content → Parallel V a b → Parallel V c d →
      Parallel V (.logical p a c) (.logical q b d)
  | reference {m n : Name} {d d' : Option Nat} :
    m.text = n.text → Parallel V (.reference m d) (.reference n d')
  | assign {m n : Name} {d d' : Option Nat} {a b : Expr} :
    m.text = n.text → Parallel V a b → Parallel V (.assign m d a) (.assign n d' b)
  | call {f g : Expr} {as bs : List Expr} {l l' : Location} :
    Parallel V f g → List.Forall₂ (Parallel V) as bs → Parallel V (.call f as l) (.call g bs l')

/-- Statements that differ at most in locations, distances and literals. -/
inductive Stmt.Parallel (V : Value → Value → Prop) : Stmt → Stmt → Prop
  | expression {a b : Expr} {l l' : Location} :
    a.Parallel V b → Parallel V (.expression a l) (.expression b l')
  | print {a b : Expr} {l l' : Location} : a.Parallel V b → Parallel V (.print a l) (.print b l')
  | var {m n : Name} {a b : Option Expr} :
    m.text = n.text → Option.Rel (Expr.Parallel V) a b → Parallel V (.var m a) (.var n b)
  | block {as bs : List Stmt} {l l' : Location} :
    List.Forall₂ (Parallel V) as bs → Parallel V (.block as l) (.block bs l')
  | ifThen {c d : Expr} {a b : Stmt} {l l' : Location} :
    c.Parallel V d → Parallel V a b → Parallel V (.ifThen c a l) (.ifThen d b l')
  | ifElse {c d : Expr} {a b x y : Stmt} {l l' : Location} :
    c.Parallel V d → Parallel V a b → Parallel V x y → Parallel V (.ifElse c a x l) (.ifElse d b y l')
  | whileLoop {c d : Expr} {a b : Stmt} {l l' : Location} :
    c.Parallel V d → Parallel V a b → Parallel V (.whileLoop c a l) (.whileLoop d b l')
  | function {m n : Name} {ps qs : List Name} {as bs : List Stmt} :
    m.text = n.text → ps.map Name.text = qs.map Name.text → List.Forall₂ (Parallel V) as bs →
      Parallel V (.function m ps as) (.function n qs bs)
  | returnStmt {a b : Option Expr} {l l' : Location} :
    Option.Rel (Expr.Parallel V) a b → Parallel V (.returnStmt a l) (.returnStmt b l')

/-- Programs that differ at most in locations, distances and literals. -/
abbrev Program.Parallel (V : Value → Value → Prop) (p q : Program) : Prop :=
  List.Forall₂ (Stmt.Parallel V) p q

variable {V W X : Value → Value → Prop}

/-! ## Induction over parallel trees

The recursors that the nested definitions come with have a motive for lists of their own. Here a list
of trees is a list of pairs for which the motive holds. -/

@[elab_as_elim]
theorem Expr.Parallel.induct {motive : ∀ a b : Expr, a.Parallel V b → Prop}
    (literal : ∀ {v w l l'} (h : V v w), motive (.literal v l) (.literal w l') (.literal h))
    (grouping : ∀ {a b l l'} (h : Parallel V a b), motive a b h →
      motive (.grouping a l) (.grouping b l') (.grouping h))
    (unary : ∀ {p q a b} (hp : p.content = q.content) (h : Parallel V a b), motive a b h →
      motive (.unary p a) (.unary q b) (.unary hp h))
    (binary : ∀ {p q a b c d} (hp : p.content = q.content) (h : Parallel V a b) (h' : Parallel V c d),
      motive a b h → motive c d h' → motive (.binary p a c) (.binary q b d) (.binary hp h h'))
    (logical : ∀ {p q a b c d} (hp : p.content = q.content) (h : Parallel V a b)
      (h' : Parallel V c d), motive a b h → motive c d h' →
        motive (.logical p a c) (.logical q b d) (.logical hp h h'))
    (reference : ∀ {m n d d'} (hm : m.text = n.text),
      motive (.reference m d) (.reference n d') (.reference hm))
    (assign : ∀ {m n d d' a b} (hm : m.text = n.text) (h : Parallel V a b), motive a b h →
      motive (.assign m d a) (.assign n d' b) (.assign hm h))
    (call : ∀ {f g as bs l l'} (h : Parallel V f g) (hs : List.Forall₂ (Parallel V) as bs),
      motive f g h → List.Forall₂ (fun a b => ∃ h, motive a b h) as bs →
        motive (.call f as l) (.call g bs l') (.call h hs))
    {a b : Expr} (h : a.Parallel V b) : motive a b h :=
  @Expr.Parallel.rec V motive (fun as bs _ => List.Forall₂ (fun a b => ∃ h, motive a b h) as bs)
    literal grouping unary binary logical reference assign call .nil
    (fun h _ ih ihs => .cons ⟨h, ih⟩ ihs) a b h

@[elab_as_elim]
theorem Stmt.Parallel.induct {motive : ∀ a b : Stmt, a.Parallel V b → Prop}
    (expression : ∀ {a b l l'} (h : a.Parallel V b),
      motive (.expression a l) (.expression b l') (.expression h))
    (print : ∀ {a b l l'} (h : a.Parallel V b), motive (.print a l) (.print b l') (.print h))
    (var : ∀ {m n a b} (hm : m.text = n.text) (h : Option.Rel (Expr.Parallel V) a b),
      motive (.var m a) (.var n b) (.var hm h))
    (block : ∀ {as bs l l'} (hs : List.Forall₂ (Parallel V) as bs),
      List.Forall₂ (fun a b => ∃ h, motive a b h) as bs →
        motive (.block as l) (.block bs l') (.block hs))
    (ifThen : ∀ {c d a b l l'} (hc : c.Parallel V d) (h : Parallel V a b), motive a b h →
      motive (.ifThen c a l) (.ifThen d b l') (.ifThen hc h))
    (ifElse : ∀ {c d a b x y l l'} (hc : c.Parallel V d) (h : Parallel V a b) (h' : Parallel V x y),
      motive a b h → motive x y h' →
        motive (.ifElse c a x l) (.ifElse d b y l') (.ifElse hc h h'))
    (whileLoop : ∀ {c d a b l l'} (hc : c.Parallel V d) (h : Parallel V a b), motive a b h →
      motive (.whileLoop c a l) (.whileLoop d b l') (.whileLoop hc h))
    (function : ∀ {m n ps qs as bs} (hm : m.text = n.text)
      (hps : ps.map Name.text = qs.map Name.text) (hs : List.Forall₂ (Parallel V) as bs),
      List.Forall₂ (fun a b => ∃ h, motive a b h) as bs →
        motive (.function m ps as) (.function n qs bs) (.function hm hps hs))
    (returnStmt : ∀ {a b l l'} (h : Option.Rel (Expr.Parallel V) a b),
      motive (.returnStmt a l) (.returnStmt b l') (.returnStmt h))
    {a b : Stmt} (h : a.Parallel V b) : motive a b h :=
  @Stmt.Parallel.rec V motive (fun as bs _ => List.Forall₂ (fun a b => ∃ h, motive a b h) as bs)
    expression print var block ifThen ifElse whileLoop function returnStmt .nil
    (fun h _ ih ihs => .cons ⟨h, ih⟩ ihs) a b h

/-- What the induction gives for a list of trees, where the motive is about the trees alone. -/
theorem forall₂_of_exists {α β : Type} {P Q : α → β → Prop} {as : List α} {bs : List β}
    (h : List.Forall₂ (fun a b => ∃ _ : P a b, Q a b) as bs) : List.Forall₂ Q as bs :=
  h.imp fun _ _ hab => hab.elim fun _ hq => hq

/-! ## The relation takes after that of the literals -/

theorem forall₂_comp {α β γ : Type} {R : α → β → Prop} {S : β → γ → Prop} {T : α → γ → Prop}
    (hT : ∀ a b c, R a b → S b c → T a c) {as : List α} {bs : List β} {cs : List γ}
    (h : List.Forall₂ R as bs) (h' : List.Forall₂ S bs cs) : List.Forall₂ T as cs := by
  induction h generalizing cs with
  | nil =>
    cases h'
    exact .nil
  | cons hab _ ih =>
    obtain _ | ⟨hbc, htail⟩ := h'
    exact .cons (hT _ _ _ hab hbc) (ih htail)

theorem forall₂_trans {α : Type} {S T : α → α → Prop} {as bs cs : List α}
    (h : List.Forall₂ (fun a b => ∀ c, S b c → T a c) as bs) (h' : List.Forall₂ S bs cs) :
    List.Forall₂ T as cs :=
  forall₂_comp (fun _ _ c hab => hab c) h h'

theorem Expr.Parallel.symm (hV : ∀ v w, V v w → W w v) {a b : Expr} (h : a.Parallel V b) :
    b.Parallel W a := by
  induction h using Expr.Parallel.induct with
  | literal hv => exact .literal (hV _ _ hv)
  | grouping _ ih => exact .grouping ih
  | unary hp _ ih => exact .unary hp.symm ih
  | binary hp _ _ ih ih' => exact .binary hp.symm ih ih'
  | logical hp _ _ ih ih' => exact .logical hp.symm ih ih'
  | reference hm => exact .reference hm.symm
  | assign hm _ ih => exact .assign hm.symm ih
  | call _ _ ih ihs => exact .call ih (forall₂_of_exists ihs).flip

theorem Expr.optionParallel_symm (hV : ∀ v w, V v w → W w v) {a b : Option Expr}
    (h : Option.Rel (Expr.Parallel V) a b) : Option.Rel (Expr.Parallel W) b a := by
  cases h with
  | none => exact .none
  | some h => exact .some (h.symm hV)

theorem Stmt.Parallel.symm (hV : ∀ v w, V v w → W w v) {a b : Stmt} (h : a.Parallel V b) :
    b.Parallel W a := by
  induction h using Stmt.Parallel.induct with
  | expression h => exact .expression (h.symm hV)
  | print h => exact .print (h.symm hV)
  | var hm h => exact .var hm.symm (Expr.optionParallel_symm hV h)
  | block _ ihs => exact .block (forall₂_of_exists ihs).flip
  | ifThen hc _ ih => exact .ifThen (hc.symm hV) ih
  | ifElse hc _ _ ih ih' => exact .ifElse (hc.symm hV) ih ih'
  | whileLoop hc _ ih => exact .whileLoop (hc.symm hV) ih
  | function hm hps _ ihs =>
    exact .function hm.symm hps.symm (forall₂_of_exists ihs).flip
  | returnStmt h => exact .returnStmt (Expr.optionParallel_symm hV h)

theorem Program.Parallel.symm (hV : ∀ v w, V v w → W w v) {p q : Program} (h : p.Parallel V q) :
    q.Parallel W p :=
  (h.imp fun _ _ hs => hs.symm hV).flip

theorem Expr.Parallel.trans (hX : ∀ u v w, V u v → W v w → X u w) {a b c : Expr}
    (h : a.Parallel V b) (h' : b.Parallel W c) : a.Parallel X c := by
  induction h using Expr.Parallel.induct generalizing c with
  | literal hv =>
    cases h' with | literal hw => exact .literal (hX _ _ _ hv hw)
  | grouping _ ih =>
    cases h' with | grouping h' => exact .grouping (ih h')
  | unary hp _ ih =>
    cases h' with | unary hq h' => exact .unary (hp.trans hq) (ih h')
  | binary hp _ _ ih ih' =>
    cases h' with | binary hq hl hr => exact .binary (hp.trans hq) (ih hl) (ih' hr)
  | logical hp _ _ ih ih' =>
    cases h' with | logical hq hl hr => exact .logical (hp.trans hq) (ih hl) (ih' hr)
  | reference hm =>
    cases h' with | reference hn => exact .reference (hm.trans hn)
  | assign hm _ ih =>
    cases h' with | assign hn h' => exact .assign (hm.trans hn) (ih h')
  | call _ _ ih ihs =>
    cases h' with | call h' hs => exact .call (ih h') (forall₂_trans (forall₂_of_exists ihs) hs)

theorem Expr.optionParallel_trans (hX : ∀ u v w, V u v → W v w → X u w) {a b c : Option Expr}
    (h : Option.Rel (Expr.Parallel V) a b) (h' : Option.Rel (Expr.Parallel W) b c) :
    Option.Rel (Expr.Parallel X) a c := by
  cases h with
  | none =>
    cases h'
    exact .none
  | some h =>
    cases h' with | some h' => exact .some (h.trans hX h')

theorem Stmt.Parallel.trans (hX : ∀ u v w, V u v → W v w → X u w) {a b c : Stmt}
    (h : a.Parallel V b) (h' : b.Parallel W c) : a.Parallel X c := by
  induction h using Stmt.Parallel.induct generalizing c with
  | expression h =>
    cases h' with | expression h' => exact .expression (h.trans hX h')
  | print h =>
    cases h' with | print h' => exact .print (h.trans hX h')
  | var hm h =>
    cases h' with | var hn h' => exact .var (hm.trans hn) (Expr.optionParallel_trans hX h h')
  | block _ ihs =>
    cases h' with | block hs => exact .block (forall₂_trans (forall₂_of_exists ihs) hs)
  | ifThen hc _ ih =>
    cases h' with | ifThen hd h' => exact .ifThen (hc.trans hX hd) (ih h')
  | ifElse hc _ _ ih ih' =>
    cases h' with | ifElse hd hs ho => exact .ifElse (hc.trans hX hd) (ih hs) (ih' ho)
  | whileLoop hc _ ih =>
    cases h' with | whileLoop hd h' => exact .whileLoop (hc.trans hX hd) (ih h')
  | function hm hps _ ihs =>
    cases h' with
    | function hn hqs hs =>
      exact .function (hm.trans hn) (hps.trans hqs) (forall₂_trans (forall₂_of_exists ihs) hs)
  | returnStmt h =>
    cases h' with | returnStmt h' => exact .returnStmt (Expr.optionParallel_trans hX h h')

theorem Program.Parallel.trans (hX : ∀ u v w, V u v → W v w → X u w) {p q r : Program}
    (h : p.Parallel V q) (h' : q.Parallel W r) : p.Parallel X r :=
  forall₂_comp (fun _ _ _ hs hs' => hs.trans hX hs') h h'

/-! ## Literals with a property

Where the literals of one tree have a property, the relation between literals has to hold for those
only that have it. -/

section Weaken

variable {P : Value → Prop}

theorem forall₂_of_mem {α β : Type} {p : α → Prop} {R S : α → β → Prop} {as : List α} {bs : List β}
    (hS : ∀ a b, p a → R a b → S a b) (ha : ∀ a ∈ as, p a) (h : List.Forall₂ R as bs) :
    List.Forall₂ S as bs :=
  ((List.forall₂_and_left as bs).2 ⟨ha, h⟩).imp fun a b hab => hS a b hab.1 hab.2

theorem Expr.Parallel.weaken (hW : ∀ v w, P v → V v w → W v w) {a b : Expr} (h : a.Parallel V b)
    (ha : (Node.expr a).Literals P) : a.Parallel W b := by
  induction h using Expr.Parallel.induct with
  | @literal v _ l _ hv => exact .literal (hW _ _ (ha [] v l rfl) hv)
  | grouping _ ih => exact .grouping (ih (ha.operand (by simp [children])))
  | unary hp _ ih => exact .unary hp (ih (ha.operand (by simp [children])))
  | binary hp _ _ ih ih' =>
    exact .binary hp (ih (ha.operand (by simp [children]))) (ih' (ha.operand (by simp [children])))
  | logical hp _ _ ih ih' =>
    exact .logical hp (ih (ha.operand (by simp [children]))) (ih' (ha.operand (by simp [children])))
  | reference hm => exact .reference hm
  | assign hm _ ih => exact .assign hm (ih (ha.operand (by simp [children])))
  | @call f _ as _ _ _ _ _ ih ihs =>
    have hargs : ∀ c ∈ as, (Node.expr c).Literals P := fun c hc =>
      ha.operand (List.mem_cons_of_mem f hc)
    exact .call (ih (ha.operand (by simp [children])))
      (forall₂_of_mem (fun _ _ hc h => h hc) hargs (forall₂_of_exists ihs))

theorem Expr.optionParallel_weaken (hW : ∀ v w, P v → V v w → W v w) {a b : Option Expr}
    (h : Option.Rel (Expr.Parallel V) a b) (ha : ∀ c ∈ (a.map Node.expr).toList, c.Literals P) :
    Option.Rel (Expr.Parallel W) a b := by
  cases h with
  | none => exact .none
  | some h => exact .some (h.weaken hW (ha _ (by simp)))

theorem Stmt.Parallel.weaken (hW : ∀ v w, P v → V v w → W v w) {a b : Stmt} (h : a.Parallel V b)
    (ha : (Node.stmt a).Literals P) : a.Parallel W b := by
  induction h using Stmt.Parallel.induct with
  | expression h => exact .expression (h.weaken hW (ha.inner List.mem_cons_self))
  | print h => exact .print (h.weaken hW (ha.inner List.mem_cons_self))
  | var hm h => exact .var hm (Expr.optionParallel_weaken hW h fun _ hc => ha.inner hc)
  | block _ ihs =>
    exact .block (forall₂_of_mem (fun _ _ hc h => h hc)
      (fun _ hc => ha.inner (List.mem_map_of_mem hc)) (forall₂_of_exists ihs))
  | ifThen hc _ ih =>
    exact .ifThen (hc.weaken hW (ha.inner List.mem_cons_self)) (ih (ha.inner (by simp [children])))
  | ifElse hc _ _ ih ih' =>
    exact .ifElse (hc.weaken hW (ha.inner List.mem_cons_self))
      (ih (ha.inner (by simp [children]))) (ih' (ha.inner (by simp [children])))
  | whileLoop hc _ ih =>
    exact .whileLoop (hc.weaken hW (ha.inner List.mem_cons_self))
      (ih (ha.inner (by simp [children])))
  | function hm hps _ ihs =>
    exact .function hm hps (forall₂_of_mem (fun _ _ hc h => h hc)
      (fun _ hc => ha.inner (List.mem_map_of_mem hc)) (forall₂_of_exists ihs))
  | returnStmt h => exact .returnStmt (Expr.optionParallel_weaken hW h fun _ hc => ha.inner hc)

theorem Program.Parallel.weaken (hW : ∀ v w, P v → V v w → W v w) {p q : Program}
    (h : p.Parallel V q) (hp : (Node.program p).Literals P) : p.Parallel W q :=
  forall₂_of_mem (fun _ _ hc h => h.weaken hW hc) (fun _ hc => hp.child (List.mem_map_of_mem hc)) h

end Weaken

/-! ## A tree is parallel to its outline -/

mutual

theorem Expr.parallel_outline (e : Expr) : e.Parallel Eq (e.outline id) := by
  cases e with
  | literal v => exact .literal v.mapNumber_id.symm
  | grouping a => exact .grouping (Expr.parallel_outline a)
  | unary _ a => exact .unary rfl (Expr.parallel_outline a)
  | binary _ a c => exact .binary rfl (Expr.parallel_outline a) (Expr.parallel_outline c)
  | logical _ a c => exact .logical rfl (Expr.parallel_outline a) (Expr.parallel_outline c)
  | reference => exact .reference rfl
  | assign _ _ a => exact .assign rfl (Expr.parallel_outline a)
  | call f as => exact .call (Expr.parallel_outline f) (Expr.forall₂_parallel_outlines as)

theorem Expr.forall₂_parallel_outlines (es : List Expr) :
    List.Forall₂ (Expr.Parallel Eq) es (outlines id es) := by
  cases es with
  | nil => exact .nil
  | cons e es => exact .cons (Expr.parallel_outline e) (Expr.forall₂_parallel_outlines es)

end

theorem Expr.optionParallel_outline (e : Option Expr) :
    Option.Rel (Expr.Parallel Eq) e (e.map (outline id)) := by
  cases e with
  | none => exact .none
  | some e => exact .some e.parallel_outline

mutual

theorem Stmt.parallel_outline (s : Stmt) : s.Parallel Eq (s.outline id) := by
  cases s with
  | expression a => exact .expression a.parallel_outline
  | print a => exact .print a.parallel_outline
  | var _ a => exact .var rfl (Expr.optionParallel_outline a)
  | block as => exact .block (Stmt.forall₂_parallel_outlines as)
  | ifThen c a => exact .ifThen c.parallel_outline (Stmt.parallel_outline a)
  | ifElse c a x =>
    exact .ifElse c.parallel_outline (Stmt.parallel_outline a) (Stmt.parallel_outline x)
  | whileLoop c a => exact .whileLoop c.parallel_outline (Stmt.parallel_outline a)
  | function _ ps as =>
    refine .function rfl ?_ (Stmt.forall₂_parallel_outlines as)
    rw [List.map_map]
    rfl
  | returnStmt a => exact .returnStmt (Expr.optionParallel_outline a)

theorem Stmt.forall₂_parallel_outlines (body : List Stmt) :
    List.Forall₂ (Stmt.Parallel Eq) body (outlines id body) := by
  cases body with
  | nil => exact .nil
  | cons s body => exact .cons (Stmt.parallel_outline s) (Stmt.forall₂_parallel_outlines body)

end

/-- Programs with the same outline are parallel, with equal literals. -/
theorem Program.parallel_of_outline {p q : Program} (h : p.outline id = q.outline id) :
    p.Parallel Eq q := by
  have hp : p.Parallel Eq (p.outline id) := Stmt.forall₂_parallel_outlines p
  have hq : q.Parallel Eq (p.outline id) := h ▸ Stmt.forall₂_parallel_outlines q
  refine Program.Parallel.trans ?_ hp (hq.symm (W := Eq) fun _ _ => Eq.symm)
  exact fun _ _ _ => Eq.trans

/-! ## Literals at the same places -/

/-- Nodes of a sort that are parallel. -/
inductive Node.Parallel (V : Value → Value → Prop) : Node → Node → Prop
  | program {p q : Program} : p.Parallel V q → Parallel V (.program p) (.program q)
  | stmt {a b : Stmt} : a.Parallel V b → Parallel V (.stmt a) (.stmt b)
  | expr {a b : Expr} : a.Parallel V b → Parallel V (.expr a) (.expr b)

theorem Node.forall₂_parallel_stmts {as bs : List Stmt} (h : List.Forall₂ (Stmt.Parallel V) as bs) :
    List.Forall₂ (Node.Parallel V) (as.map .stmt) (bs.map .stmt) := by
  rw [List.forall₂_map_left_iff, List.forall₂_map_right_iff]
  exact h.imp fun _ _ => .stmt

theorem Node.forall₂_parallel_exprs {as bs : List Expr} (h : List.Forall₂ (Expr.Parallel V) as bs) :
    List.Forall₂ (Node.Parallel V) (as.map .expr) (bs.map .expr) := by
  rw [List.forall₂_map_left_iff, List.forall₂_map_right_iff]
  exact h.imp fun _ _ => .expr

theorem Node.forall₂_parallel_option {a b : Option Expr} (h : Option.Rel (Expr.Parallel V) a b) :
    List.Forall₂ (Node.Parallel V) (a.map .expr).toList (b.map .expr).toList := by
  cases h with
  | none => exact .nil
  | some h => exact .cons (.expr h) .nil

theorem Expr.Parallel.children {a b : Expr} (h : a.Parallel V b) :
    List.Forall₂ (Expr.Parallel V) a.children b.children := by
  cases h with
  | literal | reference => exact .nil
  | grouping h | unary _ h | assign _ h => exact .cons h .nil
  | binary _ hl hr | logical _ hl hr => exact .cons hl (.cons hr .nil)
  | call hf hs => exact .cons hf hs

theorem Stmt.Parallel.children {a b : Stmt} (h : a.Parallel V b) :
    List.Forall₂ (Node.Parallel V) a.children b.children := by
  cases h with
  | expression h | print h => exact .cons (.expr h) .nil
  | var _ h | returnStmt h => exact Node.forall₂_parallel_option h
  | block hs | function _ _ hs => exact Node.forall₂_parallel_stmts hs
  | ifThen hc h | whileLoop hc h => exact .cons (.expr hc) (.cons (.stmt h) .nil)
  | ifElse hc hs ho => exact .cons (.expr hc) (.cons (.stmt hs) (.cons (.stmt ho) .nil))

theorem Node.Parallel.children {m n : Node} (h : m.Parallel V n) :
    List.Forall₂ (Node.Parallel V) m.children n.children := by
  cases h with
  | program h => exact Node.forall₂_parallel_stmts h
  | stmt h => exact h.children
  | expr h => exact Node.forall₂_parallel_exprs h.children

/-- Parallel nodes have parallel nodes at the same addresses. -/
theorem Node.Parallel.at? {m n : Node} (h : m.Parallel V n) {a : Address} {c : Node}
    (hc : m.at? a = some c) : ∃ d, n.at? a = some d ∧ c.Parallel V d := by
  induction a generalizing m n with
  | nil =>
    cases hc
    exact ⟨n, rfl, h⟩
  | cons i a ih =>
    obtain ⟨k, hk, hc⟩ := Option.bind_eq_some_iff.1 hc
    obtain ⟨hi, rfl⟩ := List.getElem?_eq_some_iff.1 hk
    have hi' : i < n.children.length := h.children.length_eq ▸ hi
    obtain ⟨d, hd, hcd⟩ := ih (h.children.get hi hi') hc
    refine ⟨d, ?_, hcd⟩
    rw [Node.at?, List.getElem?_eq_getElem hi']
    exact hd

end Lox
