import Lox.Eval.Basic
import Lox.Proofs.Run.Scoped

/-!
# Runs keep frames and scopes in step

`Run.Keeps` is the triple for runs: started on a machine with the invariant, and under a condition, a
run keeps the invariant however it ends, and a result comes with another condition. Expressions need
no condition (`Expr.safe_eval`); statements need the frame of the scopes around them, and behind a
statement that the next one follows the name that it declares is complete (`Stmt.keeps_exec`). Calls
are safe by induction on their nesting (`safe_callWithin`).
-/

namespace Lox

/-- A condition on machines and the owners of their frames. -/
abbrev Condition := Owners → Machine → Prop

/-- Growing frames do not break the condition. -/
def Condition.Stable (P : Condition) : Prop :=
  ∀ own own' m m', Grows own own' m.frames m'.frames → P own m → P own' m'

/-- The frame is the one of a context. -/
def At (ctx : Context) (frame : Nat) : Condition := fun own m => InContext own m.frames ctx frame

theorem stable_at (ctx : Context) (frame : Nat) : (At ctx frame).Stable :=
  fun _ _ _ _ hg h => h.grows hg

namespace Run

variable {α β : Type} {ps : List Program} {P P' R : Condition}

/-- The machine behind a run. -/
def final (x : Run α) (m : Machine) : Machine :=
  match x m with
  | .ok _ m' => m'
  | .error _ m' => m'

theorem final_eq_of_ok {x : Run α} {m m' : Machine} {a : α} (h : x m = .ok a m') :
    x.final m = m' := by
  rw [final, h]

theorem final_eq_of_error {x : Run α} {m m' : Machine} {e : Abort} (h : x m = .error e m') :
    x.final m = m' := by
  rw [final, h]

theorem bind_of_ok {x : Run α} {f : α → Run β} {m m' : Machine} {a : α} (h : x m = .ok a m') :
    (x >>= f) m = f a m' := by
  show EStateM.bind x f m = _
  unfold EStateM.bind
  rw [h]

theorem bind_of_error {x : Run α} {f : α → Run β} {m m' : Machine} {e : Abort}
    (h : x m = .error e m') : (x >>= f) m = .error e m' := by
  show EStateM.bind x f m = _
  unfold EStateM.bind
  rw [h]

/-- Under a condition a run keeps the invariant, and a result comes with a condition. -/
def Keeps (ps : List Program) (P : Condition) (x : Run α) (Q : α → Condition) : Prop :=
  ∀ own m, Scoped ps own m → P own m →
    ∃ own', Scoped ps own' (x.final m) ∧ Grows own own' m.frames (x.final m).frames ∧
      ∀ a m', x m = .ok a m' → Q a own' m'

/-- A run keeps the invariant in any case. -/
def Safe (ps : List Program) (x : Run α) : Prop :=
  Keeps ps (fun _ _ => True) x fun _ _ _ => True

theorem Keeps.bind {x : Run α} {f : α → Run β} {Q : α → Condition} {Q' : β → Condition}
    (hx : Keeps ps P x Q) (hf : ∀ a, Keeps ps (Q a) (f a) Q') : Keeps ps P (x >>= f) Q' := by
  intro own m hm hP
  obtain ⟨own₁, hm₁, hg₁, hQ⟩ := hx own m hm hP
  cases h : x m with
  | ok a m₁ =>
    rw [final_eq_of_ok h] at hm₁ hg₁
    obtain ⟨own₂, hm₂, hg₂, hQ'⟩ := hf a own₁ m₁ hm₁ (hQ a m₁ h)
    have hbind : (x >>= f) m = f a m₁ := bind_of_ok h
    have hfinal : (x >>= f).final m = (f a).final m₁ := by rw [final, hbind, ← final]
    rw [hfinal]
    exact ⟨own₂, hm₂, hg₁.trans hg₂, fun b m' hb => hQ' b m' (hbind ▸ hb)⟩
  | error e m₁ =>
    have hbind : (x >>= f) m = .error e m₁ := bind_of_error h
    rw [final_eq_of_error h] at hm₁ hg₁
    rw [final_eq_of_error hbind]
    exact ⟨own₁, hm₁, hg₁, fun b m' hb => by rw [hbind] at hb; cases hb⟩

theorem Keeps.mono {x : Run α} {Q Q' : α → Condition} (h : Keeps ps P x Q)
    (hP : ∀ own m, P' own m → P own m) (hQ : ∀ a own m, Q a own m → Q' a own m) :
    Keeps ps P' x Q' := by
  intro own m hm hpre
  obtain ⟨own', hm', hg, hpost⟩ := h own m hm (hP own m hpre)
  exact ⟨own', hm', hg, fun a m' ha => hQ a own' m' (hpost a m' ha)⟩

/-- A stable condition may be carried along. -/
theorem Keeps.and_stable {x : Run α} {Q : α → Condition} (h : Keeps ps P x Q) (hR : R.Stable) :
    Keeps ps (fun own m => P own m ∧ R own m) x fun a own m => Q a own m ∧ R own m := by
  rintro own m hm ⟨hP, hpre⟩
  obtain ⟨own', hm', hg, hpost⟩ := h own m hm hP
  refine ⟨own', hm', hg, fun a m' ha => ⟨hpost a m' ha, ?_⟩⟩
  rw [final_eq_of_ok ha] at hg
  exact hR own own' m m' hg hpre

theorem Safe.keeps {x : Run α} (h : Safe ps x) (hP : P.Stable) : Keeps ps P x fun _ => P :=
  (Keeps.and_stable h hP).mono (fun _ _ hp => ⟨trivial, hp⟩) fun _ _ _ hp => hp.2

theorem Safe.bind {x : Run α} {f : α → Run β} (hx : Safe ps x) (hf : ∀ a, Safe ps (f a)) :
    Safe ps (x >>= f) := Keeps.bind hx hf

theorem keeps_pure (a : α) {Q : α → Condition} (h : ∀ own m, P own m → Q a own m) :
    Keeps ps P (pure a) Q := by
  intro own m hm hP
  refine ⟨own, hm, .refl own m.frames, fun b m' hb => ?_⟩
  cases hb
  exact h own m hP

theorem safe_pure (a : α) : Safe ps (pure a : Run α) := keeps_pure a fun _ _ _ => trivial

theorem keeps_of_false {x : Run α} {Q : α → Condition} (h : ∀ own m, ¬P own m) :
    Keeps ps P x Q := fun own m _ hP => absurd hP (h own m)

theorem keeps_ite {c : Prop} [Decidable c] {x y : Run α} {Q : α → Condition} (hx : Keeps ps P x Q)
    (hy : Keeps ps P y Q) : Keeps ps P (if c then x else y) Q := by
  split
  · exact hx
  · exact hy

/-! ### Runs that change neither frames nor functions -/

theorem safe_of_congr {x : Run α} (hframes : ∀ m, (x.final m).frames = m.frames)
    (hfunctions : ∀ m, (x.final m).functions = m.functions) : Safe ps x := by
  intro own m hm _
  refine ⟨own, hm.congr (hframes m) (hfunctions m), ?_, fun _ _ _ => trivial⟩
  rw [hframes m]
  exact .refl own m.frames

/-- A run that fails has no result to say anything about. -/
theorem keeps_fail (fault : Fault) (loc : Location) {Q : α → Condition} :
    Keeps ps P (fail fault loc : Run α) Q :=
  fun own m hm _ => ⟨own, hm, .refl own m.frames, fun a m' h => by cases h⟩

theorem keeps_throw (e : Abort) {Q : α → Condition} : Keeps ps P (throw e : Run α) Q :=
  fun own m hm _ => ⟨own, hm, .refl own m.frames, fun a m' h => by cases h⟩

theorem safe_get : Safe ps (get : Run Machine) := safe_of_congr (fun _ => rfl) fun _ => rfl

theorem safe_write (line : Text) : Safe ps (write line) :=
  safe_of_congr (fun _ => rfl) fun _ => rfl

theorem safe_ofExcept (loc : Location) (r : Except Fault α) : Safe ps (ofExcept loc r) := by
  cases r with
  | ok a => exact safe_pure a
  | error fault => exact keeps_fail fault loc

theorem final_withCall (call : CallFrame) (body : Run α) (m : Machine) :
    (withCall call body).final m =
      { body.final { m with calls := call :: m.calls } with
        calls := (body.final { m with calls := call :: m.calls }).calls.tail } := by
  simp only [withCall, final]
  cases body { m with calls := call :: m.calls } <;> rfl

theorem final_attempt (body : Run α) (m : Machine) : (attempt body).final m = body.final m := by
  simp only [attempt, final]
  cases body m with
  | ok a m' => rfl
  | error e m' => cases e <;> rfl

/-- A condition that the calls under way do not matter for holds inside a call. -/
theorem keeps_withCall (call : CallFrame) {body : Run α}
    (hP : ∀ own m, P own m → P own { m with calls := call :: m.calls })
    (h : Keeps ps P body fun _ _ _ => True) :
    Keeps ps P (withCall call body) fun _ _ _ => True := by
  intro own m hm hpre
  have hstart : Scoped ps own { m with calls := call :: m.calls } := hm.congr rfl rfl
  obtain ⟨own', hm', hg, _⟩ := h own _ hstart (hP own m hpre)
  rw [final_withCall]
  exact ⟨own', hm'.congr rfl rfl, hg, fun _ _ _ => trivial⟩

theorem safe_attempt {body : Run α} (h : Safe ps body) : Safe ps (attempt body) := by
  intro own m hm _
  obtain ⟨own', hm', hg, _⟩ := h own m hm trivial
  rw [final_attempt]
  exact ⟨own', hm', hg, fun _ _ _ => trivial⟩

/-! ### Runs that change frames -/

/-- A frame may bind what its scope declares, and then the declaration is complete. -/
theorem keeps_define {ctx : Context} {frame : Nat} {name : Text}
    (hname : ∀ scope ∈ ctx.head?, name ∈ scope.all) (v : Value) :
    Keeps ps (At ctx frame) (define frame name v) fun _ =>
      At (ctx.modifyHead (·.add [name] [name])) frame := by
  intro own m hm hctx
  have hown : frame ≠ Machine.globalFrame → name ∈ own frame := by
    intro hne
    cases ctx with
    | nil => exact absurd hctx hne
    | cons scope outer =>
      rw [hctx.1]
      exact hname scope rfl
  have hg := grows_define own m.frames frame name v
  refine ⟨own, hm.define hown v, hg, fun _ m' h => ?_⟩
  obtain rfl : { m with frames := m.frames.define frame name v } = m' := by
    cases h
    rfl
  cases ctx with
  | nil => exact hctx
  | cons scope outer =>
    obtain ⟨hscope, hnames, parent, hparent, houter⟩ := hctx.grows hg
    refine ⟨hscope, fun x hx => ?_, parent, hparent, houter⟩
    rcases List.mem_cons.1 hx with rfl | hx
    · refine Frames.hasLocal_define.2 (.inl ⟨rfl, rfl, ?_⟩)
      rw [← m.frames.size_define frame x v]
      exact Frames.lt_size_of_parent? hparent
    · exact hnames x hx

/-- A frame may be made for any scope inside the ones around it. -/
theorem keeps_newFrame (ctx : Context) (parent : Nat) (all : List Text) :
    Keeps ps (At ctx parent) (newFrame parent) fun frame => At (⟨all, [], []⟩ :: ctx) frame := by
  intro own m hm hctx
  have hg := grows_addChild own m.frames parent all
  refine ⟨_, hm.addChild parent all, hg, fun frame m' h => ?_⟩
  cases h
  refine ⟨Function.update_self _ _ _, fun x hx => absurd hx List.not_mem_nil, parent, ?_,
    hctx.grows hg⟩
  show (m.frames.addChild parent).parent? m.frames.size = some parent
  rw [Frames.parent?_addChild, if_pos rfl]

/-- A name that is bound may be bound again. -/
theorem safe_redefine (frame : Nat) (name : Text) (v : Value) :
    Keeps ps (fun _ m => m.frames.hasLocal frame name = true) (define frame name v)
      fun _ _ _ => True := by
  intro own m hm hname
  have hown (hne : frame ≠ Machine.globalFrame) : name ∈ own frame := hm.binds frame name hne hname
  exact ⟨own, hm.define hown v, grows_define own m.frames frame name v, fun _ _ _ => trivial⟩

/-- Global variables may be defined everywhere. -/
theorem safe_defineGlobal (name : Text) (v : Value) :
    Safe ps (define Machine.globalFrame name v) :=
  fun own m hm _ => ⟨own, hm.define (absurd rfl) v, grows_define own m.frames _ name v,
    fun _ _ _ => trivial⟩

/-- A function may be declared where a program declares it. -/
theorem keeps_declareFunction {p : Program} (hp : p ∈ ps) {a : Address} {name : Name}
    {params : List Name} {body : List Stmt} {ctx : Context}
    (hpoint : Point (.program p) [] a (.stmt (.function name params body)) ctx) (frame : Nat) :
    Keeps ps (At ctx frame) (do
        let f ← modifyGet fun m => m.addFunction ⟨name.text, params, body, frame⟩
        define frame name.text f)
      fun _ => At (ctx.declareAll [name.text]) frame := by
  intro own m hm hctx
  let f := (m.addFunction ⟨name.text, params, body, frame⟩).1
  obtain ⟨own', hm', hg, hpost⟩ :=
    keeps_define (hpoint.mem_all_of_declared? rfl) f own m hm hctx
  have hdeclared := hpost () _ rfl
  have hfits : Closure.Fits ps own' (m.frames.define frame name.text f)
      ⟨name.text, params, body, frame⟩ := ⟨p, hp, a, name, ctx, hpoint, hdeclared⟩
  refine ⟨own', hm'.addFunction hfits, hg, fun _ m' h => ?_⟩
  cases h
  exact hdeclared

/-- Asking for the machine gives one with the invariant. -/
theorem keeps_get : Keeps ps P get fun a own m => a = m ∧ P own m ∧ Scoped ps own m :=
  fun own m hm hP => ⟨own, hm, .refl own m.frames, fun a m' h => by cases h; exact ⟨rfl, hP, hm⟩⟩

end Run

/-! ## Expressions -/

namespace Expr

variable {ps : List Program} {call : Caller}

open Run

theorem safe_readVariable (frame : Nat) (name : Name) (d : Option Nat) :
    Safe ps (readVariable frame name d) := by
  unfold readVariable
  refine safe_get.bind fun m => ?_
  dsimp only
  split
  · exact safe_pure _
  · exact keeps_fail _ _

/-- An assignment changes a binding that there is. -/
theorem safe_writeVariable (frame : Nat) (name : Name) (d : Option Nat) (v : Value) :
    Safe ps (writeVariable frame name d v) := by
  unfold writeVariable
  refine keeps_get.bind fun m => ?_
  dsimp only
  split
  · next target h =>
    refine (safe_redefine target name.text v).mono ?_ fun _ _ _ => id
    rintro own m' ⟨rfl, -⟩
    split at h
    · exact (Option.filter_eq_some_iff.1 h).2
    · exact (Option.filter_eq_some_iff.1 h).2
  · exact keeps_fail _ _

mutual

/-- Expressions define no names, so they keep the invariant in every frame. -/
theorem safe_eval (hcall : ∀ v args site, Safe ps (call v args site)) (frame : Nat) (e : Expr) :
    Safe ps (e.eval call frame) := by
  cases e with
  | literal v => exact safe_pure v
  | grouping e => exact safe_eval hcall frame e
  | unary op e => exact (safe_eval hcall frame e).bind fun v => safe_ofExcept _ _
  | binary op l r =>
    exact (safe_eval hcall frame l).bind fun v =>
      (safe_eval hcall frame r).bind fun w => safe_ofExcept _ _
  | logical op l r =>
    unfold eval
    refine (safe_eval hcall frame l).bind fun v => keeps_ite (safe_pure _) ?_
    exact (safe_eval hcall frame r).bind fun w => safe_pure _
  | reference name d => exact safe_readVariable frame name d
  | assign name d e =>
    exact (safe_eval hcall frame e).bind fun v =>
      (safe_writeVariable frame name d v).bind fun _ => safe_pure v
  | call f args loc =>
    exact (safe_eval hcall frame f).bind fun callee =>
      (safe_evalAll hcall frame args).bind fun vs => hcall callee vs loc

theorem safe_evalAll (hcall : ∀ v args site, Safe ps (call v args site)) (frame : Nat)
    (es : List Expr) : Safe ps (evalAll call frame es) := by
  cases es with
  | nil => exact safe_pure []
  | cons e es =>
    exact (safe_eval hcall frame e).bind fun v =>
      (safe_evalAll hcall frame es).bind fun vs => safe_pure (v :: vs)

end

theorem safe_evalOption (hcall : ∀ v args site, Safe ps (call v args site)) (frame : Nat)
    (e : Option Expr) : Safe ps (evalOption call frame e) := by
  cases e with
  | none => exact safe_pure Value.nil
  | some e => exact safe_eval hcall frame e

end Expr

/-! ## Statements -/

/-- What a result of a statement says about the frame: if the next statement follows, then the names
that the statement declares are complete. -/
def Behind (ctx : Context) (frame : Nat) (flow : Flow) : Condition :=
  fun own m => flow = .next → At ctx frame own m

theorem Run.keeps_loop {ps : List Program} {ctx : Context} {frame : Nat} {condition : Run Value}
    {body : Run Flow} (hcondition : Run.Safe ps condition)
    (hbody : Run.Keeps ps (At ctx frame) body (Behind ctx frame)) (rounds : Nat) :
    Run.Keeps ps (At ctx frame) (Run.loop condition body rounds) (Behind ctx frame) := by
  induction rounds with
  | zero => exact Run.keeps_throw .outOfFuel
  | succ rounds ih =>
    unfold Run.loop
    refine (hcondition.keeps (stable_at ctx frame)).bind fun v => ?_
    refine Run.keeps_ite (hbody.bind fun flow => ?_) (Run.keeps_pure _ fun _ _ h _ => h)
    cases flow with
    | next => exact ih.mono (fun _ _ h => h rfl) fun _ _ _ h => h
    | returned v => exact Run.keeps_pure _ fun _ _ _ h => by cases h

namespace Stmt

open Run

variable {ps : List Program} {call : Caller}

mutual

/-- A statement keeps the invariant in the frame of the scopes around it. -/
theorem keeps_exec (hps : ∀ p ∈ ps, (Node.program p).DeclaresDirectly)
    (hcall : ∀ v args site, Safe ps (call v args site)) (rounds : Nat) {p : Program} (hp : p ∈ ps)
    (s : Stmt) {a : Address} {ctx : Context} (h : Point (.program p) [] a (.stmt s) ctx)
    (frame : Nat) :
    Keeps ps (At ctx frame) (s.exec call rounds frame) (Behind (ctx.declareAll s.hoisted) frame) := by
  have hdirect := hps p hp a s h.at?
  cases s with
  | expression e loc =>
    refine ((Expr.safe_eval hcall frame e).keeps (stable_at ctx frame)).bind fun v => ?_
    exact keeps_pure _ fun _ _ hctx _ => by rwa [hoisted, Context.declareAll_nil]
  | print e loc =>
    refine ((Expr.safe_eval hcall frame e).keeps (stable_at ctx frame)).bind fun v => ?_
    refine ((safe_write v.text).keeps (stable_at ctx frame)).bind fun _ => ?_
    exact keeps_pure _ fun _ _ hctx _ => by rwa [hoisted, Context.declareAll_nil]
  | var name e =>
    refine ((Expr.safe_evalOption hcall frame e).keeps (stable_at ctx frame)).bind fun v => ?_
    refine (keeps_define (h.mem_all_of_declared? rfl) v).bind fun _ => ?_
    exact keeps_pure _ fun _ _ hctx _ => hctx
  | block body loc =>
    have hcontext := stable_at ctx frame
    have hinner := (@keeps_newFrame ps ctx frame (body.flatMap hoisted)).and_stable hcontext
    unfold exec
    rw [hoisted, Context.declareAll_nil]
    refine Keeps.bind (hinner.mono (fun _ _ hctx => ⟨hctx, hctx⟩) fun _ _ _ h => h) fun inner => ?_
    have hbody := keeps_execAll hps hcall rounds hp body h [] rfl inner
    rw [opened_eq, List.flatMap_nil, Context.declareAll_nil] at hbody
    exact (hbody.and_stable hcontext).mono (fun _ _ h => h) fun _ _ _ h _ => h.2
  | ifThen c branch loc =>
    have hnone : (ifThen c branch loc).hoisted = [] := hdirect
    have hbranch := keeps_exec hps hcall rounds hp branch (h.inner (i := 1) rfl hnone rfl) frame
    unfold exec
    refine ((Expr.safe_eval hcall frame c).keeps (stable_at ctx frame)).bind fun v => ?_
    refine keeps_ite hbranch ?_
    rw [hnone, Context.declareAll_nil]
    exact keeps_pure _ fun _ _ hctx _ => hctx
  | ifElse c branch otherwise loc =>
    have hnone : (ifElse c branch otherwise loc).hoisted = [] := hdirect
    obtain ⟨hfirst, hsecond⟩ := List.append_eq_nil_iff.1 hnone
    have hbranch := keeps_exec hps hcall rounds hp branch (h.inner (i := 1) rfl hnone rfl) frame
    have hother := keeps_exec hps hcall rounds hp otherwise (h.inner (i := 2) rfl hnone rfl) frame
    rw [hfirst] at hbranch
    rw [hsecond] at hother
    unfold exec
    rw [hnone]
    refine ((Expr.safe_eval hcall frame c).keeps (stable_at ctx frame)).bind fun v => ?_
    exact keeps_ite hbranch hother
  | whileLoop c body loc =>
    have hnone : (whileLoop c body loc).hoisted = [] := hdirect
    have hbody := keeps_exec hps hcall rounds hp body (h.inner (i := 1) rfl hnone rfl) frame
    have hinside : body.hoisted = [] := hnone
    rw [hinside, Context.declareAll_nil] at hbody
    rw [hnone, Context.declareAll_nil]
    exact keeps_loop (Expr.safe_eval hcall frame c) hbody rounds
  | function name params body =>
    exact (keeps_declareFunction hp h frame).bind fun _ => keeps_pure _ fun _ _ hctx _ => hctx
  | returnStmt e loc =>
    refine ((Expr.safe_evalOption hcall frame e).keeps (stable_at ctx frame)).bind fun v => ?_
    exact keeps_pure _ fun _ _ _ hnext => by cases hnext

/-- Statements in a row keep the invariant behind the declarations of the ones before them. -/
theorem keeps_execAll (hps : ∀ p ∈ ps, (Node.program p).DeclaresDirectly)
    (hcall : ∀ v args site, Safe ps (call v args site)) (rounds : Nat) {p : Program} (hp : p ∈ ps)
    (rest : List Stmt) {a : Address} {n : Node} {ctx : Context} (h : Point (.program p) [] a n ctx)
    (before : List Stmt) (hchildren : n.children = (before ++ rest).map .stmt) (frame : Nat) :
    Keeps ps (At ((n.opened ctx).declareAll (before.flatMap hoisted)) frame)
      (execAll call rounds frame rest) fun _ _ _ => True := by
  cases rest with
  | nil => exact keeps_pure _ fun _ _ _ => trivial
  | cons s rest =>
    unfold execAll
    refine (keeps_exec hps hcall rounds hp s (h.next hchildren) frame).bind fun flow => ?_
    cases flow with
    | next =>
      have hrest := keeps_execAll hps hcall rounds hp rest h (before ++ [s])
        (by rw [hchildren, List.append_assoc]; rfl) frame
      refine hrest.mono (fun own m hctx => ?_) fun _ _ _ h => h
      rw [List.flatMap_append, Context.declareAll_append, List.flatMap_singleton]
      exact hctx rfl
    | returned v => exact keeps_pure _ fun _ _ _ => trivial

end

end Stmt

/-! ## Calls -/

section Calls

open Run

variable {ps : List Program} {call : Caller}

/-- A frame may bind names of its scope in a row. -/
theorem keeps_defineAll {ctx : Context} {frame : Nat} (pairs : List (Name × Value))
    (scope : ScopeNames) (hnames : ∀ pair ∈ pairs, pair.1.text ∈ scope.all) :
    Keeps ps (At (scope :: ctx) frame) (defineAll frame pairs) fun _ =>
      At (scope.add (pairs.map (·.1.text)) (pairs.map (·.1.text)) :: ctx) frame := by
  induction pairs generalizing scope with
  | nil => exact keeps_pure _ fun _ _ h => h
  | cons pair pairs ih =>
    obtain ⟨name, v⟩ := pair
    obtain ⟨hname, hrest⟩ := List.forall_mem_cons.1 hnames
    have hdefine := @keeps_define ps (scope :: ctx) frame name.text (by simpa using hname) v
    refine hdefine.bind fun _ => ?_
    refine (ih (scope.add [name.text] [name.text]) hrest).mono (fun _ _ h => h) fun _ own m h => ?_
    simpa [ScopeNames.add] using h

/-- A function is entered in the context that its body has in the program. -/
theorem keeps_enter {ctx : Context} (name : Name) (c : Closure) (args : List Value)
    (hcount : args.length = c.parameters.length) :
    Keeps ps (At (ctx.declareAll [name.text]) c.frame) (c.enter args) fun frame =>
      At ((Node.stmt (.function name c.parameters c.body)).opened ctx) frame := by
  let params := c.parameters.map Name.text
  let all := params ++ c.body.flatMap Stmt.hoisted
  have hmap : (c.parameters.zip args).map (·.1.text) = params :=
    calc (c.parameters.zip args).map (·.1.text)
        = ((c.parameters.zip args).map Prod.fst).map Name.text := by rw [List.map_map]; rfl
      _ = params := by rw [List.map_fst_zip (Nat.le_of_eq hcount.symm)]
  have hall : ∀ pair ∈ c.parameters.zip args, pair.1.text ∈ all := fun pair hpair =>
    List.mem_append_left _ (hmap ▸ List.mem_map_of_mem hpair)
  rw [Stmt.opened_eq]
  refine (keeps_newFrame _ c.frame all).bind fun frame => ?_
  refine (keeps_defineAll _ ⟨all, [], []⟩ hall).bind fun _ => keeps_pure frame fun own m h => ?_
  rw [hmap] at h
  refine InContext.congr_head h rfl fun x hx => ?_
  show x ∈ params.reverse ++ []
  rwa [List.append_nil, List.mem_reverse]

/-- A function that fits keeps the invariant if it gets as many arguments as it has parameters. -/
theorem keeps_closureRun (hps : ∀ p ∈ ps, (Node.program p).DeclaresDirectly)
    (hcall : ∀ v args site, Safe ps (call v args site)) (rounds : Nat) (c : Closure)
    (args : List Value) (hcount : args.length = c.parameters.length) :
    Keeps ps (fun own m => c.Fits ps own m.frames) (c.run call rounds args) fun _ _ _ => True := by
  rintro own m hm ⟨p, hp, a, name, ctx, hpoint, hctx⟩
  refine Keeps.bind (keeps_enter name c args hcount) (fun frame => ?_) own m hm hctx
  have hbody := Stmt.keeps_execAll hps hcall rounds hp c.body hpoint [] rfl frame
  rw [List.flatMap_nil, Context.declareAll_nil] at hbody
  refine hbody.bind fun flow => ?_
  cases flow <;> exact safe_pure _

theorem safe_perform (host : Host) (hcall : ∀ v args site, Safe ps (call v args site)) (name : Text)
    (site : Location) (act : Act) : Safe ps (act.perform host call name site) := by
  induction act with
  | done v => exact safe_pure v
  | crash message => exact keeps_fail _ _
  | raise code message loc => exact keeps_fail _ _
  | fail code message loc => exact keeps_fail _ _
  | call callee args place next ih => exact (hcall callee args place).bind ih
  | attempt callee args place next ih => exact (safe_attempt (hcall callee args place)).bind ih
  | write line next ih => exact (safe_write line).bind fun _ => ih
  | define global v next ih => exact (safe_defineGlobal global v).bind fun _ => ih
  | lookup global next ih => exact safe_get.bind fun m => ih _
  | depth next ih => exact safe_get.bind fun m => ih _
  | clock next ih =>
    have hclock : Safe ps (modifyGet fun m => (m.readings, { m with readings := m.readings + 1 })) :=
      safe_of_congr (fun _ => rfl) fun _ => rfl
    exact hclock.bind fun reading => ih _

/-- What a call is checked for. -/
theorem keeps_checkCall (host : Host) (callee : Value) (count : Nat) (site : Location) :
    Keeps ps (fun _ _ => True) (checkCall host callee count site) fun f _ m =>
      callee.asCallable = .ok f ∧ count = m.arity callee f := by
  unfold checkCall
  cases hc : callee.asCallable with
  | error mismatch => exact keeps_fail _ _
  | ok f =>
    refine keeps_get.bind fun m => ?_
    dsimp only
    split
    · exact keeps_fail _ _
    · next hcount =>
      refine keeps_get.bind fun m' => ?_
      split
      · exact keeps_fail _ _
      · refine keeps_pure f ?_
        rintro own m'' ⟨rfl, ⟨rfl, -⟩, -⟩
        exact ⟨rfl, not_not.1 hcount⟩

theorem safe_callWithin (hps : ∀ p ∈ ps, (Node.program p).DeclaresDirectly) (host : Host)
    (fuel : Nat) (callee : Value) (args : List Value) (site : Location) :
    Safe ps (callWithin host fuel callee args site) := by
  induction fuel generalizing callee args site with
  | zero => exact keeps_throw .outOfFuel
  | succ fuel ih =>
    unfold callWithin
    refine (keeps_checkCall host callee args.length site).bind fun f => ?_
    refine keeps_withCall _ (fun own m h => h) ?_
    cases callee with
    | native g =>
      refine keeps_get.bind fun m => ?_
      split
      · exact (safe_perform host ih _ site _).mono (fun _ _ _ => trivial) fun _ _ _ h => h
      · exact keeps_pure _ fun _ _ _ => trivial
    | function g =>
      refine keeps_get.bind fun m => ?_
      split
      · next c hc =>
        intro own m' hm' hpre
        obtain ⟨rfl, ⟨hf, hcount⟩, hm⟩ := hpre
        cases hf
        have hlength : args.length = c.parameters.length := by
          rw [hcount, Machine.arity, hc]
          rfl
        exact keeps_closureRun hps ih fuel c args hlength own m hm
          (hm.closures c (Array.mem_of_getElem? hc))
      · exact keeps_pure _ fun _ _ _ => trivial
    | _ => exact keeps_of_false fun own m h => by cases h.1

end Calls

/-! ## Programs -/

/-- Running the rest of a program keeps the invariant. -/
theorem Program.safe_exec {ps : List Program} (hps : ∀ p ∈ ps, (Node.program p).DeclaresDirectly)
    (host : Host) (fuel : Nat) {p : Program} (hp : p ∈ ps) (before rest : List Stmt)
    (h : p = before ++ rest) : Run.Safe ps (Program.exec host fuel rest) := by
  induction rest generalizing before with
  | nil => exact Run.safe_pure ()
  | cons s rest ih =>
    unfold Program.exec
    have hpoint : Point (.program p) [] [before.length] (.stmt s) [] :=
      Point.root.next (by rw [← h]; rfl)
    have hs := Stmt.keeps_exec hps (safe_callWithin hps host fuel) fuel hp s hpoint
      Machine.globalFrame
    have hsafe : Run.Safe ps (s.exec (callWithin host fuel) fuel Machine.globalFrame) :=
      hs.mono (fun _ _ _ => rfl) fun _ _ _ _ => trivial
    exact hsafe.bind fun _ => ih (before ++ [s]) (by rw [h, List.append_assoc]; rfl)

end Lox
