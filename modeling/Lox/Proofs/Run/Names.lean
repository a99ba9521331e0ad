import Lox.Eval.Basic
import Lox.Proofs.Run.Preservation

/-!
# The names that runs define

No run takes a name out of a frame, and to the frames that there were before a run adds only names that
the statement declares in its own frame; what native functions define goes to the global frame.
`Run.Gains` says so of one run, with a lemma for each construct. A program therefore adds no other
global names than those that it declares at top level (`Program.gains_exec`).
-/

namespace Lox

/-! ## What native functions define -/

/-- All global variables that a native function defines have names with a property, however its
requests are answered. -/
def Act.DefinesOnly (D : Text → Prop) : Act → Prop
  | .done _ | .crash _ | .raise _ _ _ | .fail _ _ _ => True
  | .call _ _ _ next => ∀ v, (next v).DefinesOnly D
  | .attempt _ _ _ next => ∀ r, (next r).DefinesOnly D
  | .write _ next => next.DefinesOnly D
  | .define name _ next => D name ∧ next.DefinesOnly D
  | .lookup _ next => ∀ v, (next v).DefinesOnly D
  | .depth next => ∀ n, (next n).DefinesOnly D
  | .clock next => ∀ x, (next x).DefinesOnly D

/-- A native function defines only names with a property. -/
def Native.DefinesOnly (D : Text → Prop) (native : Native) : Prop :=
  ∀ args, (native.body args).DefinesOnly D

/-! ## Names gained -/

/-- A machine that a run led to: its native functions are the same, no name is gone, and the frames
that there were have gained only the names allowed. -/
structure Machine.Gained (D : Text → Prop) (A : Nat → Text → Prop) (m m' : Machine) : Prop where
  natives : m'.natives = m.natives
  size : m.frames.size ≤ m'.frames.size
  keeps : ∀ f x, m.frames.hasLocal f x = true → m'.frames.hasLocal f x = true
  gains : ∀ f < m.frames.size, ∀ x, m'.frames.hasLocal f x = true →
    m.frames.hasLocal f x = true ∨ A f x ∨ f = Machine.globalFrame ∧ D x

/-- Some names are allowed in one frame. -/
abbrev namesIn (frame : Nat) (names : List Text) : Nat → Text → Prop :=
  fun f x => f = frame ∧ x ∈ names

variable {D : Text → Prop} {A B : Nat → Text → Prop}

namespace Machine.Gained

variable {m m' m₁ : Machine}

theorem mono (h : Gained D A m m') (hA : ∀ f < m.frames.size, ∀ x, A f x → B f x) :
    Gained D B m m' where
  natives := h.natives
  size := h.size
  keeps := h.keeps
  gains f hf x hx := (h.gains f hf x hx).imp_right (.imp_left (hA f hf x))

theorem trans (h : Gained D A m m₁) (h' : Gained D A m₁ m') : Gained D A m m' where
  natives := h'.natives.trans h.natives
  size := Nat.le_trans h.size h'.size
  keeps f x hx := h'.keeps f x (h.keeps f x hx)
  gains f hf x hx :=
    (h'.gains f (Nat.lt_of_lt_of_le hf h.size) x hx).elim (h.gains f hf x) .inr

end Machine.Gained

namespace Run

variable {α β : Type}

/-- What a run adds to the frames that there are, on machines whose native functions define only
names with a property. -/
def Gains (D : Text → Prop) (A : Nat → Text → Prop) (x : Run α) : Prop :=
  ∀ m : Machine, (∀ native ∈ m.natives, native.DefinesOnly D) → m.Gained D A (x.final m)

theorem Gains.mono {x : Run α} (h : Gains D A x) (hA : ∀ f x, A f x → B f x) : Gains D B x :=
  fun m hm => (h m hm).mono fun f _ => hA f

theorem Gains.bind {x : Run α} {f : α → Run β} (hx : Gains D A x) (hf : ∀ a, Gains D A (f a)) :
    Gains D A (x >>= f) := by
  intro m hm
  have hm₁ := hx m hm
  cases h : x m with
  | ok a m₁ =>
    rw [final_eq_of_ok h] at hm₁
    have hbind : (x >>= f) m = f a m₁ := bind_of_ok h
    have hfinal : (x >>= f).final m = (f a).final m₁ := by rw [final, hbind, ← final]
    rw [hfinal]
    exact hm₁.trans (hf a m₁ (hm₁.natives ▸ hm))
  | error e m₁ =>
    rw [final_eq_of_error h] at hm₁
    rwa [final_eq_of_error (bind_of_error h)]

theorem Gains.ite {c : Prop} [Decidable c] {x y : Run α} (hx : Gains D A x) (hy : Gains D A y) :
    Gains D A (if c then x else y) := by
  split
  · exact hx
  · exact hy

theorem gains_of_congr {x : Run α} (hframes : ∀ m, (x.final m).frames = m.frames)
    (hnatives : ∀ m, (x.final m).natives = m.natives) : Gains D A x := by
  intro m hm
  refine ⟨hnatives m, ?_, ?_, ?_⟩
  · rw [hframes]
  · intro f x hx
    rwa [hframes]
  · intro f _ x hx
    rw [hframes] at hx
    exact .inl hx

theorem gains_pure (a : α) : Gains D A (pure a : Run α) :=
  gains_of_congr (fun _ => rfl) fun _ => rfl

theorem gains_fail (fault : Fault) (loc : Location) : Gains D A (fail fault loc : Run α) :=
  gains_of_congr (fun _ => rfl) fun _ => rfl

theorem gains_throw (e : Abort) : Gains D A (throw e : Run α) :=
  gains_of_congr (fun _ => rfl) fun _ => rfl

theorem gains_get : Gains D A (get : Run Machine) := gains_of_congr (fun _ => rfl) fun _ => rfl

/-- Going on with the machine as it is. -/
theorem gains_get_bind {f : Machine → Run α} (h : ∀ m : Machine,
    (∀ native ∈ m.natives, native.DefinesOnly D) → m.Gained D A ((f m).final m)) :
    Gains D A (get >>= f) := h

theorem gains_write (line : Text) : Gains D A (write line) :=
  gains_of_congr (fun _ => rfl) fun _ => rfl

theorem gains_addFunction (c : Closure) : Gains D A (modifyGet fun m => m.addFunction c) :=
  gains_of_congr (fun _ => rfl) fun _ => rfl

theorem gains_ofExcept (loc : Location) (r : Except Fault α) : Gains D A (ofExcept loc r) := by
  cases r with
  | ok a => exact gains_pure a
  | error fault => exact gains_fail fault loc

theorem gains_withCall (call : CallFrame) {x : Run α} (h : Gains D A x) :
    Gains D A (withCall call x) := by
  intro m hm
  have hbody := h { m with calls := call :: m.calls } hm
  rw [final_withCall]
  exact ⟨hbody.natives, hbody.size, hbody.keeps, hbody.gains⟩

theorem gains_attempt {x : Run α} (h : Gains D A x) : Gains D A (attempt x) := by
  intro m hm
  rw [final_attempt]
  exact h m hm

theorem gains_define {frame : Nat} {name : Text} (v : Value)
    (h : A frame name ∨ frame = Machine.globalFrame ∧ D name) :
    Gains D A (define frame name v) := by
  refine fun m _ => ⟨rfl, Nat.le_of_eq (m.frames.size_define frame name v).symm, ?_, ?_⟩
  · exact fun f x hx => Frames.hasLocal_define.2 (.inr hx)
  · intro f _ x hx
    rcases Frames.hasLocal_define.1 hx with ⟨rfl, rfl, _⟩ | hx
    · exact .inr h
    · exact .inl hx

/-- What is added to a new frame does not count. -/
theorem gains_newFrame (parent : Nat) {f : Nat → Run α}
    (hf : ∀ inner, Gains D (fun g _ => g = inner) (f inner)) :
    Gains D A (newFrame parent >>= f) := by
  intro m hm
  let m₁ : Machine := { m with frames := m.frames.addChild parent }
  have hsize : m₁.frames.size = m.frames.size + 1 := m.frames.size_addChild parent
  have hfirst : m.Gained D A m₁ := by
    refine ⟨rfl, by omega, fun f x hx => ?_, fun f _ x hx => .inl ?_⟩
    · rwa [m.frames.hasLocal_addChild parent]
    · rwa [m.frames.hasLocal_addChild parent] at hx
  have hbind : (newFrame parent >>= f) m = f m.frames.size m₁ := rfl
  have hfinal : (newFrame parent >>= f).final m = (f m.frames.size).final m₁ := by
    rw [final, hbind, ← final]
  rw [hfinal]
  have hlater := hf m.frames.size m₁ hm
  refine ⟨hlater.natives, Nat.le_trans hfirst.size hlater.size, fun g x hx => ?_, fun g hg x hx => ?_⟩
  · exact hlater.keeps g x (hfirst.keeps g x hx)
  · rcases hlater.gains g (by omega) x hx with hx | rfl | hx
    · exact hfirst.gains g hg x hx
    · exact absurd hg (Nat.lt_irrefl _)
    · exact .inr (.inr hx)

end Run

open Run

/-- Calls add no names. -/
def Caller.Gains (D : Text → Prop) (call : Caller) : Prop :=
  ∀ {A : Nat → Text → Prop} (v : Value) (args : List Value) (site : Location),
    Run.Gains D A (call v args site)

/-! ## Expressions -/

namespace Expr

variable {call : Caller}

theorem gains_readVariable (frame : Nat) (name : Name) (d : Option Nat) :
    Run.Gains D A (readVariable frame name d) := by
  unfold readVariable
  refine gains_get.bind fun m => ?_
  dsimp only
  split
  · exact gains_pure _
  · exact gains_fail _ _

/-- An assignment changes a binding that there is. -/
theorem gains_writeVariable (frame : Nat) (name : Name) (d : Option Nat) (v : Value) :
    Run.Gains D A (writeVariable frame name d v) := by
  refine gains_get_bind fun m hm => ?_
  have hredefine {target : Nat} (h : m.frames.hasLocal target name.text = true) :
      m.Gained D A ((define target name.text v).final m) := by
    have hdefine := @gains_define D (namesIn target [name.text]) target name.text v
      (.inl ⟨rfl, List.mem_singleton.2 rfl⟩) m hm
    refine ⟨hdefine.natives, hdefine.size, hdefine.keeps, fun f hf x hx => ?_⟩
    rcases hdefine.gains f hf x hx with hold | ⟨hf, hname⟩ | hglobal
    · exact .inl hold
    · rw [hf, List.mem_singleton.1 hname]
      exact .inl h
    · exact .inr (.inr hglobal)
  dsimp only
  split
  · next target h =>
    split at h
    · exact hredefine (Option.filter_eq_some_iff.1 h).2
    · exact hredefine (Option.filter_eq_some_iff.1 h).2
  · exact gains_fail _ _ m hm

mutual

/-- Expressions add no names. -/
theorem gains_eval (hcall : call.Gains D) (frame : Nat) (e : Expr) :
    Run.Gains D A (e.eval call frame) := by
  cases e with
  | literal v => exact gains_pure v
  | grouping e => exact gains_eval hcall frame e
  | unary op e => exact (gains_eval hcall frame e).bind fun v => gains_ofExcept _ _
  | binary op l r =>
    exact (gains_eval hcall frame l).bind fun v =>
      (gains_eval hcall frame r).bind fun w => gains_ofExcept _ _
  | logical op l r =>
    unfold eval
    refine (gains_eval hcall frame l).bind fun v => .ite (gains_pure _) ?_
    exact (gains_eval hcall frame r).bind fun w => gains_pure _
  | reference name d => exact gains_readVariable frame name d
  | assign name d e =>
    exact (gains_eval hcall frame e).bind fun v =>
      (gains_writeVariable frame name d v).bind fun _ => gains_pure v
  | call f args loc =>
    exact (gains_eval hcall frame f).bind fun callee =>
      (gains_evalAll hcall frame args).bind fun vs => hcall callee vs loc

theorem gains_evalAll (hcall : call.Gains D) (frame : Nat) (es : List Expr) :
    Run.Gains D A (evalAll call frame es) := by
  cases es with
  | nil => exact gains_pure []
  | cons e es =>
    exact (gains_eval hcall frame e).bind fun v =>
      (gains_evalAll hcall frame es).bind fun vs => gains_pure (v :: vs)

end

theorem gains_evalOption (hcall : call.Gains D) (frame : Nat) (e : Option Expr) :
    Run.Gains D A (evalOption call frame e) := by
  cases e with
  | none => exact gains_pure Value.nil
  | some e => exact gains_eval hcall frame e

end Expr

/-! ## Statements -/

theorem Run.gains_loop {condition : Run Value} {body : Run Flow} (hcondition : Gains D A condition)
    (hbody : Gains D A body) (rounds : Nat) : Gains D A (loop condition body rounds) := by
  induction rounds with
  | zero => exact gains_throw .outOfFuel
  | succ rounds ih =>
    unfold loop
    refine hcondition.bind fun v => .ite (hbody.bind fun flow => ?_) (gains_pure _)
    cases flow with
    | next => exact ih
    | returned v => exact gains_pure _

namespace Stmt

variable {call : Caller}

mutual

/-- A statement adds the names that it declares, to its own frame. -/
theorem gains_exec (hcall : call.Gains D) (rounds frame : Nat) (s : Stmt) :
    Run.Gains D (namesIn frame s.hoisted) (s.exec call rounds frame) := by
  cases s with
  | expression e => exact (Expr.gains_eval hcall frame e).bind fun _ => gains_pure _
  | print e =>
    exact (Expr.gains_eval hcall frame e).bind fun v => (gains_write v.text).bind fun _ => gains_pure _
  | var name e =>
    refine (Expr.gains_evalOption hcall frame e).bind fun v => ?_
    exact (gains_define v (.inl ⟨rfl, List.mem_singleton.2 rfl⟩)).bind fun _ => gains_pure _
  | block body =>
    exact gains_newFrame frame fun inner =>
      (gains_execAll hcall rounds inner body).mono fun _ _ h => h.1
  | ifThen c branch =>
    exact (Expr.gains_eval hcall frame c).bind fun v =>
      .ite (gains_exec hcall rounds frame branch) (gains_pure _)
  | ifElse c branch otherwise =>
    refine (Expr.gains_eval hcall frame c).bind fun v => .ite ?_ ?_
    · exact (gains_exec hcall rounds frame branch).mono fun _ _ h =>
        ⟨h.1, List.mem_append_left _ h.2⟩
    · exact (gains_exec hcall rounds frame otherwise).mono fun _ _ h =>
        ⟨h.1, List.mem_append_right _ h.2⟩
  | whileLoop c body =>
    exact gains_loop (Expr.gains_eval hcall frame c) (gains_exec hcall rounds frame body) rounds
  | function name params body =>
    refine (gains_addFunction _).bind fun f => ?_
    exact (gains_define f (.inl ⟨rfl, List.mem_singleton.2 rfl⟩)).bind fun _ => gains_pure _
  | returnStmt e => exact (Expr.gains_evalOption hcall frame e).bind fun v => gains_pure _

theorem gains_execAll (hcall : call.Gains D) (rounds frame : Nat) (body : List Stmt) :
    Run.Gains D (namesIn frame (body.flatMap hoisted)) (execAll call rounds frame body) := by
  cases body with
  | nil => exact gains_pure _
  | cons s rest =>
    have hs := (gains_exec hcall rounds frame s).mono (B := namesIn frame ((s :: rest).flatMap hoisted))
      fun _ _ h => ⟨h.1, List.mem_append_left _ h.2⟩
    have hrest := (gains_execAll hcall rounds frame rest).mono
      (B := namesIn frame ((s :: rest).flatMap hoisted))
      fun _ _ h => ⟨h.1, List.mem_append_right _ h.2⟩
    unfold execAll
    refine hs.bind fun flow => ?_
    cases flow with
    | next => exact hrest
    | returned v => exact gains_pure _

end

end Stmt

/-! ## Calls -/

theorem Run.gains_defineAll (frame : Nat) (pairs : List (Name × Value)) :
    Gains D (fun g _ => g = frame) (defineAll frame pairs) := by
  induction pairs with
  | nil => exact gains_pure _
  | cons pair pairs ih => exact (gains_define pair.2 (.inl rfl)).bind fun _ => ih

/-- A function adds names to the frame of its call only. -/
theorem Closure.gains_run {call : Caller} (hcall : call.Gains D) (rounds : Nat) (c : Closure)
    (args : List Value) : Run.Gains D A (c.run call rounds args) := by
  unfold Closure.run Closure.enter
  rw [bind_assoc]
  refine gains_newFrame c.frame fun inner => ?_
  rw [bind_assoc]
  refine (gains_defineAll inner _).bind fun _ => ?_
  rw [pure_bind]
  refine ((Stmt.gains_execAll hcall rounds inner c.body).mono fun _ _ h => h.1).bind fun flow => ?_
  cases flow <;> exact gains_pure _

theorem Act.gains_perform (host : Host) {call : Caller} (hcall : call.Gains D) (name : Text)
    (site : Location) {act : Act} (h : act.DefinesOnly D) :
    Run.Gains D A (act.perform host call name site) := by
  induction act with
  | done v => exact gains_pure v
  | crash message => exact gains_fail _ _
  | raise code message loc => exact gains_fail _ _
  | fail code message loc => exact gains_fail _ _
  | call callee args place next ih => exact (hcall callee args place).bind fun v => ih v (h v)
  | attempt callee args place next ih =>
    exact (gains_attempt (hcall callee args place)).bind fun r => ih r (h r)
  | write line next ih => exact (gains_write line).bind fun _ => ih h
  | define global v next ih => exact (gains_define v (.inr ⟨rfl, h.1⟩)).bind fun _ => ih h.2
  | lookup global next ih => exact gains_get.bind fun m => ih _ (h _)
  | depth next ih => exact gains_get.bind fun m => ih _ (h _)
  | clock next ih =>
    have hclock : Run.Gains D A (modifyGet fun m =>
        (m.readings, { m with readings := m.readings + 1 })) :=
      gains_of_congr (fun _ => rfl) fun _ => rfl
    exact hclock.bind fun reading => ih _ (h _)

theorem gains_checkCall (host : Host) (callee : Value) (count : Nat) (site : Location) :
    Run.Gains D A (checkCall host callee count site) := by
  unfold checkCall
  cases callee.asCallable with
  | error mismatch => exact gains_fail _ _
  | ok f =>
    refine gains_get.bind fun m => .ite (gains_fail _ _) (gains_get.bind fun m' => ?_)
    exact .ite (gains_fail _ _) (gains_pure f)

/-- Calls add no names to the frames that there are, but for what native functions define. -/
theorem gains_callWithin (host : Host) (fuel : Nat) : (callWithin host fuel).Gains D := by
  induction fuel with
  | zero => exact fun _ _ _ => gains_throw .outOfFuel
  | succ fuel ih =>
    intro A callee args site
    unfold callWithin
    refine (gains_checkCall host callee args.length site).bind fun f => gains_withCall _ ?_
    split
    · next f =>
      refine gains_get_bind fun m hm => ?_
      split
      · next native hnative =>
        exact Act.gains_perform host ih f.name site
          (hm native (Array.mem_of_getElem? hnative) args) m hm
      · exact gains_pure _ m hm
    · refine gains_get.bind fun m => ?_
      split
      · exact Closure.gains_run ih fuel _ args
      · exact gains_pure _

/-! ## Programs -/

/-- A program adds the global names that it declares. -/
theorem Program.gains_exec (host : Host) (fuel : Nat) (p : Program) :
    Run.Gains D (namesIn Machine.globalFrame (p.flatMap Stmt.hoisted))
      (Program.exec host fuel p) := by
  induction p with
  | nil => exact gains_pure _
  | cons s rest ih =>
    unfold Program.exec
    refine Gains.bind ?_ fun _ => ih.mono fun _ _ h => ⟨h.1, List.mem_append_right _ h.2⟩
    exact (Stmt.gains_exec (gains_callWithin host fuel) fuel Machine.globalFrame s).mono
      fun _ _ h => ⟨h.1, List.mem_append_left _ h.2⟩

end Lox
