import Lox.Proofs.Run.Preservation
import Lox.Session

/-!
# Fuel is a cut-off

A run with less fuel does what the run with more fuel does, or runs out: nothing that a script or a
native function can ask tells how much fuel there is, and running out passes through every way of
building runs (`Run.Below`). So runs that end agree whatever fuel they had (`Session.run_unique`).
-/

namespace Lox

namespace Run

variable {α β : Type} {x y : Run α} {f g : α → Run β}

/-- The first run does as the second, except where it runs out of fuel. -/
def Below (x y : Run α) : Prop := ∀ m, x m = y m ∨ ∃ m', x m = .error .outOfFuel m'

theorem Below.refl (x : Run α) : Below x x := fun _ => .inl rfl

theorem below_outOfFuel (y : Run α) : Below (throw .outOfFuel) y := fun m => .inr ⟨m, rfl⟩

theorem Below.bind (h : Below x y) (hf : ∀ a, Below (f a) (g a)) : Below (x >>= f) (y >>= g) := by
  intro m
  rcases h m with heq | ⟨m', hout⟩
  · cases hy : y m with
    | ok a m₁ =>
      rw [bind_of_ok (heq.trans hy), bind_of_ok hy]
      exact hf a m₁
    | error e m₁ => exact .inl (by rw [bind_of_error (heq.trans hy), bind_of_error hy])
  · exact .inr ⟨m', bind_of_error hout⟩

theorem Below.ite {c : Prop} [Decidable c] {x' y' : Run α} (h : Below x y) (h' : Below x' y') :
    Below (if c then x else x') (if c then y else y') := by
  split
  · exact h
  · exact h'

theorem Below.withCall (h : Below x y) (call : CallFrame) :
    Below (withCall call x) (withCall call y) := by
  intro m
  unfold Run.withCall
  rcases h { m with calls := call :: m.calls } with heq | ⟨m', hout⟩
  · exact .inl (by rw [heq])
  · exact .inr ⟨{ m' with calls := m'.calls.tail }, by rw [hout]⟩

theorem Below.attempt (h : Below x y) : Below (attempt x) (attempt y) := by
  intro m
  unfold Run.attempt
  rcases h m with heq | ⟨m', hout⟩
  · exact .inl (by rw [heq])
  · exact .inr ⟨m', by rw [hout]⟩

theorem Below.outcome (h : Below x y) {m : Machine} {r : Except RuntimeError α × Machine}
    (hr : x.outcome m = some r) : y.outcome m = some r := by
  unfold Run.outcome at hr ⊢
  rcases h m with heq | ⟨m', hout⟩
  · rwa [heq] at hr
  · rw [hout] at hr
    cases hr

theorem Below.loop {condition condition' : Run Value} {body body' : Run Flow}
    (hcondition : Below condition condition') (hbody : Below body body') {rounds rounds' : Nat}
    (hrounds : rounds ≤ rounds') : Below (loop condition body rounds) (loop condition' body' rounds') := by
  induction rounds generalizing rounds' with
  | zero => exact below_outOfFuel _
  | succ rounds ih =>
    obtain ⟨rounds', rfl⟩ := Nat.exists_eq_add_one.2 (Nat.zero_lt_of_lt hrounds)
    unfold Run.loop
    refine hcondition.bind fun v => .ite (hbody.bind fun flow => ?_) (.refl _)
    cases flow with
    | next => exact ih (Nat.le_of_succ_le_succ hrounds)
    | returned v => exact .refl _

end Run

open Run

/-- Every call by the first is below the one by the second. -/
def Caller.Below (call call' : Caller) : Prop :=
  ∀ callee args site, Run.Below (call callee args site) (call' callee args site)

variable {call call' : Caller} {rounds rounds' : Nat}

/-! ## Expressions and statements -/

namespace Expr

mutual

theorem below_eval (hcall : call.Below call') (frame : Nat) (e : Expr) :
    Run.Below (e.eval call frame) (e.eval call' frame) := by
  cases e with
  | literal v => exact .refl _
  | grouping e => exact below_eval hcall frame e
  | unary op e => exact (below_eval hcall frame e).bind fun v => .refl _
  | binary op l r =>
    exact (below_eval hcall frame l).bind fun v => (below_eval hcall frame r).bind fun w => .refl _
  | logical op l r =>
    unfold eval
    exact (below_eval hcall frame l).bind fun v => .ite (.refl _)
      ((below_eval hcall frame r).bind fun w => .refl _)
  | reference name d => exact .refl _
  | assign name d e => exact (below_eval hcall frame e).bind fun v => .refl _
  | call f args loc =>
    exact (below_eval hcall frame f).bind fun callee =>
      (below_evalAll hcall frame args).bind fun vs => hcall callee vs loc

theorem below_evalAll (hcall : call.Below call') (frame : Nat) (es : List Expr) :
    Run.Below (evalAll call frame es) (evalAll call' frame es) := by
  cases es with
  | nil => exact .refl _
  | cons e es =>
    exact (below_eval hcall frame e).bind fun v =>
      (below_evalAll hcall frame es).bind fun vs => .refl _

end

theorem below_evalOption (hcall : call.Below call') (frame : Nat) (e : Option Expr) :
    Run.Below (evalOption call frame e) (evalOption call' frame e) := by
  cases e with
  | none => exact .refl _
  | some e => exact below_eval hcall frame e

end Expr

namespace Stmt

mutual

theorem below_exec (hcall : call.Below call') (hrounds : rounds ≤ rounds') (frame : Nat) (s : Stmt) :
    Run.Below (s.exec call rounds frame) (s.exec call' rounds' frame) := by
  cases s with
  | expression e => exact (Expr.below_eval hcall frame e).bind fun _ => .refl _
  | print e => exact (Expr.below_eval hcall frame e).bind fun v => .refl _
  | var name e => exact (Expr.below_evalOption hcall frame e).bind fun v => .refl _
  | block body =>
    exact (Run.Below.refl _).bind fun inner => below_execAll hcall hrounds inner body
  | ifThen c branch =>
    exact (Expr.below_eval hcall frame c).bind fun v =>
      .ite (below_exec hcall hrounds frame branch) (.refl _)
  | ifElse c branch otherwise =>
    exact (Expr.below_eval hcall frame c).bind fun v =>
      .ite (below_exec hcall hrounds frame branch) (below_exec hcall hrounds frame otherwise)
  | whileLoop c body =>
    exact (Expr.below_eval hcall frame c).loop (below_exec hcall hrounds frame body) hrounds
  | function name params body => exact .refl _
  | returnStmt e => exact (Expr.below_evalOption hcall frame e).bind fun v => .refl _

theorem below_execAll (hcall : call.Below call') (hrounds : rounds ≤ rounds') (frame : Nat)
    (body : List Stmt) :
    Run.Below (execAll call rounds frame body) (execAll call' rounds' frame body) := by
  cases body with
  | nil => exact .refl _
  | cons s rest =>
    unfold execAll
    refine (below_exec hcall hrounds frame s).bind fun flow => ?_
    cases flow with
    | next => exact below_execAll hcall hrounds frame rest
    | returned v => exact .refl _

end

end Stmt

/-! ## Calls and programs -/

theorem Closure.below_run (hcall : call.Below call') (hrounds : rounds ≤ rounds') (c : Closure)
    (args : List Value) : Run.Below (c.run call rounds args) (c.run call' rounds' args) := by
  refine (Run.Below.refl _).bind fun frame => ?_
  exact (Stmt.below_execAll hcall hrounds frame c.body).bind fun flow => .refl _

theorem Act.below_perform (hcall : call.Below call') (host : Host) (name : Text) (site : Location)
    (act : Act) : Run.Below (act.perform host call name site) (act.perform host call' name site) := by
  induction act with
  | done | crash | raise | fail => exact .refl _
  | call callee args place next ih => exact (hcall callee args place).bind ih
  | attempt callee args place next ih => exact (hcall callee args place).attempt.bind ih
  | write line next ih => exact (Run.Below.refl _).bind fun _ => ih
  | define global v next ih => exact (Run.Below.refl _).bind fun _ => ih
  | lookup global next ih => exact (Run.Below.refl _).bind fun m => ih _
  | depth next ih => exact (Run.Below.refl _).bind fun m => ih _
  | clock next ih => exact (Run.Below.refl _).bind fun reading => ih _

/-- Calls with less fuel are cut off. -/
theorem callWithin_below (host : Host) {fuel fuel' : Nat} (h : fuel ≤ fuel') :
    (callWithin host fuel).Below (callWithin host fuel') := by
  induction fuel generalizing fuel' with
  | zero => exact fun _ _ _ => below_outOfFuel _
  | succ fuel ih =>
    obtain ⟨fuel', rfl⟩ := Nat.exists_eq_add_one.2 (Nat.zero_lt_of_lt h)
    have hfuel := Nat.le_of_succ_le_succ h
    intro callee args site
    unfold callWithin
    refine (Run.Below.refl _).bind fun f => Run.Below.withCall ?_ _
    split
    · refine (Run.Below.refl _).bind fun m => ?_
      split
      · exact Act.below_perform (ih hfuel) host _ _ _
      · exact .refl _
    · refine (Run.Below.refl _).bind fun m => ?_
      split
      · exact Closure.below_run (ih hfuel) hfuel _ _
      · exact .refl _

/-- Programs with less fuel are cut off. -/
theorem Program.exec_below (host : Host) {fuel fuel' : Nat} (h : fuel ≤ fuel') (p : Program) :
    Run.Below (Program.exec host fuel p) (Program.exec host fuel' p) := by
  induction p with
  | nil => exact .refl _
  | cons s rest ih =>
    exact (Stmt.below_exec (callWithin_below host h) h Machine.globalFrame s).bind fun _ => ih

/-! ## Sessions -/

namespace Session

theorem interpret_mono {s : Session} {fuel fuel' : Nat} (h : fuel ≤ fuel') {p : Program}
    {r : Option RuntimeError × Session} (hr : s.interpret fuel p = some r) :
    s.interpret fuel' p = some r := by
  unfold interpret at hr ⊢
  cases ho : (Program.exec s.host fuel p).outcome s.machine with
  | none =>
    rw [ho] at hr
    cases hr
  | some o =>
    rw [ho] at hr
    rw [(Program.exec_below s.host h p).outcome ho]
    exact hr

theorem execute_mono {s : Session} {fuel fuel' : Nat} (h : fuel ≤ fuel') {script : Script}
    {r : Report × Session} (hr : s.execute fuel script = some r) :
    s.execute fuel' script = some r := by
  unfold execute at hr ⊢
  cases hrunnable : script.runnable? with
  | none =>
    rw [hrunnable] at hr
    exact hr
  | some p =>
    rw [hrunnable] at hr
    dsimp only at hr ⊢
    cases hi : s.interpret fuel p with
    | none =>
      rw [hi] at hr
      cases hr
    | some o =>
      rw [hi] at hr
      rw [interpret_mono h hi]
      exact hr

/-- More fuel does not change the end of a run. -/
theorem run_mono {s : Session} {fuel fuel' : Nat} (h : fuel ≤ fuel') {source : Text}
    {r : Report × Session} (hr : s.run fuel source = some r) : s.run fuel' source = some r :=
  execute_mono h hr

/-- Runs that end have the same end, whatever fuel they had. -/
theorem run_unique {s : Session} {fuel fuel' : Nat} {source : Text} {r r' : Report × Session}
    (h : s.run fuel source = some r) (h' : s.run fuel' source = some r') : r = r' := by
  have hmax := run_mono (Nat.le_max_left fuel fuel') h
  rw [run_mono (Nat.le_max_right fuel fuel') h'] at hmax
  exact (Option.some.inj hmax).symm

end Session

end Lox
