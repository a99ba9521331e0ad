import Lox.Proofs.Run.Preservation

/-!
# The steps of a run

Whatever a run does to a machine it does in a few kinds of steps: it writes a line, binds a name, makes
a frame or a function, reads the clock, or runs something with one more call under way. A relation
between earlier and later machines that all of these steps keep (`Machine.Stepwise`) therefore holds
between the machine on which a run starts and the one behind it, whether the run ends with a result or
in an error (`Stepwise.callWithin`, `Stepwise.program`). Two such relations are that the same calls are
under way (`Machine.stepwise_calls`) and that what has been written stays (`Machine.stepwise_output`).
-/

namespace Lox

/-- A relation between an earlier and a later machine that holds across every step of a run. -/
structure Machine.Stepwise (R : Machine → Machine → Prop) : Prop where
  refl (m : Machine) : R m m
  trans {m m₁ m₂ : Machine} : R m m₁ → R m₁ m₂ → R m m₂
  write (m : Machine) (line : Text) : R m { m with output := m.output.push line }
  define (m : Machine) (frame : Nat) (name : Text) (v : Value) :
    R m { m with frames := m.frames.define frame name v }
  addChild (m : Machine) (parent : Nat) : R m { m with frames := m.frames.addChild parent }
  addFunction (m : Machine) (c : Closure) : R m (m.addFunction c).2
  readClock (m : Machine) : R m { m with readings := m.readings + 1 }
  /-- A call comes under way, something happens, and the call is over. -/
  inCall {m m' : Machine} (call : CallFrame) :
    R { m with calls := call :: m.calls } m' → R m { m' with calls := m'.calls.tail }

/-- The relation holds between any machine and the one behind the run. -/
def Run.Respects {α : Type} (R : Machine → Machine → Prop) (x : Run α) : Prop :=
  ∀ m, R m (x.final m)

theorem Run.Respects.of_ok {α : Type} {R : Machine → Machine → Prop} {x : Run α} {m m' : Machine}
    {a : α} (hx : x.Respects R) (h : x m = .ok a m') : R m m' := by
  have hfinal := hx m
  rwa [final_eq_of_ok h] at hfinal

/-- Behind a run in two parts is the machine behind the second part, or behind the first one if that
ends without a result. -/
theorem Run.final_bind {α β : Type} (x : Run α) (f : α → Run β) (m : Machine) :
    (∃ a, x m = .ok a (x.final m) ∧ (x >>= f).final m = (f a).final (x.final m)) ∨
      (x >>= f).final m = x.final m := by
  cases h : x m with
  | ok a m₁ =>
    refine .inl ⟨a, ?_, ?_⟩
    · rw [final_eq_of_ok h]
    · rw [final_eq_of_ok h]
      unfold final
      rw [bind_of_ok h]
  | error e m₁ =>
    right
    rw [final_eq_of_error h, final_eq_of_error (bind_of_error h)]

theorem Run.withCall_of_ok {α : Type} {x : Run α} {call : CallFrame} {m m' : Machine} {a : α}
    (h : x { m with calls := call :: m.calls } = .ok a m') :
    Run.withCall call x m = .ok a { m' with calls := m'.calls.tail } := by
  unfold Run.withCall
  rw [h]

theorem Run.withCall_of_error {α : Type} {x : Run α} {call : CallFrame} {m m' : Machine} {e : Abort}
    (h : x { m with calls := call :: m.calls } = .error e m') :
    Run.withCall call x m = .error e { m' with calls := m'.calls.tail } := by
  unfold Run.withCall
  rw [h]

namespace Machine.Stepwise

open Run

variable {R : Machine → Machine → Prop} (hR : Stepwise R) {α β : Type} {call : Caller}

/-! ## Ways of building runs -/

include hR

theorem pure (a : α) : (Pure.pure a : Run α).Respects R := hR.refl

theorem throw (e : Abort) : (MonadExcept.throw e : Run α).Respects R := hR.refl

theorem fail (fault : Fault) (loc : Location) : (Run.fail fault loc : Run α).Respects R := hR.refl

theorem get : (MonadState.get : Run Machine).Respects R := hR.refl

theorem bind {x : Run α} {f : α → Run β} (hx : x.Respects R) (hf : ∀ a, (f a).Respects R) :
    (x >>= f).Respects R := by
  intro m
  rcases final_bind x f m with ⟨a, -, hfinal⟩ | hfinal
  · rw [hfinal]
    exact hR.trans (hx m) (hf a _)
  · rw [hfinal]
    exact hx m

omit hR in
theorem ite {c : Prop} [Decidable c] {x y : Run α} (hx : x.Respects R) (hy : y.Respects R) :
    (if c then x else y).Respects R := by
  split
  · exact hx
  · exact hy

theorem afterFlow {x : Run Flow} (hx : x.Respects R) (flow : Flow) :
    (match flow with
      | .next => x
      | .returned v => return .returned v).Respects R := by
  cases flow with
  | next => exact hx
  | returned v => exact hR.pure _

theorem result (flow : Flow) :
    (match flow with
      | .next => return .nil
      | .returned v => return v : Run Value).Respects R := by
  cases flow <;> exact hR.pure _

theorem ofExcept (loc : Location) (r : Except Fault α) : (Run.ofExcept loc r).Respects R := by
  cases r with
  | ok a => exact hR.pure a
  | error fault => exact hR.fail fault loc

theorem withCall (frame : CallFrame) {x : Run α} (hx : x.Respects R) :
    (Run.withCall frame x).Respects R := by
  intro m
  rw [final_withCall]
  exact hR.inCall frame (hx _)

omit hR in
theorem attempt {x : Run α} (hx : x.Respects R) : (Run.attempt x).Respects R := by
  intro m
  rw [final_attempt]
  exact hx m

/-! ## Expressions and statements -/

theorem readVariable (frame : Nat) (name : Name) (d : Option Nat) :
    (Expr.readVariable frame name d).Respects R := by
  unfold Expr.readVariable
  refine hR.bind hR.get fun m => ?_
  dsimp only
  split
  · exact hR.pure _
  · exact hR.fail _ _

theorem writeVariable (frame : Nat) (name : Name) (d : Option Nat) (v : Value) :
    (Expr.writeVariable frame name d v).Respects R := by
  unfold Expr.writeVariable
  refine hR.bind hR.get fun m => ?_
  dsimp only
  split
  · intro m'
    exact hR.define m' _ _ _
  · exact hR.fail _ _

omit hR in
mutual

theorem eval (hR : Stepwise R) (hcall : ∀ v args site, (call v args site).Respects R) (frame : Nat)
    (e : Expr) : (e.eval call frame).Respects R := by
  cases e with
  | literal v => exact hR.pure v
  | grouping e => exact eval hR hcall frame e
  | unary op e => exact hR.bind (eval hR hcall frame e) fun v => hR.ofExcept _ _
  | binary op l r =>
    exact hR.bind (eval hR hcall frame l) fun v =>
      hR.bind (eval hR hcall frame r) fun w => hR.ofExcept _ _
  | logical op l r =>
    unfold Expr.eval
    refine hR.bind (eval hR hcall frame l) fun v => ite (hR.pure _) ?_
    exact hR.bind (eval hR hcall frame r) fun w => hR.pure _
  | reference name d => exact hR.readVariable frame name d
  | assign name d e =>
    exact hR.bind (eval hR hcall frame e) fun v =>
      hR.bind (hR.writeVariable frame name d v) fun _ => hR.pure v
  | call f args loc =>
    exact hR.bind (eval hR hcall frame f) fun callee =>
      hR.bind (evalAll hR hcall frame args) fun vs => hcall callee vs loc

theorem evalAll (hR : Stepwise R) (hcall : ∀ v args site, (call v args site).Respects R)
    (frame : Nat) (es : List Expr) : (Expr.evalAll call frame es).Respects R := by
  cases es with
  | nil => exact hR.pure []
  | cons e es =>
    exact hR.bind (eval hR hcall frame e) fun v =>
      hR.bind (evalAll hR hcall frame es) fun vs => hR.pure (v :: vs)

end

theorem evalOption (hcall : ∀ v args site, (call v args site).Respects R) (frame : Nat)
    (e : Option Expr) : (Expr.evalOption call frame e).Respects R := by
  cases e with
  | none => exact hR.pure Value.nil
  | some e => exact eval hR hcall frame e

theorem loop {condition : Run Value} {body : Run Flow} (hcondition : condition.Respects R)
    (hbody : body.Respects R) (rounds : Nat) : (Run.loop condition body rounds).Respects R := by
  induction rounds with
  | zero => exact hR.throw .outOfFuel
  | succ rounds ih =>
    exact hR.bind hcondition fun v => ite (hR.bind hbody (hR.afterFlow ih)) (hR.pure _)

omit hR in
mutual

theorem exec (hR : Stepwise R) (hcall : ∀ v args site, (call v args site).Respects R)
    (rounds frame : Nat) (s : Stmt) : (s.exec call rounds frame).Respects R := by
  cases s with
  | expression e => exact hR.bind (eval hR hcall frame e) fun _ => hR.pure _
  | print e =>
    exact hR.bind (eval hR hcall frame e) fun v => hR.bind (fun m => hR.write m v.text) fun _ => hR.pure _
  | var name e =>
    exact hR.bind (hR.evalOption hcall frame e) fun v =>
      hR.bind (fun m => hR.define m frame name.text v) fun _ => hR.pure _
  | block body =>
    exact hR.bind (fun m => hR.addChild m frame) fun inner => execAll hR hcall rounds inner body
  | ifThen c branch =>
    exact hR.bind (eval hR hcall frame c) fun v =>
      ite (exec hR hcall rounds frame branch) (hR.pure _)
  | ifElse c branch otherwise =>
    exact hR.bind (eval hR hcall frame c) fun v =>
      ite (exec hR hcall rounds frame branch) (exec hR hcall rounds frame otherwise)
  | whileLoop c body =>
    exact hR.loop (eval hR hcall frame c) (exec hR hcall rounds frame body) rounds
  | function name params body =>
    exact hR.bind (fun m => hR.addFunction m _) fun f =>
      hR.bind (fun m => hR.define m frame name.text f) fun _ => hR.pure _
  | returnStmt e => exact hR.bind (hR.evalOption hcall frame e) fun v => hR.pure _

theorem execAll (hR : Stepwise R) (hcall : ∀ v args site, (call v args site).Respects R)
    (rounds frame : Nat) (body : List Stmt) : (Stmt.execAll call rounds frame body).Respects R := by
  cases body with
  | nil => exact hR.pure _
  | cons s rest =>
    exact hR.bind (exec hR hcall rounds frame s)
      (hR.afterFlow (execAll hR hcall rounds frame rest))

end

/-! ## Calls and programs -/

theorem defineAll (frame : Nat) (pairs : List (Name × Value)) :
    (Run.defineAll frame pairs).Respects R := by
  induction pairs with
  | nil => exact hR.pure ()
  | cons pair pairs ih => exact hR.bind (fun m => hR.define m frame pair.1.text pair.2) fun _ => ih

theorem enter (c : Closure) (args : List Value) : (c.enter args).Respects R :=
  hR.bind (fun m => hR.addChild m c.frame) fun frame =>
    hR.bind (hR.defineAll frame _) fun _ => hR.pure frame

theorem closureRun (hcall : ∀ v args site, (call v args site).Respects R) (rounds : Nat)
    (c : Closure) (args : List Value) : (c.run call rounds args).Respects R :=
  hR.bind (hR.enter c args) fun frame =>
    hR.bind (execAll hR hcall rounds frame c.body) hR.result

theorem perform (host : Host) (hcall : ∀ v args site, (call v args site).Respects R) (name : Text)
    (site : Location) (act : Act) : (act.perform host call name site).Respects R := by
  induction act with
  | done v => exact hR.pure v
  | crash message => exact hR.fail _ _
  | raise code message loc => exact hR.fail _ _
  | fail code message loc => exact hR.fail _ _
  | call callee args place next ih => exact hR.bind (hcall callee args place) ih
  | attempt callee args place next ih => exact hR.bind (attempt (hcall callee args place)) ih
  | write line next ih => exact hR.bind (fun m => hR.write m line) fun _ => ih
  | define global v next ih =>
    exact hR.bind (fun m => hR.define m Machine.globalFrame global v) fun _ => ih
  | lookup global next ih => exact hR.bind hR.get fun m => ih _
  | depth next ih => exact hR.bind hR.get fun m => ih _
  | clock next ih => exact hR.bind (fun m => hR.readClock m) fun reading => ih _

theorem checkCall (host : Host) (callee : Value) (count : Nat) (site : Location) :
    (Lox.checkCall host callee count site).Respects R := by
  unfold Lox.checkCall
  cases callee.asCallable with
  | error mismatch => exact hR.fail _ _
  | ok f =>
    refine hR.bind hR.get fun m => ite (hR.fail _ _) (hR.bind hR.get fun m' => ?_)
    exact ite (hR.fail _ _) (hR.pure f)

/-- What holds across every step holds across every call. -/
theorem callWithin (host : Host) (fuel : Nat) (callee : Value) (args : List Value)
    (site : Location) : (Lox.callWithin host fuel callee args site).Respects R := by
  induction fuel generalizing callee args site with
  | zero => exact hR.throw .outOfFuel
  | succ fuel ih =>
    unfold Lox.callWithin
    refine hR.bind (hR.checkCall host callee args.length site) fun f => hR.withCall _ ?_
    split
    · refine hR.bind hR.get fun m => ?_
      split
      · exact hR.perform host ih _ _ _
      · exact hR.pure _
    · refine hR.bind hR.get fun m => ?_
      split
      · exact hR.closureRun ih _ _ _
      · exact hR.pure _

/-- What holds across every step holds across every program. -/
theorem program (host : Host) (fuel : Nat) (p : Program) :
    (Program.exec host fuel p).Respects R := by
  induction p with
  | nil => exact hR.pure ()
  | cons s rest ih =>
    exact hR.bind (exec hR (hR.callWithin host fuel) fuel Machine.globalFrame s) fun _ => ih

end Machine.Stepwise

/-! ## What every run keeps -/

/-- A run ends with the calls under way that it started with. -/
theorem Machine.stepwise_calls : Machine.Stepwise fun m m' => m'.calls = m.calls where
  refl _ := rfl
  trans h h' := h'.trans h
  write _ _ := rfl
  define _ _ _ _ := rfl
  addChild _ _ := rfl
  addFunction _ _ := rfl
  readClock _ := rfl
  inCall call h := by
    show List.tail _ = _
    rw [h]
    rfl

/-- A run leaves alone what has been written. -/
theorem Machine.stepwise_output :
    Machine.Stepwise fun m m' => ∃ lines, m'.output = m.output ++ lines where
  refl m := ⟨#[], Array.append_empty.symm⟩
  trans := by
    rintro m m₁ m₂ ⟨lines, h⟩ ⟨lines', h'⟩
    exact ⟨lines ++ lines', by rw [h', h, Array.append_assoc]⟩
  write m line := ⟨#[line], Array.push_eq_append⟩
  define m _ _ _ := ⟨#[], Array.append_empty.symm⟩
  addChild m _ := ⟨#[], Array.append_empty.symm⟩
  addFunction m _ := ⟨#[], Array.append_empty.symm⟩
  readClock m := ⟨#[], Array.append_empty.symm⟩
  inCall _ h := h

end Lox
