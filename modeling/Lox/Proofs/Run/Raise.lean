import Lox.Proofs.Run.Reach
import Lox.Proofs.Run.Steps

/-!
# Where errors are raised

An error arises at a point of a run: at an operator that its operands do not suit, at a name without a
value, at a call that cannot be made, or in a native function. `Raises` lists these points with the
cause and the location of the error, and the calls under way there become its trace
(`Raises.fails`). A task that ends in an error is the point where it is raised, or has begun a task that
ended in the same error (`Task.Fails.traced`).
-/

namespace Lox

/-! ## Runs that end in errors -/

namespace Run

variable {α β : Type} {x : Run α} {f : α → Run β} {m m' : Machine} {e : RuntimeError}

/-- The run ends in the error. -/
def Fails (x : Run α) (m : Machine) (e : RuntimeError) : Prop := ∃ m', x m = .error (.error e) m'

theorem not_fails_of_ok {a : α} (hx : x m = .ok a m') : ¬x.Fails m e := by
  rintro ⟨m'', h⟩
  cases hx.symm.trans h

theorem not_fails_pure (a : α) : ¬(pure a : Run α).Fails m e := not_fails_of_ok rfl

theorem not_fails_get : ¬(get : Run Machine).Fails m e := not_fails_of_ok rfl

theorem not_fails_outOfFuel : ¬(throw .outOfFuel : Run α).Fails m e := by
  rintro ⟨m', h⟩
  cases h

/-- A run in two parts ends in an error in the first or in the second one. -/
theorem Fails.of_bind (h : (x >>= f).Fails m e) :
    x.Fails m e ∨ ∃ a m', x m = .ok a m' ∧ (f a).Fails m' e := by
  obtain ⟨m', h⟩ := h
  change EStateM.bind x f m = _ at h
  unfold EStateM.bind at h
  cases hx : x m with
  | ok a m₁ =>
    rw [hx] at h
    exact .inr ⟨a, m₁, rfl, m', h⟩
  | error e' m₁ =>
    rw [hx] at h
    cases h
    exact .inl ⟨_, hx⟩

theorem fails_fail (fault : Fault) (loc : Location) :
    (fail fault loc : Run α).Fails m ⟨fault, loc, m.calls⟩ := ⟨m, rfl⟩

theorem Fails.of_fail {fault : Fault} {loc : Location} (h : (fail fault loc : Run α).Fails m e) :
    e = ⟨fault, loc, m.calls⟩ := by
  obtain ⟨m', h⟩ := h
  cases h
  rfl

theorem Fails.of_ofExcept {r : Except Fault α} {loc : Location} (h : (ofExcept loc r).Fails m e) :
    ∃ fault, r = .error fault ∧ e = ⟨fault, loc, m.calls⟩ := by
  cases r with
  | ok a => exact absurd h (not_fails_pure a)
  | error fault => exact ⟨fault, rfl, h.of_fail⟩

theorem not_fails_write (line : Text) : ¬(write line).Fails m e := not_fails_of_ok rfl

theorem not_fails_define (frame : Nat) (name : Text) (v : Value) :
    ¬(define frame name v).Fails m e := not_fails_of_ok rfl

theorem not_fails_newFrame (parent : Nat) : ¬(newFrame parent).Fails m e := not_fails_of_ok rfl

theorem not_fails_attempt : ¬(attempt x).Fails m e := by
  rintro ⟨m', h⟩
  unfold attempt at h
  split at h <;> cases h

theorem not_fails_defineAll (frame : Nat) (bindings : List (Name × Value)) :
    ¬(defineAll frame bindings).Fails m e := by
  induction bindings generalizing m with
  | nil => exact not_fails_pure ()
  | cons b rest ih =>
    intro h
    rcases Fails.of_bind h with h | ⟨_, _, _, h⟩
    · exact not_fails_define _ _ _ h
    · exact ih h

theorem Fails.of_withCall {call : CallFrame} (h : (withCall call x).Fails m e) :
    x.Fails { m with calls := call :: m.calls } e := by
  obtain ⟨m', h⟩ := h
  unfold withCall at h
  split at h
  · cases h
  · next hx =>
    cases h
    exact ⟨_, hx⟩

end Run

theorem Closure.not_fails_enter (c : Closure) (args : List Value) {m : Machine} {e : RuntimeError} :
    ¬(c.enter args).Fails m e := by
  intro h
  rcases h.of_bind with h | ⟨_, _, _, h⟩
  · exact Run.not_fails_newFrame _ h
  · rcases h.of_bind with h | ⟨_, _, _, h⟩
    · exact Run.not_fails_defineAll _ _ h
    · exact Run.not_fails_pure _ h

/-! ## Causes -/

/-- Operators fail on operands of other types only. -/
theorem Operator.code_of_unaryValue {op : Operator} {v : Value} {fault : Fault}
    (h : op.unaryValue v = .error fault) : fault.code = .typeMismatch := by
  unfold unaryValue at h
  split at h <;> cases h <;> rfl

theorem Operator.code_of_binaryValue {op : Operator} {v w : Value} {fault : Fault}
    (h : op.binaryValue v w = .error fault) : fault.code = .typeMismatch := by
  have hnumbers {f : Number → Number → Value} (h : onNumbers f v w = .error fault) :
      fault.code = .typeMismatch := by
    unfold onNumbers at h
    split at h <;> cases h
    rfl
  have hplus (h : plus v w = .error fault) : fault.code = .typeMismatch := by
    unfold plus at h
    split at h <;> cases h
    rfl
  unfold binaryValue at h
  split at h
  all_goals first | exact hplus h | exact hnumbers h | cases h
  rfl

theorem Value.asCallable_of_not_isCallable {v : Value} (h : v.isCallable = false) :
    v.asCallable = .error ⟨.callable, v⟩ := by
  cases v with
  | function | native => cases h
  | _ => rfl

theorem Value.of_asCallable_error {v : Value} {mismatch : Mismatch}
    (h : v.asCallable = .error mismatch) : v.isCallable = false ∧ mismatch.got = v := by
  cases v with
  | function | native => cases h
  | _ =>
    cases h
    exact ⟨rfl, rfl⟩

/-- The value of a name: of a local variable at its distance, or of a global one. -/
def Machine.value? (m : Machine) (frame : Nat) (name : Name) : Option Nat → Option Value
  | some d => m.frames.getAt frame d name.text
  | none => m.global? name.text

/-- The frame in which an assignment to a name changes its value. -/
def Machine.binder? (m : Machine) (frame : Nat) (name : Name) : Option Nat → Option Nat
  | some d => m.frames.binder? frame d name.text
  | none => m.frames.binder? Machine.globalFrame 0 name.text

theorem Frames.binder?_eq_none {fs : Frames} {frame d : Nat} {x : Text} :
    fs.binder? frame d x = none ↔ fs.getAt frame d x = none := by
  unfold binder? getAt hasLocal
  cases fs.ancestor? frame d with
  | none => simp
  | some target => simp

/-- A name can be assigned to if and only if it has a value. -/
theorem Machine.binder?_eq_none {m : Machine} {frame : Nat} {name : Name} {d : Option Nat} :
    m.binder? frame name d = none ↔ m.value? frame name d = none := by
  cases d <;> exact Frames.binder?_eq_none

namespace Expr

variable {frame : Nat} {name : Name} {d : Option Nat} {m : Machine} {v : Value} {e : RuntimeError}

theorem readVariable_eq (frame : Nat) (name : Name) (d : Option Nat) (m : Machine) :
    readVariable frame name d m = (match m.value? frame name d with
      | some v => return v
      | none => Run.fail (.undefinedVariable name.text) name.loc : Run Value) m := by
  cases d <;> rfl

theorem writeVariable_eq (frame : Nat) (name : Name) (d : Option Nat) (v : Value) (m : Machine) :
    writeVariable frame name d v m = (match m.binder? frame name d with
      | some target => Run.define target name.text v
      | none => Run.fail (.undefinedVariable name.text) name.loc : Run Unit) m := by
  cases d <;> rfl

theorem fails_readVariable (h : m.value? frame name d = none) :
    (readVariable frame name d).Fails m ⟨.undefinedVariable name.text, name.loc, m.calls⟩ := by
  refine ⟨m, ?_⟩
  rw [readVariable_eq, h]
  rfl

theorem fails_writeVariable (h : m.value? frame name d = none) (v : Value) :
    (writeVariable frame name d v).Fails m ⟨.undefinedVariable name.text, name.loc, m.calls⟩ := by
  refine ⟨m, ?_⟩
  rw [writeVariable_eq, Machine.binder?_eq_none.2 h]
  rfl

end Expr

open Run

theorem Run.Fails.of_readVariable {frame : Nat} {name : Name} {d : Option Nat} {m : Machine}
    {e : RuntimeError} (h : (Expr.readVariable frame name d).Fails m e) :
    m.value? frame name d = none ∧ e = ⟨.undefinedVariable name.text, name.loc, m.calls⟩ := by
  obtain ⟨m', h⟩ := h
  rw [Expr.readVariable_eq] at h
  cases hv : m.value? frame name d with
  | some v =>
    rw [hv] at h
    cases h
  | none =>
    rw [hv] at h
    cases h
    exact ⟨rfl, rfl⟩

theorem Run.Fails.of_writeVariable {frame : Nat} {name : Name} {d : Option Nat} {v : Value}
    {m : Machine} {e : RuntimeError} (h : (Expr.writeVariable frame name d v).Fails m e) :
    m.value? frame name d = none ∧ e = ⟨.undefinedVariable name.text, name.loc, m.calls⟩ := by
  obtain ⟨m', h⟩ := h
  rw [Expr.writeVariable_eq] at h
  cases hbinder : m.binder? frame name d with
  | some target =>
    rw [hbinder] at h
    cases h
  | none =>
    rw [hbinder] at h
    cases h
    exact ⟨Machine.binder?_eq_none.1 hbinder, rfl⟩

/-! ## Points where errors are raised -/

/-- At the beginning of the task, or once its operands have values, an error with the cause and the
location is raised. -/
inductive Raises (host : Host) : Task → Machine → Fault → Location → Prop
  | unary {fuel frame : Nat} {m m' : Machine} {x : Expr} {op : Operator} {v : Value}
      {fault : Fault} :
    x.eval (callWithin host fuel) frame m = .ok v m' → op.unaryValue v = .error fault →
      Raises host (.eval fuel frame (.unary op x)) m fault op.loc
  | binary {fuel frame : Nat} {m m' m'' : Machine} {l r : Expr} {op : Operator} {v w : Value}
      {fault : Fault} :
    l.eval (callWithin host fuel) frame m = .ok v m' →
      r.eval (callWithin host fuel) frame m' = .ok w m'' → op.binaryValue v w = .error fault →
      Raises host (.eval fuel frame (.binary op l r)) m fault op.loc
  | reference {fuel frame : Nat} {m : Machine} {name : Name} {d : Option Nat} :
    m.value? frame name d = none →
      Raises host (.eval fuel frame (.reference name d)) m (.undefinedVariable name.text) name.loc
  | assignment {fuel frame : Nat} {m m' : Machine} {name : Name} {d : Option Nat} {x : Expr}
      {v : Value} :
    x.eval (callWithin host fuel) frame m = .ok v m' → m'.value? frame name d = none →
      Raises host (.eval fuel frame (.assign name d x)) m (.undefinedVariable name.text) name.loc
  | notCallable {fuel : Nat} {m : Machine} {callee : Value} {args : List Value} {site : Location} :
    callee.isCallable = false →
      Raises host (.call (fuel + 1) callee args site) m (.notCallable callee.typeName) site
  | arityMismatch {fuel : Nat} {m : Machine} {callee : Value} {args : List Value} {site : Location}
      {f : Callable} :
    callee.asCallable = .ok f → args.length ≠ m.arity callee f →
      Raises host (.call (fuel + 1) callee args site) m
        (.arityMismatch (m.arity callee f) args.length) site
  | stackOverflow {fuel : Nat} {m : Machine} {callee : Value} {args : List Value} {site : Location}
      {f : Callable} :
    callee.asCallable = .ok f → args.length = m.arity callee f → host.maxDepth ≤ m.depth →
      Raises host (.call (fuel + 1) callee args site) m (.stackOverflow host.maxDepth) site
  /-- A native function breaks off. -/
  | crash {fuel : Nat} {m : Machine} {name message : Text} {site : Location} :
    Raises host (.act fuel name site (.crash message)) m (.nativeFailed name message) site
  /-- A native function reports an error; one without a line is located at the call. -/
  | raise {fuel : Nat} {m : Machine} {name message : Text} {site loc : Location} {code : Code} :
    Raises host (.act fuel name site (.raise code message loc)) m (.raised code message)
      (if loc.line = 0 then site else loc)
  | fail {fuel : Nat} {m : Machine} {name message : Text} {site loc : Location} {code : Code} :
    Raises host (.act fuel name site (.fail code message loc)) m (.raised code message) loc

/-- The task ends in the error. -/
def Task.Fails (host : Host) (m : Machine) (e : RuntimeError) : Task → Prop
  | .eval fuel frame x => (x.eval (callWithin host fuel) frame).Fails m e
  | .evalAll fuel frame xs => (Expr.evalAll (callWithin host fuel) frame xs).Fails m e
  | .exec fuel frame s => (s.exec (callWithin host fuel) fuel frame).Fails m e
  | .execAll fuel frame body => (Stmt.execAll (callWithin host fuel) fuel frame body).Fails m e
  | .loop fuel rounds frame c body =>
    (Run.loop (c.eval (callWithin host fuel) frame)
      (body.exec (callWithin host fuel) fuel frame) rounds).Fails m e
  | .call fuel callee args site => (callWithin host fuel callee args site).Fails m e
  | .act fuel name site a => (a.perform host (callWithin host fuel) name site).Fails m e
  | .program fuel p => (Program.exec host fuel p).Fails m e

/-- The error is raised in the task, with the calls under way as its trace, or the task begins one that
ends in it. -/
def Task.Traced (host : Host) (m : Machine) (e : RuntimeError) (t : Task) : Prop :=
  Raises host t m e.fault e.loc ∧ e.trace = m.calls ∨
    ∃ t' m', Begins host t m t' m' ∧ t'.Fails host m' e

variable {host : Host} {m m' : Machine} {e : RuntimeError} {fuel frame : Nat}

/-! ### Calls under way -/

theorem calls_of_eval {x : Expr} {v : Value}
    (h : x.eval (callWithin host fuel) frame m = .ok v m') : m'.calls = m.calls :=
  (Machine.stepwise_calls.eval (Machine.stepwise_calls.callWithin host fuel) frame x).of_ok h

theorem calls_of_evalAll {xs : List Expr} {vs : List Value}
    (h : Expr.evalAll (callWithin host fuel) frame xs m = .ok vs m') : m'.calls = m.calls :=
  (Machine.stepwise_calls.evalAll (Machine.stepwise_calls.callWithin host fuel) frame xs).of_ok h

theorem calls_of_exec {s : Stmt} {flow : Flow}
    (h : s.exec (callWithin host fuel) fuel frame m = .ok flow m') : m'.calls = m.calls :=
  (Machine.stepwise_calls.exec (Machine.stepwise_calls.callWithin host fuel) fuel frame s).of_ok h

theorem calls_of_call {callee : Value} {args : List Value} {site : Location} {v : Value}
    (h : callWithin host fuel callee args site m = .ok v m') : m'.calls = m.calls :=
  (Machine.stepwise_calls.callWithin host fuel callee args site).of_ok h

/-! ### Checks of calls -/

/-- A value that can be called is checked for its parameters first and then for the limit. -/
theorem checkCall_eq {callee : Value} {count : Nat} {site : Location} {g : Callable}
    (h : callee.asCallable = .ok g) :
    checkCall host callee count site m =
      (if count ≠ m.arity callee g then Run.fail (.arityMismatch (m.arity callee g) count) site
      else if host.maxDepth ≤ m.depth then Run.fail (.stackOverflow host.maxDepth) site
      else return g : Run Callable) m := by
  unfold checkCall
  rw [h]
  change (ite (count ≠ m.arity callee g) _ _ : Run Callable) m = _
  split <;> rfl

/-- Checking a call changes nothing, and a call that passes may be made. -/
theorem checkCall_ok {callee : Value} {count : Nat} {site : Location} {g : Callable}
    (h : checkCall host callee count site m = .ok g m') :
    m' = m ∧ callee.asCallable = .ok g ∧ count = m.arity callee g ∧ m.depth < host.maxDepth := by
  cases hcallable : callee.asCallable with
  | error mismatch =>
    unfold checkCall at h
    rw [hcallable] at h
    cases h
  | ok f =>
    rw [checkCall_eq hcallable] at h
    split at h
    · cases h
    · next hcount =>
      split at h
      · cases h
      · next hdepth =>
        cases h
        exact ⟨rfl, rfl, not_not.1 hcount, Nat.lt_of_not_le hdepth⟩

/-- A call that does not pass the checks raises an error. -/
theorem Run.Fails.of_checkCall {callee : Value} {args : List Value} {site : Location}
    (h : (checkCall host callee args.length site).Fails m e) :
    Raises host (.call (fuel + 1) callee args site) m e.fault e.loc ∧ e.trace = m.calls := by
  cases hcallable : callee.asCallable with
  | error mismatch =>
    obtain ⟨hkind, hgot⟩ := Value.of_asCallable_error hcallable
    unfold checkCall at h
    rw [hcallable] at h
    cases h.of_fail
    rw [hgot]
    exact ⟨.notCallable hkind, rfl⟩
  | ok f =>
    obtain ⟨m', h⟩ := h
    rw [checkCall_eq hcallable] at h
    split at h
    · next hcount =>
      cases h
      exact ⟨.arityMismatch hcallable hcount, rfl⟩
    · next hcount =>
      split at h
      · next hdepth =>
        cases h
        exact ⟨.stackOverflow hcallable (not_not.1 hcount) hdepth, rfl⟩
      · cases h

/-! ### Tasks that fail -/

theorem Task.traced_eval (x : Expr) (h : (x.eval (callWithin host fuel) frame).Fails m e) :
    (Task.eval fuel frame x).Traced host m e := by
  cases x with
  | literal v => exact absurd h (Run.not_fails_pure v)
  | grouping x => exact .inr ⟨_, _, .grouping, h⟩
  | unary op x =>
    rcases h.of_bind with h | ⟨v, _, hv, h⟩
    · exact .inr ⟨_, _, .unary, h⟩
    · obtain ⟨fault, hfault, rfl⟩ := h.of_ofExcept
      exact .inl ⟨.unary hv hfault, calls_of_eval hv⟩
  | binary op l r =>
    rcases h.of_bind with h | ⟨v, _, hv, h⟩
    · exact .inr ⟨_, _, .binaryLeft, h⟩
    · rcases h.of_bind with h | ⟨w, _, hw, h⟩
      · exact .inr ⟨_, _, .binaryRight hv, h⟩
      · obtain ⟨fault, hfault, rfl⟩ := h.of_ofExcept
        exact .inl ⟨.binary hv hw hfault, (calls_of_eval hw).trans (calls_of_eval hv)⟩
  | logical op l r =>
    unfold Expr.eval at h
    rcases h.of_bind with h | ⟨v, _, hv, h⟩
    · exact .inr ⟨_, _, .logicalLeft, h⟩
    · split at h
      · exact absurd h (Run.not_fails_pure _)
      · next hdecides =>
        rcases h.of_bind with h | ⟨w, _, _, h⟩
        · exact .inr ⟨_, _, .logicalRight hv (Bool.eq_false_iff.2 hdecides), h⟩
        · exact absurd h (Run.not_fails_pure _)
  | reference name d =>
    obtain ⟨hnone, rfl⟩ := h.of_readVariable
    exact .inl ⟨.reference hnone, rfl⟩
  | assign name d x =>
    rcases h.of_bind with h | ⟨v, _, hv, h⟩
    · exact .inr ⟨_, _, .assigned, h⟩
    · rcases h.of_bind with h | ⟨_, _, _, h⟩
      · obtain ⟨hnone, rfl⟩ := h.of_writeVariable
        exact .inl ⟨.assignment hv hnone, calls_of_eval hv⟩
      · exact absurd h (Run.not_fails_pure v)
  | call f xs loc =>
    rcases h.of_bind with h | ⟨v, _, hv, h⟩
    · exact .inr ⟨_, _, .callee, h⟩
    · rcases h.of_bind with h | ⟨vs, _, hvs, h⟩
      · exact .inr ⟨_, _, .arguments hv, h⟩
      · exact .inr ⟨_, _, .call hv hvs, h⟩

theorem Task.traced_evalAll (xs : List Expr)
    (h : (Expr.evalAll (callWithin host fuel) frame xs).Fails m e) :
    (Task.evalAll fuel frame xs).Traced host m e := by
  cases xs with
  | nil => exact absurd h (Run.not_fails_pure _)
  | cons x xs =>
    rcases h.of_bind with h | ⟨v, _, hv, h⟩
    · exact .inr ⟨_, _, .firstArgument, h⟩
    · rcases h.of_bind with h | ⟨vs, _, _, h⟩
      · exact .inr ⟨_, _, .laterArguments hv, h⟩
      · exact absurd h (Run.not_fails_pure _)

theorem Task.traced_exec (s : Stmt)
    (h : (s.exec (callWithin host fuel) fuel frame).Fails m e) :
    (Task.exec fuel frame s).Traced host m e := by
  cases s with
  | expression x loc =>
    rcases h.of_bind with h | ⟨v, _, _, h⟩
    · exact .inr ⟨_, _, .expression, h⟩
    · exact absurd h (Run.not_fails_pure _)
  | print x loc =>
    rcases h.of_bind with h | ⟨v, _, _, h⟩
    · exact .inr ⟨_, _, .print, h⟩
    · rcases h.of_bind with h | ⟨_, _, _, h⟩
      · exact absurd h (Run.not_fails_write _)
      · exact absurd h (Run.not_fails_pure _)
  | var name x =>
    rcases h.of_bind with h | ⟨v, _, _, h⟩
    · cases x with
      | none => exact absurd h (Run.not_fails_pure _)
      | some x => exact .inr ⟨_, _, .initializer, h⟩
    · rcases h.of_bind with h | ⟨_, _, _, h⟩
      · exact absurd h (Run.not_fails_define _ _ _)
      · exact absurd h (Run.not_fails_pure _)
  | block body loc =>
    rcases h.of_bind with h | ⟨inner, _, hinner, h⟩
    · exact absurd h (Run.not_fails_newFrame _)
    · exact .inr ⟨_, _, .block hinner, h⟩
  | ifThen c branch loc =>
    unfold Stmt.exec at h
    rcases h.of_bind with h | ⟨v, _, hv, h⟩
    · exact .inr ⟨_, _, .ifCondition, h⟩
    · split at h
      · next htrue => exact .inr ⟨_, _, .ifBranch hv htrue, h⟩
      · exact absurd h (Run.not_fails_pure _)
  | ifElse c branch otherwise loc =>
    unfold Stmt.exec at h
    rcases h.of_bind with h | ⟨v, _, hv, h⟩
    · exact .inr ⟨_, _, .elseCondition, h⟩
    · split at h
      · next htrue => exact .inr ⟨_, _, .elseBranch hv htrue, h⟩
      · next hfalse => exact .inr ⟨_, _, .elseOtherwise hv (Bool.eq_false_iff.2 hfalse), h⟩
  | whileLoop c body loc => exact .inr ⟨_, _, .whileLoop, h⟩
  | function name params body =>
    rcases h.of_bind with h | ⟨f, _, _, h⟩
    · exact absurd h (Run.not_fails_of_ok rfl)
    · rcases h.of_bind with h | ⟨_, _, _, h⟩
      · exact absurd h (Run.not_fails_define _ _ _)
      · exact absurd h (Run.not_fails_pure _)
  | returnStmt x loc =>
    rcases h.of_bind with h | ⟨v, _, _, h⟩
    · cases x with
      | none => exact absurd h (Run.not_fails_pure _)
      | some x => exact .inr ⟨_, _, .returned, h⟩
    · exact absurd h (Run.not_fails_pure _)

theorem Task.traced_execAll (body : List Stmt)
    (h : (Stmt.execAll (callWithin host fuel) fuel frame body).Fails m e) :
    (Task.execAll fuel frame body).Traced host m e := by
  cases body with
  | nil => exact absurd h (Run.not_fails_pure _)
  | cons s rest =>
    unfold Stmt.execAll at h
    rcases h.of_bind with h | ⟨flow, _, hs, h⟩
    · exact .inr ⟨_, _, .firstStatement, h⟩
    · cases flow with
      | next => exact .inr ⟨_, _, .laterStatements hs, h⟩
      | returned v => exact absurd h (Run.not_fails_pure _)

theorem Task.traced_loop (rounds : Nat) (c : Expr) (body : Stmt)
    (h : (Run.loop (c.eval (callWithin host fuel) frame)
      (body.exec (callWithin host fuel) fuel frame) rounds).Fails m e) :
    (Task.loop fuel rounds frame c body).Traced host m e := by
  cases rounds with
  | zero => exact absurd h Run.not_fails_outOfFuel
  | succ rounds =>
    unfold Run.loop at h
    rcases h.of_bind with h | ⟨v, _, hv, h⟩
    · exact .inr ⟨_, _, .loopCondition, h⟩
    · split at h
      · next htrue =>
        rcases h.of_bind with h | ⟨flow, _, hs, h⟩
        · exact .inr ⟨_, _, .loopBody hv htrue, h⟩
        · cases flow with
          | next => exact .inr ⟨_, _, .loopAgain hv htrue hs, h⟩
          | returned v => exact absurd h (Run.not_fails_pure _)
      · exact absurd h (Run.not_fails_pure _)

theorem Task.traced_act (name : Text) (site : Location) (a : Act)
    (h : (a.perform host (callWithin host fuel) name site).Fails m e) :
    (Task.act fuel name site a).Traced host m e := by
  cases a with
  | done v => exact absurd h (Run.not_fails_pure v)
  | crash message =>
    cases h.of_fail
    exact .inl ⟨.crash, rfl⟩
  | raise code message loc =>
    cases h.of_fail
    exact .inl ⟨.raise, rfl⟩
  | fail code message loc =>
    cases h.of_fail
    exact .inl ⟨.fail, rfl⟩
  | call =>
    rcases h.of_bind with h | ⟨v, _, hv, h⟩
    · exact .inr ⟨_, _, .actCall, h⟩
    · exact .inr ⟨_, _, .actCalled hv, h⟩
  | attempt =>
    rcases h.of_bind with h | ⟨r, _, hr, h⟩
    · exact absurd h Run.not_fails_attempt
    · exact .inr ⟨_, _, .actAttempted hr, h⟩
  | write line =>
    rcases h.of_bind with h | ⟨_, _, hw, h⟩
    · exact absurd h (Run.not_fails_write line)
    · exact .inr ⟨_, _, .actWrite hw, h⟩
  | define global v =>
    rcases h.of_bind with h | ⟨_, _, hd, h⟩
    · exact absurd h (Run.not_fails_define _ _ _)
    · exact .inr ⟨_, _, .actDefine hd, h⟩
  | lookup => exact .inr ⟨_, _, .actLookup, h⟩
  | depth => exact .inr ⟨_, _, .actDepth, h⟩
  | clock => exact .inr ⟨_, _, .actClock, h⟩

theorem Task.traced_call (callee : Value) (args : List Value) (site : Location)
    (h : (callWithin host fuel callee args site).Fails m e) :
    (Task.call fuel callee args site).Traced host m e := by
  cases fuel with
  | zero => exact absurd h Run.not_fails_outOfFuel
  | succ fuel =>
    unfold callWithin at h
    rcases h.of_bind with hchecked | ⟨g, m', hcheck, hwith⟩
    · exact .inl hchecked.of_checkCall
    · obtain ⟨rfl, hcallable, -⟩ := checkCall_ok hcheck
      have hbody := hwith.of_withCall
      cases callee with
      | native g' =>
        cases hcallable
        rcases hbody.of_bind with h | ⟨m₁, m₂, hget, h⟩
        · exact absurd h Run.not_fails_get
        · cases hget
          split at h
          · next native hnative => exact .inr ⟨_, _, .native hcheck hnative, h⟩
          · exact absurd h (Run.not_fails_pure _)
      | function g' =>
        cases hcallable
        rcases hbody.of_bind with h | ⟨m₁, m₂, hget, h⟩
        · exact absurd h Run.not_fails_get
        · cases hget
          split at h
          · next c hc =>
            rcases h.of_bind with h | ⟨inner, _, henter, h⟩
            · exact absurd h (c.not_fails_enter args)
            · rcases h.of_bind with h | ⟨flow, _, _, h⟩
              · exact .inr ⟨_, _, .function hcheck hc henter, h⟩
              · cases flow <;> exact absurd h (Run.not_fails_pure _)
          · exact absurd h (Run.not_fails_pure _)
      | _ => cases hcallable

theorem Task.traced_program (p : Program) (h : (Program.exec host fuel p).Fails m e) :
    (Task.program fuel p).Traced host m e := by
  cases p with
  | nil => exact absurd h (Run.not_fails_pure _)
  | cons s rest =>
    rcases h.of_bind with h | ⟨flow, _, hs, h⟩
    · exact .inr ⟨_, _, .firstOfProgram, h⟩
    · exact .inr ⟨_, _, .laterOfProgram hs, h⟩

/-- A task that ends in an error is where the error is raised, or begins a task that ends in it. -/
theorem Task.Fails.traced {t : Task} (h : t.Fails host m e) : t.Traced host m e := by
  cases t with
  | eval _ _ x => exact traced_eval x h
  | evalAll _ _ xs => exact traced_evalAll xs h
  | exec _ _ s => exact traced_exec s h
  | execAll _ _ body => exact traced_execAll body h
  | loop _ rounds _ c body => exact traced_loop rounds c body h
  | call _ callee args site => exact traced_call callee args site h
  | act _ name site a => exact traced_act name site a h
  | program _ p => exact traced_program p h

end Lox
