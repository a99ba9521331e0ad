import Lox.Proofs.Run.Raise

/-!
# Errors have an origin

Work never begins other work without end (`Task.grounded`). So every error in which a task ends leads
back to a point of the run where it was raised (`Task.Fails.raised`). Errors about undefined variables
are raised in two places only, at a reference and at an assignment (`Task.Fails.origin`).
-/

namespace Lox

variable {host : Host} {m : Machine} {e : RuntimeError} {fuel frame : Nat}

/-! ## Work ends -/

/-- The task comes, in a run, before the one it begins. -/
abbrev Later (host : Host) (y x : Task × Machine) : Prop := Begins host x.1 x.2 y.1 y.2

/-- On no machine does the task begin work without end. -/
def Task.Grounded (host : Host) (t : Task) : Prop := ∀ m, Acc (Later host) (t, m)

theorem Task.grounded_of_begins {t : Task}
    (h : ∀ m t' m', Begins host t m t' m' → t'.Grounded host) : t.Grounded host := by
  intro m
  constructor
  rintro ⟨t', m'⟩ hstep
  exact h m t' m' hstep m'

mutual

theorem Task.grounded_eval (hcall : ∀ v args site, (Task.call fuel v args site).Grounded host)
    (frame : Nat) (x : Expr) : (Task.eval fuel frame x).Grounded host := by
  refine grounded_of_begins fun m t' m' h => ?_
  cases x with
  | literal | reference => cases h
  | grouping x =>
    cases h
    exact grounded_eval hcall frame x
  | unary op x =>
    cases h
    exact grounded_eval hcall frame x
  | binary op l r =>
    cases h with
    | binaryLeft => exact grounded_eval hcall frame l
    | binaryRight => exact grounded_eval hcall frame r
  | logical op l r =>
    cases h with
    | logicalLeft => exact grounded_eval hcall frame l
    | logicalRight => exact grounded_eval hcall frame r
  | assign name d x =>
    cases h
    exact grounded_eval hcall frame x
  | call f xs loc =>
    cases h with
    | callee => exact grounded_eval hcall frame f
    | arguments => exact grounded_evalAll hcall frame xs
    | call => exact hcall _ _ _

theorem Task.grounded_evalAll (hcall : ∀ v args site, (Task.call fuel v args site).Grounded host)
    (frame : Nat) (xs : List Expr) : (Task.evalAll fuel frame xs).Grounded host := by
  refine grounded_of_begins fun m t' m' h => ?_
  cases xs with
  | nil => cases h
  | cons x xs =>
    cases h with
    | firstArgument => exact grounded_eval hcall frame x
    | laterArguments => exact grounded_evalAll hcall frame xs

end

theorem Task.grounded_loop {c : Expr} {body : Stmt} (hc : (Task.eval fuel frame c).Grounded host)
    (hbody : (Task.exec fuel frame body).Grounded host) (rounds : Nat) :
    (Task.loop fuel rounds frame c body).Grounded host := by
  induction rounds with
  | zero =>
    refine grounded_of_begins fun m t' m' h => ?_
    cases h
  | succ rounds ih =>
    refine grounded_of_begins fun m t' m' h => ?_
    cases h with
    | loopCondition => exact hc
    | loopBody => exact hbody
    | loopAgain => exact ih

mutual

theorem Task.grounded_exec (hcall : ∀ v args site, (Task.call fuel v args site).Grounded host)
    (frame : Nat) (s : Stmt) : (Task.exec fuel frame s).Grounded host := by
  refine grounded_of_begins fun m t' m' h => ?_
  cases s with
  | expression x | print x =>
    cases h
    exact grounded_eval hcall frame x
  | var name x =>
    cases h
    exact grounded_eval hcall frame _
  | block body =>
    cases h
    exact grounded_execAll hcall _ body
  | ifThen c branch =>
    cases h with
    | ifCondition => exact grounded_eval hcall frame c
    | ifBranch => exact grounded_exec hcall frame branch
  | ifElse c branch otherwise =>
    cases h with
    | elseCondition => exact grounded_eval hcall frame c
    | elseBranch => exact grounded_exec hcall frame branch
    | elseOtherwise => exact grounded_exec hcall frame otherwise
  | whileLoop c body =>
    cases h
    exact grounded_loop (grounded_eval hcall frame c) (grounded_exec hcall frame body) fuel
  | function => cases h
  | returnStmt x =>
    cases h
    exact grounded_eval hcall frame _

theorem Task.grounded_execAll (hcall : ∀ v args site, (Task.call fuel v args site).Grounded host)
    (frame : Nat) (body : List Stmt) : (Task.execAll fuel frame body).Grounded host := by
  refine grounded_of_begins fun m t' m' h => ?_
  cases body with
  | nil => cases h
  | cons s rest =>
    cases h with
    | firstStatement => exact grounded_exec hcall frame s
    | laterStatements => exact grounded_execAll hcall frame rest

end

theorem Task.grounded_act (hcall : ∀ v args site, (Task.call fuel v args site).Grounded host)
    (name : Text) (site : Location) (a : Act) : (Task.act fuel name site a).Grounded host := by
  induction a with
  | done | crash | raise | fail =>
    refine grounded_of_begins fun m t' m' h => ?_
    cases h
  | call callee args place next ih =>
    refine grounded_of_begins fun m t' m' h => ?_
    cases h with
    | actCall => exact hcall _ _ _
    | actCalled => exact ih _
  | attempt callee args place next ih =>
    refine grounded_of_begins fun m t' m' h => ?_
    cases h with
    | actAttempt => exact hcall _ _ _
    | actAttempted => exact ih _
  | write _ _ ih | define _ _ _ ih =>
    refine grounded_of_begins fun m t' m' h => ?_
    cases h
    exact ih
  | lookup _ _ ih | depth _ ih | clock _ ih =>
    refine grounded_of_begins fun m t' m' h => ?_
    cases h
    exact ih _

/-- A call begins nothing but work with less fuel. -/
theorem Task.grounded_call (host : Host) (fuel : Nat) (callee : Value) (args : List Value)
    (site : Location) : (Task.call fuel callee args site).Grounded host := by
  induction fuel generalizing callee args site with
  | zero =>
    refine grounded_of_begins fun m t' m' h => ?_
    cases h
  | succ fuel ih =>
    refine grounded_of_begins fun m t' m' h => ?_
    cases h with
    | function => exact grounded_execAll ih _ _
    | native => exact grounded_act ih _ _ _

theorem Task.grounded_program (host : Host) (fuel : Nat) (p : Program) :
    (Task.program fuel p).Grounded host := by
  induction p with
  | nil =>
    refine grounded_of_begins fun m t' m' h => ?_
    cases h
  | cons s rest ih =>
    refine grounded_of_begins fun m t' m' h => ?_
    cases h with
    | firstOfProgram => exact grounded_exec (grounded_call host fuel) _ s
    | laterOfProgram => exact ih

/-- No task begins work without end. -/
theorem Task.grounded (host : Host) (t : Task) : t.Grounded host := by
  cases t with
  | eval fuel frame x => exact grounded_eval (grounded_call host fuel) frame x
  | evalAll fuel frame xs => exact grounded_evalAll (grounded_call host fuel) frame xs
  | exec fuel frame s => exact grounded_exec (grounded_call host fuel) frame s
  | execAll fuel frame body => exact grounded_execAll (grounded_call host fuel) frame body
  | loop fuel rounds frame c body =>
    exact grounded_loop (grounded_eval (grounded_call host fuel) frame c)
      (grounded_exec (grounded_call host fuel) frame body) rounds
  | call fuel callee args site => exact grounded_call host fuel callee args site
  | act fuel name site a => exact grounded_act (grounded_call host fuel) name site a
  | program fuel p => exact grounded_program host fuel p

/-! ## Origins -/

/-- Every error in which a task ends was raised at a point that the task leads to, and its trace is the
calls under way there. -/
theorem Task.Fails.raised {t : Task} (h : t.Fails host m e) :
    ∃ t' m', Reaches host (t, m) (t', m') ∧ Raises host t' m' e.fault e.loc ∧ e.trace = m'.calls := by
  have hacc := Task.grounded host t m
  generalize hx : (t, m) = x at hacc
  induction hacc generalizing t m with
  | intro x _ ih =>
    subst hx
    rcases h.traced with ⟨hraises, htrace⟩ | ⟨t', m', hstep, h'⟩
    · exact ⟨t, m, .refl, hraises, htrace⟩
    · obtain ⟨t'', m'', hreach, horigin⟩ := ih (t', m') hstep h' rfl
      exact ⟨t'', m'', .head hstep hreach, horigin⟩

/-- The error is about a name without a value. -/
def RuntimeError.IsUndefined (e : RuntimeError) : Prop := ∃ x, e.fault = .undefinedVariable x

/-- The task is a reference to a name, or an assignment to one, and the name has no value. -/
inductive Misses (host : Host) (e : RuntimeError) : Task → Machine → Prop
  | reference {fuel frame : Nat} {m : Machine} {name : Name} {d : Option Nat} :
    (Expr.readVariable frame name d).Fails m e →
      Misses host e (.eval fuel frame (.reference name d)) m
  | assignment {fuel frame : Nat} {m m' : Machine} {name : Name} {d : Option Nat} {value : Expr}
      {v : Value} :
    value.eval (callWithin host fuel) frame m = .ok v m' →
      (Expr.writeVariable frame name d v).Fails m' e →
      Misses host e (.eval fuel frame (.assign name d value)) m

/-- No other point raises an error about an undefined variable. -/
theorem Raises.misses {t : Task} {fault : Fault} {loc : Location} (h : Raises host t m fault loc)
    {x : Text} (hfault : fault = .undefinedVariable x) :
    Misses host ⟨fault, loc, m.calls⟩ t m := by
  have hcode : fault.code = .undefinedVariable := by rw [hfault]; rfl
  cases h with
  | unary _ hop => cases (Operator.code_of_unaryValue hop).symm.trans hcode
  | binary _ _ hop => cases (Operator.code_of_binaryValue hop).symm.trans hcode
  | reference hnone => exact .reference (Expr.fails_readVariable hnone)
  | assignment hv hnone =>
    refine .assignment hv ?_
    rw [← calls_of_eval hv]
    exact Expr.fails_writeVariable hnone _
  | _ => cases hfault

/-- **Errors about undefined variables have an origin.** A task that ends in one leads to a reference
or an assignment whose name has no value, and that is the error. -/
theorem Task.Fails.origin {t : Task} (h : t.Fails host m e) (he : e.IsUndefined) :
    ∃ t' m', Reaches host (t, m) (t', m') ∧ Misses host e t' m' := by
  obtain ⟨x, hx⟩ := he
  obtain ⟨t', m', hreach, hraises, htrace⟩ := h.raised
  refine ⟨t', m', hreach, ?_⟩
  have hmisses := hraises.misses hx
  rwa [← htrace] at hmisses

end Lox
