import Lox.Proofs.Run.Depth

/-!
# The trace of an error

Where an error is raised, the calls under way become its trace (`Raises.fails`). From there it goes out
from each task to the one that began it, and nothing about it changes (`Begins.fails`): it reaches the
host, or a native function that goes on after errors (`Reaches.fails`). So the trace of an error that
reaches the host is the calls that had been entered and not been left where it was raised
(`Session.trace_of_endsIn`).
-/

namespace Lox

/-! ## Errors go out -/

namespace Run.Fails

variable {α β : Type} {x : Run α} {f : α → Run β} {m m' : Machine} {e : RuntimeError}

theorem bind_left (h : x.Fails m e) : (x >>= f).Fails m e := by
  obtain ⟨m', h⟩ := h
  exact ⟨m', bind_of_error h⟩

theorem bind_right {a : α} (hx : x m = .ok a m') (h : (f a).Fails m' e) : (x >>= f).Fails m e := by
  obtain ⟨m'', h⟩ := h
  exact ⟨m'', (bind_of_ok hx).trans h⟩

theorem ite_pos {c : Bool} (hc : c = true) {y : Run α} (h : x.Fails m e) :
    (if c = true then x else y).Fails m e := by
  rwa [if_pos hc]

theorem ite_neg {c : Bool} (hc : c = false) {y : Run α} (h : x.Fails m e) :
    (if c = true then y else x).Fails m e := by
  rwa [if_neg (Bool.eq_false_iff.1 hc)]

theorem withCall {call : CallFrame} (h : x.Fails { m with calls := call :: m.calls } e) :
    (withCall call x).Fails m e := by
  obtain ⟨m', h⟩ := h
  exact ⟨_, withCall_of_error h⟩

end Run.Fails

variable {host : Host} {t t' : Task} {m m' : Machine} {e : RuntimeError} {fuel : Nat}

theorem fails_callWithin_of_checkCall {callee : Value} {args : List Value} {site : Location}
    (h : (checkCall host callee args.length site).Fails m e) :
    (callWithin host (fuel + 1) callee args site).Fails m e := by
  unfold callWithin
  exact .bind_left h

/-- The task ends in the error that it raises, with the calls under way as its trace. -/
theorem Raises.fails {fault : Fault} {loc : Location} (h : Raises host t m fault loc) :
    t.Fails host m ⟨fault, loc, m.calls⟩ := by
  cases h with
  | unary hv hop =>
    refine .bind_right hv ?_
    rw [hop, ← calls_of_eval hv]
    exact Run.fails_fail _ _
  | binary hv hw hop =>
    refine .bind_right hv (.bind_right hw ?_)
    rw [hop, ← calls_of_eval hv, ← calls_of_eval hw]
    exact Run.fails_fail _ _
  | reference hnone => exact Expr.fails_readVariable hnone
  | assignment hv hnone =>
    refine .bind_right hv (.bind_left ?_)
    rw [← calls_of_eval hv]
    exact Expr.fails_writeVariable hnone _
  | crash | raise | fail => exact Run.fails_fail _ _
  | notCallable hkind =>
    apply fails_callWithin_of_checkCall
    unfold checkCall
    rw [Value.asCallable_of_not_isCallable hkind]
    exact Run.fails_fail _ _
  | arityMismatch hcallable hcount =>
    apply fails_callWithin_of_checkCall
    refine ⟨m, ?_⟩
    rw [checkCall_eq hcallable, if_pos hcount]
    rfl
  | stackOverflow hcallable hcount hdepth =>
    apply fails_callWithin_of_checkCall
    refine ⟨m, ?_⟩
    rw [checkCall_eq hcallable, if_neg (not_not.2 hcount), if_pos hdepth]
    rfl

/-- The task is a native function that makes a call and goes on also after an error. The last argument
is how it goes on. -/
inductive Task.Catches : Task → Task → (Except RuntimeError Value → Task) → Prop
  | attempt {fuel : Nat} {name : Text} {site place : Location} {callee : Value} {args : List Value}
      {next : Except RuntimeError Value → Act} :
    Catches (.act fuel name site (.attempt callee args place next)) (.call fuel callee args place)
      fun r => .act fuel name site (next r)

/-- An error goes out to the task that began the one that ends in it, except where a native function
goes on after it. -/
theorem Begins.fails (h : Begins host t m t' m') (hfails : t'.Fails host m' e) :
    t.Fails host m e ∨ m' = m ∧ ∃ next, t.Catches t' next := by
  cases h with
  | actAttempt => exact .inr ⟨rfl, _, .attempt⟩
  | grouping | whileLoop => exact .inl hfails
  | unary | binaryLeft | logicalLeft | assigned | callee | firstArgument | expression | print
  | initializer | returned | ifCondition | elseCondition | loopCondition | actCall
  | firstOfProgram | firstStatement =>
    exact .inl (.bind_left hfails)
  | binaryRight hv | arguments hv => exact .inl (.bind_right hv (.bind_left hfails))
  | laterArguments hv => exact .inl (.bind_right hv (.bind_left hfails))
  | call hv hvs => exact .inl (.bind_right hv (.bind_right hvs hfails))
  | logicalRight hv hdecides =>
    exact .inl (.bind_right hv (.ite_neg hdecides (.bind_left hfails)))
  | block hnew => exact .inl (.bind_right hnew hfails)
  | ifBranch hv htrue => exact .inl (.bind_right hv (.ite_pos htrue hfails))
  | elseBranch hv htrue => exact .inl (.bind_right hv (.ite_pos htrue hfails))
  | elseOtherwise hv hfalse => exact .inl (.bind_right hv (.ite_neg hfalse hfails))
  | loopBody hv htrue => exact .inl (.bind_right hv (.ite_pos htrue (.bind_left hfails)))
  | loopAgain hv htrue hs => exact .inl (.bind_right hv (.ite_pos htrue (.bind_right hs hfails)))
  | laterStatements hs => exact .inl (.bind_right hs hfails)
  | laterOfProgram hs => exact .inl (.bind_right hs hfails)
  | actCalled hv => exact .inl (.bind_right hv hfails)
  | actAttempted hr => exact .inl (.bind_right hr hfails)
  | actWrite hw => exact .inl (.bind_right hw hfails)
  | actDefine hd => exact .inl (.bind_right hd hfails)
  | actLookup | actDepth | actClock => exact .inl (.bind_right rfl hfails)
  | function hcheck hc henter =>
    -- the error leaves the call, which takes itself off the machine but not off the trace
    left
    unfold Task.Fails callWithin
    refine .bind_right hcheck (.withCall (.bind_right rfl ?_))
    rw [hc]
    exact .bind_right henter (.bind_left hfails)
  | native hcheck hnative =>
    left
    unfold Task.Fails callWithin
    refine .bind_right hcheck (.withCall (.bind_right rfl ?_))
    rw [hnative]
    exact hfails

/-- A native function that goes on after an error is given the error as it is. -/
theorem Task.Catches.begins {next : Except RuntimeError Value → Task} (h : t.Catches t' next)
    (hfails : t'.Fails host m e) : ∃ m', Begins host t m (next (.error e)) m' := by
  cases h with
  | @attempt fuel name site place callee args next =>
    obtain ⟨m', hcall⟩ := hfails
    refine ⟨m', .actAttempted ?_⟩
    unfold Run.attempt
    rw [hcall]

/-- On the way from the first point to the second one there is a native function that makes a call and
goes on after the error. -/
def Caught (host : Host) (e : RuntimeError) (x y : Task × Machine) : Prop :=
  ∃ t m t' m' next, Reaches host x (t, m) ∧ t.Catches t' next ∧ Reaches host (t', m) y ∧
    Begins host t m (next (.error e)) m'

/-- An error goes out, unchanged, as far as to a native function that goes on after it. -/
theorem Reaches.fails {x y : Task × Machine} (h : Reaches host x y) (hy : y.1.Fails host y.2 e) :
    x.1.Fails host x.2 e ∨ Caught host e x y := by
  -- from the point where the error is raised outwards, one task at a time
  induction h using Relation.ReflTransGen.head_induction_on with
  | refl => exact .inl hy
  | @head x z hstep hrest ih =>
    rcases ih with hz | ⟨t, m, t', m', next, hreach, hcatches, hcall, hbegins⟩
    · rcases hstep.fails hz with hx | ⟨hmachine, next, hcatches⟩
      · exact .inl hx
      · rw [hmachine] at hz
        obtain ⟨m', hbegins⟩ := hcatches.begins hz
        obtain ⟨t', m⟩ := z
        cases hmachine
        exact .inr ⟨x.1, x.2, t', m', next, .refl, hcatches, hrest, hbegins⟩
    · exact .inr ⟨t, m, t', m', next, .head hstep hreach, hcatches, hcall, hbegins⟩

/-! ## Sessions -/

namespace Session

variable {s : Session}

/-- What a host asks of a session ends in an error: to run a program or to call a value. -/
inductive EndsIn (s : Session) (e : RuntimeError) : Task → Prop
  | interpret {s' : Session} {fuel : Nat} {p : Program} :
    s.interpret fuel p = some (some e, s') → EndsIn s e (.program fuel p)
  | call {s' : Session} {fuel : Nat} {callee : Value} {args : List Value} :
    s.call fuel callee args = some (.error e, s') → EndsIn s e (.call fuel callee args .nowhere)

/-- What a host can ask of a session. -/
inductive Asks : Task → Prop
  | program (fuel : Nat) (p : Program) : Asks (.program fuel p)
  | call (fuel : Nat) (callee : Value) (args : List Value) : Asks (.call fuel callee args .nowhere)

/-- The session gives its host the error in which the task ends. -/
theorem endsIn_iff {root : Task} (hroot : Asks root) :
    s.EndsIn e root ↔ root.Fails s.host s.machine e := by
  constructor
  · intro h
    cases h with
    | interpret h => exact ⟨_, exec_of_interpret_error h⟩
    | call h => exact fails_of_outcome (outcome_of_call h)
  · intro h
    cases hroot with
    | program fuel p =>
      obtain ⟨m', h⟩ := h
      refine @EndsIn.interpret s e { s with machine := m' } fuel p ?_
      rw [interpret_eq, h]
    | call fuel callee args =>
      obtain ⟨m', h⟩ := h
      refine @EndsIn.call s e { s with machine := m' } fuel callee args ?_
      unfold call Run.outcome
      rw [h]

theorem EndsIn.asks {root : Task} (h : s.EndsIn e root) : Asks root := by
  cases h with
  | interpret => exact .program _ _
  | call => exact .call _ _ _

/-- **The trace of an error is the calls under way where it arose.** Whatever native functions there
are, an error that reaches the host was raised at a point inside exactly the calls of its trace,
innermost first. The other way round, an error that is raised at a point of a run gets to the host with
the cause and location that it had there and the calls that the point is inside of as its trace, or as
such to a native function that goes on after it. -/
theorem trace_of_raised {options : Options} {clock : Nat → Number}
    (h : (bare options clock).Leads s) :
    (∀ root e, s.EndsIn e root →
      ∃ t m, Inside s.host (root, s.machine) e.trace (t, m) ∧ m.calls = e.trace ∧
        Raises s.host t m e.fault e.loc) ∧
    ∀ root entered t m fault loc, Asks root → Inside s.host (root, s.machine) entered (t, m) →
      Raises s.host t m fault loc →
        s.EndsIn ⟨fault, loc, entered⟩ root ∨
          Caught s.host ⟨fault, loc, entered⟩ (root, s.machine) (t, m) := by
  have hunderway {root t : Task} {m : Machine} {entered : List CallFrame}
      (hinside : Inside s.host (root, s.machine) entered (t, m)) : m.calls = entered := by
    rw [hinside.calls_eq, h.calls_eq_nil, List.append_nil]
  constructor
  · intro root e hends
    obtain ⟨t, m, hreach, hraises, htrace⟩ := ((endsIn_iff hends.asks).1 hends).raised
    obtain ⟨entered, hinside⟩ := hreach.inside
    have hcalls := hunderway hinside
    rw [← htrace] at hcalls
    exact ⟨t, m, hcalls ▸ hinside, htrace.symm, hraises⟩
  · intro root entered t m fault loc hroot hinside hraises
    have hfails := hraises.fails
    rw [hunderway hinside] at hfails
    exact (hinside.reaches.fails hfails).imp_left (endsIn_iff hroot).2

/-- The program `fun f() { fail("no"); } twice(f);`, with one line for each statement. -/
def innerFailure : Program :=
  let name (text : String) (line : UInt32) : Name := ⟨utf8 text, ⟨line, 1⟩⟩
  [.function (name "f" 1) []
    [.expression (.call (.reference (name "fail" 2) none) [.literal (.string (utf8 "no")) ⟨2, 6⟩]
      ⟨2, 10⟩) ⟨2, 1⟩],
   .expression (.call (.reference (name "twice" 3) none) [.reference (name "f" 3) none] ⟨3, 8⟩) ⟨3, 1⟩]

/-- A native function that reports an error in a function that another native function calls: the
error is raised inside all three calls. -/
theorem trace_of_raised_innerFailure :
    let native (name : String) (f : HostFunction) : Native := ⟨utf8 name, 1, f.body⟩
    let clock := fun _ => Number.zero
    let s := ((bare .default clock).register (native "twice" .twice)).register
      (native "fail" .failure)
    let trace : List CallFrame := [⟨utf8 "fail", 2⟩, ⟨utf8 "f", 0⟩, ⟨utf8 "twice", 3⟩]
    (bare .default clock).Leads s ∧ ∃ e, s.EndsIn e (.program 9 innerFailure) ∧ e.trace = trace ∧
      ∃ t m, Inside s.host (.program 9 innerFailure, s.machine) trace (t, m) ∧ m.calls = trace ∧
        Raises s.host t m e.fault e.loc := by
  intro native clock s trace
  have hleads : (bare .default clock).Leads s :=
    .tail (.single (.register _ (native "twice" .twice))) (.register _ (native "fail" .failure))
  have hends : (s.interpret 9 innerFailure).any (fun r => r.1.any fun e => e.trace = trace) = true := by
    decide +kernel
  obtain ⟨⟨result, s'⟩, hrun, hresult⟩ := (Option.any_eq_true _ _).1 hends
  obtain ⟨e, rfl, he⟩ := (Option.any_eq_true _ _).1 hresult
  have htrace : e.trace = trace := of_decide_eq_true he
  have hraised := (trace_of_raised hleads).1 _ e (.interpret hrun)
  rw [htrace] at hraised
  exact ⟨hleads, e, .interpret hrun, htrace, hraised⟩

end Session

end Lox
