import Lox.Proofs.Run.Compiled

/-!
# Outcomes, diagnostics and what is left behind

The report of a run agrees with itself (`Report.Agrees`): a rejected script has the diagnostics of the
stage that rejected it and of no other, one that ran to its end has warnings about names, and one that
failed has, behind these, the one error in which it failed. What a host does with a session is a list of
requests, each with an answer and the lines written for it. A rejected script is answered without a
line, and all later requests are answered as if it had never been there (`Session.run_concludes`).
-/

namespace Lox

/-! ## Reports -/

/-- A warning about a name. -/
def Diagnostic.IsNameWarning (d : Diagnostic) : Prop := d.stage = .resolve ∧ d.severity = .warning

/-- The diagnostics are those that belong to the outcome. -/
def Report.Agrees (r : Report) : Prop :=
  match r.outcome with
  | .staticError =>
    (∃ stage, stage ≠ .runtime ∧ ∀ d ∈ r.diagnostics, d.stage = stage) ∧
      ∃ d ∈ r.diagnostics, d.severity = .error
  | .success => ∀ d ∈ r.diagnostics, d.IsNameWarning
  | .runtimeError => ∃ warnings e, r.diagnostics = warnings ++ [e] ∧
      (∀ d ∈ warnings, d.IsNameWarning) ∧ e.stage = .runtime ∧ e.severity = .error

/-- The stages stop at the first that finds an error, so a script has the diagnostics of one. -/
theorem exists_stage_compile (settings : ScopeSettings) (source : Text) :
    ∃ stage, stage ≠ .runtime ∧ ∀ d ∈ (compile settings source).diagnostics, d.stage = stage := by
  unfold compile
  dsimp only
  split
  · exact ⟨.scan, nofun, List.forall_mem_map.2 fun _ _ => rfl⟩
  split
  · exact ⟨.parse, nofun, List.forall_mem_map.2 fun _ _ => rfl⟩
  · exact ⟨.resolve, nofun, List.forall_mem_map.2 fun _ _ => rfl⟩

/-- What is found in a script without errors are warnings about names. -/
theorem warnings_compile {settings : ScopeSettings} {source : Text}
    (hok : (compile settings source).hasErrors = false) :
    ∀ d ∈ (compile settings source).diagnostics, d.IsNameWarning := by
  obtain ⟨hscan, p, hparse, hclean⟩ := parse_of_hasErrors hok
  rw [compile_of_parse settings hscan hparse]
  refine List.forall_mem_map.2 fun i hi => ⟨rfl, ?_⟩
  cases hseverity : i.problem.severity with
  | error => exact absurd hseverity (hclean i hi)
  | warning => exact hseverity

namespace Session

/-! ## Requests and answers -/

/-- What a host can ask of a session. -/
inductive Request
  | compile (source : Text)
  | run (fuel : Nat) (source : Text)
  | execute (fuel : Nat) (script : Script)
  | register (native : Native)
  | constant (name : Text) (v : Value)
  | call (fuel : Nat) (callee : Value) (args : List Value)
  | globals

/-- What a host gets. -/
inductive Answer
  | done
  | script (script : Script)
  | report (report : Report)
  | returned (result : Except RuntimeError Value)
  | globals (bindings : Bindings)

/-- The answer to a request, and the session behind it. There is none if the fuel was not enough. -/
def answer (s : Session) : Request → Option (Answer × Session)
  | .compile source => some (.script (s.compile source), s)
  | .run fuel source => (s.run fuel source).map fun r => (.report r.1, r.2)
  | .execute fuel script => (s.execute fuel script).map fun r => (.report r.1, r.2)
  | .register native => some (.done, s.register native)
  | .constant name v => some (.done, s.constant name v)
  | .call fuel callee args => (s.call fuel callee args).map fun r => (.returned r.1, r.2)
  | .globals => some (.globals s.machine.globals, s)

/-- The answers to requests in a row, each with the lines that were written for it. -/
def answers (s : Session) : List Request → Option (List (Answer × List Text))
  | [] => some []
  | request :: requests => do
    let (a, s') ← s.answer request
    let others ← s'.answers requests
    return (a, s'.machine.output.toList.drop s.machine.output.size) :: others

/-! ## What a script leads to -/

/-- How a request to run a script is answered, with the fuel that it has: not at all if a program that
may run is not through by then, else with a report that agrees with itself. A rejected script leaves the
session as it was, and so it is answered without a line and has no effect on any later answer. -/
structure Concludes (s : Session) (fuel : Nat) (script : Script) (request : Request) : Prop where
  ends : s.answer request = none → ∃ p, script.runnable? = some p ∧ s.interpret fuel p = none
  agrees : ∀ a s', s.answer request = some (a, s') →
    ∃ report, a = .report report ∧ report.Agrees ∧
      (report.outcome = .staticError ↔ script.hasErrors = true)
  leaves_no_trace : ∀ report s', s.answer request = some (.report report, s') →
    report.outcome = .staticError → s' = s ∧
      ∀ requests, s.answers (request :: requests) = do
        let others ← s.answers requests
        return (.report report, []) :: others

/-- A script with errors is not run. -/
theorem execute_of_hasErrors (s : Session) (fuel : Nat) {script : Script}
    (h : script.hasErrors = true) : ∃ report, s.execute fuel script = some (report, s) ∧
      report.outcome = .staticError ∧ report.diagnostics = script.diagnostics := by
  have hrunnable : script.runnable? = none := by rw [Script.runnable?, h]; rfl
  rw [execute, hrunnable]
  exact ⟨_, rfl, rfl, rfl⟩

/-- The report of a program that was run, by the error in which it ended. -/
theorem execute_of_runnable (s : Session) (fuel : Nat) {script : Script} {p : Program}
    (h : script.runnable? = some p) : ∃ report : Option RuntimeError → Report,
      s.execute fuel script = (s.interpret fuel p).map (fun r => (report r.1, r.2)) ∧
        ((report none).outcome = .success ∧ (report none).diagnostics = script.diagnostics) ∧
          ∀ e, (report (some e)).outcome = .runtimeError ∧
            (report (some e)).diagnostics = script.diagnostics ++ [e.diagnostic] := by
  let count := script.statementCount?.getD 0
  refine ⟨fun
    | none => ⟨.success, script.diagnostics, script.tokenCount, count⟩
    | some e => ⟨.runtimeError, script.diagnostics ++ [e.diagnostic], script.tokenCount, count⟩,
    ?_, ⟨rfl, rfl⟩, fun e => ⟨rfl, rfl⟩⟩
  rw [execute, h]
  dsimp only
  cases s.interpret fuel p with
  | none => rfl
  | some r =>
    obtain ⟨_ | e, s'⟩ := r
    · rfl
    · rfl

section

variable {s : Session} {fuel : Nat} {settings : ScopeSettings} {source : Text} {request : Request}
  (hanswer : s.answer request =
    (s.execute fuel (Lox.compile settings source)).map fun r => (.report r.1, r.2))

include hanswer

/-- A rejected script is answered with its diagnostics, at once. -/
theorem concludes_of_rejected (herrors : (Lox.compile settings source).hasErrors = true) :
    s.Concludes fuel (Lox.compile settings source) request := by
  obtain ⟨report, hexecute, houtcome, hdiagnostics⟩ := s.execute_of_hasErrors fuel herrors
  rw [hexecute] at hanswer
  refine ⟨fun h => ?_, fun a s' h => ?_, fun report' s' h _ => ?_⟩
  · rw [hanswer] at h
    cases h
  · rw [hanswer] at h
    cases h
    refine ⟨report, rfl, ?_, by simp [houtcome, herrors]⟩
    obtain ⟨d, hd, herror⟩ := List.any_eq_true.1 herrors
    rw [Report.Agrees, houtcome, hdiagnostics]
    exact ⟨exists_stage_compile settings source, d, hd, beq_iff_eq.1 herror⟩
  · rw [hanswer] at h
    cases h
    have hlines : s.machine.output.toList.drop s.machine.output.size = [] :=
      List.drop_eq_nil_of_le (Nat.le_of_eq Array.length_toList)
    refine ⟨rfl, fun requests => ?_⟩
    rw [answers, hanswer]
    simp only [Option.map_some, Option.bind_eq_bind, Option.bind_some, hlines]

/-- A script without errors is answered with its warnings and the error in which it ended, if any. -/
theorem concludes_of_accepted (hok : (Lox.compile settings source).hasErrors = false) :
    s.Concludes fuel (Lox.compile settings source) request := by
  obtain ⟨p, hp⟩ := program_of_hasErrors hok
  have hrunnable : (Lox.compile settings source).runnable? = some p := by
    rw [Script.runnable?, hok, ← hp]
    rfl
  obtain ⟨report, hexecute, ⟨hsuccess, hwarnings⟩, hfailure⟩ := s.execute_of_runnable fuel hrunnable
  rw [hexecute, Option.map_map] at hanswer
  have hreports (result : Option RuntimeError) :
      (report result).Agrees ∧ (report result).outcome ≠ .staticError := by
    cases result with
    | none =>
      rw [Report.Agrees, hsuccess, hwarnings]
      exact ⟨warnings_compile hok, by decide⟩
    | some e =>
      rw [Report.Agrees, (hfailure e).1, (hfailure e).2]
      exact ⟨⟨_, e.diagnostic, rfl, warnings_compile hok, rfl, rfl⟩, by decide⟩
  have hsome {a : Answer} {s' : Session} (h : s.answer request = some (a, s')) :
      ∃ result, a = .report (report result) := by
    rw [hanswer] at h
    obtain ⟨⟨result, _⟩, _, heq⟩ := Option.map_eq_some_iff.1 h
    exact ⟨result, (congrArg Prod.fst heq).symm⟩
  refine ⟨fun h => ⟨p, hrunnable, ?_⟩, fun a s' h => ?_, fun r s' h houtcome => ?_⟩
  · rw [hanswer] at h
    exact Option.map_eq_none_iff.1 h
  · obtain ⟨result, rfl⟩ := hsome h
    obtain ⟨hagrees, houtcome⟩ := hreports result
    exact ⟨_, rfl, hagrees, by simp [houtcome, hok]⟩
  · obtain ⟨result, hreport⟩ := hsome h
    cases hreport
    exact absurd houtcome (hreports result).2

theorem concludes_of_answer : s.Concludes fuel (Lox.compile settings source) request := by
  cases herrors : (Lox.compile settings source).hasErrors with
  | true => exact concludes_of_rejected hanswer herrors
  | false => exact concludes_of_accepted hanswer herrors

end

/-- **Outcomes and diagnostics agree, and a rejected script leaves no trace.** So it is in every session
and for every source that is run, and also if the source is compiled, in any session, and then
executed. -/
theorem run_concludes (s s₀ : Session) (fuel : Nat) (source : Text) :
    s.Concludes fuel (s.compile source) (.run fuel source) ∧
      s.Concludes fuel (s₀.compile source) (.execute fuel (s₀.compile source)) :=
  ⟨@concludes_of_answer s fuel s.scopeSettings source _ rfl,
    @concludes_of_answer s fuel s₀.scopeSettings source _ rfl⟩

end Session

end Lox
