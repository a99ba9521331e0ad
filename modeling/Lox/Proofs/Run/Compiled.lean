import Lox.Proofs.Likeness.Similar
import Lox.Proofs.Likeness.Scope
import Lox.Proofs.Run.Session

/-!
# Compiled scripts stay good

Compiling reads the names of the globals that exist then, and keeps what it found with the script.
The globals of a session only grow, whatever its steps (`Session.Step.later`), the distances in a
program do not depend on the globals, and more globals never mean more issues (`compile_later`). So a
script that compiled without errors runs at any later moment as its source does
(`Session.execute_compiled`).
-/

namespace Lox

/-! ## Names of globals -/

namespace Frames

theorem mem_localNames {fs : Frames} {frame : Nat} {x : Text} :
    x ∈ fs.localNames frame ↔ fs.hasLocal frame x = true := by
  unfold localNames locals hasLocal getLocal
  cases fs[frame]? with
  | none => simp
  | some f =>
    show x ∈ f.bindings.map (·.1) ↔ (f.bindings.lookup x).isSome = true
    induction f.bindings with
    | nil => simp
    | cons b bs ih =>
      obtain ⟨n, v⟩ := b
      by_cases hx : x = n
      · simp [hx]
      · simp [List.lookup_cons, beq_false_of_ne hx, hx, ← ih]

end Frames

theorem Machine.mem_globalNames {m : Machine} {x : Text} :
    x ∈ m.globalNames ↔ (m.global? x).isSome = true :=
  Frames.mem_localNames

/-- No step of a run takes away a global. -/
theorem Machine.stepwise_globalNames :
    Machine.Stepwise fun m m' => ∀ x ∈ m.globalNames, x ∈ m'.globalNames where
  refl _ _ hx := hx
  trans h h' x hx := h' x (h x hx)
  write _ _ _ hx := hx
  define m frame name v x hx :=
    Frames.mem_localNames.2 (Frames.hasLocal_define.2 (.inr (Frames.mem_localNames.1 hx)))
  addChild m parent x hx := by
    have hlocal := Frames.mem_localNames.1 hx
    rw [← m.frames.hasLocal_addChild parent] at hlocal
    exact Frames.mem_localNames.2 hlocal
  addFunction _ _ _ hx := hx
  readClock _ _ hx := hx
  inCall _ h := h

/-! ## Compiling with more globals -/

theorem hasErrors_of_sublist {ds ds' : List Diagnostic} (h : ds'.Sublist ds)
    (hok : hasErrors ds = false) : hasErrors ds' = false := by
  unfold hasErrors at hok ⊢
  rw [List.any_eq_false] at hok ⊢
  exact fun d hd => hok d (h.subset hd)

/-- With more globals the issues of a parsed program are some of those that it had. -/
theorem issues_parse_sublist {settings settings' : ScopeSettings}
    (hunused : settings'.reportUnused = settings.reportUnused)
    (hpredefined : ∀ x ∈ settings.predefined, x ∈ settings'.predefined) (ts : List Token) :
    ((parse ts).program.issues settings').Sublist ((parse ts).program.issues settings) := by
  have halike : Program.Alike Eq (parse ts).program (parse ts).program :=
    parse_alike_self (fun _ => rfl) ts
  obtain ⟨is, his, hsub⟩ :=
    List.sublistForall₂_iff.1 (halike.issues_sublist hunused hpredefined)
  have heq : (parse ts).program.issues settings' = is :=
    List.forall₂_eq_eq_eq ▸ his.imp fun i i' hi => by
      cases i
      cases i'
      cases hi.problem
      cases hi.loc
      rfl
  exact heq ▸ hsub

/-- A script compiled with more globals has the same tokens and the same program, distances and all,
and some of the diagnostics. -/
theorem compile_later {settings settings' : ScopeSettings}
    (hunused : settings'.reportUnused = settings.reportUnused)
    (hpredefined : ∀ x ∈ settings.predefined, x ∈ settings'.predefined) (source : Text) :
    ∃ ds, ds.Sublist (compile settings source).diagnostics ∧
      compile settings' source = { compile settings source with diagnostics := ds } := by
  unfold compile
  dsimp only
  split
  · exact ⟨_, .refl _, rfl⟩
  split
  · exact ⟨_, .refl _, rfl⟩
  · exact ⟨_, (issues_parse_sublist hunused hpredefined _).map _, rfl⟩

/-- What compiling finds are no errors of a run. -/
theorem stage_compile (settings : ScopeSettings) (source : Text) :
    ∀ d ∈ (compile settings source).diagnostics, d.stage ≠ .runtime := by
  unfold compile
  dsimp only
  split
  · exact List.forall_mem_map.2 fun e _ => nofun
  split
  · exact List.forall_mem_map.2 fun e _ => nofun
  · exact List.forall_mem_map.2 fun i _ => nofun

/-- What is compiled where nothing is wrong but names. -/
theorem compile_of_parse (settings : ScopeSettings) {source : Text} {p : Program}
    (hscan : (tokenize source).errors = []) (hparse : parse (tokenize source).tokens = ⟨p, []⟩) :
    compile settings source = ⟨(tokenize source).tokens.length, some p.bind,
      (p.issues settings).map ScopeIssue.diagnostic⟩ := by
  simp only [compile, hscan, hparse]
  rfl

/-- In a script without errors nothing is wrong in any stage. -/
theorem parse_of_hasErrors {settings : ScopeSettings} {source : Text}
    (hok : (compile settings source).hasErrors = false) :
    (tokenize source).errors = [] ∧ ∃ p, parse (tokenize source).tokens = ⟨p, []⟩ ∧
      Check.Clean (p.issues settings) := by
  have hscan : (tokenize source).errors = [] := by
    cases herrors : (tokenize source).errors with
    | nil => rfl
    | cons e errors => simp [compile, herrors, Script.hasErrors, hasErrors, ScanError.diagnostic,
        Diagnostic.isError] at hok
  have hparse : parse (tokenize source).tokens = ⟨(parse (tokenize source).tokens).program, []⟩ := by
    cases herrors : (parse (tokenize source).tokens).errors with
    | nil => rw [← herrors]
    | cons e errors => simp [compile, hscan, herrors, Script.hasErrors, hasErrors,
        ParseError.diagnostic, Diagnostic.isError] at hok
  rw [compile_of_parse settings hscan hparse] at hok
  exact ⟨hscan, _, hparse, Session.clean_of_hasErrors hok⟩

/-- A script without errors has a program. -/
theorem program_of_hasErrors {settings : ScopeSettings} {source : Text}
    (hok : (compile settings source).hasErrors = false) :
    ∃ p, (compile settings source).program = some p := by
  obtain ⟨hscan, p, hparse, _⟩ := parse_of_hasErrors hok
  exact ⟨_, congrArg Script.program (compile_of_parse settings hscan hparse)⟩

/-- A script that may run is what a source without errors was parsed as, with its distances. -/
theorem of_runnable? {settings : ScopeSettings} {source : Text} {p : Program}
    (hp : (compile settings source).runnable? = some p) :
    ∃ q : Program, (tokenize source).errors = [] ∧ parse (tokenize source).tokens = ⟨q, []⟩ ∧
      Check.Clean (q.issues settings) ∧ p = q.bind := by
  unfold Script.runnable? at hp
  split at hp
  · cases hp
  · next hok =>
    obtain ⟨hscan, q, hparse, hclean⟩ := parse_of_hasErrors (Bool.eq_false_iff.2 hok)
    rw [compile_of_parse settings hscan hparse] at hp
    exact ⟨q, hscan, hparse, hclean, (Option.some.inj hp).symm⟩

namespace Session

/-! ## Steps of a session -/

/-- What a host can do with a session. A run, an execution or a call counts if it ends, with a result
or in an error. -/
inductive Step : Session → Session → Prop
  | compile (s : Session) (source : Text) : Step s s
  | run {s s' : Session} {fuel : Nat} {source : Text} {report : Report} :
    s.run fuel source = some (report, s') → Step s s'
  | execute {s s' : Session} {fuel : Nat} {script : Script} {report : Report} :
    s.execute fuel script = some (report, s') → Step s s'
  | register (s : Session) (native : Native) : Step s (s.register native)
  | constant (s : Session) (name : Text) (v : Value) : Step s (s.constant name v)
  | call {s s' : Session} {fuel : Nat} {callee : Value} {args : List Value}
      {result : Except RuntimeError Value} :
    s.call fuel callee args = some (result, s') → Step s s'

/-- The moments of a session after any number of steps. -/
abbrev Leads : Session → Session → Prop := Relation.ReflTransGen Step

/-- What every step keeps: the options, the clock and the names of the globals. -/
structure Later (s s' : Session) : Prop where
  options : s'.options = s.options
  clock : s'.clock = s.clock
  globals : ∀ x ∈ s.machine.globalNames, x ∈ s'.machine.globalNames

theorem Later.refl (s : Session) : s.Later s := ⟨rfl, rfl, fun _ hx => hx⟩

theorem Later.trans {s s₁ s' : Session} (h : s.Later s₁) (h' : s₁.Later s') : s.Later s' where
  options := h'.options.trans h.options
  clock := h'.clock.trans h.clock
  globals x hx := h'.globals x (h.globals x hx)

theorem Later.of_outcome {s : Session} {α : Type} {x : Run α}
    (hx : x.Respects fun m m' => ∀ name ∈ m.globalNames, name ∈ m'.globalNames)
    {r : Except RuntimeError α} {m : Machine} (h : x.outcome s.machine = some (r, m)) :
    s.Later { s with machine := m } :=
  ⟨rfl, rfl, final_of_outcome h ▸ hx s.machine⟩

theorem later_interpret {s s' : Session} {fuel : Nat} {p : Program} {result : Option RuntimeError}
    (h : s.interpret fuel p = some (result, s')) : s.Later s' := by
  unfold interpret at h
  have hnames := Machine.stepwise_globalNames.program s.host fuel p
  split at h
  · next ho =>
    cases h
    exact .of_outcome hnames ho
  · next ho =>
    cases h
    exact .of_outcome hnames ho
  · cases h

theorem later_execute {s s' : Session} {fuel : Nat} {script : Script} {report : Report}
    (h : s.execute fuel script = some (report, s')) : s.Later s' := by
  rcases of_execute h with rfl | ⟨p, result, -, hi⟩
  · exact .refl s'
  · exact later_interpret hi

theorem later_call {s s' : Session} {fuel : Nat} {callee : Value} {args : List Value}
    {result : Except RuntimeError Value} (h : s.call fuel callee args = some (result, s')) :
    s.Later s' := by
  unfold call at h
  split at h
  · next ho =>
    cases h
    exact .of_outcome (Machine.stepwise_globalNames.callWithin s.host fuel callee args .nowhere) ho
  · cases h

/-- No step changes the options or the clock, or takes away a global. -/
theorem Step.later {s s' : Session} (h : Step s s') : s.Later s' := by
  cases h with
  | compile source => exact .refl s
  | run h => exact later_execute h
  | execute h => exact later_execute h
  | register native => exact ⟨rfl, rfl, Machine.stepwise_globalNames.define _ _ native.name _⟩
  | constant name v => exact ⟨rfl, rfl, Machine.stepwise_globalNames.define _ _ name v⟩
  | call h => exact later_call h

/-- A session keeps its options, its clock and the names of its globals. -/
theorem Leads.later {s s' : Session} (h : s.Leads s') : s.Later s' := by
  induction h with
  | refl => exact .refl s
  | tail _ hstep ih => exact ih.trans hstep.later

/-! ## Executions and runs -/

/-- An execution that ended as a run did: on the same session, with the same outcome and the same
error, and with at least the diagnostics of the run. -/
structure EndsAsRun (execution run : Report × Session) : Prop where
  session : execution.2 = run.2
  outcome : execution.1.outcome = run.1.outcome
  ran : run.1.outcome ≠ .staticError
  errors : execution.1.diagnostics.filter (·.stage = .runtime) =
    run.1.diagnostics.filter (·.stage = .runtime)
  diagnostics : run.1.diagnostics.Sublist execution.1.diagnostics
  tokenCount : execution.1.tokenCount = run.1.tokenCount
  statementCount : execution.1.statementCount = run.1.statementCount

/-- Diagnostics of compiling do not change what an execution does, as long as none of them is an
error. -/
theorem execute_sublist (s : Session) (fuel : Nat) {script : Script} {p : Program}
    {ds : List Diagnostic} (hprogram : script.program = some p) (hok : script.hasErrors = false)
    (hstatic : ∀ d ∈ script.diagnostics, d.stage ≠ .runtime) (hsub : ds.Sublist script.diagnostics) :
    Option.Rel EndsAsRun (s.execute fuel script)
      (s.execute fuel { script with diagnostics := ds }) := by
  have hrunnable : script.runnable? = some p := by rw [Script.runnable?, hok, ← hprogram]; rfl
  have hok' : Script.hasErrors { script with diagnostics := ds } = false := hasErrors_of_sublist hsub hok
  have hrunnable' : Script.runnable? { script with diagnostics := ds } = some p := by
    rw [Script.runnable?, hok', ← hprogram]
    rfl
  have hnone {ds : List Diagnostic} (h : ∀ d ∈ ds, d.stage ≠ .runtime) :
      ds.filter (·.stage = .runtime) = [] := by
    simpa [List.filter_eq_nil_iff] using h
  have herrors : script.diagnostics.filter (·.stage = .runtime) = ds.filter (·.stage = .runtime) := by
    rw [hnone hstatic, hnone fun d hd => hstatic d (hsub.subset hd)]
  unfold execute
  rw [hrunnable, hrunnable']
  dsimp only
  cases s.interpret fuel p with
  | none => exact .none
  | some result =>
    obtain ⟨_ | e, s'⟩ := result
    · exact .some ⟨rfl, rfl, nofun, herrors, hsub, rfl, rfl⟩
    · refine .some ⟨rfl, rfl, nofun, ?_, hsub.append (.refl _), rfl, rfl⟩
      rw [List.filter_append, List.filter_append, herrors]

/-- **Compiled scripts stay good.** A source that compiled without errors can be executed at any later
moment of the session, after whatever steps: the execution ends if and only if running the source then
would, and it ends as the run, with the same machine and so the same output and globals. -/
theorem execute_compiled {s s' : Session} (hleads : s.Leads s') {source : Text}
    (hok : (s.compile source).hasErrors = false) (fuel : Nat) :
    Option.Rel EndsAsRun (s'.execute fuel (s.compile source)) (s'.run fuel source) := by
  have hlater := hleads.later
  have hunused : s'.scopeSettings.reportUnused = s.scopeSettings.reportUnused :=
    congrArg Options.reportUnused hlater.options
  obtain ⟨ds, hsub, heq⟩ := compile_later hunused hlater.globals source
  obtain ⟨p, hprogram⟩ := program_of_hasErrors hok
  unfold run compile
  rw [heq]
  exact execute_sublist s' fuel hprogram hok (stage_compile _ source) hsub

/-- A script that reads a global compiles with a warning, and once the global is there it prints what
the source then does, which has no warning any more. -/
theorem execute_compiled_warned :
    let s := bare .default fun _ => .zero
    let s' := s.constant (utf8 "x") (.bool true)
    let source := utf8 "print x;"
    s.Leads s' ∧ (s.compile source).hasErrors = false ∧ (s.compile source).diagnostics ≠ [] ∧
      (s'.run 1 source).any (fun r => r.1.diagnostics.isEmpty ∧ r.2.machine.output = #[utf8 "true"]) ∧
        Option.Rel EndsAsRun (s'.execute 1 (s.compile source)) (s'.run 1 source) := by
  have hleads : (bare .default fun _ => .zero).Leads
      ((bare .default fun _ => .zero).constant (utf8 "x") (.bool true)) := .single (.constant _ _ _)
  have hok : ((bare .default fun _ => .zero).compile (utf8 "print x;")).hasErrors = false := by
    decide +kernel
  exact ⟨hleads, hok, by decide +kernel, by decide +kernel, execute_compiled hleads hok 1⟩

end Session

end Lox
