import Lox.Proofs.Likeness.Outcome
import Lox.Proofs.Run.Compiled
import Lox.Proofs.Run.Fuel
import Lox.Proofs.Run.Names
import Lox.Proofs.Split.Checking
import Lox.Proofs.Split.Parsing

/-!
# Scripts in one run or in two

A script can be split between two of its statements and its parts run one after the other: if the first
part runs to its end and the second part then compiles without errors, both parts with a line break
between them run in one go as they do one after the other (`Session.run_append`). The two ways differ in
the locations of the second part, and these do not decide how a run goes on.
-/

namespace Lox

/-! ## Machines that run programs alike -/

theorem Numbering.eq_of_refl {r : Nat → Nat → Prop} {n n' i i' : Nat} (h : Numbering r n n')
    (hr : ∀ i, r i i) (hi : r i i') : i = i' :=
  ((h.unique (hr i) hi).1 rfl).symm ▸ rfl

/-- A one-to-one link of everything with itself is no more than that. -/
theorem Machine.Alike.eq_same {host host' : Host} {l : Link} {m m' : Machine}
    (h : m.Alike host host' l m') (hl : Link.same.Extends l) : l = .same := by
  obtain ⟨frames, functions⟩ := l
  have hframes : frames = Eq := funext fun f => funext fun f' => propext
    ⟨h.frames.numbering.eq_of_refl fun _ => hl.frames rfl, fun hf => hl.frames hf⟩
  have hfunctions : functions = Eq := funext fun i => funext fun i' => propext
    ⟨h.functions.eq_of_refl fun _ => hl.functions rfl, fun hi => hl.functions hi⟩
  rw [hframes, hfunctions]
  rfl

theorem Value.Alike.eq_of_same {v v' : Value} (h : v.Alike .same v') : v = v' := by
  cases h with
  | function name arity hi => cases hi; rfl
  | _ => rfl

theorem Machine.Alike.global?_eq {host host' : Host} {m m' : Machine}
    (h : m.Alike host host' .same m') (x : Text) : m.global? x = m'.global? x := by
  have hvalue := h.frames.values h.global x
  unfold Machine.global?
  revert hvalue
  generalize m.frames.getLocal globalFrame x = v, m'.frames.getLocal globalFrame x = v'
  rintro (hv | _)
  · exact congrArg some hv.eq_of_same
  · rfl

/-! ## Functions of a session -/

namespace Node

variable {P : Value → Prop} {n c : Node}

theorem Literals.at? (h : n.Literals P) {a : Address} (hc : n.at? a = some c) : c.Literals P := by
  intro b v loc hat
  refine h (a ++ b) v loc ?_
  rw [at?_append, hc]
  exact hat

/-- Binding does not change literals. -/
theorem Literals.bind {p : Program} (h : (Node.program p).Literals P) :
    (Node.program p.bind).Literals P := by
  intro a v loc hat
  obtain ⟨n, ctx, hpoint, heq⟩ := @exists_point_of_at?_bind (.program p) _ [] a hat
  cases n with
  | expr e =>
    cases e with
    | literal => cases heq; exact h a v loc hpoint.at?
    | _ => cases heq
  | _ => cases heq

end Node

namespace Session

variable {s : Session} {ps : List Program}

/-- No loaded program has functions as literals. -/
theorem History.plain (h : History s ps) : ∀ p ∈ ps, (Node.program p).Plain := by
  induction h with
  | bare => exact List.forall_mem_nil _
  | load settings ts _ _ ih => exact List.forall_mem_cons.2 ⟨(parse_plain ts).bind, ih⟩
  | _ => assumption

/-- The machine of a session without native functions but `clock` is like itself. -/
theorem History.alike (h : History s ps)
    (hnatives : ∀ native ∈ s.machine.natives, native = clockFunction) :
    s.machine.Alike s.host s.host .same s.machine := by
  obtain ⟨_, own, hm⟩ := h.scoped
  refine .refl s.host (fun c hc => ?_) hnatives
  obtain ⟨p, hp, a, name, ctx, hpoint, _⟩ := hm.closures c hc
  have hplain : (Node.stmt (.function name c.parameters c.body)).Plain :=
    (h.plain p hp).at? hpoint.at?
  exact Stmt.forall₂_alike_self (fun _ => trivial) fun s hs => hplain.child (List.mem_map_of_mem hs)

end Session

/-! ## Programs in a row -/

theorem Program.bind_eq_map (p : Program) : p.bind = p.map fun s => (s.bind []).1 := by
  unfold Program.bind
  induction p with
  | nil => rfl
  | cons s p ih =>
    -- outside of all scopes there is nothing to note
    have hscopes : (s.bind []).2 = [] := by rw [Stmt.bind_scopes]; rfl
    simp only [Stmt.bindAll, List.map_cons, ← ih, hscopes]

theorem Program.bind_append (p q : Program) : Program.bind (p ++ q) = p.bind ++ q.bind := by
  rw [bind_eq_map, bind_eq_map, bind_eq_map, List.map_append]

theorem Program.exec_append (host : Host) (fuel : Nat) (p q : Program) :
    Program.exec host fuel (p ++ q) =
      Program.exec host fuel p >>= fun _ => Program.exec host fuel q := by
  induction p with
  | nil => rfl
  | cons s p ih =>
    rw [List.cons_append, Program.exec, Program.exec, ih]
    simp only [bind_assoc]

/-- A run goes on where a first part comes to its end. -/
theorem Run.outcome_bind {α β : Type} {x : Run α} {f : α → Run β} {m m' : Machine} {a : α}
    (h : x.outcome m = some (.ok a, m')) : (x >>= f).outcome m = (f a).outcome m' := by
  have hok : x m = .ok a m' := by
    unfold outcome at h
    split at h <;> cases h
    assumption
  unfold outcome
  rw [bind_of_ok hok]

/-- The names that a parsed program hoists are its globals. -/
theorem flatMap_hoisted_parse (ts : List Token) :
    (parse ts).program.flatMap Stmt.hoisted = (parse ts).program.globals := by
  rw [Program.globals, List.filterMap_eq_flatMap_toList]
  refine List.flatMap_congr fun s hs => ?_
  obtain ⟨i, hi⟩ := List.mem_iff_getElem?.1 hs
  refine parse_declaresDirectly ts [i] s ?_
  rw [Node.at?, Node.children, List.getElem?_map, hi]
  rfl

theorem Check.Clean.of_sublist {L : Placing} {is is' : List ScopeIssue} (h : Check.Clean is')
    (hsub : List.SublistForall₂ (ScopeIssue.Alike L) is is') : Check.Clean is := by
  induction hsub with
  | nil => exact List.forall_mem_nil _
  | cons hi _ ih =>
    obtain ⟨hfirst, hrest⟩ := List.forall_mem_cons.1 h
    exact List.forall_mem_cons.2 ⟨hi.problem ▸ hfirst, ih hrest⟩
  | cons_right _ ih => exact ih (List.forall_mem_cons.1 h).2

theorem Check.Clean.append {is is' : List ScopeIssue} (h : Check.Clean is) (h' : Check.Clean is') :
    Check.Clean (is ++ is') :=
  List.forall_mem_append.2 ⟨h, h'⟩

theorem Check.Clean.hasErrors {is : List ScopeIssue} (h : Check.Clean is) :
    Lox.hasErrors (is.map ScopeIssue.diagnostic) = false := by
  rw [Lox.hasErrors, List.any_eq_false]
  refine List.forall_mem_map.2 fun i hi herror => h i hi ?_
  exact beq_iff_eq.1 herror

/-- Diagnostics with the same code and message, during calls of the same names. -/
structure Diagnostic.Alike (d d' : Diagnostic) : Prop where
  stage : d.stage = d'.stage
  code : d.code = d'.code
  severity : d.severity = d'.severity
  message : d.message = d'.message
  trace : d.trace.map CallFrame.callee = d'.trace.map CallFrame.callee

theorem RuntimeError.Alike.diagnostic {e e' : RuntimeError} (h : e.Alike e') :
    e.diagnostic.Alike e'.diagnostic where
  stage := rfl
  code := congrArg Fault.code h.fault
  severity := rfl
  message := congrArg (fun fault => fault.message.beforeZero) h.fault
  trace := h.trace

namespace Session

variable {s s₁ : Session} {ps : List Program}

/-! ## Reports -/

/-- The error in which a run has ended. -/
def failure? {α : Type} : Except RuntimeError α → Option RuntimeError
  | .ok _ => none
  | .error e => some e

/-- The report on a script that has been run. -/
def reportOf (script : Script) (error : Option RuntimeError) : Report where
  outcome := if error.isSome then .runtimeError else .success
  diagnostics := script.diagnostics ++ (error.map RuntimeError.diagnostic).toList
  tokenCount := script.tokenCount
  statementCount := script.statementCount?.getD 0

/-- A source without errors is run by executing its program. -/
theorem run_eq {source : Text} {p : Program} (hscan : (tokenize source).errors = [])
    (hparse : parse (tokenize source).tokens = ⟨p, []⟩)
    (hclean : Check.Clean (p.issues s.scopeSettings)) (fuel : Nat) :
    s.run fuel source = ((Program.exec s.host fuel p.bind).outcome s.machine).map fun r =>
      (reportOf (s.compile source) (failure? r.1), { s with machine := r.2 }) := by
  have hrunnable : (s.compile source).runnable? = some p.bind := by
    rw [Script.runnable?, compile, compile_of_parse s.scopeSettings hscan hparse, Script.hasErrors,
      hclean.hasErrors]
    rfl
  unfold run execute interpret
  rw [hrunnable]
  dsimp only
  cases (Program.exec s.host fuel p.bind).outcome s.machine with
  | none => rfl
  | some r =>
    obtain ⟨e | _, m⟩ := r
    · rfl
    · simp [reportOf, failure?]

/-- A script that has been run to its end has no errors. -/
theorem hasErrors_of_success {source : Text} {fuel : Nat} {report : Report}
    (h : s.run fuel source = some (report, s₁)) (hok : report.outcome = .success) :
    (s.compile source).hasErrors = false := by
  cases herrors : (s.compile source).hasErrors with
  | false => rfl
  | true =>
    have hrunnable : (s.compile source).runnable? = none := by
      rw [Script.runnable?, herrors]
      rfl
    rw [run, execute, hrunnable] at h
    cases h
    cases hok

/-- Running a program to its end adds the globals that it declares, and no others. -/
theorem globalNames_of_exec (hs : History s ps)
    (hnatives : ∀ native ∈ s.machine.natives, native = clockFunction) {ts : List Token}
    {fuel : Nat} {r : Except RuntimeError Unit} {m : Machine}
    (h : (Program.exec s.host fuel (parse ts).program.bind).outcome s.machine = some (r, m)) :
    m.natives = s.machine.natives ∧
      ∀ x ∈ m.globalNames, x ∈ s.machine.globalNames ++ (parse ts).program.globals := by
  obtain ⟨_, own, hm⟩ := hs.scoped
  have hdefines : ∀ native ∈ s.machine.natives, native.DefinesOnly fun _ => False := by
    intro native hnative
    rw [hnatives native hnative]
    exact fun _ _ => trivial
  have hgained := Program.gains_exec s.host fuel (parse ts).program.bind s.machine hdefines
  rw [final_of_outcome h] at hgained
  refine ⟨hgained.natives, fun x hx => List.mem_append.2 ?_⟩
  rcases hgained.gains _ hm.size_pos x (Frames.mem_localNames.1 hx) with hold | ⟨_, hnew⟩ | ⟨_, hno⟩
  · exact .inl (Frames.mem_localNames.2 hold)
  · rw [Program.bind, Stmt.flatMap_hoisted_bindAll, flatMap_hoisted_parse] at hnew
    exact .inr hnew
  · exact hno.elim

/-! ## Splitting -/

/-- A run of two sources in one go ended as the run of the second did in the session to which the run of
the first had led: with the same outcome and the same error, having written the lines of the two runs,
and with the same globals on a machine alike. -/
structure EndsAsSecond (s s₁ : Session) (second whole : Report × Session) : Prop where
  outcome : whole.1.outcome = second.1.outcome
  ran : whole.1.outcome ≠ .staticError
  errors : List.Forall₂ Diagnostic.Alike (second.1.diagnostics.filter (·.stage = .runtime))
    (whole.1.diagnostics.filter (·.stage = .runtime))
  output : ∃ first next, s₁.machine.output = s.machine.output ++ first ∧
    second.2.machine.output = s₁.machine.output ++ next ∧
      whole.2.machine.output = s.machine.output ++ (first ++ next)
  globals : ∀ x, whole.2.machine.global? x = second.2.machine.global? x
  machines : second.2.machine.Alike s.host s.host .same whole.2.machine
  options : whole.2.options = s.options
  clock : whole.2.clock = s.clock

theorem runtime_reportOf {settings : ScopeSettings} {source : Text} (error : Option RuntimeError) :
    (reportOf (Lox.compile settings source) error).diagnostics.filter (·.stage = .runtime) =
      (error.map RuntimeError.diagnostic).toList := by
  have hstatic : (Lox.compile settings source).diagnostics.filter (·.stage = .runtime) = [] := by
    simpa [List.filter_eq_nil_iff] using stage_compile settings source
  rw [reportOf, List.filter_append, hstatic, List.nil_append, List.filter_eq_self]
  cases error with
  | none => exact List.forall_mem_nil _
  | some e => simp [RuntimeError.diagnostic]

theorem failure?_alike {α β : Type} {r : Except RuntimeError α} {r' : Except RuntimeError β}
    (h : ResultsAlike r r') : Option.Rel RuntimeError.Alike (failure? r) (failure? r') := by
  cases h with
  | ok => exact .none
  | error he => exact .some he

/-- Executions that end alike, from the machine on which the first source has ended. -/
theorem endsAsSecond_of_outcomesAlike {m : Machine} {first : Array Text}
    (hfirst : m.output = s.machine.output ++ first) {r r' : Except RuntimeError Unit × Machine}
    (h : OutcomesAlike s.host s.host .same m m r r') (settings settings' : ScopeSettings)
    (b whole : Text) :
    EndsAsSecond s { s with machine := m }
      (reportOf (Lox.compile settings b) (failure? r.1), { s with machine := r.2 })
      (reportOf (Lox.compile settings' whole) (failure? r'.1), { s with machine := r'.2 }) := by
  obtain ⟨next, hnext, hnext'⟩ := h.lines
  obtain ⟨l, hl, hm⟩ := h.machines
  obtain rfl := hm.eq_same hl
  have herror := failure?_alike h.results
  refine ⟨?_, ?_, ?_, ⟨first, next, hfirst, hnext, ?_⟩, fun x => (hm.global?_eq x).symm, hm, rfl, rfl⟩
  · show (if _ then _ else _) = (if _ then _ else _)
    rw [optionRel_isSome herror]
  · show (if _ then _ else _) ≠ _
    split <;> nofun
  · rw [runtime_reportOf, runtime_reportOf]
    revert herror
    generalize failure? r.1 = error, failure? r'.1 = error'
    rintro (he | _)
    · exact .cons he.diagnostic .nil
    · exact .nil
  · rw [← Array.append_assoc, ← hfirst]
    exact hnext'

/-- What a run to the end of a source has done. -/
theorem exec_of_success {source : Text} {p : Program} (hscan : (tokenize source).errors = [])
    (hparse : parse (tokenize source).tokens = ⟨p, []⟩)
    (hclean : Check.Clean (p.issues s.scopeSettings)) {fuel : Nat} {report : Report}
    (h : s.run fuel source = some (report, s₁)) (hok : report.outcome = .success) :
    ∃ m, s₁ = { s with machine := m } ∧ ∀ fuel', fuel ≤ fuel' →
      (Program.exec s.host fuel' p.bind).outcome s.machine = some (.ok (), m) := by
  rw [run_eq hscan hparse hclean] at h
  obtain ⟨⟨r, m⟩, hexec, heq⟩ := Option.map_eq_some_iff.1 h
  cases heq
  cases r with
  | ok _ => exact ⟨m, rfl, fun _ hfuel => (Program.exec_below s.host hfuel p.bind).outcome hexec⟩
  | error e => cases hok

/-- **Splitting a script over two runs changes nothing.** In any session without native functions but
`clock`, if one source runs to its end and another then compiles without errors, both with a line break
between them run in one go as the second does then: the one run ends if and only if the other does, with
the same outcome and the same error, the same globals, and the lines of the first run and those of the
second. -/
theorem run_append (hs : History s ps)
    (hnatives : ∀ native ∈ s.machine.natives, native = clockFunction) {a b : Text} {fuel : Nat}
    {report : Report} (ha : s.run fuel a = some (report, s₁)) (hok : report.outcome = .success)
    (hb : (s₁.compile b).hasErrors = false) {fuel' : Nat} (hfuel : fuel ≤ fuel') :
    Option.Rel (EndsAsSecond s s₁) (s₁.run fuel' b) (s.run fuel' (a ++ newline :: b)) := by
  obtain ⟨_, hs₁⟩ := hs.run ha
  obtain ⟨hscan, p, hparse, hclean⟩ := parse_of_hasErrors (hasErrors_of_success ha hok)
  obtain ⟨hscan', q, hparse', hclean'⟩ := parse_of_hasErrors hb
  obtain ⟨q', hmoved, hscanned, hparsed⟩ := parse_tokenize_append hscan hscan' hparse hparse'
  obtain ⟨m, rfl, hexec⟩ := exec_of_success hscan hparse hclean ha hok
  have hp : p = (parse (tokenize a).tokens).program := by rw [hparse]
  have hself : Program.Alike anywhere p p := hp ▸ parse_alike_self (fun _ => trivial) _
  have hdirect : p.flatMap Stmt.hoisted = p.globals := hp ▸ flatMap_hoisted_parse _
  obtain ⟨hnatives', hglobals⟩ := globalNames_of_exec hs hnatives (hp ▸ hexec fuel' hfuel)
  have hjoined : Check.Clean (Program.issues s.scopeSettings (p ++ q')) :=
    (hclean.append hclean').of_sublist
      (Program.issues_append hself hmoved.symm rfl hdirect (hp ▸ hglobals))
  -- the first part side by side with itself, to see that it adds lines to those before
  have hfirst := (hself.bind.agree_exec (Eq.refl s.host.maxDepth) fuel' rfl).outcome
    (hs.alike hnatives)
  rw [hexec fuel' hfuel] at hfirst
  obtain ⟨_, hlines, _⟩ : Machine.SameLines s.machine s.machine m m := by
    cases hfirst with
    | some h => exact h.lines
  have hsecond := (hmoved.bind.agree_exec (Eq.refl s.host.maxDepth) fuel' rfl).outcome
    (hs₁.alike fun native hn => hnatives native (hnatives' ▸ hn))
  rw [run_eq hscan' hparse' hclean', run_eq hscanned hparsed hjoined, Program.bind_append,
    Program.exec_append, Run.outcome_bind (hexec fuel' hfuel)]
  exact optionRel_map hsecond fun _ _ h => endsAsSecond_of_outcomesAlike hlines h _ _ b _

/-- A first part that ends in a comment and defines a function, and a second part that calls it and
fails there. -/
theorem run_append_failingCall :
    let s := new .default fun _ => .zero
    let a := utf8 "print nil; fun f(x) \x7b print x; return -x; \x7d // f"
    let b := utf8 "f(true);"
    ∃ report s₁, History s [] ∧ (∀ native ∈ s.machine.natives, native = clockFunction) ∧
      s.run 9 a = some (report, s₁) ∧ report.outcome = .success ∧
      (s₁.compile b).hasErrors = false ∧ 9 ≤ 9 ∧
      (s.run 9 (a ++ newline :: b)).any (fun r => r.1.outcome = .runtimeError ∧
        r.2.machine.output = #[utf8 "nil", utf8 "true"]) ∧
      Option.Rel (EndsAsSecond s s₁) (s₁.run 9 b) (s.run 9 (a ++ newline :: b)) := by
  intro s a b
  have hs : History s [] := (History.bare .default fun _ => .zero).register clockFunction
  have hnatives : ∀ native ∈ s.machine.natives, native = clockFunction := fun native hn =>
    List.mem_singleton.1 (Array.mem_def.1 hn)
  have hends : (s.run 9 a).any (fun r => r.1.outcome = .success ∧
      (r.2.compile b).hasErrors = false) = true := by decide +kernel
  obtain ⟨⟨report, s₁⟩, ha, hends⟩ := (Option.any_eq_true _ _).1 hends
  obtain ⟨hok, hb⟩ := of_decide_eq_true hends
  exact ⟨report, s₁, hs, hnatives, ha, hok, hb, Nat.le_refl _, by decide +kernel,
    run_append hs hnatives ha hok hb (Nat.le_refl _)⟩

end Session

end Lox
