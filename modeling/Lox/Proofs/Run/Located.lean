import Lox.HostFunction
import Lox.Proofs.Grammar.Nodes
import Lox.Proofs.Run.Announced
import Lox.Proofs.Run.Trace
import Lox.Proofs.Scan.Layout

/-!
# Where errors are located

Every expression of a compiled script is located at one of its tokens, in a line that counts from one. So
an error that the code raises is located in a source, and one of a native function that breaks off, or
that reports an error without a line, is located at the call of that function. What is left are the
locations that native functions choose themselves (`Act.Places`): where they report an error as it is, and
where they call values from. An error that ends a run has a line in some source, or such a location
(`Session.run_located`).
-/

namespace Lox

/-! ## Tokens have lines -/

/-- The tokens of a source are in lines that count from one. -/
theorem line_pos_tokenize {source : Text} (h : source.length < 2 ^ 32) {t : Token}
    (ht : t ∈ (tokenize source).tokens) (hkind : t.kind ≠ .endOfInput) : 0 < t.loc.line := by
  obtain ⟨ps, hps⟩ := exists_munches source
  have hread : tokenize source = _ := congrArg Prod.fst (hps.readAll_eq [])
  rw [hread] at ht
  have hmem : t ∈ (piecesRead [] ps).tokens := by
    rcases List.mem_append.1 ht with hmem | hend
    · exact hmem
    · rw [List.mem_singleton.1 hend] at hkind
      exact absurd rfl hkind
  obtain ⟨x, hx, htoken⟩ := List.mem_filterMap.1 hmem
  obtain ⟨c, -, rfl⟩ := Option.map_eq_some_iff.1 htoken
  have hlength := hps.length_lt hx
  obtain ⟨hline, -⟩ := @Location.behind_toNat x.1 (by omega)
  show 0 < (Location.start.after x.1).line
  rw [Location.after_eq_behind, UInt32.lt_iff_toNat_lt, hline]
  exact Nat.lt_add_right _ Nat.one_pos

/-- Binding changes no locations. -/
theorem Expr.loc_bind (scopes : OpenScopes) (e : Expr) : (e.bind scopes).loc = e.loc := by
  cases e <;> rfl

/-- The expressions of a script that may run are in lines that count from one. -/
theorem line_pos_of_runnable? {settings : ScopeSettings} {source : Text} {p : Program} {a : Address}
    {x : Expr} (h : source.length < 2 ^ 32) (hp : (compile settings source).runnable? = some p)
    (hat : (Node.program p).at? a = some (.expr x)) : 0 < x.loc.line := by
  obtain ⟨q, -, hparse, -, rfl⟩ := of_runnable? hp
  obtain ⟨n, ctx, hpoint, heq⟩ := @Node.exists_point_of_at?_bind (.program q) _ [] a hat
  have hmade : (Node.program q).MadeFrom (tokenize source).tokens := by
    have hmade := parse_madeFrom (tokenize source).tokens
    rwa [hparse] at hmade
  cases n with
  | expr y =>
    obtain rfl : x = y.bind ctx.visible := Node.expr.inj heq
    obtain ⟨t, ht, hkind, hloc, -⟩ := hmade a y hpoint.at?
    rw [Expr.loc_bind, hloc]
    exact line_pos_tokenize h ht hkind
  | _ => cases heq

/-! ## Locations that native functions choose -/

/-- The native function may put an error at the location: it reports one there, or it calls a value from
there and does not go on after an error. -/
inductive Act.Places (loc : Location) : Act → Prop
  | fail {code : Code} {message : Text} : Places loc (.fail code message loc)
  | call {callee : Value} {args : List Value} {next : Value → Act} :
    Places loc (.call callee args loc next)
  | called {callee : Value} {args : List Value} {place : Location} {next : Value → Act} (v : Value) :
    Places loc (next v) → Places loc (.call callee args place next)
  | attempted {callee : Value} {args : List Value} {place : Location}
      {next : Except RuntimeError Value → Act} (r : Except RuntimeError Value) :
    Places loc (next r) → Places loc (.attempt callee args place next)
  | write {line : Text} {next : Act} : Places loc next → Places loc (.write line next)
  | define {name : Text} {v : Value} {next : Act} :
    Places loc next → Places loc (.define name v next)
  | lookup {name : Text} {next : Option Value → Act} (found : Option Value) :
    Places loc (next found) → Places loc (.lookup name next)
  | depth {next : Nat → Act} (n : Nat) : Places loc (next n) → Places loc (.depth next)
  | clock {next : Number → Act} (x : Number) : Places loc (next x) → Places loc (.clock next)

/-- The native function may put an error at the location, for some arguments. -/
def Native.Places (native : Native) (loc : Location) : Prop := ∃ args, (native.body args).Places loc

/-- The stock function that reports a failure of its own chooses no location for it. -/
theorem HostFunction.not_places_failure (args : List Value) (loc : Location) :
    ¬(HostFunction.failure.body args).Places loc := by
  intro h
  simp only [body, act] at h
  cases hargument : stringArgument args 0 with
  | ok message =>
    rw [hargument] at h
    cases h
  | error message =>
    rw [hargument] at h
    cases h

/-! ## Locations in a run -/

variable {host : Host} {t t' : Task} {m m' : Machine} {e : RuntimeError} {P : Location → Prop}

/-- An error that a task ends in is raised there, or comes out of a task that it begins and after which
it does not go on. -/
theorem Task.Fails.uncaught (h : t.Fails host m e) :
    Raises host t m e.fault e.loc ∨
      ∃ t' m', Begins host t m t' m' ∧ (∀ next, ¬t.Catches t' next) ∧ t'.Fails host m' e := by
  rcases h.traced with ⟨hraises, -⟩ | ⟨t', m', hstep, hfails⟩
  · exact .inl hraises
  · by_cases hcatches : ∃ next, t.Catches t' next
    · obtain ⟨next, hcatches⟩ := hcatches
      cases hcatches with
      | attempt =>
        rcases Run.Fails.of_bind h with h | ⟨r, m₁, hr, h⟩
        · exact absurd h Run.not_fails_attempt
        · exact .inr ⟨_, _, .actAttempted hr, nofun, h⟩
    · exact .inr ⟨t', m', hstep, fun next hnext => hcatches ⟨next, hnext⟩, hfails⟩

/-- The locations at which the task itself may raise an error have the property. -/
def Task.Placed (P : Location → Prop) : Task → Prop
  | .eval _ _ x => P x.loc
  | .call _ _ _ site => P site
  | .act _ _ site a => P site ∧ ∀ loc, a.Places loc → P loc
  | _ => True

theorem Raises.placed {fault : Fault} {loc : Location} (h : Raises host t m fault loc)
    (ht : t.Placed P) (hlines : ∀ loc, 0 < loc.line → P loc) : P loc := by
  cases h with
  | unary | binary | reference | assignment | notCallable | arityMismatch | stackOverflow => exact ht
  | crash => exact ht.1
  | @raise _ _ _ _ site own =>
    split
    · exact ht.1
    · next hline => exact hlines own (UInt32.pos_iff_ne_zero.2 hline)
  | fail => exact ht.2 _ .fail

/-- A call is placed where the code or the native function that makes it is. -/
theorem Begins.placed (h : Begins host t m t' m') (huncaught : ∀ next, ¬t.Catches t' next)
    (ht : t.Placed P) (hm : ∀ native ∈ m.natives, ∀ loc, native.Places loc → P loc)
    (hcode : ∀ fuel frame x, t' = .eval fuel frame x → P x.loc) : t'.Placed P := by
  cases h with
  | call => exact ht
  | native _ hnative =>
    exact ⟨ht, fun loc h => hm _ (Array.mem_of_getElem? hnative) loc ⟨_, h⟩⟩
  | actCall => exact ht.2 _ .call
  | actAttempt => exact absurd .attempt (huncaught _)
  | actCalled => exact ⟨ht.1, fun loc h => ht.2 loc (.called _ h)⟩
  | actAttempted => exact ⟨ht.1, fun loc h => ht.2 loc (.attempted _ h)⟩
  | actWrite => exact ⟨ht.1, fun loc h => ht.2 loc (.write h)⟩
  | actDefine => exact ⟨ht.1, fun loc h => ht.2 loc (.define h)⟩
  | actLookup => exact ⟨ht.1, fun loc h => ht.2 loc (.lookup _ h)⟩
  | actDepth => exact ⟨ht.1, fun loc h => ht.2 loc (.depth _ h)⟩
  | actClock => exact ⟨ht.1, fun loc h => ht.2 loc (.clock _ h)⟩
  | arguments | laterArguments | block | ifBranch | elseBranch | elseOtherwise | whileLoop | loopBody
  | loopAgain | firstStatement | laterStatements | function | firstOfProgram | laterOfProgram =>
    exact trivial
  | _ => exact hcode _ _ _ rfl

/-- No run makes native functions. -/
theorem Machine.stepwise_natives : Machine.Stepwise fun m m' => m'.natives = m.natives where
  refl _ := rfl
  trans h h' := h'.trans h
  write _ _ := rfl
  define _ _ _ _ := rfl
  addChild _ _ := rfl
  addFunction _ _ := rfl
  readClock _ := rfl
  inCall _ h := h

/-- An error comes out of a task with a location of the code, one that a native function has chosen, or
one that counts from a line. -/
theorem Task.Fails.placed (h : t.Fails host m e) (ht : t.Placed P)
    (hm : ∀ native ∈ m.natives, ∀ loc, native.Places loc → P loc)
    (hcode : ∀ fuel frame x m', Reaches host (t, m) (.eval fuel frame x, m') → P x.loc)
    (hlines : ∀ loc, 0 < loc.line → P loc) : P e.loc := by
  -- along the tasks that the error comes out of, from the first one inwards
  have hacc := Task.grounded host t m
  generalize hx : (t, m) = x at hacc
  induction hacc generalizing t m with
  | intro x _ ih =>
    subst hx
    rcases h.uncaught with hraises | ⟨t', m', hstep, huncaught, hfails⟩
    · exact hraises.placed ht hlines
    · have hnatives : m'.natives = m.natives :=
        hstep.respects Machine.stepwise_natives fun _ _ => rfl
      have hcode' (fuel frame : Nat) (x : Expr) (m'' : Machine)
          (hreach : Reaches host (t', m') (.eval fuel frame x, m'')) : P x.loc :=
        hcode fuel frame x m'' (.head hstep hreach)
      have ht' : t'.Placed P := hstep.placed huncaught ht hm fun fuel frame x hx =>
        hcode' fuel frame x m' (hx ▸ .refl)
      exact ih (t', m') hstep hfails ht' (hnatives ▸ hm) hcode' rfl

/-! ## Sessions -/

namespace Session

variable {s s' : Session} {cs : List Compilation}

/-- The expressions of compiled scripts that are evaluated are in lines that count from one. -/
theorem Records.line_pos (h : Records s cs) (hsources : ∀ c ∈ cs, c.source.length < 2 ^ 32)
    {fuel frame : Nat} {x : Expr} {m : Machine}
    (ht : s.Reached (programs cs) (.eval fuel frame x) m) : 0 < x.loc.line := by
  obtain ⟨own, -, p, hp, a, ctx, hpoint, -⟩ := h.history.fits ht rfl
  obtain ⟨c, hc, hrunnable⟩ := mem_programs.1 hp
  exact line_pos_of_runnable? (hsources c hc) hrunnable hpoint.at?

/-- A run that ends in an error has run the program of the source. -/
theorem of_run_runtimeError {fuel : Nat} {source : Text} {report : Report}
    (hrun : s.run fuel source = some (report, s')) (hend : report.outcome = .runtimeError) :
    ∃ p e, (s.compile source).runnable? = some p ∧ s.interpret fuel p = some (some e, s') ∧
      report.diagnostics = (s.compile source).diagnostics ++ [e.diagnostic] := by
  unfold run execute at hrun
  dsimp only at hrun
  split at hrun
  · cases hrun
    cases hend
  · next p hp =>
    split at hrun
    · cases hrun
      cases hend
    · next e _ hi =>
      cases hrun
      exact ⟨p, e, hp, hi, rfl⟩
    · cases hrun

/-- **Errors of a run are located.** Take a session after any number of steps, which runs only scripts of
its own. A run in it that ends in an error reports this error behind what compiling found, and the error is
in a line that counts from one, unless its location is one at which a native function of the session
reports an error as it is, or from which one calls a value and passes an error on. -/
theorem run_located (h : Records s cs) (hsources : ∀ c ∈ cs, c.source.length < 2 ^ 32) {fuel : Nat}
    {source : Text} (hsource : source.length < 2 ^ 32) {report : Report}
    (hrun : s.run fuel source = some (report, s')) (hend : report.outcome = .runtimeError) :
    ∃ e : RuntimeError, report.diagnostics = (s.compile source).diagnostics ++ [e.diagnostic] ∧
      (0 < e.loc.line ∨ ∃ native ∈ s.machine.natives, native.Places e.loc) := by
  obtain ⟨p, e, hp, hi, hdiagnostics⟩ := of_run_runtimeError hrun hend
  have hrecords : Records s (⟨s, source⟩ :: cs) := h.compile source
  have hlengths : ∀ c ∈ (⟨s, source⟩ :: cs : List Compilation), c.source.length < 2 ^ 32 :=
    List.forall_mem_cons.2 ⟨hsource, hsources⟩
  have hmem : p ∈ programs (⟨s, source⟩ :: cs) := mem_programs.2 ⟨_, List.mem_cons_self, hp⟩
  have hfails : (Task.program fuel p).Fails s.host s.machine e := ⟨_, exec_of_interpret_error hi⟩
  let P (loc : Location) : Prop := 0 < loc.line ∨ ∃ native ∈ s.machine.natives, native.Places loc
  refine ⟨e, hdiagnostics, (hfails.placed trivial ?_ ?_ ?_ : P e.loc)⟩
  · exact fun native hnative loc hplaces => .inr ⟨native, hnative, hplaces⟩
  · exact fun fuel frame x m hreach => .inl (hrecords.line_pos hlengths (.interpret hmem hreach))
  · exact fun loc hline => .inl hline

/-- A session with a single native function. -/
def withFunction (name : String) (f : HostFunction) : Session :=
  (bare .default fun _ => .zero).register ⟨utf8 name, 1, f.body⟩

/-- A native function that reports an error without a location: it is located at the call. -/
theorem run_located_failure :
    let s := withFunction "fail" .failure
    let source := utf8 "print 1;\nfail(\"boom\");"
    Records s [] ∧ source.length < 2 ^ 32 ∧
      (∀ native ∈ s.machine.natives, ∀ loc, ¬native.Places loc) ∧
      ∃ report s', s.run 9 source = some (report, s') ∧ report.outcome = .runtimeError ∧
        ∃ e : RuntimeError, report.diagnostics = (s.compile source).diagnostics ++ [e.diagnostic] ∧
          0 < e.loc.line := by
  intro s source
  have hrecords : Records s [] := .register _ (.bare _ _)
  have hlength : source.length < 2 ^ 32 := by decide
  have hplaces : ∀ native ∈ s.machine.natives, ∀ loc, ¬native.Places loc := by
    intro native hnative loc hplaces
    obtain rfl : native = ⟨utf8 "fail", 1, HostFunction.failure.body⟩ := by
      simpa [s, withFunction, register, bare, Machine.empty, Machine.addNative,
        Machine.defineGlobal] using hnative
    obtain ⟨args, h⟩ := hplaces
    exact HostFunction.not_places_failure args loc h
  have hruns : (s.run 9 source).any (fun r => r.1.outcome = .runtimeError) = true := by
    decide +kernel
  obtain ⟨⟨report, s'⟩, hrun, hends⟩ := (Option.any_eq_true _ _).1 hruns
  have hend : report.outcome = .runtimeError := of_decide_eq_true hends
  obtain ⟨e, hdiagnostics, hline | ⟨native, hnative, h⟩⟩ :=
    run_located hrecords (List.forall_mem_nil _) hlength hrun hend
  · exact ⟨hrecords, hlength, hplaces, report, s', hrun, hend, e, hdiagnostics, hline⟩
  · exact absurd h (hplaces native hnative e.loc)

/-- A native function that reports an error inside its call, without a location: the error already has a
trace, and it is not located at the call. -/
theorem run_not_located :
    let s := withFunction "f" .failureInside
    let source := utf8 "f(\"x\");"
    (s.run 9 source).any (fun r => r.1.outcome = .runtimeError ∧
      r.1.diagnostics = [⟨.runtime, .notCallable, .error, utf8 "x", .nowhere, [⟨utf8 "f", 1⟩]⟩]) = true ∧
    ¬∀ report s', s.run 9 source = some (report, s') → report.outcome = .runtimeError →
      ∀ d ∈ report.diagnostics, d.stage = .runtime → 1 ≤ d.loc.line := by
  intro s source
  have hruns : (s.run 9 source).any (fun r => r.1.outcome = .runtimeError ∧
      r.1.diagnostics =
        [⟨.runtime, .notCallable, .error, utf8 "x", .nowhere, [⟨utf8 "f", 1⟩]⟩]) = true := by
    decide +kernel
  refine ⟨hruns, fun hlocated => ?_⟩
  obtain ⟨⟨report, s'⟩, hrun, hends⟩ := (Option.any_eq_true _ _).1 hruns
  obtain ⟨hend, hdiagnostics⟩ := of_decide_eq_true hends
  have hline := hlocated report s' hrun hend
  rw [hdiagnostics] at hline
  exact absurd (hline _ List.mem_cons_self rfl) (by decide)

end Session

end Lox
