import Lox.Proofs.Run.Compiled
import Lox.Proofs.Run.Origin

/-!
# Undefined globals are announced

Compiling warns about every name that no scope and no global declares. Globals do not go away, within a
run (`Begins.respects`) or between runs (`Session.Records.later`). So where a run or a call ends in an
error about an undefined global, now or any number of runs later, the script that has the name at that
place declares it at top level or was compiled with a warning about it
(`Session.undefined_announced`).
-/

namespace Lox

/-! ## Names that compiling warns about -/

/-- Compiling the script has found that nothing declares the name there. -/
def Script.Warns (script : Script) (name : Name) : Prop :=
  (ScopeIssue.mk (.undeclaredVariable name.text) name.loc).diagnostic ∈ script.diagnostics

theorem Node.target?_bind (scopes : OpenScopes) (n : Node) :
    (n.bind scopes).target? = n.target?.map fun t => (t.1, scopes.distance? t.1.text) := by
  cases n with
  | expr e => cases e <;> rfl
  | _ => rfl

theorem Program.globals_bind (p : Program) : (Program.bind p).globals = p.globals := by
  have hrow (scopes : OpenScopes) : (Stmt.bindAll scopes p).1.filterMap Stmt.declared? =
      p.filterMap Stmt.declared? := by
    induction p generalizing scopes with
    | nil => rfl
    | cons s rest ih =>
      simp only [Stmt.bindAll, List.filterMap_cons, Stmt.declared?_bind, ih]
  exact hrow []

/-- A name without a distance in a script that may run is that of a global which existed before, or the
script declares it at top level, or compiling has warned about it. -/
theorem warns_of_runnable? {settings : ScopeSettings} {source : Text} {p : Program} {n : Node}
    {a : Address} {name : Name} (hp : (compile settings source).runnable? = some p)
    (hat : (Node.program p).at? a = some n) (hn : n.target? = some (name, none)) :
    name.text ∈ settings.predefined ∨ name.text ∈ p.globals ∨
      (compile settings source).Warns name := by
  obtain ⟨q, hscan, hparse, hclean, rfl⟩ := of_runnable? hp
  rw [compile_of_parse settings hscan hparse]
  obtain ⟨n', ctx, hpoint, rfl⟩ := @Node.exists_point_of_at?_bind (.program q) n [] a hat
  rw [Node.target?_bind] at hn
  obtain ⟨⟨name', d⟩, hn', heq⟩ := Option.map_eq_some_iff.1 hn
  obtain ⟨rfl, hglobal⟩ := Prod.mk.inj heq
  rw [Program.globals_bind]
  exact (Program.announced_of_clean hclean hpoint hn' hglobal).imp_right
    (.imp_right List.mem_map_of_mem)

/-! ## Globals stay -/

variable {host : Host} {t t' : Task} {m m' : Machine} {e : RuntimeError}

/-- What holds across every step of a run, and across the beginning of a call, holds between the
machines on which a task begins and on which it begins another. -/
theorem Begins.respects {R : Machine → Machine → Prop} (hR : Machine.Stepwise R)
    (hcall : ∀ m call, R m { m with calls := call :: m.calls }) (h : Begins host t m t' m') :
    R m m' := by
  have hcalls (fuel : Nat) := hR.callWithin host fuel
  have heval {fuel frame : Nat} {x : Expr} {m m' : Machine} {v : Value}
      (hx : x.eval (callWithin host fuel) frame m = .ok v m') : R m m' :=
    (Machine.Stepwise.eval hR (hcalls fuel) frame x).of_ok hx
  have hexec {fuel frame : Nat} {s : Stmt} {m m' : Machine} {flow : Flow}
      (hs : s.exec (callWithin host fuel) fuel frame m = .ok flow m') : R m m' :=
    (Machine.Stepwise.exec hR (hcalls fuel) fuel frame s).of_ok hs
  cases h with
  | binaryRight hv | logicalRight hv | arguments hv | laterArguments hv | ifBranch hv | elseBranch hv
  | elseOtherwise hv | loopBody hv => exact heval hv
  | @call fuel frame _ _ _ _ es _ _ _ hv hvs =>
    exact hR.trans (heval hv) ((Machine.Stepwise.evalAll hR (hcalls fuel) frame es).of_ok hvs)
  | loopAgain hv _ hs => exact hR.trans (heval hv) (hexec hs)
  | laterStatements hs | laterOfProgram hs => exact hexec hs
  | block hnew =>
    cases hnew
    exact hR.addChild m _
  | function _ _ henter => exact hR.trans (hcall m _) ((hR.enter _ _).of_ok henter)
  | native => exact hcall m _
  | actCalled hv => exact (hcalls _ _ _ _).of_ok hv
  | actAttempted hr => exact (Machine.Stepwise.attempt (hcalls _ _ _ _)).of_ok hr
  | actWrite hw =>
    cases hw
    exact hR.write m _
  | actDefine hd =>
    cases hd
    exact hR.define m _ _ _
  | actClock => exact hR.readClock m
  | _ => exact hR.refl m

theorem Reaches.globalNames {x y : Task × Machine} (h : Reaches host x y) :
    ∀ name ∈ x.2.globalNames, name ∈ y.2.globalNames := by
  induction h with
  | refl => exact fun _ hname => hname
  | tail _ hstep ih =>
    exact fun name hname =>
      hstep.respects Machine.stepwise_globalNames (fun _ _ _ hx => hx) name (ih name hname)

/-- Where a name has no value, the error is about that name at that place, and if the name has no
distance there is no such global. -/
theorem Misses.elim (h : Misses host e t m) :
    ∃ n frame name d, t.code? = some (n, frame) ∧ n.target? = some (name, d) ∧
      e.fault = .undefinedVariable name.text ∧ e.loc = name.loc ∧
        (d = none → name.text ∉ m.globalNames) := by
  cases h with
  | @reference fuel frame m name d hfails =>
    obtain ⟨hnone, rfl⟩ := hfails.of_readVariable
    refine ⟨_, _, name, d, rfl, rfl, rfl, rfl, ?_⟩
    rintro rfl hmem
    have hvalue : m.global? name.text = none := hnone
    rw [Machine.mem_globalNames, hvalue] at hmem
    cases hmem
  | @assignment fuel frame m m' name d x v hv hfails =>
    obtain ⟨hnone, rfl⟩ := hfails.of_writeVariable
    refine ⟨_, _, name, d, rfl, rfl, rfl, rfl, ?_⟩
    rintro rfl hmem
    -- the globals from before the value was computed are still there behind it
    have hlater := (Machine.Stepwise.eval Machine.stepwise_globalNames
      (Machine.stepwise_globalNames.callWithin host fuel) frame x).of_ok hv _ hmem
    have hvalue : m'.global? name.text = none := hnone
    rw [Machine.mem_globalNames, hvalue] at hlater
    cases hlater

namespace Session

/-! ## Sessions and what they have compiled -/

/-- A script that a session has compiled: the session then, and the source. -/
structure Compilation where
  session : Session
  source : Text

/-- The compiled script. -/
def Compilation.script (c : Compilation) : Script := c.session.compile c.source

/-- The programs of the scripts that may run. -/
def programs (cs : List Compilation) : List Program := cs.filterMap (·.script.runnable?)

/-- What can have happened in a session that runs only scripts of its own, and the scripts that it has
compiled. An execution or a call counts whether it ends with a result or in an error. -/
inductive Records : Session → List Compilation → Prop
  | bare (options : Options) (clock : Nat → Number) : Records (bare options clock) []
  | compile {s : Session} {cs : List Compilation} (source : Text) :
    Records s cs → Records s (⟨s, source⟩ :: cs)
  | execute {s s' : Session} {cs : List Compilation} {c : Compilation} {fuel : Nat}
      {report : Report} :
    Records s cs → c ∈ cs → s.execute fuel c.script = some (report, s') → Records s' cs
  | register {s : Session} {cs : List Compilation} (native : Native) :
    Records s cs → Records (s.register native) cs
  | constant {s : Session} {cs : List Compilation} (name : Text) (v : Value) :
    Records s cs → Records (s.constant name v) cs
  | call {s s' : Session} {cs : List Compilation} {fuel : Nat} {callee : Value} {args : List Value}
      {result : Except RuntimeError Value} :
    Records s cs → s.call fuel callee args = some (result, s') → Records s' cs

variable {s s' : Session} {cs : List Compilation}

theorem mem_programs {p : Program} :
    p ∈ programs cs ↔ ∃ c ∈ cs, c.script.runnable? = some p := List.mem_filterMap

theorem programs_cons (c : Compilation) (cs : List Compilation) :
    programs (c :: cs) = c.script.runnable?.toList ++ programs cs := by
  unfold programs
  rw [List.filterMap_cons]
  cases c.script.runnable? <;> rfl

/-- Running a source is compiling it and executing the script. -/
theorem Records.run (h : Records s cs) {fuel : Nat} {source : Text} {report : Report}
    (hr : s.run fuel source = some (report, s')) : Records s' (⟨s, source⟩ :: cs) :=
  (h.compile source).execute List.mem_cons_self hr

theorem Records.history (h : Records s cs) : History s (programs cs) := by
  induction h with
  | bare options clock => exact .bare options clock
  | @compile s cs source _ ih =>
    rw [programs_cons]
    cases hrunnable : (Compilation.script ⟨s, source⟩).runnable? with
    | none => exact ih
    | some p =>
      obtain ⟨ts, rfl, hclean⟩ := runnable?_compile hrunnable
      exact ih.load s.scopeSettings ts hclean
  | execute _ hc hr ih =>
    rcases of_execute hr with rfl | ⟨p, result, hp, hi⟩
    · exact ih
    · exact ih.interpret (mem_programs.2 ⟨_, hc, hp⟩) hi
  | register native _ ih => exact ih.register native
  | constant name v _ ih => exact ih.constant name v
  | call _ hr ih => exact ih.call hr

/-- The globals that there were when a script was compiled are still there. -/
theorem Records.later (h : Records s cs) : ∀ c ∈ cs, c.session.Later s := by
  induction h with
  | bare options clock => exact List.forall_mem_nil _
  | @compile s cs source _ ih => exact List.forall_mem_cons.2 ⟨.refl s, ih⟩
  | execute _ _ hr ih => exact fun c hc => (ih c hc).trans (later_execute hr)
  | register native _ ih => exact fun c hc => (ih c hc).trans (Step.register _ native).later
  | constant name v _ ih => exact fun c hc => (ih c hc).trans (Step.constant _ name v).later
  | call _ hr ih => exact fun c hc => (ih c hc).trans (later_call hr)

theorem Reached.globalNames {ps : List Program} (h : s.Reached ps t m) :
    ∀ x ∈ s.machine.globalNames, x ∈ m.globalNames := by
  cases h with
  | interpret _ h => exact h.globalNames
  | call h => exact h.globalNames

/-- The code is in the program of the script, and the script may run. -/
def Compilation.Holds (c : Compilation) (n : Node) : Prop :=
  ∃ p a, c.script.runnable? = some p ∧ (Node.program p).at? a = some n

/-- The script declares the name at top level, and it may run. -/
def Compilation.Declares (c : Compilation) (x : Text) : Prop :=
  ∃ p, c.script.runnable? = some p ∧ ∃ declaration ∈ p, declaration.declared? = some x

/-- At a point of a run of one of the scripts, or of a call from the host, the code reads or assigns to
a name without a value, and that is the error. -/
structure LacksValue (s : Session) (cs : List Compilation) (e : RuntimeError) (t : Task)
    (m : Machine) (n : Node) (name : Name) (d : Option Nat) : Prop where
  reached : s.Reached (programs cs) t m
  misses : Misses s.host e t m
  code : ∃ frame, t.code? = some (n, frame)
  target : n.target? = some (name, d)

namespace LacksValue

variable {n : Node} {name : Name} {d : Option Nat}

theorem error (h : s.LacksValue cs e t m n name d) :
    e.fault = .undefinedVariable name.text ∧ e.loc = name.loc ∧
      (d = none → name.text ∉ m.globalNames) := by
  obtain ⟨frame, hcode⟩ := h.code
  obtain ⟨n', frame', name', d', hcode', hn', herror⟩ := h.misses.elim
  obtain ⟨rfl, rfl⟩ := Prod.mk.inj (Option.some.inj (hcode.symm.trans hcode'))
  obtain ⟨rfl, rfl⟩ := Prod.mk.inj (Option.some.inj (h.target.symm.trans hn'))
  exact herror

/-- The code at the point is that of a compiled script. -/
theorem exists_holds (h : s.LacksValue cs e t m n name d) (hs : Records s cs) :
    ∃ c ∈ cs, c.Holds n := by
  obtain ⟨frame, hcode⟩ := h.code
  obtain ⟨own, -, p, hp, a, ctx, hpoint, -⟩ := hs.history.fits h.reached hcode
  obtain ⟨c, hc, hrunnable⟩ := mem_programs.1 hp
  exact ⟨c, hc, p, a, hrunnable, hpoint.at?⟩

end LacksValue

/-- A global that was there when a script was compiled is there at every point of a later run. -/
theorem Records.mem_globalNames (h : Records s cs) {c : Compilation} (hc : c ∈ cs) {x : Text}
    (hx : x ∈ c.session.machine.globalNames) (ht : s.Reached (programs cs) t m) :
    x ∈ m.globalNames :=
  ht.globalNames x ((h.later c hc).globals x hx)

/-- **Undefined globals are announced.** Take a session after any number of steps, which runs only
scripts of its own. If an execution or a call from the host ends in an error about an undefined
variable, then at some point of it the code lacks a value for that name at that place. Wherever code
lacks a value for a name without a distance, the code is that of a compiled script, and every compiled
script that holds it declares the name at top level or has a warning about the name at its place. A
global that was there when some script was compiled has a value at every point of every later run, and
code never lacks it. -/
theorem undefined_announced (h : Records s cs) :
    (∀ e x, s.Raised (programs cs) e → e.fault = .undefinedVariable x →
      ∃ t m n name d, s.LacksValue cs e t m n name d ∧ name.text = x ∧ name.loc = e.loc) ∧
    (∀ e t m n name, s.LacksValue cs e t m n name none →
      e.fault = .undefinedVariable name.text ∧ e.loc = name.loc ∧ (∃ c ∈ cs, c.Holds n) ∧
        ∀ c ∈ cs, c.Holds n → c.Declares name.text ∨ c.script.Warns name) ∧
    ∀ c ∈ cs, ∀ x ∈ c.session.machine.globalNames,
      (∀ t m, s.Reached (programs cs) t m → (m.global? x).isSome = true) ∧
        ∀ e t m n name, s.LacksValue cs e t m n name none → name.text ≠ x := by
  refine ⟨fun e x hraised hfault => ?_, fun e t m n name hlacks => ?_,
    fun c hc x hx => ⟨fun t m ht => ?_, fun e t m n name hlacks => ?_⟩⟩
  · obtain ⟨t, ht, hfails⟩ := hraised.fails
    obtain ⟨t', m', hreach, hmisses⟩ := hfails.origin ⟨x, hfault⟩
    obtain ⟨n, frame, name, d, hcode, hn, hfault', hloc, -⟩ := hmisses.elim
    have hname : name.text = x := by
      rw [hfault] at hfault'
      cases hfault'
      rfl
    exact ⟨t', m', n, name, d, ⟨ht.trans hreach, hmisses, ⟨frame, hcode⟩, hn⟩, hname, hloc.symm⟩
  · obtain ⟨hfault, hloc, hnone⟩ := hlacks.error
    refine ⟨hfault, hloc, hlacks.exists_holds h, fun c hc hholds => ?_⟩
    obtain ⟨p, a, hp, hat⟩ := hholds
    rcases warns_of_runnable? hp hat hlacks.target with hexisted | hdeclared | hwarns
    · -- what existed when the script was compiled is still there
      exact absurd (h.mem_globalNames hc hexisted hlacks.reached) (hnone rfl)
    · exact .inl ⟨p, hp, List.mem_filterMap.1 hdeclared⟩
    · exact .inr hwarns
  · exact Machine.mem_globalNames.1 (h.mem_globalNames hc hx ht)
  · obtain ⟨-, -, hnone⟩ := hlacks.error
    rintro rfl
    exact hnone rfl (h.mem_globalNames hc hx hlacks.reached)

/-- A script is run that declares a function, and compiled with a warning about a name in it; the next
script calls the function, and this ends in an error where the warning is. -/
theorem undefined_announced_laterCall :
    let s := bare .default fun _ => .zero
    let c : Compilation := ⟨s, utf8 "fun f() \x7b print y; \x7d"⟩
    let y : Name := ⟨utf8 "y", ⟨1, 17⟩⟩
    ∃ s', (∃ report, s.run 9 c.source = some (report, s')) ∧
      Records s' [⟨s', utf8 "f();"⟩, c] ∧ c.script.Warns y ∧
        ∃ e, s'.Raised (programs [⟨s', utf8 "f();"⟩, c]) e ∧ ∃ t m n name d,
          s'.LacksValue [⟨s', utf8 "f();"⟩, c] e t m n name d ∧ name.text = y.text ∧
            name.loc = y.loc := by
  intro s c y
  have hruns : (s.run 9 c.source).any (fun r =>
      (r.2.compile (utf8 "f();")).runnable?.any fun p => (r.2.interpret 9 p).any fun r' =>
        r'.1.any fun e => e.fault = .undefinedVariable y.text ∧ e.loc = y.loc) = true := by
    decide +kernel
  obtain ⟨⟨report, s'⟩, hrun, hcalls⟩ := (Option.any_eq_true _ _).1 hruns
  obtain ⟨p, hp, hcalls⟩ := (Option.any_eq_true _ _).1 hcalls
  obtain ⟨⟨result, s''⟩, hinterpret, hcalls⟩ := (Option.any_eq_true _ _).1 hcalls
  obtain ⟨e, rfl, he⟩ := (Option.any_eq_true _ _).1 hcalls
  obtain ⟨hfault, hloc⟩ := of_decide_eq_true he
  have hrecords : Records s' [⟨s', utf8 "f();"⟩, c] :=
    (Records.run (.bare .default fun _ => .zero) hrun).compile (utf8 "f();")
  have hraised : s'.Raised (programs [⟨s', utf8 "f();"⟩, c]) e :=
    .interpret (mem_programs.2 ⟨_, List.mem_cons_self, hp⟩) hinterpret
  obtain ⟨t, m, n, name, d, hlacks, hname, hplace⟩ :=
    (undefined_announced hrecords).1 e y.text hraised hfault
  refine ⟨s', ⟨report, hrun⟩, hrecords, ?_, e, hraised, t, m, n, name, d, hlacks, hname,
    hplace.trans hloc⟩
  unfold Script.Warns
  decide +kernel

end Session

end Lox
