import Lox.Proofs.Run.Origin
import Lox.Session

/-!
# Sessions keep frames and scopes in step

A session grows by registrations, by loading programs that resolve without errors, by running them,
each as often as one likes, and by calls from the host; runs and calls may end in errors
(`Session.History`). At every point of every run in it the frames of the code are those of the scopes
around it, and so a reference with a distance has a value and is never the origin of an error about an
undefined variable (`fits_of_reached`).
-/

namespace Lox

/-! ## Frames at a place -/

/-- The frames that lead from a frame to the global one are one for each scope around an address and
the global one itself. Each binds only names that its scope declares, and all of those whose
declaration is complete at the address. -/
def Machine.FramesFit (m : Machine) (frame : Nat) (root : Node) (a : Address) : Prop :=
  ∃ locals : List Nat,
    (∀ k, m.frames.ancestor? frame k = (locals ++ [Machine.globalFrame])[k]?) ∧
      List.Forall₂ (fun f scope => f ≠ Machine.globalFrame ∧
          (∀ x, m.frames.hasLocal f x = true → root.Declares scope x) ∧
            ∀ x, root.CompleteBefore scope x a → m.frames.hasLocal f x = true)
        locals (root.enclosing a)

theorem forall₂_of_common {α β γ : Type} {R : α → γ → Prop} {S : β → γ → Prop} {T : α → β → Prop}
    {as : List α} {bs : List β} {cs : List γ} (hR : List.Forall₂ R as cs)
    (hS : List.Forall₂ S bs cs) (h : ∀ a b c, R a c → S b c → T a b) : List.Forall₂ T as bs := by
  induction hR generalizing bs with
  | nil =>
    cases hS
    exact .nil
  | cons hr _ ih =>
    cases hS with
    | cons hs hrest => exact .cons (h _ _ _ hr hs) (ih hrest)

namespace InContext

variable {ps : List Program} {own : Owners} {m : Machine} {ctx : Context} {frame : Nat}

/-- What contexts tell of a frame, in terms of addresses. -/
theorem framesFit (hm : Scoped ps own m) (h : InContext own m.frames ctx frame) {root n : Node}
    {a : Address} (hpoint : Point root [] a n ctx) : m.FramesFit frame root a := by
  obtain ⟨locals, hchain, hlocals⟩ := h.ancestors hm.global
  refine ⟨locals, hchain, forall₂_of_common hlocals (Node.describes_of_point hpoint) ?_⟩
  rintro f scope names ⟨hown, hne, hnames⟩ hd
  refine ⟨hne, fun x hx => ?_, fun x hx => ?_⟩
  · rw [← hd.all, ← hown]
    exact hm.binds f x hne hx
  · exact hnames x ((hd.complete x).2 hx)

/-- A name that is complete at a distance has a value there. -/
theorem readVariable (hm : Scoped ps own m) (h : InContext own m.frames ctx frame) {name : Name}
    {d : Nat} {scope : ScopeNames} (hscope : ctx[d]? = some scope)
    (hname : name.text ∈ scope.complete) :
    ∃ v, Expr.readVariable frame name (some d) m = .ok v m := by
  obtain ⟨locals, hchain, hlocals⟩ := h.ancestors hm.global
  obtain ⟨hd, rfl⟩ := List.getElem?_eq_some_iff.1 hscope
  have hlt : d < locals.length := by rwa [hlocals.length_eq]
  have hlocal : m.frames.hasLocal locals[d] name.text = true :=
    (hlocals.get hlt hd).2.2 name.text hname
  have hframe : m.frames.ancestor? frame d = some locals[d] := by
    rw [hchain, List.getElem?_append_left hlt, List.getElem?_eq_getElem hlt]
  obtain ⟨v, hv⟩ := Option.isSome_iff_exists.1 hlocal
  have hat : m.frames.getAt frame d name.text = some v := by
    rw [Frames.getAt, hframe]
    exact hv
  refine ⟨v, ?_⟩
  have hget (f : Machine → Run Value) : (get >>= f) m = f m m := rfl
  rw [Expr.readVariable, hget]
  simp only [hat]
  rfl

end InContext

/-! ## Histories -/

/-- A program as it comes from the parser, resolved or not, whatever is wrong with it. -/
inductive Program.FromParser : Program → Prop
  | parsed (ts : List Token) : FromParser (parse ts).program
  | resolved (settings : ScopeSettings) (ts : List Token) :
    FromParser (Program.resolve settings (parse ts).program).1

theorem Program.FromParser.declaresDirectly {p : Program} (h : p.FromParser) :
    (Node.program p).DeclaresDirectly := by
  cases h with
  | parsed ts => exact parse_declaresDirectly ts
  | resolved settings ts => exact resolve_declaresDirectly settings ts

namespace Session

/-- What can have happened in a session, and the programs that were loaded. A run or a call counts
whether it ends with a result or in an error. -/
inductive History : Session → List Program → Prop
  | bare (options : Options) (clock : Nat → Number) : History (bare options clock) []
  | register {s : Session} {ps : List Program} (native : Native) :
    History s ps → History (s.register native) ps
  | constant {s : Session} {ps : List Program} (name : Text) (v : Value) :
    History s ps → History (s.constant name v) ps
  | load {s : Session} {ps : List Program} (settings : ScopeSettings) (ts : List Token) :
    History s ps → Check.Clean (Program.resolve settings (parse ts).program).2 →
      History s ((Program.resolve settings (parse ts).program).1 :: ps)
  | interpret {s s' : Session} {ps : List Program} {p : Program} {fuel : Nat}
      {result : Option RuntimeError} :
    History s ps → p ∈ ps → s.interpret fuel p = some (result, s') → History s' ps
  | call {s s' : Session} {ps : List Program} {fuel : Nat} {callee : Value} {args : List Value}
      {result : Except RuntimeError Value} :
    History s ps → s.call fuel callee args = some (result, s') → History s' ps

/-- What can have happened in a session whose host runs programs in spite of errors in them. -/
inductive Past : Session → List Program → Prop
  | bare (options : Options) (clock : Nat → Number) : Past (bare options clock) []
  | register {s : Session} {ps : List Program} (native : Native) :
    Past s ps → Past (s.register native) ps
  | constant {s : Session} {ps : List Program} (name : Text) (v : Value) :
    Past s ps → Past (s.constant name v) ps
  | load {s : Session} {ps : List Program} {p : Program} : Past s ps → p.FromParser → Past s (p :: ps)
  | interpret {s s' : Session} {ps : List Program} {p : Program} {fuel : Nat}
      {result : Option RuntimeError} :
    Past s ps → p ∈ ps → s.interpret fuel p = some (result, s') → Past s' ps
  | call {s s' : Session} {ps : List Program} {fuel : Nat} {callee : Value} {args : List Value}
      {result : Except RuntimeError Value} :
    Past s ps → s.call fuel callee args = some (result, s') → Past s' ps

/-- The tasks that running one of the programs or a call from the host leads to, with the machines on
which they begin. -/
inductive Reached (s : Session) (ps : List Program) (t : Task) (m : Machine) : Prop
  | interpret {p : Program} {fuel : Nat} :
    p ∈ ps → Reaches s.host (.program fuel p, s.machine) (t, m) → Reached s ps t m
  | call {fuel : Nat} {callee : Value} {args : List Value} :
    Reaches s.host (.call fuel callee args .nowhere, s.machine) (t, m) → Reached s ps t m

theorem final_of_outcome {α : Type} {x : Run α} {m m' : Machine} {r : Except RuntimeError α}
    (h : x.outcome m = some (r, m')) : x.final m = m' := by
  unfold Run.outcome at h
  unfold Run.final
  cases hx : x m with
  | ok a m₁ =>
    rw [hx] at h
    cases h
    rfl
  | error e m₁ =>
    rw [hx] at h
    cases e with
    | error e =>
      cases h
      rfl
    | outOfFuel => cases h

theorem fails_of_outcome {α : Type} {x : Run α} {m m' : Machine} {e : RuntimeError}
    (h : x.outcome m = some (.error e, m')) : x.Fails m e := by
  unfold Run.outcome at h
  split at h
  · cases h
  · next hx =>
    cases h
    exact ⟨_, hx⟩
  · cases h

/-- Running a program in a session is running it on the machine of the session. -/
theorem outcome_of_interpret {s s' : Session} {p : Program} {fuel : Nat}
    {result : Option RuntimeError} (h : s.interpret fuel p = some (result, s')) :
    ∃ r, (Program.exec s.host fuel p).outcome s.machine = some (r, s'.machine) ∧
      ∀ e, result = some e → r = .error e := by
  unfold interpret at h
  split at h
  · next ho =>
    cases h
    exact ⟨_, ho, nofun⟩
  · next ho =>
    cases h
    exact ⟨_, ho, fun e he => congrArg Except.error (Option.some.inj he)⟩
  · cases h

/-- How running a program in a session ends, said through the run itself. -/
theorem interpret_eq (s : Session) (fuel : Nat) (p : Program) :
    s.interpret fuel p = match Program.exec s.host fuel p s.machine with
      | .ok _ m => some (none, { s with machine := m })
      | .error (.error e) m => some (some e, { s with machine := m })
      | .error .outOfFuel _ => none := by
  unfold interpret Run.outcome
  cases Program.exec s.host fuel p s.machine with
  | ok _ m => rfl
  | error e m => cases e <;> rfl

theorem exec_of_interpret_error {s s' : Session} {p : Program} {fuel : Nat} {e : RuntimeError}
    (h : s.interpret fuel p = some (some e, s')) :
    Program.exec s.host fuel p s.machine = .error (.error e) s'.machine := by
  rw [interpret_eq] at h
  split at h
  · cases h
  · next hexec =>
    cases h
    exact hexec
  · cases h

theorem outcome_of_call {s s' : Session} {fuel : Nat} {callee : Value} {args : List Value}
    {result : Except RuntimeError Value} (h : s.call fuel callee args = some (result, s')) :
    (callWithin s.host fuel callee args .nowhere).outcome s.machine = some (result, s'.machine) := by
  unfold call at h
  split at h
  · next ho =>
    cases h
    exact ho
  · cases h

/-- An execution leaves the session as it is, or runs the program of the script. -/
theorem of_execute {s s' : Session} {fuel : Nat} {script : Script} {report : Report}
    (h : s.execute fuel script = some (report, s')) :
    s' = s ∨ ∃ p result, script.runnable? = some p ∧ s.interpret fuel p = some (result, s') := by
  unfold execute at h
  dsimp only at h
  split at h
  · cases h
    exact .inl rfl
  · next p hp =>
    split at h
    · next hi =>
      cases h
      exact .inr ⟨p, _, hp, hi⟩
    · next hi =>
      cases h
      exact .inr ⟨p, _, hp, hi⟩
    · cases h

/-- In a session all loaded programs declare directly, and the machine has the invariant. -/
theorem Past.scoped {s : Session} {ps : List Program} (h : Past s ps) :
    (∀ p ∈ ps, (Node.program p).DeclaresDirectly) ∧ ∃ own, Scoped ps own s.machine := by
  induction h with
  | bare options clock => exact ⟨List.forall_mem_nil _, _, scoped_empty⟩
  | @register s ps native _ ih =>
    obtain ⟨hps, own, hm⟩ := ih
    have hadd : Scoped ps own (s.machine.addNative native).2 := hm.congr rfl rfl
    exact ⟨hps, own, hadd.define (absurd rfl) _⟩
  | constant name v _ ih =>
    obtain ⟨hps, own, hm⟩ := ih
    exact ⟨hps, own, hm.define (absurd rfl) v⟩
  | load _ hp ih =>
    obtain ⟨hps, own, hm⟩ := ih
    exact ⟨List.forall_mem_cons.2 ⟨hp.declaresDirectly, hps⟩, own,
      hm.mono fun p hp => List.mem_cons_of_mem _ hp⟩
  | @interpret s s' ps p fuel _ _ hp hrun ih =>
    obtain ⟨hps, own, hm⟩ := ih
    obtain ⟨own', hm', _⟩ := Program.safe_exec hps s.host fuel hp [] p rfl own _ hm trivial
    obtain ⟨_, ho, _⟩ := outcome_of_interpret hrun
    exact ⟨hps, own', final_of_outcome ho ▸ hm'⟩
  | @call s s' ps fuel callee args _ _ hrun ih =>
    obtain ⟨hps, own, hm⟩ := ih
    obtain ⟨own', hm', _⟩ := safe_callWithin hps s.host fuel callee args .nowhere own _ hm trivial
    exact ⟨hps, own', final_of_outcome (outcome_of_call hrun) ▸ hm'⟩

theorem History.past {s : Session} {ps : List Program} (h : History s ps) : Past s ps := by
  induction h with
  | bare options clock => exact .bare options clock
  | register native _ ih => exact .register native ih
  | constant name v _ ih => exact .constant name v ih
  | load settings ts _ _ ih => exact .load ih (.resolved settings ts)
  | interpret _ hp hrun ih => exact .interpret ih hp hrun
  | call _ hrun ih => exact .call ih hrun

theorem History.accepted {s : Session} {ps : List Program} (h : History s ps) :
    ∀ p ∈ ps, p.Accepted := by
  induction h with
  | bare => exact List.forall_mem_nil _
  | load settings ts _ hclean ih =>
    exact List.forall_mem_cons.2 ⟨accepted_resolve settings ts hclean, ih⟩
  | register _ _ ih | constant _ _ _ ih | interpret _ _ _ ih | call _ _ ih => exact ih

/-- In a history all loaded programs are accepted, and the machine has the invariant. -/
theorem History.scoped {s : Session} {ps : List Program} (h : History s ps) :
    (∀ p ∈ ps, p.Accepted) ∧ ∃ own, Scoped ps own s.machine :=
  ⟨h.accepted, h.past.scoped.2⟩

theorem clean_of_hasErrors {issues : List ScopeIssue}
    (h : hasErrors (issues.map ScopeIssue.diagnostic) = false) : Check.Clean issues := by
  intro i hi herror
  rw [hasErrors, List.any_eq_false] at h
  refine h i.diagnostic (List.mem_map_of_mem hi) ?_
  show (i.problem.severity == .error) = true
  rw [herror]
  rfl

/-- Every parse error is an error. -/
theorem hasErrors_parseErrors {errors : List ParseError} (h : errors.isEmpty = false) :
    hasErrors (errors.map ParseError.diagnostic) = true := by
  cases errors with
  | nil => cases h
  | cons e errors => rfl

/-- A compiled script that may run is a resolved program without errors. -/
theorem runnable?_compile {settings : ScopeSettings} {source : Text} {p : Program}
    (h : (Lox.compile settings source).runnable? = some p) :
    ∃ ts, p = (Program.resolve settings (parse ts).program).1 ∧
      Check.Clean (Program.resolve settings (parse ts).program).2 := by
  unfold Script.runnable? at h
  split at h
  · cases h
  · next hclean =>
    unfold Lox.compile Script.hasErrors at hclean
    unfold Lox.compile at h
    dsimp only at h hclean
    split at h
    · cases h
    · next hscan =>
      rw [if_neg hscan] at hclean
      split at h
      · next hparse =>
        rw [if_pos hparse] at hclean
        exact absurd (hasErrors_parseErrors (by simpa using hparse)) hclean
      · next hparse =>
        rw [if_neg hparse] at hclean
        exact ⟨_, (Option.some.inj h).symm, clean_of_hasErrors (by simpa using hclean)⟩

/-- Compiling a source and running it is part of a history. -/
theorem History.run {s s' : Session} {ps : List Program} (h : History s ps) {fuel : Nat}
    {source : Text} {report : Report} (hr : s.run fuel source = some (report, s')) :
    ∃ ps', History s' ps' := by
  rcases of_execute hr with rfl | ⟨p, result, hrunnable, hi⟩
  · exact ⟨ps, h⟩
  · obtain ⟨ts, rfl, hclean⟩ := runnable?_compile hrunnable
    exact ⟨_, (h.load s.scopeSettings ts hclean).interpret List.mem_cons_self hi⟩

/-- The errors in which running one of the programs or a call from the host ends. -/
inductive Raised (s : Session) (ps : List Program) (e : RuntimeError) : Prop
  | interpret {s' : Session} {p : Program} {fuel : Nat} :
    p ∈ ps → s.interpret fuel p = some (some e, s') → Raised s ps e
  | call {s' : Session} {fuel : Nat} {callee : Value} {args : List Value} :
    s.call fuel callee args = some (.error e, s') → Raised s ps e

theorem Raised.fails {s : Session} {ps : List Program} {e : RuntimeError} (h : s.Raised ps e) :
    ∃ t, s.Reached ps t s.machine ∧ t.Fails s.host s.machine e := by
  cases h with
  | @interpret _ p fuel hp h =>
    obtain ⟨r, ho, hr⟩ := outcome_of_interpret h
    rw [hr e rfl] at ho
    exact ⟨.program fuel p, .interpret hp .refl, fails_of_outcome ho⟩
  | @call _ fuel callee args h =>
    exact ⟨.call fuel callee args .nowhere, .call .refl, fails_of_outcome (outcome_of_call h)⟩

theorem Reached.trans {s : Session} {ps : List Program} {t t' : Task} {m m' : Machine}
    (h : s.Reached ps t m) (ht : Reaches s.host (t, m) (t', m')) : s.Reached ps t' m' := by
  cases h with
  | interpret hp h => exact .interpret hp (h.trans ht)
  | call h => exact .call (h.trans ht)

/-- The code that is reached fits its frame. -/
theorem Past.fits {s : Session} {ps : List Program} (h : Past s ps) {t : Task} {m : Machine}
    {n : Node} {frame : Nat} (ht : s.Reached ps t m) (hcode : t.code? = some (n, frame)) :
    ∃ own, Scoped ps own m ∧ Node.Fits ps n frame own m := by
  obtain ⟨hdirect, own, hm⟩ := h.scoped
  obtain ⟨own', hm', hfits⟩ : ∃ own', Scoped ps own' m ∧ t.Fits ps own' m := by
    cases ht with
    | interpret hp hreach => exact Reaches.fits hdirect hreach hm ⟨[], hp⟩
    | call hreach => exact Reaches.fits hdirect hreach hm trivial
  refine ⟨own', hm', ?_⟩
  cases t with
  | eval | exec =>
    cases hcode
    exact hfits
  | _ => cases hcode

theorem History.fits {s : Session} {ps : List Program} (h : History s ps) {t : Task} {m : Machine}
    {n : Node} {frame : Nat} (ht : s.Reached ps t m) (hcode : t.code? = some (n, frame)) :
    ∃ own, Scoped ps own m ∧ Node.Fits ps n frame own m :=
  h.past.fits ht hcode

/-- A reference with a distance that is reached has a value. -/
theorem History.readVariable {s : Session} {ps : List Program} (h : History s ps) {t : Task}
    {m : Machine} {name : Name} {d frame : Nat} (ht : s.Reached ps t m)
    (hcode : t.code? = some (.expr (.reference name (some d)), frame)) :
    ∃ v, Expr.readVariable frame name (some d) m = .ok v m := by
  obtain ⟨own, hm, p, hp, a, ctx, hpoint, hctx⟩ := h.fits ht hcode
  obtain ⟨scope, hscope, hname⟩ := (h.scoped.1 p hp).reads hpoint
  exact hctx.readVariable hm hscope hname

/-- **Frames are those of the scopes.** At every point of a run in a session the code is a node of a
loaded program, and the frames that lead from its own to the global one are those of the scopes around
the node. A reference that carries a distance has a value there, and a run that ends in an error about
an undefined variable has reached a name without a value that is no such reference. -/
theorem fits_of_reached {s : Session} {ps : List Program} (h : History s ps) :
    (∀ t m n frame, s.Reached ps t m → t.code? = some (n, frame) →
      ∃ p ∈ ps, ∃ a, (Node.program p).at? a = some n ∧ m.FramesFit frame (.program p) a) ∧
    (∀ t m name d frame, s.Reached ps t m →
      t.code? = some (.expr (.reference name (some d)), frame) →
        ∃ v, Expr.readVariable frame name (some d) m = .ok v m) ∧
    ∀ e, s.Raised ps e → e.IsUndefined → ∃ t m, s.Reached ps t m ∧ Misses s.host e t m ∧
      ∀ name d frame, t.code? ≠ some (.expr (.reference name (some d)), frame) := by
  refine ⟨fun t m n frame ht hcode => ?_, fun t m name d frame ht hcode => h.readVariable ht hcode,
    fun e hraised he => ?_⟩
  · obtain ⟨own, hm, p, hp, a, ctx, hpoint, hctx⟩ := h.fits ht hcode
    exact ⟨p, hp, a, hpoint.at?, hctx.framesFit hm hpoint⟩
  · obtain ⟨t, ht, hfails⟩ := hraised.fails
    obtain ⟨t', m', hreach, hmisses⟩ := hfails.origin he
    have hreached := ht.trans hreach
    refine ⟨t', m', hreached, hmisses, fun name d frame hcode => ?_⟩
    obtain ⟨v, hv⟩ := h.readVariable hreached hcode
    cases hmisses with
    | reference hfails =>
      cases hcode
      exact Run.not_fails_of_ok hv hfails
    | assignment => cases hcode

/-- Running a block that declares a variable and prints it leads to the reference in it. -/
theorem reached_block (s : Session) (x y : Name) (l l' : Location) :
    ∃ m, s.Reached [[.block [.var x none, .print (.reference y (some 0)) l] l']]
      (.eval 0 s.machine.frames.size (.reference y (some 0))) m := by
  let rest : List Stmt := [.print (.reference y (some 0)) l]
  let inner := s.machine.frames.size
  have hprogram : Reaches s.host (.program 0 [.block (.var x none :: rest) l'], s.machine)
      (.exec 0 Machine.globalFrame (.block (.var x none :: rest) l'), s.machine) :=
    .single .firstOfProgram
  obtain ⟨m, hbody⟩ : ∃ m, Reaches s.host (.program 0 [.block (.var x none :: rest) l'], s.machine)
      (.execAll 0 inner (.var x none :: rest), m) := ⟨_, hprogram.tail (.block rfl)⟩
  obtain ⟨m', hrest⟩ : ∃ m', Reaches s.host (.program 0 [.block (.var x none :: rest) l'], s.machine)
      (.execAll 0 inner rest, m') := ⟨_, hbody.tail (.laterStatements rfl)⟩
  have hprint : Reaches s.host (.program 0 [.block (.var x none :: rest) l'], s.machine)
      (.exec 0 inner (.print (.reference y (some 0)) l), m') := hrest.tail .firstStatement
  exact ⟨m', .interpret List.mem_cons_self (hprint.tail .print)⟩

/-- The tokens of `{ var a; print a; }`. -/
def printedLocal : List Token :=
  let token (kind : TokenKind) (text : String) : Token := ⟨kind, utf8 text, none, .nowhere⟩
  [token .leftBrace "\x7b", token .kwVar "var", token .identifier "a", token .semicolon ";",
   token .kwPrint "print", token .identifier "a", token .semicolon ";", token .rightBrace "\x7d"]

/-- The reference in the block is reached in the frame of the block, and it has a value there. -/
theorem fits_of_reached_printedLocal :
    ∃ (s : Session) (ps : List Program) (t : Task) (m : Machine) (name : Name),
      History s ps ∧ s.Reached ps t m ∧ t.code? = some (.expr (.reference name (some 0)), 1) ∧
        ∃ v, Expr.readVariable 1 name (some 0) m = .ok v m := by
  have hclean : Check.Clean (Program.resolve ⟨true, []⟩ (parse printedLocal).program).2 := by
    unfold Check.Clean
    decide +kernel
  let a : Name := ⟨utf8 "a", .nowhere⟩
  have hp : (Program.resolve ⟨true, []⟩ (parse printedLocal).program).1 =
      [.block [.var a none, .print (.reference a (some 0)) .nowhere] .nowhere] := by rfl
  have hhistory := History.load ⟨true, []⟩ printedLocal (.bare .default fun _ => .zero) hclean
  rw [hp] at hhistory
  obtain ⟨m, hm⟩ := reached_block (bare .default fun _ => .zero) a a .nowhere .nowhere
  exact ⟨_, _, _, m, a, hhistory, hm, rfl, (fits_of_reached hhistory).2.1 _ m a 0 1 hm rfl⟩

end Session

end Lox
