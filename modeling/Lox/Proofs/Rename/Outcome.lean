import Lox.Proofs.Rename.Check
import Lox.Proofs.Rename.Eval
import Lox.Proofs.Run.Session

/-!
# Renaming a local variable changes nothing

A local variable may be given any name that the program does not contain. Resolving commutes with that, so
the distances stay (`Program.bind_rename`), and the issues are the same but for the name
(`Program.issues_rename`). In a session without native functions the renamed program does what the program
does, and so do the functions that it leaves behind (`Session.interpret_rename`).
-/

namespace Lox

namespace Program

variable {settings : ScopeSettings} {p : Program} {declaration : NamePlace} {x y : Text}
  {scope : Address}

/-- The program with its distances is renamed by scopes. -/
theorem renamed_bind (hclean : Check.Clean (p.issues settings))
    (hlocal : (Node.program p.bind).local? declaration = some (x, scope)) (hy : y ∉ p.names) :
    List.Forall₂ (Stmt.Renamed (Equiv.swap x y) .none) p.bind
      (Program.rename p.bind declaration y) := by
  rw [← issues_bind] at hclean
  rw [← names_bind] at hy
  rw [rename, bind_bind]
  exact renamed_mapNames (exchanges_denotes hclean hlocal hy)

/-- Finding the distances commutes with renaming. -/
theorem bind_rename (hclean : Check.Clean (p.issues settings))
    (hlocal : (Node.program p.bind).local? declaration = some (x, scope)) (hy : y ∉ p.names) :
    Program.bind (p.rename declaration y) = Program.rename p.bind declaration y := by
  have hrenamed := renamed_bind hclean hlocal hy
  rw [← names_bind] at hy
  have hbound := bind_eq_of_renamed hrenamed (bind_bind p) hy
  unfold rename at hbound ⊢
  rw [bind_bind p] at hbound ⊢
  exact bind_mapNames hbound

/-- The issues are the same but for the name. -/
theorem issues_rename (hclean : Check.Clean (p.issues settings))
    (hlocal : (Node.program p.bind).local? declaration = some (x, scope)) (hy : y ∉ p.names) :
    List.Forall₂ (ScopeIssue.Renamed (Equiv.swap x y)) (p.issues settings)
      (Program.issues settings (p.rename declaration y)) := by
  have hrenamed := renamed_bind hclean hlocal hy
  have hbind := bind_rename hclean hlocal hy
  rw [← names_bind] at hy
  rw [← issues_bind, ← issues_bind _ (p.rename declaration y), hbind]
  exact issues_renamed hrenamed (bind_bind p) hy settings

end Program

/-! ## Sessions -/

/-- One value, or errors that are the same but for a name. -/
inductive ResultsRenamed (σ : Equiv.Perm Text) :
    Except RuntimeError Value → Except RuntimeError Value → Prop
  | ok (v : Value) : ResultsRenamed σ (.ok v) (.ok v)
  | error {e e' : RuntimeError} : e.Renamed σ e' → ResultsRenamed σ (.error e) (.error e')

namespace Session

/-- Results that are related, the same lines written in all and the same global variables. -/
structure EndsSame {α : Type} (R : α → α → Prop) (r r' : α × Session) : Prop where
  result : R r.1 r'.1
  output : r'.2.machine.output = r.2.machine.output
  globals : r'.2.machine.frames.locals Machine.globalFrame =
    r.2.machine.frames.locals Machine.globalFrame

variable {σ : Equiv.Perm Text}

/-- In sessions whose machines are renamed alike, calls from the host end in the same way. -/
theorem call_inStep {shape : Shape} {s s' : Session} (hm : s.machine.Renamed σ shape s'.machine)
    (hhost : s'.host = s.host) (fuel : Nat) (callee : Value) (args : List Value) :
    Option.Rel (EndsSame (ResultsRenamed σ)) (s.call fuel callee args)
      (s'.call fuel callee args) := by
  have hends := inStep_callWithin σ s.host fuel shape callee args .nowhere shape _ _ (.refl shape) hm
  unfold call Run.outcome
  rw [hhost]
  revert hends
  generalize callWithin s.host fuel callee args .nowhere s.machine = r
  generalize callWithin s.host fuel callee args .nowhere s'.machine = r'
  intro hends
  cases hends with
  | ok _ hm₁ _ => exact .some ⟨.ok _, hm₁.output, hm₁.locals_global⟩
  | error _ hm₁ he => exact .some ⟨.error he, hm₁.output, hm₁.locals_global⟩
  | outOfFuel => exact .none

/-- **Local variables may be renamed.** If a program has no errors, then a variable that is declared in a
scope of it may be given any name that the program does not contain: the renamed program has the same
distances and the same issues, up to the name in them. In a session without native functions it ends as
the program does, with the same lines written and the same global variables, or neither ends with the given
fuel; an error has the same code, location and trace. Afterwards, calls from the host end in the same
way, too. -/
theorem interpret_rename {settings : ScopeSettings} {p : Program} {declaration : NamePlace}
    {x y : Text} {scope : Address} (hclean : Check.Clean (Program.resolve settings p).2)
    (hlocal : (Node.program p.bind).local? declaration = some (x, scope)) (hy : y ∉ p.names) :
    (Program.resolve settings (p.rename declaration y)).1 =
      Program.rename (Program.resolve settings p).1 declaration y ∧
    List.Forall₂ (ScopeIssue.Renamed (Equiv.swap x y)) (Program.resolve settings p).2
      (Program.resolve settings (p.rename declaration y)).2 ∧
    ∀ (s : Session) (ps : List Program) (fuel : Nat), s.History ps → s.machine.natives = #[] →
      Option.Rel
        (fun r r' => EndsSame (Option.Rel (RuntimeError.Renamed (Equiv.swap x y))) r r' ∧
          ∀ fuel callee args, Option.Rel (EndsSame (ResultsRenamed (Equiv.swap x y)))
            (r.2.call fuel callee args) (r'.2.call fuel callee args))
        (s.interpret fuel (Program.resolve settings p).1)
        (s.interpret fuel (Program.resolve settings (p.rename declaration y)).1) := by
  have hbind := Program.bind_rename hclean hlocal hy
  refine ⟨hbind, Program.issues_rename hclean hlocal hy, fun s ps fuel hs hnatives => ?_⟩
  obtain ⟨-, own, hscoped⟩ := hs.scoped
  -- no scope of an earlier program is marked, so the machine to begin with is its own renamed form
  have hself := hscoped.renamed_refl hnatives (Equiv.swap x y)
  have hends := Program.inStep_exec (Program.renamed_bind hclean hlocal hy) s.host fuel hself.global
    _ _ _ (.refl _) hself
  show Option.Rel _ (s.interpret fuel p.bind) (s.interpret fuel (Program.bind (p.rename declaration y)))
  rw [interpret_eq, interpret_eq, hbind]
  revert hends
  generalize Program.exec s.host fuel p.bind s.machine = r
  generalize Program.exec s.host fuel (Program.rename p.bind declaration y) s.machine = r'
  intro hends
  cases hends with
  | ok _ hm _ =>
    refine .some ⟨⟨.none, hm.output, hm.locals_global⟩, fun fuel callee args => ?_⟩
    refine call_inStep hm ?_ fuel callee args
    rfl
  | error _ hm he =>
    refine .some ⟨⟨.some he, hm.output, hm.locals_global⟩, fun fuel callee args => ?_⟩
    refine call_inStep hm ?_ fuel callee args
    rfl
  | outOfFuel => exact .none

/-- A block whose variable is captured by a function, and hidden by another one of the same name. -/
def capturedLocal : Program :=
  let source := utf8 "\x7b var a = 1; fun f() \x7b return a; \x7d " ++
    utf8 "\x7b var a = 2; print f() < a; \x7d \x7d"
  (parse (tokenize source).tokens).program

/-- The captured variable is renamed where it is declared and in the function, and not the one that hides
it; the comparison of the two is printed from both programs. -/
theorem interpret_rename_captured :
    Check.Clean (Program.resolve ⟨true, []⟩ capturedLocal).2 ∧
    (Node.program capturedLocal.bind).local? (.node [0, 0]) = some (utf8 "a", [0]) ∧
    utf8 "b" ∉ capturedLocal.names ∧
    capturedLocal.names = ["a", "f", "a", "a", "f", "a"].map utf8 ∧
    (capturedLocal.rename (.node [0, 0]) (utf8 "b")).names =
      ["b", "f", "b", "a", "f", "a"].map utf8 ∧
    ((bare .default fun _ => .zero).interpret 2 capturedLocal.bind).map (·.2.machine.output) =
      some #[utf8 "true"] ∧
    Option.Rel (fun r r' => r'.2.machine.output = r.2.machine.output)
      ((bare .default fun _ => .zero).interpret 2 capturedLocal.bind)
      ((bare .default fun _ => .zero).interpret 2
        (Program.bind (capturedLocal.rename (.node [0, 0]) (utf8 "b")))) := by
  have hclean : Check.Clean (Program.resolve ⟨true, []⟩ capturedLocal).2 := by
    unfold Check.Clean
    decide +kernel
  have hlocal : (Node.program capturedLocal.bind).local? (.node [0, 0]) =
      some (utf8 "a", [0]) := by decide +kernel
  have hy : utf8 "b" ∉ capturedLocal.names := by decide +kernel
  obtain ⟨-, -, hruns⟩ := interpret_rename hclean hlocal hy
  have hends := hruns _ _ 2 (.bare .default fun _ => .zero) rfl
  exact ⟨hclean, hlocal, hy, by decide +kernel, by decide +kernel, by decide +kernel,
    optionRel_imp hends fun _ _ h => h.1.output⟩

end Session

end Lox
