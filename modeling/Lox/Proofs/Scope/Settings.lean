import Lox.Proofs.Rename.Check
import Lox.Proofs.Scope.Passes
import Lox.TokenStream

/-!
# Settings of the check

The settings decide what is reported and nothing else. A check goes side by side with the one that
knows no names in advance and reports whatever it finds (`Check.Mutes`): the same scopes are open, and a
name that exists before the program is as good as one defined by it. So the issues under any settings are
the ones found with the strictest settings, without those that the settings silence
(`Program.issues_eq_filter`), and how two settings compare follows from what they silence
(`Program.resolve_settings`).
-/

namespace Lox

/-- The settings that silence nothing. -/
def ScopeSettings.strictest : ScopeSettings := ⟨true, []⟩

/-- The problem would be none if these global names existed before the program. -/
def ScopeProblem.settledBy (predefined : List Text) : ScopeProblem → Bool
  | .undeclaredVariable name | .globalReadInInitializer name => predefined.contains name
  | _ => false

/-- The problem is that nothing reads a name. -/
def ScopeProblem.isUnused : ScopeProblem → Bool
  | .unusedVariable _ => true
  | _ => false

/-- The problems that the settings keep from being reported. -/
def ScopeSettings.silences (settings : ScopeSettings) (problem : ScopeProblem) : Bool :=
  problem.isUnused && !settings.reportUnused || problem.settledBy settings.predefined

/-! ## A check beside the strictest one -/

/-- The first state comes from the check with the settings: it has the same scopes open, counts the
names that existed before as defined, too, and has reported what the settings do not silence. -/
structure Checked.Muted (settings : ScopeSettings) (c c₀ : Checked) : Prop where
  scopes : c.scopes = c₀.scopes
  defined : ∀ x, x ∈ c.defined ↔ x ∈ settings.predefined ∨ x ∈ c₀.defined
  issues : c.issues = c₀.issues.filter (!settings.silences ·.problem)

variable {settings : ScopeSettings}

theorem Checked.Muted.append {c c₀ : Checked} (h : c.Muted settings c₀) {is is₀ : List ScopeIssue}
    (his : is = is₀.filter (!settings.silences ·.problem)) :
    Checked.Muted settings { c with issues := c.issues ++ is }
      { c₀ with issues := c₀.issues ++ is₀ } :=
  ⟨h.scopes, h.defined, by rw [h.issues, his, List.filter_append]⟩

namespace Check

variable {α β : Type}

/-- Two checks keep in step, the first with the settings and the second with the strictest ones, and
their results are equal. -/
def Mutes (settings : ScopeSettings) (x y : Check α) : Prop :=
  ∀ c c₀ : Checked, c.Muted settings c₀ →
    (x.run c).2.Muted settings (y.run c₀).2 ∧ (x.run c).1 = (y.run c₀).1

theorem Mutes.bind {x y : Check α} {f g : α → Check β} (h : Mutes settings x y)
    (hf : ∀ a, Mutes settings (f a) (g a)) : Mutes settings (x >>= f) (y >>= g) := by
  intro c c₀ hc
  obtain ⟨hstate, hresult⟩ := h c c₀ hc
  show Checked.Muted settings ((f (x.run c).1).run (x.run c).2).2
      ((g (y.run c₀).1).run (y.run c₀).2).2 ∧
    ((f (x.run c).1).run (x.run c).2).1 = ((g (y.run c₀).1).run (y.run c₀).2).1
  rw [← hresult]
  exact hf _ _ _ hstate

theorem mutes_pure (a : α) : Mutes settings (pure a) (pure a) := fun _ _ hc => ⟨hc, rfl⟩

theorem mutes_nothing : Mutes settings (pure ()) (pure ()) := mutes_pure ()

theorem mutes_note {problem : ScopeProblem} (h : settings.silences problem = false)
    (loc : Location) : Mutes settings (note problem loc) (note problem loc) :=
  fun _ _ hc => ⟨hc.append (by simp [h]), rfl⟩

/-- Of the state both go on with the same open scopes. -/
theorem mutes_get {f g : Checked → Check α}
    (h : ∀ c c₀ : Checked, c.scopes = c₀.scopes → Mutes settings (f c) (g c₀)) :
    Mutes settings (get >>= f) (get >>= g) := fun c c₀ hc => h c c₀ hc.scopes c c₀ hc

/-- A step that changes the scopes only. -/
theorem mutes_modify (f : List Declarations → List Declarations) :
    Mutes settings (modify fun c => { c with scopes := f c.scopes })
      (modify fun c => { c with scopes := f c.scopes }) :=
  fun _ _ hc => ⟨⟨congrArg f hc.scopes, hc.defined, hc.issues⟩, rfl⟩

theorem mutes_forM {f : β → Check Unit} (bs : List β) (h : ∀ b, Mutes settings (f b) (f b)) :
    Mutes settings (bs.forM f) (bs.forM f) := by
  induction bs with
  | nil => exact mutes_nothing
  | cons b bs ih => exact (h b).bind fun _ => ih

/-! ### Declarations -/

theorem mutes_declare (name : Name) (isParameter : Bool) :
    Mutes settings (declare name isParameter) (declare name isParameter) := by
  rintro ⟨scopes, defined, issues⟩ ⟨scopes₀, defined₀, issues₀⟩ hc
  obtain rfl : scopes = scopes₀ := hc.scopes
  cases scopes with
  | nil => exact ⟨hc, rfl⟩
  | cons ds outer =>
    rw [run_declare, run_declare]
    dsimp only
    split
    · exact ⟨hc.append rfl, rfl⟩
    · exact ⟨⟨rfl, hc.defined, hc.issues⟩, rfl⟩

theorem mutes_define (name : Text) : Mutes settings (define name) (define name) := by
  rintro ⟨scopes, defined, issues⟩ ⟨scopes₀, defined₀, issues₀⟩ hc
  obtain rfl : scopes = scopes₀ := hc.scopes
  cases scopes with
  | nil =>
    refine ⟨⟨rfl, fun x => ?_, hc.issues⟩, rfl⟩
    show x ∈ name :: defined ↔ x ∈ settings.predefined ∨ x ∈ name :: defined₀
    rw [List.mem_cons, List.mem_cons, hc.defined]
    exact or_left_comm
  | cons ds outer => exact ⟨⟨rfl, hc.defined, hc.issues⟩, rfl⟩

/-- Where a scope ends, nothing but the names that nothing reads is reported. -/
theorem run_closeScope_cons (settings : ScopeSettings) (ds : Declarations)
    (outer : List Declarations) (defined : List Text) (issues : List ScopeIssue) :
    (closeScope settings).run ⟨ds :: outer, defined, issues⟩ =
      ((), ⟨outer, defined, issues ++ if settings.reportUnused then
        ds.unused.map fun name => ⟨.unusedVariable name.text, name.loc⟩ else []⟩) := by
  rw [run_closeScope]
  split
  · rw [StateT.run_bind, run_forM_note]
    rfl
  · rw [List.append_nil]
    rfl

theorem mutes_closeScope : Mutes settings (closeScope settings) (closeScope .strictest) := by
  rintro ⟨scopes, defined, issues⟩ ⟨scopes₀, defined₀, issues₀⟩ hc
  obtain rfl : scopes = scopes₀ := hc.scopes
  cases scopes with
  | nil => exact ⟨hc, rfl⟩
  | cons ds outer =>
    rw [run_closeScope_cons, run_closeScope_cons]
    have hends : Checked.Muted settings ⟨outer, defined, issues⟩ ⟨outer, defined₀, issues₀⟩ :=
      ⟨rfl, hc.defined, hc.issues⟩
    refine ⟨hends.append ?_, rfl⟩
    cases hunused : settings.reportUnused <;>
      simp [ScopeSettings.strictest, ScopeSettings.silences, ScopeProblem.isUnused,
        ScopeProblem.settledBy, hunused, List.filter_map, Function.comp_def]

theorem mutes_parameters (params : List Name) :
    Mutes settings
      (params.forM fun param => do
        declare param true
        define param.text)
      (params.forM fun param => do
        declare param true
        define param.text) :=
  mutes_forM params fun param => (mutes_declare param true).bind fun _ => mutes_define _

/-! ### Names -/

variable {known : List Text}

theorem mutes_isLocal (name : Text) : Mutes settings (isLocal name) (isLocal name) :=
  mutes_get fun _ _ hscopes => hscopes ▸ mutes_pure _

theorem mutes_isInitializing (name : Text) :
    Mutes settings (isInitializing name) (isInitializing name) :=
  mutes_get fun _ _ hscopes => hscopes ▸ mutes_pure _

/-- What is reported of a name that is read and that no scope declares. A name that exists before the
program is neither read too early nor undeclared. -/
theorem mutes_globalRead (initializing : Option Text) (name : Name) :
    Mutes settings (globalRead (settings.predefined ++ known) initializing name)
      (globalRead known initializing name) := by
  intro c c₀ hc
  rw [run_globalRead, run_globalRead]
  refine ⟨hc.append ?_, rfl⟩
  simp only [hc.defined, List.mem_append]
  by_cases hx : name.text ∈ settings.predefined <;> split_ifs <;>
    simp_all [ScopeSettings.silences, ScopeProblem.isUnused, ScopeProblem.settledBy]

theorem mutes_undeclared (name : Name) :
    Mutes settings
      (do
        if !(← isLocal name.text) && !(settings.predefined ++ known).contains name.text then
          note (.undeclaredVariable name.text) name.loc)
      (do
        if !(← isLocal name.text) && !known.contains name.text then
          note (.undeclaredVariable name.text) name.loc) := by
  refine (mutes_isLocal name.text).bind fun b => ?_
  cases b with
  | true => exact mutes_nothing
  | false => exact mutes_globalRead none name

end Check

/-! ## Programs -/

variable {known : List Text}

namespace Expr

open Check

theorem mutes_reference (initializing : Option Text) (name : Name) (d : Option Nat) :
    Mutes settings ((reference name d).check (settings.predefined ++ known) initializing)
      ((reference name d).check known initializing) := by
  have hafter : Mutes settings
      (do
        if ← isLocal name.text then
          modify fun c => { c with scopes := markUsed name.text c.scopes }
        else
          globalRead (settings.predefined ++ known) initializing name)
      (do
        if ← isLocal name.text then
          modify fun c => { c with scopes := markUsed name.text c.scopes }
        else
          globalRead known initializing name) := by
    refine (mutes_isLocal name.text).bind fun b => ?_
    cases b with
    | true => exact mutes_modify (markUsed name.text)
    | false => exact mutes_globalRead initializing name
  refine (mutes_isInitializing name.text).bind fun b => ?_
  cases b with
  | true => exact (mutes_note rfl name.loc).bind fun _ => hafter
  | false => exact hafter

mutual

/-- The check of an expression, beside the one that knows no names in advance. -/
theorem mutes_check (settings : ScopeSettings) (known : List Text) (initializing : Option Text)
    (e : Expr) : Mutes settings (e.check (settings.predefined ++ known) initializing)
      (e.check known initializing) := by
  cases e with
  | literal => exact mutes_nothing
  | grouping e | unary _ e => exact mutes_check settings known initializing e
  | binary _ l r | logical _ l r =>
    exact (mutes_check settings known initializing l).bind fun _ =>
      mutes_check settings known initializing r
  | reference name d => exact mutes_reference initializing name d
  | assign name _ e =>
    exact (mutes_check settings known initializing e).bind fun _ => mutes_undeclared name
  | call f args =>
    exact (mutes_check settings known initializing f).bind fun _ =>
      mutes_checkAll settings known initializing args

theorem mutes_checkAll (settings : ScopeSettings) (known : List Text) (initializing : Option Text)
    (es : List Expr) : Mutes settings (checkAll (settings.predefined ++ known) initializing es)
      (checkAll known initializing es) := by
  cases es with
  | nil => exact mutes_nothing
  | cons e es =>
    exact (mutes_check settings known initializing e).bind fun _ =>
      mutes_checkAll settings known initializing es

end

theorem mutes_checkOption (settings : ScopeSettings) (known : List Text)
    (initializing : Option Text) (e : Option Expr) :
    Mutes settings (checkOption (settings.predefined ++ known) initializing e)
      (checkOption known initializing e) := by
  cases e with
  | none => exact mutes_nothing
  | some e => exact mutes_check settings known initializing e

end Expr

namespace Stmt

open Check

mutual

/-- The check of a statement, beside the strictest one. -/
theorem mutes_check (settings : ScopeSettings) (known : List Text) (inFunction : Bool) (s : Stmt) :
    Mutes settings (s.check settings (settings.predefined ++ known) inFunction)
      (s.check .strictest known inFunction) := by
  cases s with
  | expression e | print e => exact Expr.mutes_check settings known none e
  | var name e =>
    refine (mutes_declare name false).bind fun _ => ?_
    refine mutes_get fun c c₀ hscopes => ?_
    rw [hscopes]
    exact (Expr.mutes_checkOption settings known _ e).bind fun _ => mutes_define _
  | block body =>
    refine (mutes_modify ([] :: ·)).bind fun _ => ?_
    exact (mutes_checkAll settings known inFunction body).bind fun _ => mutes_closeScope
  | ifThen c branch =>
    exact (Expr.mutes_check settings known none c).bind fun _ =>
      mutes_check settings known inFunction branch
  | ifElse c branch otherwise =>
    refine (Expr.mutes_check settings known none c).bind fun _ => ?_
    exact (mutes_check settings known inFunction branch).bind fun _ =>
      mutes_check settings known inFunction otherwise
  | whileLoop c body =>
    exact (Expr.mutes_check settings known none c).bind fun _ =>
      mutes_check settings known inFunction body
  | function name params body =>
    refine (mutes_declare name false).bind fun _ => (mutes_define _).bind fun _ => ?_
    refine (mutes_modify ([] :: ·)).bind fun _ => (mutes_parameters params).bind fun _ => ?_
    exact (mutes_checkAll settings known true body).bind fun _ => mutes_closeScope
  | returnStmt e loc =>
    have hvalue := Expr.mutes_checkOption settings known none e
    cases inFunction with
    | true => exact hvalue
    | false => exact (mutes_note rfl loc).bind fun _ => hvalue

theorem mutes_checkAll (settings : ScopeSettings) (known : List Text) (inFunction : Bool)
    (body : List Stmt) :
    Mutes settings (checkAll settings (settings.predefined ++ known) inFunction body)
      (checkAll .strictest known inFunction body) := by
  cases body with
  | nil => exact mutes_nothing
  | cons s rest =>
    exact (mutes_check settings known inFunction s).bind fun _ =>
      mutes_checkAll settings known inFunction rest

end

end Stmt

namespace Program

/-- The issues are the ones found with the strictest settings that the settings do not silence. -/
theorem issues_eq_filter (settings : ScopeSettings) (p : Program) :
    p.issues settings = (p.issues .strictest).filter (!settings.silences ·.problem) := by
  refine (Stmt.mutes_checkAll settings p.globals false p ⟨[], settings.predefined, []⟩ ⟨[], [], []⟩
    ⟨rfl, fun x => ?_, rfl⟩).1.issues
  rw [or_iff_left List.not_mem_nil]

/-- Settings that silence the same and more besides. -/
theorem issues_filter {settings settings' : ScopeSettings} (more : ScopeProblem → Bool)
    (h : ∀ problem, settings'.silences problem = (more problem || settings.silences problem))
    (p : Program) : p.issues settings' = (p.issues settings).filter (!more ·.problem) := by
  rw [issues_eq_filter settings', issues_eq_filter settings, List.filter_filter]
  refine List.filter_congr fun i _ => ?_
  rw [h, Bool.not_or]

/-- Programs that differ in the distances they already have. -/
theorem resolve_congr {p q : Program} (h : q.unbind = p.unbind) (settings : ScopeSettings) :
    q.resolve settings = p.resolve settings := by
  unfold resolve
  rw [← bind_unbind q, ← bind_unbind p, ← issues_unbind settings q, ← issues_unbind settings p, h]

/-- Distances do not depend on the settings, and more names known in advance only take away issues:
that a name is undeclared, and that a global name is read in its own initializer. In which order the
names are given does not matter, nor whether one is repeated. Not to report unused names takes away
those and nothing else. The distances that a program already has do not matter, so the second time it
is resolved nothing changes. -/
theorem resolve_settings (p : Program) :
    (∀ (reportUnused : Bool) (predefined predefined' : List Text),
      (∀ x ∈ predefined, x ∈ predefined') →
        p.resolve ⟨reportUnused, predefined'⟩ =
          ((p.resolve ⟨reportUnused, predefined⟩).1,
            (p.resolve ⟨reportUnused, predefined⟩).2.filter
              (!·.problem.settledBy predefined'))) ∧
    (∀ (reportUnused : Bool) (predefined predefined' : List Text),
      (∀ x, x ∈ predefined ↔ x ∈ predefined') →
        p.resolve ⟨reportUnused, predefined'⟩ = p.resolve ⟨reportUnused, predefined⟩) ∧
    (∀ predefined : List Text,
      p.resolve ⟨false, predefined⟩ =
        ((p.resolve ⟨true, predefined⟩).1,
          (p.resolve ⟨true, predefined⟩).2.filter (!·.problem.isUnused))) ∧
    (∀ (settings : ScopeSettings) (q : Program), q.unbind = p.unbind →
      q.resolve settings = p.resolve settings) ∧
    ∀ settings : ScopeSettings, (p.resolve settings).1.resolve settings = p.resolve settings := by
  refine ⟨fun reportUnused predefined predefined' hsub => ?_,
    fun reportUnused predefined predefined' hsame => ?_, fun predefined => ?_,
    fun settings q h => resolve_congr h settings, fun settings => resolve_congr (unbind_eq _) settings⟩
  · refine congrArg (p.bind, ·) (issues_filter (·.settledBy predefined') (fun problem => ?_) p)
    cases problem <;> simp [ScopeSettings.silences, ScopeProblem.settledBy, ScopeProblem.isUnused]
    all_goals exact hsub _
  · have hsettled : ScopeProblem.settledBy predefined' = ScopeProblem.settledBy predefined := by
      funext problem
      cases problem <;> simp [ScopeProblem.settledBy, hsame]
    refine congrArg (p.bind, ·) ?_
    rw [issues_eq_filter, issues_eq_filter ⟨reportUnused, predefined⟩]
    simp only [ScopeSettings.silences, hsettled]
  · refine congrArg (p.bind, ·) (issues_filter (·.isUnused) (fun problem => ?_) p)
    simp [ScopeSettings.silences]

/-- A program with a name of each kind that the settings can silence. -/
def unsettled : Program :=
  (parse (tokenize (utf8 "\x7b var a; \x7d var g = g; print u;")).tokens).program

/-- The global name that is read in its own initializer and the undeclared one are known in advance, in
another order and one of them twice, unused names are not reported, and the program is resolved twice. -/
theorem resolve_settings_unsettled :
    (∀ x ∈ ["g"].map utf8, x ∈ ["g", "u"].map utf8) ∧
    (unsettled.resolve ⟨true, ["g"].map utf8⟩).2.map (·.problem) =
      [.unusedVariable (utf8 "a"), .undeclaredVariable (utf8 "u")] ∧
    (unsettled.resolve ⟨true, ["g", "u"].map utf8⟩).2.map (·.problem) =
      [.unusedVariable (utf8 "a")] ∧
    (unsettled.resolve ⟨true, ["u", "g", "u"].map utf8⟩).2.map (·.problem) =
      [.unusedVariable (utf8 "a")] ∧
    (unsettled.resolve ⟨false, []⟩).2.map (·.problem) =
      [.globalReadInInitializer (utf8 "g"), .undeclaredVariable (utf8 "u")] ∧
    unsettled.bind.resolve ⟨false, []⟩ = unsettled.resolve ⟨false, []⟩ := by
  obtain ⟨hmore, hsame, hunused, hdistances, -⟩ := resolve_settings unsettled
  have hsub : ∀ x ∈ ["g"].map utf8, x ∈ ["g", "u"].map utf8 := by decide
  have htwo := hmore true _ _ hsub
  have hfirst : (unsettled.resolve ⟨true, ["g"].map utf8⟩).2.map (·.problem) =
      [.unusedVariable (utf8 "a"), .undeclaredVariable (utf8 "u")] := by decide +kernel
  have hsecond : (unsettled.resolve ⟨true, ["g", "u"].map utf8⟩).2.map (·.problem) =
      [.unusedVariable (utf8 "a")] := by
    rw [htwo]
    decide +kernel
  refine ⟨hsub, hfirst, hsecond, ?_, ?_, hdistances ⟨false, []⟩ unsettled.bind (unbind_eq _)⟩
  · have horder : ∀ x, x ∈ ["g", "u"].map utf8 ↔ x ∈ ["u", "g", "u"].map utf8 := fun x => by
      simp only [List.map_cons, List.map_nil, List.mem_cons, List.not_mem_nil, or_false]
      tauto
    rw [hsame true _ _ horder, hsecond]
  · rw [hunused]
    decide +kernel

end Program

end Lox
