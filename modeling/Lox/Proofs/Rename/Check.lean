import Lox.Proofs.Rename.Distance
import Lox.Proofs.Likeness.Scope

/-!
# Checks of renamed programs

A program and its renamed form are checked side by side: the records of both checks have the same
declarations, with exchanged names in marked scopes, and they have found the same issues so far, up to
the names in them (`Check.InStep`). A name that is looked up is found at the same place, since it has the
same distance (`OpenScopes.distance?_exchange`).
-/

namespace Lox

/-! ## Distances do not matter to the check -/

mutual

theorem Expr.check_unbind (known : List Text) (initializing : Option Text) (e : Expr) :
    e.unbind.check known initializing = e.check known initializing := by
  cases e with
  | literal | reference => rfl
  | grouping e | unary _ e | assign _ _ e =>
    simp only [unbind, check, check_unbind known initializing e]
  | binary _ l r | logical _ l r =>
    simp only [unbind, check, check_unbind known initializing l, check_unbind known initializing r]
  | call f args =>
    simp only [unbind, check, check_unbind known initializing f,
      checkAll_unbindAll known initializing args]

theorem Expr.checkAll_unbindAll (known : List Text) (initializing : Option Text) (es : List Expr) :
    checkAll known initializing (unbindAll es) = checkAll known initializing es := by
  cases es with
  | nil => rfl
  | cons e es =>
    simp only [unbindAll, checkAll, check_unbind known initializing e,
      checkAll_unbindAll known initializing es]

end

theorem Expr.checkOption_unbind (known : List Text) (initializing : Option Text) (e : Option Expr) :
    checkOption known initializing (e.map unbind) = checkOption known initializing e := by
  cases e with
  | none => rfl
  | some e => exact check_unbind known initializing e

mutual

theorem Stmt.check_unbind (settings : ScopeSettings) (known : List Text) (inFunction : Bool)
    (s : Stmt) : s.unbind.check settings known inFunction = s.check settings known inFunction := by
  cases s with
  | expression e | print e => simp only [unbind, check, Expr.check_unbind known none e]
  | var _ e | returnStmt e => simp only [unbind, check, Expr.checkOption_unbind]
  | block body => simp only [unbind, check, checkAll_unbindAll settings known inFunction body]
  | ifThen c branch =>
    simp only [unbind, check, Expr.check_unbind known none c,
      check_unbind settings known inFunction branch]
  | ifElse c branch otherwise =>
    simp only [unbind, check, Expr.check_unbind known none c,
      check_unbind settings known inFunction branch,
      check_unbind settings known inFunction otherwise]
  | whileLoop c body =>
    simp only [unbind, check, Expr.check_unbind known none c,
      check_unbind settings known inFunction body]
  | function name params body =>
    simp only [unbind, check, checkAll_unbindAll settings known true body]

theorem Stmt.checkAll_unbindAll (settings : ScopeSettings) (known : List Text) (inFunction : Bool)
    (body : List Stmt) : checkAll settings known inFunction (unbindAll body) =
      checkAll settings known inFunction body := by
  cases body with
  | nil => rfl
  | cons s rest =>
    simp only [unbindAll, checkAll, check_unbind settings known inFunction s,
      checkAll_unbindAll settings known inFunction rest]

end

theorem Program.globals_unbind (p : Program) : Program.globals p.unbind = p.globals := by
  unfold Program.globals Program.unbind
  rw [Stmt.unbindAll_eq_map, List.filterMap_map]
  congr 1
  funext s
  cases s <;> rfl

theorem Program.issues_unbind (settings : ScopeSettings) (p : Program) :
    Program.issues settings p.unbind = p.issues settings := by
  unfold Program.issues
  simp only [Program.globals_unbind]
  simp only [Program.unbind, Stmt.checkAll_unbindAll]

theorem Program.issues_bind (settings : ScopeSettings) (p : Program) :
    Program.issues settings p.bind = p.issues settings := by
  rw [← issues_unbind, unbind_eq, issues_unbind]

/-! ## Issues up to names -/

/-- The problem with another name. -/
def ScopeProblem.map (f : Text → Text) : ScopeProblem → ScopeProblem
  | .duplicateDeclaration name => .duplicateDeclaration (f name)
  | .localReadInInitializer name => .localReadInInitializer (f name)
  | .globalReadInInitializer name => .globalReadInInitializer (f name)
  | .returnOutsideFunction => .returnOutsideFunction
  | .unusedVariable name => .unusedVariable (f name)
  | .undeclaredVariable name => .undeclaredVariable (f name)

/-- The same issue at the same location, of a name or of its exchanged form. -/
def ScopeIssue.Renamed (σ : Equiv.Perm Text) (i i' : ScopeIssue) : Prop :=
  i' = i ∨ i' = ⟨i.problem.map σ, i.loc⟩

theorem ScopeIssue.renamed_of_exchangeIf (σ : Equiv.Perm Text) (mark : Bool)
    (problem : Text → ScopeProblem) (hproblem : ∀ z, (problem z).map σ = problem (σ z)) (z : Text)
    (loc : Location) :
    ScopeIssue.Renamed σ ⟨problem z, loc⟩ ⟨problem (exchangeIf σ mark z), loc⟩ := by
  cases mark with
  | false => exact .inl rfl
  | true => exact .inr (by rw [hproblem]; rfl)

/-! ## Declarations with exchanged names -/

/-- The declaration with another name. -/
def Declaration.map (f : Text → Text) (d : Declaration) : Declaration :=
  { d with name := d.name.map f }

namespace Declarations

variable {ds : Declarations} {x y z : Text}

/-- The declarations of a scope with exchanged names. -/
def exchange (ds : Declarations) (σ : Equiv.Perm Text) (mark : Bool) : Declarations :=
  ds.map (Declaration.map (exchangeIf σ mark))

/-- The declarations of open scopes, with exchanged names where scopes are marked. -/
def exchangeAll (σ : Equiv.Perm Text) (marks : Marks) : List Declarations → List Declarations
  | [] => []
  | ds :: outer => exchange ds σ (marks 0) :: exchangeAll σ marks.leave outer

theorem beq_exchangeIf (σ : Equiv.Perm Text) (mark : Bool) (a b : Text) :
    (exchangeIf σ mark a == exchangeIf σ mark b) = (a == b) := by
  rw [beq_eq_beq]
  exact (exchangeIf σ mark).injective.eq_iff

theorem find?_exchange (ds : Declarations) (σ : Equiv.Perm Text) (mark : Bool) (z : Text) :
    find? (exchange ds σ mark) (exchangeIf σ mark z) =
      (ds.find? z).map (Declaration.map (exchangeIf σ mark)) := by
  unfold find? exchange
  rw [List.find?_map]
  congr 2
  funext d
  exact beq_exchangeIf σ mark d.name.text z

theorem declares_exchange (ds : Declarations) (σ : Equiv.Perm Text) (mark : Bool) (z : Text) :
    declares (exchange ds σ mark) (exchangeIf σ mark z) = ds.declares z := by
  unfold declares exchange
  rw [List.any_map]
  congr 1
  funext d
  exact beq_exchangeIf σ mark d.name.text z

theorem update_exchange (ds : Declarations) (σ : Equiv.Perm Text) (mark : Bool) (z : Text)
    {f : Declaration → Declaration}
    (hf : ∀ d, f (d.map (exchangeIf σ mark)) = (f d).map (exchangeIf σ mark)) :
    update (exchange ds σ mark) (exchangeIf σ mark z) f = exchange (ds.update z f) σ mark := by
  unfold update exchange
  rw [List.map_map, List.map_map]
  refine List.map_congr_left fun d _ => ?_
  show (if exchangeIf σ mark d.name.text == exchangeIf σ mark z then _ else _) =
    Declaration.map _ (if d.name.text == z then f d else d)
  rw [beq_exchangeIf, apply_ite (Declaration.map _), hf]

theorem unused_exchange (ds : Declarations) (σ : Equiv.Perm Text) (mark : Bool) :
    unused (exchange ds σ mark) = ds.unused.map (Name.map (exchangeIf σ mark)) := by
  unfold unused exchange
  rw [List.filter_map, List.map_map, List.map_map]
  rfl

/-- The names that a scope declares, in either form. -/
theorem declares_exchange_iff {names : List Text} (h : ∀ z, ds.declares z = true ↔ z ∈ names)
    (σ : Equiv.Perm Text) (mark : Bool) (z : Text) :
    declares (exchange ds σ mark) z = true ↔ z ∈ names.map (exchangeIf σ mark) := by
  obtain ⟨w, rfl⟩ := (exchangeIf σ mark).surjective z
  rw [declares_exchange, h, List.mem_map_of_injective (exchangeIf σ mark).injective]

theorem find?_eq_none {z : Text} (h : ¬ds.declares z = true) : ds.find? z = none := by
  rw [declares, List.any_eq_true] at h
  exact List.find?_eq_none.2 fun d hd hname => h ⟨d, hd, hname⟩

end Declarations

/-! ## Two checks side by side -/

/-- The scopes around a place: which of them are marked, and the names declared so far. -/
structure Surroundings where
  marks : Marks
  names : OpenScopes

namespace Surroundings

/-- More names are declared in the innermost scope. -/
def declareAll (S : Surroundings) (names : List Text) : Surroundings :=
  { S with names := S.names.declareAll names }

/-- Inside one more scope. -/
def enter (S : Surroundings) (mark : Bool) (names : List Text) : Surroundings :=
  ⟨S.marks.enter mark, names :: S.names⟩

/-- The form that a name has in the renamed program where it is read or assigned to. -/
def form (S : Surroundings) (x y z : Text) : Text :=
  exchangeIf (Equiv.swap x y) (S.marks.leads (S.names.distance? z)) z

/-- A name that is not that of a local variable keeps its form. -/
theorem form_of_isSome_eq_false (S : Surroundings) {x y z : Text}
    (h : (S.names.distance? z).isSome = false) : S.form x y z = z := by
  rw [Option.isSome_eq_false_iff, Option.isNone_iff_eq_none] at h
  rw [form, h, Marks.leads_none, exchangeIf_false]

@[simp] theorem declareAll_nil (S : Surroundings) : S.declareAll [] = S := by
  rw [declareAll, OpenScopes.declareAll_nil]

theorem declareAll_append (S : Surroundings) (xs ys : List Text) :
    S.declareAll (xs ++ ys) = (S.declareAll xs).declareAll ys := by
  rw [declareAll, OpenScopes.declareAll_append]
  rfl

end Surroundings

/-- The names that a check has declared are those of the open scopes. -/
abbrev Declares (scopes : List Declarations) (names : OpenScopes) : Prop :=
  List.Forall₂ (fun (ds : Declarations) (names : List Text) =>
    ∀ z, ds.declares z = true ↔ z ∈ names) scopes names

/-- The second check has the same scopes open as the first one, with exchanged names in marked scopes, and
has found the same issues up to names. The new name is nowhere yet. -/
structure Checked.Renamed (x y : Text) (S : Surroundings) (c c' : Checked) : Prop where
  declared : Declares c.scopes S.names
  scopes : c'.scopes = Declarations.exchangeAll (Equiv.swap x y) S.marks c.scopes
  defined : c'.defined = c.defined
  issues : List.Forall₂ (ScopeIssue.Renamed (Equiv.swap x y)) c.issues c'.issues
  lacks : S.names.Lacks y
  within : ∀ d, S.names.length ≤ d → S.marks d = false

/-- The order in which names were declared does not matter. -/
theorem Checked.Renamed.congr_names {x y : Text} {S : Surroundings} {mark : Bool}
    {names names' : List Text} {c c' : Checked} (h : c.Renamed x y (S.enter mark names) c')
    (hnames : ∀ z, z ∈ names ↔ z ∈ names') : c.Renamed x y (S.enter mark names') c' := by
  obtain ⟨hdeclared, hscopes, hdefined, hissues, hlacks, hwithin⟩ := h
  obtain ⟨ds, outer, hds, houter, hc⟩ := List.forall₂_cons_right_iff.1 hdeclared
  obtain ⟨hnot, hrest⟩ := List.forall_mem_cons.1 hlacks
  refine ⟨?_, hscopes, hdefined, hissues, List.forall_mem_cons.2 ⟨mt (hnames y).2 hnot, hrest⟩,
    hwithin⟩
  rw [hc]
  exact .cons (fun z => (hds z).trans (hnames z)) houter

/-- What counts as being initialized where a variable is declared: at top level no name is exchanged. -/
theorem Checked.Renamed.initializing {x y : Text} {S : Surroundings} {c c' : Checked}
    (h : c.Renamed x y S c') (z : Text) :
    (if c'.scopes.isEmpty then some (exchangeIf (Equiv.swap x y) (S.marks 0) z) else none) =
      if c.scopes.isEmpty then some z else none := by
  obtain ⟨scopes, defined, issues⟩ := c
  have hdeclared := h.declared
  rw [h.scopes]
  cases scopes with
  | nil =>
    have houtside := h.within 0 (Nat.le_of_eq hdeclared.length_eq.symm)
    rw [houtside]
    rfl
  | cons ds outer => rfl

namespace Check

variable {α β γ δ : Type} {x y : Text} {S S₁ S₂ : Surroundings}

/-- Two checks lead from records in the same surroundings to such records again, and their results are
related. -/
def InStep (x y : Text) (S S₁ : Surroundings) (r : Check α) (r' : Check β) (Q : α → β → Prop) :
    Prop :=
  ∀ c c' : Checked, c.Renamed x y S c' →
    (r.run c).2.Renamed x y S₁ (r'.run c').2 ∧ Q (r.run c).1 (r'.run c').1

theorem InStep.bind {r : Check α} {r' : Check β} {f : α → Check γ} {g : β → Check δ}
    {Q : α → β → Prop} {R : γ → δ → Prop} (h : InStep x y S S₁ r r' Q)
    (hf : ∀ a b, Q a b → InStep x y S₁ S₂ (f a) (g b) R) :
    InStep x y S S₂ (r >>= f) (r' >>= g) R := by
  intro c c' hc
  obtain ⟨hstate, hresult⟩ := h c c' hc
  exact hf _ _ hresult _ _ hstate

theorem inStep_nothing : InStep x y S S (pure ()) (pure ()) Eq := fun _ _ hc => ⟨hc, rfl⟩

theorem InStep.ite {b b' : Prop} [Decidable b] [Decidable b'] (hb : b ↔ b') {r s : Check α}
    {r' s' : Check β} {Q : α → β → Prop} (hr : b → InStep x y S S₁ r r' Q)
    (hs : ¬b → InStep x y S S₁ s s' Q) :
    InStep x y S S₁ (if b then r else s) (if b' then r' else s') Q := by
  by_cases h : b
  · rw [if_pos h, if_pos (hb.1 h)]
    exact hr h
  · rw [if_neg h, if_neg (hb.not.1 h)]
    exact hs h

theorem inStep_get : InStep x y S S get get (Checked.Renamed x y S) := fun _ _ hc => ⟨hc, hc⟩

theorem inStep_note {problem problem' : ScopeProblem} {loc : Location}
    (h : ScopeIssue.Renamed (Equiv.swap x y) ⟨problem, loc⟩ ⟨problem', loc⟩) :
    InStep x y S S (note problem loc) (note problem' loc) Eq :=
  fun _ _ hc => ⟨{ hc with issues := List.rel_append hc.issues (.cons h .nil) }, rfl⟩

theorem inStep_forM {α : Type} {f : α → Check Unit} {g : β → Check Unit} {t : α → β}
    (h : ∀ a, InStep x y S S (f a) (g (t a)) Eq) (as : List α) :
    InStep x y S S (as.forM f) ((as.map t).forM g) Eq := by
  induction as with
  | nil => exact inStep_nothing
  | cons a as ih => exact (h a).bind fun _ _ _ => ih

/-! ### Declarations -/

theorem inStep_declare {name : Name} (hy : y ≠ name.text) (isParameter : Bool) :
    InStep x y S (S.declareAll [name.text]) (declare name isParameter)
      (declare (name.map (exchangeIf (Equiv.swap x y) (S.marks 0))) isParameter) Eq := by
  obtain ⟨marks, names⟩ := S
  rintro ⟨scopes, defined, issues⟩ ⟨scopes', defined', issues'⟩
    ⟨hdeclared, hscopes, hdefined, hissues, hlacks, hwithin⟩
  dsimp only at hdeclared hscopes hdefined hissues hlacks hwithin
  subst hscopes
  cases hdeclared with
  | nil => exact ⟨⟨.nil, rfl, hdefined, hissues, hlacks, hwithin⟩, rfl⟩
  | @cons ds names scopes outer hds hrest =>
    obtain ⟨hnames, houter⟩ := List.forall_mem_cons.1 hlacks
    have hlacks' : OpenScopes.Lacks ((name.text :: names) :: outer) y :=
      List.forall_mem_cons.2 ⟨fun h => (List.mem_cons.1 h).elim hy hnames, houter⟩
    rw [Declarations.exchangeAll, run_declare, run_declare]
    simp only [Name.map, Declarations.declares_exchange]
    split
    · next h =>
      refine ⟨⟨.cons (fun z => ?_) hrest, rfl, hdefined, ?_, hlacks', hwithin⟩, trivial⟩
      · show _ ↔ z ∈ name.text :: names
        rw [hds, List.mem_cons]
        exact ⟨.inr, fun hz => hz.elim (fun he => he ▸ (hds _).1 h) id⟩
      · exact List.rel_append hissues (.cons (ScopeIssue.renamed_of_exchangeIf _ _
          ScopeProblem.duplicateDeclaration (fun _ => rfl) name.text name.loc) .nil)
    · refine ⟨⟨.cons (fun z => ?_) hrest, ?_, hdefined, hissues, hlacks', hwithin⟩, trivial⟩
      · show _ ↔ z ∈ name.text :: names
        rw [declares_append, hds, List.mem_cons, or_comm, eq_comm]
      · show (Declarations.exchange ds _ _ ++ _) :: _ = Declarations.exchange (ds ++ _) _ _ :: _
        rw [Declarations.exchange, Declarations.exchange, List.map_append]
        rfl

theorem inStep_define (z : Text) :
    InStep x y S S (define z) (define (exchangeIf (Equiv.swap x y) (S.marks 0) z)) Eq := by
  obtain ⟨marks, names⟩ := S
  rintro ⟨scopes, defined, issues⟩ ⟨scopes', defined', issues'⟩
    ⟨hdeclared, hscopes, hdefined, hissues, hlacks, hwithin⟩
  dsimp only at hdeclared hscopes hdefined hissues hlacks hwithin ⊢
  subst hscopes
  cases hdeclared with
  | nil =>
    have houtside : marks 0 = false := hwithin 0 (Nat.le_refl 0)
    refine ⟨⟨.nil, rfl, ?_, hissues, hlacks, hwithin⟩, rfl⟩
    show exchangeIf (Equiv.swap x y) (marks 0) z :: defined' = z :: defined
    rw [houtside, hdefined, exchangeIf_false]
  | @cons ds names scopes outer hds hrest =>
    refine ⟨⟨.cons (fun w => ?_) hrest, ?_, hdefined, hissues, hlacks, hwithin⟩, rfl⟩
    · rw [declares_update ds z w (fun d => { d with initialized := true }) fun _ => rfl]
      exact hds w
    · show Declarations.update (Declarations.exchange ds _ _) _ (fun d => { d with initialized := true })
        :: _ = _
      rw [Declarations.update_exchange ds _ _ z (f := fun d => { d with initialized := true })
        fun _ => rfl]
      rfl

theorem inStep_openScope (mark : Bool) : InStep x y S (S.enter mark []) openScope openScope Eq := by
  intro c c' hc
  refine ⟨⟨.cons (fun z => ?_) hc.declared, ?_, hc.defined, hc.issues,
    hc.lacks.cons List.not_mem_nil, fun d hd => ?_⟩, rfl⟩
  · simp [Declarations.declares]
  · exact congrArg ([] :: ·) hc.scopes
  · cases d with
    | zero => cases hd
    | succ d => exact hc.within d (Nat.le_of_succ_le_succ hd)

theorem inStep_closeScope (settings : ScopeSettings) (mark : Bool) (names : List Text) :
    InStep x y (S.enter mark names) S (closeScope settings) (closeScope settings) Eq := by
  have hnote (name : Name) : InStep x y (S.enter mark names) (S.enter mark names)
      (note (.unusedVariable name.text) name.loc)
      (note (.unusedVariable (exchangeIf (Equiv.swap x y) mark name.text)) name.loc) Eq :=
    inStep_note (ScopeIssue.renamed_of_exchangeIf _ _ .unusedVariable (fun _ => rfl) _ _)
  rintro ⟨scopes, defined, issues⟩ ⟨scopes', defined', issues'⟩ hc
  have hdeclared := hc.declared
  have hscopes := hc.scopes
  dsimp only at hdeclared hscopes
  subst hscopes
  obtain ⟨ds, outer, hds, houter, rfl⟩ := List.forall₂_cons_right_iff.1 hdeclared
  have hnotes : InStep x y (S.enter mark names) (S.enter mark names)
      (if settings.reportUnused then
        ds.unused.forM fun name => note (.unusedVariable name.text) name.loc
      else pure ())
      (if settings.reportUnused then
        (ds.unused.map (Name.map (exchangeIf (Equiv.swap x y) mark))).forM fun name =>
          note (.unusedVariable name.text) name.loc
      else pure ()) Eq := by
    refine .ite Iff.rfl (fun _ => ?_) fun _ => inStep_nothing
    refine inStep_forM (fun name => ?_) ds.unused
    exact hnote name
  rw [run_closeScope, Declarations.exchangeAll, run_closeScope, Declarations.unused_exchange]
  refine hnotes.bind (fun _ _ _ c c' hc' => ?_) _ _ hc
  exact ⟨⟨houter, rfl, hc'.defined, hc'.issues, (List.forall_mem_cons.1 hc'.lacks).2,
    fun d hd => hc'.within (d + 1) (Nat.succ_le_succ hd)⟩, rfl⟩

/-! ### Looking up names -/

/-- What a check declares, with exchanged names. -/
theorem declares_exchangeAll {scopes : List Declarations} {names : OpenScopes}
    (h : Declares scopes names) (σ : Equiv.Perm Text) (marks : Marks) :
    Declares (Declarations.exchangeAll σ marks scopes) (names.exchange σ marks) := by
  induction h generalizing marks with
  | nil => exact .nil
  | cons hds _ ih => exact .cons (Declarations.declares_exchange_iff hds σ (marks 0)) (ih marks.leave)

/-- A name is that of a local variable if it has a distance. -/
theorem any_declares {scopes : List Declarations} {names : OpenScopes} (h : Declares scopes names)
    (z : Text) : scopes.any (·.declares z) = (names.distance? z).isSome := by
  induction h with
  | nil => rfl
  | @cons ds names scopes outer hds _ ih =>
    rw [List.any_cons, ih, OpenScopes.distance?_cons]
    by_cases hz : z ∈ names
    · rw [if_pos hz, (hds z).2 hz]
      rfl
    · rw [if_neg hz, Bool.eq_false_iff.2 (mt (hds z).1 hz), Option.isSome_map, Bool.false_or]

theorem inStep_isLocal {z : Text} (hz : z ≠ y) :
    InStep x y S S (isLocal z) (isLocal (S.form x y z))
      fun b b' => b = (S.names.distance? z).isSome ∧ b' = b := by
  intro c c' hc
  have hfirst : (isLocal z).run c = ((S.names.distance? z).isSome, c) :=
    congrArg (·, c) (any_declares hc.declared z)
  have hsecond (w : Text) : (isLocal w).run c' =
      (((S.names.exchange (Equiv.swap x y) S.marks).distance? w).isSome, c') := by
    refine congrArg (·, c') (any_declares ?_ w)
    rw [hc.scopes]
    exact declares_exchangeAll hc.declared _ _
  rw [hfirst, hsecond, Surroundings.form, OpenScopes.distance?_exchange hc.lacks hz]
  exact ⟨hc, rfl, rfl⟩

theorem inStep_isInitializing {z : Text} (hz : z ≠ y) :
    InStep x y S S (isInitializing z) (isInitializing (S.form x y z)) Eq := by
  obtain ⟨marks, names⟩ := S
  rintro ⟨scopes, defined, issues⟩ ⟨scopes', defined', issues'⟩ hc
  refine ⟨hc, ?_⟩
  have hdeclared := hc.declared
  have hscopes := hc.scopes
  have hlacks := hc.lacks
  dsimp only at hdeclared hscopes hlacks ⊢
  subst hscopes
  cases hdeclared with
  | nil => rfl
  | @cons ds names scopes outer hds _ =>
    have hfound : Declarations.find? (ds.exchange (Equiv.swap x y) (marks 0))
          (Surroundings.form ⟨marks, names :: outer⟩ x y z) =
        (ds.find? z).map (Declaration.map (exchangeIf (Equiv.swap x y) (marks 0))) := by
      rw [Surroundings.form, OpenScopes.distance?_cons]
      by_cases hin : z ∈ names
      · rw [if_pos hin]
        exact Declarations.find?_exchange ds _ _ z
      · have hnot := OpenScopes.notMem_map_exchangeIf (x := x) (List.forall_mem_cons.1 hlacks).1 hz hin
        rw [if_neg hin, Declarations.find?_eq_none (mt (hds z).1 hin), Declarations.find?_eq_none]
        · rfl
        · rw [Declarations.declares_exchange_iff hds]
          exact hnot _ _
    show ((ds.find? z).map (!·.initialized)).getD false =
      ((Declarations.find? (ds.exchange _ _) _).map (!·.initialized)).getD false
    rw [hfound, Option.map_map]
    rfl

/-- The same declaration is marked as used. -/
theorem markUsed_exchangeAll {scopes : List Declarations} {names : OpenScopes}
    (h : Declares scopes names) (hy : names.Lacks y) {z : Text} (hz : z ≠ y) (marks : Marks) :
    markUsed (exchangeIf (Equiv.swap x y) (marks.leads (names.distance? z)) z)
        (Declarations.exchangeAll (Equiv.swap x y) marks scopes) =
      Declarations.exchangeAll (Equiv.swap x y) marks (markUsed z scopes) := by
  induction h generalizing marks with
  | nil => rfl
  | @cons ds names scopes outer hds _ ih =>
    obtain ⟨hnames, houter⟩ := List.forall_mem_cons.1 hy
    rw [OpenScopes.distance?_cons, Declarations.exchangeAll, markUsed, markUsed]
    -- either both forms of the name are found in the innermost scope, or neither is
    by_cases hin : z ∈ names
    · have hleads : marks.leads (some 0) = marks 0 := rfl
      rw [if_pos hin, hleads, Declarations.declares_exchange, if_pos ((hds z).2 hin),
        if_pos ((hds z).2 hin),
        Declarations.update_exchange ds _ _ z (f := fun d => { d with used := true }) fun _ => rfl]
      rfl
    · have hleads : marks.leads ((OpenScopes.distance? outer z).map (· + 1)) =
          marks.leave.leads (OpenScopes.distance? outer z) := by
        cases OpenScopes.distance? outer z <;> rfl
      have hnot := OpenScopes.notMem_map_exchangeIf (x := x) hnames hz hin
      rw [if_neg hin, hleads, if_neg (mt (Declarations.declares_exchange_iff hds _ _ _).1 (hnot _ _)),
        if_neg (mt (hds z).1 hin), ih houter]
      rfl

theorem declares_markUsed {scopes : List Declarations} {names : OpenScopes}
    (h : Declares scopes names) (z : Text) : Declares (markUsed z scopes) names := by
  induction h with
  | nil => exact .nil
  | @cons ds names scopes outer hds hrest ih =>
    rw [markUsed]
    split
    · refine .cons (fun w => ?_) hrest
      rw [declares_update ds z w (fun d => { d with used := true }) fun _ => rfl]
      exact hds w
    · exact .cons hds ih

theorem inStep_markUsed {z : Text} (hz : z ≠ y) :
    InStep x y S S (modify fun c => { c with scopes := markUsed z c.scopes })
      (modify fun c => { c with scopes := markUsed (S.form x y z) c.scopes }) Eq := by
  refine fun c c' hc => ⟨{ hc with
    declared := declares_markUsed hc.declared z
    scopes := ?_ }, rfl⟩
  show markUsed _ c'.scopes = _
  rw [hc.scopes]
  exact markUsed_exchangeAll hc.declared hc.lacks hz S.marks

/-- A global name is the same for both checks. -/
theorem inStep_globalRead (known : List Text) (initializing : Option Text) (name : Name) :
    InStep x y S S (globalRead known initializing name) (globalRead known initializing name) Eq := by
  intro c c' hc
  rw [run_globalRead, run_globalRead, hc.defined]
  exact ⟨{ hc with
    defined := rfl
    issues := List.rel_append hc.issues (List.forall₂_same.2 fun _ _ => .inl rfl) }, rfl⟩

end Check

/-! ## Expressions -/

namespace Expr

open Check

variable {x y : Text} {S : Surroundings}

theorem inStep_reference (known : List Text) (initializing : Option Text) {name : Name}
    (hy : name.text ≠ y) (d : Option Nat) :
    InStep x y S S ((reference name d).check known initializing)
      ((reference (name.map (S.form x y)) d).check known initializing) Eq := by
  have hlocal : InStep x y S S
      (do
        if ← isLocal name.text then
          modify fun c => { c with scopes := markUsed name.text c.scopes }
        else
          globalRead known initializing name)
      (do
        if ← isLocal (S.form x y name.text) then
          modify fun c => { c with scopes := markUsed (S.form x y name.text) c.scopes }
        else
          globalRead known initializing (name.map (S.form x y))) Eq := by
    refine (inStep_isLocal hy).bind ?_
    rintro b _ ⟨hb, rfl⟩
    refine .ite Iff.rfl (fun _ => inStep_markUsed hy) fun hnot => ?_
    rw [hb] at hnot
    rw [Name.map, S.form_of_isSome_eq_false (Bool.eq_false_iff.2 hnot)]
    exact inStep_globalRead known initializing name
  refine (inStep_isInitializing hy).bind ?_
  rintro b _ rfl
  cases b with
  | true =>
    refine (inStep_note ?_).bind fun _ _ _ => hlocal
    exact ScopeIssue.renamed_of_exchangeIf _ _ .localReadInInitializer (fun _ => rfl) _ _
  | false => exact hlocal

theorem inStep_assigned (known : List Text) {name : Name} (hy : name.text ≠ y) :
    InStep x y S S
      (do
        if !(← isLocal name.text) && !known.contains name.text then
          note (.undeclaredVariable name.text) name.loc)
      (do
        if !(← isLocal (S.form x y name.text)) && !known.contains (S.form x y name.text) then
          note (.undeclaredVariable (S.form x y name.text)) name.loc) Eq := by
  refine (inStep_isLocal hy).bind ?_
  rintro b _ ⟨hb, rfl⟩
  cases hlocal : (S.names.distance? name.text).isSome with
  | true =>
    rw [hb, hlocal]
    exact inStep_nothing
  | false =>
    rw [S.form_of_isSome_eq_false hlocal]
    exact .ite Iff.rfl (fun _ => inStep_note (.inl rfl)) fun _ => inStep_nothing

theorem inStep_checkAll {known : List Text} {initializing : Option Text} {es es' : List Expr}
    (h : List.Forall₂ (fun e e' : Expr => y ∉ e.names → e.bind S.names = e →
      InStep x y S S (e.check known initializing) (e'.check known initializing) Eq) es es')
    (hy : y ∉ namesAll es) (hbound : bindAll S.names es = es) :
    InStep x y S S (checkAll known initializing es) (checkAll known initializing es') Eq := by
  induction h with
  | nil => exact inStep_nothing
  | cons he _ ih =>
    simp only [namesAll, List.mem_append, not_or] at hy
    simp only [bindAll, List.cons.injEq] at hbound
    exact (he hy.1 hbound.1).bind fun _ _ _ => ih hy.2 hbound.2

/-- An expression that has its distances is checked as its renamed form is. -/
theorem Renamed.inStep_check {e e' : Expr} (h : e.Renamed (Equiv.swap x y) S.marks e')
    (known : List Text) (initializing : Option Text) (hy : y ∉ e.names)
    (hbound : e.bind S.names = e) :
    InStep x y S S (e.check known initializing) (e'.check known initializing) Eq := by
  induction h with
  | literal => exact inStep_nothing
  | grouping _ ih | unary _ ih =>
    simp only [names] at hy
    simp only [Expr.bind, grouping.injEq, unary.injEq, and_true, true_and] at hbound
    exact ih hy hbound
  | binary _ _ ihl ihr | logical _ _ ihl ihr =>
    simp only [names, List.mem_append, not_or] at hy
    simp only [Expr.bind, binary.injEq, logical.injEq, true_and] at hbound
    exact (ihl hy.1 hbound.1).bind fun _ _ _ => ihr hy.2 hbound.2
  | reference name d =>
    simp only [Expr.bind, reference.injEq, true_and] at hbound
    subst hbound
    exact inStep_reference known initializing (fun he => hy (List.mem_singleton.2 he.symm)) _
  | assign name d _ ih =>
    simp only [names, List.mem_cons, not_or] at hy
    simp only [Expr.bind, assign.injEq, true_and] at hbound
    obtain ⟨rfl, hbound⟩ := hbound
    exact (ih hy.2 hbound).bind fun _ _ _ => inStep_assigned known (Ne.symm hy.1)
  | call _ _ ihf ihargs =>
    simp only [names, List.mem_append, not_or] at hy
    simp only [Expr.bind, call.injEq, and_true] at hbound
    exact (ihf hy.1 hbound.1).bind fun _ _ _ =>
      inStep_checkAll (forall₂_of_pairs ihargs) hy.2 hbound.2

theorem OptionRenamed.inStep_check {e e' : Option Expr}
    (h : OptionRenamed (Equiv.swap x y) S.marks e e') (known : List Text)
    (initializing : Option Text) (hy : y ∉ e.elim [] names)
    (hbound : e.map (Expr.bind S.names) = e) :
    InStep x y S S (checkOption known initializing e) (checkOption known initializing e') Eq := by
  cases h with
  | none => exact inStep_nothing
  | some he => exact he.inStep_check known initializing hy (Option.some.inj hbound)

end Expr

/-! ## Statements -/

namespace Stmt

open Check

variable {x y : Text} {settings : ScopeSettings} {known : List Text}

/-- In surroundings in which the first statement has its distances, the statements are checked alike. -/
def CheckRenamed (x y : Text) (settings : ScopeSettings) (known : List Text) (marks : Marks)
    (s s' : Stmt) : Prop :=
  ∀ (names : OpenScopes) (inFunction : Bool), y ∉ s.names → (s.bind names).1 = s →
    InStep x y ⟨marks, names⟩ (Surroundings.declareAll ⟨marks, names⟩ s.hoisted)
      (s.check settings known inFunction) (s'.check settings known inFunction) Eq

theorem inStep_checkAll {marks : Marks} {body body' : List Stmt}
    (h : List.Forall₂ (CheckRenamed x y settings known marks) body body') {names : OpenScopes}
    (inFunction : Bool) (hy : y ∉ namesAll body) (hbound : (bindAll names body).1 = body) :
    InStep x y ⟨marks, names⟩ (Surroundings.declareAll ⟨marks, names⟩ (body.flatMap hoisted))
      (checkAll settings known inFunction body) (checkAll settings known inFunction body') Eq := by
  induction h generalizing names with
  | nil =>
    rw [List.flatMap_nil, Surroundings.declareAll_nil]
    exact inStep_nothing
  | cons hs _ ih =>
    simp only [namesAll, List.mem_append, not_or] at hy
    simp only [bindAll, List.cons.injEq, bind_scopes] at hbound
    rw [List.flatMap_cons, Surroundings.declareAll_append]
    exact (hs names inFunction hy.1 hbound.1).bind fun _ _ _ => ih hy.2 hbound.2

/-- A scope that holds nothing but parameters. -/
theorem inStep_parameters {S : Surroundings} {mark : Bool} (params : List Name)
    (hy : y ∉ params.map Name.text) :
    InStep x y (S.enter mark []) (S.enter mark (params.map Name.text))
      (params.forM fun param => do
        declare param true
        define param.text)
      ((params.map (Name.map (exchangeIf (Equiv.swap x y) mark))).forM fun param => do
        declare param true
        define param.text) Eq := by
  -- names are added in front, so they come out in reverse order
  have hrow (names : List Text) : InStep x y (S.enter mark names)
      (S.enter mark ((params.map Name.text).reverse ++ names))
      (params.forM fun param => do
        declare param true
        define param.text)
      ((params.map (Name.map (exchangeIf (Equiv.swap x y) mark))).forM fun param => do
        declare param true
        define param.text) Eq := by
    induction params generalizing names with
    | nil => exact inStep_nothing
    | cons param params ih =>
      simp only [List.map_cons, List.mem_cons, not_or] at hy
      have hone : InStep x y (S.enter mark names) (S.enter mark (param.text :: names))
          (do declare param true; define param.text)
          (do
            declare (param.map (exchangeIf (Equiv.swap x y) mark)) true
            define (exchangeIf (Equiv.swap x y) mark param.text)) Eq :=
        (inStep_declare hy.1 true).bind fun _ _ _ => inStep_define param.text
      rw [List.map_cons, List.reverse_cons, List.append_assoc]
      exact hone.bind fun _ _ _ => ih hy.2 (param.text :: names)
  intro c c' hc
  obtain ⟨hstate, hresult⟩ := hrow [] c c' hc
  exact ⟨hstate.congr_names (by simp), hresult⟩

/-- A statement that has its distances is checked as its renamed form is. -/
theorem Renamed.inStep_check {marks : Marks} {s s' : Stmt}
    (h : s.Renamed (Equiv.swap x y) marks s') : CheckRenamed x y settings known marks s s' := by
  induction h with
  | expression he | print he =>
    intro scopes inFunction hy hbound
    simp only [Stmt.bind, expression.injEq, print.injEq, and_true] at hbound
    rw [hoisted, Surroundings.declareAll_nil]
    exact he.inStep_check known none hy hbound
  | @var marks name _ _ he =>
    intro scopes inFunction hy hbound
    simp only [names, List.mem_cons, not_or] at hy
    simp only [Stmt.bind, var.injEq, true_and] at hbound
    refine (inStep_declare hy.1 false).bind fun _ _ _ => inStep_get.bind fun c c' hc => ?_
    have hvalue := he.inStep_check (S := Surroundings.declareAll ⟨_, scopes⟩ [name.text]) known
      (if c.scopes.isEmpty then some name.text else none) hy.2
      (by rwa [OpenScopes.declare_eq] at hbound)
    have hinitializing : (if c'.scopes.isEmpty then
          some (name.map (exchangeIf (Equiv.swap x y) (marks 0))).text else none) =
        if c.scopes.isEmpty then some name.text else none := hc.initializing name.text
    rw [hinitializing]
    exact hvalue.bind fun _ _ _ => inStep_define name.text
  | @block marks mark body _ _ ih =>
    intro scopes inFunction hy hbound
    simp only [Stmt.bind, block.injEq, and_true] at hbound
    rw [hoisted, Surroundings.declareAll_nil]
    refine (inStep_openScope mark).bind fun _ _ _ => ?_
    refine (inStep_checkAll (forall₂_of_pairs ih) inFunction hy hbound).bind fun _ _ _ => ?_
    exact inStep_closeScope (S := ⟨marks, scopes⟩) settings mark
      (((body.map Prod.fst).flatMap hoisted).reverse ++ [])
  | ifThen hc _ ih | whileLoop hc _ ih =>
    intro scopes inFunction hy hbound
    simp only [names, List.mem_append, not_or] at hy
    simp only [Stmt.bind, ifThen.injEq, whileLoop.injEq, and_true] at hbound
    exact (hc.inStep_check known none hy.1 hbound.1).bind fun _ _ _ =>
      ih scopes inFunction hy.2 hbound.2
  | ifElse hc _ _ ih iho =>
    intro scopes inFunction hy hbound
    simp only [names, List.mem_append, not_or] at hy
    simp only [Stmt.bind, ifElse.injEq, and_true, bind_scopes] at hbound
    rw [hoisted, Surroundings.declareAll_append]
    refine (hc.inStep_check known none hy.1 hbound.1).bind fun _ _ _ => ?_
    exact (ih scopes inFunction hy.2.1 hbound.2.1).bind fun _ _ _ =>
      iho _ inFunction hy.2.2 hbound.2.2
  | @function marks mark name params body hname _ ih =>
    intro scopes inFunction hy hbound
    simp only [names, List.mem_cons, List.mem_append, not_or] at hy
    simp only [Stmt.bind, function.injEq, true_and] at hbound
    have hself : name.map (exchangeIf (Equiv.swap x y) (marks 0)) = name := by
      rw [Name.map, hname]
    have hdeclare := inStep_declare (x := x) (S := ⟨marks, scopes⟩) hy.1 false
    have hdefine := inStep_define (x := x) (y := y)
      (S := Surroundings.declareAll ⟨marks, scopes⟩ [name.text]) name.text
    have hbody := inStep_checkAll (forall₂_of_pairs ih) true hy.2.2 hbound
    rw [hself] at hdeclare
    rw [OpenScopes.declare_eq] at hbody
    refine hdeclare.bind fun _ _ _ => (hname ▸ hdefine).bind fun _ _ _ => ?_
    refine (inStep_openScope mark).bind fun _ _ _ => ?_
    refine (inStep_parameters params hy.2.1).bind fun _ _ _ => hbody.bind fun _ _ _ => ?_
    exact inStep_closeScope (S := Surroundings.declareAll ⟨marks, scopes⟩ [name.text]) settings mark
      (((body.map Prod.fst).flatMap hoisted).reverse ++ params.map Name.text)
  | returnStmt he =>
    intro scopes inFunction hy hbound
    simp only [Stmt.bind, returnStmt.injEq, and_true] at hbound
    rw [hoisted, Surroundings.declareAll_nil]
    have hvalue := Expr.OptionRenamed.inStep_check (S := ⟨_, scopes⟩) he known none hy hbound
    cases inFunction with
    | true => exact hvalue
    | false => exact (inStep_note (.inl rfl)).bind fun _ _ _ => hvalue

/-- Outside of marked scopes declarations keep their names. -/
theorem Renamed.declared? {σ : Equiv.Perm Text} {s s' : Stmt} (h : s.Renamed σ .none s') :
    s'.declared? = s.declared? := by
  cases h <;> rfl

end Stmt

/-! ## Programs -/

namespace Program

variable {x y : Text} {q q' : Program}

theorem globals_renamed {σ : Equiv.Perm Text} (h : List.Forall₂ (Stmt.Renamed σ .none) q q') :
    q'.globals = q.globals := by
  induction h with
  | nil => rfl
  | cons hs _ ih =>
    unfold globals at ih ⊢
    rw [List.filterMap_cons, List.filterMap_cons, hs.declared?, ih]

/-- A program that has its distances has the same issues as its renamed form, up to names. -/
theorem issues_renamed (h : List.Forall₂ (Stmt.Renamed (Equiv.swap x y) .none) q q')
    (hq : Program.bind q = q) (hy : y ∉ q.names) (settings : ScopeSettings) :
    List.Forall₂ (ScopeIssue.Renamed (Equiv.swap x y)) (q.issues settings)
      (q'.issues settings) := by
  have hcheck := @Stmt.inStep_checkAll x y settings (settings.predefined ++ q.globals) .none q q'
    (h.imp fun _ _ hs => hs.inStep_check) [] false hy hq
  have hstart : Checked.Renamed x y ⟨.none, []⟩ ⟨[], settings.predefined, []⟩
      ⟨[], settings.predefined, []⟩ :=
    ⟨.nil, rfl, rfl, .nil, fun _ hnames => absurd hnames List.not_mem_nil, fun _ _ => rfl⟩
  rw [issues, issues, globals_renamed h]
  exact (hcheck _ _ hstart).1.issues

end Program

end Lox
