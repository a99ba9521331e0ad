import Lox.Proofs.Likeness.Program
import Lox.Proofs.Scope.Check

/-!
# Checks of programs alike

Two checks side by side, of programs that are alike, the first of which knows more global names than
the second: whatever it reports, the second reports too, at the corresponding place
(`Program.Alike.issues_sublist`). So to know more names never adds an issue, and with the same names known
the issues of programs alike differ in their locations only (`Program.Alike.issues`).
-/

namespace Lox

variable {L : Placing} {known known' : List Text}

/-- Declarations that differ at most in their locations. -/
structure Declaration.Alike (L : Placing) (d d' : Declaration) : Prop where
  name : d.name.Alike L d'.name
  isParameter : d.isParameter = d'.isParameter
  initialized : d.initialized = d'.initialized
  used : d.used = d'.used

/-- The declarations of a scope that differ at most in their locations. -/
abbrev Declarations.Alike (L : Placing) : Declarations → Declarations → Prop :=
  List.Forall₂ (Declaration.Alike L)

/-- Issues that differ at most in their locations. -/
structure ScopeIssue.Alike (L : Placing) (i i' : ScopeIssue) : Prop where
  problem : i.problem = i'.problem
  loc : L i.loc i'.loc

namespace Declarations

variable {ds ds' : Declarations}

theorem Alike.declares (h : Declarations.Alike L ds ds') (name : Text) :
    ds.declares name = ds'.declares name := by
  induction h with
  | nil => rfl
  | @cons d d' ds ds' hd _ ih =>
    simp only [Declarations.declares, List.any_cons, hd.name.text] at ih ⊢
    rw [ih]

theorem Alike.update (h : Declarations.Alike L ds ds') (name : Text)
    {f : Declaration → Declaration} (hf : ∀ d d', d.Alike L d' → (f d).Alike L (f d')) :
    Declarations.Alike L (ds.update name f) (ds'.update name f) := by
  induction h with
  | nil => exact .nil
  | @cons d d' ds ds' hd _ ih =>
    refine .cons ?_ ih
    show Declaration.Alike L (if d.name.text == name then f d else d)
      (if d'.name.text == name then f d' else d')
    rw [hd.name.text]
    split
    · exact hf d d' hd
    · exact hd

theorem Alike.unused (h : Declarations.Alike L ds ds') :
    List.Forall₂ (Name.Alike L) ds.unused ds'.unused := by
  induction h with
  | nil => exact .nil
  | @cons d d' ds ds' hd _ ih =>
    unfold Declarations.unused at ih ⊢
    rw [List.filter_cons, List.filter_cons, hd.used, hd.isParameter]
    split
    · exact .cons hd.name ih
    · exact ih

/-- Whether the declaration of a name is not complete. -/
theorem Alike.isInitializing (h : Declarations.Alike L ds ds') (name : Text) :
    (ds.find? name).map (!·.initialized) = (ds'.find? name).map (!·.initialized) := by
  induction h with
  | nil => rfl
  | @cons d d' ds ds' hd _ ih =>
    unfold Declarations.find? at ih ⊢
    rw [List.find?_cons, List.find?_cons, hd.name.text]
    split
    · exact congrArg (fun b => some (!b)) hd.initialized
    · exact ih

theorem Alike.initialize {d d' : Declaration} (h : d.Alike L d') :
    Declaration.Alike L { d with initialized := true } { d' with initialized := true } :=
  ⟨h.name, h.isParameter, rfl, h.used⟩

theorem Alike.use {d d' : Declaration} (h : d.Alike L d') :
    Declaration.Alike L { d with used := true } { d' with used := true } :=
  ⟨h.name, h.isParameter, h.initialized, rfl⟩

theorem Alike.markUsed {scopes scopes' : List Declarations}
    (h : List.Forall₂ (Declarations.Alike L) scopes scopes') (name : Text) :
    List.Forall₂ (Declarations.Alike L) (markUsed name scopes) (markUsed name scopes') := by
  induction h with
  | nil => exact .nil
  | cons hds hrest ih =>
    rw [Lox.markUsed, Lox.markUsed, hds.declares]
    split
    · exact .cons (hds.update name fun _ _ => use) hrest
    · exact .cons hds ih

end Declarations

theorem sublistForall₂_append {α β : Type} {R : α → β → Prop} {as cs : List α} {bs ds : List β}
    (h : List.SublistForall₂ R as bs) (h' : List.SublistForall₂ R cs ds) :
    List.SublistForall₂ R (as ++ cs) (bs ++ ds) := by
  obtain ⟨bs', hbs, hsub⟩ := List.sublistForall₂_iff.1 h
  obtain ⟨ds', hds, hsub'⟩ := List.sublistForall₂_iff.1 h'
  exact List.sublistForall₂_iff.2 ⟨bs' ++ ds', List.rel_append hbs hds, hsub.append hsub'⟩

/-! ## Two checks side by side -/

/-- The first state comes from the check that knows more: it has the same scopes open and counts more
global names as defined, all of them known. -/
structure Checked.Informed (L : Placing) (known : List Text) (c c' : Checked) : Prop where
  scopes : List.Forall₂ (Declarations.Alike L) c.scopes c'.scopes
  defined : ∀ x ∈ c'.defined, x ∈ c.defined
  settled : ∀ x ∈ c.defined, x ∈ c'.defined ∨ x ∈ known

theorem Checked.Informed.isEmpty {c c' : Checked} (hc : c.Informed L known c') :
    c.scopes.isEmpty = c'.scopes.isEmpty := by
  obtain ⟨scopes, defined, issues⟩ := c
  obtain ⟨scopes', defined', issues'⟩ := c'
  have hscopes := hc.scopes
  cases hscopes <;> rfl

/-- From one pair of states to another, the first check has reported no more than the second. -/
def Checked.ReportsLess (L : Placing) (c c' c₁ c₁' : Checked) : Prop :=
  ∃ is is', c₁.issues = c.issues ++ is ∧ c₁'.issues = c'.issues ++ is' ∧
    List.SublistForall₂ (ScopeIssue.Alike L) is is'

theorem Checked.ReportsLess.trans {c c' c₁ c₁' c₂ c₂' : Checked} (h : ReportsLess L c c' c₁ c₁')
    (h' : ReportsLess L c₁ c₁' c₂ c₂') : ReportsLess L c c' c₂ c₂' := by
  obtain ⟨is, is', hc₁, hc₁', his⟩ := h
  obtain ⟨js, js', hc₂, hc₂', hjs⟩ := h'
  exact ⟨is ++ js, is' ++ js', by rw [hc₂, hc₁, List.append_assoc], by rw [hc₂', hc₁', List.append_assoc],
    sublistForall₂_append his hjs⟩

/-- Where nothing is reported. -/
theorem Checked.reportsLess_of_eq {c c' c₁ c₁' : Checked} (h : c₁.issues = c.issues)
    (h' : c₁'.issues = c'.issues) : ReportsLess L c c' c₁ c₁' :=
  ⟨[], [], by rw [h, List.append_nil], by rw [h', List.append_nil], .nil⟩

namespace Check

variable {α β γ δ : Type}

/-- Two checks keep in step, the first knowing more and reporting less, and their results are
related. -/
def Follows (L : Placing) (known : List Text) (x : Check α) (y : Check β) (Q : α → β → Prop) :
    Prop :=
  ∀ c c' : Checked, c.Informed L known c' →
    (x.run c).2.Informed L known (y.run c').2 ∧
      Checked.ReportsLess L c c' (x.run c).2 (y.run c').2 ∧ Q (x.run c).1 (y.run c').1

theorem Follows.bind {x : Check α} {y : Check β} {f : α → Check γ} {g : β → Check δ}
    {Q : α → β → Prop} {R : γ → δ → Prop} (h : Follows L known x y Q)
    (hf : ∀ a b, Q a b → Follows L known (f a) (g b) R) :
    Follows L known (x >>= f) (y >>= g) R := by
  intro c c' hc
  obtain ⟨hstate, hless, hresult⟩ := h c c' hc
  obtain ⟨hstate', hless', hresult'⟩ := hf _ _ hresult _ _ hstate
  exact ⟨hstate', hless.trans hless', hresult'⟩

theorem follows_pure {a : α} {b : β} {Q : α → β → Prop} (h : Q a b) :
    Follows L known (pure a) (pure b) Q := fun _ _ hc => ⟨hc, Checked.reportsLess_of_eq rfl rfl, h⟩

theorem follows_nothing : Follows L known (pure ()) (pure ()) Eq := follows_pure rfl

/-- A step that changes the scopes only. -/
theorem follows_scopes {f g : List Declarations → List Declarations}
    (h : ∀ scopes scopes', List.Forall₂ (Declarations.Alike L) scopes scopes' →
      List.Forall₂ (Declarations.Alike L) (f scopes) (g scopes')) :
    Follows L known (modify fun c => { c with scopes := f c.scopes })
      (modify fun c => { c with scopes := g c.scopes }) Eq :=
  fun c c' hc => ⟨⟨h c.scopes c'.scopes hc.scopes, hc.defined, hc.settled⟩,
    Checked.reportsLess_of_eq rfl rfl, rfl⟩

theorem follows_note {problem problem' : ScopeProblem} (hproblem : problem = problem')
    {l l' : Location} (hl : L l l') :
    Follows L known (note problem l) (note problem' l') Eq :=
  fun _ _ hc => ⟨⟨hc.scopes, hc.defined, hc.settled⟩, ⟨_, _, rfl, rfl, .cons ⟨hproblem, hl⟩ .nil⟩, rfl⟩

/-- An issue that the first check reports only if the second one does. -/
theorem follows_noteIf {b b' : Bool} (hb : b = true → b' = true) (problem : ScopeProblem)
    {l l' : Location} (hl : L l l') :
    Follows L known (if b then note problem l else pure ()) (if b' then note problem l' else pure ())
      Eq := by
  cases b with
  | true =>
    rw [hb rfl]
    exact follows_note rfl hl
  | false =>
    cases b' with
    | true =>
      exact fun c c' hc => ⟨⟨hc.scopes, hc.defined, hc.settled⟩,
        ⟨[], [⟨problem, l'⟩], (List.append_nil _).symm, rfl, .nil⟩, rfl⟩
    | false => exact follows_nothing

theorem follows_forM {α β : Type} {R : α → β → Prop} {f : α → Check Unit} {g : β → Check Unit}
    {as : List α} {bs : List β} (h : List.Forall₂ R as bs)
    (hf : ∀ a b, R a b → Follows L known (f a) (g b) Eq) :
    Follows L known (as.forM f) (bs.forM g) Eq := by
  induction h with
  | nil => exact follows_nothing
  | cons hab _ ih => exact (hf _ _ hab).bind fun _ _ _ => ih

theorem Follows.ite {c c' : Prop} [Decidable c] [Decidable c'] (hc : c ↔ c') {x y : Check α}
    {x' y' : Check β} {Q : α → β → Prop} (hx : Follows L known x x' Q)
    (hy : Follows L known y y' Q) :
    Follows L known (if c then x else y) (if c' then x' else y') Q := by
  by_cases h : c
  · rw [if_pos h, if_pos (hc.1 h)]
    exact hx
  · rw [if_neg h, if_neg (hc.not.1 h)]
    exact hy

theorem follows_get : Follows L known get get (Checked.Informed L known) :=
  fun _ _ hc => ⟨hc, Checked.reportsLess_of_eq rfl rfl, hc⟩

/-! ### Declarations -/

theorem follows_declare {name name' : Name} (hname : name.Alike L name') (isParameter : Bool) :
    Follows L known (declare name isParameter) (declare name' isParameter) Eq := by
  rintro ⟨scopes, defined, issues⟩ ⟨scopes', defined', issues'⟩ hc
  have hscopes := hc.scopes
  cases hscopes with
  | nil => exact ⟨hc, Checked.reportsLess_of_eq rfl rfl, rfl⟩
  | @cons ds ds' outer outer' hds hrest =>
    rw [run_declare, run_declare, hds.declares, hname.text]
    dsimp only
    split
    · exact ⟨⟨hc.scopes, hc.defined, hc.settled⟩, ⟨_, _, rfl, rfl, .cons ⟨rfl, hname.loc⟩ .nil⟩, rfl⟩
    · have hdeclared : Declarations.Alike L (ds ++ [⟨name, isParameter, false, false⟩])
          (ds' ++ [⟨name', isParameter, false, false⟩]) :=
        List.rel_append hds (.cons ⟨hname, rfl, rfl, rfl⟩ .nil)
      exact ⟨⟨.cons hdeclared hrest, hc.defined, hc.settled⟩, Checked.reportsLess_of_eq rfl rfl, rfl⟩

theorem follows_define (name : Text) : Follows L known (define name) (define name) Eq := by
  rintro ⟨scopes, defined, issues⟩ ⟨scopes', defined', issues'⟩ hc
  have hscopes := hc.scopes
  cases hscopes with
  | nil =>
    refine ⟨⟨.nil, ?_, ?_⟩, Checked.reportsLess_of_eq rfl rfl, rfl⟩
    · rintro x (_ | ⟨_, hx⟩)
      · exact List.mem_cons_self
      · exact List.mem_cons_of_mem _ (hc.defined x hx)
    · rintro x (_ | ⟨_, hx⟩)
      · exact .inl List.mem_cons_self
      · exact (hc.settled x hx).imp_left (List.mem_cons_of_mem _)
  | cons hds hrest =>
    exact ⟨⟨.cons (hds.update name fun _ _ => Declarations.Alike.initialize) hrest, hc.defined,
      hc.settled⟩, Checked.reportsLess_of_eq rfl rfl, rfl⟩

theorem follows_openScope : Follows L known openScope openScope Eq :=
  follows_scopes fun _ _ h => .cons .nil h

theorem follows_closeScope (settings settings' : ScopeSettings)
    (hunused : settings.reportUnused = settings'.reportUnused) :
    Follows L known (closeScope settings) (closeScope settings') Eq := by
  rintro ⟨scopes, defined, issues⟩ ⟨scopes', defined', issues'⟩ hc
  have hscopes := hc.scopes
  cases hscopes with
  | nil => exact ⟨hc, Checked.reportsLess_of_eq rfl rfl, rfl⟩
  | @cons ds ds' outer outer' hds hrest =>
    rw [run_closeScope, run_closeScope]
    refine Follows.bind (Q := Eq) (.ite (by rw [hunused]) ?_ follows_nothing) (fun _ _ _ => ?_) _ _ hc
    · exact follows_forM hds.unused fun a b h => follows_note (by rw [h.text]) h.loc
    · exact follows_scopes fun _ _ _ => hrest

theorem follows_isLocal (name : Text) : Follows L known (isLocal name) (isLocal name) Eq := by
  have hany {scopes scopes' : List Declarations}
      (h : List.Forall₂ (Declarations.Alike L) scopes scopes') :
      scopes.any (·.declares name) = scopes'.any (·.declares name) := by
    induction h with
    | nil => rfl
    | cons hds _ ih => rw [List.any_cons, List.any_cons, hds.declares, ih]
  exact fun _ _ hc => ⟨hc, Checked.reportsLess_of_eq rfl rfl, hany hc.scopes⟩

theorem follows_isInitializing (name : Text) :
    Follows L known (isInitializing name) (isInitializing name) Eq := by
  rintro ⟨scopes, defined, issues⟩ ⟨scopes', defined', issues'⟩ hc
  refine ⟨hc, Checked.reportsLess_of_eq rfl rfl, ?_⟩
  have hscopes := hc.scopes
  cases hscopes with
  | nil => rfl
  | cons hds _ => exact congrArg (Option.getD · false) (hds.isInitializing name)

/-- What is reported of a name that is read and that no scope declares. -/
def globalRead (known : List Text) (initializing : Option Text) (name : Name) : Check Unit := do
  if initializing = some name.text && !(← get).defined.contains name.text then
    note (.globalReadInInitializer name.text) name.loc
  else if !known.contains name.text then
    note (.undeclaredVariable name.text) name.loc

theorem run_globalRead (known : List Text) (initializing : Option Text) (name : Name)
    (c : Checked) : (globalRead known initializing name).run c =
      ((), { c with issues := c.issues ++
        if initializing = some name.text ∧ name.text ∉ c.defined then
          [⟨.globalReadInInitializer name.text, name.loc⟩]
        else if name.text ∉ known then [⟨.undeclaredVariable name.text, name.loc⟩] else [] }) := by
  unfold globalRead
  by_cases hi : initializing = some name.text ∧ name.text ∉ c.defined
  · simp [hi, note]
    rfl
  · by_cases hx : name.text ∈ known
    · simp [hi, hx]
      rfl
    · simp [hi, hx, note]
      rfl

theorem follows_globalRead (hknown : ∀ x ∈ known', x ∈ known) (initializing : Option Text)
    {name name' : Name} (hname : name.Alike L name') :
    Follows L known (globalRead known initializing name) (globalRead known' initializing name')
      Eq := by
  intro c c' hc
  rw [run_globalRead, run_globalRead, ← hname.text]
  refine ⟨⟨hc.scopes, hc.defined, hc.settled⟩, ⟨_, _, rfl, rfl, ?_⟩, rfl⟩
  by_cases hfirst : initializing = some name.text ∧ name.text ∉ c.defined
  · rw [if_pos hfirst, if_pos ⟨hfirst.1, fun hx => hfirst.2 (hc.defined _ hx)⟩]
    exact .cons ⟨rfl, hname.loc⟩ .nil
  · rw [if_neg hfirst]
    by_cases hx : name.text ∈ known
    · rw [if_neg (not_not.2 hx)]
      exact .nil
    · -- what is defined but not known is defined on the other side, too
      have hsecond : ¬(initializing = some name.text ∧ name.text ∉ c'.defined) := fun h =>
        hfirst ⟨h.1, fun hdefined => (hc.settled _ hdefined).elim h.2 hx⟩
      rw [if_pos hx, if_neg hsecond, if_pos fun hx' => hx (hknown _ hx')]
      exact .cons ⟨rfl, hname.loc⟩ .nil

theorem follows_undeclared (hknown : ∀ x ∈ known', x ∈ known) {name name' : Name}
    (hname : name.Alike L name') :
    Follows L known
      (do
        if !(← isLocal name.text) && !known.contains name.text then
          note (.undeclaredVariable name.text) name.loc)
      (do
        if !(← isLocal name'.text) && !known'.contains name'.text then
          note (.undeclaredVariable name'.text) name'.loc) Eq := by
  rw [← hname.text]
  refine (follows_isLocal name.text).bind ?_
  rintro b _ rfl
  refine follows_noteIf (fun h => ?_) _ hname.loc
  simp only [Bool.and_eq_true, Bool.not_eq_true', List.contains_eq_mem, decide_eq_false_iff_not]
    at h ⊢
  exact ⟨h.1, fun hx => h.2 (hknown _ hx)⟩

end Check

/-! ## Expressions -/

namespace Expr

open Check

variable {e e' : Expr}

theorem follows_checkAll {initializing : Option Text} {es es' : List Expr}
    (h : List.Forall₂ (fun e e' : Expr => Follows L known (e.check known initializing)
      (e'.check known' initializing) Eq) es es') :
    Follows L known (checkAll known initializing es) (checkAll known' initializing es') Eq := by
  induction h with
  | nil => exact follows_nothing
  | cons he _ ih => exact he.bind fun _ _ _ => ih

theorem follows_reference (hknown : ∀ x ∈ known', x ∈ known) (initializing : Option Text)
    {name name' : Name} (hname : name.Alike L name') (d d' : Option Nat) :
    Follows L known ((reference name d).check known initializing)
      ((reference name' d').check known' initializing) Eq := by
  have hafter : Follows L known
      (do
        if ← isLocal name.text then
          modify fun c => { c with scopes := markUsed name.text c.scopes }
        else
          globalRead known initializing name)
      (do
        if ← isLocal name'.text then
          modify fun c => { c with scopes := markUsed name'.text c.scopes }
        else
          globalRead known' initializing name') Eq := by
    rw [← hname.text]
    refine (follows_isLocal name.text).bind ?_
    rintro b _ rfl
    refine .ite Iff.rfl (follows_scopes fun _ _ h => Declarations.Alike.markUsed h name.text) ?_
    exact follows_globalRead hknown initializing hname
  have hinitializing := @follows_isInitializing L known name.text
  nth_rewrite 2 [hname.text] at hinitializing
  refine hinitializing.bind ?_
  rintro b _ rfl
  cases b with
  | true => exact (follows_note (congrArg _ hname.text) hname.loc).bind fun _ _ _ => hafter
  | false => exact hafter

/-- The check of an expression reports no more where more names are known. -/
theorem Alike.follows_check (hknown : ∀ x ∈ known', x ∈ known) (h : e.Alike L e')
    (initializing : Option Text) :
    Follows L known (e.check known initializing) (e'.check known' initializing) Eq := by
  induction h with
  | literal => exact follows_nothing
  | grouping _ _ ih | unary _ _ ih => exact ih
  | binary _ _ _ ihl ihr | logical _ _ _ ihl ihr => exact ihl.bind fun _ _ _ => ihr
  | @reference name name' d hname => exact follows_reference hknown initializing hname d d
  | assign hname _ ih => exact ih.bind fun _ _ _ => follows_undeclared hknown hname
  | call _ _ _ ihf ihargs => exact ihf.bind fun _ _ _ => follows_checkAll (forall₂_of_pairs ihargs)

theorem OptionAlike.follows_check {e e' : Option Expr} (hknown : ∀ x ∈ known', x ∈ known)
    (h : OptionAlike L e e') (initializing : Option Text) :
    Follows L known (checkOption known initializing e) (checkOption known' initializing e') Eq := by
  cases h with
  | none => exact follows_nothing
  | some he => exact he.follows_check hknown initializing

end Expr

/-! ## Statements -/

namespace Stmt

open Check

variable {settings settings' : ScopeSettings} {s s' : Stmt}

theorem follows_checkAll {body body' : List Stmt}
    (h : List.Forall₂ (fun s s' : Stmt => ∀ inFunction, Follows L known
      (s.check settings known inFunction) (s'.check settings' known' inFunction) Eq) body body')
    (inFunction : Bool) :
    Follows L known (checkAll settings known inFunction body)
      (checkAll settings' known' inFunction body') Eq := by
  induction h with
  | nil => exact follows_nothing
  | cons hs _ ih => exact (hs inFunction).bind fun _ _ _ => ih

theorem follows_parameters {params params' : List Name}
    (h : List.Forall₂ (Name.Alike L) params params') :
    Follows L known
      (params.forM fun param => do
        declare param true
        define param.text)
      (params'.forM fun param => do
        declare param true
        define param.text) Eq := by
  refine follows_forM h fun param param' hparam => (follows_declare hparam true).bind fun _ _ _ => ?_
  rw [hparam.text]
  exact follows_define _

/-- The check of a statement reports no more where more names are known. -/
theorem Alike.follows_check (hknown : ∀ x ∈ known', x ∈ known)
    (hunused : settings.reportUnused = settings'.reportUnused) (h : s.Alike L s')
    (inFunction : Bool) :
    Follows L known (s.check settings known inFunction) (s'.check settings' known' inFunction)
      Eq := by
  have hclose := @follows_closeScope L known settings settings' hunused
  induction h generalizing inFunction with
  | expression he | print he => exact he.follows_check hknown none
  | @var name name' e e' hname he =>
    refine (follows_declare hname false).bind fun _ _ _ => follows_get.bind fun c c' hc => ?_
    rw [hc.isEmpty, hname.text]
    exact (he.follows_check hknown _).bind fun _ _ _ => follows_define _
  | block _ _ ih =>
    refine follows_openScope.bind fun _ _ _ => ?_
    exact (follows_checkAll (forall₂_of_pairs ih) _).bind fun _ _ _ => hclose
  | ifThen hc _ _ ih | whileLoop hc _ _ ih =>
    exact (hc.follows_check hknown none).bind fun _ _ _ => ih inFunction
  | ifElse hc _ _ _ ih iho =>
    refine (hc.follows_check hknown none).bind fun _ _ _ => ?_
    exact (ih inFunction).bind fun _ _ _ => iho inFunction
  | @function name name' _ _ _ hname hparams _ ih =>
    refine (follows_declare hname false).bind fun _ _ _ => ?_
    rw [hname.text]
    refine (follows_define _).bind fun _ _ _ => follows_openScope.bind fun _ _ _ => ?_
    refine (follows_parameters hparams).bind fun _ _ _ => ?_
    exact (follows_checkAll (forall₂_of_pairs ih) _).bind fun _ _ _ => hclose
  | returnStmt he hl =>
    have hvalue := he.follows_check hknown none
    cases inFunction with
    | true => exact hvalue
    | false => exact (follows_note rfl hl).bind fun _ _ _ => hvalue

end Stmt

/-! ## Programs -/

namespace Program

variable {settings settings' : ScopeSettings} {p q : Program}

/-- To know more names never adds an issue: what is found in a program is found in every program
that is like it, at the corresponding place, if no more names are known there. -/
theorem Alike.issues_sublist (h : Program.Alike L p q)
    (hunused : settings.reportUnused = settings'.reportUnused)
    (hpredefined : ∀ x ∈ settings'.predefined, x ∈ settings.predefined) :
    List.SublistForall₂ (ScopeIssue.Alike L) (p.issues settings) (q.issues settings') := by
  have hknown : ∀ x ∈ settings'.predefined ++ q.globals, x ∈ settings.predefined ++ p.globals := by
    rw [h.globals_eq]
    exact fun x hx => List.mem_append.2 ((List.mem_append.1 hx).imp_left (hpredefined x))
  have hcheck := Stmt.follows_checkAll (h.imp fun _ _ hs => hs.follows_check hknown hunused) false
  have hstart : Checked.Informed L (settings.predefined ++ p.globals)
      ⟨[], settings.predefined, []⟩ ⟨[], settings'.predefined, []⟩ :=
    ⟨.nil, hpredefined, fun x hx => .inr (List.mem_append_left _ hx)⟩
  obtain ⟨_, ⟨is, is', his, his', hless⟩, _⟩ := hcheck _ _ hstart
  rw [List.nil_append] at his his'
  rw [Program.issues, Program.issues, his, his']
  exact hless

/-- Programs alike have the same issues, at corresponding places. -/
theorem Alike.issues (h : Program.Alike L p q) (settings : ScopeSettings) :
    List.Forall₂ (ScopeIssue.Alike L) (p.issues settings) (q.issues settings) := by
  obtain ⟨is, halike, hsub⟩ := List.sublistForall₂_iff.1
    (h.issues_sublist (Eq.refl settings.reportUnused) fun _ hx => hx)
  obtain ⟨is', halike', hsub'⟩ := List.sublistForall₂_iff.1
    (h.symm.issues_sublist (Eq.refl settings.reportUnused) fun _ hx => hx)
  have hlength : is.length = (q.issues settings).length :=
    Nat.le_antisymm hsub.length_le (halike'.length_eq ▸ halike.length_eq ▸ hsub'.length_le)
  rwa [← hsub.eq_of_length hlength]

end Program

end Lox
