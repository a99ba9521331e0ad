import Lox.Proofs.Likeness.Scope

/-!
# Checking one program after another

The check of a program leaves no scope open, and the global names whose declaration is then complete
are those from before and those that the program declares outside of all scopes
(`Stmt.completes_checkAll`). So the issues of two programs in a row are issues of the first and issues
that the second has where the globals of the first exist (`Program.issues_append`).
-/

namespace Lox

namespace Check

variable {α β : Type} {n n' : Nat} {names names' : List Text}

/-- With `n` scopes open the check leads to `n'` open scopes. Outside of all scopes it completes the
declarations of the given global names, inside of them that of no global name. -/
def Completes (n n' : Nat) (names : List Text) (x : Check α) : Prop :=
  ∀ c : Checked, c.scopes.length = n → (x.run c).2.scopes.length = n' ∧
    ∀ t, t ∈ (x.run c).2.defined ↔ t ∈ c.defined ∨ n = 0 ∧ t ∈ names

/-- A step that leaves the defined names alone. -/
theorem completes_of_defined {x : Check α}
    (hscopes : ∀ c : Checked, c.scopes.length = n → (x.run c).2.scopes.length = n')
    (hdefined : ∀ c, (x.run c).2.defined = c.defined) : Completes n n' [] x :=
  fun c hc => ⟨hscopes c hc, fun t => by rw [hdefined]; simp⟩

theorem Completes.bind {x : Check α} {f : α → Check β} (hx : Completes n n names x)
    (hf : ∀ a, Completes n n' names' (f a)) : Completes n n' (names ++ names') (x >>= f) := by
  intro c hc
  obtain ⟨hlength, hdefined⟩ := hx c hc
  obtain ⟨hlength', hdefined'⟩ := hf (x.run c).1 (x.run c).2 hlength
  refine ⟨hlength', fun t => ?_⟩
  rw [List.mem_append, and_or_left, ← or_assoc, ← hdefined]
  exact hdefined' t

/-- Inside a scope it does not matter which names are given. -/
theorem Completes.inside {x : Check α} (h : Completes (n + 1) n' names x) :
    Completes (n + 1) n' names' x :=
  fun c hc => ⟨(h c hc).1, fun t => ((h c hc).2 t).trans (by simp)⟩

/-- What a check does inside a scope of its own completes no global name. -/
theorem Completes.opened {x : Unit → Check β} (h : Completes (n + 1) n names (x ())) :
    Completes n n [] (openScope >>= x) := by
  intro c hc
  obtain ⟨hlength, hdefined⟩ := h { c with scopes := [] :: c.scopes } (congrArg (· + 1) hc)
  exact ⟨hlength, fun t => (hdefined t).trans (by simp)⟩

theorem completes_pure (a : α) : Completes n n [] (pure a) :=
  completes_of_defined (fun _ => id) fun _ => rfl

theorem completes_get : Completes n n [] get := completes_of_defined (fun _ => id) fun _ => rfl

theorem completes_note (problem : ScopeProblem) (loc : Location) :
    Completes n n [] (note problem loc) :=
  completes_of_defined (fun _ => id) fun _ => rfl

theorem completes_isLocal (name : Text) : Completes n n [] (isLocal name) :=
  completes_of_defined (fun _ => id) fun _ => rfl

theorem completes_isInitializing (name : Text) : Completes n n [] (isInitializing name) :=
  completes_of_defined (fun _ => id) fun _ => rfl

theorem length_markUsed (name : Text) (scopes : List Declarations) :
    (markUsed name scopes).length = scopes.length := by
  induction scopes with
  | nil => rfl
  | cons ds outer ih =>
    rw [markUsed]
    split
    · rfl
    · exact congrArg (· + 1) ih

theorem completes_markUsed (name : Text) :
    Completes n n [] (modify fun c => { c with scopes := markUsed name c.scopes }) :=
  completes_of_defined (fun c hc => (length_markUsed name c.scopes).trans hc) fun _ => rfl

theorem Completes.ite {c : Prop} [Decidable c] {x y : Check α} (hx : Completes n n' names x)
    (hy : Completes n n' names y) : Completes n n' names (if c then x else y) := by
  split
  · exact hx
  · exact hy

theorem completes_forM {f : α → Check Unit} (as : List α) (hf : ∀ a, Completes n n [] (f a)) :
    Completes n n [] (as.forM f) := by
  induction as with
  | nil => exact completes_pure _
  | cons a as ih => exact (hf a).bind fun _ => ih

theorem completes_declare (name : Name) (isParameter : Bool) :
    Completes n n [] (declare name isParameter) := by
  rintro ⟨scopes, defined, issues⟩ rfl
  cases scopes with
  | nil => exact ⟨rfl, fun t => (or_iff_left fun h => List.not_mem_nil h.2).symm⟩
  | cons ds outer =>
    rw [run_declare]
    dsimp only
    split <;> exact ⟨rfl, fun t => (or_iff_left fun h => List.not_mem_nil h.2).symm⟩

/-- Inside a scope a local name is completed. -/
theorem completes_define (name : Text) : Completes n n [name] (define name) := by
  rintro ⟨scopes, defined, issues⟩ rfl
  cases scopes with
  | nil =>
    refine ⟨rfl, fun t => ?_⟩
    show t ∈ name :: defined ↔ _
    simp [or_comm]
  | cons ds outer => exact ⟨rfl, fun t => (or_iff_left fun h => nomatch h.1).symm⟩

theorem completes_closeScope (settings : ScopeSettings) :
    Completes (n + 1) n [] (closeScope settings) := by
  rintro ⟨scopes, defined, issues⟩ hc
  cases scopes with
  | nil => cases hc
  | cons ds outer =>
    have hfirst : Completes (n + 1) (n + 1) [] (if settings.reportUnused then
        ds.unused.forM fun name => note (.unusedVariable name.text) name.loc else pure ()) :=
      .ite (completes_forM _ fun name => completes_note _ _) (completes_pure _)
    rw [run_closeScope]
    obtain ⟨_, hdefined⟩ := hfirst _ hc
    exact ⟨Nat.succ.inj hc, hdefined⟩

end Check

/-! ## Expressions -/

namespace Expr

open Check

variable {n : Nat}

theorem completes_reference (known : List Text) (initializing : Option Text) (name : Name)
    (d : Option Nat) : Completes n n [] ((Expr.reference name d).check known initializing) := by
  have hread : Completes n n [] (do
      if ← isLocal name.text then
        modify fun c => { c with scopes := markUsed name.text c.scopes }
      else if initializing = some name.text && !(← get).defined.contains name.text then
        note (.globalReadInInitializer name.text) name.loc
      else if !known.contains name.text then
        note (.undeclaredVariable name.text) name.loc) := by
    refine (completes_isLocal name.text).bind fun _ => .ite (completes_markUsed _) ?_
    exact completes_get.bind fun _ =>
      .ite (completes_note _ _) (.ite (completes_note _ _) (completes_pure _))
  refine (completes_isInitializing name.text).bind fun b => ?_
  cases b with
  | true => exact (completes_note _ _).bind fun _ => hread
  | false => exact hread

mutual

/-- An expression completes nothing. -/
theorem completes_check (known : List Text) (initializing : Option Text) (e : Expr) :
    Completes n n [] (e.check known initializing) := by
  cases e with
  | literal v loc => exact completes_pure ()
  | grouping e | unary _ e => exact completes_check known initializing e
  | binary _ l r | logical _ l r =>
    exact (completes_check known initializing l).bind fun _ => completes_check known initializing r
  | reference name d => exact completes_reference known initializing name d
  | assign name _ e =>
    unfold check
    exact (completes_check known initializing e).bind fun _ =>
      (completes_isLocal name.text).bind fun _ => .ite (completes_note _ _) (completes_pure _)
  | call f args =>
    exact (completes_check known initializing f).bind fun _ =>
      completes_checkAll known initializing args

theorem completes_checkAll (known : List Text) (initializing : Option Text) (es : List Expr) :
    Completes n n [] (checkAll known initializing es) := by
  cases es with
  | nil => exact completes_pure ()
  | cons e es =>
    exact (completes_check known initializing e).bind fun _ =>
      completes_checkAll known initializing es

end

theorem completes_checkOption (known : List Text) (initializing : Option Text) (e : Option Expr) :
    Completes n n [] (checkOption known initializing e) := by
  cases e with
  | none => exact completes_pure ()
  | some e => exact completes_check known initializing e

end Expr

/-! ## Statements -/

namespace Stmt

open Check

mutual

/-- A statement completes what it declares in the scope around it. -/
theorem completes_check (settings : ScopeSettings) (known : List Text) (inFunction : Bool)
    (s : Stmt) (n : Nat) : Completes n n s.hoisted (s.check settings known inFunction) := by
  cases s with
  | expression e loc | print e loc => exact Expr.completes_check known none e
  | var name e =>
    exact (completes_declare name false).bind fun _ => completes_get.bind fun c =>
      (Expr.completes_checkOption known _ e).bind fun _ => completes_define name.text
  | block body loc =>
    exact .opened ((completes_checkAll settings known inFunction body _).bind fun _ =>
      completes_closeScope settings)
  | ifThen c branch loc =>
    exact (Expr.completes_check known none c).bind fun _ =>
      completes_check settings known inFunction branch n
  | ifElse c branch otherwise loc =>
    exact (Expr.completes_check known none c).bind fun _ =>
      (completes_check settings known inFunction branch n).bind fun _ =>
        completes_check settings known inFunction otherwise n
  | whileLoop c body loc =>
    exact (Expr.completes_check known none c).bind fun _ =>
      completes_check settings known inFunction body n
  | function name params body =>
    refine (completes_declare name false).bind fun _ => (completes_define name.text).bind fun _ => ?_
    have hparams : Completes (n + 1) (n + 1) [] (params.forM fun param => do
        declare param true
        define param.text) :=
      completes_forM params fun param => (completes_declare param true).bind fun _ =>
        (completes_define param.text).inside
    exact .opened (hparams.bind fun _ => (completes_checkAll settings known true body _).bind fun _ =>
      completes_closeScope settings)
  | returnStmt e loc =>
    have hvalue := @Expr.completes_checkOption n known none e
    cases inFunction with
    | true => exact hvalue
    | false => exact (completes_note _ loc).bind fun _ => hvalue

theorem completes_checkAll (settings : ScopeSettings) (known : List Text) (inFunction : Bool)
    (body : List Stmt) (n : Nat) :
    Completes n n (body.flatMap hoisted) (checkAll settings known inFunction body) := by
  cases body with
  | nil => exact completes_pure ()
  | cons s rest =>
    exact (completes_check settings known inFunction s n).bind fun _ =>
      completes_checkAll settings known inFunction rest n

end

theorem checkAll_append (settings : ScopeSettings) (known : List Text) (inFunction : Bool)
    (body rest : List Stmt) : checkAll settings known inFunction (body ++ rest) =
      checkAll settings known inFunction body >>= fun _ =>
        checkAll settings known inFunction rest := by
  induction body with
  | nil => rfl
  | cons s body ih =>
    rw [List.cons_append, checkAll, checkAll, ih, bind_assoc]

end Stmt

/-! ## Programs -/

namespace Program

variable {L : Placing} {p p' q q' : Program} {settings settings' : ScopeSettings}

theorem globals_append (p q : Program) : Program.globals (p ++ q) = p.globals ++ q.globals :=
  List.filterMap_append

/-- Behind a program the check is where a check begins that knows the globals of then. -/
theorem informed_behind {known : List Text} (hdirect : p.flatMap Stmt.hoisted = p.globals)
    (hknown : ∀ x ∈ settings.predefined ++ p.globals, x ∈ known)
    (hpredefined : ∀ x ∈ settings'.predefined, x ∈ settings.predefined ++ p.globals) :
    Checked.Informed L known
      ((Stmt.checkAll settings known false p).run ⟨[], settings.predefined, []⟩).2
      ⟨[], settings'.predefined, []⟩ := by
  obtain ⟨hscopes, hdefined⟩ :=
    Stmt.completes_checkAll settings known false p 0 ⟨[], settings.predefined, []⟩ rfl
  have hmem (x : Text) : x ∈ ((Stmt.checkAll settings known false p).run
      ⟨[], settings.predefined, []⟩).2.defined ↔ x ∈ settings.predefined ++ p.globals := by
    rw [hdefined, hdirect, and_iff_right (Eq.refl 0), List.mem_append]
  refine ⟨?_, fun x hx => (hmem x).2 (hpredefined x hx), fun x hx => .inr (hknown x ((hmem x).1 hx))⟩
  rw [List.eq_nil_of_length_eq_zero hscopes]
  exact .nil

/-- **Checking one program after another.** The issues of two programs in a row are issues of the first
and issues that the second has on its own where the globals are those of then. The programs may be
others that are like them, the issues being at the corresponding places. -/
theorem issues_append (hp : Program.Alike L p p') (hq : Program.Alike L q q')
    (hunused : settings.reportUnused = settings'.reportUnused)
    (hdirect : p.flatMap Stmt.hoisted = p.globals)
    (hpredefined : ∀ x ∈ settings'.predefined, x ∈ settings.predefined ++ p.globals) :
    List.SublistForall₂ (ScopeIssue.Alike L) (Program.issues settings (p ++ q))
      (p'.issues settings ++ q'.issues settings') := by
  let known := settings.predefined ++ Program.globals (p ++ q)
  have hknown : known = (settings.predefined ++ p.globals) ++ q.globals := by
    rw [List.append_assoc, ← globals_append]
  have hfirst : ∀ x ∈ settings.predefined ++ p'.globals, x ∈ known := by
    rw [hknown, ← hp.globals_eq]
    exact fun x hx => List.mem_append_left _ hx
  have hsecond : ∀ x ∈ settings'.predefined ++ q'.globals, x ∈ known := by
    rw [hknown, ← hq.globals_eq]
    exact fun x hx => List.mem_append.2 ((List.mem_append.1 hx).imp_left (hpredefined x))
  -- the first program, checked as part of the whole and on its own
  obtain ⟨_, ⟨is, is', his, his', hless⟩, _⟩ := Stmt.follows_checkAll
    (hp.imp fun _ _ hs => hs.follows_check hfirst (Eq.refl settings.reportUnused)) false
    ⟨[], settings.predefined, []⟩ ⟨[], settings.predefined, []⟩
    ⟨.nil, fun _ hx => hx, fun _ hx => .inl hx⟩
  -- the second program, checked where the first one ends and on its own
  obtain ⟨_, ⟨js, js', hjs, hjs', hless'⟩, _⟩ := Stmt.follows_checkAll
    (hq.imp fun _ _ hs => hs.follows_check hsecond hunused) false _ _
    (informed_behind hdirect (hp.globals_eq ▸ hfirst) hpredefined)
  have hissues : Program.issues settings (p ++ q) = is ++ js := by
    rw [Program.issues, Stmt.checkAll_append]
    exact hjs.trans (by rw [his, List.nil_append])
  rw [hissues, Program.issues, Program.issues, his', hjs']
  exact sublistForall₂_append hless hless'

end Program

end Lox
