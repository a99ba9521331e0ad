import Lox.Proofs.Scope.Distance

/-!
# What a check tells

The check goes through a program with its own record of the open scopes, which agrees with the
contexts. Of every name that is read or assigned to it tells something in the context there
(`Program.told`): a name that is read in the innermost scope is not read in its own initializer, and a
name that no scope declares is that of a known global, unless there is an issue about it. Of every name
that is declared it tells that its scope does not declare it already, so without errors a scope declares
a name only once (`Program.declaredOnce_of_clean`).
-/

namespace Lox

/-! ## Contexts -/

namespace Context

variable (ctx : Context)

@[simp] theorem modifyHead_add_nil : ctx.modifyHead (·.add [] []) = ctx := by
  cases ctx <;> rfl

@[simp] theorem declareAll_nil : ctx.declareAll [] = ctx := ctx.modifyHead_add_nil

theorem modifyHead_add_add (vs cs vs' cs' : List Text) :
    (ctx.modifyHead (·.add vs cs)).modifyHead (·.add vs' cs') =
      ctx.modifyHead (·.add (vs ++ vs') (cs ++ cs')) := by
  cases ctx <;> simp [ScopeNames.add]

theorem declareAll_append (xs ys : List Text) :
    ctx.declareAll (xs ++ ys) = (ctx.declareAll xs).declareAll ys :=
  (ctx.modifyHead_add_add xs xs ys ys).symm

end Context

/-! ## Contexts below a node -/

theorem Point.cons_cases {n m : Node} {ctx ctx' : Context} {a : Address}
    (h : Point n ctx a m ctx') :
    m = n ∧ ctx' = ctx ∨
      ∃ i c b, n.children[i]? = some c ∧ Point c (n.enter ctx i) b m ctx' := by
  induction h with
  | root => exact .inl ⟨rfl, rfl⟩
  | @child a m c ctx' i _ hc ih =>
    rcases ih with ⟨rfl, rfl⟩ | ⟨j, c', b, hj, hp⟩
    · exact .inr ⟨i, c, [], hc, .root⟩
    · exact .inr ⟨j, c', b ++ [i], hj, hp.child hc⟩

namespace Node

/-- A property holds at every place below a node, in the context there. -/
def Everywhere (P : Node → Context → Prop) (n : Node) (ctx : Context) : Prop :=
  ∀ a m ctx', Point n ctx a m ctx' → P m ctx'

/-- A property holds at every place below nodes in a row. -/
def EverywhereInRow (P : Node → Context → Prop) : List Node → Context → Prop
  | [], _ => True
  | c :: cs, ctx => c.Everywhere P ctx ∧ EverywhereInRow P cs (ctx.declareAll c.hoisted)

variable {P : Node → Context → Prop}

theorem everywhere_of_row {cs : List Node} {ctx : Context} (h : EverywhereInRow P cs ctx)
    {i : Nat} {c : Node} (hc : cs[i]? = some c) :
    c.Everywhere P (ctx.declareAll ((cs.take i).flatMap hoisted)) := by
  induction cs generalizing ctx i with
  | nil => simp at hc
  | cons c' cs ih =>
    obtain ⟨hfirst, hrest⟩ := h
    cases i with
    | zero =>
      obtain rfl : c' = c := by simpa using hc
      simpa using hfirst
    | succ i =>
      have h := ih hrest (i := i) (by simpa using hc)
      simpa [Context.declareAll_append] using h

/-- What holds at a node and everywhere below its children holds everywhere below it. -/
theorem everywhere_of_children {n : Node} {ctx : Context} (hn : P n ctx)
    (h : EverywhereInRow P n.children (n.opened ctx)) : n.Everywhere P ctx := by
  intro a m ctx' hp
  rcases hp.cons_cases with ⟨rfl, rfl⟩ | ⟨i, c, b, hc, hp⟩
  · exact hn
  · exact everywhere_of_row h hc b m ctx' hp

end Node

/-! ## What can be told of a name -/

namespace Context

/-- The innermost scope has completed the declaration of the name, if it declares the name. -/
def Completes (ctx : Context) (x : Text) : Prop :=
  ∀ scope ∈ ctx.head?, x ∈ scope.visible → x ∈ scope.complete

/-- If no scope declares the name, it is that of a known global, or there is an issue about it. -/
def Accounts (ctx : Context) (known : List Text) (issues : List ScopeIssue) (name : Name) : Prop :=
  ctx.visible.distance? name.text = none →
    name.text ∈ known ∨ ⟨.undeclaredVariable name.text, name.loc⟩ ∈ issues ∨
      ⟨.globalReadInInitializer name.text, name.loc⟩ ∈ issues

/-- If the innermost scope declares the name already, there is an issue about it. -/
def Admits (ctx : Context) (issues : List ScopeIssue) (name : Name) : Prop :=
  ∀ scope ∈ ctx.head?, name.text ∈ scope.visible →
    ⟨.duplicateDeclaration name.text, name.loc⟩ ∈ issues

end Context

/-- The names differ, or there is an issue about the second one. -/
def Name.Apart (issues : List ScopeIssue) (a b : Name) : Prop :=
  a.text = b.text → ⟨.duplicateDeclaration b.text, b.loc⟩ ∈ issues

/-- What the issues of a check tell of the names that a node reads, assigns to or declares. -/
def Node.Told (known : List Text) (issues : List ScopeIssue) : Node → Context → Prop
  | .expr (.reference name _), ctx =>
    (ctx.Completes name.text ∨ ⟨.localReadInInitializer name.text, name.loc⟩ ∈ issues) ∧
      ctx.Accounts known issues name
  | .expr (.assign name _ _), ctx => ctx.Accounts known issues name
  | .stmt (.var name _), ctx => ctx.Admits issues name
  | .stmt (.function name params _), ctx =>
    ctx.Admits issues name ∧ params.Pairwise (Name.Apart issues)
  | _, _ => True

/-! ## The record of the check -/

namespace Check

variable {α β : Type}

/-- The declarations of a scope are those of its context, and no more are complete. -/
structure Agrees (ds : Declarations) (scope : ScopeNames) : Prop where
  visible : ∀ x, ds.declares x = true ↔ x ∈ scope.visible
  complete : ∀ d ∈ ds, d.initialized = true → d.name.text ∈ scope.complete

/-- None of the issues is an error. -/
def Clean (issues : List ScopeIssue) : Prop := ∀ i ∈ issues, i.problem.severity ≠ .error

/-- The check leads from records that agree with one context to records that agree with another; it
forgets no issue, and if there are the given issues in the end the result has a property. -/
def Tells (final : List ScopeIssue) (x : Check α) (before after : Context) (P : α → Prop) : Prop :=
  ∀ c : Checked, List.Forall₂ Agrees c.scopes before →
    List.Forall₂ Agrees (x.run c).2.scopes after ∧ c.issues <+: (x.run c).2.issues ∧
      ((x.run c).2.issues <+: final → P (x.run c).1)

variable {final : List ScopeIssue}

theorem Tells.bind {x : Check α} {f : α → Check β} {before mid after : Context} {P : α → Prop}
    {Q : β → Prop} (hx : Tells final x before mid P)
    (hf : ∀ a, Tells final (f a) mid after fun b => P a → Q b) :
    Tells final (x >>= f) before after Q := by
  intro c hc
  obtain ⟨hscopes, hprefix, hP⟩ := hx c hc
  obtain ⟨hscopes', hprefix', hQ⟩ := hf (x.run c).1 (x.run c).2 hscopes
  exact ⟨hscopes', hprefix.trans hprefix', fun hfinal => hQ hfinal (hP (hprefix'.trans hfinal))⟩

theorem tells_pure (a : α) (ctx : Context) : Tells final (pure a) ctx ctx (· = a) :=
  fun _ hc => ⟨hc, List.prefix_refl _, fun _ => rfl⟩

theorem Tells.mono {x : Check α} {before after : Context} {P Q : α → Prop}
    (h : Tells final x before after P) (hpq : ∀ a, P a → Q a) : Tells final x before after Q := by
  intro c hc
  obtain ⟨hscopes, hprefix, hP⟩ := h c hc
  exact ⟨hscopes, hprefix, fun hfinal => hpq _ (hP hfinal)⟩

theorem Tells.ite {c : Prop} [Decidable c] {x y : Check α} {before after : Context}
    {P : α → Prop} (hx : c → Tells final x before after P)
    (hy : ¬c → Tells final y before after P) :
    Tells final (if c then x else y) before after P := by
  split
  · next hc => exact hx hc
  · next hc => exact hy hc

/-- What is reported is one of the issues in the end. -/
theorem tells_note (problem : ScopeProblem) (loc : Location) (ctx : Context) :
    Tells final (note problem loc) ctx ctx fun _ => ⟨problem, loc⟩ ∈ final :=
  fun _ hc => ⟨hc, List.prefix_append _ _, fun hfinal =>
    hfinal.subset (List.mem_append_right _ List.mem_cons_self)⟩

/-! ### Declarations -/

theorem run_declare (name : Name) (isParameter : Bool) (ds : Declarations)
    (outer : List Declarations) (defined : List Text) (issues : List ScopeIssue) :
    (declare name isParameter).run ⟨ds :: outer, defined, issues⟩ =
      ((), if ds.declares name.text then
        ⟨ds :: outer, defined, issues ++ [⟨.duplicateDeclaration name.text, name.loc⟩]⟩
      else ⟨(ds ++ [⟨name, isParameter, false, false⟩]) :: outer, defined, issues⟩) := by
  cases h : ds.declares name.text <;> simp [declare, note, h] <;> rfl

/-- Closing a scope reports what nothing reads there, if the settings ask for it. -/
theorem run_closeScope (settings : ScopeSettings) (ds : Declarations) (outer : List Declarations)
    (defined : List Text) (issues : List ScopeIssue) :
    (closeScope settings).run ⟨ds :: outer, defined, issues⟩ =
      ((if settings.reportUnused then
          ds.unused.forM fun name => note (.unusedVariable name.text) name.loc
        else pure ()) >>= fun _ => modify fun c => { c with scopes := outer }).run
          ⟨ds :: outer, defined, issues⟩ := by
  obtain ⟨reportUnused, predefined⟩ := settings
  cases reportUnused <;> rfl

theorem declares_append (ds : Declarations) (d : Declaration) (x : Text) :
    Declarations.declares (ds ++ [d]) x = true ↔ ds.declares x = true ∨ d.name.text = x := by
  simp [Declarations.declares]

theorem declares_update (ds : Declarations) (name x : Text) (f : Declaration → Declaration)
    (hf : ∀ d, (f d).name = d.name) : (ds.update name f).declares x = ds.declares x := by
  unfold Declarations.declares Declarations.update
  rw [List.any_map]
  congr 1
  funext d
  simp only [Function.comp_apply]
  split
  · rw [hf]
  · rfl

/-- Declaring a name makes it visible, and tells whether it was not visible before. -/
theorem tells_declare (name : Name) (isParameter : Bool) (ctx : Context) :
    Tells final (declare name isParameter) ctx (ctx.modifyHead (·.add [name.text] []))
      fun _ => ctx.Admits final name := by
  intro c hc
  obtain ⟨scopes, defined, issues⟩ := c
  cases hc with
  | nil => exact ⟨.nil, List.prefix_refl _, fun _ scope hscope => by cases hscope⟩
  | @cons ds scope outer ctx hds hrest =>
    rw [run_declare]
    dsimp only
    split
    · next h =>
      refine ⟨.cons ⟨fun x => ?_, fun d hd hi => hds.complete d hd hi⟩ hrest,
        List.prefix_append _ _, fun hfinal _ _ _ =>
          hfinal.subset (List.mem_append_right _ List.mem_cons_self)⟩
      show _ ↔ x ∈ name.text :: scope.visible
      rw [hds.visible, List.mem_cons]
      refine ⟨.inr, fun hx => hx.elim (fun he => ?_) id⟩
      rw [he]
      exact (hds.visible _).1 h
    · next h =>
      refine ⟨.cons ⟨fun x => ?_, fun d hd hi => ?_⟩ hrest, List.prefix_refl _,
        fun _ scope' hscope hx => ?_⟩
      · show _ ↔ x ∈ name.text :: scope.visible
        rw [declares_append, hds.visible, List.mem_cons, or_comm, eq_comm]
      · rcases List.mem_append.1 hd with hd | hd
        · exact hds.complete d hd hi
        · obtain rfl := List.mem_singleton.1 hd
          cases hi
      · obtain rfl : scope = scope' := Option.some.inj hscope
        exact absurd ((hds.visible _).2 hx) h

/-- Defining a name completes its declaration. -/
theorem tells_define (name : Text) (ctx : Context) :
    Tells final (define name) ctx (ctx.modifyHead (·.add [] [name])) fun _ => True := by
  intro c hc
  obtain ⟨scopes, defined, issues⟩ := c
  cases hc with
  | nil => exact ⟨.nil, List.prefix_refl _, fun _ => trivial⟩
  | @cons ds scope outer ctx hds hrest =>
    refine ⟨.cons ⟨fun x => ?_, fun d hd hi => ?_⟩ hrest, List.prefix_refl _, fun _ => trivial⟩
    · rw [declares_update ds name x (fun d => { d with initialized := true }) fun _ => rfl]
      exact hds.visible x
    · show d.name.text ∈ name :: scope.complete
      obtain ⟨d', hd', rfl⟩ := List.mem_map.1 hd
      split at hi
      · next h =>
        rw [if_pos h, beq_iff_eq.1 h]
        exact List.mem_cons_self
      · next h =>
        rw [if_neg h]
        exact List.mem_cons_of_mem _ (hds.complete d' hd' hi)

theorem tells_openScope (all : List Text) (ctx : Context) :
    Tells final openScope ctx (⟨all, [], []⟩ :: ctx) fun _ => True := by
  intro c hc
  refine ⟨.cons ⟨fun x => ?_, fun d hd => absurd hd List.not_mem_nil⟩ hc, List.prefix_refl _,
    fun _ => trivial⟩
  simp [Declarations.declares]

theorem tells_forM_note (names : List Name) (f : Name → ScopeProblem) (ctx : Context) :
    Tells final (names.forM fun name => note (f name) name.loc) ctx ctx fun _ => True := by
  induction names with
  | nil => exact (tells_pure _ ctx).mono fun _ _ => trivial
  | cons name names ih =>
    exact (tells_note (f name) name.loc ctx).bind fun _ => ih.mono fun _ _ _ => trivial

theorem tells_closeScope (settings : ScopeSettings) (scope : ScopeNames) (ctx : Context) :
    Tells final (closeScope settings) (scope :: ctx) ctx fun _ => True := by
  intro c hc
  obtain ⟨scopes, defined, issues⟩ := c
  cases hc with
  | @cons ds _ outer _ hds hrest =>
    have hpop : Tells final (modify fun c => { c with scopes := outer }) (scope :: ctx) ctx
        fun _ => True := fun c _ => ⟨hrest, List.prefix_refl _, fun _ => trivial⟩
    have hfirst : Tells final (if settings.reportUnused then
          ds.unused.forM fun name => note (.unusedVariable name.text) name.loc
        else pure ()) (scope :: ctx) (scope :: ctx) fun _ => True := by
      split
      · exact tells_forM_note _ _ _
      · exact (tells_pure _ _).mono fun _ _ => trivial
    rw [run_closeScope]
    exact (hfirst.bind fun _ => hpop.mono fun _ _ _ => trivial) _ (.cons hds hrest)

/-- A scope that holds nothing but parameters, in the order in which they are written. -/
theorem tells_parameters (params : List Name) (all : List Text) (ctx : Context) :
    Tells final (params.forM fun param => do
        declare param true
        define param.text) (⟨all, [], []⟩ :: ctx)
      (⟨all, params.map Name.text, params.map Name.text⟩ :: ctx)
      fun _ => params.Pairwise (Name.Apart final) := by
  -- what the scope holds before counts as declared, too
  have hrow (scope : ScopeNames) : Tells final (params.forM fun param => do
        declare param true
        define param.text) (scope :: ctx)
      (scope.add (params.map Name.text) (params.map Name.text) :: ctx)
      fun _ => (∀ param ∈ params, Context.Admits (scope :: ctx) final param) ∧
        params.Pairwise (Name.Apart final) := by
    induction params generalizing scope with
    | nil => exact (tells_pure _ _).mono fun _ _ => ⟨List.forall_mem_nil _, .nil⟩
    | cons param params ih =>
      have hone : Tells final (do declare param true; define param.text) (scope :: ctx)
          (scope.add [param.text] [param.text] :: ctx)
          fun _ => Context.Admits (scope :: ctx) final param :=
        (tells_declare param true (scope :: ctx)).bind fun _ =>
          (tells_define param.text (scope.add [param.text] [] :: ctx)).mono fun _ _ hnew => hnew
      have hboth := hone.bind fun _ => (ih (scope.add [param.text] [param.text])).mono
        (Q := fun _ => Context.Admits (scope :: ctx) final param →
          (∀ other ∈ param :: params, Context.Admits (scope :: ctx) final other) ∧
            (param :: params).Pairwise (Name.Apart final)) fun _ hrest hnew => by
        have hlater {other : Name} (hother : other ∈ params)
            (h : other.text ∈ param.text :: scope.visible) := hrest.1 other hother _ rfl h
        refine ⟨List.forall_mem_cons.2 ⟨hnew, fun other hother scope' hscope hx => ?_⟩,
          List.pairwise_cons.2 ⟨fun other hother he => ?_, hrest.2⟩⟩
        · obtain rfl : scope = scope' := Option.some.inj hscope
          exact hlater hother (List.mem_cons_of_mem _ hx)
        · exact hlater hother (he ▸ List.mem_cons_self)
      simpa [ScopeNames.add] using hboth
  intro c hc
  obtain ⟨hscopes, hprefix, hapart⟩ := hrow ⟨all, [], []⟩ c hc
  obtain ⟨ds, outer, hds, hrest, heq⟩ := List.forall₂_cons_right_iff.1 hscopes
  refine ⟨?_, hprefix, fun hfinal => (hapart hfinal).2⟩
  rw [heq]
  refine .cons ⟨fun x => ?_, fun d hd hi => ?_⟩ hrest
  · rw [hds.visible]
    simp [ScopeNames.add]
  · simpa [ScopeNames.add] using hds.complete d hd hi

/-- Marking names as used changes nothing that the contexts tell. -/
theorem agrees_markUsed (name : Text) {scopes : List Declarations} {ctx : Context}
    (h : List.Forall₂ Agrees scopes ctx) : List.Forall₂ Agrees (markUsed name scopes) ctx := by
  induction h with
  | nil => exact .nil
  | @cons ds scope outer ctx hds hrest ih =>
    rw [markUsed]
    split
    · refine .cons ⟨fun x => ?_, fun d hd hi => ?_⟩ hrest
      · rw [declares_update ds name x (fun d => { d with used := true }) fun _ => rfl]
        exact hds.visible x
      · obtain ⟨d', hd', rfl⟩ := List.mem_map.1 hd
        split at hi
        · next h =>
          rw [if_pos h]
          exact hds.complete d' hd' hi
        · next h =>
          rw [if_neg h]
          exact hds.complete d' hd' hi
    · exact .cons hds ih

/-- A name that is visible in the innermost scope and not being initialized is complete there. -/
theorem complete_of_agrees {ds : Declarations} {scope : ScopeNames} (h : Agrees ds scope)
    {x : Text} (hx : x ∈ scope.visible) (hi : ((ds.find? x).map (!·.initialized)).getD false = false) :
    x ∈ scope.complete := by
  have hdeclares := (h.visible x).2 hx
  cases hf : ds.find? x with
  | none =>
    rw [Declarations.declares, List.any_eq_true] at hdeclares
    obtain ⟨d, hd, hname⟩ := hdeclares
    exact absurd hname (List.find?_eq_none.1 hf d hd)
  | some d =>
    obtain rfl : d.name.text = x := by simpa using List.find?_some hf
    exact h.complete d (List.mem_of_find?_eq_some hf) (by simpa [hf] using hi)

theorem tells_isInitializing (name : Text) (ctx : Context) :
    Tells final (isInitializing name) ctx ctx fun b => b = false → ctx.Completes name := by
  refine fun c hc => ⟨hc, List.prefix_refl _, fun _ hi scope hscope hx => ?_⟩
  obtain ⟨scopes, defined, issues⟩ := c
  cases hc with
  | nil => cases hscope
  | cons hds _ =>
    cases hscope
    exact complete_of_agrees hds hx hi

/-- A name without a distance is declared in no open scope. -/
theorem not_declares_of_distance? {scopes : List Declarations} {ctx : Context} {x : Text}
    (h : List.Forall₂ Agrees scopes ctx) (hx : ctx.visible.distance? x = none) :
    ∀ ds ∈ scopes, ¬ds.declares x = true := by
  have hnone : ∀ scope ∈ ctx, x ∉ scope.visible := by
    simpa [OpenScopes.distance?, Context.visible] using hx
  clear hx
  induction h with
  | nil => exact List.forall_mem_nil _
  | @cons ds scope scopes ctx hds _ ih =>
    obtain ⟨hscope, houter⟩ := List.forall_mem_cons.1 hnone
    exact List.forall_mem_cons.2 ⟨fun hdeclares => hscope ((hds.visible x).1 hdeclares), ih houter⟩

theorem tells_isLocal (name : Text) (ctx : Context) :
    Tells final (isLocal name) ctx ctx fun b => b = true → ctx.visible.distance? name ≠ none := by
  refine fun c hc => ⟨hc, List.prefix_refl _, fun _ hlocal hnone => ?_⟩
  obtain ⟨ds, hds, hdeclares⟩ := List.any_eq_true.1 hlocal
  exact not_declares_of_distance? hc hnone ds hds hdeclares

theorem tells_markUsed (name : Text) (ctx : Context) :
    Tells final (modify fun c => { c with scopes := markUsed name c.scopes }) ctx ctx
      fun _ => True :=
  fun _ hc => ⟨agrees_markUsed name hc, List.prefix_refl _, fun _ => trivial⟩

theorem tells_get (ctx : Context) : Tells final get ctx ctx fun _ => True :=
  fun _ hc => ⟨hc, List.prefix_refl _, fun _ => trivial⟩

end Check

/-! ## Expressions -/

theorem Node.opened_expr (e : Expr) (ctx : Context) : (Node.expr e).opened ctx = ctx :=
  ctx.modifyHead_add_nil

namespace Expr

open Check

/-- A name that is neither local nor known is reported. -/
theorem tells_unknown (known : List Text) (name : Name) (ctx : Context) :
    Tells final (if (!known.contains name.text) = true then
        note (.undeclaredVariable name.text) name.loc else pure ()) ctx ctx
      fun _ => ctx.Accounts known final name := by
  refine .ite (fun _ => ?_) fun hknown => ?_
  · exact (tells_note _ name.loc ctx).mono fun _ hnoted _ => .inr (.inl hnoted)
  · refine (tells_pure () ctx).mono fun _ _ _ => .inl ?_
    simpa using hknown

/-- What is done about a name behind the value that is assigned to it. -/
theorem tells_assigned (known : List Text) (name : Name) (ctx : Context) :
    Tells final (do
      if !(← isLocal name.text) && !known.contains name.text then
        note (.undeclaredVariable name.text) name.loc) ctx ctx
      fun _ => ctx.Accounts known final name := by
  refine (tells_isLocal name.text ctx).bind fun b => ?_
  cases b with
  | true => exact (tells_pure () ctx).mono fun _ _ hdistance hnone => absurd hnone (hdistance rfl)
  | false => exact (tells_unknown known name ctx).mono fun _ h _ => h

theorem tells_reference (known : List Text) (initializing : Option Text) (name : Name)
    (d : Option Nat) (ctx : Context) :
    Tells final ((Expr.reference name d).check known initializing) ctx ctx
      fun _ => (Node.expr (.reference name d)).Told known final ctx := by
  have hglobal : Tells final (do
      if ← isLocal name.text then
        modify fun c => { c with scopes := markUsed name.text c.scopes }
      else if initializing = some name.text && !(← get).defined.contains name.text then
        note (.globalReadInInitializer name.text) name.loc
      else if !known.contains name.text then
        note (.undeclaredVariable name.text) name.loc) ctx ctx
      fun _ => ctx.Accounts known final name := by
    refine (tells_isLocal name.text ctx).bind fun b => .ite (fun hlocal => ?_) fun _ => ?_
    · exact (tells_markUsed name.text ctx).mono fun _ _ hdistance hnone =>
        absurd hnone (hdistance hlocal)
    · refine ((tells_get ctx).bind fun c => .ite (fun _ => ?_) fun _ => ?_).mono fun _ h _ => h
      · exact (tells_note _ name.loc ctx).mono fun _ hnoted _ _ => .inr (.inr hnoted)
      · exact (tells_unknown known name ctx).mono fun _ h _ => h
  unfold check
  refine (tells_isInitializing name.text ctx).bind fun b => ?_
  cases b with
  | true =>
    refine (tells_note _ name.loc ctx).bind fun _ => ?_
    exact hglobal.mono fun _ haccounts hnoted _ => ⟨.inr hnoted, haccounts⟩
  | false => exact hglobal.mono fun _ haccounts hcomplete => ⟨.inl (hcomplete rfl), haccounts⟩

section Rows

variable {P : Node → Context → Prop}

theorem everywhere_of_operands {e : Expr} {ctx : Context} (hn : P (.expr e) ctx)
    (h : Node.EverywhereInRow P (e.children.map .expr) ctx) : (Node.expr e).Everywhere P ctx :=
  Node.everywhere_of_children hn (by rwa [Node.opened_expr])

theorem everywhereInRow_cons {e : Expr} {es : List Expr} {ctx : Context}
    (he : (Node.expr e).Everywhere P ctx) (hes : Node.EverywhereInRow P (es.map .expr) ctx) :
    Node.EverywhereInRow P ((e :: es).map .expr) ctx :=
  ⟨he, by rwa [Node.hoisted, Context.declareAll_nil]⟩

end Rows

mutual

theorem tells_check (known : List Text) (initializing : Option Text) (e : Expr) (ctx : Context) :
    Tells final (e.check known initializing) ctx ctx
      fun _ => (Node.expr e).Everywhere (Node.Told known final) ctx := by
  cases e with
  | literal v loc =>
    exact (tells_pure () ctx).mono fun _ _ => everywhere_of_operands trivial trivial
  | grouping e | unary _ e =>
    refine (tells_check known initializing e ctx).mono fun _ he => ?_
    exact everywhere_of_operands trivial (everywhereInRow_cons he trivial)
  | binary _ l r | logical _ l r =>
    refine (tells_check known initializing l ctx).bind fun _ => ?_
    refine (tells_check known initializing r ctx).mono fun _ hr hl => ?_
    exact everywhere_of_operands trivial
      (everywhereInRow_cons hl (everywhereInRow_cons hr trivial))
  | reference name d =>
    exact (tells_reference known initializing name d ctx).mono fun _ hn =>
      everywhere_of_operands hn trivial
  | assign name d e =>
    refine (tells_check known initializing e ctx).bind fun _ => ?_
    refine (tells_assigned known name ctx).mono fun _ hn he => ?_
    exact everywhere_of_operands hn (everywhereInRow_cons he trivial)
  | call f args =>
    refine (tells_check known initializing f ctx).bind fun _ => ?_
    refine (tells_checkAll known initializing args ctx).mono fun _ hargs hf => ?_
    exact everywhere_of_operands trivial (everywhereInRow_cons hf hargs)

theorem tells_checkAll (known : List Text) (initializing : Option Text) (es : List Expr)
    (ctx : Context) : Tells final (checkAll known initializing es) ctx ctx
      fun _ => Node.EverywhereInRow (Node.Told known final) (es.map .expr) ctx := by
  cases es with
  | nil => exact (tells_pure () ctx).mono fun _ _ => trivial
  | cons e es =>
    refine (tells_check known initializing e ctx).bind fun _ => ?_
    exact (tells_checkAll known initializing es ctx).mono fun _ hes he =>
      everywhereInRow_cons he hes

end

theorem tells_checkOption (known : List Text) (initializing : Option Text) (e : Option Expr)
    (ctx : Context) : Tells final (checkOption known initializing e) ctx ctx
      fun _ => Node.EverywhereInRow (Node.Told known final) (e.map Node.expr).toList ctx := by
  cases e with
  | none => exact (tells_pure () ctx).mono fun _ _ => trivial
  | some e => exact (tells_check known initializing e ctx).mono fun _ he => ⟨he, trivial⟩

end Expr

/-! ## Statements -/

namespace Stmt

open Check Expr

/-- The context inside a statement, form by form. -/
theorem opened_eq (s : Stmt) (ctx : Context) :
    (Node.stmt s).opened ctx =
      match s with
      | .block body _ => ⟨body.flatMap hoisted, [], []⟩ :: ctx
      | .function name params body =>
        ⟨params.map Name.text ++ body.flatMap hoisted, params.map Name.text,
          params.map Name.text⟩ :: ctx.declareAll [name.text]
      | .var name _ => ctx.modifyHead (·.add [name.text] [])
      | _ => ctx := by
  cases s with
  | block body loc =>
    simp [Node.opened, Node.isScope, Node.declared?, declared?, Node.completed, Node.parameters,
      Node.children, children, List.flatMap_map, Node.hoisted]
  | function name params body =>
    simp [Node.opened, Node.isScope, Node.declared?, declared?, Node.completed, Node.parameters,
      Node.children, children, List.flatMap_map, Node.hoisted, Context.declareAll]
  | _ => simp [Node.opened, Node.isScope, Node.declared?, declared?, Node.completed]

variable {known : List Text} {final : List ScopeIssue}

theorem told_of_children {s : Stmt} {ctx : Context} (hs : (Node.stmt s).Told known final ctx)
    (h : Node.EverywhereInRow (Node.Told known final) s.children ((Node.stmt s).opened ctx)) :
    (Node.stmt s).Everywhere (Node.Told known final) ctx :=
  Node.everywhere_of_children hs h

/-- A condition in front of the statements that it decides about. -/
theorem told_of_condition {s : Stmt} {c : Expr} {rest : List Node} {ctx : Context}
    (hs : (Node.stmt s).Told known final ctx) (hchildren : s.children = .expr c :: rest)
    (hopened : (Node.stmt s).opened ctx = ctx)
    (hc : (Node.expr c).Everywhere (Node.Told known final) ctx)
    (hrest : Node.EverywhereInRow (Node.Told known final) rest ctx) :
    (Node.stmt s).Everywhere (Node.Told known final) ctx := by
  refine told_of_children hs ?_
  rw [hchildren, hopened]
  exact ⟨hc, by rwa [Node.hoisted, Context.declareAll_nil]⟩

mutual

theorem tells_check (settings : ScopeSettings) (known : List Text) (inFunction : Bool) (s : Stmt)
    (ctx : Context) : Tells final (s.check settings known inFunction) ctx (ctx.declareAll s.hoisted)
      fun _ => (Node.stmt s).Everywhere (Node.Told known final) ctx := by
  cases s with
  | expression e loc | print e loc =>
    rw [hoisted, Context.declareAll_nil]
    refine (Expr.tells_check known none e ctx).mono fun _ he => ?_
    exact told_of_condition trivial rfl (opened_eq _ ctx) he trivial
  | var name e =>
    refine (tells_declare name false ctx).bind fun _ => ?_
    refine (tells_get _).bind fun c => ?_
    refine (tells_checkOption known _ e _).bind fun _ => ?_
    have hdefine := @tells_define final name.text (ctx.modifyHead (·.add [name.text] []))
    rw [Context.modifyHead_add_add] at hdefine
    refine hdefine.mono fun _ _ he _ hnew => told_of_children hnew ?_
    rw [opened_eq]
    exact he
  | block body loc =>
    rw [hoisted, Context.declareAll_nil]
    refine (tells_openScope (body.flatMap hoisted) ctx).bind fun _ => ?_
    refine (tells_checkAll settings known inFunction body _).bind fun _ => ?_
    refine (tells_closeScope settings _ ctx).mono fun _ _ hbody _ => told_of_children trivial ?_
    rw [opened_eq]
    exact hbody
  | ifThen c branch loc =>
    refine (Expr.tells_check known none c ctx).bind fun _ => ?_
    refine (tells_check settings known inFunction branch ctx).mono fun _ hbranch hc => ?_
    exact told_of_condition trivial rfl (opened_eq _ ctx) hc ⟨hbranch, trivial⟩
  | ifElse c branch otherwise loc =>
    refine (Expr.tells_check known none c ctx).bind fun _ => ?_
    refine (tells_check settings known inFunction branch ctx).bind fun _ => ?_
    rw [hoisted, Context.declareAll_append]
    refine (tells_check settings known inFunction otherwise _).mono fun _ hother hbranch hc => ?_
    exact told_of_condition trivial rfl (opened_eq _ ctx) hc ⟨hbranch, hother, trivial⟩
  | whileLoop c body loc =>
    refine (Expr.tells_check known none c ctx).bind fun _ => ?_
    refine (tells_check settings known inFunction body ctx).mono fun _ hbody hc => ?_
    exact told_of_condition trivial rfl (opened_eq _ ctx) hc ⟨hbody, trivial⟩
  | function name params body =>
    refine (tells_declare name false ctx).bind fun _ => ?_
    refine (tells_define name.text _).bind fun _ => ?_
    rw [Context.modifyHead_add_add]
    refine (tells_openScope (params.map Name.text ++ body.flatMap hoisted) _).bind fun _ => ?_
    refine (tells_parameters params _ _).bind fun _ => ?_
    refine (tells_checkAll settings known true body _).bind fun _ => ?_
    refine (tells_closeScope settings _ _).mono fun _ _ hbody hparams _ _ hnew => ?_
    refine told_of_children ⟨hnew, hparams⟩ ?_
    rw [opened_eq]
    exact hbody
  | returnStmt e loc =>
    rw [hoisted, Context.declareAll_nil]
    have hvalue := (@tells_checkOption final known none e ctx).mono fun _ he =>
      told_of_children (s := .returnStmt e loc) trivial (by rwa [opened_eq])
    cases inFunction with
    | true => exact hvalue
    | false => exact (tells_note _ loc ctx).bind fun _ => hvalue.mono fun _ he _ => he

theorem tells_checkAll (settings : ScopeSettings) (known : List Text) (inFunction : Bool)
    (body : List Stmt) (ctx : Context) :
    Tells final (checkAll settings known inFunction body) ctx
      (ctx.declareAll (body.flatMap hoisted))
      fun _ => Node.EverywhereInRow (Node.Told known final) (body.map .stmt) ctx := by
  cases body with
  | nil =>
    rw [List.flatMap_nil, Context.declareAll_nil]
    exact (tells_pure () ctx).mono fun _ _ => trivial
  | cons s rest =>
    rw [List.flatMap_cons, Context.declareAll_append]
    refine (tells_check settings known inFunction s ctx).bind fun _ => ?_
    exact (tells_checkAll settings known inFunction rest _).mono fun _ hrest hs => ⟨hs, hrest⟩

end

end Stmt

/-! ## Programs -/

namespace Program

variable {settings : ScopeSettings} {p : Program} {a : Address} {ctx : Context}

/-- The issues of a program tell of every node. -/
theorem told (settings : ScopeSettings) (p : Program) :
    (Node.program p).Everywhere
      (Node.Told (settings.predefined ++ p.globals) (p.issues settings)) [] := by
  have hcheck := @Stmt.tells_checkAll (p.issues settings) settings
    (settings.predefined ++ p.globals) false p [] ⟨[], settings.predefined, []⟩ .nil
  exact Node.everywhere_of_children trivial (hcheck.2.2 (List.prefix_refl _))

/-- Without errors a name that is read in the innermost scope is complete there. -/
theorem completes_of_clean (h : Check.Clean (p.issues settings)) {name : Name} {d : Option Nat}
    (hp : Point (.program p) [] a (.expr (.reference name d)) ctx) : ctx.Completes name.text :=
  ((told settings p _ _ _ hp).1).resolve_right fun hissue => h _ hissue rfl

/-- Without errors a name that no scope declares existed before, or is declared at top level, or is
reported as undeclared where it is. -/
theorem announced_of_clean (h : Check.Clean (p.issues settings)) {n : Node} {name : Name}
    {d : Option Nat} (hp : Point (.program p) [] a n ctx) (hn : n.target? = some (name, d))
    (hglobal : ctx.visible.distance? name.text = none) :
    name.text ∈ settings.predefined ∨ name.text ∈ p.globals ∨
      ⟨.undeclaredVariable name.text, name.loc⟩ ∈ p.issues settings := by
  have haccounts : ctx.Accounts (settings.predefined ++ p.globals) (p.issues settings) name := by
    have htold := told settings p _ _ _ hp
    cases n with
    | expr e =>
      cases e with
      | reference =>
        cases hn
        exact htold.2
      | assign =>
        cases hn
        exact htold
      | _ => cases hn
    | _ => cases hn
  rcases haccounts hglobal with hknown | hissue | hissue
  · rw [← or_assoc]
    exact .inl (List.mem_append.1 hknown)
  · exact .inr (.inr hissue)
  · exact absurd rfl (h _ hissue)

/-! ### Each name once -/

/-- Without errors nothing is declared that the scope around it has declared before. -/
theorem admits_of_clean (h : Check.Clean (p.issues settings)) {n : Node} {x : Text}
    (hp : Point (.program p) [] a n ctx) (hx : n.declared? = some x) :
    ∀ scope ∈ ctx.head?, x ∉ scope.visible := by
  have htold := told settings p _ _ _ hp
  intro scope hscope hvisible
  cases n with
  | stmt s =>
    cases s with
    | var name e =>
      cases hx
      exact h _ (htold scope hscope hvisible) rfl
    | function name params body =>
      cases hx
      exact h _ (htold.1 scope hscope hvisible) rfl
    | _ => cases hx
  | _ => cases hx

/-- Without errors a declaration in a scope is the first one of its name there. -/
theorem not_declaresBefore_of_clean (h : Check.Clean (p.issues settings)) {scope d : Address}
    {x : Text} (hd : (Node.program p).DeclaredAt scope x d) :
    ¬(Node.program p).HasParameter scope x ∧
      ∀ d' < d, ¬(Node.program p).DeclaredAt scope x d' := by
  obtain ⟨⟨n, hn, hx⟩, hscope⟩ := hd
  obtain ⟨ctx, hp⟩ := Node.exists_point hn []
  have hdescribes := Node.describes_of_point hp
  obtain ⟨outer, hen⟩ := List.head?_eq_some_iff.1 hscope
  rw [hen] at hdescribes
  obtain ⟨names, rest, hnames, -, rfl⟩ := List.forall₂_cons_left_iff.1 hdescribes
  have hnew := admits_of_clean h hp hx names rfl
  rw [hnames.visible] at hnew
  exact ⟨fun hparam => hnew (.inl hparam), fun d' hlt hd' => hnew (.inr ⟨d', hd', hlt⟩)⟩

/-- Without errors no scope declares a name twice. -/
theorem declaredOnce_of_clean (h : Check.Clean (p.issues settings)) {scope d d' : Address}
    {x : Text} (hd : (Node.program p).DeclaredAt scope x d)
    (hd' : (Node.program p).DeclaredAt scope x d') : d = d' := by
  rcases lt_trichotomy d d' with hlt | he | hlt
  · exact absurd hd ((not_declaresBefore_of_clean h hd').2 d hlt)
  · exact he
  · exact absurd hd' ((not_declaresBefore_of_clean h hd).2 d' hlt)

/-- Without errors the parameters of a function have different names. -/
theorem parameters_nodup_of_clean (h : Check.Clean (p.issues settings)) {name : Name}
    {params : List Name} {body : List Stmt}
    (ha : (Node.program p).at? a = some (.stmt (.function name params body))) :
    (params.map Name.text).Nodup := by
  obtain ⟨ctx, hp⟩ := Node.exists_point ha []
  refine List.pairwise_map.2 ((told settings p _ _ _ hp).2.imp fun hapart he => ?_)
  exact h _ (hapart he) rfl

end Program

end Lox
