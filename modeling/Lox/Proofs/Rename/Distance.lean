import Lox.Proofs.Rename.Places

/-!
# Distances of renamed programs

A name and its exchanged form have the same distance, in scopes whose names are exchanged where they are
marked: no name comes between a reference and its scope, since the new name is nowhere else
(`OpenScopes.distance?_exchange`). So a program that has its distances has them also when it is renamed
by scopes (`Stmt.Renamed.bind`), and then finding the distances commutes with replacing the names
(`Program.bind_mapNames`).
-/

namespace Lox

/-! ## Distances do not matter for finding them -/

mutual

theorem Expr.bind_unbind (scopes : OpenScopes) (e : Expr) : e.unbind.bind scopes = e.bind scopes := by
  cases e with
  | literal | reference => rfl
  | grouping e | unary _ e | assign _ _ e => simp only [unbind, bind, bind_unbind scopes e]
  | binary _ l r | logical _ l r =>
    simp only [unbind, bind, bind_unbind scopes l, bind_unbind scopes r]
  | call f args => simp only [unbind, bind, bind_unbind scopes f, bindAll_unbindAll scopes args]

theorem Expr.bindAll_unbindAll (scopes : OpenScopes) (es : List Expr) :
    bindAll scopes (unbindAll es) = bindAll scopes es := by
  cases es with
  | nil => rfl
  | cons e es => simp only [unbindAll, bindAll, bind_unbind scopes e, bindAll_unbindAll scopes es]

end

theorem Expr.map_bind_unbind (scopes : OpenScopes) (e : Option Expr) :
    (e.map unbind).map (bind scopes) = e.map (bind scopes) := by
  cases e with
  | none => rfl
  | some e => exact congrArg some (bind_unbind scopes e)

mutual

theorem Stmt.bind_unbind (scopes : OpenScopes) (s : Stmt) : s.unbind.bind scopes = s.bind scopes := by
  cases s with
  | expression e | print e => simp only [unbind, bind, Expr.bind_unbind scopes e]
  | var name e => simp only [unbind, bind, Expr.map_bind_unbind]
  | block body => simp only [unbind, bind, bindAll_unbindAll _ body]
  | ifThen c branch => simp only [unbind, bind, Expr.bind_unbind scopes c, bind_unbind _ branch]
  | ifElse c branch otherwise =>
    simp only [unbind, bind, Expr.bind_unbind scopes c, bind_unbind _ branch,
      bind_unbind _ otherwise]
  | whileLoop c body => simp only [unbind, bind, Expr.bind_unbind scopes c, bind_unbind _ body]
  | function name params body => simp only [unbind, bind, bindAll_unbindAll _ body]
  | returnStmt e => simp only [unbind, bind, Expr.map_bind_unbind]

theorem Stmt.bindAll_unbindAll (scopes : OpenScopes) (body : List Stmt) :
    bindAll scopes (unbindAll body) = bindAll scopes body := by
  cases body with
  | nil => rfl
  | cons s rest => simp only [unbindAll, bindAll, bind_unbind _ s, bindAll_unbindAll _ rest]

end

/-! ## Names and distances do not touch each other -/

mutual

theorem Expr.names_unbind (e : Expr) : e.unbind.names = e.names := by
  cases e with
  | literal | reference => rfl
  | grouping e | unary _ e | assign _ _ e => simp only [unbind, names, names_unbind e]
  | binary _ l r | logical _ l r => simp only [unbind, names, names_unbind l, names_unbind r]
  | call f args => simp only [unbind, names, names_unbind f, namesAll_unbindAll args]

theorem Expr.namesAll_unbindAll (es : List Expr) : namesAll (unbindAll es) = namesAll es := by
  cases es with
  | nil => rfl
  | cons e es => simp only [unbindAll, namesAll, names_unbind e, namesAll_unbindAll es]

end

theorem Expr.elim_names_unbind (e : Option Expr) :
    (e.map unbind).elim [] names = e.elim [] names := by
  cases e with
  | none => rfl
  | some e => exact names_unbind e

mutual

theorem Stmt.names_unbind (s : Stmt) : s.unbind.names = s.names := by
  cases s with
  | expression e | print e => simp only [unbind, names, Expr.names_unbind e]
  | var _ e | returnStmt e => simp only [unbind, names, Expr.elim_names_unbind]
  | block body | function _ _ body => simp only [unbind, names, namesAll_unbindAll body]
  | ifThen c branch => simp only [unbind, names, Expr.names_unbind c, names_unbind branch]
  | ifElse c branch otherwise =>
    simp only [unbind, names, Expr.names_unbind c, names_unbind branch, names_unbind otherwise]
  | whileLoop c body => simp only [unbind, names, Expr.names_unbind c, names_unbind body]

theorem Stmt.namesAll_unbindAll (body : List Stmt) : namesAll (unbindAll body) = namesAll body := by
  cases body with
  | nil => rfl
  | cons s rest => simp only [unbindAll, namesAll, names_unbind s, namesAll_unbindAll rest]

end

mutual

theorem Expr.unbind_mapNames (f : NamePlace → Text → Text) (a : Address) (e : Expr) :
    (e.mapNames f a).unbind = e.unbind.mapNames f a := by
  cases e with
  | literal | reference => rfl
  | grouping e | unary _ e | assign _ _ e => simp only [unbind, mapNames, unbind_mapNames f _ e]
  | binary _ l r | logical _ l r =>
    simp only [unbind, mapNames, unbind_mapNames f _ l, unbind_mapNames f _ r]
  | call g args =>
    simp only [unbind, mapNames, unbind_mapNames f _ g, unbindAll_mapNamesAll f a 1 args]

theorem Expr.unbindAll_mapNamesAll (f : NamePlace → Text → Text) (a : Address) (i : Nat)
    (es : List Expr) : unbindAll (mapNamesAll f a i es) = mapNamesAll f a i (unbindAll es) := by
  cases es with
  | nil => rfl
  | cons e es =>
    simp only [unbindAll, mapNamesAll, unbind_mapNames f _ e, unbindAll_mapNamesAll f a _ es]

end

theorem Expr.map_unbind_mapNames (f : NamePlace → Text → Text) (a : Address) (e : Option Expr) :
    (e.map (mapNames f a)).map unbind = (e.map unbind).map (mapNames f a) := by
  cases e with
  | none => rfl
  | some e => exact congrArg some (unbind_mapNames f a e)

mutual

theorem Stmt.unbind_mapNames (f : NamePlace → Text → Text) (a : Address) (s : Stmt) :
    (s.mapNames f a).unbind = s.unbind.mapNames f a := by
  cases s with
  | expression e | print e => simp only [unbind, mapNames, Expr.unbind_mapNames f _ e]
  | var _ e | returnStmt e => simp only [unbind, mapNames, Expr.map_unbind_mapNames]
  | block body | function _ _ body =>
    simp only [unbind, mapNames, unbindAll_mapNamesAll f a 0 body]
  | ifThen c branch =>
    simp only [unbind, mapNames, Expr.unbind_mapNames f _ c, unbind_mapNames f _ branch]
  | ifElse c branch otherwise =>
    simp only [unbind, mapNames, Expr.unbind_mapNames f _ c, unbind_mapNames f _ branch,
      unbind_mapNames f _ otherwise]
  | whileLoop c body =>
    simp only [unbind, mapNames, Expr.unbind_mapNames f _ c, unbind_mapNames f _ body]

theorem Stmt.unbindAll_mapNamesAll (f : NamePlace → Text → Text) (a : Address) (i : Nat)
    (body : List Stmt) :
    unbindAll (mapNamesAll f a i body) = mapNamesAll f a i (unbindAll body) := by
  cases body with
  | nil => rfl
  | cons s rest =>
    simp only [unbindAll, mapNamesAll, unbind_mapNames f _ s, unbindAll_mapNamesAll f a _ rest]

end

namespace Program

theorem bind_unbind (p : Program) : Program.bind (Program.unbind p) = p.bind := by
  unfold Program.bind Program.unbind
  rw [Stmt.bindAll_unbindAll]

theorem unbind_eq (p : Program) : Program.unbind p.bind = Program.unbind p :=
  Stmt.unbindAll_bindAll [] p

/-- A program that has its distances keeps them. -/
theorem bind_bind (p : Program) : Program.bind p.bind = p.bind := by
  rw [← bind_unbind p.bind, unbind_eq, bind_unbind]

theorem names_bind (p : Program) : Program.names p.bind = p.names := by
  rw [Program.names, ← Stmt.namesAll_unbindAll]
  exact (congrArg Stmt.namesAll (unbind_eq p)).trans (Stmt.namesAll_unbindAll p)

end Program

/-! ## Scopes with exchanged names -/

namespace OpenScopes

/-- The names of marked scopes exchanged. -/
def exchange (σ : Equiv.Perm Text) (marks : Marks) : OpenScopes → OpenScopes
  | [] => []
  | names :: outer => names.map (exchangeIf σ (marks 0)) :: exchange σ marks.leave outer

/-- No scope has the name. -/
def Lacks (scopes : OpenScopes) (y : Text) : Prop := ∀ names ∈ scopes, y ∉ names

variable {x y z : Text}

/-- A name that is not there is not there in any exchanged form. -/
theorem notMem_map_exchangeIf {names : List Text} (hy : y ∉ names) (hzy : z ≠ y) (hz : z ∉ names)
    (mark mark' : Bool) :
    exchangeIf (Equiv.swap x y) mark z ∉ names.map (exchangeIf (Equiv.swap x y) mark') := by
  -- the exchanged form of the name is the name or the new one
  have hform : Equiv.swap x y z = z ∨ Equiv.swap x y z = y := by
    by_cases hx : z = x
    · exact .inr (hx ▸ Equiv.swap_apply_left x y)
    · exact .inl (Equiv.swap_apply_of_ne_of_ne hx hzy)
  have hswap : Equiv.swap x y z ∉ names := fun h => hform.elim (fun he => hz (he ▸ h))
    fun he => hy (he ▸ h)
  intro h
  obtain ⟨n, hn, he⟩ := List.mem_map.1 h
  cases mark <;> cases mark' <;> simp only [exchangeIf_false, exchangeIf_true] at he
  · exact hz (he ▸ hn)
  · rw [← he, Equiv.swap_apply_self] at hswap
    exact hswap hn
  · exact hswap (he ▸ hn)
  · exact hz ((Equiv.swap x y).injective he ▸ hn)

theorem distance?_cons (names : List Text) (outer : OpenScopes) (z : Text) :
    distance? (names :: outer) z = if z ∈ names then some 0 else (outer.distance? z).map (· + 1) := by
  by_cases hz : z ∈ names <;> simp [distance?, List.findIdx?_cons, hz]

/-- An exchanged name has the distance of the name. -/
theorem distance?_exchange {scopes : OpenScopes} (hy : scopes.Lacks y) (hz : z ≠ y)
    (marks : Marks) :
    (scopes.exchange (Equiv.swap x y) marks).distance?
      (exchangeIf (Equiv.swap x y) (marks.leads (scopes.distance? z)) z) = scopes.distance? z := by
  induction scopes generalizing marks with
  | nil => rfl
  | cons names outer ih =>
    obtain ⟨hnames, houter⟩ := List.forall_mem_cons.1 hy
    rw [exchange, distance?_cons, distance?_cons]
    by_cases hin : z ∈ names
    · rw [if_pos hin]
      exact if_pos (List.mem_map_of_mem hin)
    · rw [if_neg hin]
      have hleads : marks.leads ((distance? outer z).map (· + 1)) =
          marks.leave.leads (distance? outer z) := by
        cases distance? outer z <;> rfl
      rw [hleads, if_neg (notMem_map_exchangeIf hnames hz hin _ _), ih houter]

theorem exchange_declare (σ : Equiv.Perm Text) (marks : Marks) (scopes : OpenScopes) (z : Text) :
    (scopes.exchange σ marks).declare (exchangeIf σ (marks 0) z) =
      (scopes.declare z).exchange σ marks := by
  cases scopes <;> rfl

theorem Lacks.declare {scopes : OpenScopes} (h : scopes.Lacks y) (hz : y ≠ z) :
    (scopes.declare z).Lacks y := by
  cases scopes with
  | nil => exact h
  | cons names outer =>
    obtain ⟨hnames, houter⟩ := List.forall_mem_cons.1 h
    refine List.forall_mem_cons.2 ⟨fun hy => ?_, houter⟩
    exact (List.mem_cons.1 hy).elim hz hnames

theorem Lacks.cons {scopes : OpenScopes} (h : scopes.Lacks y) {names : List Text}
    (hy : y ∉ names) : Lacks (names :: scopes) y := List.forall_mem_cons.2 ⟨hy, h⟩

end OpenScopes

/-! ## Renamed by scopes -/

section Bind

variable {x y : Text} {marks : Marks} {scopes : OpenScopes}

theorem Expr.Renamed.bindAll {es es' : List Expr}
    (h : List.Forall₂ (fun e e' : Expr => y ∉ e.names → e.bind scopes = e →
      e'.bind (scopes.exchange (Equiv.swap x y) marks) = e') es es') (hy : y ∉ namesAll es)
    (hbound : Expr.bindAll scopes es = es) :
    Expr.bindAll (scopes.exchange (Equiv.swap x y) marks) es' = es' := by
  induction h with
  | nil => rfl
  | cons he _ ih =>
    simp only [namesAll, List.mem_append, not_or] at hy
    simp only [Expr.bindAll, List.cons.injEq] at hbound ⊢
    exact ⟨he hy.1 hbound.1, ih hy.2 hbound.2⟩

/-- An expression that has its distances has them also when it is renamed. -/
theorem Expr.Renamed.bind {e e' : Expr} (h : e.Renamed (Equiv.swap x y) marks e')
    (hscopes : scopes.Lacks y) (hy : y ∉ e.names) (hbound : e.bind scopes = e) :
    e'.bind (scopes.exchange (Equiv.swap x y) marks) = e' := by
  induction h with
  | literal => rfl
  | grouping _ ih | unary _ ih =>
    simp only [names] at hy
    simp only [Expr.bind, grouping.injEq, unary.injEq, and_true, true_and] at hbound ⊢
    exact ih hy hbound
  | binary _ _ ihl ihr | logical _ _ ihl ihr =>
    simp only [names, List.mem_append, not_or] at hy
    simp only [Expr.bind, binary.injEq, logical.injEq, true_and] at hbound ⊢
    exact ⟨ihl hy.1 hbound.1, ihr hy.2 hbound.2⟩
  | reference name d =>
    simp only [Expr.bind, reference.injEq, true_and] at hbound ⊢
    rw [← hbound]
    exact OpenScopes.distance?_exchange hscopes (fun he => hy (he ▸ List.mem_cons_self)) marks
  | assign name d _ ih =>
    simp only [names, List.mem_cons, not_or] at hy
    simp only [Expr.bind, assign.injEq, true_and] at hbound ⊢
    refine ⟨?_, ih hy.2 hbound.2⟩
    rw [← hbound.1]
    exact OpenScopes.distance?_exchange hscopes (Ne.symm hy.1) marks
  | call _ _ ihf ihargs =>
    simp only [names, List.mem_append, not_or] at hy
    simp only [Expr.bind, call.injEq, and_true] at hbound ⊢
    exact ⟨ihf hy.1 hbound.1, bindAll (forall₂_of_pairs ihargs) hy.2 hbound.2⟩

theorem Expr.OptionRenamed.bind {e e' : Option Expr}
    (h : OptionRenamed (Equiv.swap x y) marks e e') (hscopes : scopes.Lacks y)
    (hy : y ∉ e.elim [] names) (hbound : e.map (Expr.bind scopes) = e) :
    e'.map (Expr.bind (scopes.exchange (Equiv.swap x y) marks)) = e' := by
  cases h with
  | none => rfl
  | some he => exact congrArg some (he.bind hscopes hy (Option.some.inj hbound))

/-- The second statement has its distances if the first one does, in the scopes with exchanged names,
and so have the statements behind them. -/
def Stmt.BindRenamed (x y : Text) (marks : Marks) (s s' : Stmt) : Prop :=
  ∀ scopes : OpenScopes, scopes.Lacks y → y ∉ s.names → (s.bind scopes).1 = s →
    s'.bind (scopes.exchange (Equiv.swap x y) marks) =
        (s', (s.bind scopes).2.exchange (Equiv.swap x y) marks) ∧
      (s.bind scopes).2.Lacks y

theorem Stmt.BindRenamed.bindAll {body body' : List Stmt}
    (h : List.Forall₂ (BindRenamed x y marks) body body') {scopes : OpenScopes}
    (hscopes : scopes.Lacks y) (hy : y ∉ namesAll body)
    (hbound : (Stmt.bindAll scopes body).1 = body) :
    (Stmt.bindAll (scopes.exchange (Equiv.swap x y) marks) body').1 = body' := by
  induction h generalizing scopes with
  | nil => rfl
  | cons hs _ ih =>
    simp only [namesAll, List.mem_append, not_or] at hy
    simp only [Stmt.bindAll, List.cons.injEq] at hbound ⊢
    obtain ⟨heq, hlacks⟩ := hs scopes hscopes hy.1 hbound.1
    rw [heq]
    exact ⟨rfl, ih hlacks hy.2 hbound.2⟩

theorem Stmt.Renamed.bind {s s' : Stmt} (h : s.Renamed (Equiv.swap x y) marks s') :
    BindRenamed x y marks s s' := by
  induction h with
  | expression he | print he =>
    intro scopes hscopes hy hbound
    simp only [Stmt.bind, expression.injEq, print.injEq, and_true] at hbound ⊢
    exact ⟨by rw [he.bind hscopes hy hbound], hscopes⟩
  | returnStmt he =>
    intro scopes hscopes hy hbound
    simp only [Stmt.bind, returnStmt.injEq, and_true] at hbound ⊢
    exact ⟨by rw [he.bind hscopes hy hbound], hscopes⟩
  | var name he =>
    intro scopes hscopes hy hbound
    simp only [names, List.mem_cons, not_or] at hy
    simp only [Stmt.bind, var.injEq, true_and] at hbound ⊢
    have hdeclared := hscopes.declare hy.1
    refine ⟨?_, hdeclared⟩
    rw [Name.map, OpenScopes.exchange_declare, he.bind hdeclared hy.2 hbound]
  | block mark _ ih =>
    intro scopes hscopes hy hbound
    simp only [Stmt.bind, block.injEq, and_true] at hbound ⊢
    have hbody := BindRenamed.bindAll (forall₂_of_pairs ih)
      (hscopes.cons (List.not_mem_nil (a := y))) hy hbound
    exact ⟨congrArg (fun b => (Stmt.block b _, _)) hbody, hscopes⟩
  | ifThen hc _ ih =>
    intro scopes hscopes hy hbound
    simp only [names, List.mem_append, not_or] at hy
    simp only [Stmt.bind, ifThen.injEq, and_true] at hbound ⊢
    obtain ⟨heq, hlacks⟩ := ih scopes hscopes hy.2 hbound.2
    rw [heq, hc.bind hscopes hy.1 hbound.1]
    exact ⟨rfl, hlacks⟩
  | ifElse hc _ _ ih iho =>
    intro scopes hscopes hy hbound
    simp only [names, List.mem_append, not_or] at hy
    simp only [Stmt.bind, ifElse.injEq, and_true] at hbound ⊢
    obtain ⟨heq, hlacks⟩ := ih scopes hscopes hy.2.1 hbound.2.1
    obtain ⟨heq', hlacks'⟩ := iho _ hlacks hy.2.2 hbound.2.2
    rw [heq, heq', hc.bind hscopes hy.1 hbound.1]
    exact ⟨rfl, hlacks'⟩
  | whileLoop hc _ ih =>
    intro scopes hscopes hy hbound
    simp only [names, List.mem_append, not_or] at hy
    simp only [Stmt.bind, whileLoop.injEq, and_true] at hbound ⊢
    obtain ⟨heq, hlacks⟩ := ih scopes hscopes hy.2 hbound.2
    rw [heq, hc.bind hscopes hy.1 hbound.1]
    exact ⟨rfl, hlacks⟩
  | @function marks mark name params body hname _ ih =>
    intro scopes hscopes hy hbound
    simp only [names, List.mem_cons, List.mem_append, not_or] at hy
    simp only [Stmt.bind, function.injEq, true_and] at hbound ⊢
    have hdeclared := hscopes.declare hy.1
    have hbody := BindRenamed.bindAll (forall₂_of_pairs ih) (hdeclared.cons hy.2.1) hy.2.2 hbound
    have hscopes' : (scopes.exchange (Equiv.swap x y) marks).declare name.text =
        (scopes.declare name.text).exchange (Equiv.swap x y) marks := by
      rw [← OpenScopes.exchange_declare, hname]
    rw [OpenScopes.exchange, List.map_map] at hbody
    refine ⟨?_, hdeclared⟩
    rw [hscopes', List.map_map]
    exact congrArg (fun b => (Stmt.function name _ b, _)) hbody

end Bind

/-! ## Programs -/

namespace Program

/-- Finding the distances commutes with renaming by scopes. -/
theorem bind_eq_of_renamed {q q' : Program} {x y : Text}
    (h : List.Forall₂ (Stmt.Renamed (Equiv.swap x y) .none) q q') (hq : Program.bind q = q)
    (hy : y ∉ q.names) : Program.bind q' = q' := by
  have hscopes : OpenScopes.Lacks [] y := fun _ hnames => absurd hnames List.not_mem_nil
  exact Stmt.BindRenamed.bindAll (h.imp fun _ _ hs => hs.bind) hscopes hy hq

/-- Finding the distances commutes with replacing names, if the result has its distances. -/
theorem bind_mapNames {p : Program} {f : NamePlace → Text → Text}
    (h : Program.bind (Program.mapNames f p.bind) = Program.mapNames f p.bind) :
    Program.bind (p.mapNames f) = Program.mapNames f p.bind := by
  have hunbind : Program.unbind (p.mapNames f) = Program.unbind (Program.mapNames f p.bind) := by
    unfold Program.unbind Program.mapNames
    rw [Stmt.unbindAll_mapNamesAll, Stmt.unbindAll_mapNamesAll]
    exact congrArg _ (unbind_eq p).symm
  rw [← h, ← bind_unbind, hunbind, bind_unbind, h]

end Program

end Lox
