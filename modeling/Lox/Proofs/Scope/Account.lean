import Lox.Proofs.Scope.Passes

/-!
# The account of a program

The check of a node leads from the node to what follows it and reports what there is to find on the way, by
induction on the node. So the issues of a program are what there is to find in it, in the order of the
positions (`Program.issues_account`).
-/

namespace Lox

namespace Node

variable {root n : Node} {a : Address} {initializing : Option Text}

/-! ## Inside a node -/

theorem sizeOf_lt_of_mem_expr {e c : Expr} (h : c ∈ e.children) : sizeOf c < sizeOf e := by
  cases e with
  | literal | reference => cases h
  | call f args loc =>
    rw [Expr.call.sizeOf_spec]
    rcases List.mem_cons.1 h with rfl | hc
    · omega
    · have hlt := List.sizeOf_lt_of_mem hc
      omega
  | grouping | unary | assign | binary | logical =>
    simp only [Expr.children, List.mem_cons, List.not_mem_nil, or_false] at h
    grind

theorem sizeOf_lt_of_mem_stmt {s : Stmt} {c : Node} (h : c ∈ s.children) : sizeOf c < sizeOf (stmt s) := by
  cases s with
  | block body _ | function _ _ body =>
    obtain ⟨s, hs, rfl⟩ := List.mem_map.1 h
    have hlt := List.sizeOf_lt_of_mem hs
    simp only [stmt.sizeOf_spec, Stmt.block.sizeOf_spec, Stmt.function.sizeOf_spec]
    omega
  | var name e | returnStmt e _ =>
    obtain ⟨e', he, rfl⟩ := Option.map_eq_some_iff.1 (Option.mem_toList.1 h)
    subst he
    grind
  | expression | print | ifThen | ifElse | whileLoop =>
    simp only [Stmt.children, List.mem_cons, List.not_mem_nil, or_false] at h
    grind

/-- The children of a node are smaller than the node. -/
theorem sizeOf_lt_of_mem_children {n m : Node} (h : m ∈ n.children) : sizeOf m < sizeOf n := by
  cases n with
  | program p =>
    obtain ⟨s, hs, rfl⟩ := List.mem_map.1 h
    have hlt := List.sizeOf_lt_of_mem hs
    simp only [program.sizeOf_spec, stmt.sizeOf_spec]
    omega
  | expr e =>
    obtain ⟨e', he', rfl⟩ := List.mem_map.1 h
    have hlt := sizeOf_lt_of_mem_expr he'
    simp only [expr.sizeOf_spec]
    omega
  | stmt s => exact sizeOf_lt_of_mem_stmt h

/-- The global variable that is being initialized, for the children of a node. -/
theorem initializing_child (ha : root.at? a = some n)
    (h : Check.Initializing root initializing a) (j : Nat) :
    Check.Initializing root (n.initializing (root.enclosing a).isEmpty initializing) (a ++ [j]) := by
  have hout {v : Address} (hn : ∀ e, n ≠ .expr e) : ¬root.InInitializer v a := by
    intro hv
    obtain ⟨e, he⟩ := hv.isExpr ha
    exact hn e he
  intro x
  simp only [inInitializer_snoc_iff, ha, Option.some.injEq]
  cases n with
  | expr e => simpa [Node.initializing] using h x
  | program p => simp [hout (by simp), Node.initializing]
  | stmt s =>
    cases s with
    | var name e =>
      simp [hout (by simp), Node.initializing, DeclaredGlobally, ha, declared?, Stmt.declared?, and_comm]
    | _ => simp [hout (by simp), Node.initializing]

theorem isFunction_iff (n : Node) :
    n.isFunction = true ↔ ∃ name params body, n = .stmt (.function name params body) := by
  cases n with
  | stmt s => cases s <;> simp [isFunction]
  | _ => simp [isFunction]

/-- A function is around the children of a node if it is around the node, or the node itself. -/
theorem inFunction_child (ha : root.at? a = some n) (j : Nat) :
    root.InFunction (a ++ [j]) ↔ n.isFunction = true ∨ root.InFunction a := by
  have hself : (∃ name params body, root.at? a = some (.stmt (.function name params body))) ↔
      n.isFunction = true := by
    simp only [ha, Option.some.injEq, isFunction_iff]
  rw [InFunction, enclosing_position ha, inside]
  cases hscope : n.isScope with
  | true =>
    rw [if_pos rfl, List.singleton_append, List.exists_mem_cons_iff, hself]
    rfl
  | false =>
    refine (or_iff_right fun hn => ?_).symm
    obtain ⟨name, params, body, rfl⟩ := (isFunction_iff n).1 hn
    cases hscope

/-! ## The order of unused names -/

variable {scope scope' : Address} {o o' : Finding}

/-- What is unused in a scope is reported before what is unused in a scope around it. -/
theorem Unused.position_lt (h : root.Unused scope o) (h' : root.Unused scope' o')
    (hin : scope ∈ root.enclosing scope') : o'.position < o.position := by
  obtain ⟨-, -, -, -, hscope⟩ := h
  obtain ⟨-, -, -, -, hscope'⟩ := h'
  obtain ⟨⟨w, rfl⟩, hne⟩ := prefix_of_mem_enclosing hin
  cases w with
  | nil => exact absurd (List.append_nil scope).symm hne
  | cons j e =>
    obtain ⟨c, hc, -⟩ := exists_child_of_at? hscope hscope'
    obtain ⟨hj, -⟩ := List.getElem?_eq_some_iff.1 hc
    exact (lt_snoc_iff _ _ _).2 (.inr (.inr ⟨j, hj, _, by rw [List.append_assoc]; rfl⟩))

/-- Of two unused names of one scope the one declared first is reported first. -/
theorem Unused.part_lt (h : root.Unused scope o) (h' : root.Unused scope o') (hlt : o.Precedes o') :
    o.part < o'.part := by
  have hposition : o.position = o'.position := by
    obtain ⟨-, -, -, -, hscope⟩ := h
    obtain ⟨-, -, -, -, hscope'⟩ := h'
    rw [hscope] at hscope'
    rw [Option.some.inj hscope']
  exact (hlt.resolve_left (hposition ▸ lt_irrefl _)).2

end Node

namespace Check

variable {root n : Node} {settings : ScopeSettings} {known : List Text} {a : Address}
  {initializing : Option Text} {inFunction : Bool}

/-- Nothing lies between a position and itself. -/
theorem passes_pure (p : Address) : Passes root settings known (pure ()) p p :=
  ⟨le_refl p, fun _ hc => ⟨hc, reports_none fun _ ho => not_lt_of_ge ho.2.1 ho.2.2⟩⟩

/-- The check of nodes in a row leads from the first of them to what follows the last. -/
theorem passes_checkAll (ns : List Node) (j : Nat)
    (hat : ∀ k m, ns[k]? = some m → root.at? (a ++ [j + k]) = some m)
    (hcheck : ∀ m ∈ ns, ∀ k, root.at? (a ++ [k]) = some m →
      Passes root settings known (m.check settings known initializing inFunction) (a ++ [k])
        (a ++ [k + 1])) :
    Passes root settings known (Node.checkAll settings known initializing inFunction ns)
      (a ++ [j]) (a ++ [j + ns.length]) := by
  induction ns generalizing j with
  | nil => exact passes_pure _
  | cons m ns ih =>
    have hrest := ih (j + 1) (fun k m' hk => by
      rw [Nat.add_assoc, Nat.add_comm 1]
      exact hat (k + 1) m' hk) fun m' hm' => hcheck m' (List.mem_cons_of_mem _ hm')
    rw [Nat.add_assoc, Nat.add_comm 1] at hrest
    exact (hcheck m List.mem_cons_self j (hat 0 m rfl)).bind hrest

/-- The check of a node leads from the node to what follows it. -/
theorem passes_check (n : Node) (q : Address) (i : Nat) (initializing : Option Text) (inFunction : Bool)
    (ha : root.at? (q ++ [i]) = some n) (hinit : Initializing root initializing (q ++ [i]))
    (hfun : inFunction = true ↔ root.InFunction (q ++ [i])) :
    Passes root settings known (n.check settings known initializing inFunction) (q ++ [i])
      (q ++ [i + 1]) := by
  have hchild : ∀ k m, n.children[k]? = some m → root.at? (q ++ [i] ++ [k]) = some m := by
    intro k m hk
    rw [Node.at?_snoc, ha]
    exact hk
  let inner := n.initializing (root.enclosing (q ++ [i])).isEmpty initializing
  have hrow : Passes root settings known
      (Node.checkAll settings known inner (n.isFunction || inFunction) n.children) (q ++ [i] ++ [0])
      (q ++ [i] ++ [0 + n.children.length]) := by
    refine passes_checkAll n.children 0 (fun k m hk => ?_) fun m hm k hk => ?_
    · rw [Nat.zero_add, Node.at?_snoc, ha]
      exact hk
    · refine passes_check m (q ++ [i]) k inner _ hk (Node.initializing_child ha hinit k) ?_
      rw [Node.inFunction_child ha, Bool.or_eq_true, hfun]
  rw [Nat.zero_add] at hrow
  have hparts := (passes_front ha hinit hfun).bind (hrow.bind (passes_behind ha))
  refine ⟨hparts.le, fun c hc => ?_⟩
  have hempty : c.scopes.isEmpty = (root.enclosing (q ++ [i])).isEmpty := by
    rw [Bool.eq_iff_iff, List.isEmpty_iff_length_eq_zero, List.isEmpty_iff_length_eq_zero,
      hc.scopes.length_eq]
  rw [Node.run_check, hempty]
  exact hparts.run c hc
termination_by sizeOf n
decreasing_by exact Node.sizeOf_lt_of_mem_children hm

end Check

namespace Program

/-- What there is to find in a program is found at its statements, or behind them. -/
theorem position_of_finds {settings : ScopeSettings} {known : List Text} {p : Program} {o : Finding}
    (h : (Node.program p).Finds settings known o) : [0] ≤ o.position ∧ o.position < [p.length] := by
  have hbelow {a : Address} {n : Node} (ha : (Node.program p).at? a = some n) (hn : n ≠ .program p) :
      ∃ j < p.length, ∃ e, a = j :: e := by
    cases a with
    | nil => exact absurd (Option.some.inj ha).symm hn
    | cons j e =>
      obtain ⟨c, hc, -⟩ := Option.bind_eq_some_iff.1 ha
      obtain ⟨hj, -⟩ := List.getElem?_eq_some_iff.1 hc
      exact ⟨j, by simpa [Node.children] using hj, e, rfl⟩
  obtain ⟨j, hj, e, he⟩ : ∃ j < p.length, ∃ e, o.position = j :: e := by
    rcases h.position_cases with ⟨n, ha, hn⟩ | ⟨b, n, hb, hn, he⟩
    · refine hbelow ha ?_
      rintro rfl
      cases hn
    · obtain ⟨j, hj, e, rfl⟩ := hbelow hb (by rintro rfl; cases hn)
      exact ⟨j, hj, e ++ [n.children.length], he⟩
  rw [he]
  refine ⟨not_lt.1 fun hlt => ?_, List.cons_lt_cons_iff.2 (.inl hj)⟩
  rcases List.cons_lt_cons_iff.1 hlt with hlt | ⟨-, hlt⟩
  · exact Nat.not_lt_zero j hlt
  · exact List.not_lt_nil e hlt

/-- In front of a program nothing has been noted but the names that exist before. -/
theorem noted_start (p : Program) (predefined : List Text) :
    Check.NotedAt (.program p) predefined ((Node.program p).enclosing [0]) [0] ⟨[], predefined, []⟩ := by
  have hroot : (Node.program p).at? [] = some (.program p) := rfl
  rw [show (Node.program p).enclosing [0] = [] from Node.enclosing_position hroot 0]
  refine ⟨.nil, fun x => (or_iff_left ?_).symm⟩
  rintro ⟨d, ⟨⟨n, hn, hx⟩, -⟩, hlt, -⟩
  obtain rfl : d = [] := (Node.lt_snoc_zero_iff d []).1 hlt |>.resolve_left (List.not_lt_nil d)
  obtain rfl : Node.program p = n := Option.some.inj hn
  cases hx

/-- **The issues of a program.** They are what there is to find in the program, in the order of the
positions. -/
theorem issues_account (settings : ScopeSettings) (p : Program) :
    ∃ os : List Finding, os.Pairwise Finding.Precedes ∧
      (∀ o, o ∈ os ↔ (Node.program p).Finds settings (settings.predefined ++ p.globals) o) ∧
      p.issues settings = os.map Finding.issue := by
  have hroot : (Node.program p).at? [] = some (.program p) := rfl
  have hinit : Check.Initializing (.program p) none [] := fun x =>
    iff_of_false nofun fun ⟨v, hv, _⟩ => hv.2.1 (List.prefix_nil.1 hv.1)
  have hwalk : Check.Passes (.program p) settings (settings.predefined ++ p.globals)
      (Stmt.checkAll settings (settings.predefined ++ p.globals) false p) [0] [p.length] := by
    have hrow : Check.Passes (.program p) settings (settings.predefined ++ p.globals)
        (Node.checkAll settings (settings.predefined ++ p.globals) none false (p.map .stmt)) ([] ++ [0])
        ([] ++ [0 + (p.map Node.stmt).length]) := by
      refine Check.passes_checkAll _ 0 (fun k m hk => ?_) fun m _ k hk => ?_
      · rw [Nat.zero_add, Node.at?_snoc, hroot]
        exact hk
      · refine Check.passes_check m [] k none false hk (Node.initializing_child hroot hinit k) ?_
        rw [Node.inFunction_child hroot]
        exact iff_of_false nofun fun hin => hin.elim nofun fun ⟨b, hb, _⟩ => List.not_mem_nil hb
    rwa [Node.checkAll_stmt, List.length_map, Nat.zero_add] at hrow
  obtain ⟨-, os, hissues, hordered, hmem⟩ := hwalk.run _ (noted_start p settings.predefined)
  refine ⟨os, hordered, fun o => (hmem o).trans ?_, hissues.trans (List.nil_append _)⟩
  exact and_iff_left_of_imp position_of_finds

/-! ## What is reported -/

/-- The diagnostics of one kind are what there is to find of that kind. -/
theorem exists_findings (settings : ScopeSettings) (p : Program) (kind : Diagnostic → Bool) :
    ∃ os : List Finding, os.Pairwise Finding.Precedes ∧
      (∀ o, o ∈ os ↔ (Node.program p).Finds settings (settings.predefined ++ p.globals) o ∧
        kind o.issue.diagnostic = true) ∧
      ((Program.resolve settings p).2.map ScopeIssue.diagnostic).filter kind =
        os.map (·.issue.diagnostic) := by
  obtain ⟨os, hordered, hmem, hissues⟩ := issues_account settings p
  refine ⟨os.filter fun o => kind o.issue.diagnostic, hordered.filter _, fun o => ?_, ?_⟩
  · rw [List.mem_filter, hmem]
  · rw [Program.resolve, hissues, List.map_map, List.filter_map]
    rfl

/-- **The errors of a program.** They are the mistakes in it, each of them once. -/
theorem resolve_errors (settings : ScopeSettings) (p : Program) :
    ∃ os : List Finding, os.Pairwise Finding.Precedes ∧
      (∀ o, o ∈ os ↔ (Node.program p).Mistake settings.predefined o) ∧
      ((Program.resolve settings p).2.map ScopeIssue.diagnostic).filter (·.severity = .error) =
        os.map (·.issue.diagnostic) := by
  obtain ⟨os, hordered, hmem, hdiagnostics⟩ := exists_findings settings p (·.severity = .error)
  refine ⟨os, hordered, fun o => (hmem o).trans ?_, hdiagnostics⟩
  constructor
  · rintro ⟨hmistake | ⟨-, scope, hunused⟩ | hundeclared, herror⟩
    · exact hmistake
    · cases hunused
      cases herror
    · cases hundeclared <;> cases herror
  · intro hmistake
    refine ⟨.inl hmistake, ?_⟩
    cases hmistake <;> rfl

/-- **The unused names of a program.** If the settings ask for them, the first declarations in scopes to
which no reference leads are reported, each of them once: those of one scope in their order, and no scope
before one inside of it. -/
theorem resolve_unused (predefined : List Text) (p : Program) :
    ∃ os : List Finding,
      (os.Pairwise fun o o' => ∀ scope scope', (Node.program p).Unused scope o →
        (Node.program p).Unused scope' o' →
          (scope = scope' → o.part < o'.part) ∧ scope ∉ (Node.program p).enclosing scope') ∧
      (∀ o, o ∈ os ↔ ∃ scope, (Node.program p).Unused scope o) ∧
      ((Program.resolve ⟨true, predefined⟩ p).2.map ScopeIssue.diagnostic).filter
          (·.code = .unusedVariable) = os.map (·.issue.diagnostic) := by
  obtain ⟨os, hordered, hmem, hdiagnostics⟩ :=
    exists_findings ⟨true, predefined⟩ p (·.code = .unusedVariable)
  refine ⟨os, hordered.imp fun hlt scope scope' ho ho' => ?_, fun o => (hmem o).trans ?_, hdiagnostics⟩
  · refine ⟨fun he => ho.part_lt (he ▸ ho') hlt, fun hin => ?_⟩
    have hbefore := ho.position_lt ho' hin
    rcases hlt with hlt | ⟨he, -⟩
    · exact lt_asymm hlt hbefore
    · exact lt_irrefl _ (he ▸ hbefore)
  · constructor
    · rintro ⟨hmistake | ⟨-, scope, hunused⟩ | hundeclared, hcode⟩
      · cases hmistake <;> cases hcode
      · exact ⟨scope, hunused⟩
      · cases hundeclared <;> cases hcode
    · rintro ⟨scope, hunused⟩
      refine ⟨.inr (.inl ⟨rfl, scope, hunused⟩), ?_⟩
      cases hunused
      rfl

end Program

end Lox
