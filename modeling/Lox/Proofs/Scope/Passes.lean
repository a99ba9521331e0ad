import Lox.Proofs.Scope.Walk

/-!
# The two ends of a node

`Check.Passes` says of a step of the check that it leads from one position to another and reports what there
is to find in between. What the check does in front of the children of a node leads from the node to its
first child (`Check.passes_front`), and what it does behind them leads to what follows the node
(`Check.passes_behind`).
-/

namespace Lox

namespace Check

/-- From a position on, the check leads to another one and reports what there is to find in between. -/
structure Passes (root : Node) (settings : ScopeSettings) (known : List Text) (x : Check Unit)
    (p p' : Address) : Prop where
  le : p ≤ p'
  run : ∀ c, NotedAt root settings.predefined (root.enclosing p) p c →
    NotedAt root settings.predefined (root.enclosing p') p' (x.run c).2 ∧
      Reports c.issues (x.run c).2.issues (root.FindsBetween settings known p p')

variable {root n : Node} {settings : ScopeSettings} {known : List Text} {p q r a : Address}
  {c : Checked} {x y : Check Unit}

theorem Passes.bind (hx : Passes root settings known x p q) (hy : Passes root settings known y q r) :
    Passes root settings known (x >>= fun _ => y) p r := by
  refine ⟨le_trans hx.le hy.le, fun c hc => ?_⟩
  obtain ⟨hq, hreports⟩ := hx.run c hc
  obtain ⟨hr, hreports'⟩ := hy.run _ hq
  refine ⟨hr, (hreports.append hreports' fun o o' ho ho' => .inl ?_).congr fun o => ?_⟩
  · exact lt_of_lt_of_le ho.2.2 ho'.2.1
  · exact (Node.findsBetween_iff_or hx.le hy.le o).symm

/-- A report is what is to be found in front of a node. -/
theorem Reports.front {issues issues' : List ScopeIssue} {P : Finding → Prop}
    (h : Reports issues issues' P) (hP : ∀ o, P o ↔ root.Finds settings known o ∧ o.position = a) :
    Reports issues issues' (root.FindsBetween settings known a (a ++ [0])) :=
  h.congr fun o => (hP o).trans (Node.findsBetween_front_iff a o).symm

theorem le_front (a : Address) : a ≤ a ++ [0] := le_of_lt (Node.lt_append a 0 [])

theorem le_behind (q : Address) (i j : Nat) : q ++ [i] ++ [j] ≤ q ++ [i + 1] :=
  le_of_lt ((Node.lt_snoc_succ_iff _ q i).2 (.inr (List.prefix_append _ _)))

/-! ## In front of the children -/

/-- What is complete in front of the children of a node: what was so in front of the node, and what the
node declares itself, unless it is a variable. -/
theorem completed_front_iff (ha : root.at? a = some n) (d : Address) :
    d < a ++ [0] ∧ ¬root.InInitializer d (a ++ [0]) ↔
      (d < a ∧ ¬root.InInitializer d a) ∨ d = a ∧ ¬∃ name e, n = .stmt (.var name e) := by
  rw [Node.completeBefore_snoc_iff ha, Node.Passed, Node.completed_eq_iff]
  exact or_iff_left fun ⟨j, hj, _⟩ => absurd hj (Nat.not_lt_zero j)

theorem enclosing_front (ha : root.at? a = some n) (hn : n.isScope = false) (j : Nat) :
    root.enclosing (a ++ [j]) = root.enclosing a := by
  rw [Node.enclosing_position ha, Node.inside, if_neg (by rw [hn]; exact Bool.false_ne_true)]
  rfl

theorem enclosing_scope (ha : root.at? a = some n) (hn : n.isScope = true) (j : Nat) :
    root.enclosing (a ++ [j]) = a :: root.enclosing a := by
  rw [Node.enclosing_position ha, Node.inside, if_pos hn]
  rfl

/-- Nothing happens in front of most nodes. -/
theorem passes_front_nil (ha : root.at? a = some n) (htrace : n.leavesTrace = false)
    (hnoted : n.notedInFront = false) (hscope : n.isScope = false) :
    Passes root settings known (pure ()) a (a ++ [0]) := by
  refine ⟨le_front a, fun c hc => ⟨?_, reports_none (Node.not_findsBetween_front ha hnoted)⟩⟩
  rw [enclosing_front ha hscope]
  exact hc.enter ha htrace

theorem passes_front_block {body : List Stmt} {loc : Location}
    (ha : root.at? a = some (.stmt (.block body loc))) :
    Passes root settings known openScope a (a ++ [0]) := by
  refine ⟨le_front a, fun c hc => ?_⟩
  obtain ⟨hnoted, hissues⟩ := (hc.enter ha rfl).openBlock ha
  rw [enclosing_scope ha rfl]
  rw [hissues]
  exact ⟨hnoted, reports_none (Node.not_findsBetween_front ha rfl)⟩

theorem passes_front_var {name : Name} {e : Option Expr}
    (ha : root.at? a = some (.stmt (.var name e))) :
    Passes root settings known (declare name false) a (a ++ [0]) := by
  refine ⟨le_front a, fun c hc => ?_⟩
  obtain ⟨hnoted, hreports⟩ := hc.declare ha rfl
  rw [enclosing_front ha rfl]
  refine ⟨hnoted.congr (fun _ _ _ _ => Iff.rfl) fun d _ _ _ => ?_, hreports.front fun o => ?_⟩
  · rw [completed_front_iff ha]
    exact or_iff_left fun ⟨_, hnot⟩ => hnot ⟨name, e, rfl⟩
  · rw [Node.finds_front_iff ha nofun, ← and_assoc, and_iff_left_iff_imp, Node.mistake_at_iff ha]
    -- a variable has no parameters
    rintro (⟨_, _, he, -⟩ | ⟨_, -, -, rfl⟩ | ⟨_, _, _, he, -⟩ | ⟨_, _, he, -⟩)
    · cases he
    · rfl
    · cases he
    · cases he

theorem passes_front_function {name : Name} {params : List Name} {body : List Stmt}
    (ha : root.at? a = some (.stmt (.function name params body))) :
    Passes root settings known (do
      declare name false
      define name.text
      openScope
      params.forM fun param => do
        declare param true
        define param.text) a (a ++ [0]) := by
  refine ⟨le_front a, fun c hc => ?_⟩
  obtain ⟨hdeclare, hreports⟩ := hc.declare ha rfl
  obtain ⟨hdefine, hsame⟩ := hdeclare.define ha rfl
  obtain ⟨hopen, hreports'⟩ := hdefine.openFunction ha
  rw [hsame] at hreports'
  rw [enclosing_scope ha rfl]
  refine ⟨hopen.congr (fun _ _ _ _ => Iff.rfl) fun d _ _ _ => ?_,
    (hreports.append hreports' ?_).front fun o => ?_⟩
  · rw [completed_front_iff ha]
    exact or_congr_right (and_iff_left nofun)
  · rintro o o' ⟨-, hposition, hpart⟩ ⟨-, hposition', hpart'⟩
    obtain ⟨i, rest, hcons⟩ := List.exists_cons_of_ne_nil hpart'
    rw [Finding.Precedes, hposition, hposition', hpart, hcons]
    exact .inr ⟨rfl, List.nil_lt_cons i rest⟩
  · rw [Node.finds_front_iff ha nofun]
    by_cases hpart : o.part = [] <;> simp [hpart]

/-- A return is outside of all functions if no function is around it. -/
theorem passes_front_return {e : Option Expr} {loc : Location} {inFunction : Bool}
    (ha : root.at? a = some (.stmt (.returnStmt e loc)))
    (hfun : inFunction = true ↔ root.InFunction a) :
    Passes root settings known (if !inFunction then note .returnOutsideFunction loc else pure ())
      a (a ++ [0]) := by
  have hmistake (o : Finding) : root.Finds settings known o ∧ o.position = a ↔
      ¬root.InFunction a ∧ o = ⟨a, [], .returnOutsideFunction, loc⟩ := by
    rw [Node.finds_front_iff ha nofun, Node.mistake_at_iff ha]
    simp [Node.declaredName?]
  refine ⟨le_front a, fun c hc => ?_⟩
  rw [enclosing_front ha rfl]
  have henter := hc.enter ha rfl
  cases inFunction with
  | true =>
    refine ⟨henter, Reports.front (reports_none fun o ho => ho.1 (hfun.1 rfl)) fun o => (hmistake o).symm⟩
  | false =>
    have hout : ¬root.InFunction a := fun hin => Bool.false_ne_true (hfun.2 hin)
    refine ⟨⟨henter.scopes, henter.defined⟩, Reports.front
      (reports_one ⟨a, [], .returnOutsideFunction, loc⟩ fun o => and_iff_right hout)
      fun o => (hmistake o).symm⟩

/-! ### References -/

variable {name : Name} {d : Option Nat} {initializing : Option Text}

/-- What the check does with a name that is read, besides looking whether it is being initialized. -/
def lookUp (known : List Text) (initializing : Option Text) (name : Name) : Check Unit := do
  if ← isLocal name.text then
    modify fun c => { c with scopes := markUsed name.text c.scopes }
  else if initializing = some name.text && !(← get).defined.contains name.text then
    note (.globalReadInInitializer name.text) name.loc
  else if !known.contains name.text then
    note (.undeclaredVariable name.text) name.loc

theorem run_lookUp (known : List Text) (initializing : Option Text) (name : Name) (c : Checked) :
    (lookUp known initializing name).run c =
      ((), if c.scopes.any (·.declares name.text) then
          { c with scopes := markUsed name.text c.scopes }
        else if initializing = some name.text && !c.defined.contains name.text then
          { c with issues := c.issues ++ [⟨.globalReadInInitializer name.text, name.loc⟩] }
        else if !known.contains name.text then
          { c with issues := c.issues ++ [⟨.undeclaredVariable name.text, name.loc⟩] }
        else c) := by
  have hlocal : (isLocal name.text).run c = (c.scopes.any (·.declares name.text), c) := rfl
  rw [lookUp, StateT.run_bind, hlocal]
  show StateT.run (ite _ _ _) c = _
  split
  · rfl
  · show StateT.run (ite _ _ _) c = _
    split
    · rfl
    · split <;> rfl

theorem run_reference (known : List Text) (initializing : Option Text) (name : Name) (d : Option Nat)
    (c : Checked) :
    ((Expr.reference name d).check known initializing).run c =
      (lookUp known initializing name).run
        (if ((c.scopes.head?.bind (·.find? name.text)).map (!·.initialized)).getD false then
          { c with issues := c.issues ++ [⟨.localReadInInitializer name.text, name.loc⟩] } else c) := by
  have hfirst : (isInitializing name.text).run c =
      (((c.scopes.head?.bind (·.find? name.text)).map (!·.initialized)).getD false, c) := rfl
  rw [Expr.check, StateT.run_bind, hfirst]
  show StateT.run (ite _ _ _) c = _
  split <;> rfl

/-- An expression declares nothing, so nothing else is complete in front of its children. -/
theorem Noted.complete_front {e : Expr} {scopes : List Address}
    (h : NotedAt root settings.predefined scopes a c) (ha : root.at? a = some (.expr e)) :
    Noted root settings.predefined (· < a) (fun d => d < a ++ [0] ∧ ¬root.InInitializer d (a ++ [0]))
      scopes c := by
  have hcomplete {d : Address} (hd : d ≠ a) :
      d < a ++ [0] ∧ ¬root.InInitializer d (a ++ [0]) ↔ d < a ∧ ¬root.InInitializer d a := by
    rw [completed_front_iff ha]
    exact or_iff_left fun he => hd he.1
  refine ⟨h.scopes.imp fun scope ds hds => ?_, fun x => ?_⟩
  · refine hds.congr (fun x d hd => ⟨Iff.rfl, hcomplete ?_⟩) fun _ _ _ => Iff.rfl
    rintro rfl
    exact not_declaredAt_expr ha hd
  · rw [h.defined]
    refine or_congr_right (exists_congr fun d => and_congr_right ?_)
    rintro ⟨⟨m, hm, hx⟩, -⟩
    refine (hcomplete ?_).symm
    rintro rfl
    rw [ha] at hm
    rw [← Option.some.inj hm] at hx
    cases hx

theorem not_isDistance_none_of_initializesLocal {x : Text} (h : root.InitializesLocal x a) :
    ¬root.IsDistance a x none := by
  obtain ⟨scope, v, hv, hfirst, -⟩ := h
  intro hnone
  have hscope : scope ∈ root.enclosing a := hv.enclosing_eq ▸ List.mem_of_mem_head? hfirst.2
  exact hnone scope hscope (.inr ⟨v, hfirst, le_of_lt hv.lt⟩)

theorem isDistance_none_of_initializesGlobal {predefined : List Text} {x : Text}
    (h : root.InitializesGlobal predefined x a) : root.IsDistance a x none := by
  obtain ⟨v, hv, ⟨-, hglobal⟩, -⟩ := h
  intro scope hscope
  rw [hv.enclosing_eq, hglobal] at hscope
  cases hscope

/-- The first thing that is reported at a reference. -/
theorem Noted.readFirst (hc : NotedAt root settings.predefined (root.enclosing a) a c) (name : Name) :
    ∃ c' : Checked, c' =
        (if ((c.scopes.head?.bind (·.find? name.text)).map (!·.initialized)).getD false then
          { c with issues := c.issues ++ [⟨.localReadInInitializer name.text, name.loc⟩] } else c) ∧
      NotedAt root settings.predefined (root.enclosing a) a c' ∧
      Reports c.issues c'.issues fun o => root.InitializesLocal name.text a ∧
        o = ⟨a, [], .localReadInInitializer name.text, name.loc⟩ := by
  have hlocal := hc.isInitializing_iff name.text
  refine ⟨_, rfl, ?_⟩
  split
  · next hfirst =>
    exact ⟨⟨hc.scopes, hc.defined⟩, reports_one ⟨a, [], .localReadInInitializer name.text, name.loc⟩
      fun o => and_iff_right (hlocal.1 hfirst)⟩
  · next hfirst => exact ⟨hc, reports_none fun o ho => hfirst (hlocal.2 ho.1)⟩

/-- Looking up a name marks it in the scope to which the reference leads. -/
theorem Noted.marked (hc : NotedAt root settings.predefined (root.enclosing a) a c)
    (ha : root.at? a = some (.expr (.reference name d))) :
    NotedAt root settings.predefined (root.enclosing a) (a ++ [0])
      { c with scopes := markUsed name.text c.scopes } := by
  have hfront := hc.complete_front ha
  refine ⟨records_markUsed ha hfront.scopes (Node.enclosing_nodup root a) fun scope _ => ?_,
    hfront.defined⟩
  rw [Node.readsFrom_iff ha, and_iff_right rfl]

/-- A name that no scope around it declares is marked nowhere. -/
theorem Noted.unmarked (hc : NotedAt root settings.predefined (root.enclosing a) a c)
    (ha : root.at? a = some (.expr (.reference name d))) (hnone : root.IsDistance a name.text none)
    (issues : List ScopeIssue) :
    NotedAt root settings.predefined (root.enclosing a) (a ++ [0]) { c with issues := issues } := by
  have hfront := hc.complete_front ha
  rw [Node.isDistance_none_iff ha] at hnone
  have hunread (scope : Address) (x : Text) : ¬root.ReadsFrom scope x a := by
    intro hread
    obtain rfl := ((Node.readsFrom_iff ha).1 hread).1
    exact hnone scope hread.mem_enclosing hread.declaresBefore
  refine ⟨hfront.scopes.imp fun scope ds hds => ?_, hfront.defined⟩
  exact hds.pass (fun x => not_declaredAt_expr ha) (hunread scope)

/-- What is reported and noted when a name is looked up. -/
theorem Noted.lookUp (hc : NotedAt root settings.predefined (root.enclosing a) a c)
    (ha : root.at? a = some (.expr (.reference name d))) (hinit : Initializing root initializing a)
    (known : List Text) :
    NotedAt root settings.predefined (root.enclosing a) (a ++ [0])
        ((lookUp known initializing name).run c).2 ∧
      Reports c.issues ((lookUp known initializing name).run c).2.issues fun o =>
        (root.InitializesGlobal settings.predefined name.text a ∧
            o = ⟨a, [], .globalReadInInitializer name.text, name.loc⟩) ∨
          ((root.IsDistance a name.text none ∧
              ¬root.InitializesGlobal settings.predefined name.text a ∧ name.text ∉ known) ∧
            o = ⟨a, [], .undeclaredVariable name.text, name.loc⟩) := by
  have hlocal := hc.isLocal_eq_false_iff ha (fun _ _ _ _ => Iff.rfl) name.text
  have hglobal := hc.initializesGlobal_iff hinit name.text
  have hknown : (!known.contains name.text) = true ↔ name.text ∉ known := by
    rw [Bool.not_eq_true', ← Bool.not_eq_true, List.contains_iff_mem]
  rw [run_lookUp]
  cases hany : c.scopes.any (·.declares name.text) with
  | true =>
    have hnot : ¬root.IsDistance a name.text none := by
      rw [← hlocal, hany]
      exact Bool.noConfusion
    refine ⟨hc.marked ha, reports_none ?_⟩
    rintro o (⟨hinitializes, -⟩ | ⟨⟨hnone, -⟩, -⟩)
    · exact hnot (isDistance_none_of_initializesGlobal hinitializes)
    · exact hnot hnone
  | false =>
    have hnone := hlocal.1 hany
    rw [if_neg Bool.false_ne_true]
    split
    · next hinitializes =>
      rw [hglobal] at hinitializes
      refine ⟨hc.unmarked ha hnone _,
        reports_one ⟨a, [], .globalReadInInitializer name.text, name.loc⟩ fun o => ?_⟩
      rw [and_iff_right hinitializes]
      exact or_iff_left fun ho => ho.1.2.1 hinitializes
    · next hnot =>
      rw [hglobal] at hnot
      split
      · next hnew =>
        rw [hknown] at hnew
        refine ⟨hc.unmarked ha hnone _,
          reports_one ⟨a, [], .undeclaredVariable name.text, name.loc⟩ fun o => ?_⟩
        exact (or_iff_right fun ho => hnot ho.1).trans (and_iff_right ⟨hnone, hnot, hnew⟩)
      · next hnew =>
        rw [hknown] at hnew
        refine ⟨hc.unmarked ha hnone _, reports_none ?_⟩
        rintro o (⟨hinitializes, -⟩ | ⟨⟨-, -, hmem⟩, -⟩)
        · exact hnot hinitializes
        · exact hnew hmem

theorem passes_front_reference (ha : root.at? a = some (.expr (.reference name d)))
    (hinit : Initializing root initializing a) :
    Passes root settings known ((Expr.reference name d).check known initializing) a (a ++ [0]) := by
  refine ⟨le_front a, fun c hc => ?_⟩
  obtain ⟨c', hc', hfirst, hreports⟩ := hc.readFirst name
  obtain ⟨hnoted, hreports'⟩ := hfirst.lookUp ha hinit known
  rw [enclosing_front ha rfl, run_reference, ← hc']
  refine ⟨hnoted, (hreports.append hreports' fun o o' ho ho' => ?_).front
    fun o => (Node.finds_reference_iff ha o).symm⟩
  -- a name that is read in the initializer of a local variable is local
  refine absurd ?_ (not_isDistance_none_of_initializesLocal ho.1)
  rcases ho' with ⟨hglobal, -⟩ | ⟨⟨hnone, -⟩, -⟩
  · exact isDistance_none_of_initializesGlobal hglobal
  · exact hnone

theorem passes_front (ha : root.at? a = some n) (hinit : Initializing root initializing a)
    {inFunction : Bool} (hfun : inFunction = true ↔ root.InFunction a) :
    Passes root settings known (n.checkFront known initializing inFunction) a (a ++ [0]) := by
  cases n with
  | program p => exact passes_front_nil ha rfl rfl rfl
  | expr e =>
    cases e with
    | reference name d => exact passes_front_reference ha hinit
    | literal | grouping | unary | binary | logical | assign | call =>
      exact passes_front_nil ha rfl rfl rfl
  | stmt s =>
    cases s with
    | var name e => exact passes_front_var ha
    | block body loc => exact passes_front_block ha
    | function name params body => exact passes_front_function ha
    | returnStmt e loc => exact passes_front_return ha hfun
    | expression | print | ifThen | ifElse | whileLoop => exact passes_front_nil ha rfl rfl rfl

/-! ## Behind the children -/

variable {i : Nat}

/-- The scopes around what follows a node are those around the node. -/
theorem enclosing_behind (ha : root.at? (q ++ [i]) = some n) :
    root.enclosing (q ++ [i + 1]) = root.enclosing (q ++ [i]) := by
  rw [Node.at?_snoc] at ha
  obtain ⟨m, hq, -⟩ := Option.bind_eq_some_iff.1 ha
  rw [Node.enclosing_position hq, Node.enclosing_position hq]

/-- Nothing happens behind most nodes. -/
theorem passes_behind_nil (ha : root.at? (q ++ [i]) = some n) (hn : ∀ name e, n ≠ .stmt (.var name e))
    (hnoted : n.notedBehind = false) (hscope : n.isScope = false) :
    Passes root settings known (pure ()) (q ++ [i] ++ [n.children.length]) (q ++ [i + 1]) := by
  refine ⟨le_behind q i _, fun c hc => ⟨?_, reports_none (Node.not_findsBetween_behind ha hnoted)⟩⟩
  rw [enclosing_front ha hscope] at hc
  rw [enclosing_behind ha]
  exact hc.leave ha hn

theorem passes_behind_var {e : Option Expr} (ha : root.at? (q ++ [i]) = some (.stmt (.var name e))) :
    Passes root settings known (define name.text)
      (q ++ [i] ++ [(Node.stmt (.var name e)).children.length]) (q ++ [i + 1]) := by
  refine ⟨le_behind q i _, fun c hc => ?_⟩
  rw [enclosing_front ha rfl] at hc
  obtain ⟨hnoted, hissues⟩ := hc.define ha rfl
  rw [enclosing_behind ha, hissues]
  refine ⟨hnoted.congr (fun d m hd _ => Node.lt_behind_iff ha hd) fun d m hd _ => ?_,
    reports_none (Node.not_findsBetween_behind ha rfl)⟩
  rw [Node.lt_behind_iff ha hd, Node.inInitializer_snoc_iff (q ++ [i]), Node.inInitializer_snoc_iff q (i + 1),
    ← Node.inInitializer_snoc_iff q i]
  have hself : d = q ++ [i] → d < q ++ [i] ++ [(Node.stmt (.var name e)).children.length] ∧
      ¬root.InInitializer d (q ++ [i]) := by
    rintro rfl
    exact ⟨Node.lt_append _ _ _, fun hin => hin.2.1 rfl⟩
  have hvar : ∃ name e, root.at? (q ++ [i]) = some (.stmt (.var name e)) := ⟨name, e, ha⟩
  tauto

/-- A scope is closed when all of its declarations, and all that is read in it, have been passed. -/
theorem passes_behind_scope (ha : root.at? (q ++ [i]) = some n) (hscope : n.isScope = true) :
    Passes root settings known (closeScope settings) (q ++ [i] ++ [n.children.length])
      (q ++ [i + 1]) := by
  refine ⟨le_behind q i _, fun c hc => ?_⟩
  have hbelow {b : Address} {m : Node} (hb : root.at? b = some m)
      (hin : q ++ [i] ∈ root.enclosing b) : b < q ++ [i] ++ [n.children.length] := by
    rw [← Node.lt_behind_iff ha hb]
    exact (Node.lt_snoc_succ_iff _ q i).2 (.inr (Node.prefix_of_mem_enclosing hin).1)
  rw [enclosing_scope ha hscope] at hc
  obtain ⟨hnoted, hreports⟩ := hc.close settings ha
    (fun x d ⟨⟨m, hd, _⟩, hhead⟩ => hbelow hd (List.mem_of_mem_head? hhead))
    fun x b hb => hbelow hb.choose_spec.choose_spec.1 hb.mem_enclosing
  rw [enclosing_behind ha]
  refine ⟨Noted.leave hnoted ha ?_, hreports.congr fun o => ?_⟩
  · rintro name e rfl
    cases hscope
  · rw [Node.findsBetween_behind_iff ha, Node.finds_behind_scope_iff ha hscope]

theorem passes_behind_assign {e : Expr}
    (ha : root.at? (q ++ [i]) = some (.expr (.assign name d e))) :
    Passes root settings known (do
      if !(← isLocal name.text) && !known.contains name.text then
        note (.undeclaredVariable name.text) name.loc) (q ++ [i] ++ [1]) (q ++ [i + 1]) := by
  refine ⟨le_behind q i 1, fun c hc => ?_⟩
  rw [enclosing_front ha rfl] at hc
  have hlocal := hc.isLocal_eq_false_iff ha (fun _ _ _ hd => lt_snoc_iff_of_declaredAt ha hd 1) name.text
  have hnoted : NotedAt root settings.predefined (root.enclosing (q ++ [i])) (q ++ [i + 1]) c :=
    Noted.leave (n := .expr (.assign name d e)) hc ha nofun
  have hrun : (do
      if !(← isLocal name.text) && !known.contains name.text then
        note (.undeclaredVariable name.text) name.loc : Check Unit).run c =
      ((), if !c.scopes.any (·.declares name.text) && !known.contains name.text then
        { c with issues := c.issues ++ [⟨.undeclaredVariable name.text, name.loc⟩] } else c) := by
    show StateT.run (ite _ _ _) c = _
    split <;> rfl
  have hundeclared : (!c.scopes.any (·.declares name.text) && !known.contains name.text) = true ↔
      root.IsDistance (q ++ [i]) name.text none ∧ name.text ∉ known := by
    rw [Bool.and_eq_true, Bool.not_eq_true', hlocal, Bool.not_eq_true', ← Bool.not_eq_true,
      List.contains_iff_mem]
  have hfinds (o : Finding) :
      root.FindsBetween settings known (q ++ [i] ++ [1]) (q ++ [i + 1]) o ↔
        (root.IsDistance (q ++ [i]) name.text none ∧ name.text ∉ known) ∧
          o = ⟨q ++ [i] ++ [1], [], .undeclaredVariable name.text, name.loc⟩ :=
    (Node.findsBetween_behind_iff ha o).trans (Node.finds_behind_assign_iff ha o)
  rw [hrun, enclosing_behind ha]
  split
  · next hnew =>
    refine ⟨⟨hnoted.scopes, hnoted.defined⟩,
      reports_one ⟨q ++ [i] ++ [1], [], .undeclaredVariable name.text, name.loc⟩ fun o => ?_⟩
    exact (hfinds o).trans (and_iff_right (hundeclared.1 hnew))
  · next hold =>
    exact ⟨hnoted, reports_none fun o ho => hold (hundeclared.2 ((hfinds o).1 ho).1)⟩

theorem passes_behind (ha : root.at? (q ++ [i]) = some n) :
    Passes root settings known (n.checkBehind settings known) (q ++ [i] ++ [n.children.length])
      (q ++ [i + 1]) := by
  cases n with
  | program p => exact passes_behind_nil ha nofun rfl rfl
  | expr e =>
    cases e with
    | assign name d e => exact passes_behind_assign ha
    | literal | grouping | unary | binary | logical | reference | call =>
      exact passes_behind_nil ha nofun rfl rfl
  | stmt s =>
    cases s with
    | var name e => exact passes_behind_var ha
    | block | function => exact passes_behind_scope ha rfl
    | expression | print | ifThen | ifElse | whileLoop | returnStmt =>
      exact passes_behind_nil ha nofun rfl rfl

end Check

end Lox
