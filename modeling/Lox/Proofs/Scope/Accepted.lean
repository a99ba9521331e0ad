import Lox.Proofs.Grammar.Nodes
import Lox.Proofs.Scope.Check

/-!
# Accepted programs

What running a program relies on. In the trees that the parser makes only declarations declare
something in the scope around them, so there the names hoisted are those declared. If resolving finds
no error, every name that is read at a distance has a complete declaration in the scope there
(`accepted_resolve`): in the innermost scope because of the check, further out because there all
declarations are complete.
-/

namespace Lox

/-! ## Only declarations declare -/

/-- What the statements below a node declare in the scope around them they declare themselves, so
branches and bodies declare nothing there. -/
def Node.DeclaresDirectly (n : Node) : Prop :=
  ∀ a s, n.at? a = some (.stmt s) → s.hoisted = s.declared?.toList

/-- A statement made by rules that declares nothing hoists nothing, as its branches and its body declare
nothing. -/
theorem Stmt.hoisted_eq_nil {ts : List Token} (s : Stmt) (h : (Node.stmt s).AllByRule ts)
    (hs : s.declared? = none) : s.hoisted = [] := by
  have hrule : (Node.stmt s).ByRule ts := h [] _ rfl
  match s with
  | .var _ _ | .function _ _ _ => cases hs
  | .expression _ _ | .print _ _ | .block _ _ | .returnStmt _ _ => rfl
  | .ifThen c branch loc =>
    cases hrule with
    | ifThen hbranch =>
      exact hoisted_eq_nil branch (h.child (by simp [Node.children, children])) hbranch
  | .ifElse c branch otherwise loc =>
    cases hrule with
    | ifElse hbranch hotherwise =>
      have hb := hoisted_eq_nil branch (h.child (by simp [Node.children, children])) hbranch
      have ho := hoisted_eq_nil otherwise (h.child (by simp [Node.children, children])) hotherwise
      rw [hoisted, hb, ho, List.append_nil]
  | .whileLoop c body loc =>
    cases hrule with
    | whileLoop hbody => exact hoisted_eq_nil body (h.child (by simp [Node.children, children])) hbody

theorem Node.AllByRule.declaresDirectly {ts : List Token} {n : Node} (h : n.AllByRule ts) :
    n.DeclaresDirectly := by
  intro a s hat
  cases s with
  | var | function => rfl
  | _ => exact Stmt.hoisted_eq_nil _ (h.below hat) rfl

/-! ## Contexts of bound programs -/

theorem Stmt.hoisted_bind (scopes : OpenScopes) (s : Stmt) :
    (s.bind scopes).1.hoisted = s.hoisted := by
  cases s with
  | ifThen _ branch => simp only [bind, hoisted, hoisted_bind _ branch]
  | ifElse _ branch otherwise =>
    simp only [bind, hoisted, hoisted_bind _ branch, hoisted_bind _ otherwise]
  | whileLoop _ body => simp only [bind, hoisted, hoisted_bind _ body]
  | _ => rfl

theorem Stmt.declared?_bind (scopes : OpenScopes) (s : Stmt) :
    (s.bind scopes).1.declared? = s.declared? := by
  cases s <;> rfl

theorem Stmt.flatMap_hoisted_bindAll (scopes : OpenScopes) (body : List Stmt) :
    (bindAll scopes body).1.flatMap hoisted = body.flatMap hoisted := by
  induction body generalizing scopes with
  | nil => rfl
  | cons s rest ih => simp only [bindAll, List.flatMap_cons, hoisted_bind, ih]

namespace Node

theorem hoisted_bind (scopes : OpenScopes) (n : Node) : (n.bind scopes).hoisted = n.hoisted := by
  cases n with
  | program p => exact Stmt.flatMap_hoisted_bindAll scopes p
  | stmt s => exact s.hoisted_bind scopes
  | expr e => rfl

theorem map_hoisted_children_bind (n : Node) (ctx : Context) :
    (n.bind ctx.visible).children.map hoisted = n.children.map hoisted := by
  refine List.ext_getElem? fun i => ?_
  rw [List.getElem?_map, List.getElem?_map, getElem?_children_bind, Option.map_map]
  congr 1
  funext c
  exact c.hoisted_bind _

/-- Binding does not change what is known of the names in front of a child. -/
theorem enter_bind (n : Node) (ctx : Context) (i : Nat) :
    (n.bind ctx.visible).enter ctx i = n.enter ctx i := by
  have hscope : (n.bind ctx.visible).isScope = n.isScope := by
    cases n with
    | stmt s => cases s <;> rfl
    | _ => rfl
  have hdeclared : (n.bind ctx.visible).declared? = n.declared? := by
    cases n with
    | stmt s => cases s <;> rfl
    | _ => rfl
  have hcompleted : (n.bind ctx.visible).completed = n.completed := by
    cases n with
    | stmt s => cases s <;> rfl
    | _ => rfl
  have hparameters : (n.bind ctx.visible).parameters = n.parameters := by
    cases n with
    | stmt s => cases s <;> rfl
    | _ => rfl
  unfold enter opened
  simp only [hscope, hdeclared, hcompleted, hparameters, List.flatMap_def, List.map_take,
    map_hoisted_children_bind]

end Node

namespace Point

variable {root n n' : Node} {start ctx ctx' : Context} {a : Address}

/-- The places of a bound program have the contexts of the program. -/
theorem bind (h : Point root start a n ctx) :
    Point (root.bind start.visible) start a (n.bind ctx.visible) ctx := by
  induction h with
  | root => exact .root
  | @child a n c ctx i hp hc ih =>
    have hchild : (n.bind ctx.visible).children[i]? = some (c.bind (n.enter ctx i).visible) := by
      rw [Node.getElem?_children_bind, hc]
      rfl
    rw [← n.enter_bind] at hchild ⊢
    exact ih.child hchild

theorem unique (h : Point root start a n ctx) (h' : Point root start a n' ctx') :
    n = n' ∧ ctx = ctx' := by
  induction h generalizing n' ctx' with
  | root =>
    generalize hnil : ([] : Address) = b at h'
    cases h' with
    | root => exact ⟨rfl, rfl⟩
    | child => simp at hnil
  | @child a n c ctx i hp hc ih =>
    generalize hsnoc : a ++ [i] = b at h'
    cases h' with
    | root => simp at hsnoc
    | @child b m c' ctx' j hp' hc' =>
      obtain ⟨rfl, hij⟩ := List.append_inj' hsnoc rfl
      obtain rfl := List.singleton_inj.1 hij
      obtain ⟨rfl, rfl⟩ := ih hp'
      rw [hc] at hc'
      exact ⟨Option.some.inj hc', rfl⟩

/-- Every place of a bound program is a place of the program. -/
theorem of_bind (h : Point (root.bind start.visible) start a n' ctx) :
    ∃ n, Point root start a n ctx ∧ n' = n.bind ctx.visible := by
  obtain ⟨n, ctx', hp, rfl⟩ := Node.exists_point_of_at?_bind h.at?
  obtain ⟨-, rfl⟩ := h.unique hp.bind
  exact ⟨n, hp, rfl⟩

end Point

/-! ## Names that are read are complete -/

/-- Every name declared so far is complete. -/
def Context.Settled (ctx : Context) : Prop :=
  ∀ scope ∈ ctx, ∀ x ∈ scope.visible, x ∈ scope.complete

theorem ScopeNames.settled_add {scope : ScopeNames} (names : List Text)
    (h : ∀ x ∈ scope.visible, x ∈ scope.complete) :
    ∀ x ∈ (scope.add names names).visible, x ∈ (scope.add names names).complete := by
  intro x hx
  simp only [add, List.mem_append] at hx ⊢
  exact hx.imp_right (h x)

theorem Context.Settled.declareAll {ctx : Context} (h : ctx.Settled) (names : List Text) :
    (ctx.declareAll names).Settled := by
  cases ctx with
  | nil => exact h
  | cons scope outer =>
    have h := List.forall_mem_cons.1 h
    exact List.forall_mem_cons.2 ⟨ScopeNames.settled_add names h.1, h.2⟩

theorem Context.tail_declareAll (ctx : Context) (names : List Text) :
    (ctx.declareAll names).tail = ctx.tail := by
  cases ctx <;> rfl

namespace Node

/-- A node all of whose children are expressions: an expression or the declaration of a variable. -/
def HoldsExpressions (n : Node) : Prop :=
  (∃ e, n = .expr e) ∨ ∃ name e, n = .stmt (.var name e)

theorem HoldsExpressions.child {n c : Node} (h : n.HoldsExpressions) {i : Nat}
    (hc : n.children[i]? = some c) : ∃ e, c = .expr e := by
  have hmem := List.mem_of_getElem? hc
  rcases h with ⟨e, rfl⟩ | ⟨name, e, rfl⟩
  · obtain ⟨e', _, rfl⟩ := List.mem_map.1 hmem
    exact ⟨e', rfl⟩
  · cases e with
    | none => simp [children, Stmt.children] at hmem
    | some e => exact ⟨e, by simpa [children, Stmt.children] using hmem⟩

/-- Only inside a declared variable there is a name that is not complete. -/
theorem settled_opened {n : Node} {ctx : Context} (htail : Context.Settled ctx.tail)
    (h : (∀ e, n ≠ .expr e) → ctx.Settled) :
    Context.Settled (n.opened ctx).tail ∧ (¬n.HoldsExpressions → (n.opened ctx).Settled) := by
  cases n with
  | program p =>
    have hopened : (Node.program p).opened ctx = ctx := ctx.modifyHead_add_nil
    rw [hopened]
    exact ⟨htail, fun _ => h fun e he => by cases he⟩
  | expr e =>
    rw [opened_expr]
    exact ⟨htail, fun hn => absurd (.inl ⟨e, rfl⟩) hn⟩
  | stmt s =>
    have hctx : ctx.Settled := h fun e he => by cases he
    rw [Stmt.opened_eq]
    cases s with
    | var name e =>
      refine ⟨?_, fun hn => absurd (.inr ⟨name, e, rfl⟩) hn⟩
      cases ctx <;> exact htail
    | block body loc =>
      exact ⟨hctx, fun _ => List.forall_mem_cons.2 ⟨fun x hx => hx, hctx⟩⟩
    | function name params body =>
      have hctx := hctx.declareAll [name.text]
      exact ⟨hctx, fun _ => List.forall_mem_cons.2 ⟨fun x hx => hx, hctx⟩⟩
    | _ => exact ⟨htail, fun _ => hctx⟩

end Node

/-- Names that are declared but not complete are in the innermost scope, and only while the value of
a variable is computed. -/
theorem Point.settled {root n : Node} {a : Address} {ctx : Context} (h : Point root [] a n ctx) :
    Context.Settled ctx.tail ∧ ((∀ e, n ≠ .expr e) → ctx.Settled) := by
  induction h with
  | root => exact ⟨List.forall_mem_nil _, fun _ => List.forall_mem_nil _⟩
  | child _ hc ih =>
    obtain ⟨htail, hall⟩ := Node.settled_opened ih.1 ih.2
    unfold Node.enter
    rw [Context.tail_declareAll]
    refine ⟨htail, fun hn => (hall fun hholds => ?_).declareAll _⟩
    obtain ⟨e, he⟩ := hholds.child hc
    exact hn e he

/-- What running a program relies on: only declarations declare, and a name that is read at a
distance is complete in the scope there. -/
structure Program.Accepted (p : Program) : Prop where
  direct : (Node.program p).DeclaresDirectly
  reads : ∀ {a : Address} {name : Name} {d : Nat} {ctx : Context},
    Point (.program p) [] a (.expr (.reference name (some d))) ctx →
      ∃ scope, ctx[d]? = some scope ∧ name.text ∈ scope.complete

/-- The distance leads to a scope in which the name is visible. -/
theorem exists_visible_of_distance? {ctx : Context} {x : Text} {d : Nat}
    (h : ctx.visible.distance? x = some d) : ∃ scope, ctx[d]? = some scope ∧ x ∈ scope.visible := by
  obtain ⟨hd, hx, _⟩ := List.findIdx?_eq_some_iff_getElem.1 h
  have hd' : d < ctx.length := by simpa [Context.visible] using hd
  exact ⟨ctx[d], List.getElem?_eq_getElem hd', by simpa [Context.visible] using hx⟩

theorem parse_declaresDirectly (ts : List Token) :
    (Node.program (parse ts).program).DeclaresDirectly :=
  (parse_byRule ts).declaresDirectly

theorem resolve_declaresDirectly (settings : ScopeSettings) (ts : List Token) :
    (Node.program (Program.resolve settings (parse ts).program).1).DeclaresDirectly := by
  intro a s hat
  obtain ⟨n, ctx, hp, hn⟩ :=
    @Node.exists_point_of_at?_bind (.program (parse ts).program) _ [] a hat
  cases n with
  | stmt s' =>
    cases hn
    rw [Stmt.hoisted_bind, Stmt.declared?_bind]
    exact parse_declaresDirectly ts a s' hp.at?
  | _ => cases hn

/-- A program that parsing made and that resolving finds no error in is accepted. -/
theorem accepted_resolve (settings : ScopeSettings) (ts : List Token)
    (h : Check.Clean (Program.resolve settings (parse ts).program).2) :
    (Program.resolve settings (parse ts).program).1.Accepted := by
  constructor
  · exact resolve_declaresDirectly settings ts
  · intro a name d ctx hp
    obtain ⟨n, hq, hn⟩ := @Point.of_bind (.program (parse ts).program) _ [] ctx a hp
    cases n with
    | expr e =>
      cases e with
      | reference name' d' =>
        injection hn with hn
        injection hn with hname hd
        subst hname
        obtain ⟨scope, hscope, hx⟩ := exists_visible_of_distance? hd.symm
        refine ⟨scope, hscope, ?_⟩
        cases ctx with
        | nil => simp at hscope
        | cons inner outer =>
          cases d with
          | zero =>
            obtain rfl : inner = scope := by simpa using hscope
            exact Program.completes_of_clean h hq inner rfl hx
          | succ d =>
            have hmem : scope ∈ outer := List.mem_of_getElem? (by simpa using hscope)
            exact hq.settled.1 scope hmem _ hx
      | _ => cases hn
    | _ => cases hn

/-! ## Children of statements -/

/-- The children of a statement that declares nothing and is no scope declare nothing. -/
theorem Stmt.hoisted_children {s : Stmt} (hscope : (Node.stmt s).isScope = false)
    (h : s.hoisted = []) : ∀ c ∈ s.children, c.hoisted = [] := by
  cases s with
  | expression | print => simp [children, Node.hoisted]
  | var | function => cases h
  | block => cases hscope
  | ifThen c branch => simpa [children, Node.hoisted, hoisted] using h
  | ifElse c branch otherwise => simpa [children, Node.hoisted] using List.append_eq_nil_iff.1 h
  | whileLoop c body => simpa [children, Node.hoisted, hoisted] using h
  | returnStmt e => cases e <;> simp [children, Node.hoisted]

/-- Such a statement has its children in its own context. -/
theorem Point.inner {root : Node} {start ctx : Context} {a : Address} {s : Stmt}
    (h : Point root start a (.stmt s) ctx) (hscope : (Node.stmt s).isScope = false)
    (hnone : s.hoisted = []) {i : Nat} {c : Node} (hc : s.children[i]? = some c) :
    Point root start (a ++ [i]) c ctx := by
  have hopened : (Node.stmt s).opened ctx = ctx := by
    rw [Stmt.opened_eq]
    cases s with
    | var | function => cases hnone
    | block => cases hscope
    | _ => rfl
  have hbefore : ((Node.stmt s).children.take i).flatMap Node.hoisted = [] :=
    List.flatMap_eq_nil_iff.2 fun c hc =>
      Stmt.hoisted_children hscope hnone c (List.mem_of_mem_take hc)
  have henter : (Node.stmt s).enter ctx i = ctx := by
    rw [Node.enter, hopened, hbefore, Context.declareAll_nil]
  exact henter ▸ h.child hc

/-- Statements in a row lie behind the declarations of the ones before them. -/
theorem Point.next {root n : Node} {start ctx : Context} {a : Address} {before rest : List Stmt}
    {s : Stmt} (h : Point root start a n ctx)
    (hchildren : n.children = (before ++ s :: rest).map .stmt) :
    Point root start (a ++ [before.length]) (.stmt s)
      ((n.opened ctx).declareAll (before.flatMap Stmt.hoisted)) := by
  have hc : n.children[before.length]? = some (.stmt s) := by
    rw [hchildren, List.getElem?_map, List.getElem?_append_right (Nat.le_refl _), Nat.sub_self]
    rfl
  have henter : n.enter ctx before.length =
      (n.opened ctx).declareAll (before.flatMap Stmt.hoisted) := by
    rw [Node.enter, hchildren, Node.flatMap_hoisted_stmt, List.take_left]
  exact henter ▸ h.child hc

end Lox
