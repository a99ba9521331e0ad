import Lox.Proofs.Scope.Context
import Lox.Proofs.Grammar.Parse

/-!
# Distances count scopes

`Program.bind` goes through a program with the scopes open at each place; every node of what it makes is
a node of the program, bound in the visible names of its context (`Node.exists_point_of_at?_bind`). With
the description of contexts this says what a distance is: the number of scopes between a reference and
the nearest one that declares its name at or before it (`resolve_distance`).
-/

namespace Lox

namespace OpenScopes

/-- Declares names in the innermost scope, one after the other. -/
def declareAll (scopes : OpenScopes) (names : List Text) : OpenScopes :=
  scopes.modifyHead (names.reverse ++ ·)

theorem declare_eq (scopes : OpenScopes) (name : Text) :
    scopes.declare name = scopes.declareAll [name] := by
  cases scopes <;> rfl

@[simp] theorem declareAll_nil (scopes : OpenScopes) : scopes.declareAll [] = scopes := by
  cases scopes <;> rfl

theorem declareAll_append (scopes : OpenScopes) (xs ys : List Text) :
    scopes.declareAll (xs ++ ys) = (scopes.declareAll xs).declareAll ys := by
  cases scopes <;> simp [declareAll]

end OpenScopes

/-- The names declared so far in each scope. -/
def Context.visible (ctx : Context) : OpenScopes := ctx.map ScopeNames.visible

theorem Context.visible_modifyHead (ctx : Context) (vs cs : List Text) :
    Context.visible (ctx.modifyHead (·.add vs cs)) = ctx.visible.declareAll vs := by
  cases ctx <;> rfl

theorem Context.visible_declareAll (ctx : Context) (names : List Text) :
    (ctx.declareAll names).visible = ctx.visible.declareAll names :=
  ctx.visible_modifyHead names names

/-! ## Binding a statement -/

namespace Stmt

/-- Behind a statement the names that it hoists are declared. -/
theorem bind_scopes (s : Stmt) (scopes : OpenScopes) :
    (s.bind scopes).2 = scopes.declareAll s.hoisted := by
  cases s with
  | expression | print | returnStmt => simp [bind, hoisted]
  | var => simp [bind, hoisted, OpenScopes.declare_eq]
  | function => simp [bind, hoisted, OpenScopes.declare_eq]
  | block => simp [bind, hoisted]
  | ifThen c branch => simp [bind, hoisted, bind_scopes branch]
  | ifElse c branch otherwise =>
    simp [bind, hoisted, bind_scopes branch, bind_scopes otherwise, OpenScopes.declareAll_append]
  | whileLoop c body => simp [bind, hoisted, bind_scopes body]

/-- A statement of a row is bound behind the ones before it. -/
theorem getElem?_bindAll (body : List Stmt) (scopes : OpenScopes) (i : Nat) :
    (bindAll scopes body).1[i]? =
      body[i]?.map fun s => (s.bind (scopes.declareAll ((body.take i).flatMap hoisted))).1 := by
  induction body generalizing scopes i with
  | nil => simp [bindAll]
  | cons s rest ih =>
    cases i with
    | zero => simp [bindAll]
    | succ i => simp [bindAll, ih, bind_scopes, OpenScopes.declareAll_append]

end Stmt

theorem Expr.bindAll_eq_map (scopes : OpenScopes) (es : List Expr) :
    Expr.bindAll scopes es = es.map (Expr.bind scopes) := by
  induction es with
  | nil => rfl
  | cons e es ih => simp [Expr.bindAll, ih]

/-! ## Binding a node -/

namespace Node

/-- The node with the distances that it has inside the given scopes. -/
def bind (scopes : OpenScopes) : Node → Node
  | .program p => .program (Stmt.bindAll scopes p).1
  | .stmt s => .stmt (s.bind scopes).1
  | .expr e => .expr (e.bind scopes)

theorem visible_opened (n : Node) (ctx : Context) :
    (n.opened ctx).visible =
      (if n.isScope then [n.parameters] else []) ++ ctx.visible.declareAll n.declared?.toList := by
  unfold opened
  have houter := ctx.visible_modifyHead n.declared?.toList n.completed
  cases n.isScope with
  | false => exact houter
  | true => exact congrArg (n.parameters :: ·) houter

theorem flatMap_hoisted_stmt (body : List Stmt) (i : Nat) :
    ((body.map Node.stmt).take i).flatMap hoisted = (body.take i).flatMap Stmt.hoisted := by
  rw [← List.map_take, List.flatMap_map]
  rfl

theorem flatMap_hoisted_expr (es : List Expr) (i : Nat) :
    ((es.map Node.expr).take i).flatMap hoisted = [] := by
  rw [← List.map_take, List.flatMap_map]
  simp [hoisted]

/-- A list of statements inside the scopes that are open in front of it. -/
theorem getElem?_map_bindAll (body : List Stmt) (scopes : OpenScopes) (i : Nat) :
    ((Stmt.bindAll scopes body).1.map Node.stmt)[i]? =
      (body.map Node.stmt)[i]?.map
        (·.bind (scopes.declareAll (((body.map Node.stmt).take i).flatMap hoisted))) := by
  rw [flatMap_hoisted_stmt, List.getElem?_map, Stmt.getElem?_bindAll, List.getElem?_map]
  cases body[i]? <;> rfl

/-- An expression inside the scopes that are open in front of it. -/
theorem getElem?_map_bind (es : List Expr) (scopes : OpenScopes) (i : Nat) :
    ((es.map (Expr.bind scopes)).map Node.expr)[i]? =
      (es.map Node.expr)[i]?.map
        (·.bind (scopes.declareAll (((es.map Node.expr).take i).flatMap hoisted))) := by
  rw [flatMap_hoisted_expr, OpenScopes.declareAll_nil, List.getElem?_map, List.getElem?_map,
    List.getElem?_map]
  cases es[i]? <;> rfl

theorem children_bind_expr (e : Expr) (scopes : OpenScopes) :
    (e.bind scopes).children = e.children.map (Expr.bind scopes) := by
  cases e <;> simp [Expr.bind, Expr.children, Expr.bindAll_eq_map]

/-- The scopes in front of a child are those that the traversal has open there. -/
theorem getElem?_children_bind (n : Node) (ctx : Context) (i : Nat) :
    (n.bind ctx.visible).children[i]? =
      n.children[i]?.map (·.bind (n.enter ctx i).visible) := by
  unfold enter
  rw [Context.visible_declareAll, visible_opened]
  cases n with
  | program p =>
    have h := getElem?_map_bindAll p ctx.visible i
    simpa [bind, children, isScope, declared?] using h
  | expr e =>
    have h := getElem?_map_bind e.children ctx.visible i
    simpa [bind, children, isScope, declared?, children_bind_expr] using h
  | stmt s =>
    cases s with
    | block body loc =>
      have h := getElem?_map_bindAll body ([] :: ctx.visible) i
      simpa [bind, children, Stmt.children, Stmt.bind, isScope, declared?, Stmt.declared?,
        parameters] using h
    | function name params body =>
      have h := getElem?_map_bindAll body
        (params.map Name.text :: ctx.visible.declareAll [name.text]) i
      simpa [bind, children, Stmt.children, Stmt.bind, isScope, declared?, Stmt.declared?,
        parameters, OpenScopes.declare_eq] using h
    | expression e loc | print e loc =>
      have h := getElem?_map_bind [e] ctx.visible i
      simpa [bind, children, Stmt.children, Stmt.bind, isScope, declared?, Stmt.declared?] using h
    | var name e =>
      have h := getElem?_map_bind e.toList (ctx.visible.declareAll [name.text]) i
      cases e with
      | none => simp [bind, children, Stmt.children, Stmt.bind]
      | some e =>
        simpa [bind, children, Stmt.children, Stmt.bind, isScope, declared?, Stmt.declared?,
          OpenScopes.declare_eq] using h
    | returnStmt e loc =>
      have h := getElem?_map_bind e.toList ctx.visible i
      cases e with
      | none => simp [bind, children, Stmt.children, Stmt.bind]
      | some e =>
        simpa [bind, children, Stmt.children, Stmt.bind, isScope, declared?, Stmt.declared?] using h
    | ifThen c branch loc | whileLoop c body loc =>
      rcases i with _ | _ | i <;>
        simp [bind, children, Stmt.children, Stmt.bind, isScope, declared?, Stmt.declared?, hoisted]
    | ifElse c branch otherwise loc =>
      rcases i with _ | _ | _ | i <;>
        simp [bind, children, Stmt.children, Stmt.bind, isScope, declared?, Stmt.declared?, hoisted,
          Stmt.bind_scopes]

/-- Every node of a bound program is a node of the program, bound in its context. -/
theorem exists_point_of_at?_bind {root n' : Node} {start : Context} {a : Address}
    (h : (root.bind start.visible).at? a = some n') :
    ∃ n ctx, Point root start a n ctx ∧ n' = n.bind ctx.visible := by
  induction a using List.reverseRecOn generalizing n' with
  | nil => exact ⟨root, start, .root, by simpa [at?] using h.symm⟩
  | append_singleton a i ih =>
    rw [at?_snoc] at h
    obtain ⟨m', hm, hc⟩ := Option.bind_eq_some_iff.1 h
    obtain ⟨m, ctx, hp, rfl⟩ := ih hm
    rw [getElem?_children_bind] at hc
    obtain ⟨c, hchild, rfl⟩ := Option.map_eq_some_iff.1 hc
    exact ⟨c, _, hp.child hchild, rfl⟩

/-! ## Distances -/

/-- The index of the first element with a property; none if no element has it. -/
def IsFirst {α : Type} (P : α → Prop) (as : List α) : Option Nat → Prop
  | some k => (∃ a, as[k]? = some a ∧ P a) ∧ ∀ j < k, ∀ a, as[j]? = some a → ¬P a
  | none => ∀ a ∈ as, ¬P a

/-- How many scopes to leave to come from an address to the nearest one that declares the name at or
before it; none if no scope around the address does. -/
def IsDistance (root : Node) (a : Address) (name : Text) (d : Option Nat) : Prop :=
  IsFirst (root.DeclaresBy · name a) (root.enclosing a) d

theorem IsFirst.succ {α : Type} {P : α → Prop} {a : α} {as : List α} {d : Option Nat} (ha : ¬P a)
    (h : IsFirst P as d) : IsFirst P (a :: as) (d.map (· + 1)) := by
  cases d with
  | none => exact List.forall_mem_cons.2 ⟨ha, h⟩
  | some k =>
    obtain ⟨⟨b, hb, hp⟩, hbefore⟩ := h
    refine ⟨⟨b, hb, hp⟩, fun j hj c hc => ?_⟩
    cases j with
    | zero =>
      obtain rfl : a = c := by simpa using hc
      exact ha
    | succ j => exact hbefore j (Nat.lt_of_succ_lt_succ hj) c hc

/-- Lists of names that tell which scopes have a property tell the first one. -/
theorem isFirst_distance? {P : Address → Prop} {scopes : List Address} {names : OpenScopes} {x : Text}
    (h : List.Forall₂ (fun scope ns => P scope ↔ x ∈ ns) scopes names) :
    IsFirst P scopes (names.distance? x) := by
  induction h with
  | nil => exact fun a ha => absurd ha List.not_mem_nil
  | @cons scope ns scopes names hs _ ih =>
    by_cases hx : x ∈ ns
    · have hd : OpenScopes.distance? (ns :: names) x = some 0 := by
        simp [OpenScopes.distance?, List.findIdx?_cons, hx]
      rw [hd]
      exact ⟨⟨scope, rfl, hs.2 hx⟩, fun j hj => absurd hj (Nat.not_lt_zero j)⟩
    · have hd : OpenScopes.distance? (ns :: names) x =
          (OpenScopes.distance? names x).map (· + 1) := by
        simp [OpenScopes.distance?, List.findIdx?_cons, hx]
      rw [hd]
      exact ih.succ fun hp => hx (hs.1 hp)

/-- An expression declares nothing, so what is declared by it is declared before it. -/
theorem declaresBy_expr_iff {root : Node} {a scope : Address} {e : Expr} {x : Text}
    (ha : root.at? a = some (.expr e)) :
    root.DeclaresBy scope x a ↔
      root.HasParameter scope x ∨ ∃ d, root.DeclaredAt scope x d ∧ d < a := by
  refine or_congr_right (exists_congr fun d => and_congr_right fun hd => ?_)
  rw [le_iff_lt_or_eq]
  refine or_iff_left fun he => ?_
  subst he
  obtain ⟨⟨n, hn, hname⟩, _⟩ := hd
  rw [ha] at hn
  cases hn
  cases hname

/-- The visible names of a context tell the distance. -/
theorem isDistance_of_point {root : Node} {a : Address} {e : Expr} {ctx : Context}
    (h : Point root [] a (.expr e) ctx) (x : Text) :
    root.IsDistance a x (ctx.visible.distance? x) := by
  refine isFirst_distance? ?_
  rw [Context.visible, List.forall₂_map_right_iff]
  refine (describes_of_point h).imp fun scope names hd => ?_
  rw [declaresBy_expr_iff h.at?, hd.visible]

/-- The name that a node reads or assigns to, and its distance. -/
def target? : Node → Option (Name × Option Nat)
  | .expr (.reference name d) | .expr (.assign name d _) => some (name, d)
  | _ => none

/-- The distances that binding a program gives to references and assignments. -/
theorem isDistance_of_target? {p : Program} {a : Address} {name : Name} {d : Option Nat}
    (h : ((Node.program (Program.bind p)).at? a).bind target? = some (name, d)) :
    (Node.program p).IsDistance a name.text d := by
  obtain ⟨n', hat, ht⟩ := Option.bind_eq_some_iff.1 h
  obtain ⟨n, ctx, hp, rfl⟩ := @exists_point_of_at?_bind (.program p) n' [] a hat
  cases n with
  | expr e =>
    cases e with
    | reference | assign =>
      cases ht
      exact isDistance_of_point hp name.text
    | _ => cases ht
  | _ => cases ht

end Node

/-! ## Nothing else -/

namespace Expr

mutual

/-- The expression without its distances. -/
def unbind : Expr → Expr
  | .literal v loc => .literal v loc
  | .grouping e loc => .grouping e.unbind loc
  | .unary op e => .unary op e.unbind
  | .binary op l r => .binary op l.unbind r.unbind
  | .logical op l r => .logical op l.unbind r.unbind
  | .reference name _ => .reference name none
  | .assign name _ e => .assign name none e.unbind
  | .call f args loc => .call f.unbind (unbindAll args) loc

/-- Expressions without their distances. -/
def unbindAll : List Expr → List Expr
  | [] => []
  | e :: es => e.unbind :: unbindAll es

end

end Expr

namespace Stmt

mutual

/-- The statement without its distances. -/
def unbind : Stmt → Stmt
  | .expression e loc => .expression e.unbind loc
  | .print e loc => .print e.unbind loc
  | .var name e => .var name (e.map Expr.unbind)
  | .block body loc => .block (unbindAll body) loc
  | .ifThen c branch loc => .ifThen c.unbind branch.unbind loc
  | .ifElse c branch otherwise loc => .ifElse c.unbind branch.unbind otherwise.unbind loc
  | .whileLoop c body loc => .whileLoop c.unbind body.unbind loc
  | .function name params body => .function name params (unbindAll body)
  | .returnStmt e loc => .returnStmt (e.map Expr.unbind) loc

/-- Statements without their distances. -/
def unbindAll : List Stmt → List Stmt
  | [] => []
  | s :: rest => s.unbind :: unbindAll rest

end

end Stmt

/-- The program without its distances. -/
def Program.unbind (p : Program) : Program := Stmt.unbindAll p

theorem Expr.unbindAll_eq_map (es : List Expr) : unbindAll es = es.map unbind := by
  induction es with
  | nil => rfl
  | cons e es ih => rw [unbindAll, ih, List.map_cons]

theorem Stmt.unbindAll_eq_map (body : List Stmt) : unbindAll body = body.map unbind := by
  induction body with
  | nil => rfl
  | cons s rest ih => rw [unbindAll, ih, List.map_cons]

mutual

theorem Expr.unbind_bind (scopes : OpenScopes) (e : Expr) : (e.bind scopes).unbind = e.unbind := by
  cases e with
  | literal | reference => rfl
  | grouping e | unary _ e | assign _ _ e => simp only [bind, unbind, unbind_bind scopes e]
  | binary _ l r | logical _ l r =>
    simp only [bind, unbind, unbind_bind scopes l, unbind_bind scopes r]
  | call f args => simp only [bind, unbind, unbind_bind scopes f, unbindAll_bindAll scopes args]

theorem Expr.unbindAll_bindAll (scopes : OpenScopes) (es : List Expr) :
    unbindAll (bindAll scopes es) = unbindAll es := by
  cases es with
  | nil => rfl
  | cons e es => simp only [bindAll, unbindAll, unbind_bind scopes e, unbindAll_bindAll scopes es]

end

theorem Expr.map_unbind_bind (scopes : OpenScopes) (e : Option Expr) :
    (e.map (bind scopes)).map unbind = e.map unbind := by
  cases e with
  | none => rfl
  | some e => exact congrArg some (e.unbind_bind scopes)

mutual

theorem Stmt.unbind_bind (scopes : OpenScopes) (s : Stmt) :
    (s.bind scopes).1.unbind = s.unbind := by
  cases s with
  | expression e | print e => simp only [bind, unbind, Expr.unbind_bind]
  | var _ e | returnStmt e => simp only [bind, unbind, Expr.map_unbind_bind]
  | block body => simp only [bind, unbind, unbindAll_bindAll _ body]
  | ifThen c branch => simp only [bind, unbind, Expr.unbind_bind, unbind_bind _ branch]
  | ifElse c branch otherwise =>
    simp only [bind, unbind, Expr.unbind_bind, unbind_bind _ branch, unbind_bind _ otherwise]
  | whileLoop c body => simp only [bind, unbind, Expr.unbind_bind, unbind_bind _ body]
  | function name params body => simp only [bind, unbind, unbindAll_bindAll _ body]

theorem Stmt.unbindAll_bindAll (scopes : OpenScopes) (body : List Stmt) :
    unbindAll (bindAll scopes body).1 = unbindAll body := by
  cases body with
  | nil => rfl
  | cons s rest =>
    simp only [bindAll, unbindAll, unbind_bind scopes s, unbindAll_bindAll _ rest]

end

/-! ### The parser leaves distances empty -/

section Derivations

variable {mode : Mode} {ts : List Token}

theorem map_snd_eq_self {α β : Type} {f : β → β} {items : List (α × β)}
    (h : ∀ i ∈ items, f i.2 = i.2) : (items.map Prod.snd).map f = items.map Prod.snd := by
  rw [List.map_map]
  exact List.map_congr_left h

theorem Expr.Derivation.unbind_eq {level : Level} {e : Expr}
    (h : Expr.Derivation mode level ts e) : e.unbind = e := by
  induction h with
  | literal | name => rfl
  | grouping _ _ _ ih | unary _ _ ih | assignment _ _ _ ih => simp only [Expr.unbind, ih]
  | call _ _ _ _ _ _ ih iha =>
    rw [Expr.unbind, ih, Expr.unbindAll_eq_map, map_snd_eq_self iha]
  | @joined level _ _ _ _ _ _ _ _ _ _ ihl ihr =>
    cases level <;> simp only [Level.node, Expr.unbind, ihl, ihr]
  | tighter _ _ ih => exact ih

theorem Expr.Optional.unbind_eq {e : Option Expr} (h : Expr.Optional mode ts e) :
    e.map Expr.unbind = e := by
  cases h with
  | absent => rfl
  | present he => exact congrArg some he.unbind_eq

theorem Stmt.VarDeclaration.unbind_eq {s : Stmt} (h : Stmt.VarDeclaration mode ts s) :
    s.unbind = s := by
  cases h with
  | plain => rfl
  | initialized _ _ _ he => simp only [Stmt.unbind, Option.map_some, he.unbind_eq]

theorem Stmt.Expression.unbind_eq {s : Stmt} (h : Stmt.Expression mode ts s) : s.unbind = s := by
  cases h with
  | mk he => simp only [Stmt.unbind, he.unbind_eq]

theorem Stmt.ForStart.unbind_eq {s : Stmt} (h : Stmt.ForStart mode ts (some s)) :
    s.unbind = s := by
  cases h with
  | var hv => exact hv.unbind_eq
  | expression he => exact he.unbind_eq

theorem Stmt.ForStep.unbind_eq {s : Stmt} (h : Stmt.ForStep mode ts (some s)) : s.unbind = s := by
  cases h with
  | present he => simp only [Stmt.unbind, he.unbind_eq]

theorem Stmt.Derivation.unbind_eq {position : Position} {s : Stmt}
    (h : Stmt.Derivation mode position ts s) : s.unbind = s := by
  induction h with
  | var hv => exact hv.unbind_eq
  | function _ _ _ _ _ _ _ _ _ _ ih =>
    rw [Stmt.unbind, Stmt.unbindAll_eq_map, map_snd_eq_self ih]
  | statement _ ih => exact ih
  | expression he => exact he.unbind_eq
  | print _ he => simp only [Stmt.unbind, he.unbind_eq]
  | block _ _ _ ih => rw [Stmt.unbind, Stmt.unbindAll_eq_map, map_snd_eq_self ih]
  | ifThen _ _ he _ _ ih => simp only [Stmt.unbind, he.unbind_eq, ih]
  | ifElse _ _ he _ _ _ _ ih ih' => simp only [Stmt.unbind, he.unbind_eq, ih, ih']
  | whileLoop _ _ he _ _ ih => simp only [Stmt.unbind, he.unbind_eq, ih]
  | @forLoop _ k _ _ _ _ _ _ _ start step condition body round loop _ _ hi hc _ hs _ _ hround hloop
      ih =>
    have hcondition : (condition.getD (.literal (.bool true) k.loc)).unbind =
        condition.getD (.literal (.bool true) k.loc) := by
      cases hc with
      | absent => rfl
      | present he => exact he.unbind_eq
    have hinner : round.unbind = round := by
      subst hround
      cases step with
      | none => exact ih
      | some s => simp only [Option.elim_some, Stmt.unbind, Stmt.unbindAll, ih, hs.unbind_eq]
    have houter : loop.unbind = loop := by
      subst hloop
      rw [Stmt.unbind, hcondition, hinner]
    cases start with
    | none => exact houter
    | some s => simp only [Option.elim_some, Stmt.unbind, Stmt.unbindAll, houter, hi.unbind_eq]
  | returnStmt _ he => simp only [Stmt.unbind, he.unbind_eq]

theorem Program.Derivation.unbind_eq {p : Program} (h : Program.Derivation mode ts p) :
    Program.unbind p = p := by
  cases h with
  | mk hd => rw [Program.unbind, Stmt.unbindAll_eq_map, map_snd_eq_self fun d hm => (hd d hm).unbind_eq]

end Derivations

theorem unbind_parse (ts : List Token) :
    Program.unbind (parse ts).program = (parse ts).program := by
  obtain ⟨us, _, h⟩ := exists_derivation_of_parse ts
  exact h.unbind_eq

/-- **Distances count scopes.** In a resolved program the distance of every reference and every
assignment is the number of scopes to leave to come to the nearest one that declares its name at or
before it, and there is none exactly if no scope around it does. Nothing else is changed. -/
theorem resolve_distance (settings : ScopeSettings) (ts : List Token) :
    (∀ a name d,
      ((Node.program (Program.resolve settings (parse ts).program).1).at? a).bind Node.target? =
        some (name, d) →
      (Node.program (parse ts).program).IsDistance a name.text d) ∧
    Program.unbind (Program.resolve settings (parse ts).program).1 = (parse ts).program := by
  refine ⟨fun a name d h => Node.isDistance_of_target? h, ?_⟩
  calc Program.unbind (Program.resolve settings (parse ts).program).1
      = Program.unbind (parse ts).program := Stmt.unbindAll_bindAll [] _
    _ = (parse ts).program := unbind_parse ts

/-- The tokens of `{ var a; { print a; var a; } }`. -/
def shadowedLater : List Token :=
  let token (kind : TokenKind) (text : String) : Token := ⟨kind, utf8 text, none, .nowhere⟩
  [token .leftBrace "\x7b", token .kwVar "var", token .identifier "a", token .semicolon ";",
   token .leftBrace "\x7b", token .kwPrint "print", token .identifier "a", token .semicolon ";",
   token .kwVar "var", token .identifier "a", token .semicolon ";",
   token .rightBrace "\x7d", token .rightBrace "\x7d"]

/-- The declaration behind the reference does not count, so the distance leads to the outer block. -/
theorem resolve_distance_shadowedLater :
    (Node.program (parse shadowedLater).program).IsDistance [0, 1, 0, 0] (utf8 "a") (some 1) :=
  (resolve_distance ⟨true, []⟩ shadowedLater).1 [0, 1, 0, 0] ⟨utf8 "a", .nowhere⟩ (some 1)
    (by decide +kernel)

end Lox
