import Lox.Proofs.Scope.Point
import Mathlib.Data.List.Forall2
import Mathlib.Data.List.Induction

/-!
# What is known of the scopes at a place

On the way down to a node, a context keeps for each scope around it the names that it declares in
all, those declared so far, and those whose declaration is complete. `Point` ties places to contexts,
and `Node.describes_of_point` says in terms of addresses what the three lists of a scope hold. This
is where the order of a traversal meets the order of the source.
-/

namespace Lox

/-- What is known of the names of a scope. -/
structure ScopeNames where
  /-- The names that the scope declares anywhere. -/
  all : List Text
  /-- The names declared so far. -/
  visible : List Text
  /-- The names declared so far whose initializer, if there is one, has been passed. -/
  complete : List Text

/-- What is known of the open scopes, innermost first. -/
abbrev Context := List ScopeNames

/-- The scope with more names declared. -/
def ScopeNames.add (s : ScopeNames) (visible complete : List Text) : ScopeNames :=
  ⟨s.all, visible.reverse ++ s.visible, complete.reverse ++ s.complete⟩

/-- Declares names in the innermost scope. -/
def Context.declareAll (ctx : Context) (names : List Text) : Context :=
  ctx.modifyHead (·.add names names)

namespace Node

/-- The names whose declaration at a node is complete before its children: a function can be used in
its own body, a variable cannot be read in its own initializer. -/
def completed : Node → List Text
  | .stmt (.function name _ _) => [name.text]
  | _ => []

/-- The context inside a node, in front of its first child. -/
def opened (n : Node) (ctx : Context) : Context :=
  let outer := ctx.modifyHead (·.add n.declared?.toList n.completed)
  if n.isScope then
    ⟨n.parameters ++ n.children.flatMap hoisted, n.parameters, n.parameters⟩ :: outer
  else outer

/-- The context in front of a child. -/
def enter (n : Node) (ctx : Context) (i : Nat) : Context :=
  (n.opened ctx).declareAll ((n.children.take i).flatMap hoisted)

end Node

/-- The nodes below a root with their addresses and contexts. -/
inductive Point (root : Node) (start : Context) : Address → Node → Context → Prop
  | root : Point root start [] root start
  | child {a : Address} {n c : Node} {ctx : Context} {i : Nat} :
    Point root start a n ctx → n.children[i]? = some c →
      Point root start (a ++ [i]) c (n.enter ctx i)

namespace Point

variable {root n : Node} {start ctx : Context} {a : Address}

theorem at? (h : Point root start a n ctx) : root.at? a = some n := by
  induction h with
  | root => rfl
  | child _ hc ih => rw [Node.at?_snoc, ih]; exact hc

end Point

/-- Every node has a context. -/
theorem Node.exists_point {root n : Node} {a : Address} (h : root.at? a = some n)
    (start : Context) : ∃ ctx, Point root start a n ctx := by
  induction a using List.reverseRecOn generalizing n with
  | nil => exact ⟨start, Option.some.inj h ▸ .root⟩
  | append_singleton a i ih =>
    rw [at?_snoc] at h
    obtain ⟨m, hm, hc⟩ := Option.bind_eq_some_iff.1 h
    obtain ⟨ctx, hp⟩ := ih hm
    exact ⟨_, hp.child hc⟩

/-! ## Declarations passed so far -/

namespace Node

/-- The address lies in the initializer of the variable declared at `d`. -/
def InInitializer (root : Node) (d a : Address) : Prop :=
  d <+: a ∧ d ≠ a ∧ ∃ name e, root.at? d = some (.stmt (.var name e))

/-- The scope declares the name before an address, and the declaration is complete there. -/
def CompleteBefore (root : Node) (scope : Address) (name : Text) (a : Address) : Prop :=
  root.HasParameter scope name ∨
    ∃ d, root.DeclaredAt scope name d ∧ d < a ∧ ¬root.InInitializer d a

/-- The names of a scope are described by the declarations in a set of addresses, and those that are
complete by a smaller set. -/
structure Describes (root : Node) (before completed : Address → Prop) (scope : Address)
    (names : ScopeNames) : Prop where
  all : ∀ x, x ∈ names.all ↔ root.Declares scope x
  visible : ∀ x, x ∈ names.visible ↔
    root.HasParameter scope x ∨ ∃ d, root.DeclaredAt scope x d ∧ before d
  complete : ∀ x, x ∈ names.complete ↔
    root.HasParameter scope x ∨ ∃ d, root.DeclaredAt scope x d ∧ completed d

/-- The declarations of more addresses, all of them in the innermost scope. -/
theorem describes_modifyHead {root : Node} {before before' completed completed' : Address → Prop}
    {scopes : List Address} {ctx : Context} {vs cs : List Text}
    (h : List.Forall₂ (root.Describes before completed) scopes ctx) (hn : scopes.Nodup)
    (hv : ∀ scope ∈ scopes, ∀ x, (∃ d, root.DeclaredAt scope x d ∧ before' d) ↔
      (∃ d, root.DeclaredAt scope x d ∧ before d) ∨ scopes.head? = some scope ∧ x ∈ vs)
    (hc : ∀ scope ∈ scopes, ∀ x, (∃ d, root.DeclaredAt scope x d ∧ completed' d) ↔
      (∃ d, root.DeclaredAt scope x d ∧ completed d) ∨ scopes.head? = some scope ∧ x ∈ cs) :
    List.Forall₂ (root.Describes before' completed') scopes (ctx.modifyHead (·.add vs cs)) := by
  cases h with
  | nil => exact .nil
  | @cons b s bs outer hs hrest =>
    rw [List.nodup_cons] at hn
    refine .cons ⟨hs.all, fun x => ?_, fun x => ?_⟩ ?_
    · have hb := hv b List.mem_cons_self x
      simp only [List.head?_cons, true_and] at hb
      show x ∈ vs.reverse ++ s.visible ↔ _
      rw [hb, List.mem_append, List.mem_reverse, hs.visible, or_comm, or_assoc]
    · have hb := hc b List.mem_cons_self x
      simp only [List.head?_cons, true_and] at hb
      show x ∈ cs.reverse ++ s.complete ↔ _
      rw [hb, List.mem_append, List.mem_reverse, hs.complete, or_comm, or_assoc]
    · refine ((List.forall₂_and_left _ _).2 ⟨fun c hc => hc, hrest⟩).imp fun c names ⟨hmem, hd⟩ => ?_
      have hne : b ≠ c := fun he => hn.1 (he ▸ hmem)
      refine ⟨hd.all, fun x => ?_, fun x => ?_⟩
      · rw [hd.visible, hv c (List.mem_cons_of_mem b hmem) x]
        simp [hne]
      · rw [hd.complete, hc c (List.mem_cons_of_mem b hmem) x]
        simp [hne]

theorem enclosing_nodup (n : Node) (a : Address) : (n.enclosing a).Nodup :=
  (enclosing_pairwise n a).imp fun h he => by
    subst he
    exact Nat.lt_irrefl _ h

/-! ### Into a node -/

variable {root n : Node} {a : Address} {ctx : Context}

/-- The addresses of complete declarations, in front of the children of a node. -/
def Passed (root n : Node) (a d : Address) : Prop :=
  (d < a ∧ ¬root.InInitializer d a) ∨ d = a ∧ n.completed = n.declared?.toList

/-- A scope declares nothing before its children. -/
theorem not_declaredAt_reached {d : Address} {name : Text} (h : root.DeclaredAt a name d) :
    ¬(d < a ∨ d = a) := by
  obtain ⟨j, e, rfl⟩ := exists_of_declaredAt h
  rintro (hlt | heq)
  · exact List.lt_asymm hlt (lt_append a j e)
  · simp at heq

theorem completed_eq (n : Node) : n.completed = n.declared?.toList ∨ n.completed = [] := by
  cases n with
  | stmt s => cases s <;> simp [completed, declared?, Stmt.declared?]
  | _ => simp [completed, declared?]

/-- Only what a variable declares is not complete in front of its children. -/
theorem completed_eq_iff (n : Node) :
    n.completed = n.declared?.toList ↔ ¬∃ name e, n = .stmt (.var name e) := by
  cases n with
  | stmt s => cases s <;> simp [completed, declared?, Stmt.declared?]
  | _ => simp [completed, declared?]

/-- The node's own declaration, in the scope around it. -/
theorem describes_self (ha : root.at? a = some n)
    (h : List.Forall₂ (root.Describes (· < a) fun d => d < a ∧ ¬root.InInitializer d a)
      (root.enclosing a) ctx) :
    List.Forall₂ (root.Describes (fun d => d < a ∨ d = a) (root.Passed n a)) (root.enclosing a)
      (ctx.modifyHead (·.add n.declared?.toList n.completed)) := by
  refine describes_modifyHead h (enclosing_nodup root a) (fun scope _ x => ?_) fun scope _ x => ?_
  · have hself := @declaredAt_self root n a scope x ha
    constructor
    · rintro ⟨d, hd, hlt | rfl⟩
      · exact .inl ⟨d, hd, hlt⟩
      · obtain ⟨hx, hs⟩ := hself.1 hd
        exact .inr ⟨hs, by simp [hx]⟩
    · rintro (⟨d, hd, hlt⟩ | ⟨hs, hx⟩)
      · exact ⟨d, hd, .inl hlt⟩
      · exact ⟨a, hself.2 ⟨by simpa using hx, hs⟩, .inr rfl⟩
  · have hself := @declaredAt_self root n a scope x ha
    constructor
    · rintro ⟨d, hd, hlt | ⟨rfl, hc⟩⟩
      · exact .inl ⟨d, hd, hlt⟩
      · obtain ⟨hx, hs⟩ := hself.1 hd
        exact .inr ⟨hs, by simp [hc, hx]⟩
    · rintro (⟨d, hd, hlt⟩ | ⟨hs, hx⟩)
      · exact ⟨d, hd, .inl hlt⟩
      · rcases completed_eq n with hc | hc
        · exact ⟨a, hself.2 ⟨by simpa [hc] using hx, hs⟩, .inr ⟨rfl, hc⟩⟩
        · simp [hc] at hx

/-- The scopes around the children of a node. -/
def inside (root n : Node) (a : Address) : List Address :=
  (if n.isScope then [a] else []) ++ root.enclosing a

theorem enclosing_child (ha : root.at? a = some n) {j : Nat} {c : Node}
    (hj : n.children[j]? = some c) : root.enclosing (a ++ [j]) = root.inside n a :=
  enclosing_snoc ha hj

theorem exists_child_of_declaredAt {scope e : Address} {j : Nat} {x : Text}
    (ha : root.at? a = some n) (h : root.DeclaredAt scope x (a ++ j :: e)) :
    ∃ c, n.children[j]? = some c := by
  obtain ⟨⟨m, hm, _⟩, _⟩ := h
  rw [at?_append, ha] at hm
  cases hc : n.children[j]? with
  | none => simp [at?, hc] at hm
  | some c => exact ⟨c, rfl⟩

/-- What the children of a node declare belongs to the innermost scope around them. -/
theorem declaredAt_children {scope : Address} (ha : root.at? a = some n)
    (hs : scope ∈ root.inside n a) (i : Nat) (x : Text) :
    (∃ d, root.DeclaredAt scope x d ∧ ∃ j < i, ∃ e, d = a ++ j :: e) ↔
      (root.inside n a).head? = some scope ∧ x ∈ (n.children.take i).flatMap hoisted := by
  simp only [List.mem_flatMap, mem_hoisted]
  constructor
  · rintro ⟨_, hd, j, hj, e, rfl⟩
    obtain ⟨c, hc⟩ := exists_child_of_declaredAt ha hd
    have hen := enclosing_child ha hc
    obtain ⟨⟨m, hm, hname, he⟩, hhead⟩ := (declaredAt_below ha hc (hen ▸ hs)).1 hd
    refine ⟨hen ▸ hhead, c, ?_, e, m, hm, hname, he⟩
    exact List.mem_of_getElem? (i := j) (by rw [List.getElem?_take_of_lt hj, hc])
  · rintro ⟨hhead, c, hc, e, m, hm, hname, he⟩
    obtain ⟨j, hj, hcj⟩ := List.mem_take_iff_getElem.1 hc
    have hcj : n.children[j]? = some c := by rw [List.getElem?_eq_getElem (by omega), hcj]
    have hen := enclosing_child ha hcj
    exact ⟨a ++ j :: e, (declaredAt_below ha hcj (hen ▸ hs)).2 ⟨⟨m, hm, hname, he⟩, hen ▸ hhead⟩,
      j, by omega, e, rfl⟩

/-- The scope that a node opens. -/
theorem describes_opened (ha : root.at? a = some n)
    (h : List.Forall₂ (root.Describes (· < a) fun d => d < a ∧ ¬root.InInitializer d a)
      (root.enclosing a) ctx) :
    List.Forall₂ (root.Describes (fun d => d < a ∨ d = a) (root.Passed n a)) (root.inside n a)
      (n.opened ctx) := by
  have houter := describes_self ha h
  unfold inside opened
  cases hs : n.isScope with
  | false => exact houter
  | true =>
    have hparam (x : Text) : root.HasParameter a x ↔ x ∈ n.parameters := by
      simp [HasParameter, ha]
    refine .cons ⟨fun x => ?_, fun x => ?_, fun x => ?_⟩ houter
    · have hmem : a ∈ root.inside n a := by simp [inside, hs]
      have hchildren := declaredAt_children ha hmem n.children.length x
      have hhead : (root.inside n a).head? = some a := by simp [inside, hs]
      rw [List.take_length] at hchildren
      rw [List.mem_append, Declares, hparam]
      refine or_congr_right ⟨fun hx => ?_, fun ⟨d, hd⟩ => ?_⟩
      · obtain ⟨d, hd, _⟩ := hchildren.2 ⟨hhead, hx⟩
        exact ⟨d, hd⟩
      · obtain ⟨j, e, rfl⟩ := exists_of_declaredAt hd
        obtain ⟨c, hc⟩ := exists_child_of_declaredAt ha hd
        obtain ⟨hj, _⟩ := List.getElem?_eq_some_iff.1 hc
        exact (hchildren.1 ⟨_, hd, j, hj, e, rfl⟩).2
    · rw [hparam]
      refine (or_iff_left ?_).symm
      rintro ⟨d, hd, hr⟩
      exact not_declaredAt_reached hd hr
    · rw [hparam]
      refine (or_iff_left ?_).symm
      rintro ⟨d, hd, hr⟩
      exact not_declaredAt_reached hd (hr.imp And.left And.left)

theorem not_prefix_of_ne {i j : Nat} (h : j ≠ i) (e : Address) : ¬a ++ j :: e <+: a ++ [i] := by
  rw [List.prefix_append_right_inj, List.cons_prefix_cons]
  exact fun hp => h hp.1

/-- What has been passed in front of a child. -/
theorem completeBefore_snoc_iff (ha : root.at? a = some n) (i : Nat) (d : Address) :
    d < a ++ [i] ∧ ¬root.InInitializer d (a ++ [i]) ↔
      root.Passed n a d ∨ ∃ j < i, ∃ e, d = a ++ j :: e := by
  rw [lt_snoc_iff]
  constructor
  · rintro ⟨hlt | rfl | hj, hinit⟩
    · refine .inl (.inl ⟨hlt, fun hin => hinit ⟨hin.1.trans (List.prefix_append a [i]), ?_, hin.2.2⟩⟩)
      rintro rfl
      exact List.lt_asymm hlt (lt_append a i [])
    · refine .inl (.inr ⟨rfl, (completed_eq_iff n).2 fun ⟨name, e, hv⟩ => hinit ?_⟩)
      exact ⟨List.prefix_append _ _, by simp, name, e, by rw [ha, hv]⟩
    · exact .inr hj
  · rintro ((⟨hlt, hinit⟩ | ⟨rfl, hc⟩) | ⟨j, hj, e, rfl⟩)
    · refine ⟨.inl hlt, fun ⟨hp, hne, hv⟩ => hinit ⟨?_, fun he => not_lt_self a (he ▸ hlt), hv⟩⟩
      exact (List.prefix_concat_iff.1 hp).resolve_left hne
    · refine ⟨.inr (.inl rfl), fun ⟨_, _, name, e, hv⟩ => (completed_eq_iff n).1 hc ⟨name, e, ?_⟩⟩
      rw [ha] at hv
      exact Option.some.inj hv
    · exact ⟨.inr (.inr ⟨j, hj, e, rfl⟩), fun hin => not_prefix_of_ne (Nat.ne_of_lt hj) e hin.1⟩

/-- In front of a child the declarations of the earlier children have been passed. -/
theorem describes_enter (ha : root.at? a = some n)
    (h : List.Forall₂ (root.Describes (· < a) fun d => d < a ∧ ¬root.InInitializer d a)
      (root.enclosing a) ctx) (i : Nat) {c : Node} (hi : n.children[i]? = some c) :
    List.Forall₂ (root.Describes (· < a ++ [i])
      fun d => d < a ++ [i] ∧ ¬root.InInitializer d (a ++ [i]))
      (root.enclosing (a ++ [i])) (n.enter ctx i) := by
  have hn : (root.inside n a).Nodup := enclosing_child ha hi ▸ enclosing_nodup root (a ++ [i])
  have later (V V' : Address → Prop)
      (hV : ∀ d, V' d ↔ V d ∨ ∃ j < i, ∃ e, d = a ++ j :: e) :
      ∀ scope ∈ root.inside n a, ∀ x, (∃ d, root.DeclaredAt scope x d ∧ V' d) ↔
        (∃ d, root.DeclaredAt scope x d ∧ V d) ∨ (root.inside n a).head? = some scope ∧
          x ∈ (n.children.take i).flatMap hoisted := by
    intro scope hs x
    rw [← declaredAt_children ha hs i x, ← exists_or]
    simp only [hV, and_or_left]
  rw [enclosing_child ha hi]
  refine describes_modifyHead (describes_opened ha h) hn (later _ _ fun d => ?_)
    (later _ _ (completeBefore_snoc_iff ha i))
  rw [lt_snoc_iff, or_assoc]

/-- The context of a node holds the declarations before it. -/
theorem describes_of_point (h : Point root [] a n ctx) :
    List.Forall₂ (root.Describes (· < a) fun d => d < a ∧ ¬root.InInitializer d a)
      (root.enclosing a) ctx := by
  induction h with
  | root => exact .nil
  | child hp hc ih => exact describes_enter hp.at? ih _ hc

end Node

/-- What a node declares is a name of the innermost scope around it. -/
theorem Point.mem_all_of_declared? {root n : Node} {a : Address} {ctx : Context} {x : Text}
    (h : Point root [] a n ctx) (hx : n.declared? = some x) :
    ∀ scope ∈ ctx.head?, x ∈ scope.all := by
  intro scope hscope
  obtain ⟨outer, rfl⟩ := List.head?_eq_some_iff.1 hscope
  obtain ⟨b, bs, hb, -, hen⟩ := List.forall₂_cons_right_iff.1 (Node.describes_of_point h)
  have hd : root.DeclaredAt b x a := (Node.declaredAt_self h.at?).2 ⟨hx, by rw [hen]; rfl⟩
  exact (hb.all x).2 (.inr ⟨a, hd⟩)

end Lox
