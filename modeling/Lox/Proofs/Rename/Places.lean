import Lox.Proofs.Rename.Program

/-!
# Places and scopes

Renaming a local variable at the places that denote it is renaming by scopes, if its scope declares the
name only once and the new name occurs nowhere (`Program.exchanges_denotes`, `Program.renamed_mapNames`).
Without errors a scope declares every name only once.
-/

namespace Lox

/-! ## Names of nodes -/

namespace Node

/-- The names in a node. -/
def names : Node → List Text
  | .program p => p.names
  | .stmt s => s.names
  | .expr e => e.names

theorem mem_namesAll_stmt {x : Text} {body : List Stmt} :
    x ∈ Stmt.namesAll body ↔ ∃ s ∈ body, x ∈ s.names := by
  induction body with
  | nil => simp [Stmt.namesAll]
  | cons s rest ih => simp [Stmt.namesAll, ih]

theorem mem_namesAll_expr {x : Text} {es : List Expr} :
    x ∈ Expr.namesAll es ↔ ∃ e ∈ es, x ∈ e.names := by
  induction es with
  | nil => simp [Expr.namesAll]
  | cons e es ih => simp [Expr.namesAll, ih]

theorem mem_names_expr {x : Text} {e c : Expr} (h : c ∈ e.children) (hx : x ∈ c.names) :
    x ∈ e.names := by
  cases e with
  | literal | reference => cases h
  | grouping | unary | assign =>
    obtain rfl := List.mem_singleton.1 h
    simp [Expr.names, hx]
  | binary | logical =>
    rcases (by simpa [Expr.children] using h) with rfl | rfl <;> simp [Expr.names, hx]
  | call f args =>
    rcases List.mem_cons.1 h with rfl | h
    · simp [Expr.names, hx]
    · exact List.mem_append_right _ (mem_namesAll_expr.2 ⟨c, h, hx⟩)

/-- A node has all the names of its children. -/
theorem mem_names {x : Text} {n c : Node} (h : c ∈ n.children) (hx : x ∈ c.names) :
    x ∈ n.names := by
  have hbody {body : List Stmt} (h : c ∈ body.map Node.stmt) : x ∈ Stmt.namesAll body := by
    obtain ⟨s, hs, rfl⟩ := List.mem_map.1 h
    exact mem_namesAll_stmt.2 ⟨s, hs, hx⟩
  have hoption {e : Option Expr} (h : c ∈ (e.map Node.expr).toList) : x ∈ e.elim [] Expr.names := by
    cases e with
    | none => cases h
    | some e =>
      obtain rfl := List.mem_singleton.1 h
      exact hx
  cases n with
  | program p => exact hbody h
  | expr e =>
    obtain ⟨c, hc, rfl⟩ := List.mem_map.1 h
    exact mem_names_expr hc hx
  | stmt s =>
    cases s with
    | expression | print =>
      obtain rfl := List.mem_singleton.1 h
      exact hx
    | var => exact List.mem_cons_of_mem _ (hoption h)
    | returnStmt => exact hoption h
    | block => exact hbody h
    | function => exact List.mem_cons_of_mem _ (List.mem_append_right _ (hbody h))
    | ifThen c branch | whileLoop c branch =>
      rcases (by simpa [children, Stmt.children] using h) with rfl | rfl
      · exact List.mem_append_left _ hx
      · exact List.mem_append_right _ hx
    | ifElse c branch otherwise =>
      rcases (by simpa [children, Stmt.children] using h) with rfl | rfl | rfl
      · exact List.mem_append_left _ hx
      · exact List.mem_append_right _ (List.mem_append_left _ hx)
      · exact List.mem_append_right _ (List.mem_append_right _ hx)

/-- A node has all the names of the nodes below it. -/
theorem mem_names_of_at? {x : Text} {n m : Node} {a : Address} (h : n.at? a = some m)
    (hx : x ∈ m.names) : x ∈ n.names := by
  induction a generalizing n with
  | nil => exact Option.some.inj h ▸ hx
  | cons i a ih =>
    obtain ⟨c, hc, hm⟩ := Option.bind_eq_some_iff.1 h
    exact mem_names (List.mem_of_getElem? hc) (ih hm)

theorem mem_names_of_target? {n : Node} {name : Name} {d : Option Nat}
    (h : n.target? = some (name, d)) : name.text ∈ n.names := by
  cases n with
  | expr e =>
    cases e with
    | reference | assign =>
      cases h
      exact List.mem_cons_self
    | _ => cases h
  | _ => cases h

/-! ## Marked scopes -/

/-- One of the scopes around an address is marked. -/
def marks (root : Node) (scope a : Address) : Marks :=
  fun d => (root.enclosing a)[d]? = some scope

theorem at?_child {root n c : Node} {a : Address} {i : Nat} (h : root.at? a = some n)
    (hc : n.children[i]? = some c) : root.at? (a ++ [i]) = some c := by
  rw [at?_snoc, h]
  exact hc

theorem marks_child {root n c : Node} {scope a : Address} {i : Nat} (h : root.at? a = some n)
    (hc : n.children[i]? = some c) :
    root.marks scope (a ++ [i]) =
      if n.isScope then (root.marks scope a).enter (a = scope) else root.marks scope a := by
  unfold marks
  rw [enclosing_snoc h hc]
  cases n.isScope with
  | false => rfl
  | true =>
    funext d
    cases d with
    | zero => simp
    | succ d => rfl

/-- Names are replaced as renaming by scopes exchanges them. -/
structure Exchanges (root : Node) (scope : Address) (σ : Equiv.Perm Text)
    (f : NamePlace → Text → Text) : Prop where
  target {a : Address} {n : Node} {name : Name} {d : Option Nat} :
    root.at? a = some n → n.target? = some (name, d) →
      f (.node a) name.text = exchangeIf σ ((root.marks scope a).leads d) name.text
  var {a : Address} {name : Name} {e : Option Expr} :
    root.at? a = some (.stmt (.var name e)) →
      f (.node a) name.text = exchangeIf σ (root.marks scope a 0) name.text
  function {a : Address} {name : Name} {params : List Name} {body : List Stmt} :
    root.at? a = some (.stmt (.function name params body)) →
      f (.node a) name.text = name.text ∧
        exchangeIf σ (root.marks scope a 0) name.text = name.text
  parameter {a : Address} {name : Name} {params : List Name} {body : List Stmt} {i : Nat}
      {param : Name} :
    root.at? a = some (.stmt (.function name params body)) → params[i]? = some param →
      f (.parameter a i) param.text = exchangeIf σ (a = scope) param.text

end Node

/-! ## From places to scopes -/

section Recursion

variable {root : Node} {scope : Address} {σ : Equiv.Perm Text} {f : NamePlace → Text → Text}

theorem Name.map_eq {f g : Text → Text} {name : Name} (h : f name.text = g name.text) :
    name.map f = name.map g := by
  rw [Name.map, Name.map, h]

mutual

theorem Expr.renamed_mapNames (hf : root.Exchanges scope σ f) (e : Expr) {a : Address}
    (ha : root.at? a = some (.expr e)) :
    e.Renamed σ (root.marks scope a) (e.mapNames f a) := by
  have hchild {i : Nat} {c : Expr} (hc : e.children[i]? = some c) :
      root.at? (a ++ [i]) = some (.expr c) ∧
        root.marks scope (a ++ [i]) = root.marks scope a := by
    have hc : (Node.expr e).children[i]? = some (.expr c) := by
      simp [Node.children, hc]
    exact ⟨Node.at?_child ha hc, Node.marks_child ha hc⟩
  have hbelow {i : Nat} {c : Expr} (hc : e.children[i]? = some c)
      (h : c.Renamed σ (root.marks scope (a ++ [i])) (c.mapNames f (a ++ [i]))) :
      c.Renamed σ (root.marks scope a) (c.mapNames f (a ++ [i])) :=
    (hchild hc).2 ▸ h
  cases e with
  | literal v loc => exact .literal v loc
  | grouping e => exact .grouping (hbelow rfl (renamed_mapNames hf e (hchild rfl).1))
  | unary _ e => exact .unary (hbelow rfl (renamed_mapNames hf e (hchild rfl).1))
  | binary _ l r =>
    exact .binary (hbelow rfl (renamed_mapNames hf l (hchild (i := 0) rfl).1))
      (hbelow rfl (renamed_mapNames hf r (hchild (i := 1) rfl).1))
  | logical _ l r =>
    exact .logical (hbelow rfl (renamed_mapNames hf l (hchild (i := 0) rfl).1))
      (hbelow rfl (renamed_mapNames hf r (hchild (i := 1) rfl).1))
  | reference name d =>
    rw [mapNames, Name.map_eq (hf.target ha rfl)]
    exact .reference name d
  | assign name d e =>
    rw [mapNames, Name.map_eq (hf.target ha rfl)]
    exact .assign name d (hbelow rfl (renamed_mapNames hf e (hchild rfl).1))
  | call g args =>
    refine .calls (hbelow rfl (renamed_mapNames hf g (hchild (i := 0) rfl).1)) ?_
    exact renamed_mapNamesAll hf args 1 fun i c hc =>
      hchild (i := 1 + i) (by rw [Nat.add_comm]; exact hc)

theorem Expr.renamed_mapNamesAll (hf : root.Exchanges scope σ f) (es : List Expr) {a : Address}
    (k : Nat) (hes : ∀ i c, es[i]? = some c → root.at? (a ++ [k + i]) = some (.expr c) ∧
      root.marks scope (a ++ [k + i]) = root.marks scope a) :
    List.Forall₂ (Expr.Renamed σ (root.marks scope a)) es (mapNamesAll f a k es) := by
  cases es with
  | nil => exact .nil
  | cons e es =>
    have hfirst := hes 0 e rfl
    refine .cons (hfirst.2 ▸ renamed_mapNames hf e hfirst.1) ?_
    refine renamed_mapNamesAll hf es (k + 1) fun i c hc => ?_
    rw [Nat.add_assoc, Nat.add_comm 1 i]
    exact hes (i + 1) c hc

end

theorem Expr.renamed_mapNames_option (hf : root.Exchanges scope σ f) {e : Option Expr}
    {a : Address} {marks : Marks}
    (he : ∀ c, e = some c → root.at? a = some (.expr c) ∧ root.marks scope a = marks) :
    OptionRenamed σ marks e (e.map (Expr.mapNames f a)) := by
  cases e with
  | none => exact .none
  | some e =>
    obtain ⟨ha, rfl⟩ := he e rfl
    exact .some (renamed_mapNames hf e ha)

mutual

theorem Stmt.renamed_mapNames (hf : root.Exchanges scope σ f) (s : Stmt) {a : Address}
    (ha : root.at? a = some (.stmt s)) :
    s.Renamed σ (root.marks scope a) (s.mapNames f a) := by
  have hchild {i : Nat} {c : Node} (hc : s.children[i]? = some c) :
      root.at? (a ++ [i]) = some c := Node.at?_child ha hc
  have hsame {i : Nat} {c : Node} (hc : s.children[i]? = some c)
      (hs : (Node.stmt s).isScope = false) : root.marks scope (a ++ [i]) = root.marks scope a := by
    rw [Node.marks_child ha hc, hs]
    rfl
  have hentered {i : Nat} {c : Node} (hc : s.children[i]? = some c)
      (hs : (Node.stmt s).isScope = true) :
      root.marks scope (a ++ [i]) = (root.marks scope a).enter (a = scope) := by
    rw [Node.marks_child ha hc, hs]
    rfl
  have hexpr {i : Nat} {c : Expr} (hc : s.children[i]? = some (.expr c))
      (hs : (Node.stmt s).isScope = false) :
      c.Renamed σ (root.marks scope a) (c.mapNames f (a ++ [i])) :=
    hsame hc hs ▸ Expr.renamed_mapNames hf c (hchild hc)
  have hstmt {i : Nat} {t : Stmt} (hc : s.children[i]? = some (.stmt t))
      (hs : (Node.stmt s).isScope = false)
      (h : t.Renamed σ (root.marks scope (a ++ [i])) (t.mapNames f (a ++ [i]))) :
      t.Renamed σ (root.marks scope a) (t.mapNames f (a ++ [i])) :=
    hsame hc hs ▸ h
  cases s with
  | expression e => exact .expression (hexpr rfl rfl)
  | print e => exact .print (hexpr rfl rfl)
  | var name e =>
    rw [mapNames, Name.map_eq (hf.var ha)]
    refine .var name (Expr.renamed_mapNames_option hf fun c hc => ?_)
    subst hc
    exact ⟨hchild (i := 0) rfl, hsame (i := 0) rfl rfl⟩
  | returnStmt e =>
    refine .returnStmt (Expr.renamed_mapNames_option hf fun c hc => ?_)
    subst hc
    exact ⟨hchild (i := 0) rfl, hsame (i := 0) rfl rfl⟩
  | ifThen c branch =>
    have hbranch := hchild (i := 1) rfl
    exact .ifThen (hexpr rfl rfl) (hstmt rfl rfl (renamed_mapNames hf branch hbranch))
  | ifElse c branch otherwise =>
    have hbranch := hchild (i := 1) rfl
    have hother := hchild (i := 2) rfl
    exact .ifElse (hexpr rfl rfl) (hstmt rfl rfl (renamed_mapNames hf branch hbranch))
      (hstmt rfl rfl (renamed_mapNames hf otherwise hother))
  | whileLoop c body =>
    have hbody := hchild (i := 1) rfl
    exact .whileLoop (hexpr rfl rfl) (hstmt rfl rfl (renamed_mapNames hf body hbody))
  | block body =>
    refine .blocks (a = scope) (renamed_mapNamesAll hf body 0 fun i t ht => ?_)
    have hc : (body.map Node.stmt)[0 + i]? = some (.stmt t) := by simp [ht]
    exact ⟨hchild hc, hentered hc rfl⟩
  | function name params body =>
    obtain ⟨hname, hkept⟩ := hf.function ha
    have hparams : (params.mapIdx fun i => Name.map (f (.parameter a i))) =
        params.map (Name.map (exchangeIf σ (a = scope))) := by
      refine List.ext_getElem? fun i => ?_
      rw [List.getElem?_mapIdx, List.getElem?_map]
      cases hp : params[i]? with
      | none => rfl
      | some param => exact congrArg some (Name.map_eq (hf.parameter ha hp))
    have hself : name.map (f (.node a)) = name := by
      rw [Name.map, hname]
    rw [mapNames, hself, hparams]
    refine .functions (a = scope) params hkept (renamed_mapNamesAll hf body 0 fun i t ht => ?_)
    have hc : (body.map Node.stmt)[0 + i]? = some (.stmt t) := by simp [ht]
    exact ⟨hchild hc, hentered hc rfl⟩

theorem Stmt.renamed_mapNamesAll (hf : root.Exchanges scope σ f) (body : List Stmt) {a : Address}
    {marks : Marks} (k : Nat) (hbody : ∀ i t, body[i]? = some t →
      root.at? (a ++ [k + i]) = some (.stmt t) ∧ root.marks scope (a ++ [k + i]) = marks) :
    List.Forall₂ (Stmt.Renamed σ marks) body (mapNamesAll f a k body) := by
  cases body with
  | nil => exact .nil
  | cons s rest =>
    have hfirst := hbody 0 s rfl
    refine .cons (hfirst.2 ▸ renamed_mapNames hf s hfirst.1) ?_
    refine renamed_mapNamesAll hf rest (k + 1) fun i t ht => ?_
    rw [Nat.add_assoc, Nat.add_comm 1 i]
    exact hbody (i + 1) t ht

end

end Recursion

/-! ## One local variable -/

namespace Node

/-- Where one name is replaced by a new one, names are exchanged. -/
theorem exchangeIf_swap {x y z : Text} {mark : Bool} (hz : z ≠ y) :
    exchangeIf (Equiv.swap x y) mark z = if mark = true ∧ z = x then y else z := by
  cases mark with
  | false => simp
  | true =>
    by_cases hx : z = x
    · simp [hx]
    · simp [hx, Equiv.swap_apply_of_ne_of_ne hx hz]

variable {root : Node} {scope : Address} {x : Text}

theorem marks_zero_iff {a : Address} :
    root.marks scope a 0 = true ↔ (root.enclosing a).head? = some scope := by
  simp [marks, List.head?_eq_getElem?]

/-- What is declared at a place is the declaration of a variable or a parameter. -/
theorem local?_cases {declaration : NamePlace} (h : root.local? declaration = some (x, scope)) :
    (∃ a name e, declaration = .node a ∧ root.at? a = some (.stmt (.var name e)) ∧
      root.DeclaredAt scope x a) ∨
    ∃ i name params body param, declaration = .parameter scope i ∧
      root.at? scope = some (.stmt (.function name params body)) ∧ params[i]? = some param ∧
        param.text = x := by
  cases declaration with
  | node a =>
    unfold local? at h
    dsimp only at h
    split at h
    · next name e ha =>
      obtain ⟨b, hb, heq⟩ := Option.map_eq_some_iff.1 h
      obtain ⟨rfl, rfl⟩ := Prod.mk.inj heq
      exact .inl ⟨a, name, e, rfl, ha, ⟨_, ha, rfl⟩, hb⟩
    · cases h
  | parameter a i =>
    unfold local? at h
    dsimp only at h
    split at h
    · next name params body ha =>
      obtain ⟨param, hparam, heq⟩ := Option.map_eq_some_iff.1 h
      obtain ⟨rfl, rfl⟩ := Prod.mk.inj heq
      exact .inr ⟨i, name, params, body, param, rfl, ha, hparam, rfl⟩
    · cases h

theorem denotes_node {declaration : NamePlace} (h : root.local? declaration = some (x, scope))
    (a : Address) : root.denotes declaration (.node a) = true ↔
      declaration = .node a ∨ root.resolved? a = some (x, scope) := by
  rw [denotes, h, Bool.or_eq_true, decide_eq_true_iff, eq_comm, Option.any_eq_true]
  simp only [decide_eq_true_eq, Option.some.injEq]
  exact or_congr_right ⟨fun ⟨l, hl, he⟩ => he ▸ hl, fun hl => ⟨_, hl, rfl⟩⟩

/-- Only references and assignments resolve to something. -/
theorem resolved?_of_target?_eq_none {n : Node} {a : Address} (ha : root.at? a = some n)
    (hn : n.target? = none) : root.resolved? a = none := by
  rw [resolved?, ha, Option.bind_some, hn]

theorem resolved?_eq_some_iff {n : Node} {a : Address} {name : Name} {d : Option Nat}
    (ha : root.at? a = some n) (hn : n.target? = some (name, d)) :
    root.resolved? a = some (x, scope) ↔ (root.marks scope a).leads d = true ∧ name.text = x := by
  rw [resolved?, ha, Option.bind_some, hn]
  cases d with
  | none => simp
  | some d => simp [Marks.leads, marks, and_comm]

theorem hasParameter_of_getElem? {name param : Name} {params : List Name} {body : List Stmt}
    {a : Address} {i : Nat} (ha : root.at? a = some (.stmt (.function name params body)))
    (hparam : params[i]? = some param) : root.HasParameter a param.text :=
  ⟨_, ha, List.mem_map_of_mem (List.mem_of_getElem? hparam)⟩

section Denoted

variable {declaration : NamePlace} (hlocal : root.local? declaration = some (x, scope))

include hlocal

/-- What is declared at an address is a variable there, in its innermost scope. -/
theorem var_of_declaration_eq {n : Node} {a : Address} (ha : root.at? a = some n)
    (he : declaration = .node a) :
    (∃ name e, n = .stmt (.var name e) ∧ name.text = x) ∧ root.marks scope a 0 = true := by
  rcases local?_cases hlocal with
    ⟨a', name, e, rfl, ha', hd⟩ | ⟨i, _, _, _, param, rfl, hscope, hparam, rfl⟩
  · cases he
    rw [ha] at ha'
    cases ha'
    obtain ⟨⟨_, ha', hname⟩, hhead⟩ := hd
    rw [ha] at ha'
    cases ha'
    exact ⟨⟨name, e, rfl, Option.some.inj hname⟩, marks_zero_iff.2 hhead⟩
  · cases he

/-- A reference or an assignment denotes the variable if it has the name and leads to the scope. -/
theorem denotes_of_target? {n : Node} {a : Address} {name : Name} {d : Option Nat}
    (ha : root.at? a = some n) (hn : n.target? = some (name, d)) :
    root.denotes declaration (.node a) = true ↔
      (root.marks scope a).leads d = true ∧ name.text = x := by
  have hnot : declaration ≠ .node a := by
    intro he
    obtain ⟨⟨_, _, rfl, _⟩, _⟩ := var_of_declaration_eq hlocal ha he
    cases hn
  rw [denotes_node hlocal, or_iff_right hnot, resolved?_eq_some_iff ha hn]

/-- No other node denotes the variable but its declaration. -/
theorem denotes_of_target?_eq_none {n : Node} {a : Address} (ha : root.at? a = some n)
    (hn : n.target? = none) :
    root.denotes declaration (.node a) = true ↔ declaration = .node a := by
  rw [denotes_node hlocal, resolved?_of_target?_eq_none ha hn]
  exact or_iff_left fun he => by cases he

theorem not_denotes_function {a : Address} {name : Name} {params : List Name} {body : List Stmt}
    (ha : root.at? a = some (.stmt (.function name params body))) :
    ¬root.denotes declaration (.node a) = true := by
  rw [denotes_of_target?_eq_none hlocal ha rfl]
  intro he
  obtain ⟨⟨_, _, heq, _⟩, _⟩ := var_of_declaration_eq hlocal ha he
  cases heq

end Denoted

end Node

namespace Program

open Node

variable {settings : ScopeSettings} {q : Program} {declaration : NamePlace} {x y : Text}
  {scope : Address}

/-- Without errors the statement that declares a local variable is the only one that declares its name in
its scope. -/
theorem declaration_eq (h : Check.Clean (q.issues settings))
    (hlocal : (Node.program q).local? declaration = some (x, scope)) {a : Address}
    (ha : (Node.program q).DeclaredAt scope x a) : declaration = .node a := by
  rcases local?_cases hlocal with
    ⟨d, _, _, rfl, _, hd⟩ | ⟨i, _, _, _, param, rfl, hscope, hparam, rfl⟩
  · rw [declaredOnce_of_clean h hd ha]
  · exact absurd (hasParameter_of_getElem? hscope hparam)
      (not_declaresBefore_of_clean h ha).1

theorem parameter_eq (h : Check.Clean (q.issues settings))
    (hlocal : (Node.program q).local? declaration = some (x, scope)) {name param : Name}
    {params : List Name} {body : List Stmt} {i : Nat}
    (ha : (Node.program q).at? scope = some (.stmt (.function name params body)))
    (hparam : params[i]? = some param) (hx : param.text = x) :
    declaration = .parameter scope i := by
  subst hx
  rcases local?_cases hlocal with
    ⟨d, _, _, rfl, _, hd⟩ | ⟨j, _, _, _, param', rfl, hscope, hparam', hx⟩
  · exact absurd (hasParameter_of_getElem? ha hparam) (not_declaresBefore_of_clean h hd).1
  · rw [ha] at hscope
    cases hscope
    -- both are parameters of the one function, and no two of these have the same name
    have hnodup := parameters_nodup_of_clean h ha
    have hj : (params.map Name.text)[j]? = some param.text := by
      rw [List.getElem?_map, hparam', Option.map_some, hx]
    have hi : (params.map Name.text)[i]? = some param.text := by
      rw [List.getElem?_map, hparam, Option.map_some]
    obtain ⟨hlt, hj⟩ := List.getElem?_eq_some_iff.1 hj
    obtain ⟨hlt', hi⟩ := List.getElem?_eq_some_iff.1 hi
    rw [hnodup.getElem_inj_iff.1 (hj.trans hi.symm)]

/-- A declaration of the name in the scope is that of the variable. -/
theorem declaration_eq_of_declared? (h : Check.Clean (q.issues settings))
    (hlocal : (Node.program q).local? declaration = some (x, scope)) {n : Node} {a : Address}
    (ha : (Node.program q).at? a = some n) (hmark : (Node.program q).marks scope a 0 = true)
    (hx : n.declared? = some x) : declaration = .node a :=
  declaration_eq h hlocal ⟨⟨n, ha, hx⟩, marks_zero_iff.1 hmark⟩

theorem denotes_var (h : Check.Clean (q.issues settings))
    (hlocal : (Node.program q).local? declaration = some (x, scope)) {a : Address} {name : Name}
    {e : Option Expr} (ha : (Node.program q).at? a = some (.stmt (.var name e))) :
    (Node.program q).denotes declaration (.node a) = true ↔
      (Node.program q).marks scope a 0 = true ∧ name.text = x := by
  rw [denotes_of_target?_eq_none hlocal ha rfl]
  constructor
  · intro he
    obtain ⟨⟨_, _, heq, hx⟩, hmark⟩ := var_of_declaration_eq hlocal ha he
    cases heq
    exact ⟨hmark, hx⟩
  · rintro ⟨hmark, rfl⟩
    exact declaration_eq_of_declared? h hlocal ha hmark rfl

/-- A function in the scope has another name. -/
theorem function_ne (h : Check.Clean (q.issues settings))
    (hlocal : (Node.program q).local? declaration = some (x, scope)) {a : Address} {name : Name}
    {params : List Name} {body : List Stmt}
    (ha : (Node.program q).at? a = some (.stmt (.function name params body))) :
    ¬((Node.program q).marks scope a 0 = true ∧ name.text = x) := by
  rintro ⟨hmark, rfl⟩
  refine not_denotes_function hlocal ha ((denotes_of_target?_eq_none hlocal ha rfl).2 ?_)
  exact declaration_eq_of_declared? h hlocal ha hmark rfl

theorem denotes_parameter (h : Check.Clean (q.issues settings))
    (hlocal : (Node.program q).local? declaration = some (x, scope)) {a : Address}
    {name param : Name} {params : List Name} {body : List Stmt} {i : Nat}
    (ha : (Node.program q).at? a = some (.stmt (.function name params body)))
    (hparam : params[i]? = some param) :
    (Node.program q).denotes declaration (.parameter a i) = true ↔
      decide (a = scope) = true ∧ param.text = x := by
  rw [denotes, decide_eq_true_iff, decide_eq_true_iff, eq_comm]
  constructor
  · rintro rfl
    obtain ⟨_, _, _, he, _⟩ | ⟨j, _, _, _, param', he, ha', hparam', hx⟩ := local?_cases hlocal
    · cases he
    · cases he
      rw [ha] at ha'
      cases ha'
      rw [hparam] at hparam'
      cases hparam'
      exact ⟨rfl, hx⟩
  · rintro ⟨rfl, hx⟩
    exact parameter_eq h hlocal ha hparam hx

/-- The places that denote a local variable are those whose names stand for something in its scope and
are the name of the variable. -/
theorem exchanges_denotes (h : Check.Clean (q.issues settings))
    (hlocal : (Node.program q).local? declaration = some (x, scope)) (hy : y ∉ q.names) :
    (Node.program q).Exchanges scope (Equiv.swap x y) fun place z =>
      if (Node.program q).denotes declaration place then y else z := by
  have hfresh {a : Address} {n : Node} {z : Text} (ha : (Node.program q).at? a = some n)
      (hz : z ∈ n.names) : z ≠ y := fun he => hy (mem_names_of_at? ha (he ▸ hz))
  constructor
  · intro a n name d ha hn
    rw [exchangeIf_swap (hfresh ha (mem_names_of_target? hn))]
    exact if_congr (denotes_of_target? hlocal ha hn) rfl rfl
  · intro a name e ha
    rw [exchangeIf_swap (hfresh ha List.mem_cons_self)]
    exact if_congr (denotes_var h hlocal ha) rfl rfl
  · intro a name params body ha
    rw [exchangeIf_swap (hfresh ha List.mem_cons_self)]
    exact ⟨if_neg (not_denotes_function hlocal ha), if_neg (function_ne h hlocal ha)⟩
  · intro a name params body i param ha hparam
    have hmem : param.text ∈ (Node.stmt (.function name params body)).names :=
      List.mem_cons_of_mem _ (List.mem_append_left _
        (List.mem_map_of_mem (List.mem_of_getElem? hparam)))
    rw [exchangeIf_swap (hfresh ha hmem)]
    exact if_congr (denotes_parameter h hlocal ha hparam) rfl rfl

/-- Exchanging names at places is renaming by scopes. -/
theorem renamed_mapNames {σ : Equiv.Perm Text} {f : NamePlace → Text → Text}
    (hf : (Node.program q).Exchanges scope σ f) :
    List.Forall₂ (Stmt.Renamed σ .none) q (q.mapNames f) := by
  refine Stmt.renamed_mapNamesAll hf q 0 fun i s hs => ?_
  have hroot : (Node.program q).at? [] = some (.program q) := rfl
  have hc : (Node.program q).children[0 + i]? = some (.stmt s) := by simp [children, hs]
  refine ⟨at?_child hroot hc, (marks_child hroot hc).trans ?_⟩
  funext d
  simp [isScope, marks, enclosing, Marks.none]

end Program

end Lox
