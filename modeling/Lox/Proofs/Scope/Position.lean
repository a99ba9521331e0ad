import Lox.Proofs.Scope.Context

/-!
# Positions between nodes

Going through a program stands at a position at every moment: in front of a node, which is the address of
the node, or behind the last child of a node, which is the address that a further child would have. What
has been passed is what has a smaller address. Behind a node is in front of the next one
(`Node.lt_behind_iff`), and a name is complete inside the initializer of a variable if it was declared in
front of the variable (`Node.InInitializer.before_iff`).
-/

namespace Lox

namespace Node

variable {root n : Node} {a d v : Address}

/-! ## The order of positions -/

theorem lt_snoc_zero_iff (d a : Address) : d < a ++ [0] ↔ d < a ∨ d = a := by
  simp [lt_snoc_iff]

theorem lt_front_iff (h : d ≠ a) : d < a ++ [0] ↔ d < a :=
  (lt_snoc_zero_iff d a).trans (or_iff_left h)

theorem lt_snoc_succ_iff (d a : Address) (i : Nat) :
    d < a ++ [i + 1] ↔ d < a ++ [i] ∨ a ++ [i] <+: d := by
  rw [lt_snoc_iff, lt_snoc_iff]
  constructor
  · rintro (hlt | heq | ⟨j, hj, e, rfl⟩)
    · exact .inl (.inl hlt)
    · exact .inl (.inr (.inl heq))
    · rcases Nat.lt_succ_iff_lt_or_eq.1 hj with hj | rfl
      · exact .inl (.inr (.inr ⟨j, hj, e, rfl⟩))
      · exact .inr ⟨e, by simp⟩
  · rintro ((hlt | heq | ⟨j, hj, e, rfl⟩) | ⟨e, rfl⟩)
    · exact .inl hlt
    · exact .inr (.inl heq)
    · exact .inr (.inr ⟨j, Nat.lt_succ_of_lt hj, e, rfl⟩)
    · exact .inr (.inr ⟨i, Nat.lt_succ_self i, e, by simp⟩)

/-- What comes behind a node and in front of something in it lies in it. -/
theorem prefix_of_lt_of_lt {w : Address} (hvd : v < d) (hda : d < v ++ w) : v <+: d := by
  induction v generalizing d with
  | nil => exact List.nil_prefix
  | cons k v ih =>
    cases d with
    | nil => exact absurd hvd (List.not_lt_nil _)
    | cons j d =>
      rw [List.cons_append] at hda
      rcases List.cons_lt_cons_iff.1 hvd with hkj | ⟨rfl, hlt⟩
      · rcases List.cons_lt_cons_iff.1 hda with hjk | ⟨rfl, -⟩
        · exact absurd hkj (Nat.lt_asymm hjk)
        · exact absurd hkj (Nat.lt_irrefl _)
      · rcases List.cons_lt_cons_iff.1 hda with hjk | ⟨-, hda⟩
        · exact absurd hjk (Nat.lt_irrefl _)
        · exact (List.prefix_cons_inj k).2 (ih hlt hda)

/-- A node below another is below one of its children. -/
theorem exists_child_of_at? {m : Node} {j : Nat} {e : Address} (ha : root.at? a = some n)
    (h : root.at? (a ++ j :: e) = some m) : ∃ c, n.children[j]? = some c ∧ c.at? e = some m := by
  rw [at?_append, ha] at h
  exact Option.bind_eq_some_iff.1 h

/-- Behind the last child of a node is behind the node. -/
theorem lt_behind_iff {q : Address} {i : Nat} (ha : root.at? (q ++ [i]) = some n) {m : Node}
    (hd : root.at? d = some m) :
    d < q ++ [i + 1] ↔ d < q ++ [i] ++ [n.children.length] := by
  rw [lt_snoc_succ_iff, lt_snoc_iff d (q ++ [i])]
  refine or_congr_right ⟨?_, ?_⟩
  · rintro ⟨t, rfl⟩
    cases t with
    | nil => exact .inl (List.append_nil _)
    | cons j e =>
      obtain ⟨c, hc, -⟩ := exists_child_of_at? ha hd
      exact .inr ⟨j, (List.getElem?_eq_some_iff.1 hc).1, e, rfl⟩
  · rintro (rfl | ⟨j, -, e, rfl⟩)
    · exact List.prefix_refl _
    · exact List.prefix_append _ _

/-! ## Scopes around positions -/

/-- The scopes around a position in a node, whether there is a child or not. -/
theorem enclosing_position (ha : root.at? a = some n) (j : Nat) :
    root.enclosing (a ++ [j]) = root.inside n a := by
  rw [enclosing_append ha]
  unfold inside
  congr 1
  rw [enclosing]
  cases n.children[j]? <;> cases n.isScope <;> simp [enclosing]

theorem isScope_of_mem_enclosing {b : Address} (h : b ∈ n.enclosing a) :
    ∃ m, n.at? b = some m ∧ m.isScope = true := by
  induction a generalizing n b with
  | nil => cases h
  | cons i a ih =>
    rw [enclosing, List.mem_append] at h
    rcases h with h | h
    · cases hc : n.children[i]? with
      | none => simp [hc] at h
      | some c =>
        obtain ⟨b', hb', rfl⟩ : ∃ b' ∈ c.enclosing a, i :: b' = b := by simpa [hc] using h
        obtain ⟨m, hm, hscope⟩ := ih hb'
        exact ⟨m, by simpa [at?, hc] using hm, hscope⟩
    · split at h
      · next hscope =>
        obtain rfl := List.mem_singleton.1 h
        exact ⟨n, rfl, hscope⟩
      · cases h

theorem enclosing_expr (e : Expr) (w : Address) : (Node.expr e).enclosing w = [] := by
  induction w generalizing e with
  | nil => rfl
  | cons j w ih =>
    rw [enclosing]
    cases hc : (Node.expr e).children[j]? with
    | none => rfl
    | some c =>
      obtain ⟨e', -, rfl⟩ := List.mem_map.1 (List.mem_of_getElem? hc)
      simp [ih, isScope]

/-! ## Initializers -/

theorem isExpr_of_mem_children_var {name : Name} {e : Option Expr} {c : Node}
    (hc : c ∈ (Node.stmt (.var name e)).children) : ∃ e', c = .expr e' := by
  cases e with
  | none => cases hc
  | some e => exact ⟨e, by simpa [children, Stmt.children] using hc⟩

/-- No statement lies in an initializer. -/
theorem InInitializer.isExpr (h : root.InInitializer v a) (ha : root.at? a = some n) :
    ∃ e, n = .expr e := by
  obtain ⟨⟨w, rfl⟩, hne, name, e, hv⟩ := h
  cases w with
  | nil => exact absurd (List.append_nil v).symm hne
  | cons j w =>
    obtain ⟨c, hc, hm⟩ := exists_child_of_at? hv ha
    obtain ⟨e', rfl⟩ := isExpr_of_mem_children_var (List.mem_of_getElem? hc)
    exact at?_expr hm

/-- An initializer lies in the scopes of its variable. -/
theorem InInitializer.enclosing_eq (h : root.InInitializer v a) :
    root.enclosing a = root.enclosing v := by
  obtain ⟨⟨w, rfl⟩, -, name, e, hv⟩ := h
  rw [enclosing_append hv]
  cases w with
  | nil => rfl
  | cons j w =>
    rw [enclosing]
    cases hc : (Node.stmt (.var name e)).children[j]? with
    | none => rfl
    | some c =>
      obtain ⟨e', rfl⟩ := isExpr_of_mem_children_var (List.mem_of_getElem? hc)
      simp [enclosing_expr, isScope]

/-- The initializers around a position in a node are those around the node, and the node's own. -/
theorem inInitializer_snoc_iff (a : Address) (j : Nat) :
    root.InInitializer v (a ++ [j]) ↔
      root.InInitializer v a ∨ v = a ∧ ∃ name e, root.at? a = some (.stmt (.var name e)) := by
  constructor
  · rintro ⟨hp, hne, hv⟩
    rcases List.prefix_concat_iff.1 hp with he | hp
    · exact absurd he hne
    · by_cases he : v = a
      · exact .inr ⟨he, he ▸ hv⟩
      · exact .inl ⟨hp, he, hv⟩
  · rintro (⟨hp, hne, hv⟩ | ⟨rfl, hv⟩)
    · refine ⟨hp.trans (List.prefix_append a [j]), ?_, hv⟩
      rintro rfl
      have hlength := hp.length_le
      rw [List.length_append, List.length_singleton] at hlength
      omega
    · exact ⟨List.prefix_append v [j], by simp, hv⟩

theorem InInitializer.lt (h : root.InInitializer v a) : v < a := by
  obtain ⟨⟨w, rfl⟩, hne, -⟩ := h
  cases w with
  | nil => exact absurd (List.append_nil v).symm hne
  | cons j w => exact lt_append v j w

/-- **What is complete in an initializer.** The declarations that are complete at a place in the
initializer of a variable are those in front of the variable. -/
theorem InInitializer.before_iff (h : root.InInitializer v a) {s : Stmt}
    (hd : root.at? d = some (.stmt s)) : d < a ∧ ¬root.InInitializer d a ↔ d < v := by
  constructor
  · rintro ⟨hda, hinit⟩
    rcases lt_trichotomy d v with hlt | rfl | hlt
    · exact hlt
    · exact absurd h hinit
    · -- it would lie in the initializer itself
      obtain ⟨⟨w, rfl⟩, -, name, e, hv⟩ := h
      have hbelow := prefix_of_lt_of_lt hlt hda
      have hin : root.InInitializer v d := ⟨hbelow, fun he => not_lt_self d (he ▸ hlt), name, e, hv⟩
      obtain ⟨e', he⟩ := hin.isExpr hd
      cases he
  · intro hdv
    refine ⟨lt_trans hdv h.lt, fun hin => ?_⟩
    -- the variable would lie in its initializer
    obtain ⟨w, rfl⟩ := h.1
    obtain ⟨name, e, hv⟩ := h.2.2
    have hbelow : d <+: v := by
      refine List.prefix_of_prefix_length_le hin.1 (List.prefix_append v w) ?_
      by_contra hlong
      have hvd := List.prefix_of_prefix_length_le (List.prefix_append v w) hin.1 (by omega)
      obtain ⟨t, rfl⟩ := hvd
      cases t with
      | nil => exact not_lt_self v (by rwa [List.append_nil] at hdv)
      | cons j t => exact List.lt_asymm hdv (lt_append v j t)
    have hin : root.InInitializer d v := ⟨hbelow, fun he => not_lt_self v (he ▸ hdv), hin.2.2⟩
    obtain ⟨e', he⟩ := hin.isExpr hv
    cases he

end Node

end Lox
