import Lox.Proofs.Scope.Closing

/-!
# Names that are read and assigned to

What the check does at a reference, and behind the value of an assignment. Its record tells whether a scope
around the place has declared the name (`Check.Noted.isLocal_eq_false_iff`), whether the place lies in the
initializer that would define it (`Check.Noted.isInitializing_iff`, `Check.Noted.initializesGlobal_iff`),
and which declaration a reference leads to. So what is reported there is what is to be found there.
-/

namespace Lox

namespace Node

variable {root : Node} {scope b : Address} {x : Text}

/-- A reference leads to the nearest scope that has declared the name before. -/
theorem readsFrom_iff {name : Name} {d : Option Nat}
    (hb : root.at? b = some (.expr (.reference name d))) :
    root.ReadsFrom scope x b ↔ x = name.text ∧ ∃ inner outer,
      root.enclosing b = inner ++ scope :: outer ∧ root.DeclaresBefore scope x b ∧
        ∀ s ∈ inner, ¬root.DeclaresBefore s x b := by
  have hbefore (s : Address) : root.DeclaresBy s x b ↔ root.DeclaresBefore s x b :=
    declaresBy_expr_iff hb
  constructor
  · rintro ⟨name', d', hb', rfl, k, ⟨⟨s, hs, hdeclares⟩, hinner⟩, hk⟩
    rw [hb] at hb'
    cases hb'
    obtain rfl := Option.some.inj (hs.symm.trans hk)
    obtain ⟨hlt, hget⟩ := List.getElem?_eq_some_iff.1 hk
    refine ⟨rfl, (root.enclosing b).take k, (root.enclosing b).drop (k + 1), ?_, (hbefore s).1 hdeclares,
      fun t ht => ?_⟩
    · rw [← hget, List.getElem_cons_drop, List.take_append_drop]
    · obtain ⟨j, hj, rfl⟩ := List.mem_take_iff_getElem.1 ht
      rw [← hbefore]
      exact hinner j (by omega) _ (List.getElem?_eq_getElem (by omega))
  · rintro ⟨rfl, inner, outer, hen, hdeclares, hinner⟩
    have hk : (root.enclosing b)[inner.length]? = some scope := by
      rw [hen, List.getElem?_append_right (Nat.le_refl _), Nat.sub_self]
      rfl
    refine ⟨name, d, hb, rfl, inner.length, ⟨⟨scope, hk, (hbefore scope).2 hdeclares⟩,
      fun j hj t ht => ?_⟩, hk⟩
    rw [hen, List.getElem?_append_left hj] at ht
    exact fun ht' => hinner t (List.mem_of_getElem? ht) ((hbefore t).1 ht')

/-- A name has no distance where no scope around it has declared it before. -/
theorem isDistance_none_iff {e : Expr} (hb : root.at? b = some (.expr e)) :
    root.IsDistance b x none ↔ ∀ s ∈ root.enclosing b, ¬root.DeclaresBefore s x b :=
  forall₂_congr fun _ _ => not_congr (declaresBy_expr_iff hb)

end Node

namespace Check

variable {root : Node} {predefined : List Text} {completed : Address → Prop} {scope a : Address}
  {scopes : List Address} {ds : Declarations} {c : Checked} {name : Name} {d : Option Nat}

/-! ## Marking -/

theorem not_declaredAt_expr {e : Expr} (ha : root.at? a = some (.expr e)) {x : Text} :
    ¬root.DeclaredAt scope x a := by
  rintro hd
  obtain ⟨s, hs⟩ := hd.isStmt
  rw [ha] at hs
  cases hs

/-- Inside an expression nothing more has been declared than in front of it. -/
theorem lt_snoc_iff_of_declaredAt {e : Expr} (ha : root.at? a = some (.expr e)) {x : Text} {d : Address}
    (hd : root.DeclaredAt scope x d) (j : Nat) : d < a ++ [j] ↔ d < a := by
  rw [Node.lt_snoc_iff]
  refine or_iff_left ?_
  rintro (rfl | ⟨k, -, w, rfl⟩)
  · exact not_declaredAt_expr ha hd
  · obtain ⟨s, hs⟩ := hd.isStmt
    rw [Node.at?_append, ha] at hs
    obtain ⟨e', he⟩ := Node.at?_expr hs
    cases he

/-- The scope to which a reference leads marks the name as used. -/
theorem Records.read (h : Records root (· < a) completed scope ds)
    (ha : root.at? a = some (.expr (.reference name d))) (hread : root.ReadsFrom scope name.text a) :
    Records root (· < a ++ [0]) completed scope
      (ds.update name.text fun e => { e with used := true }) := by
  have hname (e : Declaration) : ({ e with used := true } : Declaration).name = e.name := rfl
  have hdeclared {x : Text} {b : Address} (hb : root.DeclaredAt scope x b) : b < a ++ [0] ↔ b < a :=
    lt_snoc_iff_of_declaredAt ha hb 0
  refine ⟨fun x => ?_, fun e he => ?_, fun e he => ?_, ?_⟩
  · rw [declares_update ds name.text x (fun e => { e with used := true }) hname, h.declares]
    exact or_congr_right (exists_congr fun b => and_congr_right fun hb => (hdeclared hb).symm)
  · obtain ⟨e', he', hsame, ⟨-, rfl⟩ | ⟨-, rfl⟩⟩ := of_mem_update hname he
    · exact h.initialized e' he'
    · exact h.initialized e he'
  · obtain ⟨e', he', hsame, ⟨hx, rfl⟩ | ⟨hx, rfl⟩⟩ := of_mem_update hname he
    · refine iff_of_true rfl ⟨a, ?_, (Node.lt_snoc_zero_iff a a).2 (.inr rfl)⟩
      rw [hsame, hx]
      exact hread
    · rw [h.used e he']
      refine exists_congr fun b => and_congr_right fun hb => (Node.lt_front_iff ?_).symm
      rintro rfl
      exact hx ((Node.readsFrom_iff ha).1 hb).1
  · obtain ⟨as, hordered, hmem, hnames⟩ := h.firsts
    refine ⟨as, hordered, fun b => (hmem b).trans (and_congr_right ?_), ?_⟩
    · rintro ⟨x, hfirst⟩
      exact (hdeclared hfirst.1).symm
    · exact forall₂_update (R := fun d name => ∃ n, root.at? d = some n ∧ n.declaredName? = some name)
        hname (fun _ => rfl) hnames

/-- Marking a name marks it in the scope to which the reference leads. -/
theorem records_markUsed (ha : root.at? a = some (.expr (.reference name d))) {dss : List Declarations}
    (h : List.Forall₂ (Records root (· < a) completed) scopes dss) (hn : scopes.Nodup)
    (hread : ∀ scope ∈ scopes, root.ReadsFrom scope name.text a ↔ ∃ inner outer,
      scopes = inner ++ scope :: outer ∧ root.DeclaresBefore scope name.text a ∧
        ∀ s ∈ inner, ¬root.DeclaresBefore s name.text a) :
    List.Forall₂ (Records root (· < a ++ [0]) completed) scopes (markUsed name.text dss) := by
  have hother {scope : Address} (hnot : ¬root.ReadsFrom scope name.text a) (x : Text) :
      ¬root.ReadsFrom scope x a := by
    intro hx
    rw [((Node.readsFrom_iff ha).1 hx).1] at hx
    exact hnot hx
  induction h with
  | nil => exact .nil
  | @cons scope ds outer dss hds houter ih =>
    rw [markUsed]
    have hdeclares : ds.declares name.text = true ↔ root.DeclaresBefore scope name.text a :=
      hds.declares name.text
    split
    · next hlocal =>
      have hread' := (hread scope List.mem_cons_self).2
        ⟨[], outer, rfl, hdeclares.1 hlocal, List.forall_mem_nil _⟩
      refine .cons (hds.read ha hread') (forall₂_outer hn houter fun t ds hmem hne ht => ?_)
      -- the scopes further out are hidden by this one
      refine ht.pass (fun x => not_declaredAt_expr ha) (hother fun hr => ?_)
      obtain ⟨inner, rest, hsplit, -, hinner⟩ := (hread t (List.mem_cons_of_mem _ hmem)).1 hr
      cases inner with
      | nil => exact hne (List.cons.inj hsplit).1.symm
      | cons s inner =>
        obtain rfl : scope = s := (List.cons.inj hsplit).1
        exact hinner scope List.mem_cons_self (hdeclares.1 hlocal)
    · next hlocal =>
      have hnot : ¬root.DeclaresBefore scope name.text a := fun hb => hlocal (hdeclares.2 hb)
      obtain ⟨hscope, hn'⟩ := List.nodup_cons.1 hn
      refine .cons (hds.pass (fun x => not_declaredAt_expr ha) (hother fun hr => ?_))
        (ih hn' fun t ht => ?_)
      · obtain ⟨inner, rest, hsplit, hb, -⟩ := (hread scope List.mem_cons_self).1 hr
        exact hnot hb
      · rw [hread t (List.mem_cons_of_mem _ ht)]
        constructor
        · rintro ⟨inner, rest, hsplit, hb, hinner⟩
          cases inner with
          | nil =>
            obtain rfl : scope = t := (List.cons.inj hsplit).1
            exact absurd hb hnot
          | cons s inner =>
            exact ⟨inner, rest, (List.cons.inj hsplit).2, hb, (List.forall_mem_cons.1 hinner).2⟩
        · rintro ⟨inner, rest, rfl, hb, hinner⟩
          exact ⟨scope :: inner, rest, rfl, hb, List.forall_mem_cons.2 ⟨hnot, hinner⟩⟩

/-! ## What the record tells -/

/-- A name is local if an open scope has declared it. -/
theorem any_declares_iff {passed : Address → Prop} {dss : List Declarations}
    (h : List.Forall₂ (Records root passed completed) scopes dss) (x : Text) :
    dss.any (·.declares x) = true ↔ ∃ s ∈ scopes,
      root.HasParameter s x ∨ ∃ d, root.DeclaredAt s x d ∧ passed d := by
  induction h with
  | nil => simp
  | cons hds _ ih => rw [List.any_cons, Bool.or_eq_true, ih, hds.declares, List.exists_mem_cons_iff]

theorem Noted.isLocal_eq_false_iff {passed : Address → Prop}
    (h : Noted root predefined passed completed (root.enclosing a) c) {e : Expr}
    (ha : root.at? a = some (.expr e))
    (hpassed : ∀ s x d, root.DeclaredAt s x d → (passed d ↔ d < a)) (x : Text) :
    c.scopes.any (·.declares x) = false ↔ root.IsDistance a x none := by
  have hbefore (s : Address) : (root.HasParameter s x ∨ ∃ d, root.DeclaredAt s x d ∧ passed d) ↔
      root.DeclaresBefore s x a :=
    or_congr_right (exists_congr fun d => and_congr_right fun hd => hpassed s x d hd)
  rw [← Bool.not_eq_true, any_declares_iff h.scopes, Node.isDistance_none_iff ha]
  simp only [hbefore]
  exact ⟨fun hno s hs hb => hno ⟨s, hs, hb⟩, fun hno ⟨s, hs, hb⟩ => hno s hs hb⟩

theorem declares_of_find? {x : Text} {e : Declaration} (h : ds.find? x = some e) :
    e ∈ ds ∧ e.name.text = x :=
  ⟨List.mem_of_find?_eq_some h, by simpa using List.find?_some h⟩

/-- A name that the innermost scope declares and has not completed is that of the variable whose
initializer is passed. -/
theorem Noted.isInitializing_iff (h : NotedAt root predefined (root.enclosing a) a c) (x : Text) :
    ((c.scopes.head?.bind (·.find? x)).map (!·.initialized)).getD false = true ↔
      root.InitializesLocal x a := by
  obtain ⟨dss, defined, issues⟩ := c
  have hscopes := h.scopes
  have hhead {v scope : Address} (hv : root.InInitializer v a) (hd : root.DeclaredAt scope x v) :
      (root.enclosing a).head? = some scope := hv.enclosing_eq ▸ hd.2
  have hlocal : root.InitializesLocal x a ↔ ∃ scope, (root.enclosing a).head? = some scope ∧
      ∃ v, root.InInitializer v a ∧ root.FirstDeclaredAt scope x v := by
    constructor
    · rintro ⟨scope, v, hv, hfirst⟩
      exact ⟨scope, hhead hv hfirst.1, v, hv, hfirst⟩
    · rintro ⟨scope, -, v, hv, hfirst⟩
      exact ⟨scope, v, hv, hfirst⟩
  rw [hlocal]
  generalize root.enclosing a = scopes at *
  cases hscopes with
  | nil => simp
  | @cons scope ds outer dss hds houter =>
    show ((ds.find? x).map (!·.initialized)).getD false = true ↔ _
    have hbefore {v d : Address} (hv : root.InInitializer v a) (hd : root.DeclaredAt scope x d) :
        d < a ∧ ¬root.InInitializer d a ↔ d < v := by
      obtain ⟨s, hs⟩ := hd.isStmt
      exact hv.before_iff hs
    cases hfind : ds.find? x with
    | none =>
      refine iff_of_false Bool.false_ne_true ?_
      rintro ⟨scope', hscope', v, hv, hfirst⟩
      obtain rfl : scope = scope' := Option.some.inj hscope'
      obtain ⟨e, he, hx⟩ := List.any_eq_true.1 ((hds.declares x).2 (.inr ⟨v, hfirst.1, hv.lt⟩))
      exact List.find?_eq_none.1 hfind e he hx
    | some e =>
      obtain ⟨he, rfl⟩ := declares_of_find? hfind
      show (!e.initialized) = true ↔ _
      rw [Bool.not_eq_true', ← Bool.not_eq_true, hds.initialized e he]
      constructor
      · intro hnot
        rcases (hds.declares _).1 (declares_of_mem he) with hparam | ⟨v, hd, hlt⟩
        · exact absurd (.inl hparam) hnot
        · have hv : root.InInitializer v a := by
            by_contra hinit
            exact hnot (.inr ⟨v, hd, hlt, hinit⟩)
          refine ⟨scope, rfl, v, hv, hd, ?_⟩
          rintro (hparam | ⟨d, hd', hlt'⟩)
          · exact hnot (.inl hparam)
          · exact hnot (.inr ⟨d, hd', (hbefore hv hd').2 hlt'⟩)
      · rintro ⟨scope', hscope', v, hv, hd, hfresh⟩
        obtain rfl : scope = scope' := Option.some.inj hscope'
        rintro (hparam | ⟨d, hd', hcomplete⟩)
        · exact hfresh (.inl hparam)
        · exact hfresh (.inr ⟨d, hd', (hbefore hv hd').1 hcomplete⟩)

/-- The global variable that the check takes for the one being initialized is the one in whose initializer
the address lies. -/
def Initializing (root : Node) (initializing : Option Text) (a : Address) : Prop :=
  ∀ x, initializing = some x ↔ ∃ v, root.InInitializer v a ∧ root.DeclaredGlobally x v

theorem Noted.initializesGlobal_iff (h : NotedAt root predefined scopes a c)
    {initializing : Option Text} (hinit : Initializing root initializing a) (x : Text) :
    (decide (initializing = some x) && !c.defined.contains x) = true ↔
      root.InitializesGlobal predefined x a := by
  have hbefore {v d : Address} (hv : root.InInitializer v a) (hd : root.DeclaredGlobally x d) :
      d < a ∧ ¬root.InInitializer d a ↔ d < v := by
    obtain ⟨⟨n, hn, hx⟩, -⟩ := hd
    cases n with
    | stmt s => exact hv.before_iff hn
    | _ => cases hx
  rw [Bool.and_eq_true, decide_eq_true_iff, hinit x, Bool.not_eq_true', ← Bool.not_eq_true,
    List.contains_iff_mem, h.defined]
  constructor
  · rintro ⟨⟨v, hv, hx⟩, hnot⟩
    refine ⟨v, hv, hx, fun hmem => hnot (.inl hmem), fun d hlt hd => hnot (.inr ⟨d, hd, ?_⟩)⟩
    exact (hbefore hv hd).2 hlt
  · rintro ⟨v, hv, hx, hnew, hfirst⟩
    refine ⟨⟨v, hv, hx⟩, ?_⟩
    rintro (hmem | ⟨d, hd, hcomplete⟩)
    · exact hnew hmem
    · exact hfirst d ((hbefore hv hd).1 hcomplete) hd

end Check

end Lox
