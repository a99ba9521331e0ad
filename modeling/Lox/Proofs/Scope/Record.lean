import Lox.Proofs.Scope.Finding
import Lox.Proofs.Scope.Check

/-!
# The record of the check

What the check has noted of the open scopes and of the globals when it stands at a position
(`Check.NotedAt`): which names a scope has declared so far, which of them are complete, to which of them
a reference has led, and where those that are not parameters were declared for the first time. The steps of
the check keep the record in step with the position, one lemma for each step; what a step reports is a list
of findings (`Check.Reports`).
-/

namespace Lox

namespace Node

/-- The node declares a name or reads one. -/
def leavesTrace : Node → Bool
  | .stmt (.var _ _) | .stmt (.function _ _ _) | .expr (.reference _ _) => true
  | _ => false

variable {root n : Node} {scope a b d : Address} {x : Text}

theorem leavesTrace_of_declared? (h : n.declared? = some x) : n.leavesTrace = true := by
  cases n with
  | stmt s =>
    cases s with
    | var | function => rfl
    | _ => cases h
  | _ => cases h

theorem DeclaredAt.isStmt (h : root.DeclaredAt scope x d) : ∃ s, root.at? d = some (.stmt s) := by
  obtain ⟨⟨n, hn, hx⟩, -⟩ := h
  cases n with
  | stmt s => exact ⟨s, hn⟩
  | _ => cases hx

theorem ReadsFrom.mem_enclosing (h : root.ReadsFrom scope x b) : scope ∈ root.enclosing b := by
  obtain ⟨_, _, -, -, k, -, hk⟩ := h
  exact List.mem_of_getElem? hk

/-- A reference leads to a scope that has declared the name before. -/
theorem ReadsFrom.declaresBefore (h : root.ReadsFrom scope x b) : root.DeclaresBefore scope x b := by
  obtain ⟨name, _, hb, rfl, k, hdistance, hk⟩ := h
  obtain ⟨⟨scope', hk', hdeclares⟩, -⟩ := hdistance
  obtain rfl := Option.some.inj (hk.symm.trans hk')
  exact (declaresBy_expr_iff hb).1 hdeclares

end Node

namespace Check

/-! ## Reports -/

/-- The check has reported the given findings, in their order. -/
def Reports (issues issues' : List ScopeIssue) (P : Finding → Prop) : Prop :=
  ∃ os : List Finding, issues' = issues ++ os.map Finding.issue ∧ os.Pairwise Finding.Precedes ∧
    ∀ o, o ∈ os ↔ P o

section Reports

variable {issues issues' issues'' : List ScopeIssue} {P Q : Finding → Prop}

theorem Reports.congr (h : Reports issues issues' P) (hPQ : ∀ o, P o ↔ Q o) :
    Reports issues issues' Q := by
  obtain ⟨os, hissues, hordered, hmem⟩ := h
  exact ⟨os, hissues, hordered, fun o => (hmem o).trans (hPQ o)⟩

theorem reports_none (hP : ∀ o, ¬P o) : Reports issues issues P :=
  ⟨[], (List.append_nil _).symm, .nil, fun o => iff_of_false List.not_mem_nil (hP o)⟩

theorem reports_one (o : Finding) (hP : ∀ o', P o' ↔ o' = o) : Reports issues (issues ++ [o.issue]) P :=
  ⟨[o], rfl, List.pairwise_singleton _ _, fun o' => List.mem_singleton.trans (hP o').symm⟩

theorem Reports.append (h : Reports issues issues' P) (h' : Reports issues' issues'' Q)
    (hlt : ∀ o o', P o → Q o' → o.Precedes o') : Reports issues issues'' fun o => P o ∨ Q o := by
  obtain ⟨os, rfl, hordered, hmem⟩ := h
  obtain ⟨os', rfl, hordered', hmem'⟩ := h'
  refine ⟨os ++ os', by rw [List.map_append, List.append_assoc], ?_, fun o => ?_⟩
  · refine List.pairwise_append.2 ⟨hordered, hordered', fun o ho o' ho' => ?_⟩
    exact hlt o o' ((hmem o).1 ho) ((hmem' o').1 ho')
  · rw [List.mem_append, hmem, hmem']

end Reports

/-! ## Records -/

/-- The declarations noted of a scope when some addresses have been passed, and the declarations at some of
them completed. -/
structure Records (root : Node) (passed completed : Address → Prop) (scope : Address)
    (ds : Declarations) : Prop where
  declares : ∀ x, ds.declares x = true ↔
    root.HasParameter scope x ∨ ∃ d, root.DeclaredAt scope x d ∧ passed d
  initialized : ∀ e ∈ ds, e.initialized = true ↔
    root.HasParameter scope e.name.text ∨ ∃ d, root.DeclaredAt scope e.name.text d ∧ completed d
  used : ∀ e ∈ ds, e.used = true ↔ ∃ b, root.ReadsFrom scope e.name.text b ∧ passed b
  firsts : ∃ as : List Address, as.Pairwise (· < ·) ∧
    (∀ d, d ∈ as ↔ (∃ x, root.FirstDeclaredAt scope x d) ∧ passed d) ∧
      List.Forall₂ (fun d e => ∃ n, root.at? d = some n ∧ n.declaredName? = some e.name) as
        (ds.filter (!·.isParameter))

/-- The check has noted the open scopes, innermost first, and the globals. -/
structure Noted (root : Node) (predefined : List Text) (passed completed : Address → Prop)
    (scopes : List Address) (c : Checked) : Prop where
  scopes : List.Forall₂ (Records root passed completed) scopes c.scopes
  defined : ∀ x, x ∈ c.defined ↔
    x ∈ predefined ∨ ∃ d, root.DeclaredGlobally x d ∧ completed d

/-- The check stands at a position. -/
abbrev NotedAt (root : Node) (predefined : List Text) (scopes : List Address) (p : Address) :
    Checked → Prop :=
  Noted root predefined (· < p) (fun d => d < p ∧ ¬root.InInitializer d p) scopes

variable {root n : Node} {predefined : List Text} {passed passed' completed completed' : Address → Prop}
  {scope a : Address} {scopes : List Address} {ds : Declarations} {c : Checked}

/-- What matters of the addresses passed is where the scope has declarations and references. -/
theorem Records.congr (h : Records root passed completed scope ds)
    (hdeclared : ∀ x d, root.DeclaredAt scope x d →
      (passed' d ↔ passed d) ∧ (completed' d ↔ completed d))
    (hread : ∀ x b, root.ReadsFrom scope x b → (passed' b ↔ passed b)) :
    Records root passed' completed' scope ds where
  declares x := by
    rw [h.declares]
    exact or_congr_right (exists_congr fun d => and_congr_right fun hd => (hdeclared x d hd).1.symm)
  initialized e he := by
    rw [h.initialized e he]
    exact or_congr_right (exists_congr fun d => and_congr_right fun hd => (hdeclared _ d hd).2.symm)
  used e he := by
    rw [h.used e he]
    exact exists_congr fun b => and_congr_right fun hb => (hread _ b hb).symm
  firsts := by
    obtain ⟨as, hordered, hmem, hnames⟩ := h.firsts
    refine ⟨as, hordered, fun d => (hmem d).trans (and_congr_right ?_), hnames⟩
    rintro ⟨x, hfirst⟩
    exact (hdeclared x d hfirst.1).1.symm

/-- A scope in which an address neither declares nor reads a name stays as it is. -/
theorem Records.pass (h : Records root (· < a) completed scope ds)
    (hdeclared : ∀ x, ¬root.DeclaredAt scope x a) (hread : ∀ x, ¬root.ReadsFrom scope x a) :
    Records root (· < a ++ [0]) completed scope ds := by
  refine h.congr (fun x d hd => ⟨Node.lt_front_iff ?_, Iff.rfl⟩) fun x b hb => Node.lt_front_iff ?_
  · rintro rfl
    exact hdeclared x hd
  · rintro rfl
    exact hread x hb

/-- What matters of the addresses passed, for all scopes and the globals. -/
theorem Noted.congr (h : Noted root predefined passed completed scopes c)
    (hpassed : ∀ d n, root.at? d = some n → n.leavesTrace = true → (passed' d ↔ passed d))
    (hcompleted : ∀ d n, root.at? d = some n → n.leavesTrace = true →
      (completed' d ↔ completed d)) : Noted root predefined passed' completed' scopes c where
  scopes := h.scopes.imp fun scope ds hds => hds.congr
    (fun x d ⟨⟨n, hn, hx⟩, _⟩ => ⟨hpassed d n hn (Node.leavesTrace_of_declared? hx),
      hcompleted d n hn (Node.leavesTrace_of_declared? hx)⟩)
    fun x b ⟨name, d, hb, _⟩ => hpassed b _ hb rfl
  defined x := by
    rw [h.defined]
    refine or_congr_right (exists_congr fun d => and_congr_right ?_)
    rintro ⟨⟨n, hn, hx⟩, _⟩
    exact (hcompleted d n hn (Node.leavesTrace_of_declared? hx)).symm

/-! ## Positions -/

/-- In front of a node that leaves no trace is in front of its children. -/
theorem Noted.enter (h : NotedAt root predefined scopes a c) (ha : root.at? a = some n)
    (hn : n.leavesTrace = false) : NotedAt root predefined scopes (a ++ [0]) c := by
  have hne {d : Address} {m : Node} (hd : root.at? d = some m) (hm : m.leavesTrace = true) : d ≠ a := by
    rintro rfl
    rw [ha] at hd
    rw [Option.some.inj hd, hm] at hn
    cases hn
  refine h.congr (fun d m hd hm => Node.lt_front_iff (hne hd hm)) fun d m hd hm => ?_
  refine and_congr (Node.lt_front_iff (hne hd hm)) (not_congr ?_)
  rw [Node.inInitializer_snoc_iff]
  exact or_iff_left fun hself => hne hd hm hself.1

/-- Behind the last child of a node that is no variable is behind the node. -/
theorem Noted.leave {i : Nat} (h : NotedAt root predefined scopes (a ++ [i] ++ [n.children.length]) c)
    (ha : root.at? (a ++ [i]) = some n) (hn : ∀ name e, n ≠ .stmt (.var name e)) :
    NotedAt root predefined scopes (a ++ [i + 1]) c := by
  refine h.congr (fun d m hd _ => Node.lt_behind_iff ha hd) fun d m hd _ => ?_
  refine and_congr (Node.lt_behind_iff ha hd) (not_congr ?_)
  have hself : ¬(d = a ++ [i] ∧ ∃ name e, root.at? (a ++ [i]) = some (.stmt (.var name e))) := by
    rintro ⟨-, name, e, hv⟩
    rw [ha] at hv
    exact hn name e (Option.some.inj hv)
  rw [Node.inInitializer_snoc_iff (a ++ [i]), or_iff_left hself, Node.inInitializer_snoc_iff a i,
    Node.inInitializer_snoc_iff a (i + 1)]

/-! ## Declarations -/

variable {name : Name}

/-- The scopes further out are other scopes. -/
theorem forall₂_outer {R S : Address → Declarations → Prop} {outer : List Address}
    {dss : List Declarations} (hn : (scope :: outer).Nodup) (h : List.Forall₂ R outer dss)
    (himp : ∀ other ds, other ∈ outer → other ≠ scope → R other ds → S other ds) :
    List.Forall₂ S outer dss := by
  have hboth : List.Forall₂ (fun other ds => other ∈ outer ∧ R other ds) outer dss :=
    (List.forall₂_and_left _ _).2 ⟨fun _ => id, h⟩
  refine hboth.imp fun other ds ⟨hmem, hds⟩ => himp other ds hmem ?_ hds
  rintro rfl
  exact (List.nodup_cons.1 hn).1 hmem

theorem declaredAt_of_head? (ha : root.at? a = some n) (hname : n.declaredName? = some name)
    (hscope : (root.enclosing a).head? = some scope) (x : Text) :
    root.DeclaredAt scope x a ↔ x = name.text := by
  rw [Node.declaredAt_self ha, Node.declared?_eq, hname]
  simp [hscope, eq_comm]

theorem not_readsFrom_declaration (ha : root.at? a = some n) (hname : n.declaredName? = some name)
    {x : Text} : ¬root.ReadsFrom scope x a := by
  rintro ⟨_, _, hread, -⟩
  rw [ha] at hread
  rw [Option.some.inj hread] at hname
  cases hname

/-- A scope that does not have the name yet notes its first declaration. -/
theorem Records.declare_new (h : Records root (· < a) completed scope ds) (ha : root.at? a = some n)
    (hname : n.declaredName? = some name) (hscope : (root.enclosing a).head? = some scope)
    (hcompleted : ∀ d, completed d → d < a) (hnew : ¬ds.declares name.text = true) :
    Records root (· < a ++ [0]) completed scope (ds ++ [⟨name, false, false, false⟩]) := by
  have hself := declaredAt_of_head? ha hname hscope
  have hfresh : ¬root.DeclaresBefore scope name.text a := fun hb => hnew ((h.declares _).2 hb)
  have hread {x : Text} : ¬root.ReadsFrom scope x a := not_readsFrom_declaration ha hname
  refine ⟨fun x => ?_, fun e he => ?_, fun e he => ?_, ?_⟩
  · rw [declares_append, h.declares, or_assoc]
    refine or_congr_right ⟨?_, ?_⟩
    · rintro (⟨d, hd, hlt⟩ | rfl)
      · exact ⟨d, hd, (Node.lt_snoc_zero_iff d a).2 (.inl hlt)⟩
      · exact ⟨a, (hself _).2 rfl, (Node.lt_snoc_zero_iff a a).2 (.inr rfl)⟩
    · rintro ⟨d, hd, hlt⟩
      rcases (Node.lt_snoc_zero_iff d a).1 hlt with hlt | rfl
      · exact .inl ⟨d, hd, hlt⟩
      · exact .inr ((hself x).1 hd).symm
  · rcases List.mem_append.1 he with he | he
    · exact h.initialized e he
    · obtain rfl := List.mem_singleton.1 he
      refine ⟨nofun, fun hcomplete => absurd ?_ hfresh⟩
      exact hcomplete.imp_right fun ⟨d, hd, hc⟩ => ⟨d, hd, hcompleted d hc⟩
  · rcases List.mem_append.1 he with he | he
    · rw [h.used e he]
      refine exists_congr fun b => and_congr_right fun hb => (Node.lt_front_iff ?_).symm
      rintro rfl
      exact hread hb
    · obtain rfl := List.mem_singleton.1 he
      refine ⟨nofun, ?_⟩
      rintro ⟨b, hb, hlt⟩
      rcases (Node.lt_snoc_zero_iff b a).1 hlt with hlt | rfl
      · exact absurd (hb.declaresBefore.imp_right fun ⟨d, hd, hdb⟩ => ⟨d, hd, lt_trans hdb hlt⟩) hfresh
      · exact absurd hb hread
  · obtain ⟨as, hordered, hmem, hnames⟩ := h.firsts
    refine ⟨as ++ [a], ?_, fun d => ?_, ?_⟩
    · refine List.pairwise_append.2 ⟨hordered, List.pairwise_singleton _ _, fun d hd b hb => ?_⟩
      obtain rfl := List.mem_singleton.1 hb
      exact ((hmem d).1 hd).2
    · rw [List.mem_append, List.mem_singleton, hmem, Node.lt_snoc_zero_iff, and_or_left]
      refine or_congr_right ⟨?_, And.right⟩
      rintro rfl
      exact ⟨⟨_, (hself _).2 rfl, hfresh⟩, rfl⟩
    · rw [List.filter_append]
      exact List.rel_append hnames (.cons ⟨n, ha, hname⟩ .nil)

/-- A scope that has the name already notes nothing. -/
theorem Records.declare_again (h : Records root (· < a) completed scope ds)
    (ha : root.at? a = some n) (hname : n.declaredName? = some name)
    (hscope : (root.enclosing a).head? = some scope) (hold : ds.declares name.text = true) :
    Records root (· < a ++ [0]) completed scope ds := by
  have hself := declaredAt_of_head? ha hname hscope
  refine ⟨fun x => ?_, h.initialized, fun e he => ?_, ?_⟩
  · constructor
    · intro hx
      exact ((h.declares x).1 hx).imp_right fun ⟨d, hd, hlt⟩ =>
        ⟨d, hd, (Node.lt_snoc_zero_iff d a).2 (.inl hlt)⟩
    · rintro (hparam | ⟨d, hd, hlt⟩)
      · exact (h.declares x).2 (.inl hparam)
      · rcases (Node.lt_snoc_zero_iff d a).1 hlt with hlt | rfl
        · exact (h.declares x).2 (.inr ⟨d, hd, hlt⟩)
        · rwa [(hself x).1 hd]
  · rw [h.used e he]
    refine exists_congr fun b => and_congr_right fun hb => (Node.lt_front_iff ?_).symm
    rintro rfl
    exact not_readsFrom_declaration ha hname hb
  · obtain ⟨as, hordered, hmem, hnames⟩ := h.firsts
    refine ⟨as, hordered, fun d => ?_, hnames⟩
    rw [hmem, Node.lt_snoc_zero_iff, and_or_left, or_iff_left]
    rintro ⟨⟨x, hd, hfresh⟩, rfl⟩
    rw [(hself x).1 hd] at hfresh
    exact hfresh ((h.declares _).1 hold)

/-- The mistake that can be made in declaring a name. -/
theorem mistake_declaration_iff (predefined : List Text) (ha : root.at? a = some n)
    (hname : n.declaredName? = some name) (o : Finding) :
    root.Mistake predefined o ∧ o.position = a ∧ o.part = [] ↔
      o = ⟨a, [], .duplicateDeclaration name.text, name.loc⟩ ∧
        ∃ scope, (root.enclosing a).head? = some scope ∧ root.DeclaresBefore scope name.text a := by
  rw [← and_assoc, Node.mistake_at_iff ha]
  constructor
  · rintro ⟨⟨e, loc, rfl, -⟩ | ⟨name', hname', hbefore, rfl⟩ | ⟨_, _, _, -, i, param, -, -, rfl⟩ |
      ⟨name', d, rfl, -⟩, hpart⟩
    · cases hname
    · obtain rfl := Option.some.inj (hname.symm.trans hname')
      exact ⟨rfl, hbefore⟩
    · cases hpart
    · cases hname
  · rintro ⟨rfl, hbefore⟩
    exact ⟨.inr (.inl ⟨name, hname, hbefore, rfl⟩), rfl⟩

/-- Declaring a name reports a mistake if there is one, and the name has been passed then. -/
theorem Noted.declare (h : NotedAt root predefined (root.enclosing a) a c)
    (ha : root.at? a = some n) (hname : n.declaredName? = some name) :
    Noted root predefined (· < a ++ [0]) (fun d => d < a ∧ ¬root.InInitializer d a)
        (root.enclosing a) ((declare name false).run c).2 ∧
      Reports c.issues ((declare name false).run c).2.issues
        fun o => root.Mistake predefined o ∧ o.position = a ∧ o.part = [] := by
  obtain ⟨dss, defined, issues⟩ := c
  obtain ⟨hscopes, hdefined⟩ := h
  have hn := Node.enclosing_nodup root a
  have hmistake := mistake_declaration_iff predefined ha hname
  generalize hen : root.enclosing a = scopes at *
  cases hscopes with
  | nil =>
    refine ⟨⟨.nil, hdefined⟩, reports_none fun o ho => ?_⟩
    obtain ⟨-, scope, hscope, -⟩ := (hmistake o).1 ho
    cases hscope
  | @cons scope ds outer dss hds houter =>
    have hscope : (root.enclosing a).head? = some scope := by rw [hen]; rfl
    have houter' := forall₂_outer hn houter fun other ds _ hne hother =>
      hother.pass (fun x hd => hne (Option.some.inj (hd.2.symm.trans hscope)))
        fun x => not_readsFrom_declaration ha hname
    rw [run_declare]
    dsimp only
    split
    · next hold =>
      refine ⟨⟨.cons (hds.declare_again ha hname hscope hold) houter', hdefined⟩,
        reports_one ⟨a, [], .duplicateDeclaration name.text, name.loc⟩ fun o => ?_⟩
      rw [hmistake]
      exact and_iff_left ⟨scope, rfl, (hds.declares _).1 hold⟩
    · next hnew =>
      refine ⟨⟨.cons (hds.declare_new ha hname hscope (fun d hd => hd.1) hnew) houter', hdefined⟩,
        reports_none fun o ho => ?_⟩
      obtain ⟨-, scope', hscope', hbefore⟩ := (hmistake o).1 ho
      obtain rfl : scope = scope' := Option.some.inj hscope'
      exact hnew ((hds.declares _).2 hbefore)

/-! ## Changes of declarations -/

section Update

variable {x : Text} {f : Declaration → Declaration}

theorem of_mem_update (hname : ∀ d, (f d).name = d.name) {e : Declaration} (he : e ∈ ds.update x f) :
    ∃ e' ∈ ds, e.name = e'.name ∧ (e'.name.text = x ∧ e = f e' ∨ e'.name.text ≠ x ∧ e = e') := by
  obtain ⟨e', he', rfl⟩ := List.mem_map.1 he
  by_cases hx : e'.name.text = x
  · have hbeq : (e'.name.text == x) = true := beq_iff_eq.2 hx
    rw [if_pos hbeq]
    exact ⟨e', he', hname e', .inl ⟨hx, rfl⟩⟩
  · have hbeq : ¬(e'.name.text == x) = true := fun h => hx (beq_iff_eq.1 h)
    rw [if_neg hbeq]
    exact ⟨e', he', rfl, .inr ⟨hx, rfl⟩⟩

/-- The names of the declarations that are no parameters stay the same. -/
theorem forall₂_update (hname : ∀ d, (f d).name = d.name)
    (hparameter : ∀ d, (f d).isParameter = d.isParameter) {R : Address → Name → Prop} {as : List Address}
    (h : List.Forall₂ (fun d e => R d e.name) as (ds.filter (!·.isParameter))) :
    List.Forall₂ (fun d e => R d e.name) as ((ds.update x f).filter (!·.isParameter)) := by
  have hcomp : ((!·.isParameter) ∘ fun d : Declaration => if d.name.text == x then f d else d) =
      (!·.isParameter) := by
    funext d
    simp only [Function.comp_apply]
    split
    · rw [hparameter]
    · rfl
  unfold Declarations.update
  rw [List.filter_map, hcomp, List.forall₂_map_right_iff]
  refine h.imp fun d e hd => ?_
  split
  · rwa [hname]
  · exact hd

end Update

/-- The scope notes that the declaration at an address is complete. -/
theorem Records.define (h : Records root passed completed scope ds)
    (hself : ∀ x, root.DeclaredAt scope x a ↔ x = name.text) :
    Records root passed (fun d => completed d ∨ d = a) scope
      (ds.update name.text fun d => { d with initialized := true }) := by
  have hname (d : Declaration) : ({ d with initialized := true } : Declaration).name = d.name := rfl
  refine ⟨fun x => ?_, fun e he => ?_, fun e he => ?_, ?_⟩
  · rw [declares_update ds name.text x (fun d => { d with initialized := true }) hname]
    exact h.declares x
  · obtain ⟨e', he', hsame, ⟨hx, rfl⟩ | ⟨hx, rfl⟩⟩ := of_mem_update hname he
    · exact iff_of_true rfl (.inr ⟨a, (hself _).2 hx, .inr rfl⟩)
    · rw [h.initialized e he']
      refine or_congr_right (exists_congr fun d => and_congr_right fun hd => ?_)
      refine (or_iff_left ?_).symm
      rintro rfl
      exact hx ((hself _).1 hd)
  · obtain ⟨e', he', hsame, ⟨-, rfl⟩ | ⟨-, rfl⟩⟩ := of_mem_update hname he
    · exact h.used e' he'
    · exact h.used e he'
  · obtain ⟨as, hordered, hmem, hnames⟩ := h.firsts
    refine ⟨as, hordered, hmem, ?_⟩
    exact forall₂_update (R := fun d name => ∃ n, root.at? d = some n ∧ n.declaredName? = some name)
      hname (fun _ => rfl) hnames

/-- Defining a name completes the declaration at its address. -/
theorem Noted.define (h : Noted root predefined passed completed (root.enclosing a) c)
    (ha : root.at? a = some n) (hname : n.declaredName? = some name) :
    Noted root predefined passed (fun d => completed d ∨ d = a) (root.enclosing a)
        ((define name.text).run c).2 ∧
      ((define name.text).run c).2.issues = c.issues := by
  obtain ⟨dss, defined, issues⟩ := c
  obtain ⟨hscopes, hdefined⟩ := h
  have hn := Node.enclosing_nodup root a
  have hglobal {x : Text} : root.DeclaredGlobally x a ↔ x = name.text ∧ root.enclosing a = [] := by
    rw [eq_comm]
    simp [Node.DeclaredGlobally, ha, Node.declared?_eq, hname]
  generalize hen : root.enclosing a = scopes at *
  cases hscopes with
  | nil =>
    refine ⟨⟨.nil, fun x => ?_⟩, rfl⟩
    show x ∈ name.text :: defined ↔ _
    rw [List.mem_cons, hdefined x, or_left_comm]
    refine or_congr_right ⟨?_, ?_⟩
    · rintro (rfl | ⟨d, hd, hc⟩)
      · exact ⟨a, hglobal.2 ⟨rfl, rfl⟩, .inr rfl⟩
      · exact ⟨d, hd, .inl hc⟩
    · rintro ⟨d, hd, hc | rfl⟩
      · exact .inr ⟨d, hd, hc⟩
      · exact .inl (hglobal.1 hd).1
  | @cons scope ds outer dss hds houter =>
    have hscope : (root.enclosing a).head? = some scope := by rw [hen]; rfl
    refine ⟨⟨.cons (hds.define (declaredAt_of_head? ha hname hscope)) ?_, fun x => ?_⟩, rfl⟩
    · refine forall₂_outer hn houter fun other ds _ hne hother =>
        hother.congr (fun x d hd => ⟨Iff.rfl, or_iff_left ?_⟩) fun _ _ _ => Iff.rfl
      rintro rfl
      exact hne (Option.some.inj (hd.2.symm.trans hscope))
    · refine (hdefined x).trans (or_congr_right (exists_congr fun d => and_congr_right fun hd => ?_))
      refine (or_iff_left ?_).symm
      rintro rfl
      cases (hglobal.1 hd).2

end Check

end Lox
