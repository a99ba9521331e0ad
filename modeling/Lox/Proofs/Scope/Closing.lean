import Lox.Proofs.Scope.Record

/-!
# Scopes open and close in the record

A scope opens with its parameters, which are complete and need not be used, and a parameter of the name of
an earlier one is reported. When it closes, the record tells of each of its first declarations whether any
reference of the program leads to it, so what is reported is what is unused.
-/

namespace Lox

namespace Check

variable {root n : Node} {predefined : List Text} {passed completed : Address → Prop}
  {scope a : Address} {scopes : List Address} {ds : Declarations} {c : Checked}

/-! ## Opening -/

theorem declares_of_mem {e : Declaration} (he : e ∈ ds) : ds.declares e.name.text = true :=
  List.any_eq_true.2 ⟨e, he, beq_iff_eq.2 rfl⟩

/-- The declaration is that of a parameter, which is complete from the start and which nothing reads yet. -/
def IsParameter (d : Declaration) : Prop := d.isParameter = true ∧ d.initialized = true ∧ d.used = false

/-- A scope that has just been opened knows its parameters only. -/
theorem records_opened (ha : root.at? a = some n)
    (hdeclares : ∀ x, ds.declares x = true ↔ x ∈ n.parameters)
    (hparameters : ∀ e ∈ ds, IsParameter e) : Records root (· < a ++ [0]) completed a ds := by
  have hparam (x : Text) : root.HasParameter a x ↔ x ∈ n.parameters := by
    simp [Node.HasParameter, ha]
  have hnone {x : Text} {d : Address} (hd : root.DeclaredAt a x d) : ¬d < a ++ [0] := fun hlt =>
    Node.not_declaredAt_reached hd ((Node.lt_snoc_zero_iff d a).1 hlt)
  refine ⟨fun x => ?_, fun e he => ?_, fun e he => ?_, [], .nil, fun d => ?_, ?_⟩
  · rw [hdeclares, hparam]
    refine (or_iff_left ?_).symm
    rintro ⟨d, hd, hlt⟩
    exact hnone hd hlt
  · exact iff_of_true (hparameters e he).2.1 (.inl ((hparam _).2 ((hdeclares _).1 (declares_of_mem he))))
  · rw [(hparameters e he).2.2]
    refine ⟨fun hused => absurd hused Bool.false_ne_true, ?_⟩
    rintro ⟨b, hb, hlt⟩
    obtain ⟨⟨t, rfl⟩, hne⟩ := Node.prefix_of_mem_enclosing hb.mem_enclosing
    cases t with
    | nil => exact absurd (List.append_nil a).symm hne
    | cons j t =>
      rcases (Node.lt_snoc_zero_iff _ a).1 hlt with hlt | he
      · exact absurd hlt (not_lt_of_gt (Node.lt_append a j t))
      · exact absurd he.symm hne
  · refine ⟨fun hd => absurd hd List.not_mem_nil, ?_⟩
    rintro ⟨⟨x, hd, -⟩, hlt⟩
    exact absurd hlt (hnone hd)
  · rw [List.filter_eq_nil_iff.2 fun e he => by rw [(hparameters e he).1]; exact Bool.false_ne_true]
    exact .nil

/-- The declarations of a scope behind a parameter, which is complete at once. -/
def addParameter (ds : Declarations) (param : Name) : Declarations :=
  (if ds.declares param.text then ds else ds ++ [⟨param, true, false, false⟩]).update param.text
    fun d => { d with initialized := true }

theorem run_parameter (param : Name) (ds : Declarations) (outer : List Declarations)
    (defined : List Text) (issues : List ScopeIssue) :
    (do Check.declare param true; Check.define param.text : Check Unit).run
        ⟨ds :: outer, defined, issues⟩ =
      ((), ⟨addParameter ds param :: outer, defined,
        if ds.declares param.text then
          issues ++ [⟨.duplicateDeclaration param.text, param.loc⟩] else issues⟩) := by
  rw [StateT.run_bind, run_declare, addParameter]
  cases ds.declares param.text <;> rfl

theorem declares_addParameter (ds : Declarations) (param : Name) (x : Text) :
    (addParameter ds param).declares x = true ↔ ds.declares x = true ∨ x = param.text := by
  rw [addParameter, declares_update _ _ _ (fun d => { d with initialized := true }) fun _ => rfl]
  cases hold : ds.declares param.text with
  | true =>
    refine (or_iff_left_of_imp ?_).symm
    rintro rfl
    exact hold
  | false => rw [if_neg Bool.false_ne_true, declares_append, eq_comm (a := x)]

theorem isParameter_addParameter (h : ∀ d ∈ ds, IsParameter d) (param : Name) :
    ∀ d ∈ addParameter ds param, IsParameter d := by
  intro d hd
  obtain ⟨d', hd', -, ⟨-, rfl⟩ | ⟨hne, rfl⟩⟩ :=
    of_mem_update (f := fun d => { d with initialized := true }) (fun _ => rfl) hd
  · split at hd'
    · exact ⟨(h d' hd').1, rfl, (h d' hd').2.2⟩
    · rcases List.mem_append.1 hd' with hd' | hd'
      · exact ⟨(h d' hd').1, rfl, (h d' hd').2.2⟩
      · obtain rfl := List.mem_singleton.1 hd'
        exact ⟨rfl, rfl, rfl⟩
  · split at hd'
    · exact h d hd'
    · rcases List.mem_append.1 hd' with hd' | hd'
      · exact h d hd'
      · obtain rfl := List.mem_singleton.1 hd'
        exact absurd rfl hne

/-- The parameters of a function are noted one after the other, and one of a name that there is already is
reported. -/
theorem run_parameters (a : Address) (before params : List Name) (outer : List Declarations)
    (defined : List Text) (issues : List ScopeIssue)
    (hdeclares : ∀ x, ds.declares x = true ↔ x ∈ before.map Name.text)
    (hparameters : ∀ e ∈ ds, IsParameter e) :
    ∃ (ds' : Declarations) (issues' : List ScopeIssue),
      (params.forM fun param => do
          Check.declare param true
          Check.define param.text : Check Unit).run ⟨ds :: outer, defined, issues⟩ =
        ((), ⟨ds' :: outer, defined, issues'⟩) ∧
      (∀ x, ds'.declares x = true ↔ x ∈ (before ++ params).map Name.text) ∧
      (∀ e ∈ ds', IsParameter e) ∧
      Reports issues issues' fun o => ∃ i param, params[i]? = some param ∧
        param.text ∈ ((before ++ params).take (before.length + i)).map Name.text ∧
          o = ⟨a, [before.length + i], .duplicateDeclaration param.text, param.loc⟩ := by
  induction params generalizing before ds issues with
  | nil =>
    refine ⟨ds, issues, rfl, ?_, hparameters, reports_none ?_⟩
    · simpa using hdeclares
    · simp
  | cons param params ih =>
    obtain ⟨issues₁, hissues₁⟩ : ∃ issues₁, issues₁ = if ds.declares param.text then
        issues ++ [⟨.duplicateDeclaration param.text, param.loc⟩] else issues := ⟨_, rfl⟩
    have hdeclares₁ (x : Text) : (addParameter ds param).declares x = true ↔
        x ∈ (before ++ [param]).map Name.text := by
      rw [declares_addParameter, hdeclares, List.map_append, List.mem_append]
      exact or_congr_right List.mem_singleton.symm
    have hfirst : Reports issues issues₁ fun o => param.text ∈ before.map Name.text ∧
        o = ⟨a, [before.length], .duplicateDeclaration param.text, param.loc⟩ := by
      rw [hissues₁]
      split
      · next hold =>
        exact reports_one ⟨a, [before.length], .duplicateDeclaration param.text, param.loc⟩
          fun o => and_iff_right ((hdeclares _).1 hold)
      · next hnew => exact reports_none fun o ho => hnew ((hdeclares _).2 ho.1)
    obtain ⟨ds', issues', hrest, hdeclares', hparameters', hreports⟩ :=
      ih (before ++ [param]) issues₁ hdeclares₁ (isParameter_addParameter hparameters param)
    have hindex (i : Nat) : (before ++ [param]).length + i = before.length + (i + 1) := by
      rw [List.length_append, List.length_singleton]
      omega
    refine ⟨ds', issues', ?_, ?_, hparameters', (hfirst.append hreports ?_).congr fun o => ?_⟩
    · show (_ >>= fun _ => List.forM params _ : Check Unit).run _ = _
      rw [StateT.run_bind, run_parameter, ← hissues₁]
      exact hrest
    · simpa using hdeclares'
    · rintro _ _ ⟨-, rfl⟩ ⟨i, other, -, -, rfl⟩
      refine .inr ⟨rfl, List.cons_lt_cons_iff.2 (.inl ?_)⟩
      rw [hindex]
      omega
    · simp only [hindex, List.append_assoc, List.singleton_append]
      constructor
      · rintro (⟨hbefore, rfl⟩ | ⟨i, other, hother, hbefore, rfl⟩)
        · refine ⟨0, param, rfl, ?_, rfl⟩
          rwa [Nat.add_zero, List.take_left]
        · exact ⟨i + 1, other, hother, hbefore, rfl⟩
      · rintro ⟨i, other, hother, hbefore, rfl⟩
        cases i with
        | zero =>
          obtain rfl : param = other := Option.some.inj hother
          rw [Nat.add_zero, List.take_left] at hbefore
          exact .inl ⟨hbefore, rfl⟩
        | succ i => exact .inr ⟨i, other, hother, hbefore, rfl⟩

/-- The mistakes that can be made in the parameters of a function. -/
theorem mistake_parameters_iff {name : Name} {params : List Name} {body : List Stmt}
    (ha : root.at? a = some (.stmt (.function name params body))) (o : Finding) :
    root.Mistake predefined o ∧ o.position = a ∧ o.part ≠ [] ↔
      ∃ i param, params[i]? = some param ∧ param.text ∈ (params.take i).map Name.text ∧
        o = ⟨a, [i], .duplicateDeclaration param.text, param.loc⟩ := by
  rw [← and_assoc, Node.mistake_at_iff ha]
  constructor
  · rintro ⟨⟨_, _, he, -⟩ | ⟨_, -, -, rfl⟩ | ⟨_, _, _, he, hparameter⟩ | ⟨_, _, he, -⟩, hpart⟩
    · cases he
    · exact absurd rfl hpart
    · cases he
      exact hparameter
    · cases he
  · rintro ⟨i, param, hparam, hbefore, rfl⟩
    exact ⟨.inr (.inr (.inl ⟨name, params, body, rfl, i, param, hparam, hbefore, rfl⟩)),
      List.cons_ne_nil _ _⟩

/-- Opening the scope of a block. -/
theorem Noted.openBlock (h : Noted root predefined (· < a ++ [0]) completed scopes c)
    {body : List Stmt} {loc : Location} (ha : root.at? a = some (.stmt (.block body loc))) :
    Noted root predefined (· < a ++ [0]) completed (a :: scopes) (openScope.run c).2 ∧
      (openScope.run c).2.issues = c.issues :=
  ⟨⟨.cons (records_opened ha (by simp [Declarations.declares, Node.parameters])
    (List.forall_mem_nil _)) h.scopes, h.defined⟩, rfl⟩

/-- Opening the scope of a function, with its parameters. -/
theorem Noted.openFunction (h : Noted root predefined (· < a ++ [0]) completed scopes c)
    {name : Name} {params : List Name} {body : List Stmt}
    (ha : root.at? a = some (.stmt (.function name params body))) :
    let opening : Check Unit := do
      openScope
      params.forM fun param => do
        Check.declare param true
        Check.define param.text
    Noted root predefined (· < a ++ [0]) completed (a :: scopes) (opening.run c).2 ∧
      Reports c.issues (opening.run c).2.issues
        fun o => root.Mistake predefined o ∧ o.position = a ∧ o.part ≠ [] := by
  intro opening
  obtain ⟨ds, issues, hrun, hdeclares, hparameters, hreports⟩ :=
    @run_parameters [] a [] params c.scopes c.defined c.issues
      (by simp [Declarations.declares]) (List.forall_mem_nil _)
  have hopening : opening.run c = ((), ⟨ds :: c.scopes, c.defined, issues⟩) := hrun
  rw [hopening]
  refine ⟨⟨.cons (records_opened ha hdeclares hparameters) h.scopes, h.defined⟩,
    hreports.congr fun o => ?_⟩
  rw [mistake_parameters_iff ha]
  simp

/-! ## Closing -/

theorem run_forM_note (names : List Name) (f : Name → ScopeProblem) (c : Checked) :
    (names.forM fun name => note (f name) name.loc : Check Unit).run c =
      ((), { c with issues := c.issues ++ names.map fun name => ⟨f name, name.loc⟩ }) := by
  induction names generalizing c with
  | nil =>
    rw [List.map_nil, List.append_nil]
    rfl
  | cons name names ih =>
    show (_ >>= fun _ => List.forM names _ : Check Unit).run _ = _
    have hnote : (note (f name) name.loc).run c =
      ((), { c with issues := c.issues ++ [⟨f name, name.loc⟩] }) := rfl
    rw [StateT.run_bind, hnote]
    refine (ih _).trans ?_
    simp

/-- What is found when a scope closes. -/
theorem reports_unused (h : Records root passed completed a ds) (ha : root.at? a = some n)
    (hdeclared : ∀ x d, root.DeclaredAt a x d → passed d)
    (hread : ∀ x b, root.ReadsFrom a x b → passed b) (issues : List ScopeIssue) :
    Reports issues (issues ++ ds.unused.map fun name => ⟨.unusedVariable name.text, name.loc⟩)
      (root.Unused a) := by
  obtain ⟨as, hordered, hmem, hnames⟩ := h.firsts
  generalize hes : ds.filter (!·.isParameter) = es at hnames
  have hsub : ∀ e ∈ es, e ∈ ds := fun e he => (List.mem_filter.1 (hes ▸ he)).1
  obtain ⟨hlength, hpair⟩ := List.forall₂_iff_zip.1 hnames
  have hfst : (as.zip es).map Prod.fst = as := List.map_fst_zip (Nat.le_of_eq hlength)
  have hsnd : (as.zip es).map Prod.snd = es := List.map_snd_zip (Nat.le_of_eq hlength.symm)
  have hunused (d : Address) (e : Declaration) (hde : (d, e) ∈ as.zip es) :
      e.used = false ↔ ∀ b, ¬root.ReadsFrom a e.name.text b := by
    rw [← Bool.not_eq_true, h.used e (hsub e (List.of_mem_zip hde).2)]
    simp only [not_exists, not_and]
    exact ⟨fun hno b hb => hno b hb (hread _ b hb), fun hno b hb => absurd hb (hno b)⟩
  let finding (pair : Address × Declaration) : Finding :=
    ⟨a ++ [n.children.length], pair.1, .unusedVariable pair.2.name.text, pair.2.name.loc⟩
  refine ⟨((as.zip es).filter (!·.2.used)).map finding, ?_, ?_, fun o => ?_⟩
  · have hnames : ds.unused = ((((as.zip es).map Prod.snd).filter (!·.used)).map (·.name)) := by
      rw [hsnd, ← hes, List.filter_filter]
      rfl
    rw [hnames, List.filter_map, List.map_map, List.map_map, List.map_map]
    rfl
  · refine List.pairwise_map.2 (List.Pairwise.filter _ ?_)
    rw [← hfst, List.pairwise_map] at hordered
    exact hordered.imp fun hlt => .inr ⟨rfl, hlt⟩
  · rw [List.mem_map]
    constructor
    · rintro ⟨⟨d, e⟩, hde, rfl⟩
      obtain ⟨hde, hnot⟩ := List.mem_filter.1 hde
      obtain ⟨m, hd, hname⟩ := hpair hde
      obtain ⟨⟨x, hfirst⟩, -⟩ := (hmem d).1 (List.of_mem_zip hde).1
      obtain rfl : e.name.text = x := by
        obtain ⟨⟨m', hd', hx⟩, -⟩ := hfirst.1
        rw [hd] at hd'
        rw [← Option.some.inj hd', Node.declared?_eq, hname] at hx
        exact Option.some.inj hx
      exact .mk hd hname hfirst ((hunused d e hde).1 (by simpa using hnot)) ha
    · rintro ⟨hd, hname, hfirst, hno, hscope⟩
      next d m m' name =>
      obtain rfl : n = m' := Option.some.inj (ha.symm.trans hscope)
      have hdas : d ∈ (as.zip es).map Prod.fst := by
        rw [hfst]
        exact (hmem d).2 ⟨⟨_, hfirst⟩, hdeclared _ d hfirst.1⟩
      obtain ⟨⟨d', e⟩, hde, rfl⟩ := List.mem_map.1 hdas
      obtain ⟨m', hd', hname'⟩ := hpair hde
      rw [hd] at hd'
      rw [← Option.some.inj hd', hname] at hname'
      obtain rfl : name = e.name := Option.some.inj hname'
      have hnot : (!e.used) = true := by
        rw [(hunused d' e hde).2 hno]
        rfl
      exact ⟨(d', e), List.mem_filter.2 ⟨hde, hnot⟩, rfl⟩

/-- Closing a scope reports what no reference leads to, if the settings ask for it. -/
theorem Noted.close (settings : ScopeSettings)
    (h : Noted root predefined passed completed (a :: scopes) c) (ha : root.at? a = some n)
    (hdeclared : ∀ x d, root.DeclaredAt a x d → passed d)
    (hread : ∀ x b, root.ReadsFrom a x b → passed b) :
    Noted root predefined passed completed scopes ((closeScope settings).run c).2 ∧
      Reports c.issues ((closeScope settings).run c).2.issues
        fun o => settings.reportUnused = true ∧ root.Unused a o := by
  obtain ⟨dss, defined, issues⟩ := c
  obtain ⟨hscopes, hdefined⟩ := h
  cases hscopes with
  | @cons _ ds _ outer hds houter =>
    rw [run_closeScope, StateT.run_bind]
    cases hsettings : settings.reportUnused with
    | false =>
      exact ⟨⟨houter, hdefined⟩, reports_none fun o ho => Bool.false_ne_true ho.1⟩
    | true =>
      rw [if_pos rfl, run_forM_note]
      refine ⟨⟨houter, hdefined⟩, (reports_unused hds ha hdeclared hread issues).congr fun o => ?_⟩
      exact (and_iff_right rfl).symm

end Check

end Lox
