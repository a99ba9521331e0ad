import Lox.Proofs.Run.CutOff
import Lox.Proofs.Run.Fuel
import Lox.Proofs.Run.Session

/-!
# The limit on calls is a cut-off

The limit on the calls that may be under way decides only where a run is cut off. Of two runs of one
program, under a limit and under one that is not lower, the second one does what the first one does,
until the first one is stopped by its limit: the limits are looked at in one place only, where a call is
checked (`cutOff_callWithin`). So what ends in any other way ends in the same way under the higher
limit, and what a run that is stopped has written the other one has written by then, too
(`Session.interpret_cutOff`).
-/

namespace Lox

variable {l : Link}

open Run

/-- How to call corresponding values from one place. -/
structure Caller.CutOff (call call' : Caller) : Prop where
  calls : ∀ {l : Link} {v v' : Value} {args args' : List Value} (site : Location), v.Alike l v' →
    Values.Alike l args args' → Run.CutOff l (call v args site) (call' v' args' site) Value.Alike
  appends : ∀ v args site, (call' v args site).Appends

variable {call call' : Caller}

/-! ## Expressions -/

namespace Expr

variable {f f' : Nat}

theorem cutOff_readVariable (hf : l.frames f f') (name : Name) (d : Option Nat) :
    CutOff l (readVariable f name d) (readVariable f' name d) Value.Alike := by
  intro l₁ m m' hl hm
  have hv : Option.Rel (Value.Alike l₁) (m.value? f name d) (m'.value? f' name d) := by
    cases d with
    | none => exact hm.frames.values hm.global name.text
    | some d => exact hm.frames.getAt (hl.frames hf) d name.text
  refine Cut.congr ?_ (readVariable_eq f name d m) (readVariable_eq f' name d m')
  revert hv
  generalize m.value? f name d = v, m'.value? f' name d = v'
  rintro (hv | _)
  · exact cutOff_pure (fun l₂ hl₂ => hv.mono hl₂) l₁ m m' (.refl l₁) hm
  · exact cutOff_fail _ _ l₁ m m' (.refl l₁) hm

theorem cutOff_writeVariable (hf : l.frames f f') (name : Name) (d : Option Nat) {v v' : Value}
    (hv : v.Alike l v') :
    CutOff l (writeVariable f name d v) (writeVariable f' name d v') anyResult := by
  intro l₁ m m' hl hm
  have htarget : Option.Rel l₁.frames (m.binder? f name d) (m'.binder? f' name d) := by
    cases d with
    | none => exact hm.frames.binder? hm.global 0 name.text
    | some d => exact hm.frames.binder? (hl.frames hf) d name.text
  refine Cut.congr ?_ (writeVariable_eq f name d v m) (writeVariable_eq f' name d v' m')
  revert htarget
  generalize m.binder? f name d = target, m'.binder? f' name d = target'
  rintro (htarget | _)
  · exact cutOff_define htarget name.text (hv.mono hl) l₁ m m' (.refl l₁) hm
  · exact cutOff_fail _ _ l₁ m m' (.refl l₁) hm

mutual

theorem cutOff_eval (hcall : call.CutOff call') {l : Link} (hf : l.frames f f') (e : Expr)
    (he : (Node.expr e).Linked l) : CutOff l (e.eval call f) (e.eval call' f') Value.Alike := by
  have happends := Machine.stepwise_output
  cases e with
  | literal v loc => exact cutOff_pure fun l₁ hl => (he [] v loc rfl).mono hl
  | grouping e => exact cutOff_eval hcall hf e (he.operand (by simp [children]))
  | unary op e =>
    refine (cutOff_eval hcall hf e (he.operand (by simp [children]))).bind
      (fun _ => happends.ofExcept _ _) fun l₁ v v' hl hv => ?_
    rw [← (Operator.Alike.refl (fun _ => rfl) op).unaryValue hv]
    exact cutOff_ofExcept _ fun r hr _ => .self (Operator.isCallable_unaryValue hr)
  | binary op a b =>
    have hb : (Node.expr b).Linked l := he.operand (by simp [children])
    refine (cutOff_eval hcall hf a (he.operand (by simp [children]))).bind
      (fun _ => happends.bind (happends.eval hcall.appends f' b) fun _ => happends.ofExcept _ _)
      fun l₁ v v' hl hv => ?_
    refine (cutOff_eval hcall (hl.frames hf) b (hb.mono hl)).bind
      (fun _ => happends.ofExcept _ _) fun l₂ w w' hl₁ hw => cutOff_numbering fun _ _ hn => ?_
    rw [← (Operator.Alike.refl (fun _ => rfl) op).binaryValue hn (hv.mono hl₁) hw]
    exact cutOff_ofExcept _ fun r hr _ => .self (Operator.isCallable_binaryValue hr)
  | logical op a b =>
    have hb : (Node.expr b).Linked l := he.operand (by simp [children])
    unfold eval
    refine (cutOff_eval hcall hf a (he.operand (by simp [children]))).bind
      (fun _ => Machine.Stepwise.ite (happends.pure _)
        (happends.bind (happends.eval hcall.appends f' b) fun _ => happends.pure _))
      fun l₁ v v' hl hv => ?_
    rw [hv.truthy]
    refine .ite (cutOff_pure fun _ _ => .bool _) ?_
    refine (cutOff_eval hcall (hl.frames hf) b (hb.mono hl)).bind
      (fun _ => happends.pure _) fun l₂ w w' _ hw => ?_
    rw [hw.truthy]
    exact cutOff_pure fun _ _ => .bool _
  | reference name d => exact cutOff_readVariable hf name d
  | assign name d e =>
    refine (cutOff_eval hcall hf e (he.operand (by simp [children]))).bind
      (fun _ => happends.bind (happends.writeVariable f' name d _) fun _ => happends.pure _)
      fun l₁ v v' hl hv => ?_
    exact (cutOff_writeVariable (hl.frames hf) name d hv).bind (fun _ => happends.pure _)
      fun l₂ _ _ hl₁ _ => cutOff_pure fun l₃ hl₂ => hv.mono (hl₁.trans hl₂)
  | call g args loc =>
    have hargs : ∀ e ∈ args, (Node.expr e).Linked l := fun e hmem =>
      he.operand (List.mem_cons_of_mem g hmem)
    refine (cutOff_eval hcall hf g (he.operand (by simp [children]))).bind
      (fun _ => happends.bind (happends.evalAll hcall.appends f' args) fun _ =>
        hcall.appends _ _ _)
      fun l₁ v v' hl hv => ?_
    exact (cutOff_evalAll hcall (hl.frames hf) args fun e hmem => (hargs e hmem).mono hl).bind
      (fun _ => hcall.appends _ _ _) fun l₂ vs vs' hl₁ hvs => hcall.calls loc (hv.mono hl₁) hvs

theorem cutOff_evalAll (hcall : call.CutOff call') {l : Link} (hf : l.frames f f')
    (es : List Expr) (hes : ∀ e ∈ es, (Node.expr e).Linked l) :
    CutOff l (evalAll call f es) (evalAll call' f' es) Values.Alike := by
  have happends := Machine.stepwise_output
  cases es with
  | nil => exact cutOff_pure fun _ _ => .nil
  | cons e es =>
    obtain ⟨he, hes⟩ := List.forall_mem_cons.1 hes
    refine (cutOff_eval hcall hf e he).bind
      (fun _ => happends.bind (happends.evalAll hcall.appends f' es) fun _ => happends.pure _)
      fun l₁ v v' hl hv => ?_
    refine (cutOff_evalAll hcall (hl.frames hf) es fun c hc => (hes c hc).mono hl).bind
      (fun _ => happends.pure _) fun l₂ vs vs' hl₁ hvs => cutOff_pure fun l₃ hl₂ => ?_
    exact .cons (hv.mono (hl₁.trans hl₂)) (hvs.imp fun _ _ hw => hw.mono hl₂)

end

theorem cutOff_evalOption (hcall : call.CutOff call') (hf : l.frames f f') {e : Option Expr}
    (he : ∀ c ∈ (e.map Node.expr).toList, c.Linked l) :
    CutOff l (evalOption call f e) (evalOption call' f' e) Value.Alike := by
  cases e with
  | none => exact cutOff_pure fun _ _ => .nil
  | some e => exact cutOff_eval hcall hf e (he _ (by simp))

end Expr

/-! ## Statements -/

theorem Run.cutOff_loop {condition condition' : Run Value} {body body' : Run Flow}
    (hcondition : ∀ l₁, l.Extends l₁ → CutOff l₁ condition condition' Value.Alike)
    (hbody : ∀ l₁, l.Extends l₁ → CutOff l₁ body body' Flow.Alike)
    (happends : condition'.Appends) (happends' : body'.Appends) (rounds : Nat) :
    CutOff l (loop condition body rounds) (loop condition' body' rounds) Flow.Alike := by
  have hR := Machine.stepwise_output
  induction rounds generalizing l with
  | zero => exact cutOff_outOfFuel
  | succ rounds ih =>
    have hafter := hR.afterFlow (hR.loop happends happends' rounds)
    refine (hcondition l (.refl l)).bind
      (fun _ => Machine.Stepwise.ite (hR.bind happends' hafter) (hR.pure _)) fun l₁ v v' hl hv => ?_
    rw [hv.truthy]
    refine .ite ?_ (cutOff_pure fun _ _ => .next)
    refine (hbody l₁ hl).bind hafter fun l₂ flow flow' hl₁ hflow => ?_
    cases hflow with
    | next =>
      have hl₂ := hl.trans hl₁
      exact ih (fun l₃ hl₃ => hcondition l₃ (hl₂.trans hl₃)) fun l₃ hl₃ => hbody l₃ (hl₂.trans hl₃)
    | returned hv => exact cutOff_pure fun _ hl₂ => .returned (hv.mono hl₂)

namespace Stmt

mutual

theorem cutOff_exec (hcall : call.CutOff call') (rounds : Nat) {l : Link} {f f' : Nat}
    (hf : l.frames f f') (s : Stmt) (hs : (Node.stmt s).Linked l) :
    CutOff l (s.exec call rounds f) (s.exec call' rounds f') Flow.Alike := by
  have happends := Machine.stepwise_output
  have hexpr {e : Expr} (he : Node.expr e ∈ s.children) :
      CutOff l (e.eval call f) (e.eval call' f') Value.Alike :=
    Expr.cutOff_eval hcall hf e (hs.inner he)
  cases s with
  | expression e =>
    exact (hexpr (by simp [children])).bind (fun _ => happends.pure _) fun _ _ _ _ _ =>
      cutOff_pure fun _ _ => .next
  | print e =>
    refine (hexpr (by simp [children])).bind
      (fun v => happends.bind (happends.write · v.text) fun _ => happends.pure _)
      fun l₁ v v' _ hv => ?_
    rw [hv.text]
    exact (cutOff_write v'.text).bind (fun _ => happends.pure _) fun _ _ _ _ _ =>
      cutOff_pure fun _ _ => .next
  | var name e =>
    refine (Expr.cutOff_evalOption hcall hf fun c hc => hs.inner hc).bind
      (fun v => happends.bind (happends.define · f' name.text v) fun _ => happends.pure _)
      fun l₁ v v' hl hv => ?_
    exact (cutOff_define (hl.frames hf) name.text hv).bind (fun _ => happends.pure _)
      fun _ _ _ _ _ => cutOff_pure fun _ _ => .next
  | block body =>
    have hbody : ∀ t ∈ body, (Node.stmt t).Linked l := fun t ht =>
      hs.inner (List.mem_map_of_mem ht)
    exact (cutOff_newFrame hf).bind
      (fun inner => happends.execAll hcall.appends rounds inner body) fun l₁ inner inner' hl hinner =>
        cutOff_execAll hcall rounds hinner body fun t ht => (hbody t ht).mono hl
  | ifThen c branch =>
    have hbranch : (Node.stmt branch).Linked l := hs.inner (by simp [children])
    refine (hexpr (by simp [children])).bind
      (fun _ => Machine.Stepwise.ite (happends.exec hcall.appends rounds f' branch) (happends.pure _))
      fun l₁ v v' hl hv => ?_
    rw [hv.truthy]
    exact .ite (cutOff_exec hcall rounds (hl.frames hf) branch (hbranch.mono hl))
      (cutOff_pure fun _ _ => .next)
  | ifElse c branch otherwise =>
    have hbranch : (Node.stmt branch).Linked l := hs.inner (by simp [children])
    have hother : (Node.stmt otherwise).Linked l := hs.inner (by simp [children])
    refine (hexpr (by simp [children])).bind
      (fun _ => Machine.Stepwise.ite (happends.exec hcall.appends rounds f' branch)
        (happends.exec hcall.appends rounds f' otherwise))
      fun l₁ v v' hl hv => ?_
    rw [hv.truthy]
    exact .ite (cutOff_exec hcall rounds (hl.frames hf) branch (hbranch.mono hl))
      (cutOff_exec hcall rounds (hl.frames hf) otherwise (hother.mono hl))
  | whileLoop c body =>
    have hc : (Node.expr c).Linked l := hs.inner (by simp [children])
    have hbody : (Node.stmt body).Linked l := hs.inner (by simp [children])
    exact cutOff_loop (fun l₁ hl => Expr.cutOff_eval hcall (hl.frames hf) c (hc.mono hl))
      (fun l₁ hl => cutOff_exec hcall rounds (hl.frames hf) body (hbody.mono hl))
      (happends.eval hcall.appends f' c) (happends.exec hcall.appends rounds f' body) rounds
  | function name params body =>
    have hclosure : Closure.Linked l ⟨name.text, params, body, f⟩ ⟨name.text, params, body, f'⟩ :=
      ⟨rfl, rfl, rfl, hf, fun t ht => hs.inner (List.mem_map_of_mem ht)⟩
    refine (cutOff_addFunction hclosure).bind
      (fun v => happends.bind (happends.define · f' name.text v) fun _ => happends.pure _)
      fun l₁ v v' hl hv => ?_
    exact (cutOff_define (hl.frames hf) name.text hv).bind (fun _ => happends.pure _)
      fun _ _ _ _ _ => cutOff_pure fun _ _ => .next
  | returnStmt e =>
    exact (Expr.cutOff_evalOption hcall hf fun c hc => hs.inner hc).bind (fun _ => happends.pure _)
      fun _ _ _ _ hv => cutOff_pure fun _ hl => .returned (hv.mono hl)

theorem cutOff_execAll (hcall : call.CutOff call') (rounds : Nat) {l : Link} {f f' : Nat}
    (hf : l.frames f f') (body : List Stmt) (hbody : ∀ s ∈ body, (Node.stmt s).Linked l) :
    CutOff l (execAll call rounds f body) (execAll call' rounds f' body) Flow.Alike := by
  have happends := Machine.stepwise_output
  cases body with
  | nil => exact cutOff_pure fun _ _ => .next
  | cons s rest =>
    obtain ⟨hs, hrest⟩ := List.forall_mem_cons.1 hbody
    have hafter := happends.afterFlow (happends.execAll hcall.appends rounds f' rest)
    refine (cutOff_exec hcall rounds hf s hs).bind hafter fun l₁ flow flow' hl hflow => ?_
    cases hflow with
    | next => exact cutOff_execAll hcall rounds (hl.frames hf) rest fun t ht => (hrest t ht).mono hl
    | returned hv => exact cutOff_pure fun _ hl₁ => .returned (hv.mono hl₁)

end

end Stmt

/-! ## Calls -/

theorem Run.cutOff_defineAll {f f' : Nat} (hf : l.frames f f') (params : List Name)
    {args args' : List Value} (hargs : Values.Alike l args args') :
    CutOff l (defineAll f (params.zip args)) (defineAll f' (params.zip args')) anyResult := by
  induction params generalizing l args args' with
  | nil => exact cutOff_pure fun _ _ => trivial
  | cons param params ih =>
    cases hargs with
    | nil => exact cutOff_pure fun _ _ => trivial
    | cons hv hrest =>
      exact (cutOff_define hf param.text hv).bind (fun _ => Machine.stepwise_output.defineAll f' _)
        fun _ _ _ hl _ => ih (hl.frames hf) (hrest.imp fun _ _ hw => hw.mono hl)

theorem Closure.Linked.cutOff_enter {c c' : Closure} (h : c.Linked l c') {args args' : List Value}
    (hargs : Values.Alike l args args') :
    Run.CutOff l (c.enter args) (c'.enter args') fun l₁ inner inner' => l₁.frames inner inner' := by
  have happends := Machine.stepwise_output
  unfold Closure.enter
  rw [h.parameters]
  refine (cutOff_newFrame h.frame).bind
    (fun inner => happends.bind (happends.defineAll inner _) fun _ => happends.pure _)
    fun l₁ inner inner' hl hinner => ?_
  exact (cutOff_defineAll hinner _ (hargs.imp fun _ _ hv => hv.mono hl)).bind
    (fun _ => happends.pure _) fun l₂ _ _ hl₁ _ =>
      cutOff_pure fun _ hl₂ => hl₂.frames (hl₁.frames hinner)

theorem Closure.Linked.cutOff_run (hcall : call.CutOff call') {c c' : Closure} (h : c.Linked l c')
    {args args' : List Value} (hargs : Values.Alike l args args') (rounds : Nat) :
    Run.CutOff l (c.run call rounds args) (c'.run call' rounds args') Value.Alike := by
  have happends := Machine.stepwise_output
  refine (h.cutOff_enter hargs).bind
    (fun inner => happends.bind (happends.execAll hcall.appends rounds inner c'.body) happends.result)
    fun l₁ inner inner' hl hinner => ?_
  rw [← h.body]
  refine (Stmt.cutOff_execAll hcall rounds hinner c.body fun s hs => (h.literals s hs).mono hl).bind
    happends.result fun l₂ flow flow' _ hflow => ?_
  cases hflow with
  | next => exact cutOff_pure fun _ _ => .nil
  | returned hv => exact cutOff_pure fun _ hl => hv.mono hl

section Calls

variable {host host' : Host} {m m' : Machine} {v v' : Value}

theorem Machine.Linked.arity (h : m.Linked l m') (hv : v.Alike l v') {g g' : Callable}
    (hg : v.asCallable = .ok g) (hg' : v'.asCallable = .ok g') : m.arity v g = m'.arity v' g' := by
  cases hv with
  | @function i i' name arity hi =>
    cases hg
    cases hg'
    have hclosures := h.closures hi
    show (m.functions[i]?.map (·.parameters.length)).getD arity =
      (m'.functions[i']?.map (·.parameters.length)).getD arity
    revert hclosures
    generalize m.functions[i]? = c, m'.functions[i']? = c'
    rintro (hc | _)
    · exact congrArg List.length hc.parameters
    · rfl
  | native f =>
    cases hg
    cases hg'
    rfl
  | _ => cases hg

/-- A call is checked alike, unless the first limit does not allow one more: both checks raise the same
error or let the call pass. -/
theorem checkCall_linked (hlimit : host.maxDepth ≤ host'.maxDepth) (hm : m.Linked l m')
    (hv : v.Alike l v') (count : Nat) (site : Location) :
    (∃ e, checkCall host v count site m = .error (.error e) m ∧ e.fault.code = .stackOverflow) ∨
    (∃ e, checkCall host v count site m = .error (.error e) m ∧
      checkCall host' v' count site m' = .error (.error e) m') ∨
    ∃ g g', v.asCallable = .ok g ∧ v'.asCallable = .ok g' ∧
      checkCall host v count site m = .ok g m ∧ checkCall host' v' count site m' = .ok g' m' := by
  have hpass {g g' : Callable} (hg : v.asCallable = .ok g) (hg' : v'.asCallable = .ok g') :
      (∃ e, checkCall host v count site m = .error (.error e) m ∧ e.fault.code = .stackOverflow) ∨
      (∃ e, checkCall host v count site m = .error (.error e) m ∧
        checkCall host' v' count site m' = .error (.error e) m') ∨
      checkCall host v count site m = .ok g m ∧ checkCall host' v' count site m' = .ok g' m' := by
    have hdepth : m'.depth = m.depth := congrArg List.length hm.calls.symm
    rw [checkCall_eq hg, checkCall_eq hg', hm.arity hv hg hg', hdepth]
    by_cases hcount : count ≠ m'.arity v' g'
    · right
      left
      rw [if_pos hcount, if_pos hcount]
      exact ⟨_, rfl, by rw [hm.calls]; rfl⟩
    · rw [if_neg hcount, if_neg hcount]
      by_cases hfull : host.maxDepth ≤ m.depth
      · rw [if_pos hfull]
        exact .inl ⟨_, rfl, rfl⟩
      · have hroom : ¬host'.maxDepth ≤ m.depth := fun h => hfull (hlimit.trans h)
        rw [if_neg hfull, if_neg hroom]
        exact .inr (.inr ⟨rfl, rfl⟩)
  cases hv with
  | function name arity hi =>
    exact (hpass rfl rfl).imp_right (.imp_right fun h => ⟨_, _, rfl, rfl, h⟩)
  | native f => exact (hpass rfl rfl).imp_right (.imp_right fun h => ⟨_, _, rfl, rfl, h⟩)
  | _ => exact .inr (.inl ⟨_, rfl, by rw [hm.calls]; rfl⟩)

/-- **The only place where the limits differ is the check of a call.** -/
theorem cutOff_callWithin (hlimit : host.maxDepth ≤ host'.maxDepth) (fuel : Nat) :
    (callWithin host fuel).CutOff (callWithin host' fuel) := by
  have happends := Machine.stepwise_output
  induction fuel with
  | zero => exact ⟨fun _ _ _ => cutOff_outOfFuel, happends.callWithin host' 0⟩
  | succ fuel ih =>
    refine ⟨fun {l v v' args args'} site hv hargs l₁ m m' hl hm => ?_, happends.callWithin host' _⟩
    obtain ⟨more, hmore⟩ := happends.callWithin host' (fuel + 1) v' args' site m'
    rcases checkCall_linked hlimit hm (hv.mono hl) args.length site with
      ⟨e, hcheck, hcode⟩ | ⟨e, hcheck, hcheck'⟩ | ⟨g, g', hg, hg', hcheck, hcheck'⟩
    · -- the first limit is reached: nothing has been written since, and the second run goes on
      refine .stopped (bind_of_error hcheck) hcode ⟨#[], more, Array.append_empty.symm, ?_⟩
      rw [hmore, Array.empty_append]
    · rw [hargs.length_eq] at hcheck'
      exact .error (bind_of_error hcheck) (bind_of_error hcheck') (.refl l₁) hm (.refl m m')
    · rw [hargs.length_eq] at hcheck'
      refine Cut.congr ?_ (bind_of_ok hcheck) (bind_of_ok hcheck')
      cases hv with
      | native f =>
        cases hg
        cases hg'
        -- without native functions there is none to call
        refine CutOff.withCall (cutOff_get.bind (fun m₂' => ?_) fun l₂ m₂ m₂' _ hm₂ => ?_) _ l₁ m m'
          (.refl l₁) hm
        · split
          · exact happends.perform host' ih.appends _ _ _
          · exact happends.pure _
        · rw [hm₂.natives, hm₂.natives']
          exact cutOff_pure fun _ _ => .nil
      | @function i i' name arity hi =>
        cases hg
        cases hg'
        refine CutOff.withCall (cutOff_get.bind (fun m₂' => ?_) fun l₂ m₂ m₂' hl₂ hm₂ => ?_) _ l₁ m m'
          (.refl l₁) hm
        · split
          · exact happends.closureRun ih.appends fuel _ args'
          · exact happends.pure _
        · have hclosures := hm₂.closures (hl₂.functions (hl.functions hi))
          revert hclosures
          generalize m₂.functions[i]? = c, m₂'.functions[i']? = c'
          rintro (hc | _)
          · exact hc.cutOff_run ih (hargs.imp fun _ _ hw => hw.mono (hl.trans hl₂)) fuel
          · exact cutOff_pure fun _ _ => .nil
      | _ => cases hg

theorem Program.cutOff_exec (hlimit : host.maxDepth ≤ host'.maxDepth) (fuel : Nat) {p : Program}
    (hp : ∀ s ∈ p, (Node.stmt s).Linked l)
    (hglobal : l.frames Machine.globalFrame Machine.globalFrame) :
    Run.CutOff l (Program.exec host fuel p) (Program.exec host' fuel p) anyResult := by
  have hcall := cutOff_callWithin hlimit fuel
  induction p generalizing l with
  | nil => exact cutOff_pure fun _ _ => trivial
  | cons s rest ih =>
    obtain ⟨hs, hrest⟩ := List.forall_mem_cons.1 hp
    exact (Stmt.cutOff_exec hcall fuel hglobal s hs).bind
      (fun _ => Machine.stepwise_output.program host' fuel rest) fun _ _ _ hl _ =>
        ih (fun t ht => (hrest t ht).mono hl) (hl.frames hglobal)

end Calls

/-! ## Sessions -/

namespace Session

/-- **The limit on calls is a cut-off.** A program runs in two sessions in corresponding states and
without native functions, and the second one has the higher limit or the same. If the first run ends in
any way but for its limit, then the second one ends with the same result or the same error, with the
same lines written, and in a corresponding state. If the first run ends in an error, such as for its
limit, and the second one ends, then what the first one has written is the beginning of what the second
one has. -/
theorem interpret_cutOff {s s' : Session} {p : Program}
    (hlimit : s.options.maxDepth ≤ s'.options.maxDepth) (hm : s.machine.Linked l s'.machine)
    (hp : (Node.program p).Linked l) :
    (∀ fuel result s₁, s.interpret fuel p = some (result, s₁) →
      (∀ e, result = some e → e.fault.code ≠ .stackOverflow) →
        ∃ s₁' l₁, s'.interpret fuel p = some (result, s₁') ∧
          Machine.SameLines s.machine s'.machine s₁.machine s₁'.machine ∧ l.Extends l₁ ∧
            s₁.machine.Linked l₁ s₁'.machine) ∧
    ∀ fuel fuel' e result s₁ s₁', s.interpret fuel p = some (some e, s₁) →
      s'.interpret fuel' p = some (result, s₁') →
        Machine.BeginningOfLines s.machine s'.machine s₁.machine s₁'.machine := by
  have hcut (fuel : Nat) : Cut l s.machine s'.machine anyResult (Program.exec s.host fuel p)
      (Program.exec s'.host fuel p) :=
    Program.cutOff_exec hlimit fuel (fun t ht => hp.child (List.mem_map_of_mem ht)) hm.global l _ _
      (.refl l) hm
  constructor
  · intro fuel result s₁ h hcode
    rw [interpret_eq] at h
    cases hcut fuel with
    | ok hx hy hl hm₁ hlines =>
      rw [hx] at h
      cases h
      exact ⟨_, _, by rw [interpret_eq, hy], hlines, hl, hm₁⟩
    | error hx hy hl hm₁ hlines =>
      rw [hx] at h
      cases h
      exact ⟨_, _, by rw [interpret_eq, hy], hlines, hl, hm₁⟩
    | outOfFuel hx =>
      rw [hx] at h
      cases h
    | stopped hx hstopped =>
      rw [hx] at h
      cases h
      exact absurd hstopped (hcode _ rfl)
  · intro fuel fuel' e result s₁ s₁' h h'
    -- the two runs are compared under the larger amount of fuel, where both end as they did
    have hx := exec_of_interpret_error (interpret_mono (Nat.le_max_left fuel fuel') h)
    obtain ⟨r, ho, -⟩ := outcome_of_interpret (interpret_mono (Nat.le_max_right fuel fuel') h')
    rw [← final_of_outcome ho]
    exact (hcut _).beginningOfLines hx

/-- A function that calls itself once. -/
def callingOnce : Program :=
  let source := "var more = true; fun f() \x7b print more; if (more) \x7b more = false; f(); \x7d \x7d f();"
  (parse (tokenize (utf8 source)).tokens).program

/-- Where two calls may be under way, it does what it does where three may be; where one may be, it
writes the first of the two lines. -/
theorem interpret_cutOff_callingOnce :
    let s (n : Nat) := bare ⟨n, true⟩ fun _ => .zero
    (∀ n n', (s n).machine.Linked .same (s n').machine) ∧ (Node.program callingOnce).Linked .same ∧
    (∃ s₁ s₁' l₁, (s 2).interpret 9 callingOnce = some (none, s₁) ∧
      (s 3).interpret 9 callingOnce = some (none, s₁') ∧ s₁.machine.Linked l₁ s₁'.machine) ∧
    ∃ e s₁ s₁', (s 1).interpret 9 callingOnce = some (some e, s₁) ∧
      e.fault.code = .stackOverflow ∧ s₁.machine.output = #[utf8 "true"] ∧
      (s 2).interpret 9 callingOnce = some (none, s₁') ∧
      Machine.BeginningOfLines (s 1).machine (s 2).machine s₁.machine s₁'.machine := by
  intro s
  have hm (n n' : Nat) : (s n).machine.Linked .same (s n').machine := .refl rfl
  have hp : (Node.program callingOnce).Linked .same := (parse_plain _).linked
  have hfine : ((s 2).interpret 9 callingOnce).any (fun r => r.1 = none) = true := by decide +kernel
  have hstopped : ((s 1).interpret 9 callingOnce).any (fun r =>
      r.1.any (fun e => e.fault.code = .stackOverflow) ∧
        r.2.machine.output = #[utf8 "true"]) = true := by decide +kernel
  obtain ⟨⟨_, s₂⟩, hrun, hresult⟩ := (Option.any_eq_true _ _).1 hfine
  obtain rfl := of_decide_eq_true hresult
  obtain ⟨⟨result, s₁⟩, hcut, hboth⟩ := (Option.any_eq_true _ _).1 hstopped
  obtain ⟨herror, hlines⟩ := of_decide_eq_true hboth
  obtain ⟨e, rfl, hcode⟩ := (Option.any_eq_true _ _).1 herror
  obtain ⟨s₃, l₁, hsame, -, -, hlinked⟩ :=
    (interpret_cutOff (by decide) (hm 2 3) hp).1 9 none s₂ hrun nofun
  exact ⟨hm, hp, ⟨s₂, s₃, l₁, hrun, hsame, hlinked⟩, e, s₁, s₂, hcut, of_decide_eq_true hcode, hlines,
    hrun, (interpret_cutOff (by decide) (hm 1 2) hp).2 9 9 e none s₁ s₂ hcut hrun⟩

end Session

end Lox
