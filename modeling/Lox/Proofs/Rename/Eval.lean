import Lox.Proofs.Rename.Machine

/-!
# Renamed programs run in step

`Run.InStep` relates a run and its renamed form: on machines that are renamed alike both come to one
result, or to errors that differ in a name at most, or neither has enough fuel, and the machines behind
them are renamed alike again. Every step of a run is in step with its renamed form, since a name is looked
up in a frame whose scope is marked if and only if the name is exchanged (`Expr.inStep_readVariable`,
`Expr.inStep_writeVariable`); expressions and statements only put steps together. Calls are in step by
induction on the fuel (`inStep_callWithin`).
-/

namespace Lox

variable {σ : Equiv.Perm Text} {shape shape₁ : Shape}

/-! ## Errors -/

/-- Causes that are the same but for the name of an undefined variable, which may be exchanged. -/
inductive Fault.Renamed (σ : Equiv.Perm Text) : Fault → Fault → Prop
  | same (fault : Fault) : Renamed σ fault fault
  | undefined (name : Text) : Renamed σ (.undefinedVariable name) (.undefinedVariable (σ name))

theorem Fault.Renamed.code {fault fault' : Fault} (h : fault.Renamed σ fault') :
    fault'.code = fault.code := by
  cases h <;> rfl

theorem Fault.renamed_exchangeIf (σ : Equiv.Perm Text) (mark : Bool) (name : Text) :
    Renamed σ (.undefinedVariable name) (.undefinedVariable (exchangeIf σ mark name)) := by
  cases mark with
  | false => exact .same _
  | true => exact .undefined name

/-- Errors of one code, at one place and during the same calls, with causes that are the same but for a
name. -/
structure RuntimeError.Renamed (σ : Equiv.Perm Text) (e e' : RuntimeError) : Prop where
  fault : e.fault.Renamed σ e'.fault
  code : e'.fault.code = e.fault.code
  loc : e'.loc = e.loc
  trace : e'.trace = e.trace

/-! ## Runs -/

namespace Run

variable {α β : Type} {Q : Shape → α → Prop} {R : Shape → β → Prop}

/-- The two ways in which runs end are in step. -/
inductive EndsInStep (σ : Equiv.Perm Text) (shape : Shape) (Q : Shape → α → Prop) :
    EStateM.Result Abort Machine α → EStateM.Result Abort Machine α → Prop
  | ok {shape₁ : Shape} {m m' : Machine} {a : α} :
    shape.Extends shape₁ → m.Renamed σ shape₁ m' → Q shape₁ a →
      EndsInStep σ shape Q (.ok a m) (.ok a m')
  | error {shape₁ : Shape} {m m' : Machine} {e e' : RuntimeError} :
    shape.Extends shape₁ → m.Renamed σ shape₁ m' → e.Renamed σ e' →
      EndsInStep σ shape Q (.error (.error e) m) (.error (.error e') m')
  | outOfFuel {m m' : Machine} : EndsInStep σ shape Q (.error .outOfFuel m) (.error .outOfFuel m')

/-- On machines renamed alike, in any shape from the given one on, the runs end in step. -/
def InStep (σ : Equiv.Perm Text) (shape : Shape) (x y : Run α) (Q : Shape → α → Prop) : Prop :=
  ∀ shape₁ m m', shape.Extends shape₁ → m.Renamed σ shape₁ m' →
    EndsInStep σ shape₁ Q (x m) (y m')

/-- Nothing is asked of the result. -/
abbrev someResult : Shape → α → Prop := fun _ _ => True

theorem EndsInStep.mono {r r' : EStateM.Result Abort Machine α} (h : EndsInStep σ shape₁ Q r r')
    (hs : shape.Extends shape₁) : EndsInStep σ shape Q r r' := by
  cases h with
  | ok hs₁ hm ha => exact .ok (hs.trans hs₁) hm ha
  | error hs₁ hm he => exact .error (hs.trans hs₁) hm he
  | outOfFuel => exact .outOfFuel

theorem InStep.bind {x y : Run α} {f g : α → Run β} (h : InStep σ shape x y Q)
    (hf : ∀ shape₁ a, shape.Extends shape₁ → Q shape₁ a → InStep σ shape₁ (f a) (g a) R) :
    InStep σ shape (x >>= f) (y >>= g) R := by
  intro shape₁ m m' hs hm
  have hends := h shape₁ m m' hs hm
  generalize hx : x m = r, hy : y m' = r' at hends
  cases hends with
  | @ok shape₂ m₁ m₁' a hs₁ hm₁ ha =>
    rw [bind_of_ok hx, bind_of_ok hy]
    exact (hf shape₂ a (hs.trans hs₁) ha shape₂ m₁ m₁' (.refl shape₂) hm₁).mono hs₁
  | error hs₁ hm₁ he =>
    rw [bind_of_error hx, bind_of_error hy]
    exact .error hs₁ hm₁ he
  | outOfFuel =>
    rw [bind_of_error hx, bind_of_error hy]
    exact .outOfFuel

theorem inStep_pure {a : α} (h : ∀ shape₁, shape.Extends shape₁ → Q shape₁ a) :
    InStep σ shape (pure a) (pure a) Q :=
  fun shape₁ _ _ hs hm => .ok (.refl shape₁) hm (h shape₁ hs)

theorem inStep_outOfFuel : InStep σ shape (throw .outOfFuel) (throw .outOfFuel) Q :=
  fun _ _ _ _ _ => .outOfFuel

theorem inStep_fail {fault fault' : Fault} (h : fault.Renamed σ fault') (loc : Location) :
    InStep σ shape (fail fault loc) (fail fault' loc) Q :=
  fun shape₁ _ _ _ hm => .error (.refl shape₁) hm ⟨h, h.code, rfl, hm.calls⟩

theorem inStep_ofExcept (loc : Location) (r : Except Fault α) :
    InStep σ shape (ofExcept loc r) (ofExcept loc r) someResult := by
  cases r with
  | ok a => exact inStep_pure fun _ _ => trivial
  | error fault => exact inStep_fail (.same fault) loc

theorem InStep.ite {c : Prop} [Decidable c] {x y x' y' : Run α} (hx : InStep σ shape x x' Q)
    (hy : InStep σ shape y y' Q) :
    InStep σ shape (if c then x else y) (if c then x' else y') Q := by
  split
  · exact hx
  · exact hy

/-- What runs read of their machines may differ. -/
theorem inStep_get {f g : Machine → Run α}
    (h : ∀ shape₁ m m', shape.Extends shape₁ → m.Renamed σ shape₁ m' →
      InStep σ shape₁ (f m) (g m') Q) :
    InStep σ shape (get >>= f) (get >>= g) Q :=
  fun shape₁ m m' hs hm => h shape₁ m m' hs hm shape₁ m m' (.refl shape₁) hm

/-! ### Steps -/

variable {f : Nat} {marks : Marks}

theorem inStep_write (line : Text) : InStep σ shape (write line) (write line) someResult :=
  fun shape₁ _ _ _ hm => .ok (.refl shape₁)
    { hm with output := congrArg (Array.push · line) hm.output } trivial

theorem inStep_define (hf : shape f = some marks) (x : Text) (v : Value) :
    InStep σ shape (define f x v) (define f (exchangeIf σ (marks 0) x) v) someResult :=
  fun shape₁ _ _ hs hm => .ok (.refl shape₁) (hm.define (hs hf) x v) trivial

/-- The scope of a new frame may be marked or not. -/
theorem inStep_newFrame (hf : shape f = some marks) (mark : Bool) :
    InStep σ shape (newFrame f) (newFrame f) fun shape₁ inner =>
      shape₁ inner = some (marks.enter mark) := by
  intro shape₁ m m' hs hm
  have hsize : m'.frames.size = m.frames.size := hm.frames.size
  show EndsInStep σ shape₁ _ (.ok m.frames.size { m with frames := m.frames.addChild f })
    (.ok m'.frames.size { m' with frames := m'.frames.addChild f })
  rw [hsize]
  exact .ok (Shape.extends_add hm.frames.shape_size _) (hm.addChild (hs hf) mark)
    (shape₁.add_self m.frames.size _)

theorem inStep_addFunction {c c' : Closure} (hc : c.Renamed σ shape c') :
    InStep σ shape (modifyGet fun m => m.addFunction c) (modifyGet fun m => m.addFunction c')
      someResult := by
  intro shape₁ m m' hs hm
  have hc₁ := hc.mono hs
  show EndsInStep σ shape₁ _ (.ok (m.addFunction c).1 (m.addFunction c).2)
    (.ok (m'.addFunction c').1 (m'.addFunction c').2)
  rw [hm.addFunction_value hc₁]
  exact .ok (.refl shape₁) (hm.addFunction hc₁) trivial

theorem inStep_withCall (call : CallFrame) {x y : Run α} (h : InStep σ shape x y Q) :
    InStep σ shape (withCall call x) (withCall call y) Q := by
  intro shape₁ m m' hs hm
  have hbody := h shape₁ _ _ hs (hm.setCalls (call :: m.calls))
  have htail {shape : Shape} {m m' : Machine} (hm : m.Renamed σ shape m') :
      Machine.Renamed σ shape { m with calls := m.calls.tail }
        { m' with calls := m'.calls.tail } := by
    rw [hm.calls]
    exact hm.setCalls m.calls.tail
  unfold withCall
  rw [hm.calls]
  revert hbody
  generalize x { m with calls := call :: m.calls } = r
  generalize y { m' with calls := call :: m.calls } = r'
  intro hbody
  cases hbody with
  | ok hs₁ hm₁ ha => exact .ok hs₁ (htail hm₁) ha
  | error hs₁ hm₁ he => exact .error hs₁ (htail hm₁) he
  | outOfFuel => exact .outOfFuel

end Run

open Run

/-- How to call values: the calls are in step. -/
def Caller.InStep (σ : Equiv.Perm Text) (call call' : Caller) : Prop :=
  ∀ (shape : Shape) (v : Value) (args : List Value) (site : Location),
    Run.InStep σ shape (call v args site) (call' v args site) someResult

/-! ## Expressions -/

namespace Expr

variable {call call' : Caller} {f : Nat} {marks : Marks}

/-- A name is read where its exchanged form is. -/
theorem inStep_readVariable (hf : shape f = some marks) (name : Name) (d : Option Nat) :
    InStep σ shape (readVariable f name d)
      (readVariable f (name.map (exchangeIf σ (marks.leads d))) d) someResult := by
  intro shape₁ m m' hs hm
  rw [readVariable_eq, readVariable_eq, hm.value? (hs hf)]
  cases m.value? f name d with
  | some v => exact .ok (.refl shape₁) hm trivial
  | none => exact inStep_fail (Fault.renamed_exchangeIf σ _ name.text) _ shape₁ m m' (.refl shape₁) hm

/-- A name is changed where its exchanged form is. -/
theorem inStep_writeVariable (hf : shape f = some marks) (name : Name) (d : Option Nat) (v : Value) :
    InStep σ shape (writeVariable f name d v)
      (writeVariable f (name.map (exchangeIf σ (marks.leads d))) d v) someResult := by
  intro shape₁ m m' hs hm
  rw [writeVariable_eq, writeVariable_eq, hm.binder? (hs hf)]
  cases htarget : m.binder? f name d with
  | some target =>
    obtain ⟨marks', hknown, hmark⟩ := hm.shape_binder? (hs hf) htarget
    have hdefine := inStep_define (σ := σ) hknown name.text v
    rw [hmark] at hdefine
    exact hdefine shape₁ m m' (.refl shape₁) hm
  | none => exact inStep_fail (Fault.renamed_exchangeIf σ _ name.text) _ shape₁ m m' (.refl shape₁) hm

theorem inStep_evalAll {es es' : List Expr}
    (h : List.Forall₂ (fun e e' : Expr => ∀ {shape : Shape}, shape f = some marks →
      InStep σ shape (e.eval call f) (e'.eval call' f) someResult) es es')
    (hf : shape f = some marks) :
    InStep σ shape (evalAll call f es) (evalAll call' f es') someResult := by
  induction h generalizing shape with
  | nil => exact inStep_pure fun _ _ => trivial
  | cons he _ ih =>
    refine (he hf).bind fun shape₁ v hs _ => ?_
    exact (ih (hs hf)).bind fun _ vs _ _ => inStep_pure fun _ _ => trivial

/-- In a frame whose scope and those around it are marked in the same way, an expression and its renamed
form have one value. -/
theorem Renamed.inStep_eval {e e' : Expr} (hcall : Caller.InStep σ call call')
    (h : e.Renamed σ marks e') (hf : shape f = some marks) :
    InStep σ shape (e.eval call f) (e'.eval call' f) someResult := by
  induction h generalizing shape with
  | literal v loc => exact inStep_pure fun _ _ => trivial
  | grouping _ ih => exact ih hf
  | @unary op _ _ _ ih =>
    exact (ih hf).bind fun _ v _ _ => inStep_ofExcept op.loc (op.unaryValue v)
  | @binary op _ _ _ _ _ _ ihl ihr =>
    refine (ihl hf).bind fun shape₁ v hs _ => ?_
    exact (ihr (hs hf)).bind fun _ w _ _ => inStep_ofExcept op.loc (op.binaryValue v w)
  | logical _ _ ihl ihr =>
    refine (ihl hf).bind fun shape₁ v hs _ => .ite (inStep_pure fun _ _ => trivial) ?_
    exact (ihr (hs hf)).bind fun _ w _ _ => inStep_pure fun _ _ => trivial
  | reference name d => exact inStep_readVariable hf name d
  | assign name d _ ih =>
    refine (ih hf).bind fun shape₁ v hs _ => ?_
    exact (inStep_writeVariable (hs hf) name d v).bind fun _ _ _ _ => inStep_pure fun _ _ => trivial
  | @call _ _ _ loc _ _ ihf ihargs =>
    refine (ihf hf).bind fun shape₁ v hs _ => ?_
    refine (inStep_evalAll (forall₂_of_pairs ihargs) (hs hf)).bind fun shape₂ vs _ _ => ?_
    exact hcall shape₂ v vs loc

theorem OptionRenamed.inStep_evalOption {e e' : Option Expr} (hcall : Caller.InStep σ call call')
    (h : OptionRenamed σ marks e e') (hf : shape f = some marks) :
    InStep σ shape (evalOption call f e) (evalOption call' f e') someResult := by
  cases h with
  | none => exact inStep_pure fun _ _ => trivial
  | some he => exact he.inStep_eval hcall hf

end Expr

/-! ## Statements -/

theorem Run.inStep_loop {condition condition' : Run Value} {body body' : Run Flow}
    (hcondition : ∀ shape₁, shape.Extends shape₁ → InStep σ shape₁ condition condition' someResult)
    (hbody : ∀ shape₁, shape.Extends shape₁ → InStep σ shape₁ body body' someResult)
    (rounds : Nat) :
    InStep σ shape (loop condition body rounds) (loop condition' body' rounds) someResult := by
  induction rounds generalizing shape with
  | zero => exact inStep_outOfFuel
  | succ rounds ih =>
    refine (hcondition shape (.refl shape)).bind fun shape₁ v hs _ => ?_
    refine .ite ?_ (inStep_pure fun _ _ => trivial)
    refine (hbody shape₁ hs).bind fun shape₂ flow hs₁ _ => ?_
    cases flow with
    | next =>
      have hs₂ := hs.trans hs₁
      exact ih (fun shape₃ hs₃ => hcondition shape₃ (hs₂.trans hs₃))
        fun shape₃ hs₃ => hbody shape₃ (hs₂.trans hs₃)
    | returned v => exact inStep_pure fun _ _ => trivial

namespace Stmt

variable {call call' : Caller} {rounds : Nat} {marks : Marks}

/-- Statements that run in step in every frame whose scope and those around it are marked so. -/
def RunInStep (σ : Equiv.Perm Text) (call call' : Caller) (rounds : Nat) (marks : Marks)
    (s s' : Stmt) : Prop :=
  ∀ {shape : Shape} {f : Nat}, shape f = some marks →
    InStep σ shape (s.exec call rounds f) (s'.exec call' rounds f) someResult

theorem inStep_execAll {body body' : List Stmt}
    (h : List.Forall₂ (RunInStep σ call call' rounds marks) body body') {f : Nat}
    (hf : shape f = some marks) :
    InStep σ shape (execAll call rounds f body) (execAll call' rounds f body') someResult := by
  induction h generalizing shape with
  | nil => exact inStep_pure fun _ _ => trivial
  | cons hs _ ih =>
    refine (hs hf).bind fun shape₁ flow hs₁ _ => ?_
    cases flow with
    | next => exact ih (hs₁ hf)
    | returned v => exact inStep_pure fun _ _ => trivial

/-- A statement and its renamed form run in step. -/
theorem Renamed.inStep_exec {s s' : Stmt} (hcall : Caller.InStep σ call call')
    (h : s.Renamed σ marks s') : RunInStep σ call call' rounds marks s s' := by
  induction h with
  | expression he =>
    exact fun hf => (he.inStep_eval hcall hf).bind fun _ _ _ _ => inStep_pure fun _ _ => trivial
  | print he =>
    refine fun hf => (he.inStep_eval hcall hf).bind fun _ v _ _ => ?_
    exact (inStep_write v.text).bind fun _ _ _ _ => inStep_pure fun _ _ => trivial
  | var name he =>
    refine fun hf => (Expr.OptionRenamed.inStep_evalOption hcall he hf).bind fun _ v hs _ => ?_
    exact (inStep_define (hs hf) name.text v).bind fun _ _ _ _ => inStep_pure fun _ _ => trivial
  | block mark _ ih =>
    exact fun hf => (inStep_newFrame hf mark).bind fun _ _ _ hinner =>
      inStep_execAll (forall₂_of_pairs ih) hinner
  | ifThen hc _ ih =>
    refine fun hf => (hc.inStep_eval hcall hf).bind fun _ v hs _ => ?_
    exact .ite (ih (hs hf)) (inStep_pure fun _ _ => trivial)
  | ifElse hc _ _ ih iho =>
    refine fun hf => (hc.inStep_eval hcall hf).bind fun _ v hs _ => ?_
    exact .ite (ih (hs hf)) (iho (hs hf))
  | whileLoop hc _ ih =>
    exact fun hf => inStep_loop (fun _ hs => hc.inStep_eval hcall (hs hf))
      (fun _ hs => ih (hs hf)) rounds
  | @function marks mark name params body hname hbody ih =>
    intro shape f hf
    have hclosure : Closure.Renamed σ shape ⟨name.text, params, body.map Prod.fst, f⟩
        ⟨name.text, params.map (Name.map (exchangeIf σ mark)), body.map Prod.snd, f⟩ :=
      .intro mark hf (forall₂_of_pairs hbody)
    refine (inStep_addFunction hclosure).bind fun shape₁ v hs _ => ?_
    have hdefine := inStep_define (σ := σ) (hs hf) name.text v
    rw [hname] at hdefine
    exact hdefine.bind fun _ _ _ _ => inStep_pure fun _ _ => trivial
  | returnStmt he =>
    exact fun hf => (Expr.OptionRenamed.inStep_evalOption hcall he hf).bind fun _ _ _ _ =>
      inStep_pure fun _ _ => trivial

end Stmt

/-! ## Calls -/

theorem Run.inStep_defineAll {f : Nat} {marks : Marks} (hf : shape f = some marks)
    (params : List Name) (args : List Value) :
    InStep σ shape (defineAll f (params.zip args))
      (defineAll f ((params.map (Name.map (exchangeIf σ (marks 0)))).zip args)) someResult := by
  induction params generalizing shape args with
  | nil => exact inStep_pure fun _ _ => trivial
  | cons param params ih =>
    cases args with
    | nil => exact inStep_pure fun _ _ => trivial
    | cons v args =>
      rw [List.map_cons, List.zip_cons_cons, List.zip_cons_cons]
      exact (inStep_define hf param.text v).bind fun _ _ hs _ => ih (hs hf) args

theorem Closure.Renamed.inStep_run {call call' : Caller} (hcall : Caller.InStep σ call call')
    {c c' : Closure} (h : c.Renamed σ shape c') (args : List Value) (rounds : Nat) :
    InStep σ shape (c.run call rounds args) (c'.run call' rounds args) someResult := by
  cases h with
  | @intro name params body body' f marks mark hf hbody =>
    have henter : InStep σ shape (Closure.enter ⟨name, params, body, f⟩ args)
        (Closure.enter ⟨name, params.map (Name.map (exchangeIf σ mark)), body', f⟩ args)
        fun shape₁ inner => shape₁ inner = some (marks.enter mark) := by
      refine (inStep_newFrame hf mark).bind fun _ inner _ hinner => ?_
      refine (inStep_defineAll hinner params args).bind fun _ _ hs _ => inStep_pure fun _ hs₁ => ?_
      exact hs₁ (hs hinner)
    refine henter.bind fun _ inner _ hinner => ?_
    refine (Stmt.inStep_execAll (hbody.imp fun _ _ hs => hs.inStep_exec hcall) hinner).bind
      fun _ flow _ _ => ?_
    cases flow <;> exact inStep_pure fun _ _ => trivial

theorem inStep_checkCall (host : Host) (v : Value) (count : Nat) (site : Location) :
    InStep σ shape (checkCall host v count site) (checkCall host v count site) someResult := by
  intro shape₁ m m' _ hm
  cases hcallable : v.asCallable with
  | error mismatch =>
    unfold checkCall
    rw [hcallable]
    exact inStep_fail (.same _) site shape₁ m m' (.refl shape₁) hm
  | ok g =>
    have hdepth : m'.depth = m.depth := congrArg List.length hm.calls
    rw [checkCall_eq hcallable, checkCall_eq hcallable, hm.arity, hdepth]
    exact InStep.ite (inStep_fail (.same _) site)
      (.ite (inStep_fail (.same _) site) (inStep_pure fun _ _ => trivial)) shape₁ m m'
      (.refl shape₁) hm

/-- Calls are in step, however deep they may be nested. -/
theorem inStep_callWithin (σ : Equiv.Perm Text) (host : Host) (fuel : Nat) :
    Caller.InStep σ (callWithin host fuel) (callWithin host fuel) := by
  induction fuel with
  | zero => exact fun _ _ _ _ => inStep_outOfFuel
  | succ fuel ih =>
    intro shape v args site
    unfold callWithin
    refine (inStep_checkCall host v args.length site).bind fun shape₁ g _ _ =>
      inStep_withCall _ ?_
    cases v with
    | native g' =>
      -- there are no native functions, so the value stands for none in either machine
      refine inStep_get fun shape₂ m m' _ hm => ?_
      rw [hm.natives, hm.natives']
      exact inStep_pure fun _ _ => trivial
    | _ =>
      refine inStep_get fun shape₂ m m' _ hm => ?_
      have hclosure := hm.closures g.id
      revert hclosure
      generalize m.functions[g.id]? = c, m'.functions[g.id]? = c'
      rintro (hc | _)
      · exact hc.inStep_run ih args fuel
      · exact inStep_pure fun _ _ => trivial

/-! ## Programs -/

/-- A program and its renamed form run in step. -/
theorem Program.inStep_exec {p q : Program} (h : List.Forall₂ (Stmt.Renamed σ .none) p q)
    (host : Host) (fuel : Nat) (hglobal : shape Machine.globalFrame = some .none) :
    InStep σ shape (Program.exec host fuel p) (Program.exec host fuel q) someResult := by
  induction h generalizing shape with
  | nil => exact inStep_pure fun _ _ => trivial
  | cons hs _ ih =>
    exact (hs.inStep_exec (inStep_callWithin σ host fuel) hglobal).bind fun _ _ hs₁ _ =>
      ih (hs₁ hglobal)

end Lox
