import Lox.Proofs.Likeness.Machine
import Lox.Proofs.Run.Preservation

/-!
# Programs alike run alike

`Run.Agree` relates two runs that, started on machines alike, end alike: both without enough fuel, or
both with a result or an error, behind the same lines and on machines that are alike again. What they
run differs in its locations at most, and locations never decide how a run goes on
(`Program.Alike.agree_exec`); they end up in the errors, and there `RuntimeError.Alike` leaves them
out. Calls agree by induction on the fuel (`agree_callWithin`).
-/

namespace Lox

/-- Errors with the same cause during calls of the same names. -/
structure RuntimeError.Alike (e e' : RuntimeError) : Prop where
  fault : e.fault = e'.fault
  trace : e.trace.map CallFrame.callee = e'.trace.map CallFrame.callee

/-- What two machines have written since is the same. -/
def Machine.SameLines (m m' m₁ m₁' : Machine) : Prop :=
  ∃ lines, m₁.output = m.output ++ lines ∧ m₁'.output = m'.output ++ lines

theorem Machine.SameLines.refl (m m' : Machine) : SameLines m m' m m' :=
  ⟨#[], Array.append_empty.symm, Array.append_empty.symm⟩

theorem Machine.SameLines.trans {m m' m₁ m₁' m₂ m₂' : Machine} (h : SameLines m m' m₁ m₁')
    (h' : SameLines m₁ m₁' m₂ m₂') : SameLines m m' m₂ m₂' := by
  obtain ⟨lines, h₁, h₁'⟩ := h
  obtain ⟨lines', h₂, h₂'⟩ := h'
  refine ⟨lines ++ lines', ?_, ?_⟩
  · rw [h₂, h₁, Array.append_assoc]
  · rw [h₂', h₁', Array.append_assoc]

variable {host host' : Host} {l l₁ : Link}

namespace Run

variable {α β γ δ : Type}

/-- The two ways in which runs end are alike. -/
inductive EndsAlike (host host' : Host) (l : Link) (m m' : Machine) (Q : Link → α → β → Prop) :
    EStateM.Result Abort Machine α → EStateM.Result Abort Machine β → Prop
  | ok {l₁ : Link} {m₁ m₁' : Machine} {a : α} {b : β} :
    l.Extends l₁ → m₁.Alike host host' l₁ m₁' → Machine.SameLines m m' m₁ m₁' → Q l₁ a b →
      EndsAlike host host' l m m' Q (.ok a m₁) (.ok b m₁')
  | error {l₁ : Link} {m₁ m₁' : Machine} {e e' : RuntimeError} :
    l.Extends l₁ → m₁.Alike host host' l₁ m₁' → Machine.SameLines m m' m₁ m₁' → e.Alike e' →
      EndsAlike host host' l m m' Q (.error (.error e) m₁) (.error (.error e') m₁')
  | outOfFuel {m₁ m₁' : Machine} :
    EndsAlike host host' l m m' Q (.error .outOfFuel m₁) (.error .outOfFuel m₁')

/-- On machines alike the runs end alike, with results that are related. -/
def Agree (host host' : Host) (l : Link) (x : Run α) (y : Run β) (Q : Link → α → β → Prop) : Prop :=
  ∀ l₁ m m', l.Extends l₁ → m.Alike host host' l₁ m' → EndsAlike host host' l₁ m m' Q (x m) (y m')

/-- Nothing is asked of the results. -/
abbrev anyResult : Link → α → β → Prop := fun _ _ _ => True

theorem EndsAlike.mono {m m' m₁ m₁' : Machine} {Q : Link → α → β → Prop}
    {r : EStateM.Result Abort Machine α} {r' : EStateM.Result Abort Machine β}
    (h : EndsAlike host host' l₁ m₁ m₁' Q r r') (hl : l.Extends l₁)
    (hlines : Machine.SameLines m m' m₁ m₁') : EndsAlike host host' l m m' Q r r' := by
  cases h with
  | ok hl₂ hm hlines' hab => exact .ok (hl.trans hl₂) hm (hlines.trans hlines') hab
  | error hl₂ hm hlines' he => exact .error (hl.trans hl₂) hm (hlines.trans hlines') he
  | outOfFuel => exact .outOfFuel

theorem Agree.bind {x : Run α} {y : Run β} {f : α → Run γ} {g : β → Run δ}
    {Q : Link → α → β → Prop} {R : Link → γ → δ → Prop} (h : Agree host host' l x y Q)
    (hf : ∀ l₁ a b, l.Extends l₁ → Q l₁ a b → Agree host host' l₁ (f a) (g b) R) :
    Agree host host' l (x >>= f) (y >>= g) R := by
  intro l₁ m m' hl hm
  have hx := h l₁ m m' hl hm
  cases hr : x m with
  | ok a m₁ =>
    rw [bind_of_ok hr]
    rw [hr] at hx
    cases hr' : y m' with
    | ok b m₁' =>
      rw [bind_of_ok hr']
      rw [hr'] at hx
      cases hx with
      | @ok l₂ _ _ _ _ hl₂ hm₁ hlines hab =>
        exact (hf l₂ a b (hl.trans hl₂) hab l₂ m₁ m₁' (.refl l₂) hm₁).mono hl₂ hlines
    | error e m₁' =>
      rw [hr'] at hx
      cases hx
  | error e m₁ =>
    rw [bind_of_error hr]
    rw [hr] at hx
    cases hr' : y m' with
    | ok b m₁' =>
      rw [hr'] at hx
      cases hx
    | error e' m₁' =>
      rw [bind_of_error hr']
      rw [hr'] at hx
      cases hx with
      | error hl₂ hm₁ hlines he => exact .error hl₂ hm₁ hlines he
      | outOfFuel => exact .outOfFuel

theorem agree_pure {a : α} {b : β} {Q : Link → α → β → Prop}
    (h : ∀ l₁, l.Extends l₁ → Q l₁ a b) : Agree host host' l (pure a) (pure b) Q :=
  fun l₁ m m' hl hm => .ok (.refl l₁) hm (.refl m m') (h l₁ hl)

theorem agree_outOfFuel {Q : Link → α → β → Prop} :
    Agree host host' l (throw .outOfFuel) (throw .outOfFuel) Q :=
  fun _ _ _ _ _ => .outOfFuel

theorem agree_fail (fault : Fault) (loc loc' : Location) {Q : Link → α → β → Prop} :
    Agree host host' l (fail fault loc) (fail fault loc') Q :=
  fun l₁ m m' _ hm => .error (.refl l₁) hm (.refl m m') ⟨rfl, hm.calls⟩

theorem agree_ofExcept {r : Except Fault α} {Q : Link → α → α → Prop} (loc loc' : Location)
    (h : ∀ a, r = .ok a → ∀ l, Q l a a) :
    Agree host host' l (ofExcept loc r) (ofExcept loc' r) Q := by
  cases r with
  | ok a => exact agree_pure fun l₁ _ => h a rfl l₁
  | error fault => exact agree_fail fault loc loc'

theorem Agree.ite {c c' : Prop} [Decidable c] [Decidable c'] (hc : c ↔ c') {x y : Run α}
    {x' y' : Run β} {Q : Link → α → β → Prop} (hx : Agree host host' l x x' Q)
    (hy : Agree host host' l y y' Q) :
    Agree host host' l (if c then x else y) (if c' then x' else y') Q := by
  by_cases h : c
  · rw [if_pos h, if_pos (hc.1 h)]
    exact hx
  · rw [if_neg h, if_neg (hc.not.1 h)]
    exact hy

/-- Functions are numbered one to one. -/
theorem agree_numbering {x : Run α} {y : Run β} {Q : Link → α → β → Prop}
    (h : ∀ n n', Numbering l.functions n n' → Agree host host' l x y Q) :
    Agree host host' l x y Q := by
  intro l₁ m m' hl hm
  have hn : Numbering l.functions m.functions.size m'.functions.size :=
    ⟨fun hi hj => hm.functions.unique (hl.functions hi) (hl.functions hj),
      fun hi => hm.functions.aligned (hl.functions hi)⟩
  exact h _ _ hn l₁ m m' hl hm

/-- Asking for the machines gives machines alike. -/
theorem agree_get : Agree host host' l get get fun l₁ m m' => m.Alike host host' l₁ m' :=
  fun l₁ m m' _ hm => .ok (.refl l₁) hm (.refl m m') hm

/-! ### Steps -/

theorem agree_write (line : Text) :
    Agree host host' l (write line) (write line) anyResult :=
  fun l₁ _ _ _ hm => .ok (.refl l₁) { hm with }
    ⟨#[line], Array.push_eq_append, Array.push_eq_append⟩ trivial

theorem agree_define {f f' : Nat} (hf : l.frames f f') (x : Text) {v v' : Value}
    (hv : v.Alike l v') : Agree host host' l (define f x v) (define f' x v') anyResult :=
  fun l₁ _ _ hl hm => .ok (.refl l₁) (hm.define (hl.frames hf) x (hv.mono hl)) (.refl _ _) trivial

theorem agree_newFrame {f f' : Nat} (hf : l.frames f f') :
    Agree host host' l (newFrame f) (newFrame f') fun l₁ inner inner' => l₁.frames inner inner' :=
  fun l₁ m m' hl hm => .ok (l₁.extends_addFrame _ _) (hm.addChild (hl.frames hf)) (.refl m m')
    (.inr ⟨rfl, rfl⟩)

theorem agree_addFunction {c c' : Closure} (hc : c.Alike l c') :
    Agree host host' l (modifyGet fun m => m.addFunction c) (modifyGet fun m => m.addFunction c')
      Value.Alike := by
  intro l₁ m m' hl hm
  obtain ⟨hm₁, hv⟩ := hm.addFunction (hc.mono hl)
  exact .ok (l₁.extends_addFunction _ _) hm₁ (.refl m m') hv

theorem agree_withCall {call call' : CallFrame} (hcallee : call.callee = call'.callee)
    {x : Run α} {y : Run β} {Q : Link → α → β → Prop} (h : Agree host host' l x y Q) :
    Agree host host' l (withCall call x) (withCall call' y) Q := by
  intro l₁ m m' hl hm
  have hstart : Machine.Alike host host' l₁ { m with calls := call :: m.calls }
      { m' with calls := call' :: m'.calls } :=
    hm.setCalls (by rw [List.map_cons, List.map_cons, hcallee, hm.calls])
  have hbody := h l₁ _ _ hl hstart
  have htail {m m' : Machine} {l : Link} (hm : m.Alike host host' l m') :
      Machine.Alike host host' l { m with calls := m.calls.tail }
        { m' with calls := m'.calls.tail } :=
    hm.setCalls (by rw [List.map_tail, List.map_tail, hm.calls])
  unfold withCall
  revert hbody
  generalize x { m with calls := call :: m.calls } = r
  generalize y { m' with calls := call' :: m'.calls } = r'
  intro hbody
  cases hbody with
  | ok hl₂ hm₁ hlines hab => exact .ok hl₂ (htail hm₁) hlines hab
  | error hl₂ hm₁ hlines he => exact .error hl₂ (htail hm₁) hlines he
  | outOfFuel => exact .outOfFuel

end Run

open Run

/-- How to call values alike: the calls agree. -/
def Caller.Agree (host host' : Host) (call call' : Caller) : Prop :=
  ∀ {l : Link} {v v' : Value} {args args' : List Value} (site site' : Location), v.Alike l v' →
    Values.Alike l args args' →
      Run.Agree host host' l (call v args site) (call' v' args' site') Value.Alike

/-! ## Expressions -/

namespace Expr

variable {call call' : Caller} {f f' : Nat} {name name' : Name} {d : Option Nat}

theorem agree_readVariable (hf : l.frames f f') (hname : name.Alike anywhere name') :
    Agree host host' l (readVariable f name d) (readVariable f' name' d) Value.Alike := by
  refine agree_get.bind fun l₁ m m' hl hm => ?_
  rw [← hname.text]
  cases d with
  | some d =>
    have hfound := hm.frames.getAt (hl.frames hf) d name.text
    revert hfound
    dsimp only
    generalize m.frames.getAt f d name.text = found, m'.frames.getAt f' d name.text = found'
    rintro (hv | _)
    · exact agree_pure fun l₂ hl₂ => hv.mono hl₂
    · exact agree_fail _ _ _
  | none =>
    have hfound := hm.frames.values hm.global name.text
    revert hfound
    dsimp only
    generalize m.frames.getLocal Machine.globalFrame name.text = found,
      m'.frames.getLocal Machine.globalFrame name.text = found'
    rintro (hv | _)
    · exact agree_pure fun l₂ hl₂ => hv.mono hl₂
    · exact agree_fail _ _ _

theorem agree_writeVariable (hf : l.frames f f') (hname : name.Alike anywhere name') {v v' : Value}
    (hv : v.Alike l v') :
    Agree host host' l (writeVariable f name d v) (writeVariable f' name' d v') anyResult := by
  refine agree_get.bind fun l₁ m m' hl hm => ?_
  rw [← hname.text]
  cases d with
  | some d =>
    have hbinder := hm.frames.binder? (hl.frames hf) d name.text
    revert hbinder
    dsimp only
    generalize m.frames.binder? f d name.text = binder, m'.frames.binder? f' d name.text = binder'
    rintro (htarget | _)
    · exact agree_define htarget name.text (hv.mono hl)
    · exact agree_fail _ _ _
  | none =>
    have hbinder := hm.frames.binder? hm.global 0 name.text
    revert hbinder
    dsimp only
    generalize m.frames.binder? Machine.globalFrame 0 name.text = binder,
      m'.frames.binder? Machine.globalFrame 0 name.text = binder'
    rintro (htarget | _)
    · exact agree_define htarget name.text (hv.mono hl)
    · exact agree_fail _ _ _

theorem agree_evalAll {es es' : List Expr}
    (h : List.Forall₂ (fun e e' : Expr => ∀ {l : Link}, l.frames f f' →
      Agree host host' l (e.eval call f) (e'.eval call' f') Value.Alike) es es')
    {l : Link} (hf : l.frames f f') :
    Agree host host' l (evalAll call f es) (evalAll call' f' es') Values.Alike := by
  induction h generalizing l with
  | nil => exact agree_pure fun _ _ => .nil
  | cons he _ ih =>
    refine (he hf).bind fun l₁ v v' hl hv => ?_
    refine (ih (hl.frames hf)).bind fun l₂ vs vs' hl₁ hvs => agree_pure fun l₃ hl₂ => ?_
    exact .cons (hv.mono (hl₁.trans hl₂)) (hvs.imp fun _ _ hw => hw.mono hl₂)

/-- Expressions alike have values alike. -/
theorem Alike.agree_eval {e e' : Expr} (hcall : Caller.Agree host host' call call')
    (h : e.Alike anywhere e') (hf : l.frames f f') :
    Agree host host' l (e.eval call f) (e'.eval call' f') Value.Alike := by
  induction h generalizing l with
  | literal hv => exact agree_pure fun _ _ => .self hv
  | grouping _ _ ih => exact ih hf
  | unary hop _ ih =>
    refine (ih hf).bind fun l₁ v v' hl hv => ?_
    rw [← hop.unaryValue hv]
    exact agree_ofExcept _ _ fun r hr _ => .self (Operator.isCallable_unaryValue hr)
  | binary hop _ _ ihl ihr =>
    refine (ihl hf).bind fun l₁ v v' hl hv => ?_
    refine (ihr (hl.frames hf)).bind fun l₂ w w' hl₁ hw => ?_
    refine agree_numbering fun _ _ hn => ?_
    rw [← hop.binaryValue hn (hv.mono hl₁) hw]
    exact agree_ofExcept _ _ fun r hr _ => .self (Operator.isCallable_binaryValue hr)
  | logical hop _ _ ihl ihr =>
    refine (ihl hf).bind fun l₁ v v' hl hv => ?_
    rw [hv.truthy]
    refine .ite (by rw [hop.decides]) (agree_pure fun _ _ => .bool _) ?_
    refine (ihr (hl.frames hf)).bind fun l₂ w w' _ hw => ?_
    rw [hw.truthy]
    exact agree_pure fun _ _ => .bool _
  | reference hname => exact agree_readVariable hf hname
  | assign hname _ ih =>
    refine (ih hf).bind fun l₁ v v' hl hv => ?_
    refine (agree_writeVariable (hl.frames hf) hname hv).bind fun l₂ _ _ hl₁ _ => ?_
    exact agree_pure fun l₃ hl₂ => hv.mono (hl₁.trans hl₂)
  | call _ _ _ ihf ihargs =>
    refine (ihf hf).bind fun l₁ v v' hl hv => ?_
    refine (agree_evalAll (forall₂_of_pairs ihargs) (hl.frames hf)).bind fun l₂ vs vs' hl₁ hvs => ?_
    exact hcall _ _ (hv.mono hl₁) hvs

end Expr

/-! ## Statements -/

/-- Statements end alike: the next one follows, or values alike are returned. -/
inductive Flow.Alike (l : Link) : Flow → Flow → Prop
  | next : Alike l .next .next
  | returned {v v' : Value} : v.Alike l v' → Alike l (.returned v) (.returned v')

theorem Expr.OptionAlike.agree_evalOption {call call' : Caller} {f f' : Nat} {e e' : Option Expr}
    (hcall : Caller.Agree host host' call call') (h : OptionAlike anywhere e e')
    (hf : l.frames f f') :
    Run.Agree host host' l (evalOption call f e) (evalOption call' f' e') Value.Alike := by
  cases h with
  | none => exact agree_pure fun _ _ => .nil
  | some he => exact he.agree_eval hcall hf

theorem Run.agree_loop {condition condition' : Run Value} {body body' : Run Flow}
    (hcondition : ∀ l₁, l.Extends l₁ → Agree host host' l₁ condition condition' Value.Alike)
    (hbody : ∀ l₁, l.Extends l₁ → Agree host host' l₁ body body' Flow.Alike) (rounds : Nat) :
    Agree host host' l (loop condition body rounds) (loop condition' body' rounds) Flow.Alike := by
  induction rounds generalizing l with
  | zero => exact agree_outOfFuel
  | succ rounds ih =>
    refine (hcondition l (.refl l)).bind fun l₁ v v' hl hv => ?_
    rw [hv.truthy]
    refine .ite Iff.rfl ?_ (agree_pure fun _ _ => .next)
    refine (hbody l₁ hl).bind fun l₂ flow flow' hl₁ hflow => ?_
    cases hflow with
    | next =>
      have hl₂ := hl.trans hl₁
      exact ih (fun l₃ hl₃ => hcondition l₃ (hl₂.trans hl₃)) fun l₃ hl₃ => hbody l₃ (hl₂.trans hl₃)
    | returned hv => exact agree_pure fun _ hl₂ => .returned (hv.mono hl₂)

namespace Stmt

variable {call call' : Caller} {rounds : Nat}

/-- Statements that run alike in frames that correspond. -/
def RunAlike (host host' : Host) (call call' : Caller) (rounds : Nat) (s s' : Stmt) : Prop :=
  ∀ {l : Link} {f f' : Nat}, l.frames f f' →
    Run.Agree host host' l (s.exec call rounds f) (s'.exec call' rounds f') Flow.Alike

theorem agree_execAll {body body' : List Stmt}
    (h : List.Forall₂ (RunAlike host host' call call' rounds) body body') {f f' : Nat}
    (hf : l.frames f f') :
    Run.Agree host host' l (execAll call rounds f body) (execAll call' rounds f' body')
      Flow.Alike := by
  induction h generalizing l with
  | nil => exact agree_pure fun _ _ => .next
  | cons hs _ ih =>
    refine (hs hf).bind fun l₁ flow flow' hl hflow => ?_
    cases hflow with
    | next => exact ih (hl.frames hf)
    | returned hv => exact agree_pure fun _ hl₁ => .returned (hv.mono hl₁)

/-- Statements alike run alike. -/
theorem Alike.agree_exec {s s' : Stmt} (hcall : Caller.Agree host host' call call')
    (h : s.Alike anywhere s') : RunAlike host host' call call' rounds s s' := by
  induction h with
  | expression he =>
    exact fun hf => (he.agree_eval hcall hf).bind fun _ _ _ _ _ => agree_pure fun _ _ => .next
  | print he =>
    refine fun hf => (he.agree_eval hcall hf).bind fun _ v v' _ hv => ?_
    rw [hv.text]
    exact (agree_write v'.text).bind fun _ _ _ _ _ => agree_pure fun _ _ => .next
  | @var name name' _ _ hname he =>
    refine fun hf => (he.agree_evalOption hcall hf).bind fun _ v v' hl hv => ?_
    rw [← hname.text]
    exact (agree_define (hl.frames hf) name.text hv).bind fun _ _ _ _ _ => agree_pure fun _ _ => .next
  | block _ _ ih =>
    exact fun hf => (agree_newFrame hf).bind fun _ _ _ _ hinner =>
      agree_execAll (forall₂_of_pairs ih) hinner
  | ifThen hc _ _ ih =>
    refine fun hf => (hc.agree_eval hcall hf).bind fun _ v v' hl hv => ?_
    rw [hv.truthy]
    exact .ite Iff.rfl (ih (hl.frames hf)) (agree_pure fun _ _ => .next)
  | ifElse hc _ _ _ ih iho =>
    refine fun hf => (hc.agree_eval hcall hf).bind fun _ v v' hl hv => ?_
    rw [hv.truthy]
    exact .ite Iff.rfl (ih (hl.frames hf)) (iho (hl.frames hf))
  | whileLoop hc _ _ ih =>
    exact fun hf => agree_loop (fun _ hl => hc.agree_eval hcall (hl.frames hf))
      (fun _ hl => ih (hl.frames hf)) rounds
  | @function name name' params params' body hname hparams hbody ih =>
    intro l f f' hf
    have hclosure : Closure.Alike l ⟨name.text, params, body.map Prod.fst, f⟩
        ⟨name'.text, params', body.map Prod.snd, f'⟩ :=
      ⟨hname.text, hparams, forall₂_of_pairs hbody, hf⟩
    refine (agree_addFunction hclosure).bind fun _ v v' hl hv => ?_
    rw [← hname.text]
    exact (agree_define (hl.frames hf) name.text hv).bind fun _ _ _ _ _ => agree_pure fun _ _ => .next
  | returnStmt he =>
    exact fun hf => (he.agree_evalOption hcall hf).bind fun _ _ _ _ hv =>
      agree_pure fun _ hl => .returned (hv.mono hl)

end Stmt

/-! ## Calls -/

theorem Run.agree_defineAll {f f' : Nat} (hf : l.frames f f') {params params' : List Name}
    (hparams : List.Forall₂ (Name.Alike anywhere) params params') {args args' : List Value}
    (hargs : Values.Alike l args args') :
    Agree host host' l (defineAll f (params.zip args)) (defineAll f' (params'.zip args'))
      anyResult := by
  induction hparams generalizing l args args' with
  | nil => exact agree_pure fun _ _ => trivial
  | @cons param _ _ _ hparam _ ih =>
    cases hargs with
    | nil => exact agree_pure fun _ _ => trivial
    | cons hv hrest =>
      simp only [List.zip_cons_cons, defineAll, ← hparam.text]
      exact (agree_define hf param.text hv).bind fun _ _ _ hl _ =>
        ih (hl.frames hf) (hrest.imp fun _ _ hw => hw.mono hl)

theorem Closure.Alike.agree_run {call call' : Caller} (hcall : Caller.Agree host host' call call')
    {c c' : Closure} (h : c.Alike l c') {args args' : List Value} (hargs : Values.Alike l args args')
    (rounds : Nat) :
    Run.Agree host host' l (c.run call rounds args) (c'.run call' rounds args') Value.Alike := by
  have henter : Run.Agree host host' l (c.enter args) (c'.enter args')
      fun l₁ inner inner' => l₁.frames inner inner' := by
    refine (agree_newFrame h.frame).bind fun _ inner inner' hl hinner => ?_
    refine (agree_defineAll hinner h.parameters (hargs.imp fun _ _ hv => hv.mono hl)).bind
      fun _ _ _ hl₁ _ => ?_
    exact agree_pure fun _ hl₂ => hl₂.frames (hl₁.frames hinner)
  refine henter.bind fun _ inner inner' _ hinner => ?_
  refine (Stmt.agree_execAll (h.body.imp fun _ _ hs => hs.agree_exec hcall) hinner).bind
    fun _ flow flow' _ hflow => ?_
  cases hflow with
  | next => exact agree_pure fun _ _ => .nil
  | returned hv => exact agree_pure fun _ hl => hv.mono hl

theorem Machine.Alike.arity {m m' : Machine} (h : m.Alike host host' l m') {i i' : Nat}
    (hi : l.functions i i') (name : Text) (arity : Nat) :
    m.arity (.function ⟨i, name, arity⟩) ⟨i, name, arity⟩ =
      m'.arity (.function ⟨i', name, arity⟩) ⟨i', name, arity⟩ := by
  have hclosures := h.closures hi
  show (m.functions[i]?.map (·.parameters.length)).getD arity =
    (m'.functions[i']?.map (·.parameters.length)).getD arity
  revert hclosures
  generalize m.functions[i]? = c, m'.functions[i']? = c'
  rintro (hc | _)
  · exact hc.parameters.length_eq
  · rfl

/-- The call is checked alike, and what is called is the value. -/
theorem agree_checkCall (hdepth : host.maxDepth = host'.maxDepth) {v v' : Value}
    (hv : v.Alike l v') (count : Nat) (site site' : Location) :
    Run.Agree host host' l (checkCall host v count site) (checkCall host' v' count site')
      fun _ f f' => v.asCallable = .ok f ∧ v'.asCallable = .ok f' := by
  have hlimits {n n' : Nat} (hn : n = n') {f f' : Callable} (hf : v.asCallable = .ok f)
      (hf' : v'.asCallable = .ok f') {l : Link} : Run.Agree host host' l
        (do
          if count ≠ n then Run.fail (.arityMismatch n count) site
          else if host.maxDepth ≤ (← get).depth then Run.fail (.stackOverflow host.maxDepth) site
          else return f)
        (do
          if count ≠ n' then Run.fail (.arityMismatch n' count) site'
          else if host'.maxDepth ≤ (← get).depth then Run.fail (.stackOverflow host'.maxDepth) site'
          else return f') fun _ f f' => v.asCallable = .ok f ∧ v'.asCallable = .ok f' := by
    rw [hn, hdepth]
    refine .ite Iff.rfl (agree_fail _ _ _) (agree_get.bind fun l₁ m m' _ hm => ?_)
    have hlength : m.depth = m'.depth := by
      simpa [Machine.depth] using congrArg List.length hm.calls
    rw [hlength]
    exact .ite Iff.rfl (agree_fail _ _ _) (agree_pure fun _ _ => ⟨hf, hf'⟩)
  cases hv with
  | function name arity hi =>
    exact agree_get.bind fun l₁ m m' hl hm =>
      hlimits (hm.arity (hl.functions hi) name arity) rfl rfl
  | native f => exact agree_get.bind fun _ _ _ _ _ => hlimits rfl rfl rfl
  | _ => exact agree_fail _ _ _

/-- The only native function is `clock`, and its readings agree. -/
theorem agree_callNative (call call' : Caller) (f : Callable) (args args' : List Value)
    (site site' : Location) :
    Run.Agree host host' l
      (do
        match (← get).natives[f.id]? with
        | some native => (native.body args).perform host call f.name site
        | none => return .nil)
      (do
        match (← get).natives[f.id]? with
        | some native => (native.body args').perform host' call' f.name site'
        | none => return .nil) Value.Alike := by
  intro l₁ m m' _ hm
  show Run.EndsAlike host host' l₁ m m' Value.Alike
    ((match m.natives[f.id]? with
      | some native => (native.body args).perform host call f.name site
      | none => return .nil : Run Value) m)
    ((match m'.natives[f.id]? with
      | some native => (native.body args').perform host' call' f.name site'
      | none => return .nil : Run Value) m')
  rw [← hm.natives]
  cases hnative : m.natives[f.id]? with
  | none => exact .ok (.refl l₁) hm (.refl m m') .nil
  | some native =>
    obtain ⟨rfl, hclock⟩ := hm.clock native (Array.mem_of_getElem? hnative)
    have hlater : Machine.Alike host host' l₁ { m with readings := m.readings + 1 }
        { m' with readings := m'.readings + 1 } :=
      { hm with clock := fun native hn => ⟨(hm.clock native hn).1, fun k => by
          show host.clock (m.readings + 1 + k) = host'.clock (m'.readings + 1 + k)
          rw [Nat.add_assoc, Nat.add_assoc]
          exact hclock (1 + k)⟩ }
    have hreading : host.clock m.readings = host'.clock m'.readings := hclock 0
    refine .ok (.refl l₁) hlater (.refl m m') ?_
    show Value.Alike l₁ (.number (host.clock m.readings)) (.number (host'.clock m'.readings))
    rw [hreading]
    exact .number _

/-- Calls of values alike agree, however deep they may be nested. -/
theorem agree_callWithin (hdepth : host.maxDepth = host'.maxDepth) (fuel : Nat) :
    Caller.Agree host host' (callWithin host fuel) (callWithin host' fuel) := by
  induction fuel with
  | zero => exact fun _ _ _ _ => agree_outOfFuel
  | succ fuel ih =>
    intro l v v' args args' site site' hv hargs
    unfold callWithin
    rw [hargs.length_eq]
    refine (agree_checkCall hdepth hv _ site site').bind fun l₁ f f' hl hcallable => ?_
    obtain ⟨hf, hf'⟩ := hcallable
    cases hv with
    | native f =>
      cases hf
      cases hf'
      refine agree_withCall ?_ (agree_callNative _ _ f args args' site site')
      rfl
    | @function i i' name arity hi =>
      cases hf
      cases hf'
      refine agree_withCall ?_ (agree_get.bind fun l₂ m m' hl₁ hm => ?_)
      · rfl
      have hclosures := hm.closures (hl₁.functions (hl.functions hi))
      revert hclosures
      generalize m.functions[i]? = c, m'.functions[i']? = c'
      rintro (hc | _)
      · exact hc.agree_run ih (hargs.imp fun _ _ hw => hw.mono (hl.trans hl₁)) fuel
      · exact agree_pure fun _ _ => .nil
    | _ => cases hf

/-! ## Programs -/

/-- Programs alike run alike on machines alike. -/
theorem Program.Alike.agree_exec {p q : Program} (h : Program.Alike anywhere p q)
    (hdepth : host.maxDepth = host'.maxDepth) (fuel : Nat)
    (hglobal : l.frames Machine.globalFrame Machine.globalFrame) :
    Run.Agree host host' l (Program.exec host fuel p) (Program.exec host' fuel q) anyResult := by
  induction h generalizing l with
  | nil => exact agree_pure fun _ _ => trivial
  | cons hs _ ih =>
    exact (hs.agree_exec (agree_callWithin hdepth fuel) hglobal).bind fun _ _ _ hl _ =>
      ih (hl.frames hglobal)

end Lox
