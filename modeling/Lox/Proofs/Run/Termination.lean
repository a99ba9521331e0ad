import Lox.Proofs.Likeness.Machine
import Lox.Proofs.Run.Session

/-!
# Scripts without loops end

From the code of a program and the state of a machine a run gets at frames, values and more code
(`Machine.Accessible`). A `Region` is a set of such things that no look at a machine leads out of, and
that has no loops and no native functions; a run stays in it, and what the run makes is in it, too
(`Machine.Within`). There a run is bounded in two ways: between calls it follows the code, which gets
smaller, and each call takes one of those that the limit leaves. So one unit of fuel for each call that
the limit leaves is enough (`ends_callWithin`), and a script without loops ends, however functions call
one another (`Session.interpret_ends`).
-/

namespace Lox

/-- What a run can look at. -/
inductive Item
  | frame (f : Nat)
  | value (v : Value)
  | code (n : Node)

/-- What a run of a program can get at from the state of a machine. -/
inductive Machine.Accessible (m : Machine) (p : Program) : Item → Prop
  | statement {s : Stmt} : s ∈ p → Accessible m p (.code (.stmt s))
  | child {n c : Node} : Accessible m p (.code n) → c ∈ n.children → Accessible m p (.code c)
  | literal {v : Value} {loc : Location} :
    Accessible m p (.code (.expr (.literal v loc))) → Accessible m p (.value v)
  | global : Accessible m p (.frame Machine.globalFrame)
  | parent {f g : Nat} :
    Accessible m p (.frame f) → m.frames.parent? f = some g → Accessible m p (.frame g)
  | binding {f : Nat} {x : Text} {v : Value} :
    Accessible m p (.frame f) → m.frames.getLocal f x = some v → Accessible m p (.value v)
  /-- The frame that a function was declared in. -/
  | scope {f : Callable} {c : Closure} :
    Accessible m p (.value (.function f)) → m.functions[f.id]? = some c →
      Accessible m p (.frame c.frame)
  | body {f : Callable} {c : Closure} {s : Stmt} :
    Accessible m p (.value (.function f)) → m.functions[f.id]? = some c → s ∈ c.body →
      Accessible m p (.code (.stmt s))

/-- Things without loops and native functions that code does not lead out of. -/
structure Region where
  Has : Item → Prop
  global : Has (.frame Machine.globalFrame)
  plain : ∀ {v}, v.isCallable = false → Has (.value v)
  child : ∀ {n c}, Has (.code n) → c ∈ n.children → Has (.code c)
  literal : ∀ {v loc}, Has (.code (.expr (.literal v loc))) → Has (.value v)
  loopFree : ∀ {c body loc}, ¬Has (.code (.stmt (.whileLoop c body loc)))
  nativeFree : ∀ {f}, ¬Has (.value (.native f))

/-- A machine that does not lead out of a region, and on which the given number of calls are under way.
Frames and functions that are not made yet count as things of the region. -/
structure Machine.Within (R : Region) (depth : Nat) (m : Machine) : Prop where
  depth : m.depth = depth
  frames : ∀ f, m.frames.size ≤ f → R.Has (.frame f)
  functions : ∀ f : Callable, m.functions.size ≤ f.id → R.Has (.value (.function f))
  parent : ∀ {f g}, R.Has (.frame f) → m.frames.parent? f = some g → R.Has (.frame g)
  binding : ∀ {f x v}, R.Has (.frame f) → m.frames.getLocal f x = some v → R.Has (.value v)
  scope : ∀ {f : Callable} {c}, R.Has (.value (.function f)) → m.functions[f.id]? = some c →
    R.Has (.frame c.frame)
  body : ∀ {f : Callable} {c}, R.Has (.value (.function f)) → m.functions[f.id]? = some c →
    ∀ s ∈ c.body, R.Has (.code (.stmt s))

variable {R : Region} {d : Nat}

namespace Machine.Within

variable {m : Machine}

theorem define (h : m.Within R d) (frame : Nat) (x : Text) {v : Value} (hv : R.Has (.value v)) :
    Within R d { m with frames := m.frames.define frame x v } :=
  { h with
    frames := fun f hf => h.frames f (by rwa [Frames.size_define] at hf)
    parent := fun hf hparent => h.parent hf (by rwa [Frames.parent?_define] at hparent)
    binding := fun hf hvalue => by
      rw [Frames.getLocal_define] at hvalue
      split at hvalue
      · cases hvalue
        exact hv
      · exact h.binding hf hvalue }

theorem addChild (h : m.Within R d) {parent : Nat} (hparent : R.Has (.frame parent)) :
    Within R d { m with frames := m.frames.addChild parent } :=
  { h with
    frames := fun f hf => by
      rw [Frames.size_addChild] at hf
      exact h.frames f (Nat.le_of_succ_le hf)
    parent := fun hf hg => by
      rw [Frames.parent?_addChild] at hg
      split at hg
      · cases hg
        exact hparent
      · exact h.parent hf hg
    binding := fun hf hvalue => h.binding hf (by rwa [Frames.getLocal_addChild] at hvalue) }

theorem addFunction (h : m.Within R d) {c : Closure} (hscope : R.Has (.frame c.frame))
    (hbody : ∀ s ∈ c.body, R.Has (.code (.stmt s))) : (m.addFunction c).2.Within R d := by
  have hold {i : Nat} {c' : Closure} (hi : (m.functions.push c)[i]? = some c') :
      m.functions[i]? = some c' ∨ c' = c := by
    rw [Array.getElem?_push] at hi
    split at hi
    · exact .inr (Option.some.inj hi).symm
    · exact .inl hi
  refine { h with functions := fun f hf => ?_, scope := fun hf hc => ?_, body := fun hf hc => ?_ }
  · have hsize : (m.functions.push c).size ≤ f.id := hf
    rw [Array.size_push] at hsize
    exact h.functions f (Nat.le_of_succ_le hsize)
  · rcases hold hc with hc | rfl
    · exact h.scope hf hc
    · exact hscope
  · rcases hold hc with hc | rfl
    · exact h.body hf hc
    · exact hbody

theorem enterCall (h : m.Within R d) (call : CallFrame) :
    Within R (d + 1) { m with calls := call :: m.calls } :=
  { h with depth := congrArg (· + 1) h.depth }

theorem leaveCall (h : m.Within R (d + 1)) : Within R d { m with calls := m.calls.tail } :=
  { h with
    depth := by
      have hdepth : m.calls.length = d + 1 := h.depth
      show m.calls.tail.length = d
      rw [List.length_tail, hdepth, Nat.add_sub_cancel] }

theorem ancestor (h : m.Within R d) {f g : Nat} (hf : R.Has (.frame f)) {k : Nat}
    (hg : m.frames.ancestor? f k = some g) : R.Has (.frame g) := by
  induction k generalizing f with
  | zero => exact Option.some.inj hg ▸ hf
  | succ k ih =>
    obtain ⟨parent, hparent, hg⟩ := Option.bind_eq_some_iff.1 hg
    exact ih (h.parent hf hparent) hg

theorem value? (h : m.Within R d) {frame : Nat} (hframe : R.Has (.frame frame)) {name : Name}
    {k : Option Nat} {v : Value} (hv : m.value? frame name k = some v) : R.Has (.value v) := by
  cases k with
  | none => exact h.binding R.global hv
  | some k =>
    obtain ⟨target, htarget, hv⟩ := Option.bind_eq_some_iff.1 hv
    exact h.binding (h.ancestor hframe htarget) hv

end Machine.Within

/-! ## Runs that end -/

namespace Run

variable {α β : Type} {Q : α → Prop} {Q' : β → Prop}

/-- An end in a region: an error, or a result with a property. There was enough fuel. -/
inductive Ended (R : Region) (d : Nat) (Q : α → Prop) : EStateM.Result Abort Machine α → Prop
  | ok {a : α} {m : Machine} : m.Within R d → Q a → Ended R d Q (.ok a m)
  | error (e : RuntimeError) (m : Machine) : Ended R d Q (.error (.error e) m)

/-- In a region the run ends. -/
def Ends (R : Region) (d : Nat) (x : Run α) (Q : α → Prop) : Prop :=
  ∀ m, m.Within R d → Ended R d Q (x m)

theorem Ends.bind {x : Run α} {f : α → Run β} (hx : Ends R d x Q) (hf : ∀ a, Q a → Ends R d (f a) Q') :
    Ends R d (x >>= f) Q' := by
  intro m hm
  have hend := hx m hm
  cases h : x m with
  | ok a m' =>
    rw [h] at hend
    rw [bind_of_ok h]
    cases hend with
    | ok hm' ha => exact hf a ha m' hm'
  | error e m' =>
    rw [h] at hend
    rw [bind_of_error h]
    cases hend with
    | error e m' => exact .error e m'

theorem ends_pure {a : α} (ha : Q a) : Ends R d (pure a) Q := fun _ hm => .ok hm ha

theorem ends_fail (fault : Fault) (loc : Location) : Ends R d (fail fault loc : Run α) Q :=
  fun m _ => .error _ m

theorem ends_ofExcept {r : Except Fault α} (loc : Location) (h : ∀ a, r = .ok a → Q a) :
    Ends R d (ofExcept loc r) Q := by
  cases r with
  | ok a => exact ends_pure (h a rfl)
  | error fault => exact ends_fail fault loc

theorem ends_ite {c : Prop} [Decidable c] {x y : Run α} (hx : Ends R d x Q) (hy : Ends R d y Q) :
    Ends R d (if c then x else y) Q := by
  split
  · exact hx
  · exact hy

theorem ends_write (line : Text) : Ends R d (write line) fun _ => True :=
  fun _ hm => .ok { hm with } trivial

theorem ends_define (frame : Nat) (x : Text) {v : Value} (hv : R.Has (.value v)) :
    Ends R d (define frame x v) fun _ => True :=
  fun _ hm => .ok (hm.define frame x hv) trivial

theorem ends_newFrame {parent : Nat} (hparent : R.Has (.frame parent)) :
    Ends R d (newFrame parent) fun frame => R.Has (.frame frame) :=
  fun m hm => .ok (hm.addChild hparent) (hm.frames m.frames.size (Nat.le_refl _))

theorem Ends.withCall {x : Run α} (h : Ends R (d + 1) x Q) (call : CallFrame) :
    Ends R d (withCall call x) Q := by
  intro m hm
  have hend := h _ (hm.enterCall call)
  unfold Run.withCall
  revert hend
  generalize x { m with calls := call :: m.calls } = r
  rintro (⟨hm', ha⟩ | ⟨e, m'⟩)
  · exact .ok hm'.leaveCall ha
  · exact .error e _

end Run

open Run

/-- Calls end in a region if the callee and the arguments are there. -/
def Caller.Ends (R : Region) (d : Nat) (call : Caller) : Prop :=
  ∀ callee args site, R.Has (.value callee) → (∀ v ∈ args, R.Has (.value v)) →
    Run.Ends R d (call callee args site) fun v => R.Has (.value v)

variable {call : Caller} {frame : Nat}

/-! ## Expressions -/

namespace Expr

theorem ends_readVariable (hframe : R.Has (.frame frame)) (name : Name) (k : Option Nat) :
    Ends R d (readVariable frame name k) fun v => R.Has (.value v) := by
  intro m hm
  rw [readVariable_eq]
  cases hv : m.value? frame name k with
  | some v => exact .ok hm (hm.value? hframe hv)
  | none => exact ends_fail _ _ m hm

theorem ends_writeVariable (frame : Nat) (name : Name) (k : Option Nat) {v : Value}
    (hv : R.Has (.value v)) : Ends R d (writeVariable frame name k v) fun _ => True := by
  intro m hm
  rw [writeVariable_eq]
  cases m.binder? frame name k with
  | some target => exact ends_define target name.text hv m hm
  | none => exact ends_fail _ _ m hm

theorem has_operand {e c : Expr} (h : R.Has (.code (.expr e))) (hc : c ∈ e.children) :
    R.Has (.code (.expr c)) :=
  R.child h (List.mem_map_of_mem hc)

mutual

theorem ends_eval (hcall : call.Ends R d) (hframe : R.Has (.frame frame)) (e : Expr)
    (he : R.Has (.code (.expr e))) : Ends R d (e.eval call frame) fun v => R.Has (.value v) := by
  cases e with
  | literal v loc => exact ends_pure (R.literal he)
  | grouping e => exact ends_eval hcall hframe e (has_operand he (by simp [children]))
  | unary op e =>
    refine (ends_eval hcall hframe e (has_operand he (by simp [children]))).bind fun v _ => ?_
    exact ends_ofExcept _ fun r hr => R.plain (Operator.isCallable_unaryValue hr)
  | binary op l r =>
    refine (ends_eval hcall hframe l (has_operand he (by simp [children]))).bind fun v _ => ?_
    refine (ends_eval hcall hframe r (has_operand he (by simp [children]))).bind fun w _ => ?_
    exact ends_ofExcept _ fun r hr => R.plain (Operator.isCallable_binaryValue hr)
  | logical op l r =>
    unfold eval
    refine (ends_eval hcall hframe l (has_operand he (by simp [children]))).bind fun v _ => ?_
    refine ends_ite (ends_pure (R.plain rfl)) ?_
    exact (ends_eval hcall hframe r (has_operand he (by simp [children]))).bind fun w _ =>
      ends_pure (R.plain rfl)
  | reference name k => exact ends_readVariable hframe name k
  | assign name k e =>
    refine (ends_eval hcall hframe e (has_operand he (by simp [children]))).bind fun v hv => ?_
    exact (ends_writeVariable frame name k hv).bind fun _ _ => ends_pure hv
  | call f args loc =>
    have hargs : ∀ e ∈ args, R.Has (.code (.expr e)) := fun e hmem =>
      has_operand he (List.mem_cons_of_mem f hmem)
    refine (ends_eval hcall hframe f (has_operand he List.mem_cons_self)).bind fun callee hcallee => ?_
    exact (ends_evalAll hcall hframe args hargs).bind fun vs hvs => hcall callee vs loc hcallee hvs

theorem ends_evalAll (hcall : call.Ends R d) (hframe : R.Has (.frame frame)) (es : List Expr)
    (hes : ∀ e ∈ es, R.Has (.code (.expr e))) :
    Ends R d (evalAll call frame es) fun vs => ∀ v ∈ vs, R.Has (.value v) := by
  cases es with
  | nil => exact ends_pure (List.forall_mem_nil _)
  | cons e es =>
    obtain ⟨he, hes⟩ := List.forall_mem_cons.1 hes
    refine (ends_eval hcall hframe e he).bind fun v hv => ?_
    exact (ends_evalAll hcall hframe es hes).bind fun vs hvs =>
      ends_pure (List.forall_mem_cons.2 ⟨hv, hvs⟩)

end

theorem ends_evalOption (hcall : call.Ends R d) (hframe : R.Has (.frame frame)) {e : Option Expr}
    (he : ∀ c ∈ (e.map Node.expr).toList, R.Has (.code c)) :
    Ends R d (evalOption call frame e) fun v => R.Has (.value v) := by
  cases e with
  | none => exact ends_pure (R.plain rfl)
  | some e => exact ends_eval hcall hframe e (he _ (by simp))

end Expr

/-! ## Statements -/

/-- A returned value is in the region. -/
def Flow.In (R : Region) : Flow → Prop
  | .next => True
  | .returned v => R.Has (.value v)

namespace Stmt

theorem has_inner {s t : Stmt} (h : R.Has (.code (.stmt s))) (ht : Node.stmt t ∈ s.children) :
    R.Has (.code (.stmt t)) :=
  R.child h ht

mutual

theorem ends_exec (hcall : call.Ends R d) (rounds : Nat) {frame : Nat}
    (hframe : R.Has (.frame frame)) (s : Stmt) (hs : R.Has (.code (.stmt s))) :
    Ends R d (s.exec call rounds frame) (Flow.In R) := by
  have hexpr {e : Expr} (he : Node.expr e ∈ s.children) :
      Ends R d (e.eval call frame) fun v => R.Has (.value v) :=
    Expr.ends_eval hcall hframe e (R.child hs he)
  cases s with
  | expression e => exact (hexpr (by simp [children])).bind fun _ _ => ends_pure trivial
  | print e =>
    exact (hexpr (by simp [children])).bind fun v _ => (ends_write v.text).bind fun _ _ =>
      ends_pure trivial
  | var name e =>
    refine (Expr.ends_evalOption hcall hframe fun c hc => R.child hs hc).bind fun v hv => ?_
    exact (ends_define frame name.text hv).bind fun _ _ => ends_pure trivial
  | block body =>
    have hbody : ∀ t ∈ body, R.Has (.code (.stmt t)) := fun t ht =>
      has_inner hs (List.mem_map_of_mem ht)
    exact (ends_newFrame hframe).bind fun inner hinner => ends_execAll hcall rounds hinner body hbody
  | ifThen c branch =>
    unfold exec
    refine (hexpr (by simp [children])).bind fun v _ => ends_ite ?_ (ends_pure trivial)
    exact ends_exec hcall rounds hframe branch (has_inner hs (by simp [children]))
  | ifElse c branch otherwise =>
    unfold exec
    refine (hexpr (by simp [children])).bind fun v _ => ends_ite ?_ ?_
    · exact ends_exec hcall rounds hframe branch (has_inner hs (by simp [children]))
    · exact ends_exec hcall rounds hframe otherwise (has_inner hs (by simp [children]))
  | whileLoop => exact absurd hs R.loopFree
  | function name params body =>
    have hbody : ∀ t ∈ body, R.Has (.code (.stmt t)) := fun t ht =>
      has_inner hs (List.mem_map_of_mem ht)
    -- the function that is made is in the region by its number, which is not taken yet
    intro m hm
    have hmade := hm.addFunction (c := ⟨name.text, params, body, frame⟩) hframe hbody
    have hvalue := hm.functions ⟨m.functions.size, name.text, params.length⟩ (Nat.le_refl _)
    exact ((ends_define frame name.text hvalue).bind fun _ _ => ends_pure trivial) _ hmade
  | returnStmt e =>
    exact (Expr.ends_evalOption hcall hframe fun c hc => R.child hs hc).bind fun v hv => ends_pure hv

theorem ends_execAll (hcall : call.Ends R d) (rounds : Nat) {frame : Nat}
    (hframe : R.Has (.frame frame)) (body : List Stmt) (hbody : ∀ s ∈ body, R.Has (.code (.stmt s))) :
    Ends R d (execAll call rounds frame body) (Flow.In R) := by
  cases body with
  | nil => exact ends_pure trivial
  | cons s rest =>
    obtain ⟨hs, hrest⟩ := List.forall_mem_cons.1 hbody
    unfold execAll
    refine (ends_exec hcall rounds hframe s hs).bind fun flow hflow => ?_
    cases flow with
    | next => exact ends_execAll hcall rounds hframe rest hrest
    | returned v => exact ends_pure hflow

end

end Stmt

/-! ## Calls -/

section Calls

variable {host : Host}

theorem ends_defineAll (frame : Nat) (pairs : List (Name × Value))
    (h : ∀ pair ∈ pairs, R.Has (.value pair.2)) :
    Ends R d (defineAll frame pairs) fun _ => True := by
  induction pairs with
  | nil => exact ends_pure trivial
  | cons pair pairs ih =>
    obtain ⟨hpair, hpairs⟩ := List.forall_mem_cons.1 h
    exact (ends_define frame pair.1.text hpair).bind fun _ _ => ih hpairs

theorem Closure.ends_run (hcall : call.Ends R d) (rounds : Nat) (c : Closure) (args : List Value)
    (hscope : R.Has (.frame c.frame)) (hbody : ∀ s ∈ c.body, R.Has (.code (.stmt s)))
    (hargs : ∀ v ∈ args, R.Has (.value v)) :
    Ends R d (c.run call rounds args) fun v => R.Has (.value v) := by
  have henter : Ends R d (c.enter args) fun frame => R.Has (.frame frame) :=
    (ends_newFrame hscope).bind fun frame hframe =>
      (ends_defineAll frame _ fun pair hpair => hargs _ (List.of_mem_zip hpair).2).bind fun _ _ =>
        ends_pure hframe
  refine henter.bind fun frame hframe => ?_
  refine (Stmt.ends_execAll hcall rounds hframe c.body hbody).bind fun flow hflow => ?_
  cases flow with
  | next => exact ends_pure (R.plain rfl)
  | returned v => exact ends_pure hflow

/-- A call that passes its checks takes one of the calls that the limit leaves. -/
theorem ends_checkCall (callee : Value) (count : Nat) (site : Location) :
    Ends R d (checkCall host callee count site) fun g =>
      callee.asCallable = .ok g ∧ d < host.maxDepth := by
  intro m hm
  cases hcallable : callee.asCallable with
  | error mismatch =>
    unfold checkCall
    rw [hcallable]
    exact .error _ _
  | ok g =>
    rw [checkCall_eq hcallable]
    split
    · exact .error _ _
    · split
      · exact .error _ _
      · next hdepth =>
        rw [hm.depth] at hdepth
        exact .ok hm ⟨rfl, Nat.lt_of_not_le hdepth⟩

/-- Calls end if there is more fuel than calls that the limit leaves. -/
theorem ends_callWithin {fuel : Nat} (hfuel : host.maxDepth - d < fuel) :
    (callWithin host fuel).Ends R d := by
  -- each call takes one unit of fuel and one of the calls that are left
  induction fuel generalizing d with
  | zero => exact absurd hfuel (Nat.not_lt_zero _)
  | succ fuel ih =>
    intro callee args site hcallee hargs
    unfold callWithin
    refine (ends_checkCall callee args.length site).bind fun g hg => Ends.withCall ?_ _
    obtain ⟨hcallable, hroom⟩ := hg
    have hinner : host.maxDepth - (d + 1) < fuel := by omega
    cases callee with
    | native => exact absurd hcallee R.nativeFree
    | function f =>
      cases hcallable
      dsimp only
      intro m hm
      rw [Run.bind_of_ok (x := get) rfl]
      cases hc : m.functions[g.id]? with
      | none => exact .ok hm (R.plain rfl)
      | some c =>
        exact c.ends_run (ih hinner) fuel args (hm.scope hcallee hc) (hm.body hcallee hc) hargs m hm
    | _ => cases hcallable

/-- So do programs. -/
theorem Program.ends_exec {fuel : Nat} (hfuel : host.maxDepth - d < fuel) {p : Program}
    (hp : ∀ s ∈ p, R.Has (.code (.stmt s))) : Ends R d (Program.exec host fuel p) fun _ => True := by
  induction p with
  | nil => exact ends_pure trivial
  | cons s rest ih =>
    obtain ⟨hs, hrest⟩ := List.forall_mem_cons.1 hp
    exact (Stmt.ends_exec (ends_callWithin hfuel) fuel R.global s hs).bind fun _ _ => ih hrest

end Calls

/-! ## Sessions -/

namespace Machine

variable {m : Machine} {p : Program}

/-- What a run can get at, and what it may make. -/
def region (hloops : ∀ c body loc, ¬m.Accessible p (.code (.stmt (.whileLoop c body loc))))
    (hnatives : ∀ f, ¬m.Accessible p (.value (.native f))) : Region where
  Has
    | .frame f => m.Accessible p (.frame f) ∨ m.frames.size ≤ f
    | .value (.function f) => m.Accessible p (.value (.function f)) ∨ m.functions.size ≤ f.id
    | .value v => m.Accessible p (.value v) ∨ v.isCallable = false
    | .code n => m.Accessible p (.code n)
  global := .inl .global
  plain {v} hv := by
    cases v with
    | function => cases hv
    | _ => exact .inr hv
  child := .child
  literal {v loc} h := by
    have hv := Accessible.literal h
    cases v <;> exact .inl hv
  loopFree := hloops _ _ _
  nativeFree {f} h := h.elim (hnatives f) nofun

/-- A machine does not lead out of what is accessible on it. -/
theorem within_region (hloops : ∀ c body loc, ¬m.Accessible p (.code (.stmt (.whileLoop c body loc))))
    (hnatives : ∀ f, ¬m.Accessible p (.value (.native f))) :
    m.Within (region hloops hnatives) m.depth where
  depth := rfl
  frames _ := .inr
  functions _ := .inr
  parent {f g} hf hg := by
    rcases hf with hf | hnew
    · exact .inl (hf.parent hg)
    · rw [Frames.parent?, Array.getElem?_eq_none hnew] at hg
      cases hg
  binding {f x v} hf hv := by
    rcases hf with hf | hnew
    · have hvalue := hf.binding hv
      cases v <;> exact .inl hvalue
    · rw [Frames.getLocal_eq_none hnew] at hv
      cases hv
  scope {f c} hf hc := by
    rcases hf with hf | hnew
    · exact .inl (hf.scope hc)
    · rw [Array.getElem?_eq_none hnew] at hc
      cases hc
  body {f c} hf hc s hs := by
    rcases hf with hf | hnew
    · exact hf.body hc hs
    · rw [Array.getElem?_eq_none hnew] at hc
      cases hc

end Machine

/-- **A script without loops ends.** Whatever the state that a program is run on and however the
functions there call one another: if no loop is accessible, in the program or in a function, and no
native function, then the run ends, with success or in an error. The fuel that it takes is no more
than one for each call that the limit leaves. -/
theorem Session.interpret_ends {s : Session} {p : Program}
    (hloops : ∀ c body loc, ¬s.machine.Accessible p (.code (.stmt (.whileLoop c body loc))))
    (hnatives : ∀ f, ¬s.machine.Accessible p (.value (.native f))) {fuel : Nat}
    (hfuel : s.options.maxDepth - s.machine.depth < fuel) :
    ∃ result s', s.interpret fuel p = some (result, s') := by
  have hends : Run.Ends (Machine.region hloops hnatives) s.machine.depth
      (Program.exec s.host fuel p) fun _ => True :=
    Program.ends_exec hfuel fun t ht => .statement ht
  have hend := hends s.machine (Machine.within_region hloops hnatives)
  rw [interpret_eq]
  revert hend
  generalize Program.exec s.host fuel p s.machine = r
  rintro (⟨_, _⟩ | ⟨e, m⟩)
  · exact ⟨none, _, rfl⟩
  · exact ⟨some e, _, rfl⟩

namespace Session

/-- The statement `f();`. -/
def callStatement : Stmt :=
  .expression (.call (.reference ⟨utf8 "f", .nowhere⟩ none) [] .nowhere) .nowhere

/-- A session after `fun f() { f(); }`, where three calls may be under way. -/
def selfCalling : Session :=
  ⟨⟨3, true⟩, fun _ => .zero,
    ⟨#[⟨none, [(utf8 "f", .function ⟨0, utf8 "f", 0⟩)]⟩],
      #[⟨utf8 "f", [], [callStatement], Machine.globalFrame⟩], #[], [], #[], 0⟩⟩

/-- What `f();` gets at in the session: one frame, one function and its body. -/
theorem accessible_selfCalling {i : Item} (h : selfCalling.machine.Accessible [callStatement] i) :
    match i with
    | .frame f => f = 0
    | .value v => v = .function ⟨0, utf8 "f", 0⟩
    | .code n => n = .stmt callStatement ∨
      n = .expr (.call (.reference ⟨utf8 "f", .nowhere⟩ none) [] .nowhere) ∨
      n = .expr (.reference ⟨utf8 "f", .nowhere⟩ none) := by
  induction h with
  | statement hs => exact .inl (congrArg Node.stmt (List.mem_singleton.1 hs))
  | child _ hc ih =>
    rcases ih with rfl | rfl | rfl
    · exact .inr (.inl (List.mem_singleton.1 hc))
    · exact .inr (.inr (List.mem_singleton.1 hc))
    · cases hc
  | literal _ ih => rcases ih with h | h | h <;> cases h
  | global => rfl
  | @parent f g _ hg ih =>
    obtain rfl : f = 0 := ih
    cases hg
  | @binding f x v _ hv ih =>
    obtain rfl : f = 0 := ih
    have hlookup : List.lookup x [(utf8 "f", Value.function ⟨0, utf8 "f", 0⟩)] = some v := hv
    rw [List.lookup_cons] at hlookup
    split at hlookup
    · exact (Option.some.inj hlookup).symm
    · cases hlookup
  | @scope f c _ hc ih =>
    rw [Value.function.inj ih] at hc
    cases hc
    rfl
  | @body f c s _ hc hs ih =>
    rw [Value.function.inj ih] at hc
    cases hc
    exact .inl (congrArg Node.stmt (List.mem_singleton.1 hs))

/-- A function that calls itself is stopped by the limit. -/
theorem interpret_ends_selfCalling :
    (∀ c body loc, ¬selfCalling.machine.Accessible [callStatement]
      (.code (.stmt (.whileLoop c body loc)))) ∧
    (∀ f, ¬selfCalling.machine.Accessible [callStatement] (.value (.native f))) ∧
    selfCalling.options.maxDepth - selfCalling.machine.depth < 4 ∧
      ∃ result s', selfCalling.interpret 4 [callStatement] = some (result, s') := by
  have hloops : ∀ c body loc, ¬selfCalling.machine.Accessible [callStatement]
      (.code (.stmt (.whileLoop c body loc))) := by
    intro c body loc h
    rcases accessible_selfCalling h with h | h | h <;> cases h
  have hnatives : ∀ f, ¬selfCalling.machine.Accessible [callStatement] (.value (.native f)) := by
    intro f h
    cases accessible_selfCalling h
  have hfuel : selfCalling.options.maxDepth - selfCalling.machine.depth < 4 := by decide
  exact ⟨hloops, hnatives, hfuel, interpret_ends hloops hnatives hfuel⟩

end Session

end Lox
