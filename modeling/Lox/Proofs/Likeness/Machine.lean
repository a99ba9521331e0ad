import Lox.Proofs.Likeness.Program
import Lox.Proofs.Run.Scoped
import Lox.Session

/-!
# Machines alike

Two machines on which programs alike run number their frames and functions independently. A `Link`
says which frames and which functions correspond, and `Machine.Alike` that corresponding ones hold
corresponding contents: the same names, bound to values that print alike and compare alike. New
frames and functions extend the link (`Machine.Alike.addChild`, `Machine.Alike.addFunction`).
-/

namespace Lox

/-! ## Related options -/

section Options

variable {α β γ δ : Type} {r : α → β → Prop} {a : Option α} {b : Option β}

theorem optionRel_imp {r' : α → β → Prop} (h : Option.Rel r a b) (hr : ∀ a b, r a b → r' a b) :
    Option.Rel r' a b := by
  cases h with
  | none => exact .none
  | some h => exact .some (hr _ _ h)

theorem optionRel_refl {r : α → α → Prop} {a : Option α} (h : ∀ x ∈ a, r x x) :
    Option.Rel r a a := by
  cases a with
  | none => exact .none
  | some x => exact .some (h x rfl)

theorem optionRel_isSome (h : Option.Rel r a b) : a.isSome = b.isSome := by
  cases h <;> rfl

theorem optionRel_bind {q : γ → δ → Prop} {f : α → Option γ} {g : β → Option δ}
    (h : Option.Rel r a b) (hf : ∀ a b, r a b → Option.Rel q (f a) (g b)) :
    Option.Rel q (a.bind f) (b.bind g) := by
  cases h with
  | none => exact .none
  | some h => exact hf _ _ h

theorem optionRel_map {q : γ → δ → Prop} {f : α → γ} {g : β → δ} (h : Option.Rel r a b)
    (hf : ∀ a b, r a b → q (f a) (g b)) : Option.Rel q (a.map f) (b.map g) := by
  cases h with
  | none => exact .none
  | some h => exact .some (hf _ _ h)

theorem optionRel_filter {p : α → Bool} {q : β → Bool} (h : Option.Rel r a b)
    (hp : ∀ a b, r a b → p a = q b) : Option.Rel r (a.filter p) (b.filter q) := by
  cases h with
  | none => exact .none
  | @some a b hab =>
    rw [Option.filter_some, Option.filter_some, hp a b hab]
    split
    · exact .some hab
    · exact .none

end Options

/-! ## Numberings -/

/-- A correspondence between two numberings, one to one; `n` and `n'` are the first numbers that are
not in use, and numbers in use do not correspond to numbers that are not. -/
structure Numbering (r : Nat → Nat → Prop) (n n' : Nat) : Prop where
  unique : ∀ {i i' j j'}, r i i' → r j j' → (i = j ↔ i' = j')
  aligned : ∀ {i i'}, r i i' → i < n ∧ i' < n' ∨ n ≤ i ∧ i + n' = i' + n

namespace Numbering

variable {r : Nat → Nat → Prop} {n n' i i' : Nat}

theorem lt_iff (h : Numbering r n n') (hi : r i i') : i < n ↔ i' < n' := by
  have := h.aligned hi
  omega

theorem eq_iff (h : Numbering r n n') (hi : r i i') : i = n ↔ i' = n' := by
  have := h.aligned hi
  omega

/-- The correspondence with one more pair. -/
def add (r : Nat → Nat → Prop) (n n' : Nat) (i i' : Nat) : Prop := r i i' ∨ i = n ∧ i' = n'

/-- The first numbers not in use may be taken into use together. -/
theorem addNext (h : Numbering r n n') : Numbering (add r n n') (n + 1) (n' + 1) where
  unique := by
    rintro i i' j j' (hi | ⟨rfl, rfl⟩) (hj | ⟨rfl, rfl⟩)
    · exact h.unique hi hj
    · exact h.eq_iff hi
    · rw [eq_comm, h.eq_iff hj, eq_comm]
    · exact ⟨fun _ => rfl, fun _ => rfl⟩
  aligned := by
    rintro i i' (hi | ⟨rfl, rfl⟩)
    · have := h.aligned hi
      omega
    · omega

/-- What corresponding numbers stand for stays related with one more pair. -/
theorem optionRel_push {α β : Type} {R : α → β → Prop} {as : Array α} {bs : Array β}
    (h : Numbering r as.size bs.size) (hR : ∀ {i i'}, r i i' → Option.Rel R as[i]? bs[i']?) {a : α}
    {b : β} (hab : R a b) (hi : add r as.size bs.size i i') :
    Option.Rel R (as.push a)[i]? (bs.push b)[i']? := by
  rw [Array.getElem?_push, Array.getElem?_push]
  rcases hi with hi | ⟨rfl, rfl⟩
  · by_cases hnew : i = as.size
    · rw [if_pos hnew, if_pos ((h.eq_iff hi).1 hnew)]
      exact .some hab
    · rw [if_neg hnew, if_neg ((h.eq_iff hi).not.1 hnew)]
      exact hR hi
  · rw [if_pos rfl, if_pos rfl]
    exact .some hab

/-- Equal numbers correspond. -/
theorem refl (n : Nat) : Numbering Eq n n where
  unique := by
    rintro i _ j _ rfl rfl
    rfl
  aligned := by
    rintro i _ rfl
    omega

end Numbering

/-- Which frames and which functions of two machines correspond. -/
structure Link where
  frames : Nat → Nat → Prop
  functions : Nat → Nat → Prop

/-- The second link has all the pairs of the first. -/
structure Link.Extends (l l₁ : Link) : Prop where
  frames : ∀ {f f'}, l.frames f f' → l₁.frames f f'
  functions : ∀ {i i'}, l.functions i i' → l₁.functions i i'

namespace Link

theorem Extends.refl (l : Link) : l.Extends l := ⟨id, id⟩

theorem Extends.trans {l l₁ l₂ : Link} (h : l.Extends l₁) (h' : l₁.Extends l₂) : l.Extends l₂ :=
  ⟨fun hf => h'.frames (h.frames hf), fun hi => h'.functions (h.functions hi)⟩

/-- Frames and functions correspond to themselves. -/
def same : Link := ⟨Eq, Eq⟩

/-- The link with one more pair of frames. -/
def addFrame (l : Link) (f f' : Nat) : Link := { l with frames := Numbering.add l.frames f f' }

/-- The link with one more pair of functions. -/
def addFunction (l : Link) (i i' : Nat) : Link :=
  { l with functions := Numbering.add l.functions i i' }

theorem extends_addFrame (l : Link) (f f' : Nat) : l.Extends (l.addFrame f f') := ⟨.inl, id⟩

theorem extends_addFunction (l : Link) (i i' : Nat) : l.Extends (l.addFunction i i') := ⟨id, .inl⟩

end Link

/-! ## Values -/

/-- Values that differ at most in the identity of functions. -/
inductive Value.Alike (l : Link) : Value → Value → Prop
  | nil : Alike l .nil .nil
  | bool (b : Bool) : Alike l (.bool b) (.bool b)
  | number (x : Number) : Alike l (.number x) (.number x)
  | string (s : Text) : Alike l (.string s) (.string s)
  | function {i i' : Nat} (name : Text) (arity : Nat) :
    l.functions i i' → Alike l (.function ⟨i, name, arity⟩) (.function ⟨i', name, arity⟩)
  | native (f : Callable) : Alike l (.native f) (.native f)

/-- Values one by one. -/
abbrev Values.Alike (l : Link) : List Value → List Value → Prop := List.Forall₂ (Value.Alike l)

namespace Value.Alike

variable {l l₁ : Link} {v v' w w' : Value}

theorem mono (h : v.Alike l v') (hl : l.Extends l₁) : v.Alike l₁ v' := by
  cases h with
  | nil => exact .nil
  | bool b => exact .bool b
  | number x => exact .number x
  | string s => exact .string s
  | function name arity hi => exact .function name arity (hl.functions hi)
  | native f => exact .native f

theorem truthy (h : v.Alike l v') : v.truthy = v'.truthy := by
  cases h <;> rfl

theorem text (h : v.Alike l v') : v.text = v'.text := by
  cases h <;> rfl

theorem equal {n n' : Nat} (hn : Numbering l.functions n n') (hv : v.Alike l v')
    (hw : w.Alike l w') : v.equal w = v'.equal w' := by
  cases hv with
  | function name arity hi =>
    cases hw with
    | function name' arity' hj =>
      simp only [Value.equal, beq_eq_beq]
      exact hn.unique hi hj
    | _ => rfl
  | _ => cases hw <;> rfl

/-- Only functions are told apart by their identity. -/
theorem self {v : Value} (hv : v.isCallable = false) : v.Alike l v := by
  cases v with
  | nil => exact .nil
  | bool b => exact .bool b
  | number x => exact .number x
  | string s => exact .string s
  | function | native => cases hv

end Value.Alike

/-! ## Operators -/

namespace Operator

variable {L : Placing} {l : Link} {op op' : Operator} {v v' w w' : Value}

theorem Alike.unaryValue (hop : op.Alike L op') (hv : v.Alike l v') :
    op.unaryValue v = op'.unaryValue v' := by
  simp only [Operator.unaryValue, hop.kind, hop.lexeme]
  cases hv with
  | function name arity hi =>
    generalize op'.kind = kind
    cases kind <;> rfl
  | _ => rfl

theorem isCallable_unaryValue {r : Value} (h : op.unaryValue v = .ok r) : r.isCallable = false := by
  unfold unaryValue at h
  split at h <;> cases h <;> rfl

theorem plus_eq (hv : v.Alike l v') (hw : w.Alike l w') : plus v w = plus v' w' := by
  cases hv <;> cases hw <;> rfl

theorem onNumbers_eq (f : Number → Number → Value) (hv : v.Alike l v') (hw : w.Alike l w') :
    onNumbers f v w = onNumbers f v' w' := by
  cases hv <;> cases hw <;> rfl

theorem Alike.binaryValue (hop : op.Alike L op') {n n' : Nat} (hn : Numbering l.functions n n')
    (hv : v.Alike l v') (hw : w.Alike l w') : op.binaryValue v w = op'.binaryValue v' w' := by
  simp only [Operator.binaryValue, hop.kind, hop.lexeme, plus_eq hv hw, onNumbers_eq _ hv hw,
    hv.equal hn hw]

theorem isCallable_onNumbers {f : Number → Number → Value} {r : Value}
    (hf : ∀ x y, (f x y).isCallable = false) (h : onNumbers f v w = .ok r) :
    r.isCallable = false := by
  unfold onNumbers at h
  split at h
  · cases h
    exact hf _ _
  · cases h

theorem isCallable_binaryValue {r : Value} (h : op.binaryValue v w = .ok r) :
    r.isCallable = false := by
  unfold binaryValue at h
  split at h
  · unfold plus at h
    split at h <;> cases h <;> rfl
  all_goals first | exact isCallable_onNumbers (fun _ _ => rfl) h | cases h
  all_goals rfl

theorem Alike.decides (hop : op.Alike L op') (b : Bool) : op.decides b = op'.decides b := by
  simp only [Operator.decides, hop.kind]

end Operator

/-! ## Machines -/

/-- Closures of functions that are alike, declared in frames that correspond. -/
structure Closure.Alike (l : Link) (c c' : Closure) : Prop where
  name : c.name = c'.name
  parameters : List.Forall₂ (Name.Alike anywhere) c.parameters c'.parameters
  body : List.Forall₂ (Stmt.Alike anywhere) c.body c'.body
  frame : l.frames c.frame c'.frame

theorem Closure.Alike.mono {l l₁ : Link} {c c' : Closure} (h : c.Alike l c') (hl : l.Extends l₁) :
    c.Alike l₁ c' :=
  ⟨h.name, h.parameters, h.body, hl.frames h.frame⟩

/-- Frames that correspond bind the same names to values alike, and their parents correspond. -/
structure Frames.Alike (l : Link) (fs fs' : Frames) : Prop where
  numbering : Numbering l.frames fs.size fs'.size
  parents : ∀ {f f'}, l.frames f f' → Option.Rel l.frames (fs.parent? f) (fs'.parent? f')
  values : ∀ {f f'}, l.frames f f' → ∀ x,
    Option.Rel (Value.Alike l) (fs.getLocal f x) (fs'.getLocal f' x)

/-- Machines whose frames and functions correspond and that are in the midst of calls of the same
names. Their native functions are the same; there are none but `clock`, and then the readings of the
clock agree from here on. What the machines have written does not matter. -/
structure Machine.Alike (host host' : Host) (l : Link) (m m' : Machine) : Prop where
  global : l.frames Machine.globalFrame Machine.globalFrame
  frames : m.frames.Alike l m'.frames
  functions : Numbering l.functions m.functions.size m'.functions.size
  closures : ∀ {i i'}, l.functions i i' →
    Option.Rel (Closure.Alike l) m.functions[i]? m'.functions[i']?
  calls : m.calls.map CallFrame.callee = m'.calls.map CallFrame.callee
  natives : m.natives = m'.natives
  clock : ∀ native ∈ m.natives, native = Session.clockFunction ∧
    ∀ k, host.clock (m.readings + k) = host'.clock (m'.readings + k)

/-! ### A machine is like itself -/

theorem Value.Alike.refl (v : Value) : v.Alike .same v := by
  cases v with
  | nil => exact .nil
  | bool b => exact .bool b
  | number x => exact .number x
  | string s => exact .string s
  | function f => exact .function f.name f.arity rfl
  | native f => exact .native f

/-- A machine whose functions come from programs that are like themselves, and without native
functions but `clock`. -/
theorem Machine.Alike.refl {m : Machine} (host : Host)
    (hbodies : ∀ c ∈ m.functions, List.Forall₂ (Stmt.Alike anywhere) c.body c.body)
    (hnatives : ∀ native ∈ m.natives, native = Session.clockFunction) :
    m.Alike host host .same m where
  global := rfl
  frames :=
    { numbering := .refl m.frames.size
      parents := by
        rintro f _ rfl
        exact optionRel_refl fun _ _ => rfl
      values := by
        rintro f _ rfl x
        exact optionRel_refl fun v _ => .refl v }
  functions := .refl m.functions.size
  closures := by
    rintro i _ rfl
    refine optionRel_refl fun c hc => ⟨rfl, ?_, hbodies c (Array.mem_of_getElem? hc), rfl⟩
    exact List.forall₂_same.2 fun name _ => ⟨rfl, trivial⟩
  calls := rfl
  natives := rfl
  clock native h := ⟨hnatives native h, fun _ => rfl⟩

/-! ### Frames -/

namespace Frames

variable {l l₁ : Link} {fs fs' : Frames} {f f' : Nat}

theorem Alike.hasLocal (h : fs.Alike l fs') (hf : l.frames f f') (x : Text) :
    fs.hasLocal f x = fs'.hasLocal f' x :=
  optionRel_isSome (h.values hf x)

theorem Alike.ancestor? (h : fs.Alike l fs') (hf : l.frames f f') (d : Nat) :
    Option.Rel l.frames (fs.ancestor? f d) (fs'.ancestor? f' d) := by
  induction d generalizing f f' with
  | zero => exact .some hf
  | succ d ih => exact optionRel_bind (h.parents hf) fun _ _ hparent => ih hparent

theorem Alike.getAt (h : fs.Alike l fs') (hf : l.frames f f') (d : Nat) (x : Text) :
    Option.Rel (Value.Alike l) (fs.getAt f d x) (fs'.getAt f' d x) :=
  optionRel_bind (h.ancestor? hf d) fun _ _ htarget => h.values htarget x

theorem Alike.binder? (h : fs.Alike l fs') (hf : l.frames f f') (d : Nat) (x : Text) :
    Option.Rel l.frames (fs.binder? f d x) (fs'.binder? f' d x) :=
  optionRel_filter (h.ancestor? hf d) fun _ _ htarget => h.hasLocal htarget x

theorem Alike.define (h : fs.Alike l fs') (hf : l.frames f f') (x : Text) {v v' : Value}
    (hv : v.Alike l v') : (fs.define f x v).Alike l (fs'.define f' x v') where
  numbering := by
    rw [size_define, size_define]
    exact h.numbering
  parents hg := by
    rw [parent?_define, parent?_define]
    exact h.parents hg
  values {g g'} hg y := by
    rw [getLocal_define, getLocal_define]
    have hbound : (g = f ∧ y = x ∧ f < fs.size) ↔ (g' = f' ∧ y = x ∧ f' < fs'.size) :=
      and_congr (h.numbering.unique hg hf) (and_congr_right' (h.numbering.lt_iff hf))
    by_cases hy : g = f ∧ y = x ∧ f < fs.size
    · rw [if_pos hy, if_pos (hbound.1 hy)]
      exact .some hv
    · rw [if_neg hy, if_neg (hbound.not.1 hy)]
      exact h.values hg y

theorem getLocal_eq_none {x : Text} (h : fs.size ≤ f) : fs.getLocal f x = none := by
  rw [getLocal, Array.getElem?_eq_none h]
  rfl

theorem Alike.addChild (h : fs.Alike l fs') (hf : l.frames f f') :
    (fs.addChild f).Alike (l.addFrame fs.size fs'.size) (fs'.addChild f') where
  numbering := by
    rw [size_addChild, size_addChild]
    exact h.numbering.addNext
  parents {g g'} hg := by
    rw [parent?_addChild, parent?_addChild]
    have hnew : g = fs.size ↔ g' = fs'.size := by
      rcases hg with hg | ⟨rfl, rfl⟩
      · exact h.numbering.eq_iff hg
      · exact ⟨fun _ => rfl, fun _ => rfl⟩
    by_cases hg' : g = fs.size
    · rw [if_pos hg', if_pos (hnew.1 hg')]
      exact .some (.inl hf)
    · rw [if_neg hg', if_neg (hnew.not.1 hg')]
      rcases hg with hg | ⟨rfl, _⟩
      · exact optionRel_imp (h.parents hg) fun _ _ => .inl
      · exact absurd rfl hg'
  values {g g'} hg y := by
    rw [getLocal_addChild, getLocal_addChild]
    rcases hg with hg | ⟨rfl, rfl⟩
    · exact optionRel_imp (h.values hg y) fun _ _ hv => hv.mono (l.extends_addFrame _ _)
    · rw [getLocal_eq_none (Nat.le_refl _), getLocal_eq_none (Nat.le_refl _)]
      exact .none

end Frames

theorem Frames.Alike.mono {l l₁ : Link} {fs fs' : Frames} (h : fs.Alike l fs')
    (hframes : l₁.frames = l.frames) (hl : l.Extends l₁) : fs.Alike l₁ fs' where
  numbering := hframes ▸ h.numbering
  parents hf := by
    rw [hframes] at hf ⊢
    exact h.parents hf
  values hf x := by
    rw [hframes] at hf
    exact optionRel_imp (h.values hf x) fun _ _ hv => hv.mono hl

/-! ### What runs do to machines -/

namespace Machine

variable {host host' : Host} {l : Link} {m m' : Machine} {f f' : Nat}

theorem Alike.define (h : m.Alike host host' l m') (hf : l.frames f f') (x : Text) {v v' : Value}
    (hv : v.Alike l v') :
    Alike host host' l { m with frames := m.frames.define f x v }
      { m' with frames := m'.frames.define f' x v' } :=
  { h with frames := h.frames.define hf x hv }

theorem Alike.addChild (h : m.Alike host host' l m') (hf : l.frames f f') :
    Alike host host' (l.addFrame m.frames.size m'.frames.size)
      { m with frames := m.frames.addChild f } { m' with frames := m'.frames.addChild f' } :=
  { h with
    global := .inl h.global
    frames := h.frames.addChild hf
    closures := fun hi => optionRel_imp (h.closures hi) fun _ _ hc =>
      hc.mono (l.extends_addFrame _ _) }

theorem Alike.addFunction (h : m.Alike host host' l m') {c c' : Closure} (hc : c.Alike l c') :
    Alike host host' (l.addFunction m.functions.size m'.functions.size) (m.addFunction c).2
        (m'.addFunction c').2 ∧
      (m.addFunction c).1.Alike (l.addFunction m.functions.size m'.functions.size)
        (m'.addFunction c').1 := by
  have hl := l.extends_addFunction m.functions.size m'.functions.size
  refine ⟨{ h with
    frames := h.frames.mono rfl hl
    functions := ?_
    closures := fun hi => ?_ }, ?_⟩
  · show Numbering _ (m.functions.push c).size (m'.functions.push c').size
    rw [Array.size_push, Array.size_push]
    exact h.functions.addNext
  · exact h.functions.optionRel_push
      (fun hi => optionRel_imp (h.closures hi) fun _ _ hc => hc.mono hl) (hc.mono hl) hi
  · show Value.Alike _ (.function ⟨_, c.name, c.parameters.length⟩)
      (.function ⟨_, c'.name, c'.parameters.length⟩)
    rw [hc.name, hc.parameters.length_eq]
    exact .function _ _ (.inr ⟨rfl, rfl⟩)

theorem Alike.setCalls (h : m.Alike host host' l m') {calls calls' : List CallFrame}
    (hcalls : calls.map CallFrame.callee = calls'.map CallFrame.callee) :
    Alike host host' l { m with calls := calls } { m' with calls := calls' } :=
  { h with calls := hcalls }

end Machine

end Lox
