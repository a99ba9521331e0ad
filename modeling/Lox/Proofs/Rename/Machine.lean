import Lox.Proofs.Rename.Program
import Lox.Proofs.Likeness.Machine
import Lox.Proofs.Run.Raise

/-!
# Machines of renamed programs

A program and its renamed form make the same frames, functions and values, numbered in the same way. All
that differs is the names that frames of marked scopes bind, and the bodies of functions. A `Shape` knows
which scopes are marked around the frames of running code, and `Machine.Renamed` says that frames which
it knows bind exchanged names. So a name is found in one machine where its exchanged form is found in the
other one (`Machine.Renamed.value?`, `Machine.Renamed.binder?`).
-/

namespace Lox

/-! ## Bindings with other names -/

/-- The bindings with other names. -/
def Bindings.mapNames (f : Text → Text) (bs : Bindings) : Bindings := bs.map (Prod.map f id)

/-- The frame with other names. -/
def Frame.mapNames (f : Text → Text) (frame : Frame) : Frame :=
  ⟨frame.parent, Bindings.mapNames f frame.bindings⟩

namespace Bindings

variable (σ : Equiv.Perm Text)

theorem lookup_mapNames (bs : Bindings) (x : Text) :
    (mapNames σ bs).lookup (σ x) = bs.lookup x := by
  induction bs with
  | nil => rfl
  | cons b bs ih =>
    show List.lookup (σ x) ((σ b.1, b.2) :: mapNames σ bs) = _
    rw [List.lookup_cons, List.lookup_cons, σ.injective.beq_eq, ih]

theorem set_mapNames (x : Text) (v : Value) (bs : Bindings) :
    set (σ x) v (mapNames σ bs) = mapNames σ (set x v bs) := by
  induction bs with
  | nil => rfl
  | cons b bs ih =>
    show set (σ x) v ((σ b.1, b.2) :: mapNames σ bs) = _
    rw [set, set, σ.injective.beq_eq, ih]
    split <;> rfl

end Bindings

/-! ## Shapes -/

/-- For some frames, which of the scopes are marked that lead from a frame's own one to the outermost. -/
abbrev Shape := Nat → Option Marks

namespace Shape

/-- The second shape knows all that the first one knows. -/
def Extends (shape shape₁ : Shape) : Prop :=
  ∀ ⦃f marks⦄, shape f = some marks → shape₁ f = some marks

/-- The shape with one more frame. -/
def add (shape : Shape) (f : Nat) (marks : Marks) : Shape := Function.update shape f (some marks)

theorem Extends.refl (shape : Shape) : shape.Extends shape := fun _ _ hf => hf

theorem Extends.trans {shape shape₁ shape₂ : Shape} (h : shape.Extends shape₁)
    (h' : shape₁.Extends shape₂) : shape.Extends shape₂ := fun _ _ hf => h' (h hf)

theorem extends_add {shape : Shape} {f : Nat} (h : shape f = none) (marks : Marks) :
    shape.Extends (shape.add f marks) := by
  intro g marks' hg
  have hne : g ≠ f := by
    rintro rfl
    rw [h] at hg
    cases hg
  rwa [add, Function.update_of_ne hne]

theorem add_self (shape : Shape) (f : Nat) (marks : Marks) : shape.add f marks f = some marks :=
  Function.update_self f _ shape

theorem of_add {shape : Shape} {f g : Nat} {marks marks' : Marks} (hne : g ≠ f)
    (h : shape.add f marks g = some marks') : shape g = some marks' := by
  rwa [add, Function.update_of_ne hne] at h

end Shape

/-! ## Frames -/

/-- The frames that the shape knows bind exchanged names where their scopes are marked, and lead to frames
that it knows. -/
structure Frames.Renamed (σ : Equiv.Perm Text) (shape : Shape) (fs fs' : Frames) : Prop where
  size : fs'.size = fs.size
  frames : ∀ {f marks}, shape f = some marks →
    ∃ frame, fs[f]? = some frame ∧ fs'[f]? = some (frame.mapNames (exchangeIf σ (marks 0)))
  parents : ∀ {f marks parent}, shape f = some marks → fs.parent? f = some parent →
    shape parent = some marks.leave

namespace Frames

variable {σ : Equiv.Perm Text} {shape : Shape} {fs fs' : Frames} {f : Nat} {marks : Marks}

theorem Renamed.lt_size (h : fs.Renamed σ shape fs') (hf : shape f = some marks) : f < fs.size := by
  obtain ⟨frame, hframe, -⟩ := h.frames hf
  exact (Array.getElem?_eq_some_iff.1 hframe).1

/-- No shape knows a frame that is not there yet. -/
theorem Renamed.shape_size (h : fs.Renamed σ shape fs') : shape fs.size = none := by
  cases hs : shape fs.size with
  | none => rfl
  | some marks => exact absurd (h.lt_size hs) (Nat.lt_irrefl _)

theorem Renamed.parent? (h : fs.Renamed σ shape fs') (hf : shape f = some marks) :
    fs'.parent? f = fs.parent? f := by
  obtain ⟨frame, hframe, hframe'⟩ := h.frames hf
  rw [Frames.parent?, Frames.parent?, hframe, hframe']
  rfl

theorem Renamed.getLocal (h : fs.Renamed σ shape fs') (hf : shape f = some marks) (x : Text) :
    fs'.getLocal f (exchangeIf σ (marks 0) x) = fs.getLocal f x := by
  obtain ⟨frame, hframe, hframe'⟩ := h.frames hf
  rw [Frames.getLocal, Frames.getLocal, hframe, hframe']
  exact Bindings.lookup_mapNames _ frame.bindings x

theorem Renamed.ancestor? (h : fs.Renamed σ shape fs') (hf : shape f = some marks) (d : Nat) :
    fs'.ancestor? f d = fs.ancestor? f d := by
  induction d generalizing f marks with
  | zero => rfl
  | succ d ih =>
    rw [Frames.ancestor?, Frames.ancestor?, h.parent? hf]
    cases hparent : fs.parent? f with
    | none => rfl
    | some parent => exact ih (h.parents hf hparent)

/-- The mark of an ancestor is the one at its distance. -/
theorem Renamed.shape_ancestor? (h : fs.Renamed σ shape fs') (hf : shape f = some marks) {d target : Nat}
    (ht : fs.ancestor? f d = some target) :
    ∃ marks', shape target = some marks' ∧ marks' 0 = marks d := by
  induction d generalizing f marks with
  | zero =>
    cases ht
    exact ⟨marks, hf, rfl⟩
  | succ d ih =>
    obtain ⟨parent, hparent, ht⟩ := Option.bind_eq_some_iff.1 ht
    exact ih (h.parents hf hparent) ht

theorem Renamed.getAt (h : fs.Renamed σ shape fs') (hf : shape f = some marks) (d : Nat) (x : Text) :
    fs'.getAt f d (exchangeIf σ (marks d) x) = fs.getAt f d x := by
  rw [Frames.getAt, Frames.getAt, h.ancestor? hf]
  cases ht : fs.ancestor? f d with
  | none => rfl
  | some target =>
    obtain ⟨marks', htarget, hmark⟩ := h.shape_ancestor? hf ht
    rw [← hmark]
    exact h.getLocal htarget x

theorem Renamed.binder? (h : fs.Renamed σ shape fs') (hf : shape f = some marks) (d : Nat) (x : Text) :
    fs'.binder? f d (exchangeIf σ (marks d) x) = fs.binder? f d x := by
  rw [Frames.binder?, Frames.binder?, h.ancestor? hf]
  cases ht : fs.ancestor? f d with
  | none => rfl
  | some target =>
    obtain ⟨marks', htarget, hmark⟩ := h.shape_ancestor? hf ht
    rw [Option.filter_some, Option.filter_some, hasLocal, hasLocal, ← hmark, h.getLocal htarget x]

theorem ancestor?_of_binder? {d target : Nat} {x : Text} (h : fs.binder? f d x = some target) :
    fs.ancestor? f d = some target :=
  (Option.filter_eq_some_iff.1 h).1

theorem Renamed.define (h : fs.Renamed σ shape fs') (hf : shape f = some marks) (x : Text)
    (v : Value) :
    (fs.define f x v).Renamed σ shape (fs'.define f (exchangeIf σ (marks 0) x) v) where
  size := by rw [size_define, size_define, h.size]
  frames {g marks'} hg := by
    obtain ⟨frame, hframe, hframe'⟩ := h.frames hg
    rw [Frames.define, Frames.define, Array.getElem?_modify, Array.getElem?_modify, hframe, hframe']
    by_cases he : f = g
    · subst he
      obtain rfl : marks = marks' := Option.some.inj (hf.symm.trans hg)
      refine ⟨_, if_pos rfl, ?_⟩
      rw [if_pos rfl]
      exact congrArg (fun bs => some (Frame.mk frame.parent bs)) (Bindings.set_mapNames _ x v _)
    · exact ⟨frame, if_neg he, if_neg he⟩
  parents hg hparent := by
    rw [parent?_define] at hparent
    exact h.parents hg hparent

/-- A new frame binds nothing yet, so its scope may be marked or not. -/
theorem Renamed.addChild (h : fs.Renamed σ shape fs') (hf : shape f = some marks) (mark : Bool) :
    (fs.addChild f).Renamed σ (shape.add fs.size (marks.enter mark)) (fs'.addChild f) where
  size := by rw [size_addChild, size_addChild, h.size]
  frames {g marks'} hg := by
    rw [Frames.addChild, Frames.addChild, Array.getElem?_push, Array.getElem?_push, h.size]
    by_cases he : g = fs.size
    · -- exchanging the names of an empty frame does nothing
      exact ⟨_, if_pos he, if_pos he⟩
    · rw [if_neg he, if_neg he]
      exact h.frames (Shape.of_add he hg)
  parents {g marks' parent} hg hparent := by
    have hextends := Shape.extends_add h.shape_size (marks.enter mark)
    rw [parent?_addChild] at hparent
    by_cases he : g = fs.size
    · subst he
      rw [if_pos rfl] at hparent
      rw [Shape.add_self] at hg
      cases hparent
      cases hg
      exact hextends hf
    · rw [if_neg he] at hparent
      exact hextends (h.parents (Shape.of_add he hg) hparent)

end Frames

/-! ## Machines -/

/-- Closures with the same name and frame, whose parameters and bodies are the same but for exchanged
names. -/
inductive Closure.Renamed (σ : Equiv.Perm Text) (shape : Shape) : Closure → Closure → Prop
  | intro {name : Text} {params : List Name} {body body' : List Stmt} {f : Nat} {marks : Marks}
      (mark : Bool) :
    shape f = some marks → List.Forall₂ (Stmt.Renamed σ (marks.enter mark)) body body' →
      Renamed σ shape ⟨name, params, body, f⟩
        ⟨name, params.map (Name.map (exchangeIf σ mark)), body', f⟩

theorem Closure.Renamed.mono {σ : Equiv.Perm Text} {shape shape₁ : Shape} {c c' : Closure}
    (h : c.Renamed σ shape c') (hs : shape.Extends shape₁) : c.Renamed σ shape₁ c' := by
  obtain ⟨mark, hf, hbody⟩ := h
  exact .intro mark (hs hf) hbody

/-- Machines that are in the midst of the same calls and have written the same, without native functions.
Their frames and functions are the same but for exchanged names; the names of global variables are not
exchanged. -/
structure Machine.Renamed (σ : Equiv.Perm Text) (shape : Shape) (m m' : Machine) : Prop where
  global : shape Machine.globalFrame = some .none
  frames : m.frames.Renamed σ shape m'.frames
  functions : m'.functions.size = m.functions.size
  closures : ∀ i : Nat, Option.Rel (Closure.Renamed σ shape) m.functions[i]? m'.functions[i]?
  natives : m.natives = #[]
  natives' : m'.natives = #[]
  calls : m'.calls = m.calls
  output : m'.output = m.output

namespace Machine

variable {σ : Equiv.Perm Text} {shape : Shape} {m m' : Machine} {f : Nat} {marks : Marks}

/-! ### Variables -/

/-- A name has the value that its exchanged form has. -/
theorem Renamed.value? (h : m.Renamed σ shape m') (hf : shape f = some marks) (name : Name)
    (d : Option Nat) :
    m'.value? f (name.map (exchangeIf σ (marks.leads d))) d = m.value? f name d := by
  cases d with
  | none => exact h.frames.getLocal h.global name.text
  | some d => exact h.frames.getAt hf d name.text

theorem Renamed.binder? (h : m.Renamed σ shape m') (hf : shape f = some marks) (name : Name)
    (d : Option Nat) :
    m'.binder? f (name.map (exchangeIf σ (marks.leads d))) d = m.binder? f name d := by
  cases d with
  | none => exact h.frames.binder? h.global 0 name.text
  | some d => exact h.frames.binder? hf d name.text

theorem Renamed.shape_binder? (h : m.Renamed σ shape m') (hf : shape f = some marks) {name : Name}
    {d : Option Nat} {target : Nat} (ht : m.binder? f name d = some target) :
    ∃ marks', shape target = some marks' ∧ marks' 0 = marks.leads d := by
  cases d with
  | none => exact h.frames.shape_ancestor? h.global (Frames.ancestor?_of_binder? ht)
  | some d => exact h.frames.shape_ancestor? hf (Frames.ancestor?_of_binder? ht)

/-- Global variables have the same names and values. -/
theorem Renamed.locals_global (h : m.Renamed σ shape m') :
    m'.frames.locals globalFrame = m.frames.locals globalFrame := by
  obtain ⟨frame, hframe, hframe'⟩ := h.frames.frames h.global
  rw [Frames.locals, Frames.locals, hframe, hframe']
  exact List.map_id _

/-! ### What runs do to machines -/

theorem Renamed.define (h : m.Renamed σ shape m') (hf : shape f = some marks) (x : Text) (v : Value) :
    Renamed σ shape { m with frames := m.frames.define f x v }
      { m' with frames := m'.frames.define f (exchangeIf σ (marks 0) x) v } :=
  { h with frames := h.frames.define hf x v }

theorem Renamed.addChild (h : m.Renamed σ shape m') (hf : shape f = some marks) (mark : Bool) :
    Renamed σ (shape.add m.frames.size (marks.enter mark))
      { m with frames := m.frames.addChild f } { m' with frames := m'.frames.addChild f } :=
  have hextends := Shape.extends_add h.frames.shape_size (marks.enter mark)
  { h with
    global := hextends h.global
    frames := h.frames.addChild hf mark
    closures := fun i => optionRel_imp (h.closures i) fun _ _ hc => hc.mono hextends }

theorem Renamed.addFunction (h : m.Renamed σ shape m') {c c' : Closure} (hc : c.Renamed σ shape c') :
    Renamed σ shape (m.addFunction c).2 (m'.addFunction c').2 :=
  { h with
    functions := by
      show (m'.functions.push c').size = (m.functions.push c).size
      rw [Array.size_push, Array.size_push, h.functions]
    closures := fun i => by
      show Option.Rel _ (m.functions.push c)[i]? (m'.functions.push c')[i]?
      rw [Array.getElem?_push, Array.getElem?_push, h.functions]
      split
      · exact .some hc
      · exact h.closures i }

/-- The function values are the same. -/
theorem Renamed.addFunction_value (h : m.Renamed σ shape m') {c c' : Closure}
    (hc : c.Renamed σ shape c') : (m'.addFunction c').1 = (m.addFunction c).1 := by
  obtain ⟨mark, hf, hbody⟩ := hc
  rw [Machine.addFunction, Machine.addFunction, h.functions, List.length_map]

theorem Renamed.setCalls (h : m.Renamed σ shape m') (calls : List CallFrame) :
    Renamed σ shape { m with calls := calls } { m' with calls := calls } :=
  { h with calls := rfl }

theorem Renamed.arity (h : m.Renamed σ shape m') (v : Value) (g : Callable) :
    m'.arity v g = m.arity v g := by
  cases v with
  | function =>
    have hclosure := h.closures g.id
    show (m'.functions[g.id]?.map (·.parameters.length)).getD g.arity =
      (m.functions[g.id]?.map (·.parameters.length)).getD g.arity
    revert hclosure
    generalize m.functions[g.id]? = c, m'.functions[g.id]? = c'
    rintro (⟨mark, hf, hbody⟩ | _)
    · exact List.length_map _
    · rfl
  | _ => rfl

end Machine

/-! ## A machine and itself -/

/-- All frames that lead outwards from a frame are there. -/
def Frames.Grounded (fs : Frames) (f : Nat) : Prop :=
  ∀ d target, fs.ancestor? f d = some target → target < fs.size

theorem InContext.grounded {own : Owners} {fs : Frames} {ctx : Context} {f : Nat}
    (h : InContext own fs ctx f) (hsize : 0 < fs.size)
    (hglobal : fs.parent? Machine.globalFrame = none) : fs.Grounded f := by
  induction ctx generalizing f with
  | nil =>
    cases h
    rintro (_ | d) target ht
    · cases ht
      exact hsize
    · rw [Frames.ancestor?, hglobal] at ht
      cases ht
  | cons scope outer ih =>
    obtain ⟨-, -, parent, hparent, houter⟩ := h
    rintro (_ | d) target ht
    · cases ht
      exact Frames.lt_size_of_parent? hparent
    · rw [Frames.ancestor?, hparent] at ht
      exact ih houter d target ht

open Classical in
/-- The shape in which no scope is marked, for all frames that lead to frames which are there. -/
noncomputable def Shape.plain (fs : Frames) : Shape :=
  fun f => if fs.Grounded f then some .none else none

theorem Shape.plain_eq_some {fs : Frames} {f : Nat} {marks : Marks} :
    plain fs f = some marks ↔ fs.Grounded f ∧ marks = .none := by
  unfold plain
  split
  · next h => exact ⟨fun he => ⟨h, (Option.some.inj he).symm⟩, fun ⟨_, he⟩ => congrArg some he.symm⟩
  · next h => exact ⟨nofun, fun ⟨hf, _⟩ => absurd hf h⟩

theorem Frames.renamed_refl (σ : Equiv.Perm Text) (fs : Frames) :
    fs.Renamed σ (Shape.plain fs) fs where
  size := rfl
  frames hf := by
    obtain ⟨hgrounded, rfl⟩ := Shape.plain_eq_some.1 hf
    have hframe := Array.getElem?_eq_getElem (hgrounded 0 _ rfl)
    refine ⟨_, hframe, hframe.trans (congrArg some ?_)⟩
    exact congrArg (Frame.mk _) (List.map_id _).symm
  parents hf hparent := by
    obtain ⟨hgrounded, rfl⟩ := Shape.plain_eq_some.1 hf
    refine Shape.plain_eq_some.2 ⟨fun d target ht => hgrounded (d + 1) target ?_, rfl⟩
    rwa [ancestor?, hparent]

/-- Where no scope is marked, a machine without native functions is its own renamed form. -/
theorem Scoped.renamed_refl {ps : List Program} {own : Owners} {m : Machine} (h : Scoped ps own m)
    (hnatives : m.natives = #[]) (σ : Equiv.Perm Text) :
    m.Renamed σ (Shape.plain m.frames) m where
  global := by
    have hglobal : InContext own m.frames [] Machine.globalFrame := rfl
    exact Shape.plain_eq_some.2 ⟨hglobal.grounded h.size_pos h.global, rfl⟩
  frames := Frames.renamed_refl σ m.frames
  functions := rfl
  closures i := optionRel_refl fun c hc => by
    -- the frames around a function are those of its context, so the plain shape knows them
    obtain ⟨p, -, a, name, ctx, -, hctx⟩ := h.closures c (Array.mem_of_getElem? hc)
    have hframe := Shape.plain_eq_some.2 ⟨hctx.grounded h.size_pos h.global, rfl⟩
    have hself : Closure.Renamed σ (Shape.plain m.frames) c
        ⟨c.name, c.parameters.map (Name.map (exchangeIf σ false)), c.body, c.frame⟩ :=
      .intro false hframe (Marks.enter_none.symm ▸ Stmt.Renamed.reflAll σ c.body)
    rwa [Name.map_exchangeIf_false_row] at hself
  natives := hnatives
  natives' := hnatives
  calls := rfl
  output := rfl

end Lox
