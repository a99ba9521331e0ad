import Lox.Machine.Basic
import Lox.Proofs.Scope.Accepted

/-!
# Frames of scopes

Every frame but the global one is made for a scope, whose names are the only ones that it ever binds.
`InContext` ties a frame to a context: the frame and its parents are those of the open scopes, and
each binds the names that are complete in its scope. Frames only grow (`Grows`), so what holds of a
frame once holds ever after; `Scoped` is the invariant of machines on which this rests.
-/

namespace Lox

/-- The names that the scope of a frame declares, for every frame. -/
abbrev Owners := Nat → List Text

namespace Frames

variable {fs : Frames}

theorem lt_size_of_parent? {frame parent : Nat} (h : fs.parent? frame = some parent) :
    frame < fs.size := by
  by_contra hlt
  rw [parent?, Array.getElem?_eq_none (Nat.le_of_not_lt hlt)] at h
  cases h

theorem hasLocal_define {frame other : Nat} {name x : Text} {v : Value} :
    (fs.define frame name v).hasLocal other x = true ↔
      (other = frame ∧ x = name ∧ frame < fs.size) ∨ fs.hasLocal other x = true := by
  unfold hasLocal
  rw [getLocal_define]
  by_cases h : other = frame ∧ x = name ∧ frame < fs.size
  · rw [if_pos h]
    exact ⟨fun _ => .inl h, fun _ => rfl⟩
  · rw [if_neg h, or_iff_right h]

theorem size_define (fs : Frames) (frame : Nat) (name : Text) (v : Value) :
    (fs.define frame name v).size = fs.size := Array.size_modify

theorem size_addChild (fs : Frames) (parent : Nat) : (fs.addChild parent).size = fs.size + 1 := by
  unfold addChild
  rw [Array.size_push]

theorem parent?_push (fs : Frames) (parent : Option Nat) (frame : Nat) :
    Frames.parent? (fs.push ⟨parent, []⟩) frame =
      if frame = fs.size then parent else fs.parent? frame := by
  unfold parent?
  rw [Array.getElem?_push]
  split <;> rfl

theorem parent?_addChild (fs : Frames) (parent frame : Nat) :
    (fs.addChild parent).parent? frame =
      if frame = fs.size then some parent else fs.parent? frame :=
  fs.parent?_push (some parent) frame

/-- A new frame binds nothing. -/
theorem getLocal_push (fs : Frames) (parent : Option Nat) (frame : Nat) (x : Text) :
    Frames.getLocal (fs.push ⟨parent, []⟩) frame x = fs.getLocal frame x := by
  unfold getLocal
  rw [Array.getElem?_push]
  by_cases h : frame = fs.size
  · rw [if_pos h, Array.getElem?_eq_none (Nat.le_of_eq h.symm)]
    rfl
  · rw [if_neg h]

theorem getLocal_addChild (fs : Frames) (parent frame : Nat) (x : Text) :
    (fs.addChild parent).getLocal frame x = fs.getLocal frame x :=
  fs.getLocal_push (some parent) frame x

theorem hasLocal_addChild (fs : Frames) (parent frame : Nat) (x : Text) :
    (fs.addChild parent).hasLocal frame x = fs.hasLocal frame x :=
  congrArg Option.isSome (fs.getLocal_addChild parent frame x)

end Frames

/-! ## Growth -/

/-- Frames stay, with their parents, the names that they bind and the scopes that they belong to. -/
structure Grows (own own' : Owners) (fs fs' : Frames) : Prop where
  size : fs.size ≤ fs'.size
  owners : ∀ frame < fs.size, own' frame = own frame
  parents : ∀ frame < fs.size, fs'.parent? frame = fs.parent? frame
  names : ∀ frame x, fs.hasLocal frame x = true → fs'.hasLocal frame x = true

theorem Grows.refl (own : Owners) (fs : Frames) : Grows own own fs fs :=
  ⟨Nat.le_refl _, fun _ _ => rfl, fun _ _ => rfl, fun _ _ h => h⟩

theorem Grows.trans {own own' own'' : Owners} {fs fs' fs'' : Frames} (h : Grows own own' fs fs')
    (h' : Grows own' own'' fs' fs'') : Grows own own'' fs fs'' where
  size := Nat.le_trans h.size h'.size
  owners frame hlt := (h'.owners frame (Nat.lt_of_lt_of_le hlt h.size)).trans (h.owners frame hlt)
  parents frame hlt := (h'.parents frame (Nat.lt_of_lt_of_le hlt h.size)).trans (h.parents frame hlt)
  names frame x hx := h'.names frame x (h.names frame x hx)

theorem grows_define (own : Owners) (fs : Frames) (frame : Nat) (name : Text) (v : Value) :
    Grows own own fs (fs.define frame name v) where
  size := Nat.le_of_eq (fs.size_define frame name v).symm
  owners _ _ := rfl
  parents other _ := fs.parent?_define frame other name v
  names _ _ hx := Frames.hasLocal_define.2 (.inr hx)

theorem grows_addChild (own : Owners) (fs : Frames) (parent : Nat) (names : List Text) :
    Grows own (Function.update own fs.size names) fs (fs.addChild parent) where
  size := by rw [fs.size_addChild]; omega
  owners frame hlt := Function.update_of_ne (Nat.ne_of_lt hlt) names own
  parents frame hlt := by rw [fs.parent?_addChild, if_neg (Nat.ne_of_lt hlt)]
  names frame x hx := by rwa [fs.hasLocal_addChild]

/-! ## Frames and contexts -/

/-- The frame and its parents are those of the open scopes, innermost first, and they bind what is
complete there. Outside of all scopes there is the global frame. -/
def InContext (own : Owners) (fs : Frames) : Context → Nat → Prop
  | [], frame => frame = Machine.globalFrame
  | scope :: outer, frame =>
    own frame = scope.all ∧ (∀ x ∈ scope.complete, fs.hasLocal frame x = true) ∧
      ∃ parent, fs.parent? frame = some parent ∧ InContext own fs outer parent

theorem InContext.grows {own own' : Owners} {fs fs' : Frames} {ctx : Context} {frame : Nat}
    (h : InContext own fs ctx frame) (hg : Grows own own' fs fs') :
    InContext own' fs' ctx frame := by
  induction ctx generalizing frame with
  | nil => exact h
  | cons scope outer ih =>
    obtain ⟨hown, hnames, parent, hparent, houter⟩ := h
    have hlt := Frames.lt_size_of_parent? hparent
    refine ⟨(hg.owners frame hlt).trans hown, fun x hx => hg.names frame x (hnames x hx), parent,
      ?_, ih houter⟩
    rw [hg.parents frame hlt, hparent]

/-- What matters of the innermost scope is which names it has and which are complete. -/
theorem InContext.congr_head {own : Owners} {fs : Frames} {outer : Context} {frame : Nat}
    {scope scope' : ScopeNames} (h : InContext own fs (scope :: outer) frame)
    (hall : scope'.all = scope.all) (hcomplete : ∀ x ∈ scope'.complete, x ∈ scope.complete) :
    InContext own fs (scope' :: outer) frame := by
  obtain ⟨hown, hnames, hparent⟩ := h
  exact ⟨hown.trans hall.symm, fun x hx => hnames x (hcomplete x hx), hparent⟩

/-- A name that is not complete yet does not matter. -/
theorem InContext.add_visible {own : Owners} {fs : Frames} {ctx : Context} {frame : Nat}
    (h : InContext own fs ctx frame) (names : List Text) :
    InContext own fs (ctx.modifyHead (·.add names [])) frame := by
  cases ctx with
  | nil => exact h
  | cons scope outer => exact h.congr_head rfl fun _ hx => hx

/-! ## Machines -/

/-- The closure is a function of one of the programs, in the frame of the scope around it. -/
def Closure.Fits (ps : List Program) (own : Owners) (fs : Frames) (c : Closure) : Prop :=
  ∃ p ∈ ps, ∃ a name ctx,
    Point (.program p) [] a (.stmt (.function name c.parameters c.body)) ctx ∧
      InContext own fs (ctx.declareAll [name.text]) c.frame

/-- Frame zero is the global frame, the other frames bind only names of their scopes, and functions
come from the given programs. -/
structure Scoped (ps : List Program) (own : Owners) (m : Machine) : Prop where
  size_pos : 0 < m.frames.size
  global : m.frames.parent? Machine.globalFrame = none
  binds : ∀ frame x, frame ≠ Machine.globalFrame → m.frames.hasLocal frame x = true → x ∈ own frame
  closures : ∀ c ∈ m.functions, c.Fits ps own m.frames

theorem Closure.Fits.grows {ps : List Program} {own own' : Owners} {fs fs' : Frames} {c : Closure}
    (h : c.Fits ps own fs) (hg : Grows own own' fs fs') : c.Fits ps own' fs' := by
  obtain ⟨p, hp, a, name, ctx, hpoint, hctx⟩ := h
  exact ⟨p, hp, a, name, ctx, hpoint, hctx.grows hg⟩

namespace Scoped

variable {ps : List Program} {own : Owners} {m : Machine}

/-- Only frames and functions matter. -/
theorem congr (h : Scoped ps own m) {m' : Machine} (hframes : m'.frames = m.frames)
    (hfunctions : m'.functions = m.functions) : Scoped ps own m' := by
  obtain ⟨hsize, hglobal, hbinds, hclosures⟩ := h
  constructor
  · rwa [hframes]
  · rwa [hframes]
  · rwa [hframes]
  · rwa [hframes, hfunctions]

/-- A frame may bind what its scope declares. -/
theorem define (h : Scoped ps own m) {frame : Nat} {name : Text}
    (hname : frame ≠ Machine.globalFrame → name ∈ own frame) (v : Value) :
    Scoped ps own { m with frames := m.frames.define frame name v } where
  size_pos := by
    show 0 < (m.frames.define frame name v).size
    rw [Frames.size_define]
    exact h.size_pos
  global := by
    show (m.frames.define frame name v).parent? _ = none
    rw [Frames.parent?_define]
    exact h.global
  binds other x hne hx := by
    rcases Frames.hasLocal_define.1 hx with ⟨rfl, rfl, _⟩ | hx
    · exact hname hne
    · exact h.binds other x hne hx
  closures c hc := (h.closures c hc).grows (grows_define own m.frames frame name v)

/-- A new frame is one for any scope. -/
theorem addChild (h : Scoped ps own m) (parent : Nat) (names : List Text) :
    Scoped ps (Function.update own m.frames.size names)
      { m with frames := m.frames.addChild parent } where
  size_pos := by
    show 0 < (m.frames.addChild parent).size
    rw [Frames.size_addChild]
    omega
  global := by
    have hne : Machine.globalFrame ≠ m.frames.size := Nat.ne_of_lt h.size_pos
    show (m.frames.addChild parent).parent? _ = none
    rw [Frames.parent?_addChild, if_neg hne]
    exact h.global
  binds other x hne hx := by
    have hx : m.frames.hasLocal other x = true := by rwa [← m.frames.hasLocal_addChild parent]
    by_cases hs : other = m.frames.size
    · rw [Frames.hasLocal, Frames.getLocal, Array.getElem?_eq_none (by omega)] at hx
      cases hx
    · rw [Function.update_of_ne hs]
      exact h.binds other x hne hx
  closures c hc := (h.closures c hc).grows (grows_addChild own m.frames parent names)

theorem addFunction (h : Scoped ps own m) {c : Closure} (hc : c.Fits ps own m.frames) :
    Scoped ps own (m.addFunction c).2 where
  size_pos := h.size_pos
  global := h.global
  binds := h.binds
  closures c' hc' := by
    rcases Array.mem_push.1 hc' with hc' | rfl
    · exact h.closures c' hc'
    · exact hc

/-- More programs may be run. -/
theorem mono (h : Scoped ps own m) {ps' : List Program} (hps : ∀ p ∈ ps, p ∈ ps') :
    Scoped ps' own m where
  size_pos := h.size_pos
  global := h.global
  binds := h.binds
  closures c hc := by
    obtain ⟨p, hp, hfits⟩ := h.closures c hc
    exact ⟨p, hps p hp, hfits⟩

end Scoped

/-- At first there is only the global frame. -/
theorem scoped_empty : Scoped [] (fun _ => []) Machine.empty where
  size_pos := Nat.zero_lt_one
  global := rfl
  binds frame x hne hx := by
    rw [Frames.hasLocal, Frames.getLocal, Array.getElem?_eq_none] at hx
    · cases hx
    · exact Nat.one_le_iff_ne_zero.2 hne
  closures c hc := absurd hc (Array.not_mem_empty c)

/-! ## The chain of frames -/

/-- The frames of a context are those that lead from a frame to the global one. -/
theorem InContext.ancestors {own : Owners} {fs : Frames} {ctx : Context} {frame : Nat}
    (h : InContext own fs ctx frame) (hglobal : fs.parent? Machine.globalFrame = none) :
    ∃ locals : List Nat,
      (∀ k, fs.ancestor? frame k = (locals ++ [Machine.globalFrame])[k]?) ∧
      List.Forall₂ (fun f scope => own f = scope.all ∧ f ≠ Machine.globalFrame ∧
        ∀ x ∈ scope.complete, fs.hasLocal f x = true) locals ctx := by
  induction ctx generalizing frame with
  | nil =>
    cases h
    refine ⟨[], fun k => ?_, .nil⟩
    cases k with
    | zero => rfl
    | succ k =>
      rw [Frames.ancestor?, hglobal]
      rfl
  | cons scope outer ih =>
    obtain ⟨hown, hnames, parent, hparent, houter⟩ := h
    obtain ⟨locals, hchain, hlocals⟩ := ih houter
    refine ⟨frame :: locals, fun k => ?_, .cons ⟨hown, ?_, hnames⟩ hlocals⟩
    · cases k with
      | zero => rfl
      | succ k =>
        rw [Frames.ancestor?, hparent]
        exact hchain k
    · rintro rfl
      rw [hglobal] at hparent
      cases hparent

end Lox
