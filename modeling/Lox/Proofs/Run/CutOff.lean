import Lox.Proofs.Likeness.Eval
import Lox.Proofs.Likeness.Similar
import Lox.Proofs.Run.Raise

/-!
# Runs that are cut off

Two runs of the same code, on machines in the same state, of which the first one may be stopped: until
then both do the same (`Run.CutOff`). The machines number frames and functions on their own, and a `Link`
says which of them correspond (`Machine.Linked`). A run in two parts is cut off if both parts are and if
the second part takes back nothing that has been written (`Run.CutOff.bind`).
-/

namespace Lox

variable {l l₁ : Link}

/-! ## Corresponding machines -/

/-- The literals at or below a node stand for corresponding values on both machines. -/
abbrev Node.Linked (l : Link) (n : Node) : Prop := n.Literals fun v => v.Alike l v

theorem Node.Linked.mono {n : Node} (h : n.Linked l) (hl : l.Extends l₁) : n.Linked l₁ :=
  fun a v loc hat => (h a v loc hat).mono hl

/-- Literals that are no functions stand for themselves. -/
theorem Node.Plain.linked {n : Node} (h : n.Plain) : n.Linked l :=
  fun a v loc hat => .self (h a v loc hat)

/-- Functions of one declaration, made in frames that correspond. -/
structure Closure.Linked (l : Link) (c c' : Closure) : Prop where
  name : c.name = c'.name
  parameters : c.parameters = c'.parameters
  body : c.body = c'.body
  frame : l.frames c.frame c'.frame
  literals : ∀ s ∈ c.body, (Node.stmt s).Linked l

theorem Closure.Linked.mono {c c' : Closure} (h : c.Linked l c') (hl : l.Extends l₁) :
    c.Linked l₁ c' :=
  { h with frame := hl.frames h.frame, literals := fun s hs => (h.literals s hs).mono hl }

/-- Two machines without native functions in the same state, but for the numbers of frames and
functions: in the midst of the same calls, with the same variables in corresponding frames. -/
structure Machine.Linked (l : Link) (m m' : Machine) : Prop where
  global : l.frames Machine.globalFrame Machine.globalFrame
  frames : m.frames.Alike l m'.frames
  functions : Numbering l.functions m.functions.size m'.functions.size
  closures : ∀ {i i'}, l.functions i i' →
    Option.Rel (Closure.Linked l) m.functions[i]? m'.functions[i']?
  calls : m.calls = m'.calls
  natives : m.natives = #[]
  natives' : m'.natives = #[]

namespace Machine.Linked

variable {m m' : Machine} {f f' : Nat}

theorem define (h : m.Linked l m') (hf : l.frames f f') (x : Text) {v v' : Value}
    (hv : v.Alike l v') :
    Linked l { m with frames := m.frames.define f x v }
      { m' with frames := m'.frames.define f' x v' } :=
  { h with frames := h.frames.define hf x hv }

theorem addChild (h : m.Linked l m') (hf : l.frames f f') :
    Linked (l.addFrame m.frames.size m'.frames.size)
      { m with frames := m.frames.addChild f } { m' with frames := m'.frames.addChild f' } :=
  { h with
    global := .inl h.global
    frames := h.frames.addChild hf
    closures := fun hi => optionRel_imp (h.closures hi) fun _ _ hc =>
      hc.mono (l.extends_addFrame _ _) }

theorem addFunction (h : m.Linked l m') {c c' : Closure} (hc : c.Linked l c') :
    Linked (l.addFunction m.functions.size m'.functions.size) (m.addFunction c).2
        (m'.addFunction c').2 ∧
      (m.addFunction c).1.Alike (l.addFunction m.functions.size m'.functions.size)
        (m'.addFunction c').1 := by
  have hl := l.extends_addFunction m.functions.size m'.functions.size
  refine ⟨{ h with
    frames := h.frames.mono rfl hl
    functions := ?_
    closures := fun hi => ?_ }, ?_⟩
  · show Numbering _ (m.functions.push c).size (m'.functions.push c').size
    rw [Array.size_push, Array.size_push]
    exact h.functions.addNext
  · exact h.functions.optionRel_push
      (fun hi => optionRel_imp (h.closures hi) fun _ _ hc => hc.mono hl) (hc.mono hl) hi
  · show Value.Alike _ (.function ⟨_, c.name, c.parameters.length⟩)
      (.function ⟨_, c'.name, c'.parameters.length⟩)
    rw [hc.name, hc.parameters]
    exact .function _ _ (.inr ⟨rfl, rfl⟩)

theorem setCalls (h : m.Linked l m') (calls : List CallFrame) :
    Linked l { m with calls := calls } { m' with calls := calls } :=
  { h with calls := rfl }

/-- A machine without native functions corresponds to itself. -/
theorem refl (hnatives : m.natives = #[]) : m.Linked .same m where
  global := rfl
  frames :=
    { numbering := .refl m.frames.size
      parents := by
        rintro f _ rfl
        exact optionRel_refl fun _ _ => rfl
      values := by
        rintro f _ rfl x
        exact optionRel_refl fun v _ => .refl v }
  functions := .refl m.functions.size
  closures := by
    rintro i _ rfl
    exact optionRel_refl fun c _ => ⟨rfl, rfl, rfl, rfl, fun s _ _ v _ _ => .refl v⟩
  calls := rfl
  natives := hnatives
  natives' := hnatives

end Machine.Linked

/-- What the first machine has written since is the beginning of what the second one has. -/
def Machine.BeginningOfLines (m m' m₁ m₁' : Machine) : Prop :=
  ∃ lines more, m₁.output = m.output ++ lines ∧ m₁'.output = m'.output ++ (lines ++ more)

namespace Machine.BeginningOfLines

variable {m m' m₁ m₁' m₂ m₂' : Machine}

theorem behind (h : BeginningOfLines m₁ m₁' m₂ m₂') (hlines : SameLines m m' m₁ m₁') :
    BeginningOfLines m m' m₂ m₂' := by
  obtain ⟨before, h₁, h₁'⟩ := hlines
  obtain ⟨lines, more, h₂, h₂'⟩ := h
  refine ⟨before ++ lines, more, ?_, ?_⟩
  · rw [h₂, h₁, Array.append_assoc]
  · rw [h₂', h₁', Array.append_assoc, Array.append_assoc]

theorem append (h : BeginningOfLines m m' m₁ m₁') {lines : Array Text}
    (hlines : m₂'.output = m₁'.output ++ lines) : BeginningOfLines m m' m₁ m₂' := by
  obtain ⟨before, more, h₁, h₁'⟩ := h
  refine ⟨before, more ++ lines, h₁, ?_⟩
  rw [hlines, h₁', Array.append_assoc, Array.append_assoc]

end Machine.BeginningOfLines

/-! ## Runs under two limits -/

namespace Run

variable {α β : Type} {Q : Link → α → α → Prop} {R : Link → β → β → Prop}

/-- What has been written stays. -/
abbrev Appends (x : Run α) : Prop :=
  x.Respects fun m m' => ∃ lines, m'.output = m.output ++ lines

/-- How a run under a limit and the one under a limit that is not lower end: in the same way, unless
the first one is stopped by its limit. -/
inductive Cut (l : Link) (m m' : Machine) (Q : Link → α → α → Prop) (x y : Run α) : Prop
  | ok {l₁ : Link} {m₁ m₁' : Machine} {a b : α} :
    x m = .ok a m₁ → y m' = .ok b m₁' → l.Extends l₁ → m₁.Linked l₁ m₁' →
      Machine.SameLines m m' m₁ m₁' → Q l₁ a b → Cut l m m' Q x y
  | error {l₁ : Link} {m₁ m₁' : Machine} {e : RuntimeError} :
    x m = .error (.error e) m₁ → y m' = .error (.error e) m₁' → l.Extends l₁ → m₁.Linked l₁ m₁' →
      Machine.SameLines m m' m₁ m₁' → Cut l m m' Q x y
  | outOfFuel {m₁ m₁' : Machine} :
    x m = .error .outOfFuel m₁ → y m' = .error .outOfFuel m₁' → Cut l m m' Q x y
  | stopped {m₁ : Machine} {e : RuntimeError} :
    x m = .error (.error e) m₁ → e.fault.code = .stackOverflow →
      Machine.BeginningOfLines m m' m₁ (y.final m') → Cut l m m' Q x y

/-- On corresponding machines the second run goes on at least as far as the first one. -/
def CutOff (l : Link) (x y : Run α) (Q : Link → α → α → Prop) : Prop :=
  ∀ l₁ m m', l.Extends l₁ → m.Linked l₁ m' → Cut l₁ m m' Q x y

theorem final_bind_of_ok {x : Run α} {f : α → Run β} {m m' : Machine} {a : α} (h : x m = .ok a m') :
    (x >>= f).final m = (f a).final m' := by
  unfold final
  rw [bind_of_ok h]

/-- Where the first run is stopped in its first part, the second one only goes on writing. -/
theorem CutOff.bind {x y : Run α} {f g : α → Run β} (h : CutOff l x y Q)
    (hg : ∀ b, (g b).Appends)
    (hf : ∀ l₁ a b, l.Extends l₁ → Q l₁ a b → CutOff l₁ (f a) (g b) R) :
    CutOff l (x >>= f) (y >>= g) R := by
  intro l₁ m m' hl hm
  cases h l₁ m m' hl hm with
  | @ok l₂ m₁ m₁' a b hx hy hl₂ hm₁ hlines hab =>
    cases hf l₂ a b (hl.trans hl₂) hab l₂ m₁ m₁' (.refl l₂) hm₁ with
    | ok hx' hy' hl₃ hm₂ hlines' hcd =>
      exact .ok ((bind_of_ok hx).trans hx') ((bind_of_ok hy).trans hy') (hl₂.trans hl₃) hm₂
        (hlines.trans hlines') hcd
    | error hx' hy' hl₃ hm₂ hlines' =>
      exact .error ((bind_of_ok hx).trans hx') ((bind_of_ok hy).trans hy') (hl₂.trans hl₃) hm₂
        (hlines.trans hlines')
    | outOfFuel hx' hy' =>
      exact .outOfFuel ((bind_of_ok hx).trans hx') ((bind_of_ok hy).trans hy')
    | stopped hx' hcode hbeginning =>
      refine .stopped ((bind_of_ok hx).trans hx') hcode ?_
      rw [final_bind_of_ok hy]
      exact hbeginning.behind hlines
  | error hx hy hl₂ hm₁ hlines => exact .error (bind_of_error hx) (bind_of_error hy) hl₂ hm₁ hlines
  | outOfFuel hx hy => exact .outOfFuel (bind_of_error hx) (bind_of_error hy)
  | stopped hx hcode hbeginning =>
    -- the second run may get to its second part, of which nothing is known but that it only writes
    refine .stopped (bind_of_error hx) hcode ?_
    rcases final_bind y g m' with ⟨b, -, hfinal⟩ | hfinal
    · obtain ⟨lines, hlines⟩ := hg b (y.final m')
      rw [hfinal]
      exact hbeginning.append hlines
    · rw [hfinal]
      exact hbeginning

theorem cutOff_pure {a b : α} (h : ∀ l₁, l.Extends l₁ → Q l₁ a b) : CutOff l (pure a) (pure b) Q :=
  fun l₁ m m' hl hm => .ok rfl rfl (.refl l₁) hm (.refl m m') (h l₁ hl)

theorem cutOff_outOfFuel : CutOff l (throw .outOfFuel) (throw .outOfFuel) Q :=
  fun _ _ _ _ _ => .outOfFuel rfl rfl

/-- The same error is raised, during the same calls. -/
theorem cutOff_fail (fault : Fault) (loc : Location) : CutOff l (fail fault loc) (fail fault loc) Q :=
  fun l₁ m m' _ hm => .error rfl (by rw [hm.calls]; rfl) (.refl l₁) hm (.refl m m')

theorem cutOff_ofExcept {r : Except Fault α} (loc : Location) (h : ∀ a, r = .ok a → ∀ l, Q l a a) :
    CutOff l (ofExcept loc r) (ofExcept loc r) Q := by
  cases r with
  | ok a => exact cutOff_pure fun l₁ _ => h a rfl l₁
  | error fault => exact cutOff_fail fault loc

theorem CutOff.ite {c : Prop} [Decidable c] {x x' y y' : Run α} (hx : CutOff l x x' Q)
    (hy : CutOff l y y' Q) : CutOff l (if c then x else y) (if c then x' else y') Q := by
  split
  · exact hx
  · exact hy

/-- Functions are numbered one to one. -/
theorem cutOff_numbering {x y : Run α}
    (h : ∀ n n', Numbering l.functions n n' → CutOff l x y Q) : CutOff l x y Q := by
  intro l₁ m m' hl hm
  have hn : Numbering l.functions m.functions.size m'.functions.size :=
    ⟨fun hi hj => hm.functions.unique (hl.functions hi) (hl.functions hj),
      fun hi => hm.functions.aligned (hl.functions hi)⟩
  exact h _ _ hn l₁ m m' hl hm

theorem cutOff_get : CutOff l get get fun l₁ m m' => m.Linked l₁ m' :=
  fun l₁ m m' _ hm => .ok rfl rfl (.refl l₁) hm (.refl m m') hm

theorem cutOff_write (line : Text) : CutOff l (write line) (write line) anyResult :=
  fun l₁ _ _ _ hm => .ok rfl rfl (.refl l₁) { hm with }
    ⟨#[line], Array.push_eq_append, Array.push_eq_append⟩ trivial

theorem cutOff_define {f f' : Nat} (hf : l.frames f f') (x : Text) {v v' : Value}
    (hv : v.Alike l v') : CutOff l (define f x v) (define f' x v') anyResult :=
  fun l₁ m m' hl hm => .ok rfl rfl (.refl l₁) (hm.define (hl.frames hf) x (hv.mono hl)) (.refl m m')
    trivial

theorem cutOff_newFrame {f f' : Nat} (hf : l.frames f f') :
    CutOff l (newFrame f) (newFrame f') fun l₁ inner inner' => l₁.frames inner inner' :=
  fun l₁ m m' hl hm => .ok rfl rfl (l₁.extends_addFrame _ _) (hm.addChild (hl.frames hf))
    (.refl m m') (.inr ⟨rfl, rfl⟩)

theorem cutOff_addFunction {c c' : Closure} (hc : c.Linked l c') :
    CutOff l (modifyGet fun m => m.addFunction c) (modifyGet fun m => m.addFunction c')
      Value.Alike := by
  intro l₁ m m' hl hm
  obtain ⟨hm₁, hv⟩ := hm.addFunction (hc.mono hl)
  exact .ok rfl rfl (l₁.extends_addFunction _ _) hm₁ (.refl m m') hv

theorem CutOff.withCall {x y : Run α} (h : CutOff l x y Q) (call : CallFrame) :
    CutOff l (withCall call x) (withCall call y) Q := by
  intro l₁ m m' hl hm
  have hstart : Machine.Linked l₁ { m with calls := call :: m.calls }
      { m' with calls := call :: m'.calls } := by
    rw [← hm.calls]
    exact hm.setCalls _
  have htail {m m' : Machine} {l : Link} (hm : m.Linked l m') :
      Machine.Linked l { m with calls := m.calls.tail } { m' with calls := m'.calls.tail } := by
    rw [← hm.calls]
    exact hm.setCalls _
  cases h l₁ _ _ hl hstart with
  | ok hx hy hl₂ hm₁ hlines hab =>
    exact .ok (withCall_of_ok hx) (withCall_of_ok hy) hl₂ (htail hm₁) hlines hab
  | error hx hy hl₂ hm₁ hlines =>
    exact .error (withCall_of_error hx) (withCall_of_error hy) hl₂ (htail hm₁) hlines
  | outOfFuel hx hy => exact .outOfFuel (withCall_of_error hx) (withCall_of_error hy)
  | stopped hx hcode hbeginning =>
    refine .stopped (withCall_of_error hx) hcode ?_
    rw [final_withCall]
    exact hbeginning

/-- What a run that ends in an error has written is the beginning of what the other one writes. -/
theorem Cut.beginningOfLines {m m' m₁ : Machine} {x y : Run α} {e : RuntimeError}
    (h : Cut l m m' Q x y) (hx : x m = .error (.error e) m₁) :
    Machine.BeginningOfLines m m' m₁ (y.final m') := by
  cases h with
  | ok hx' => cases hx'.symm.trans hx
  | error hx' hy _ _ hlines =>
    cases hx'.symm.trans hx
    rw [final_eq_of_error hy]
    obtain ⟨lines, h₁, h₁'⟩ := hlines
    exact ⟨lines, #[], h₁, by rw [h₁', Array.append_empty]⟩
  | outOfFuel hx' => cases hx'.symm.trans hx
  | stopped hx' _ hbeginning =>
    cases hx'.symm.trans hx
    exact hbeginning

theorem Cut.congr {m m' : Machine} {x x' y y' : Run α} (h : Cut l m m' Q x' y') (hx : x m = x' m)
    (hy : y m' = y' m') : Cut l m m' Q x y := by
  cases h with
  | ok hx' hy' hl hm hlines hab => exact .ok (hx.trans hx') (hy.trans hy') hl hm hlines hab
  | error hx' hy' hl hm hlines => exact .error (hx.trans hx') (hy.trans hy') hl hm hlines
  | outOfFuel hx' hy' => exact .outOfFuel (hx.trans hx') (hy.trans hy')
  | stopped hx' hcode hbeginning =>
    refine .stopped (hx.trans hx') hcode ?_
    unfold final at hbeginning ⊢
    rwa [hy]

end Run

end Lox
