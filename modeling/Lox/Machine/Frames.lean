import Lox.Value

/-!
# Frames

Variables live in frames. A frame binds names to values and has a parent, except for a global
frame; following the parents gives the frames that code can reach. Frames are numbered in the order
of their making and stay for ever, so a function can keep the frame that it was declared in.

What the operations do is said through `Frames.getLocal`: a definition or an assignment changes one
binding of one frame, and nothing else.
-/

namespace Lox

/-- Names and their values, in the order of their definition. -/
abbrev Bindings := List (Text × Value)

namespace Bindings

/-- Binds a name, in place of its earlier binding if there is one. -/
def set (name : Text) (v : Value) : Bindings → Bindings
  | [] => [(name, v)]
  | (n, w) :: rest => if n == name then (n, v) :: rest else (n, w) :: set name v rest

theorem lookup_set (name other : Text) (v : Value) (bs : Bindings) :
    (set name v bs).lookup other = if other = name then some v else bs.lookup other := by
  induction bs with
  | nil =>
    by_cases h : other = name
    · simp [set, h]
    · simp [set, List.lookup_cons, beq_false_of_ne h, h]
  | cons b bs ih =>
    obtain ⟨n, w⟩ := b
    by_cases hn : n = name
    · subst hn
      by_cases h : other = n
      · simp [set, h]
      · simp [set, List.lookup_cons, beq_false_of_ne h, h]
    · by_cases h : other = n
      · subst h
        simp [set, beq_false_of_ne hn, hn]
      · simp [set, List.lookup_cons, beq_false_of_ne hn, beq_false_of_ne h, ih]

end Bindings

/-- One frame. -/
structure Frame where
  parent : Option Nat
  bindings : Bindings

/-- All frames, by number. -/
abbrev Frames := Array Frame

namespace Frames

/-- Makes a frame without a parent; its number is the count of frames before it. -/
def addGlobal (fs : Frames) : Frames := fs.push ⟨none, []⟩

/-- Makes a frame with the given parent; its number is the count of frames before it. -/
def addChild (fs : Frames) (parent : Nat) : Frames := fs.push ⟨some parent, []⟩

/-- The parent of a frame. -/
def parent? (fs : Frames) (frame : Nat) : Option Nat := fs[frame]?.bind (·.parent)

/-- The value of a name in a frame, not in its parents. -/
def getLocal (fs : Frames) (frame : Nat) (name : Text) : Option Value :=
  fs[frame]?.bind (·.bindings.lookup name)

/-- Whether a frame binds a name. -/
def hasLocal (fs : Frames) (frame : Nat) (name : Text) : Bool := (fs.getLocal frame name).isSome

/-- The frame that the given number of parents leads to. -/
def ancestor? (fs : Frames) (frame : Nat) : Nat → Option Nat
  | 0 => some frame
  | distance + 1 => (fs.parent? frame).bind (fs.ancestor? · distance)

/-- The value of a name in an ancestor. -/
def getAt (fs : Frames) (frame distance : Nat) (name : Text) : Option Value :=
  (fs.ancestor? frame distance).bind (fs.getLocal · name)

/-- Binds a name in a frame, in place of its earlier binding there if there is one. -/
def define (fs : Frames) (frame : Nat) (name : Text) (v : Value) : Frames :=
  fs.modify frame fun f => { f with bindings := f.bindings.set name v }

/-- The ancestor at a distance, if it binds a name. -/
def binder? (fs : Frames) (frame distance : Nat) (name : Text) : Option Nat :=
  (fs.ancestor? frame distance).filter (fs.hasLocal · name)

/-- Changes the value of a name in an ancestor, if that binds the name. -/
def assignAt (fs : Frames) (frame distance : Nat) (name : Text) (v : Value) : Option Frames :=
  (fs.binder? frame distance name).map (fs.define · name v)

/-- What a frame binds, in the order of definition. -/
def locals (fs : Frames) (frame : Nat) : Bindings := (fs[frame]?.map (·.bindings)).getD []

/-- The names that a frame binds, in the order of definition. -/
def localNames (fs : Frames) (frame : Nat) : List Text := (fs.locals frame).map (·.1)

theorem getLocal_define (fs : Frames) (frame other : Nat) (name n : Text) (v : Value) :
    (fs.define frame name v).getLocal other n =
      if other = frame ∧ n = name ∧ frame < fs.size then some v else fs.getLocal other n := by
  simp only [define, getLocal, Array.getElem?_modify]
  by_cases ho : frame = other
  · subst ho
    by_cases hs : frame < fs.size
    · by_cases hn : n = name <;> simp [hs, hn, Bindings.lookup_set]
    · simp [hs]
  · simp [ho, Ne.symm ho]

theorem parent?_define (fs : Frames) (frame other : Nat) (name : Text) (v : Value) :
    (fs.define frame name v).parent? other = fs.parent? other := by
  simp only [define, parent?, Array.getElem?_modify]
  split
  · cases fs[other]? <;> rfl
  · rfl

end Frames

end Lox
