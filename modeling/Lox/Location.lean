import Lox.Text

/-!
# Source locations

Lines and columns count from one; a column counts bytes. Both are 32-bit words.
`Location.after` is the location reached by reading a text, and reading two texts one after the
other is reading their concatenation (`Location.after_append`).
-/

namespace Lox

/-- A line and a column. -/
structure Location where
  line : UInt32
  column : UInt32
  deriving DecidableEq, Inhabited

namespace Location

/-- Where every source begins. -/
def start : Location := ⟨1, 1⟩

/-- The location of what no source contains. -/
def nowhere : Location := ⟨0, 0⟩

/-- The location behind one byte. -/
def step (l : Location) (b : UInt8) : Location :=
  if b = newline then ⟨l.line + 1, 1⟩ else ⟨l.line, l.column + 1⟩

/-- The location behind a text. -/
def after (l : Location) (t : Text) : Location := t.foldl step l

@[simp] theorem after_nil (l : Location) : l.after [] = l := rfl

@[simp] theorem after_cons (l : Location) (b : UInt8) (t : Text) :
    l.after (b :: t) = (l.step b).after t := rfl

theorem after_append (l : Location) (s t : Text) : l.after (s ++ t) = (l.after s).after t := by
  simp [after]

/-- A location as `line:column`. -/
def text (l : Location) : Text :=
  Text.ofNat l.line.toNat ++ utf8 ":" ++ Text.ofNat l.column.toNat

end Location

end Lox
