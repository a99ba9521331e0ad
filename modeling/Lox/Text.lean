/-!
# Texts

Source code, names and strings are byte strings: nothing requires them to be valid UTF-8, and a
position inside one counts bytes. This module holds the type and the few operations the rest of
the library needs: spelling a string in UTF-8, writing and reading natural numbers in decimal
(`Text.toNat_ofNat` says that reading undoes writing), and the order of texts by their bytes.
-/

namespace Lox

/-- A text is a sequence of bytes. -/
abbrev Text := List UInt8

/-- The UTF-8 bytes of a string. -/
def utf8 (s : String) : Text := s.toList.flatMap String.utf8EncodeChar

/-- The byte of an ASCII character. -/
def ascii (c : Char) : UInt8 := c.toUInt8

/-- The newline byte. -/
def newline : UInt8 := ascii '\n'

/-- The double quote byte. -/
def quote : UInt8 := ascii '"'

/-- The bytes `0` to `9`. -/
def isDigit (b : UInt8) : Bool := ascii '0' ≤ b && b ≤ ascii '9'

/-! ## Decimal numerals -/

/-- The byte that writes a digit below ten. -/
def digitByte (d : Nat) : UInt8 := UInt8.ofNat (48 + d)

/-- The digit that a byte writes. -/
def digitValue (b : UInt8) : Nat := b.toNat - 48

/-- A natural number in decimal, without leading zeros. -/
def Text.ofNat (n : Nat) : Text :=
  if n < 10 then [digitByte n] else Text.ofNat (n / 10) ++ [digitByte (n % 10)]
termination_by n
decreasing_by omega

/-- The number that a sequence of decimal digits denotes; no digits denote zero. -/
def Text.toNat (t : Text) : Nat := t.foldl (fun n b => 10 * n + digitValue b) 0

theorem digitByte_toNat {d : Nat} (h : d < 10) : (digitByte d).toNat = 48 + d := by
  simp only [digitByte, UInt8.toNat_ofNat']
  omega

theorem digitValue_digitByte {d : Nat} (h : d < 10) : digitValue (digitByte d) = d := by
  rw [digitValue, digitByte_toNat h]
  omega

theorem isDigit_digitByte {d : Nat} (h : d < 10) : isDigit (digitByte d) = true := by
  have h₀ : (ascii '0').toNat = 48 := rfl
  have h₉ : (ascii '9').toNat = 57 := rfl
  simp only [isDigit, Bool.and_eq_true, decide_eq_true_eq, UInt8.le_iff_toNat_le,
    digitByte_toNat h]
  omega

theorem Text.toNat_append_singleton (t : Text) (b : UInt8) :
    Text.toNat (t ++ [b]) = 10 * Text.toNat t + digitValue b := by
  simp [Text.toNat]

theorem Text.toNat_ofNat (n : Nat) : Text.toNat (Text.ofNat n) = n := by
  fun_induction Text.ofNat n with
  | case1 n h => simp [Text.toNat, digitValue_digitByte h]
  | case2 n h ih =>
    rw [Text.toNat_append_singleton, ih, digitValue_digitByte (Nat.mod_lt n (by decide))]
    omega

theorem Text.isDigit_of_mem_ofNat (n : Nat) : ∀ b ∈ Text.ofNat n, isDigit b = true := by
  fun_induction Text.ofNat n with
  | case1 n h => simp [isDigit_digitByte h]
  | case2 n h ih =>
    intro b hb
    rcases List.mem_append.1 hb with hb | hb
    · exact ih b hb
    · rw [List.mem_singleton.1 hb]
      exact isDigit_digitByte (Nat.mod_lt n (by decide))

/-! ## Cutting and ordering -/

/-- The part of a text before its first zero byte, which is all that a zero-terminated reader
sees of it. -/
def Text.beforeZero (t : Text) : Text := t.takeWhile (· != 0)

/-- Texts joined, with a separator between neighbours. -/
def Text.joined (separator : Text) (parts : List Text) : Text := separator.intercalate parts

/-- Texts in the order of their bytes, a text before its extensions. -/
def Text.sorted (texts : List Text) : List Text := texts.mergeSort (fun a b => decide (a ≤ b))

end Lox
