import Lox.Number.Basic
import Lox.Text

/-!
# Reading decimals

A decimal is a whole number times a power of ten. `Number.ofDecimal` gives the nearest binary64
number, ties to the one with an even last bit, by exact arithmetic on natural numbers: the value is
a quotient of units, the spacing of the numbers around it is a power of two, and one rounded
division finds the multiple of the spacing. Magnitudes too large for a finite number give infinity.
-/

namespace Lox

/-- `n / d` rounded to the nearest natural number, a half to the even neighbour. -/
def roundedQuotient (n d : Nat) : Nat :=
  let q := n / d
  let r := n % d
  if 2 * r < d ∨ (2 * r = d ∧ q % 2 = 0) then q else q + 1

theorem div_le_roundedQuotient (n d : Nat) : n / d ≤ roundedQuotient n d := by
  simp only [roundedQuotient]
  split <;> omega

theorem roundedQuotient_le (n d : Nat) : roundedQuotient n d ≤ n / d + 1 := by
  simp only [roundedQuotient]
  split <;> omega

/-- A non-negative decimal: `digits * 10 ^ exponent`. -/
structure Decimal where
  digits : Nat
  exponent : Int
  deriving DecidableEq

/-- The fraction of units, numerator and denominator, that a decimal is equal to. -/
def Decimal.units (d : Decimal) : Nat × Nat :=
  (d.digits * 10 ^ d.exponent.toNat * Number.unitsPerOne, 10 ^ (-d.exponent).toNat)

namespace Number

/-- The number nearest to `n / d` units. The spacing of numbers is one unit below `2 ^ 53` units
and doubles with every further doubling, so counting spacings and adding one exponent step per
doubling gives the magnitude bits, also where the rounding carries into the next exponent. -/
def ofUnits (n d : Nat) : Number :=
  let doublings := (n / d).log2 - 52
  let magnitude := doublings * 2 ^ 52 + roundedQuotient n (d * 2 ^ doublings)
  ofMagnitude false (min magnitude infinityBits)

/-- The number nearest to a decimal. -/
def ofDecimal (d : Decimal) : Number := ofUnits d.units.1 d.units.2

/-- The number nearest to a natural number. -/
def ofNat (n : Nat) : Number := ofDecimal ⟨n, 0⟩

/-- The number that a numeral denotes: digits, or digits, a point and more digits. -/
def ofNumeral (t : Text) : Number :=
  let whole := t.takeWhile isDigit
  let fraction := (t.dropWhile isDigit).drop 1
  ofDecimal ⟨Text.toNat (whole ++ fraction), -fraction.length⟩

end Number

end Lox
