import Lox.Number.Shortest

/-!
# The text of a number

`Number.text` is what a script prints: whole numbers with all their digits, without a point and
without an exponent (both zeros are `0`), and every other finite number by its shortest decimal.
That is written positionally when its leading digit stands between `10 ^ -4` and `10 ^ 15`, and as
`d.ddde-XX` otherwise, with at least two digits of exponent.

`Number.literal` is the form that can stand in a program, where exponents are not part of a
numeral: numbers too small for positional notation are rounded to twenty places, and infinity is a
numeral too large for a finite number.
-/

namespace Lox

namespace Decimal

/-- The significant digits: no trailing zeros. -/
def significant (d : Decimal) : Text :=
  ((Text.ofNat d.digits).reverse.dropWhile (· == ascii '0')).reverse

/-- The exponent of the leading digit. -/
def leading (d : Decimal) : Int := d.exponent + (Text.ofNat d.digits).length - 1

/-- Whether the decimal is short enough around its point to be written without an exponent. -/
def isPositional (d : Decimal) : Bool := -4 ≤ d.leading && d.leading < 16

/-- The given number of zero digits. -/
def zeros (n : Nat) : Text := List.replicate n (ascii '0')

/-- Positional notation. -/
def positional (d : Decimal) : Text :=
  let s := d.significant
  if d.leading < 0 then
    utf8 "0." ++ zeros (-d.leading - 1).toNat ++ s
  else
    let places := d.leading.toNat + 1
    if s.length ≤ places then s ++ zeros (places - s.length)
    else s.take places ++ utf8 "." ++ s.drop places

/-- Scientific notation. -/
def scientific (d : Decimal) : Text :=
  let s := d.significant
  let e := Text.ofNat d.leading.natAbs
  s.take 1 ++ (if s.length > 1 then utf8 "." ++ s.drop 1 else []) ++
    utf8 (if d.leading < 0 then "e-" else "e+") ++ zeros (2 - e.length) ++ e

/-- A decimal in the notation that suits its size. -/
def text (d : Decimal) : Text := if d.isPositional then d.positional else d.scientific

end Decimal

namespace Number

/-- A minus sign if the sign bit is set. -/
def signText (x : Number) : Text := if x.isNegative then utf8 "-" else []

/-- The text of a number, as a script prints it. -/
def text (x : Number) : Text :=
  if x.isNaN then x.signText ++ utf8 "nan"
  else if x.isInfinite then x.signText ++ utf8 "inf"
  else if x.isWhole then
    if x.wholePart = 0 then utf8 "0" else x.signText ++ Text.ofNat x.wholePart
  else x.signText ++ x.shortest.text

/-- The magnitude of a finite number rounded to a count of decimal places, without trailing zeros
and without a trailing point. -/
def fixedText (x : Number) (places : Nat) : Text :=
  let n := roundedQuotient (x.units * 10 ^ places) unitsPerOne
  let below := Text.ofNat (n % 10 ^ places)
  let fraction := Decimal.zeros (places - below.length) ++ below
  let kept := (fraction.reverse.dropWhile (· == ascii '0')).reverse
  Text.ofNat (n / 10 ^ places) ++ (if kept.isEmpty then [] else utf8 "." ++ kept)

/-- How many places a literal has when its shortest decimal would need an exponent. -/
def literalPlaces : Nat := 20

/-- The text of a number as a literal of the language. There is none for what is not a number. -/
def literal (x : Number) : Text :=
  if x.isInfinite then x.signText ++ utf8 "1" ++ Decimal.zeros 309
  else if x.isNaN || x.isWhole || x.shortest.isPositional then x.text
  else x.signText ++ x.fixedText literalPlaces

end Number

end Lox
