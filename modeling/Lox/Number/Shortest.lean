import Lox.Number.Decimal

/-!
# Shortest decimals

The decimal with the fewest digits that reads back as a given number and, among those, the one
nearest to it. For one digit, two digits and so on, the two decimals of that many digits around the
number are tried; if neither of them reads back, no decimal of that length does, because those
reading back form an interval around the number. Seventeen digits always suffice.
-/

namespace Lox

namespace Number

/-- The exponent of the leading decimal digit of a finite number other than zero. -/
def leadingExponent (x : Number) : Int :=
  if x.wholePart ≠ 0 then
    (Text.ofNat x.wholePart).length - 1
  else
    -((List.range 325).find? fun k => decide (unitsPerOne ≤ x.units * 10 ^ k)).getD 0

/-- The decimals with exponent `e` that enclose the magnitude of `x`, with the nearer one first
(and the one with an even last digit, if both are equally near). -/
def around (x : Number) (e : Int) : List Decimal :=
  let n := x.units * 10 ^ (-e).toNat
  let d := unitsPerOne * 10 ^ e.toNat
  let below : Decimal := ⟨n / d, e⟩
  let above : Decimal := ⟨n / d + 1, e⟩
  if roundedQuotient n d = n / d then [below, above] else [above, below]

/-- Whether a decimal reads as the magnitude of `x`. -/
def readsBack (x : Number) (d : Decimal) : Bool :=
  (ofDecimal d).magnitudeBits == x.magnitudeBits

/-- The nearest decimal of the given length that reads back, if there is one. -/
def ofLength? (x : Number) (length : Nat) : Option Decimal :=
  (x.around (x.leadingExponent - (length - 1 : Nat))).find? x.readsBack

/-- The shortest decimal for the magnitude of a finite number other than zero. -/
def shortest (x : Number) : Decimal :=
  ((List.range 17).findSome? fun k => x.ofLength? (k + 1)).getD ⟨0, 0⟩

theorem readsBack_of_ofLength? {x : Number} {length : Nat} {d : Decimal}
    (h : x.ofLength? length = some d) : x.readsBack d = true :=
  List.find?_some h

end Number

end Lox
