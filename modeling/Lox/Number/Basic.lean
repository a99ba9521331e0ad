/-!
# Numbers

Numbers are IEEE 754 binary64 values, held as their 64 bits: sign, eleven bits of exponent,
fifty-two bits of fraction. Every finite magnitude is a whole number of *units*, where a unit is
the smallest positive number, `2 ^ -1074`; `Number.units` is that whole number, and statements
about exact values are statements about it.

Equality is the one of the standard, on the bits: not a number differs from everything, itself
included, and the two zeros are equal.
-/

namespace Lox

-- powers of natural numbers are those of the core library, whatever else is imported
attribute [instance (2000), default_instance 20000] instPowNat

/-- A binary64 number. -/
structure Number where
  /-- The bits, sign first. -/
  bits : UInt64
  deriving DecidableEq, Inhabited

namespace Number

/-! ## Parts -/

/-- The sign bit. -/
def isNegative (x : Number) : Bool := x.bits.toNat ≥ 2 ^ 63

/-- The bits without the sign. -/
def magnitudeBits (x : Number) : Nat := x.bits.toNat % 2 ^ 63

/-- The magnitude bits of infinity; those above it are not numbers. -/
def infinityBits : Nat := 0x7ff * 2 ^ 52

/-- The exponent field. -/
def exponent (x : Number) : Nat := x.magnitudeBits / 2 ^ 52

/-- The fraction field. -/
def fraction (x : Number) : Nat := x.magnitudeBits % 2 ^ 52

/-- Whether the bits are those of no number. -/
def isNaN (x : Number) : Bool := x.magnitudeBits > infinityBits

/-- Whether a number is one of the two infinities. -/
def isInfinite (x : Number) : Bool := x.magnitudeBits == infinityBits

/-- Whether a number is finite. -/
def isFinite (x : Number) : Bool := x.magnitudeBits < infinityBits

/-- The magnitude of a finite number, in units of `2 ^ -1074`. -/
def units (x : Number) : Nat :=
  if x.exponent = 0 then x.fraction else (2 ^ 52 + x.fraction) * 2 ^ (x.exponent - 1)

/-- How many units make one. -/
def unitsPerOne : Nat := 2 ^ 1074

/-- The number with the given sign and magnitude bits. -/
def ofMagnitude (negative : Bool) (magnitude : Nat) : Number :=
  ⟨UInt64.ofNat (if negative then magnitude + 2 ^ 63 else magnitude)⟩

/-- Positive zero. -/
def zero : Number := ⟨0⟩

/-- The quiet not-a-number with a clear sign bit. -/
def nan : Number := ⟨0x7ff8000000000000⟩

/-- Positive infinity. -/
def infinity : Number := ofMagnitude false infinityBits

/-! ## Comparison and arithmetic -/

/-- Equality of the standard. -/
def equal (x y : Number) : Bool :=
  !x.isNaN && !y.isNaN && (x.bits == y.bits || (x.magnitudeBits == 0 && y.magnitudeBits == 0))

theorem equal_comm (x y : Number) : x.equal y = y.equal x := by
  simp only [equal, Bool.and_comm, Bool.beq_comm (a := x.bits)]

/-- The number as a machine number, for arithmetic. -/
def toFloat (x : Number) : Float := Float.ofBits x.bits

/-- The bits of a machine number. -/
def ofFloat (x : Float) : Number := ⟨x.toBits⟩

/-- The rounded sum. -/
def add (x y : Number) : Number := ofFloat (x.toFloat + y.toFloat)

/-- The rounded difference. -/
def sub (x y : Number) : Number := ofFloat (x.toFloat - y.toFloat)

/-- The rounded product. -/
def mul (x y : Number) : Number := ofFloat (x.toFloat * y.toFloat)

/-- Division of the standard: by zero it gives an infinity or not a number. -/
def div (x y : Number) : Number := ofFloat (x.toFloat / y.toFloat)

/-- The number with the opposite sign bit. -/
def neg (x : Number) : Number := ⟨x.bits ^^^ 0x8000000000000000⟩

/-- The order of the standard; what is not a number is in no order. -/
def less (x y : Number) : Bool := decide (x.toFloat < y.toFloat)

/-- The order of the standard with equality. -/
def lessOrEqual (x y : Number) : Bool := decide (x.toFloat ≤ y.toFloat)

/-! ## Whole numbers -/

/-- The integer part of a finite number's magnitude. -/
def wholePart (x : Number) : Nat := x.units / unitsPerOne

/-- A finite number without a fractional part. -/
def isWhole (x : Number) : Bool := x.isFinite && x.units % unitsPerOne == 0

/-- A number as a word of 32 bits: rounded toward zero and wrapped around, with zero for what is
not finite or does not fit in 64 bits with a sign. -/
def toWord (x : Number) : UInt32 :=
  if x.isFinite && x.wholePart < 2 ^ 63 then
    let n := UInt32.ofNat x.wholePart
    if x.isNegative then 0 - n else n
  else 0

end Number

end Lox
