/-!
# Numbers

A recording is kept in fixed-point numbers on the cores and in single precision on the host.

A `Binary32` is the bit pattern of a single-precision floating-point number.  Every finite one is
an integral multiple of the least positive one, `2 ^ -149`, so its exact value is an integer
number of such units and no rational arithmetic is needed: `units` reads a pattern and `ofUnits`
rounds an integer number of units to the nearest pattern, a tie to the even one.  An infinity is
read as `2 ^ 128`, the first power of two past the largest finite number.  That is the value for
which the pattern would stand if the exponents went on, so order and rounding treat it as the other
patterns.

A `Fixed` is a signed fixed-point number in one 32-bit word: sixteen integer bits and a sign, and
fifteen fraction bits.  The cores only move words; conversion from and to single precision takes
place where a recording enters and leaves the host.  A fixed-point number is written as the
single-precision number nearest to it, with the fewest decimal places that identify that one.
-/

namespace EnsembleRecording

/-- The bit pattern of a single-precision number: a sign bit, eight exponent bits and twenty-three
fraction bits.  Equality is equality of patterns; `Binary32.equals` compares the numbers. -/
structure Binary32 where
  bits : UInt32
deriving DecidableEq, Repr, Inhabited

namespace Binary32

def byteSize : Nat := 4

/-- The pattern of positive infinity.  Patterns of positive numbers lie below it in the order of
the numbers, and what lies above it is not a number. -/
def infinityBits : Nat := 0x7f800000

/-- One is this many units. -/
def unitsPerOne : Nat := 1 <<< 149

/-- The value, in units of `2 ^ -149`, of a pattern without a sign. -/
def unitsOfBits (bits : Nat) : Nat :=
  if bits < 0x800000 then bits else (0x800000 + bits % 0x800000) <<< (bits / 0x800000 - 1)

/-- The quotient rounded to the nearest integer, a tie to the even one. -/
def roundHalfEven (numerator denominator : Nat) : Nat :=
  let quotient := numerator / denominator
  let twice := 2 * (numerator % denominator)
  if twice < denominator ∨ (twice = denominator ∧ quotient % 2 = 0) then quotient
  else quotient + 1

/-- The pattern without a sign nearest to a number of units.  Twenty-four binary digits are kept;
each digit dropped raises the exponent by one.  A significand rounded up to `2 ^ 24` carries into
the exponent, which is why the two are added. -/
def bitsOfUnits (units : Nat) : Nat :=
  let dropped := units.log2 - 23
  min (dropped * 0x800000 + roundHalfEven units (1 <<< dropped)) infinityBits

/-- The pattern without its sign bit. -/
def magnitudeBits (number : Binary32) : Nat := number.bits.toNat % 0x80000000

def isNegative (number : Binary32) : Bool := decide (0x80000000 ≤ number.bits.toNat)

def isNaN (number : Binary32) : Bool := decide (infinityBits < number.magnitudeBits)

/-- The value in units of `2 ^ -149`. -/
def units (number : Binary32) : Int :=
  if number.isNegative then -(unitsOfBits number.magnitudeBits : Int)
  else unitsOfBits number.magnitudeBits

/-- The number nearest to `units * 2 ^ -149`.  Zero units give the positive zero. -/
def ofUnits (units : Int) : Binary32 :=
  let magnitude := bitsOfUnits units.natAbs
  ⟨UInt32.ofNat (if units < 0 then 0x80000000 + magnitude else magnitude)⟩

def ofInt (n : Int) : Binary32 := ofUnits (n * unitsPerOne)

def zero : Binary32 := ⟨0⟩

/-- Equality of numbers: what is not a number differs from itself, and the two zeros are equal. -/
def equals (a b : Binary32) : Bool :=
  !a.isNaN && !b.isNaN && a.units == b.units

end Binary32

/-! ## Decimal text -/

/-- The decimal `± digits / 10 ^ places`. -/
structure Decimal where
  isNegative : Bool
  digits : Nat
  places : Nat
deriving DecidableEq, Repr

namespace Decimal

/-- Digits after the point are padded with zeros on the left to the number of places. -/
def fractionText (decimal : Decimal) : String :=
  let shown := toString (decimal.digits % Nat.pow 10 decimal.places)
  "".pushn '0' (decimal.places - shown.length) ++ shown

protected def toString (decimal : Decimal) : String :=
  let sign := if decimal.isNegative then "-" else ""
  let whole := toString (decimal.digits / Nat.pow 10 decimal.places)
  if decimal.places = 0 then sign ++ whole else sign ++ whole ++ "." ++ decimal.fractionText

end Decimal

namespace Binary32

/-- Whether `digits / 10 ^ places` rounds to the magnitude of `number`.  It does between the
midpoints to the two neighbouring patterns, and on a midpoint where this pattern is the even
one. -/
def isIdentifiedBy (number : Binary32) (digits places : Nat) : Bool :=
  let bits := number.magnitudeBits
  let twice := 2 * (digits * unitsPerOne)
  let lower := (unitsOfBits (bits - 1) + unitsOfBits bits) * Nat.pow 10 places
  let upper := (unitsOfBits bits + unitsOfBits (bits + 1)) * Nat.pow 10 places
  if bits % 2 = 0 then decide (lower ≤ twice ∧ twice ≤ upper)
  else decide (lower < twice ∧ twice < upper)

/-- The nearest decimal with so many places that identifies the number, if there is one.  Only the
two decimals next to the number have to be tried: it lies between the midpoints, so where a decimal
on one side of it lies between them, the closest on that side does. -/
def identifyingDigits? (number : Binary32) (places : Nat) : Option Nat :=
  let scaled := unitsOfBits number.magnitudeBits * Nat.pow 10 places
  let below := scaled / unitsPerOne
  let above := below + 1
  match number.isIdentifiedBy below places, number.isIdentifiedBy above places with
  | true, true => if 2 * (scaled % unitsPerOne) < unitsPerOne then some below else some above
  | true, false => some below
  | false, true => some above
  | false, false => none

/-- The decimal with the fewest places that identifies a finite number.  The search ends: a finite
number has at most 149 decimal places itself. -/
def shortestDecimal (number : Binary32) : Decimal :=
  let found := (List.range 150).findSome? fun places ↦
    (number.identifyingDigits? places).map fun digits ↦ (digits, places)
  let (digits, places) := found.getD (0, 0)
  ⟨number.isNegative, digits, places⟩

end Binary32

/-! ## Fixed-point numbers -/

/-- The fixed-point number `raw / 2 ^ 15`. -/
structure Fixed where
  raw : Int32
deriving DecidableEq, Repr, Inhabited

namespace Fixed

def fractionBits : Nat := 15

def zero : Fixed := ⟨0⟩

def one : Fixed := ⟨32768⟩

/-- The largest number, just under 65536. -/
def largest : Fixed := ⟨Int32.maxValue⟩

/-- The smallest number, -65536. -/
def smallest : Fixed := ⟨Int32.minValue⟩

instance : Ord Fixed := ⟨fun a b ↦ compare a.raw b.raw⟩

instance : LE Fixed := ⟨fun a b ↦ a.raw ≤ b.raw⟩

/-- The two's-complement word that holds the number. -/
def toWord (number : Fixed) : UInt32 := number.raw.toUInt32

def ofWord (word : UInt32) : Fixed := ⟨word.toInt32⟩

@[simp]
theorem ofWord_toWord (number : Fixed) : ofWord number.toWord = number := rfl

@[simp]
theorem toWord_ofWord (word : UInt32) : (ofWord word).toWord = word := rfl

/-- One fixed-point step in the units of single precision: `2 ^ -15` is this many `2 ^ -149`. -/
def unitsPerStep : Nat := 1 <<< (149 - fractionBits)

/-- The quotient rounded to the nearest integer, a tie away from zero. -/
def roundHalfAway (numerator : Int) (denominator : Nat) : Int :=
  numerator.sign * ((2 * numerator.natAbs + denominator) / (2 * denominator) : Nat)

/-- The number with the given raw integer, or the bound of the range that it lies beyond. -/
def saturate (raw : Int) : Fixed := ⟨Int32.ofInt (max (-0x80000000) (min raw 0x7fffffff))⟩

/-- The fixed-point number nearest to a single-precision number, a tie away from zero.  Numbers out
of range go to its bounds, and what is not a number goes to zero. -/
def ofBinary32 (number : Binary32) : Fixed :=
  if number.isNaN then zero else saturate (roundHalfAway number.units unitsPerStep)

/-- The nearest single-precision number, a tie to the even one. -/
def toBinary32 (number : Fixed) : Binary32 :=
  Binary32.ofUnits (number.raw.toInt * unitsPerStep)

/-- A fixed-point number is written as the single-precision number nearest to it. -/
protected def toString (number : Fixed) : String := number.toBinary32.shortestDecimal.toString

end Fixed

/-- One learnt encoder: an element for each dimension that its neuron represents. -/
abbrev EncoderVector := List Fixed

namespace EncoderVector

def ofBinary32s (numbers : List Binary32) : EncoderVector := numbers.map Fixed.ofBinary32

/-- Vectors of at most this many elements are held inline. -/
def inlineCapacity : Nat := 8

/-- Whether a vector is too long to be held inline. -/
def isSpilled (vector : EncoderVector) : Bool := decide (inlineCapacity < vector.length)

end EncoderVector

end EnsembleRecording
