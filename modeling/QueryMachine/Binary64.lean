import QueryMachine.Integer

/-!
# Binary64 numbers

The 64-bit interchange format, as its bit pattern, with exact arithmetic on top.

Every finite number of the format is a whole multiple of `2 ^ -1074`, the smallest positive one.
`Binary64.units` gives that multiple, so order, truncation and the exact results of addition,
multiplication and division are facts about `Int`; `ofUnits` is the only place that rounds.
The same formula places the two infinities beyond every finite number.

* `units` — the number in multiples of `2 ^ -1074`.
* `ofUnits` — the number nearest to a quotient of units, a half going to the even neighbour.
* `compare?` — numerical order; a NaN is comparable with nothing.
* `truncate` — the integer part, kept inside the 64-bit range.
-/

namespace QueryMachine

/-- A number of the 64-bit binary interchange format, held as its bit pattern. -/
structure Binary64 where
  bits : UInt64
deriving DecidableEq, Repr, Inhabited

namespace Binary64

/-! ## Fields -/

/-- The bit that holds the sign, by its weight. -/
def signBit : Nat := 0x8000000000000000

/-- The bit above the fraction, by its weight: a normal number has it without storing it. -/
def hiddenBit : Nat := 0x10000000000000

/-- The highest bit of the fraction, by its weight, which a quiet NaN has set. -/
def quietBit : Nat := 0x8000000000000

def isNegative (x : Binary64) : Bool := decide (signBit ≤ x.bits.toNat)

def magnitude (x : Binary64) : Nat := x.bits.toNat % signBit

def exponentField (x : Binary64) : Nat := x.magnitude / hiddenBit

/-- The fifty-two fraction bits. -/
def fraction (x : Binary64) : Nat := x.magnitude % hiddenBit

/-- The magnitude of the infinities: every larger magnitude is a NaN. -/
def infiniteMagnitude : Nat := 2047 * hiddenBit

def isNaN (x : Binary64) : Bool := decide (infiniteMagnitude < x.magnitude)

def isInfinite (x : Binary64) : Bool := decide (x.magnitude = infiniteMagnitude)

def isFinite (x : Binary64) : Bool := decide (x.magnitude < infiniteMagnitude)

/-! ## Building numbers from a sign and a magnitude -/

def ofMagnitude (negative : Bool) (magnitude : Nat) : Binary64 :=
  ⟨UInt64.ofNat (if negative then signBit + magnitude else magnitude)⟩

def signedZero (negative : Bool) : Binary64 := ofMagnitude negative 0

def zero : Binary64 := signedZero false

def infinity (negative : Bool) : Binary64 := ofMagnitude negative infiniteMagnitude

/-- The quiet NaN that every undefined operation gives. -/
def nan : Binary64 := ofMagnitude false (infiniteMagnitude + quietBit)

/-! ## The exact value -/

def unitsPerOne : Nat := Nat.pow 2 1074

/-- The magnitude in units: a zero exponent field has no hidden bit. -/
def unitMagnitude (x : Binary64) : Nat :=
  if x.exponentField = 0 then x.fraction
  else (hiddenBit + x.fraction) * Nat.pow 2 (x.exponentField - 1)

/-- The number in units of `2 ^ -1074`. -/
def units (x : Binary64) : Int :=
  if x.isNegative then -(x.unitMagnitude : Int) else x.unitMagnitude

/-- `num / den` to the nearest whole number, a half going to the even neighbour. -/
def roundHalfEven (num den : Nat) : Nat :=
  let quotient := num / den
  let remainder := num % den
  if den < 2 * remainder || (2 * remainder == den && quotient % 2 == 1) then quotient + 1
  else quotient

/-- The number nearest to `num / den` units. The shift leaves 53 significant bits; adding the
rounded significand to the shifted exponent carries into the next binade by itself. -/
def ofUnits (negative : Bool) (num den : Nat) : Binary64 :=
  let shift := (num / den).log2 - 52
  let magnitude := shift * hiddenBit + roundHalfEven num (den * Nat.pow 2 shift)
  ofMagnitude negative (min magnitude infiniteMagnitude)

/-! ## Order -/

/-- Numerical order. The two zeros are equal, and a NaN is comparable with nothing. -/
def compare? (x y : Binary64) : Option Ordering :=
  if x.isNaN || y.isNaN then none else some (compare x.units y.units)

/-- Numerical equality: false for a NaN, true for the two zeros. -/
def equal (x y : Binary64) : Bool := x.compare? y == some .eq

/-! ## Conversions to and from integers -/

def ofInt (i : Int) : Binary64 := ofUnits (decide (i < 0)) (i.natAbs * unitsPerOne) 1

/-- The integer part, kept inside the 64-bit range; a NaN gives zero. -/
def truncate (x : Binary64) : Int64 :=
  if x.isNaN then 0 else Integer.clamp (x.units.tdiv unitsPerOne)

/-- How a 64-bit integer compares with a number; every integer is above a NaN. Outside the 64-bit
range the side decides and inside it the integer part; only where the two are the same is the integer
rounded. -/
def compareInt (i : Int) (x : Binary64) : Ordering :=
  if x.isNaN then .gt
  else if x.units < -0x8000000000000000 * unitsPerOne then .gt
  else if 0x8000000000000000 * unitsPerOne ≤ x.units then .lt
  else (compare i x.truncate.toInt).then (((ofInt i).compare? x).getD .eq)

/-- The integer that a finite number without a fractional part is. -/
def toInt? (x : Binary64) : Option Int :=
  if x.isFinite && x.units % unitsPerOne == 0 then some (x.units / unitsPerOne) else none

/-- The 64-bit integer that the number is, if it is one. -/
def toInt64? (x : Binary64) : Option Int64 := x.toInt?.bind Integer.fit?

/-! ## Arithmetic: the exact result, rounded once -/

/-- The sum. A sum of zero is negative only when both terms are. -/
def add (x y : Binary64) : Binary64 :=
  if x.isNaN || y.isNaN then nan
  else if x.isInfinite then (if y.isInfinite && x.isNegative != y.isNegative then nan else x)
  else if y.isInfinite then y
  else
    let sum := x.units + y.units
    if sum = 0 then signedZero (x.isNegative && y.isNegative)
    else ofUnits (decide (sum < 0)) sum.natAbs 1

/-- The number with the other sign. -/
def neg (x : Binary64) : Binary64 := ofMagnitude (!x.isNegative) x.magnitude

/-- The difference. -/
def sub (x y : Binary64) : Binary64 := x.add y.neg

/-- The product. -/
def mul (x y : Binary64) : Binary64 :=
  let negative := x.isNegative != y.isNegative
  if x.isNaN || y.isNaN then nan
  else if x.isInfinite || y.isInfinite then
    (if x.unitMagnitude = 0 || y.unitMagnitude = 0 then nan else infinity negative)
  else ofUnits negative (x.unitMagnitude * y.unitMagnitude) unitsPerOne

/-- The quotient. -/
def div (x y : Binary64) : Binary64 :=
  let negative := x.isNegative != y.isNegative
  if x.isNaN || y.isNaN then nan
  else if x.isInfinite then (if y.isInfinite then nan else infinity negative)
  else if y.isInfinite then signedZero negative
  else if y.unitMagnitude = 0 then (if x.unitMagnitude = 0 then nan else infinity negative)
  else ofUnits negative (x.unitMagnitude * unitsPerOne) y.unitMagnitude

end Binary64

end QueryMachine
