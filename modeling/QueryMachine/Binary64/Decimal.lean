import QueryMachine.Binary64

/-!
# Decimal reading and writing of binary64 numbers

A finite number is a whole multiple of `10 ^ -1074` as well: `unitMagnitude * 5 ^ 1074` of them.
On that scale the number, the interval of reals that round to it and every decimal with few digits
are natural numbers, so the fewest digits that read back are found by exact comparison.

* `ofDecimal` — the number nearest to `digits * 10 ^ exponent`.
* `shortest` — the fewest digits that read back, the nearest of those, and of two equally near the
  larger.
* `text` — those digits written positionally, never with an exponent.
-/

namespace QueryMachine.Binary64

/-- The number nearest to `digits * 10 ^ exponent`. Exponents so large or so small that no digit
matters are settled before any power is computed. -/
def ofDecimal (negative : Bool) (digits : Nat) (exponent : Int) : Binary64 :=
  if digits = 0 then signedZero negative
  else if 400 < exponent then infinity negative
  else if exponent + digits.log2 + 1 < -400 then signedZero negative
  else if 0 ≤ exponent then ofUnits negative (digits * Nat.pow 10 exponent.toNat * unitsPerOne) 1
  else ofUnits negative (digits * unitsPerOne) (Nat.pow 10 (-exponent).toNat)

/-! ## The fewest digits -/

/-- The distance in units from the number to the next larger one. -/
def spacing (x : Binary64) : Nat := Nat.pow 2 (x.exponentField - 1)

/-- Whether `value * 10 ^ -1074` rounds to `x`: the interval reaches half way to both neighbours,
its ends belong to it when the significand is even, and below a power of two it is half as wide. -/
def reads (x : Binary64) (value : Nat) : Bool :=
  let center := 4 * x.unitMagnitude
  let below := if x.fraction = 0 && 1 < x.exponentField then x.spacing else 2 * x.spacing
  let lower := (center - below) * Nat.pow 5 1074
  let upper := (center + 2 * x.spacing) * Nat.pow 5 1074
  if x.fraction % 2 == 0 then decide (lower ≤ 4 * value) && decide (4 * value ≤ upper)
  else decide (lower < 4 * value) && decide (4 * value < upper)

/-- On the grid of multiples of `10 ^ places`, the neighbour of `exact` that reads back as `x`: the
nearer one if both do, and of two equally near the larger. -/
def neighbour? (x : Binary64) (exact places : Nat) : Option Nat :=
  let step := Nat.pow 10 places
  let low := exact / step
  let high := low + 1
  let lowReads := x.reads (low * step)
  let highReads := x.reads (high * step)
  if highReads && (!lowReads || decide (high * step - exact ≤ exact - low * step)) then some high
  else if lowReads then some low
  else none

/-- Digits `d` and exponent `e` such that `d * 10 ^ e` is the decimal with the fewest digits that
reads back as the magnitude of `x`. Seventeen digits always suffice. -/
def shortest (x : Binary64) : Nat × Int :=
  let exact := x.unitMagnitude * Nat.pow 5 1074
  let total := (Nat.toDigits 10 exact).length
  let found := (List.range 17).findSome? fun k =>
    let places := total - (k + 1)
    (x.neighbour? exact places).map fun digits => (digits, (places : Int) - 1074)
  found.getD (exact, -1074)

/-! ## Positional text -/

/-- `digits * 10 ^ exponent` without an exponent mark and without trailing zeros after the point. -/
def positional (digits : Nat) (exponent : Int) : List Char :=
  let written := Nat.toDigits 10 digits
  if 0 ≤ exponent then written ++ List.replicate exponent.toNat '0'
  else
    let places := (-exponent).toNat
    let padded := List.replicate (places + 1 - written.length) '0' ++ written
    let whole := padded.take (padded.length - places)
    let rest := ((padded.drop (padded.length - places)).reverse.dropWhile (· == '0')).reverse
    if rest.isEmpty then whole else whole ++ '.' :: rest

def magnitudeText (x : Binary64) : List Char :=
  if x.unitMagnitude = 0 then ['0'] else positional x.shortest.1 x.shortest.2

def signText (x : Binary64) : List Char := if x.isNegative then ['-'] else []

/-- The plain text of a number: the fewest digits that read back, with a sign also on a negative
zero, and words for what is not finite. -/
def text (x : Binary64) : String :=
  if x.isNaN then "NaN"
  else if x.isInfinite then (if x.isNegative then "-inf" else "inf")
  else String.ofList (x.signText ++ x.magnitudeText)

/-- All digits of the integer part, then one zero after the point: the text of a number without a
fractional part that shows it is a real. -/
def integralText (x : Binary64) : String :=
  String.ofList (x.signText ++ Nat.toDigits 10 (x.unitMagnitude / unitsPerOne) ++ ['.', '0'])

end QueryMachine.Binary64
