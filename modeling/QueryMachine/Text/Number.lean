import QueryMachine.Binary64.Decimal

/-!
# Reading numbers

An integer is an optional sign and at least one digit. A real is an optional sign and either a word
for an infinity or a NaN, in any case, or digits with an optional point and an optional exponent.
Neither reader accepts anything before or after.
-/

namespace QueryMachine.Text

/-- Whether the text starts with a minus, and the text after its sign. -/
def splitSign : List Char → Bool × List Char
  | '-' :: rest => (true, rest)
  | '+' :: rest => (false, rest)
  | text => (false, text)

def digitsValue (digits : List Char) : Nat :=
  digits.foldl (fun value c => value * 10 + (c.toNat - '0'.toNat)) 0

/-- The 64-bit integer that the text writes. -/
def readInt64? (text : List Char) : Option Int64 :=
  let (negative, digits) := splitSign text
  if digits.isEmpty || !digits.all Char.isDigit then none
  else Integer.fit? (if negative then -(digitsValue digits : Int) else digitsValue digits)

/-- The exponent after the digits of a real: zero when the text ends there. -/
def readExponent? : List Char → Option Int
  | [] => some 0
  | mark :: text =>
    if mark == 'e' || mark == 'E' then
      let (negative, digits) := splitSign text
      if digits.isEmpty || !digits.all Char.isDigit then none
      else some (if negative then -(digitsValue digits : Int) else digitsValue digits)
    else none

/-- The fraction digits, and the text after them. -/
def splitFraction : List Char → List Char × List Char
  | '.' :: rest => (rest.takeWhile Char.isDigit, rest.dropWhile Char.isDigit)
  | text => ([], text)

/-- The real that digits, point and exponent write. -/
def readDecimal? (negative : Bool) (text : List Char) : Option Binary64 :=
  let whole := text.takeWhile Char.isDigit
  let (fraction, rest) := splitFraction (text.dropWhile Char.isDigit)
  if whole.isEmpty && fraction.isEmpty then none
  else
    (readExponent? rest).map fun exponent =>
      Binary64.ofDecimal negative (digitsValue (whole ++ fraction)) (exponent - fraction.length)

/-- The real that the text writes, words for the infinities and a NaN included. -/
def readBinary64? (text : List Char) : Option Binary64 :=
  let (negative, rest) := splitSign text
  let word := String.ofList (rest.map Char.toLower)
  if word == "inf" || word == "infinity" then some (Binary64.infinity negative)
  else if word == "nan" then some Binary64.nan
  else readDecimal? negative rest

end QueryMachine.Text
