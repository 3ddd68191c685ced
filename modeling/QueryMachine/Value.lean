import QueryMachine.Text.Blank
import QueryMachine.Text.Number
import QueryMachine.Text.Quoted
import QueryMachine.Text.Utf8

/-!
# Values

A value is NULL, a 64-bit integer, a real, a text or a blob. This module has the type, the
coercions between its classes and the text of a value.

* `toInt64`, `toReal`, `toText` — the coercions; NULL and blobs count as zero.
* `truth?` — the truth value, unknown for NULL.
* `literal` — the value as it is written in a statement.
-/

namespace QueryMachine

/-- A dynamically typed value. -/
inductive Value where
  | null
  | int (i : Int64)
  | real (x : Binary64)
  | text (s : String)
  | blob (bytes : Bytes)
deriving DecidableEq, Repr, Inhabited

namespace Value

def className : Value → String
  | null => "null"
  | int _ => "integer"
  | real _ => "real"
  | text _ => "text"
  | blob _ => "blob"

def isNull : Value → Bool
  | null => true
  | _ => false

def int? : Value → Option Int64
  | int i => some i
  | _ => none

def real? : Value → Option Binary64
  | real x => some x
  | _ => none

def text? : Value → Option String
  | text s => some s
  | _ => none

def blob? : Value → Option Bytes
  | blob bytes => some bytes
  | _ => none

/-- A truth value as a value: unknown is NULL. -/
def ofTruth : Option Bool → Value
  | none => null
  | some true => int 1
  | some false => int 0

/-! ## Coercions -/

/-- The integer a value counts as: a real is cut to its integer part, and a text counts as the
number it writes, or zero. -/
def toInt64 : Value → Int64
  | null => 0
  | blob _ => 0
  | int i => i
  | real x => x.truncate
  | text s =>
    let trimmed := Text.trim s
    match Text.readInt64? trimmed with
    | some i => i
    | none =>
      match Text.readBinary64? trimmed with
      | some x => x.truncate
      | none => 0

def toReal : Value → Binary64
  | null => Binary64.zero
  | blob _ => Binary64.zero
  | int i => Binary64.ofInt i.toInt
  | real x => x
  | text s => (Text.readBinary64? (Text.trim s)).getD Binary64.zero

/-- A real as text, which always reads as a real: `120.0`, not `120`. -/
def realText (x : Binary64) : String :=
  if x.isNaN then "NaN"
  else if x.isInfinite then (if x.isNegative then "-Inf" else "Inf")
  else
    let plain := x.text
    if plain.toList.contains '.' then plain else plain ++ ".0"

def toText : Value → String
  | null => ""
  | int i => toString i.toInt
  | real x => realText x
  | text s => s
  | blob bytes => Text.ofBytesLenient bytes

/-- The truth value: unknown for NULL, otherwise whether the number is not zero. -/
def truth? : Value → Option Bool
  | null => none
  | int i => some (i != 0)
  | v => some (!v.toReal.equal Binary64.zero)

/-! ## Text -/

def blobLiteral (bytes : Bytes) : String := "X'" ++ String.ofList (Bytes.hex bytes) ++ "'"

/-- A value as it is shown: text in quotes, a blob in hexadecimal. -/
def literal : Value → String
  | null => "NULL"
  | int i => toString i.toInt
  | real x => realText x
  | text s => Text.singleQuoted s
  | blob bytes => blobLiteral bytes

end Value

end QueryMachine
